import Wine.Ntdll.Bitmap
import Wine.Msvcrt.Qsort

/-!
# Series of runs (`NTDLL_FindRuns`, `dlls/ntdll/rtlbitmap.c`)

`RtlFindSetRuns` and `RtlFindClearRuns` call `NTDLL_FindRuns` with `NTDLL_FindSetRun` or
`NTDLL_FindClearRun`, which it calls again from the end of each run found, so every call after
the first may start inside a byte. With `bLongest` the `ulCount` runs kept are sorted longest
first by ntdll's `qsort`, whose `quick_sort` is the one of msvcrt. The loop takes a fuel argument,
a pass per value of the `ULONG` `ulPos` and one more, and returns `none` when it runs out.
-/

namespace Wine.Ntdll.Bitmap

open Mem

set_option autoImplicit false

/-! ## The code -/

/-- `RTL_BITMAP_RUN`. -/
structure BitmapRun where
  startingIndex : Nat
  numberOfBits : Nat
deriving DecidableEq, Repr

/-- `NTDLL_RunSortFn`: the longer run first. Two runs of one length compare as `1` either way. -/
def runSortFn (lhs rhs : BitmapRun) : Int :=
  if lhs.numberOfBits > rhs.numberOfBits then -1 else 1

/-- `qsort(lpSeries, ulRuns, sizeof(RTL_BITMAP_RUN), NTDLL_RunSortFn)` with a 64-bit `size_t`. -/
def sortRuns (series : List BitmapRun) : Run (Option (List BitmapRun)) :=
  Msvcrt.qsort runSortFn 64 (2 ^ 64) 8 series

/-- The loop of `NTDLL_FindRuns` from `ulPos`, with `bNeedSort` and the runs found so far,
`lpSeries[0 .. ulRuns)`: the runs when the loop ends. -/
def findRunsLoop (fn : Nat → Nat × Nat) (size count : Nat) (longest : Bool) :
    Nat → Bool → Nat → List BitmapRun → Run (Option (List BitmapRun))
  | 0, _, _, _ => pure none
  | fuel + 1, needSort, pos, series =>
    if pos < size then
      let found := fn pos
      let pos := (found.1 + found.2) % 2 ^ 32
      if found.1 = ulongMax then pure (some series)
      else if longest ∧ series.length = count then do
        -- sort the runs with the shortest at the end
        let sorted ← if needSort then sortRuns series else pure (some series)
        match sorted with
        | none => pure none
        | some series =>
          -- replace the last run if this one is bigger
          if (series.getD (count - 1) ⟨0, 0⟩).numberOfBits < found.2 then
            findRunsLoop fn size count longest fuel
              (needSort || decide (1 < count ∧ (series.getD (count - 2) ⟨0, 0⟩).numberOfBits < found.2))
              pos (series.set (count - 1) ⟨found.1, found.2⟩)
          else findRunsLoop fn size count longest fuel needSort pos series
      else if longest = false ∧ series.length + 1 = count then
        pure (some (series ++ [⟨found.1, found.2⟩]))
      else findRunsLoop fn size count longest fuel needSort pos (series ++ [⟨found.1, found.2⟩])
    else pure (some series)

/-- `NTDLL_FindRuns(lpBits, lpSeries, ulCount, bLongest, fn)` on a bitmap of `size` bits: the
value returned, and the runs it wrote to `lpSeries`. -/
def findRuns (fn : Nat → Nat × Nat) (size count : Nat) (longest : Bool) :
    Run (Option (Nat × List BitmapRun)) :=
  if count = 0 then pure (some (ulongMax, []))
  else do
    let series ← findRunsLoop fn size count longest (2 ^ 32 + 1) (decide (1 < count)) 0 []
    pure (series.map fun series => (series.length, series))

def rtlFindSetRuns (bm : RtlBitmap) (count : Nat) (longest : Bool) :
    Run (Option (Nat × List BitmapRun)) :=
  findRuns (ntdllFindSetRun bm) bm.size count longest

def rtlFindClearRuns (bm : RtlBitmap) (count : Nat) (longest : Bool) :
    Run (Option (Nat × List BitmapRun)) :=
  findRuns (ntdllFindClearRun bm) bm.size count longest

/-- The length `RtlFindLongestRunSet` and `RtlFindLongestRunClear` return after their call with
`ulCount = 1` and `bLongest = TRUE`, and `*pulStart` if they write it. -/
def longestRun (runs : Run (Option (Nat × List BitmapRun))) : Run (Option (Nat × Option Nat)) := do
  let found ← runs
  pure (found.map fun found =>
    if found.1 = 1 then
      ((found.2.getD 0 ⟨0, 0⟩).numberOfBits, some (found.2.getD 0 ⟨0, 0⟩).startingIndex)
    else (0, none))

def rtlFindLongestRunSet (bm : RtlBitmap) : Run (Option (Nat × Option Nat)) :=
  longestRun (rtlFindSetRuns bm 1 true)

def rtlFindLongestRunClear (bm : RtlBitmap) : Run (Option (Nat × Option Nat)) :=
  longestRun (rtlFindClearRuns bm 1 true)

/-! ## The series without `bLongest` -/

section Series

variable {fn : Nat → Nat × Nat} {size count fuel pos : Nat} {needSort : Bool}
  {series : List BitmapRun}

theorem findRunsLoop_append (hpos : pos < size) (hfound : (fn pos).1 ≠ ulongMax)
    (hcount : series.length + 1 ≠ count) :
    findRunsLoop fn size count false (fuel + 1) needSort pos series =
      findRunsLoop fn size count false fuel needSort (((fn pos).1 + (fn pos).2) % 2 ^ 32)
        (series ++ [⟨(fn pos).1, (fn pos).2⟩]) := by
  rw [findRunsLoop, if_pos hpos]
  simp only [hfound, Bool.false_eq_true, false_and, hcount, and_false, if_false]

theorem findRunsLoop_last (hpos : pos < size) (hfound : (fn pos).1 ≠ ulongMax)
    (hcount : series.length + 1 = count) :
    findRunsLoop fn size count false (fuel + 1) needSort pos series =
      .ok (some (series ++ [⟨(fn pos).1, (fn pos).2⟩])) := by
  rw [findRunsLoop, if_pos hpos]
  simp only [hfound, Bool.false_eq_true, false_and, hcount, and_self, if_false, if_true]
  rfl

end Series

/-- Two set runs in the first byte, after a clear gap, and below its clear last bit: the second
run is reported at `q + e`, where it starts at `q`. The search for it starts at the end `e` of
the first run, inside the byte, and `NTDLL_FindSetRun` adds the place of `q` in the byte to
`e`. -/
theorem rtlFindSetRuns_unaligned_second (bm : RtlBitmap) {p e q : Nat} (hsize : 8 ≤ bm.size)
    (hpe : p < e) (heq : e < q) (hq7 : q < 7) (hlow : ∀ i, i < p → bm.bit i = false)
    (hrun : ∀ i, p ≤ i → i < e → bm.bit i = true) (hgap : ∀ i, e ≤ i → i < q → bm.bit i = false)
    (hq : bm.bit q = true) (h7 : bm.bit 7 = false) :
    ∃ n, 0 < n ∧ rtlFindSetRuns bm 2 false = .ok (some (2, [⟨p, e - p⟩, ⟨q + e, n⟩])) := by
  obtain ⟨n₁, -, hfirst, hlen⟩ := @ntdllFindSetRun_inByte bm 0 p (Nat.zero_le p)
    (by omega) (hrun p le_rfl hpe) (fun i _ hi => hlow i hi) h7
  have hn₁ : n₁ = e - p := hlen (e - p) (fun i h1 h2 => hrun i h1 (by omega))
    (by rw [show p + (e - p) = e by omega]; exact hgap e le_rfl heq)
  have he8 : e - e % 8 + 7 = 7 := by omega
  obtain ⟨n, hpos, hsecond, -⟩ := @ntdllFindSetRun_inByte bm e q heq.le
    (by omega) hq hgap (by rw [he8]; exact h7)
  refine ⟨n, hpos, ?_⟩
  have hp : (ntdllFindSetRun bm 0).1 = p := by
    rw [hfirst]
    exact Nat.mod_eq_of_lt (by omega)
  have hfn₁ : (ntdllFindSetRun bm 0).2 = e - p := by rw [hfirst, hn₁]
  have hend : ((ntdllFindSetRun bm 0).1 + (ntdllFindSetRun bm 0).2) % 2 ^ 32 = e := by
    rw [hp, hfn₁, Nat.add_sub_cancel' hpe.le]
    exact Nat.mod_eq_of_lt (by omega)
  have hqe : (ntdllFindSetRun bm e).1 = q + e := by
    rw [hsecond, Nat.mod_eq_of_lt (by omega : q + e % 8 < 2 ^ 32), Nat.mod_eq_of_lt (by omega)]
  have hfn₂ : (ntdllFindSetRun bm e).2 = n := by rw [hsecond]
  unfold rtlFindSetRuns findRuns
  rw [if_neg (by decide), show 2 ^ 32 + 1 = (2 ^ 32 - 1) + 1 + 1 from rfl,
    findRunsLoop_append (by omega) (by rw [hp]; unfold ulongMax; omega) (by decide), hend,
    findRunsLoop_last (by omega) (by rw [hqe]; unfold ulongMax; omega) (by simp), hp, hfn₁,
    hqe, hfn₂]
  rfl

theorem rtlFindSetRuns_bits_0_2 :
    ∃ n, 0 < n ∧ rtlFindSetRuns
      { size := 8, buffer := fun i => if i = 0 then 5 else 0, size_lt := by decide,
        buffer_lt := fun i => by split <;> decide } 2 false =
        .ok (some (2, [⟨0, 1 - 0⟩, ⟨2 + 1, n⟩])) :=
  rtlFindSetRuns_unaligned_second _ (p := 0) (e := 1) (q := 2) (by decide) (by decide) (by decide)
    (by decide) (fun i h => absurd h (Nat.not_lt_zero i))
    (fun i h1 h2 => by
      obtain rfl : i = 0 := by omega
      decide) (fun i h1 h2 => by
      obtain rfl : i = 1 := by omega
      decide) (by decide) (by decide)

end Wine.Ntdll.Bitmap
