import Wine.Lib.SplitWord

/-!
# The times of KUSER_SHARED_DATA (`server/fd.c`, readers in `dlls/ntdll`, `dlls/kernelbase`)

The server publishes InterruptTime, SystemTime, TickCount and TimeZoneBias in the page shared
with every process, each a KSYSTEM_TIME of three 32-bit cells. `set_user_shared_data_time`
stores `time >> 32` into High2Time, `time` into LowPart and `time >> 32` into High1Time, in
that order and each as one store seen in order by other processors. The readers
(`RtlQueryUnbiasedInterruptTime`, `get_current_tz_bias`, `GetTickCount64`,
`QueryInterruptTime`) load High1Time and LowPart until High2Time equals the High1Time they
loaded, and return `(ULONGLONG)high << 32 | low`.

This is `SplitWord` with the halves of a 64-bit value. A value is its bit pattern as a
ULONGLONG; the interleaving is of whole loads and stores, the order the code relies on.
-/

namespace Wine.Server.SharedTime

def highPart (time : UInt64) : UInt32 := (time >>> 32).toUInt32

def lowPart (time : UInt64) : UInt32 := time.toUInt32

/-- What the readers return: `(ULONGLONG)high << 32 | low`. -/
def joinParts (high low : UInt32) : UInt64 := high.toUInt64 <<< 32 ||| low.toUInt64

/-- The shared page's view of one KSYSTEM_TIME, with the readers `ι` of it. -/
abbrev SharedState (ι : Type) := SplitWord.State UInt32 UInt32 UInt64 ι

/-- The page once the server has published `times 0`, before any reader has started. -/
def sharedInit {ι : Type} (times : Nat → UInt64) : SharedState ι :=
  SplitWord.init highPart lowPart times

/-- An interleaving of the stores of `set_user_shared_data_time`, publishing `times 1, times 2,
...` in turn, with the loads of the readers' loops. -/
def sharedRun {ι : Type} [DecidableEq ι] (times : Nat → UInt64) (s : SharedState ι)
    (acts : List (SplitWord.Act ι)) : SharedState ι :=
  SplitWord.run highPart lowPart joinParts times s acts

/-! The word split. -/

theorem toNat_highPart (time : UInt64) : (highPart time).toNat = time.toNat / 2 ^ 32 := by
  have := time.toNat_lt
  simp only [highPart, UInt64.toNat_toUInt32, UInt64.toNat_shiftRight, Nat.shiftRight_eq_div_pow,
    UInt64.reduceToNat, Nat.reduceMod]
  omega

theorem toNat_joinParts (high low : UInt32) :
    (joinParts high low).toNat = high.toNat * 2 ^ 32 + low.toNat := by
  have hh := high.toNat_lt
  have hl := low.toNat_lt
  simp only [joinParts, UInt64.toNat_or, UInt64.toNat_shiftLeft, UInt32.toNat_toUInt64,
    Nat.shiftLeft_eq, UInt64.reduceToNat, Nat.reduceMod]
  rw [Nat.mod_eq_of_lt (by omega), Nat.mul_comm, Nat.two_pow_add_eq_or_of_lt hl]

theorem joinParts_parts (time : UInt64) : joinParts (highPart time) (lowPart time) = time := by
  have := time.toNat_lt
  apply UInt64.toNat_inj.mp
  rw [toNat_joinParts, toNat_highPart, lowPart, UInt64.toNat_toUInt32]
  omega

theorem highPart_joinParts (high low : UInt32) : highPart (joinParts high low) = high := by
  have := low.toNat_lt
  apply UInt32.toNat_inj.mp
  rw [toNat_highPart, toNat_joinParts]
  omega

theorem lowPart_joinParts (high low : UInt32) : lowPart (joinParts high low) = low := by
  have := low.toNat_lt
  apply UInt32.toNat_inj.mp
  rw [lowPart, UInt64.toNat_toUInt32, toNat_joinParts]
  omega

theorem toNat_highPart_le {x y : UInt64} (h : x.toNat ≤ y.toNat) :
    (highPart x).toNat ≤ (highPart y).toNat := by
  rw [toNat_highPart, toNat_highPart]
  exact Nat.div_le_div_right h

/-! What a reader returns, over every interleaving. -/

section Readers

variable {ι : Type} [DecidableEq ι]

/-- InterruptTime and TickCount are published from the monotonic clock, and never decrease.
Then, however the loads of a reader interleave with the server's stores, the reader returns a
published value: one whose store was finished no earlier than the reader started and begun no
later than it returned. -/
theorem monotone_read_published (times : Nat → UInt64) (hmono : Monotone fun n => (times n).toNat)
    {s : SharedState ι} (hs : SplitWord.CellsOk highPart lowPart times s) {i : ι}
    (hstart : s.readers i = .start) (acts : List (SplitWord.Act ι)) {value : UInt64}
    (hv : (sharedRun times s acts).readers i = .done value) :
    ∃ n, s.stores / 3 ≤ n ∧
      n ≤ ((sharedRun times s acts).stores + 2) / 3 ∧
      value = times n :=
  have hhigh : Monotone ((fun v => (highPart v).toNat) ∘ times) :=
    fun _ _ h => toNat_highPart_le (hmono h)
  have hback := SplitWord.back_of_monotone hhigh
  SplitWord.returned_written highPart lowPart joinParts times
    (fun a b c hab hbc heq => UInt32.toNat_inj.mp (hback a b c hab hbc (congrArg UInt32.toNat heq)))
    joinParts_parts hs hstart acts hv

def oneTick (n : Nat) : UInt64 := if n = 0 then 0 else 0x100000001

theorem oneTick_monotone : Monotone fun n => (oneTick n).toNat := by
  intro a b hab
  by_cases ha : a = 0
  · simp [oneTick, ha]
  · have hb : b ≠ 0 := by omega
    simp [oneTick, ha, hb]

def interleavedActs : List (SplitWord.Act Unit) :=
  [.reader (), .writer, .reader (), .reader (), .writer, .writer, .reader (), .reader (), .reader ()]

theorem monotone_read_published_interleaved :
    Monotone (fun n => (oneTick n).toNat) ∧
      (sharedRun oneTick (sharedInit oneTick : SharedState Unit) interleavedActs).readers () =
        .done 0x100000001 ∧
      ∃ n, 0 / 3 ≤ n ∧
        n ≤ ((sharedRun oneTick (sharedInit oneTick : SharedState Unit) interleavedActs).stores + 2) / 3 ∧
        (0x100000001 : UInt64) = oneTick n :=
  have hv : (sharedRun oneTick (sharedInit oneTick : SharedState Unit) interleavedActs).readers () =
      .done 0x100000001 := rfl
  ⟨oneTick_monotone, hv, monotone_read_published oneTick oneTick_monotone
    (SplitWord.cellsOk_init _ _ _) rfl _ hv⟩

/-- TimeZoneBias follows the local offset, which can go back. A reader then returns exactly the
high half of one published bias joined with the low half of a later one, where a bias later
still has that high half: when the bias moves away from a high half and back during one read,
the reader returns a value the server never published. -/
theorem sharedTime_returned_iff (biases : Nat → UInt64) (i : ι) (value : UInt64) :
    (∃ acts, (sharedRun biases (sharedInit biases) acts).readers i = .done value) ↔
      ∃ a b c, a ≤ b ∧ b ≤ c ∧ highPart (biases a) = highPart (biases c) ∧
        highPart value = highPart (biases a) ∧ lowPart value = lowPart (biases b) := by
  unfold sharedRun sharedInit
  rw [SplitWord.returned_iff]
  constructor
  · rintro ⟨a, b, c, hab, hbc, heq, rfl⟩
    exact ⟨a, b, c, hab, hbc, heq, highPart_joinParts _ _, lowPart_joinParts _ _⟩
  · rintro ⟨a, b, c, hab, hbc, heq, hhigh, hlow⟩
    refine ⟨a, b, c, hab, hbc, heq, ?_⟩
    rw [← hhigh, ← hlow, joinParts_parts]

/-- A bias of 0, then one hour east (-36000000000 ticks), then 0 again: a reader that loads the
main high cell before the change, the low cell after it and the guard cell after the change
back returns 2654705664 ticks, about 265 seconds, which was never the bias. -/
example : ∃ acts, (sharedRun (fun n => if n = 1 then 18446744037709551616 else 0)
    (sharedInit (fun n => if n = 1 then 18446744037709551616 else 0) : SharedState Unit)
      acts).readers () = .done 2654705664 :=
  SplitWord.returnable_returned highPart lowPart joinParts _ () (a := 0) (b := 1) (c := 2)
    (by decide) (by decide) (by decide)

end Readers

end Wine.Server.SharedTime
