import Wine.Lib.Memory

/-! _splitpath_s (dlls/msvcrt/dir.c). The input is the checked object of its bytes with the
terminating NUL, so a read past the NUL is a fault. A component argument is NULL or the
caller's object, with the size passed for it. _ismbblead is the predicate of the active
multibyte code page. The jump to do_error carries the buffers as they are at the jump. -/

namespace Wine.Msvcrt

open Mem

set_option autoImplicit false

def einval : Nat := 22
def erange : Nat := 34

/-- A component argument: NULL or the object the pointer addresses, and its size. -/
structure Buf where
  obj : Option (List Nat)
  size : Nat

/-- The argument test: a NULL pointer with a size, or a pointer with size 0. -/
def Buf.bad (b : Buf) : Bool := (b.obj.isNone && b.size != 0) || (b.obj.isSome && b.size == 0)

/-- The four component buffers. -/
structure Parts where
  drive : Option (List Nat)
  dir : Option (List Nat)
  fname : Option (List Nat)
  ext : Option (List Nat)

/-- The body up to do_error; throw is the jump, with the buffers at that point. -/
abbrev Split := ExceptT Parts Run

/-- inpath[0] && inpath[1] == ':' -/
def hasDrive (s : List Nat) : Run Bool := do
  let c0 ← load s 0
  if c0 = 0 then pure false
  else do
    let c1 ← load s 1
    pure (c1 = ':'.toNat)

/-- The scan for the end of the directory part: the index after the last separator. The byte
after a lead byte is skipped without a look at the terminator. -/
def dirScan (isLead : Nat → Bool) (s : List Nat) : Nat → Nat → Option Nat → Run (Option Nat)
  | 0, _, e => pure e
  | fuel + 1, p, e => do
    let c ← load s p
    if c = 0 then pure e
    else if isLead c then dirScan isLead s fuel (p + 2) e
    else if c = '/'.toNat ∨ c = '\\'.toNat then dirScan isLead s fuel (p + 1) (some (p + 1))
    else dirScan isLead s fuel (p + 1) e

/-- The scan for the extension: the index of the NUL and of the last '.'. -/
def extScan (s : List Nat) : Nat → Nat → Option Nat → Run (Nat × Option Nat)
  | 0, p, e => pure (p, e)
  | fuel + 1, p, e => do
    let c ← load s p
    if c = 0 then pure (p, e)
    else extScan s fuel (p + 1) (if c = '.'.toNat then some p else e)

/-- strlen(s + p). -/
def strlenFrom (s : List Nat) : Nat → Nat → Run Nat
  | 0, _ => pure 0
  | fuel + 1, p => do
    let c ← load s p
    if c = 0 then pure 0 else (· + 1) <$> strlenFrom s fuel (p + 1)

/-- The drive block: where the rest of the path starts. -/
def splitDrive (s : List Nat) (sizeDrive : Nat) (parts : Parts) : Split (Nat × Parts) := do
  if ← hasDrive s then
    match parts.drive with
    | some d =>
      if sizeDrive ≤ 2 then throw parts
      let c0 ← (load s 0 : Run Nat)
      let d ← store d 0 c0
      let c1 ← (load s 1 : Run Nat)
      let d ← store d 1 c1
      let d ← store d 2 0
      pure (2, { parts with drive := some d })
    | none => pure (2, parts)
  else
    match parts.drive with
    | some d => do
      let d ← store d 0 0
      pure (0, { parts with drive := some d })
    | none => pure (0, parts)

/-- The directory block, from start: where the file name starts. -/
def splitDir (isLead : Nat → Bool) (s : List Nat) (start sizeDir : Nat) (parts : Parts) :
    Split (Nat × Parts) := do
  match ← dirScan isLead s (s.length + 1) start none with
  | some e =>
    match parts.dir with
    | some d =>
      if sizeDir ≤ e - start then throw parts
      let d ← copy d 0 s start (e - start)
      let d ← store d (e - start) 0
      pure (e, { parts with dir := some d })
    | none => pure (e, parts)
  | none =>
    match parts.dir with
    | some d => do
      let d ← store d 0 0
      pure (start, { parts with dir := some d })
    | none => pure (start, parts)

/-- The file name, from start up to the extension at e. -/
def splitFname (s : List Nat) (start e sizeFname : Nat) (parts : Parts) : Split Parts :=
  match parts.fname with
  | some d => do
    if sizeFname ≤ e - start then throw parts
    let d ← copy d 0 s start (e - start)
    let d ← store d (e - start) 0
    pure { parts with fname := some d }
  | none => pure parts

/-- The extension: strcpy(ext, end). -/
def splitExt (s : List Nat) (e sizeExt : Nat) (parts : Parts) : Split Parts :=
  match parts.ext with
  | some d => do
    let n ← strlenFrom s (s.length + 1) e
    if sizeExt ≤ n then throw parts
    let d ← copy d 0 s e (n + 1)
    pure { parts with ext := some d }
  | none => pure parts

def splitBody (isLead : Nat → Bool) (s : List Nat) (drive dir fname ext : Buf) : Split Parts := do
  let (start, parts) ← splitDrive s drive.size ⟨drive.obj, dir.obj, fname.obj, ext.obj⟩
  let (start, parts) ← splitDir isLead s start dir.size parts
  let (nul, dot) ← extScan s (s.length + 1) start none
  let e := dot.getD nul
  let parts ← splitFname s start e fname.size parts
  splitExt s e ext.size parts

/-- do_error: every buffer that was passed is emptied. -/
def clearParts (parts : Parts) : Run Parts := do
  let drive ← parts.drive.mapM fun d => store d 0 0
  let dir ← parts.dir.mapM fun d => store d 0 0
  let fname ← parts.fname.mapM fun d => store d 0 0
  let ext ← parts.ext.mapM fun d => store d 0 0
  pure ⟨drive, dir, fname, ext⟩

/-- _splitpath_s: the return value, which is also stored in errno, and the buffers. -/
def splitpathS (isLead : Nat → Bool) (inpath : Option (List Nat)) (drive dir fname ext : Buf) :
    Run (Nat × Parts) :=
  match inpath with
  | none => pure (einval, ⟨drive.obj, dir.obj, fname.obj, ext.obj⟩)
  | some s =>
    if drive.bad || dir.bad || fname.bad || ext.bad then
      pure (einval, ⟨drive.obj, dir.obj, fname.obj, ext.obj⟩)
    else do
      match ← (splitBody isLead s drive dir fname ext).run with
      | .ok parts => pure (0, parts)
      | .error parts => do
        let parts ← clearParts parts
        pure (erange, parts)

section ReadsPastNul

variable (isLead : Nat → Bool) {t : List Nat} {a : Nat}

theorem dirScan_lead_last (ht : ∀ c ∈ t, c ≠ 0 ∧ isLead c = false) (ha : isLead a = true)
    (ha0 : a ≠ 0) : ∀ fuel p e, p ≤ t.length → t.length + 2 ≤ p + fuel →
      dirScan isLead (t ++ [a, 0]) fuel p e = .error .outOfBounds := by
  intro fuel
  induction fuel with
  | zero => intro p e _ hfuel; omega
  | succ fuel ih =>
    intro p e hp hfuel
    rcases Nat.lt_or_ge p t.length with hlt | hge
    · have hc := ht t[p] (List.getElem_mem hlt)
      have hload : load (t ++ [a, 0]) p = .ok t[p] := by
        rw [load_of_lt (by simp; omega), List.getElem_append_left hlt]
      rw [dirScan, hload, ok_bind, if_neg hc.1, hc.2, if_neg Bool.false_ne_true]
      split_ifs
      · exact ih (p + 1) _ hlt (by omega)
      · exact ih (p + 1) _ hlt (by omega)
    · have hpt : p = t.length := by omega
      subst hpt
      have hload : load (t ++ [a, 0]) t.length = .ok a := by
        rw [load_of_lt (by simp), List.getElem_append_right (le_refl _)]
        simp
      rw [dirScan, hload, ok_bind, if_neg ha0, if_pos ha]
      cases fuel with
      | zero => omega
      | succ fuel =>
        rw [dirScan, load_eq_error (by simp), error_bind]

theorem hasDrive_lead_last (ht : ∀ c ∈ t, c ≠ 0 ∧ isLead c = false) (ha0 : a ≠ 0)
    (hcolon : a ≠ ':'.toNat) :
    ∃ b, hasDrive (t ++ [a, 0]) = .ok b ∧ (b = true → 2 ≤ t.length) := by
  have h0 : (t ++ [a, 0])[0] ≠ 0 := by
    rcases t with _ | ⟨c, t⟩
    · exact ha0
    · exact (ht c List.mem_cons_self).1
  refine ⟨decide ((t ++ [a, 0])[1] = ':'.toNat), ?_, fun hb => ?_⟩
  · rw [hasDrive, load_of_lt (by simp), ok_bind, if_neg h0, load_of_lt (by simp), ok_bind]
    rfl
  · rcases t with _ | ⟨c, _ | ⟨c', t⟩⟩
    · simp at hb
    · simp only [List.cons_append, List.getElem_cons_succ, decide_eq_true_eq] at hb
      exact absurd hb hcolon
    · simp

theorem splitDrive_lead_last (ht : ∀ c ∈ t, c ≠ 0 ∧ isLead c = false) (ha0 : a ≠ 0)
    (hcolon : a ≠ ':'.toNat) {sizeDrive : Nat} (parts : Parts)
    (hdrive : ∀ d, parts.drive = some d → 2 < sizeDrive ∧ 3 ≤ d.length) :
    ∃ start parts', start ≤ t.length ∧
      splitDrive (t ++ [a, 0]) sizeDrive parts = pure (start, parts') := by
  obtain ⟨b, hb, hlen⟩ := hasDrive_lead_last isLead ht ha0 hcolon
  rw [splitDrive, lift_bind_of_ok hb]
  cases b with
  | true =>
    have h2 := hlen rfl
    rw [if_pos rfl]
    rcases hd : parts.drive with _ | d
    · exact ⟨2, parts, h2, rfl⟩
    · obtain ⟨hsize, hdlen⟩ := hdrive d hd
      refine ⟨2, ?_⟩
      simp only [if_neg (Nat.not_le.2 hsize)]
      rw [lift_bind_of_ok (load_of_lt (by simp)),
        lift_bind_of_ok (store_of_lt (by omega)), lift_bind_of_ok (load_of_lt (by simp)),
        lift_bind_of_ok (store_of_lt (by simp; omega)),
        lift_bind_of_ok (store_of_lt (by simp; omega))]
      exact ⟨_, h2, rfl⟩
  | false =>
    rw [if_neg Bool.false_ne_true]
    rcases hd : parts.drive with _ | d
    · exact ⟨0, parts, Nat.zero_le _, rfl⟩
    · obtain ⟨-, hdlen⟩ := hdrive d hd
      exact ⟨0, _, Nat.zero_le _, lift_bind_of_ok (store_of_lt (by omega)) _⟩

theorem splitDir_lead_last (ht : ∀ c ∈ t, c ≠ 0 ∧ isLead c = false) (ha : isLead a = true)
    (ha0 : a ≠ 0) {start : Nat} (hstart : start ≤ t.length) (sizeDir : Nat) (parts : Parts) :
    (splitDir isLead (t ++ [a, 0]) start sizeDir parts).run = .error .outOfBounds := by
  rw [splitDir]
  exact run_lift_bind_of_error
    (dirScan_lead_last isLead ht ha ha0 _ start none hstart (by simp; omega)) _

/-- _splitpath_s on a string that ends in a lead byte, after single-byte characters: the
directory scan takes the NUL for the trail byte and reads the byte after it, whatever the
component buffers are, as long as the call passes the argument test and the drive fits. -/
theorem splitpathS_reads_past_nul (ht : ∀ c ∈ t, c ≠ 0 ∧ isLead c = false)
    (ha : isLead a = true) (ha0 : a ≠ 0) (hcolon : a ≠ ':'.toNat) {drive dir fname ext : Buf}
    (hargs : (drive.bad || dir.bad || fname.bad || ext.bad) = false)
    (hdrive : ∀ d, drive.obj = some d → 2 < drive.size ∧ 3 ≤ d.length) :
    splitpathS isLead (some (t ++ [a, 0])) drive dir fname ext = .error .outOfBounds := by
  obtain ⟨start, parts, hstart, hsplit⟩ :=
    splitDrive_lead_last isLead ht ha0 hcolon ⟨drive.obj, dir.obj, fname.obj, ext.obj⟩ hdrive
  have hbody : (splitBody isLead (t ++ [a, 0]) drive dir fname ext).run = .error .outOfBounds := by
    rw [splitBody, hsplit, pure_bind]
    exact run_bind_of_run_error (splitDir_lead_last isLead ht ha ha0 hstart _ _) _
  rw [splitpathS, if_neg (by rw [hargs]; exact Bool.false_ne_true)]
  simp only [hbody, error_bind]

end ReadsPastNul

/-- "a" followed by the lead byte 0x81 of a double-byte code page, with every buffer NULL. -/
theorem splitpathS_lead_byte_faults :
    splitpathS (fun c => decide (0x81 ≤ c ∧ c ≤ 0xFE)) (some (['a'.toNat] ++ [0x81, 0]))
      ⟨none, 0⟩ ⟨none, 0⟩ ⟨none, 0⟩ ⟨none, 0⟩ = .error .outOfBounds :=
  splitpathS_reads_past_nul _ (by decide) rfl (by decide) (by decide) rfl (by simp)

end Wine.Msvcrt
