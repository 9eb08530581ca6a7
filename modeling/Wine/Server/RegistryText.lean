import Wine.Server.Registry

/-!
# The registry as text (`server/registry.c`)

`save_subkeys` writes a key as a header line `[path] time` followed by the lines of its time,
class, link flag and values, the values by `dump_value`. `load_keys` reads a file a line at a
time: a header goes to `load_key`, which creates the key; while that key is current, `#` lines
go to `load_key_option` and value lines to `load_value`, which reads the continuation lines of
hex data itself. The text is the list of its bytes. The creation of keys by `load_key` is not
modelled: the loader starts at the key it created.

A value's text is read back as the request `load_value` makes for that value's name, type and
data. The class is not: `parse_strW` stores a terminating NUL and `load_key_option` keeps the
length it returns, so a class `c` of `classlen` bytes comes back as `c ++ [0]` of
`classlen + 2` bytes.
-/

namespace Wine.Server

set_option autoImplicit false

/-! ## The code -/

def chars (s : List Char) : List Nat := s.map Char.toNat

def newline : Nat := 10

/-- `isspace` in the C locale. -/
def isSpace (c : Nat) : Bool := c = ' '.toNat || (9 ≤ c && c ≤ 13)

/-- `strlen`: the bytes before the first NUL. -/
def strlen (s : List Nat) : Nat := (s.takeWhile (· ≠ 0)).length

/-- `%0*x` of width `w`. -/
def hexText (w n : Nat) : List Nat := (Digits.format 16 w n).map hexChar

/-- `%u`. -/
def decText (n : Nat) : List Nat := (Digits.format 10 0 n).map hexChar

def regNone : Nat := 0
def regSz : Nat := 1
def regExpandSz : Nat := 2
def regBinary : Nat := 3
def regDword : Nat := 4
def regMultiSz : Nat := 7

def ticksPerSec : Nat := 10000000
def ticks1601To1970 : Nat := 86400 * (369 * 365 + 89) * ticksPerSec

/-- The `WCHAR`s of the bytes `data`, little endian; an odd last byte is not one. -/
def wchars : List Nat → List Nat
  | b0 :: b1 :: rest => (b0 + 256 * b1) :: wchars rest
  | _ => []

/-- The bytes of `WCHAR`s, as `memdup` copies them. -/
def wcharBytes (s : List Nat) : List Nat := s.flatMap fun c => [c % 256, c / 256]

/-- `memcpy( &dw, value->data, sizeof(dw) )`. -/
def dwordOf (data : List Nat) : Nat :=
  data.getD 0 0 + 256 * data.getD 1 0 + 65536 * data.getD 2 0 + 16777216 * data.getD 3 0

/-- The bytes of a `DWORD`, as `memdup( &dw, sizeof(dw) )` copies them. -/
def dwordBytes (dw : Nat) : List Nat :=
  [dw % 256, dw / 256 % 256, dw / 65536 % 256, dw / 16777216 % 256]

/-- The loop of `dump_value` over binary data: `%02x`, a comma between two bytes, and a
continuation line once the line has passed 76 characters; `count` is the length of the line
so far. -/
def dumpHex : Nat → List Nat → List Nat
  | _, [] => []
  | _, [b] => hexText 2 b
  | count, b :: c :: rest =>
    let count := count + (hexText 2 b).length + 1
    if 76 < count then hexText 2 b ++ chars [',', '\\', '\n', ' ', ' '] ++ dumpHex 2 (c :: rest)
    else hexText 2 b ++ chars [','] ++ dumpHex count (c :: rest)

/-- The data part of `dump_value`, the name having taken `count` characters of the line: a
string type ending in a NUL as a quoted string, a `DWORD` of four bytes as `dword:`, and the
rest as hex bytes. -/
def dumpData (type : Nat) (data : List Nat) (count : Nat) : List Nat :=
  if (type = regSz ∨ type = regExpandSz ∨ type = regMultiSz) ∧ 2 ≤ data.length ∧
      data.length % 2 = 0 ∧ (wchars data).getLastD 0 = 0 then
    (if type ≠ regSz then chars ['s', 't', 'r', '('] ++ hexText 0 type ++ chars [')', ':']
      else []) ++
      '"'.toNat :: dumpStrW '"'.toNat '"'.toNat (wchars data).dropLast ++ chars ['"', '\n']
  else if type = regDword ∧ data.length = 4 then
    chars ['d', 'w', 'o', 'r', 'd', ':'] ++ hexText 8 (dwordOf data) ++ [newline]
  else
    let tag := if type = regBinary then chars ['h', 'e', 'x', ':']
      else chars ['h', 'e', 'x', '('] ++ hexText 0 type ++ chars [')', ':']
    tag ++ dumpHex (count + tag.length) data ++ [newline]

def dumpValue (value : KeyValue) : List Nat :=
  if value.name.length ≠ 0 then
    '"'.toNat :: dumpStrW '"'.toNat '"'.toNat value.name ++ chars ['"', '='] ++
      dumpData value.type value.data (1 + (dumpStrW '"'.toNat '"'.toNat value.name).length + 2)
  else chars ['@', '='] ++ dumpData value.type value.data 2

/-- The lines `save_subkeys` writes for a key after its header: its time, its class, its link
flag and its values. -/
def dumpKeyBody (key : RegKey) : List Nat :=
  chars ['#', 't', 'i', 'm', 'e', '='] ++ hexText 0 (key.modif / 2 ^ 32 % 2 ^ 32) ++
    hexText 8 (key.modif % 2 ^ 32) ++ [newline] ++
  (match key.class with
    | some c => chars ['#', 'c', 'l', 'a', 's', 's', '=', '"'] ++
        dumpStrW '"'.toNat '"'.toNat (c.take (key.classlen / 2)) ++ chars ['"', '\n']
    | none => []) ++
  (if key.flags &&& keySymlink ≠ 0 then chars ['#', 'l', 'i', 'n', 'k', '\n'] else []) ++
  (List.range (key.lastValue + 1).toNat).flatMap fun i => dumpValue (key.values i)

/-- `(unsigned int)((key->modif - ticks_1601_to_1970) / TICKS_PER_SEC)`. -/
def unixTime (modif : Nat) : Nat :=
  ((((modif : Int) - ticks1601To1970).tdiv ticksPerSec) % 2 ^ 32).toNat

/-- `dump_path`: the names from below `base` down to `k`, joined by two backslashes. -/
def dumpPath (reg : Registry) (base : Option Nat) : Nat → Nat → List Nat
  | 0, _ => []
  | fuel + 1, k =>
    match reg.keys k with
    | none => []
    | some key =>
      (match key.parent with
        | some p => if some p ≠ base then dumpPath reg base fuel p ++ chars ['\\', '\\'] else []
        | none => []) ++
      dumpStrW '['.toNat ']'.toNat key.name

/-- `save_subkeys`: a key that is not volatile is written when it has values, no subkeys, a
class or the link flag, and its subkeys after it. -/
def saveSubkeys (reg : Registry) (base : Nat) : Nat → Nat → List Nat
  | 0, _ => []
  | fuel + 1, k =>
    match reg.keys k with
    | none => []
    | some key =>
      if key.flags &&& keyVolatile ≠ 0 then []
      else
        (if 0 ≤ key.lastValue ∨ key.lastSubkey = -1 ∨ key.class ≠ none ∨
            key.flags &&& keySymlink ≠ 0 then
          chars ['\n', '['] ++ (if k ≠ base then dumpPath reg (some base) (reg.next + 1) k else []) ++
            chars [']', ' '] ++ decText (unixTime key.modif) ++ [newline] ++ dumpKeyBody key
        else []) ++
        (List.range (key.lastSubkey + 1).toNat).flatMap fun i => saveSubkeys reg base fuel (key.subkeys i)

/-- `get_file_tmp_space`: the temporary buffer grows to `size` bytes when it is smaller. -/
def tmpSpace (tmplen size : Nat) : Nat := max tmplen size

/-- `read_next_line`: the line without its newline, or a carriage return before that, and the
text after it; `none` at the end of the file. The line buffer grows as needed. -/
def readNextLine (text : List Nat) : Option (List Nat × List Nat) :=
  match text with
  | [] => none
  | _ :: _ =>
    let line := text.takeWhile (· ≠ newline)
    if line.length < text.length then
      some (if line.getLast? = some 13 then line.dropLast else line, text.drop (line.length + 1))
    else some (line, [])

/-- `strtoul(p, &end, 16)`: spaces, a sign, a `0x` before a digit, then every digit, the value
saturated at `ULONG_MAX` and negated after a minus; with no digit the value is `0` and `end`
is `p`. -/
def strtoul16 (p : List Nat) : Nat × List Nat :=
  let q := p.dropWhile isSpace
  let neg := peek q = '-'.toNat
  let q := if peek q = '-'.toNat ∨ peek q = '+'.toNat then q.tail else q
  let q := if peek q = '0'.toNat ∧ (peek q.tail = 'x'.toNat ∨ peek q.tail = 'X'.toNat) ∧
      isXdigit (peek q.tail.tail) then q.tail.tail else q
  if isXdigit (peek q) then
    match Digits.readAll hexDigit 16 (2 ^ 64 - 1) 0 q with
    | (v, e) => (if neg then (2 ^ 64 - v) % 2 ^ 64 else v, e)
  else (0, p)

inductive ParseType where
  | sz
  | dword
  | binary
  deriving DecidableEq, Repr

/-- An entry of `data_types`; `hex(` has no type of its own (`-1`). -/
structure DataType where
  tag : List Nat
  type : Option Nat
  parseType : ParseType

def dataTypes : List DataType :=
  [⟨chars ['"'], some regSz, .sz⟩,
   ⟨chars ['s', 't', 'r', ':', '"'], some regSz, .sz⟩,
   ⟨chars ['s', 't', 'r', '(', '2', ')', ':', '"'], some regExpandSz, .sz⟩,
   ⟨chars ['s', 't', 'r', '(', '7', ')', ':', '"'], some regMultiSz, .sz⟩,
   ⟨chars ['h', 'e', 'x', ':'], some regBinary, .binary⟩,
   ⟨chars ['d', 'w', 'o', 'r', 'd', ':'], some regDword, .dword⟩,
   ⟨chars ['h', 'e', 'x', '('], none, .binary⟩]

/-- `get_data_type`: the type, how the data is parsed, and the length of the tag; `none` for
`0`. -/
def getDataType (buffer : List Nat) : Option (Nat × ParseType × Nat) :=
  match dataTypes.find? fun d => d.tag.isPrefixOf buffer with
  | none => none
  | some d =>
    match d.type with
    | some type => some (type, d.parseType, d.tag.length)
    | none =>
      -- `hex(xx):`, the type cast from `unsigned long` to `int`
      match strtoul16 (buffer.drop 4) with
      | (type, e) =>
        if (chars [')', ':']).isPrefixOf e then
          some (type % 2 ^ 32, d.parseType, buffer.length - e.length + 2)
        else none

/-- The loop of `parse_hex` while `*p` is a hex digit: the bytes stored and where `p` stopped;
`none` for `-1`. -/
def parseHexLoop (len : Nat) : Nat → List Nat → List Nat → Option (List Nat × List Nat)
  | 0, dest, p => some (dest, p)
  | fuel + 1, dest, p =>
    if isXdigit (peek p) then
      match strtoul16 p with
      | (val, e) =>
        if e.length = p.length ∨ 0xff < val then none
        else if len ≤ dest.length then none
        else
          let q := e.dropWhile isSpace
          let q := if peek q = ','.toNat then q.tail else q
          parseHexLoop len fuel (dest ++ [val]) (q.dropWhile isSpace)
    else some (dest, p)

/-- `parse_hex(dest, &len, buffer)` into a buffer of `len` bytes. Every pass reads a digit. -/
def parseHex (len : Nat) (buffer : List Nat) : Option (List Nat × List Nat) :=
  parseHexLoop len (buffer.length + 1) [] buffer

/-- The loop of `load_value` over binary data, a pass per line: the bytes of the line, and after a
backslash those of the next line. The data, the size of the temporary buffer and the text
left; the data `none` for `goto error`. -/
def loadHex : Nat → Nat → List Nat → List Nat → List Nat → Option (List Nat) × Nat × List Nat
  | 0, tmplen, _, _, text => (none, tmplen, text)
  | fuel + 1, tmplen, data, buffer, text =>
    let maxlen := 1 + strlen buffer / 2
    let tmplen := tmpSpace tmplen (data.length + maxlen)
    match parseHex maxlen buffer with
    | none => (none, tmplen, text)
    | some (bytes, p) =>
      let p := p.dropWhile isSpace
      if peek p = 0 then (some (data ++ bytes), tmplen, text)
      else if peek p ≠ '\\'.toNat then (none, tmplen, text)
      else
        match readNextLine text with
        | none => (none, tmplen, text)
        | some (line, text) => loadHex fuel tmplen (data ++ bytes) (line.dropWhile isSpace) text

/-- `load_value` after the name: the type and data, the size of the temporary buffer and the
text after the continuation lines; `none` for `goto error`. -/
def loadData (tmplen : Nat) (buffer text : List Nat) : Option (Nat × List Nat) × Nat × List Nat :=
  match getDataType buffer with
  | none => (none, tmplen, text)
  | some (type, parseType, res) =>
    let buffer := buffer.drop res
    match parseType with
    | .sz =>
      let tmplen := tmpSpace tmplen (2 * strlen buffer)
      match parseStrW tmplen buffer '"'.toNat with
      | none => (none, tmplen, text)
      | some (s, _, _) => (some (type, wcharBytes s), tmplen, text)
    | .dword => (some (type, dwordBytes ((strtoul16 buffer).1 % 2 ^ 32)), tmplen, text)
    | .binary =>
      match loadHex (text.length + 1) tmplen [] buffer text with
      | (none, tmplen, text) => (none, tmplen, text)
      | (some data, tmplen, text) => (some (type, data), tmplen, text)

/-- `parse_value_name`: the name, and the characters it took with the `=` and the spaces around
it; `none` for a malformed name. -/
def parseValueName (tmplen : Nat) (buffer : List Nat) : Option (List Nat × Nat) :=
  let name : Option (List Nat × Nat) :=
    if peek buffer = '@'.toNat then some ([], 1)
    else
      match parseStrW tmplen buffer.tail '"'.toNat with
      | none => none
      -- the initial quote, and the terminating NUL left out
      | some (s, _, r) => some (s.dropLast, r + 1)
  match name with
  | none => none
  | some (name, len) =>
    let len := len + ((buffer.drop len).takeWhile isSpace).length
    if peek (buffer.drop len) ≠ '='.toNat then none
    else some (name, len + 1 + ((buffer.drop (len + 1)).takeWhile isSpace).length)

section Load

variable (toLower : Nat → Nat)

/-- `load_value` on the line `buffer` of the key `k`, the continuation lines in `text`: the value
is found or inserted, and one whose data is malformed is left of type `REG_NONE` with no
data. -/
def loadValue (reg : Registry) (k tmplen : Nat) (buffer text : List Nat) :
    Registry × Nat × List Nat :=
  let tmplen := tmpSpace tmplen (2 * strlen buffer)
  match reg.keys k with
  | none => (reg, tmplen, text)
  | some key =>
    match parseValueName tmplen buffer with
    | none => (reg, tmplen, text)
    | some (name, len) =>
      match valueSlot key (findValue toLower key name) name with
      | .error _ => (reg, tmplen, text)
      | .ok (key, i) =>
        match loadData tmplen (buffer.drop len) text with
        | (some (type, data), tmplen, text) => (reg.setKey k (key.setValueData i type data), tmplen, text)
        | (none, tmplen, text) => (reg.setKey k (key.setValueData i regNone []), tmplen, text)

end Load

/-- `update_key_time`: the key and its parents take the time `modif` while theirs is zero. -/
def updateKeyTime (modif : Nat) : Nat → Registry → Nat → Registry
  | 0, reg, _ => reg
  | fuel + 1, reg, k =>
    match reg.keys k with
    | none => reg
    | some key =>
      if key.modif ≠ 0 then reg
      else
        match key.parent with
        | none => reg.setKey k { key with modif }
        | some p => updateKeyTime modif fuel (reg.setKey k { key with modif }) p

/-- The hex digits after `#time=` folded into a `timeout_t`. -/
def readTime : Nat → List Nat → Nat
  | modif, [] => modif
  | modif, c :: p =>
    match hexDigit c with
    | some d => readTime ((modif <<< 4 ||| d) % 2 ^ 64) p
    | none => modif

/-- `load_key_option` on the line `buffer` of the key `k`, and the size of the temporary buffer
after. The class option returns before the link option is tested, which a line of the class
option cannot match. -/
def loadKeyOption (reg : Registry) (k tmplen : Nat) (buffer : List Nat) : Registry × Nat :=
  let reg :=
    if (chars ['#', 't', 'i', 'm', 'e', '=']).isPrefixOf buffer then
      updateKeyTime (readTime 0 (buffer.drop 6)) (reg.next + 1) reg k
    else reg
  let (reg, tmplen) :=
    if (chars ['#', 'c', 'l', 'a', 's', 's', '=']).isPrefixOf buffer then
      if peek (buffer.drop 7) ≠ '"'.toNat then (reg, tmplen)
      else
        let p := (buffer.drop 7).tail
        let tmplen := tmpSpace tmplen (2 * strlen p)
        match parseStrW tmplen p '"'.toNat, reg.keys k with
        | some (s, len, _), some key => (reg.setKey k { key with «class» := some s, classlen := len }, tmplen)
        | _, _ => (reg, tmplen)
    else (reg, tmplen)
  let reg :=
    if (chars ['#', 'l', 'i', 'n', 'k']).isPrefixOf buffer then
      match reg.keys k with
      | some key => reg.setKey k { key with flags := key.flags ||| keySymlink }
      | none => reg
    else reg
  (reg, tmplen)

section Load

variable (toLower : Nat → Nat)

/-- The loop of `load_keys` while the key `k` is its `subkey`, a pass per line: option lines go
to `load_key_option`, value lines to `load_value`, comments, empty and unrecognised lines are
passed over, and the header of the next key is left for `load_key`. -/
def loadKeyLines : Nat → Registry → Nat → Nat → List Nat → Registry × Nat × List Nat
  | 0, reg, _, tmplen, text => (reg, tmplen, text)
  | fuel + 1, reg, k, tmplen, text =>
    match readNextLine text with
    | none => (reg, tmplen, text)
    | some (line, rest) =>
      let p := line.dropWhile isSpace
      if peek p = '['.toNat then (reg, tmplen, text)
      else if peek p = '@'.toNat ∨ peek p = '"'.toNat then
        match loadValue toLower reg k tmplen p rest with
        | (reg, tmplen, rest) => loadKeyLines fuel reg k tmplen rest
      else if peek p = '#'.toNat then
        match loadKeyOption reg k tmplen p with
        | (reg, tmplen) => loadKeyLines fuel reg k tmplen rest
      else loadKeyLines fuel reg k tmplen rest

/-- The lines of the key `k` up to the next header or the end of the file. -/
def loadKeyBlock (reg : Registry) (k tmplen : Nat) (text : List Nat) : Registry × Nat × List Nat :=
  loadKeyLines toLower (text.length + 1) reg k tmplen text

end Load

/-! ## Lines of text -/

/-- A line as `save_subkeys` writes it: printable ASCII, so no NUL, newline or carriage
return. -/
def Printable (line : List Nat) : Prop := ∀ x ∈ line, 32 ≤ x ∧ x < 128

section Lines

@[simp] theorem peek_cons (c : Nat) (l : List Nat) : peek (c :: l) = c := rfl

@[simp] theorem peek_nil : peek [] = 0 := rfl

theorem Printable.append {a b : List Nat} (ha : Printable a) (hb : Printable b) :
    Printable (a ++ b) := by
  intro x hx
  rcases List.mem_append.mp hx with hx | hx
  · exact ha x hx
  · exact hb x hx

theorem Printable.cons {x : Nat} {l : List Nat} (hx : 32 ≤ x ∧ x < 128) (hl : Printable l) :
    Printable (x :: l) :=
  List.forall_mem_cons.mpr ⟨hx, hl⟩

theorem printable_nil : Printable [] := fun _ h => absurd h List.not_mem_nil

theorem Printable.of_append_left {a b : List Nat} (h : Printable (a ++ b)) : Printable a :=
  fun x hx => h x (List.mem_append_left b hx)

theorem Printable.of_append_right {a b : List Nat} (h : Printable (a ++ b)) : Printable b :=
  fun x hx => h x (List.mem_append_right a hx)

theorem printable_chars (s : List Char) (h : ∀ c ∈ s, 32 ≤ c.toNat ∧ c.toNat < 128) :
    Printable (chars s) := by
  intro x hx
  obtain ⟨c, hc, rfl⟩ := List.mem_map.mp hx
  exact h c hc

theorem printable_spaces : Printable (chars [' ', ' ']) := by
  intro x hx
  simp only [chars, List.map_cons, List.map_nil, List.mem_cons, List.not_mem_nil, or_false,
    or_self] at hx
  subst hx
  decide

theorem printable_dumpStrW (e0 e1 : Nat) (s : List Nat) : Printable (dumpStrW e0 e1 s) :=
  dumpStrW_printable e0 e1 s

theorem printable_hexText (w n : Nat) : Printable (hexText w n) := by
  intro x hx
  obtain ⟨d, hd, rfl⟩ := List.mem_map.mp hx
  exact hexChar_printable d (Digits.format_lt (by decide) w n d hd)

theorem strlen_printable {line : List Nat} (h : Printable line) : strlen line = line.length := by
  unfold strlen
  rw [List.takeWhile_eq_self_iff.mpr]
  intro x hx
  have := (h x hx).1
  simp only [ne_eq, decide_eq_true_eq]
  omega

theorem readNextLine_line {line : List Nat} (h : Printable line) (rest : List Nat) :
    readNextLine (line ++ newline :: rest) = some (line, rest) := by
  have htake : (line ++ newline :: rest).takeWhile (· ≠ newline) = line := by
    rw [List.takeWhile_append_of_pos, List.takeWhile_cons_of_neg (by simp), List.append_nil]
    intro x hx
    have := (h x hx).1
    exact decide_eq_true (by unfold newline; omega)
  have hlast : line.getLast? ≠ some 13 := by
    intro hl
    have := (h 13 (List.mem_of_getLast? hl)).1
    omega
  unfold readNextLine
  split
  · rename_i heq
    simp at heq
  · simp only [htake, List.length_append, List.length_cons]
    rw [if_pos (by omega), if_neg hlast]
    simp

theorem readNextLine_length {text line rest : List Nat} (h : readNextLine text = some (line, rest)) :
    rest.length < text.length := by
  unfold readNextLine at h
  split at h
  · cases h
  · dsimp only at h
    split at h
    · cases h
      simp only [List.length_drop]
      omega
    · cases h
      simp

end Lines

/-! ## Printed numbers read back -/

section Numbers

theorem hexChar_digit : ∀ d, d < 16 →
    isSpace (hexChar d) = false ∧ isXdigit (hexChar d) = true ∧ hexChar d ≠ '-'.toNat ∧
      hexChar d ≠ '+'.toNat ∧ hexChar d ≠ 'x'.toNat ∧ hexChar d ≠ 'X'.toNat := by
  decide

theorem exists_format_cons (b w n : Nat) : ∃ d ds, Digits.format b w n = d :: ds := by
  cases h : Digits.format b w n with
  | nil =>
    have := Digits.length_format_pos (b := b) w n
    rw [h] at this
    exact absurd this (Nat.lt_irrefl 0)
  | cons d ds => exact ⟨d, ds, rfl⟩

theorem length_hexText_two {b : Nat} (hb : b < 256) : (hexText 2 b).length = 2 := by
  have hle : (Digits.format 16 2 b).length ≤ 2 :=
    Digits.length_format_le (by decide) (show b < 16 ^ 2 by omega) (by decide) (by decide)
  have hge : 2 ≤ (Digits.format 16 2 b).length := Digits.le_length_format 2 b
  simp only [hexText, List.length_map]
  omega

theorem strtoul16_hexText (w : Nat) {n : Nat} (hn : n < 2 ^ 64) {rest : List Nat}
    (hrest : isXdigit (peek rest) = false) (hx : peek rest ≠ 'x'.toNat ∧ peek rest ≠ 'X'.toNat) :
    strtoul16 (hexText w n ++ rest) = (n, rest) := by
  obtain ⟨d, ds, hds⟩ := exists_format_cons 16 w n
  have hd : d < 16 := Digits.format_lt (by decide) w n d (by rw [hds]; exact List.mem_cons_self)
  obtain ⟨hsp, hxd, hm, hp, hx1, _⟩ := hexChar_digit d hd
  have htail : ¬(peek (ds.map hexChar ++ rest) = 'x'.toNat ∨ peek (ds.map hexChar ++ rest) = 'X'.toNat) := by
    cases ds with
    | nil => simpa using hx
    | cons d' ds =>
      have hd' : d' < 16 :=
        Digits.format_lt (by decide) w n d' (by rw [hds]; simp)
      have h' := hexChar_digit d' hd'
      simp only [List.map_cons, List.cons_append, peek]
      exact fun h => h.elim h'.2.2.2.2.1 h'.2.2.2.2.2
  have hstop : ∀ c, rest.head? = some c → hexDigit c = none := by
    intro c hc
    cases rest with
    | nil => cases hc
    | cons c' rest =>
      cases hc
      simp only [peek] at hrest
      simp [hexDigit, hrest]
  have hread : Digits.readAll hexDigit 16 (2 ^ 64 - 1) 0
      ((Digits.format 16 w n).map hexChar ++ rest) = (n, rest) :=
    Digits.readAll_format (by decide) hexDigit_hexChar (by omega) hstop
  have hlist : hexText w n ++ rest = hexChar d :: (ds.map hexChar ++ rest) := by
    simp [hexText, hds]
  unfold strtoul16
  rw [hlist, List.dropWhile_cons_of_neg (by simp [hsp])]
  simp only [peek_cons, hm, hp, or_self, if_false, List.tail_cons]
  rw [if_neg (show ¬(hexChar d = '0'.toNat ∧ _ ∧ _) from fun h => htail h.2.1), peek_cons, hxd,
    if_pos rfl, ← hlist]
  unfold hexText
  rw [hread]

end Numbers

/-! ## Binary data -/

/-- Bytes as `%02x` joined by commas: the last line of binary data. -/
def hexRow : List Nat → List Nat
  | [] => []
  | [b] => hexText 2 b
  | b :: c :: rest => hexText 2 b ++ ','.toNat :: hexRow (c :: rest)

/-- Bytes as `%02x` each followed by a comma: a line of binary data that is continued. -/
def hexRowCont (bs : List Nat) : List Nat := bs.flatMap fun b => hexText 2 b ++ [','.toNat]

section Binary

theorem dropWhile_isSpace {X : List Nat} (h : isSpace (peek X) = false) : X.dropWhile isSpace = X := by
  cases X with
  | nil => rfl
  | cons c X => exact List.dropWhile_cons_of_neg (by simpa using h)

theorem peek_hexText (w n : Nat) (X : List Nat) :
    isXdigit (peek (hexText w n ++ X)) = true ∧ isSpace (peek (hexText w n ++ X)) = false := by
  obtain ⟨d, ds, hds⟩ := exists_format_cons 16 w n
  have hd : d < 16 := Digits.format_lt (by decide) w n d (by rw [hds]; exact List.mem_cons_self)
  have h := hexChar_digit d hd
  simp only [hexText, hds, List.map_cons, List.cons_append, peek_cons]
  exact ⟨h.2.1, h.1⟩

theorem dumpHex_lines : ∀ (data : List Nat) (count : Nat), dumpHex count data = hexRow data ∨
    ∃ k, 0 < k ∧ k < data.length ∧ dumpHex count data =
      hexRowCont (data.take k) ++ chars ['\\', '\n', ' ', ' '] ++ dumpHex 2 (data.drop k) := by
  intro data
  induction data with
  | nil => intro count; exact Or.inl rfl
  | cons b rest ih =>
    intro count
    cases rest with
    | nil => exact Or.inl rfl
    | cons c rest =>
      rw [dumpHex]
      split_ifs with hbreak
      · refine Or.inr ⟨1, by omega, by simp, ?_⟩
        simp [hexRowCont, chars]
      · rcases ih (count + (hexText 2 b).length + 1) with h | ⟨k, hk0, hk, h⟩
        · left
          rw [h, hexRow]
          simp [chars]
        · refine Or.inr ⟨k + 1, by omega, by simp at hk ⊢; omega, ?_⟩
          rw [h]
          simp [hexRowCont, chars]

theorem printable_hexRow : ∀ bs : List Nat, Printable (hexRow bs)
  | [] => printable_nil
  | [b] => printable_hexText 2 b
  | b :: c :: rest =>
    (printable_hexText 2 b).append ((Printable.cons (by decide) (printable_hexRow (c :: rest))))

theorem printable_hexRowCont (bs : List Nat) : Printable (hexRowCont bs) := by
  intro x hx
  obtain ⟨b, _, hx⟩ := List.mem_flatMap.mp hx
  exact ((printable_hexText 2 b).append (Printable.cons (by decide) printable_nil)) x hx

theorem peek_hexRow (bs : List Nat) : isSpace (peek (hexRow bs)) = false := by
  match bs with
  | [] => rfl
  | [b] =>
    rw [hexRow]
    simpa using (peek_hexText 2 b []).2
  | b :: c :: rest => exact (peek_hexText 2 b _).2

theorem peek_hexRowCont (bs X : List Nat) :
    isSpace (peek (hexRowCont bs ++ '\\'.toNat :: X)) = false := by
  cases bs with
  | nil => rfl
  | cons b bs =>
    have h := (peek_hexText 2 b (','.toNat :: (hexRowCont bs ++ '\\'.toNat :: X))).2
    simpa [hexRowCont] using h

theorem length_hexRow {bs : List Nat} (hbs : ∀ b ∈ bs, b < 256) :
    2 * bs.length ≤ (hexRow bs).length + 2 := by
  induction bs with
  | nil => simp [hexRow]
  | cons b rest ih =>
    have hb := length_hexText_two (hbs b List.mem_cons_self)
    cases rest with
    | nil => simp [hexRow, hb]
    | cons c rest =>
      have := ih (fun x hx => hbs x (List.mem_cons_of_mem b hx))
      simp only [hexRow, List.length_append, List.length_cons, hb] at this ⊢
      omega

theorem length_hexRowCont {bs : List Nat} (hbs : ∀ b ∈ bs, b < 256) :
    (hexRowCont bs).length = 3 * bs.length := by
  induction bs with
  | nil => rfl
  | cons b bs ih =>
    have hb := length_hexText_two (hbs b List.mem_cons_self)
    have := ih (fun x hx => hbs x (List.mem_cons_of_mem b hx))
    simp only [hexRowCont, List.flatMap_cons, List.length_append, List.length_cons, hb] at this ⊢
    simp only [List.length_nil] at this ⊢
    omega

theorem parseHexLoop_stop {len fuel : Nat} {dest p : List Nat} (h : isXdigit (peek p) = false) :
    parseHexLoop len fuel dest p = some (dest, p) := by
  cases fuel with
  | zero => rfl
  | succ fuel => simp [parseHexLoop, h]

theorem parseHexLoop_byte (len fuel : Nat) (dest X : List Nat) {b : Nat} (hb : b < 256)
    (hdest : dest.length < len) (hX : isXdigit (peek X) = false ∧ peek X ≠ 'x'.toNat ∧
      peek X ≠ 'X'.toNat ∧ isSpace (peek X) = false) :
    parseHexLoop len (fuel + 1) dest (hexText 2 b ++ X) =
      parseHexLoop len fuel (dest ++ [b])
        ((if peek X = ','.toNat then X.tail else X).dropWhile isSpace) := by
  have hlen := length_hexText_two hb
  rw [parseHexLoop, if_pos (peek_hexText 2 b X).1, strtoul16_hexText 2 (by omega) hX.1 ⟨hX.2.1, hX.2.2.1⟩]
  simp only
  rw [if_neg (by simp only [List.length_append, hlen]; omega), if_neg (by omega),
    dropWhile_isSpace hX.2.2.2]

theorem parseHexLoop_hexRow {len : Nat} : ∀ (bs dest : List Nat) (fuel : Nat),
    (∀ b ∈ bs, b < 256) → dest.length + bs.length ≤ len → bs.length ≤ fuel →
    parseHexLoop len fuel dest (hexRow bs) = some (dest ++ bs, []) := by
  intro bs
  induction bs with
  | nil =>
    intro dest fuel _ _ _
    rw [hexRow, List.append_nil]
    exact parseHexLoop_stop rfl
  | cons b rest ih =>
    intro dest fuel hbs hlen hfuel
    obtain ⟨fuel, rfl⟩ : ∃ f, fuel = f + 1 := ⟨fuel - 1, by simp at hfuel; omega⟩
    have hb := hbs b List.mem_cons_self
    cases rest with
    | nil =>
      have h := parseHexLoop_byte len fuel dest [] hb (by simp at hlen; omega)
        ⟨rfl, by decide, by decide, rfl⟩
      rw [hexRow, ← List.append_nil (hexText 2 b), h]
      exact parseHexLoop_stop rfl
    | cons c rest =>
      have h := parseHexLoop_byte len fuel dest (','.toNat :: hexRow (c :: rest)) hb
        (by simp at hlen; omega) ⟨rfl, by simp, by simp, rfl⟩
      rw [hexRow, h, peek_cons, if_pos rfl, List.tail_cons, dropWhile_isSpace (peek_hexRow _),
        ih (dest ++ [b]) fuel (fun x hx => hbs x (List.mem_cons_of_mem b hx))
          (by simp at hlen ⊢; omega) (by simp at hfuel ⊢; omega)]
      simp

theorem parseHexLoop_hexRowCont {len : Nat} (X : List Nat) : ∀ (bs dest : List Nat) (fuel : Nat),
    (∀ b ∈ bs, b < 256) → dest.length + bs.length ≤ len → bs.length ≤ fuel →
    parseHexLoop len fuel dest (hexRowCont bs ++ '\\'.toNat :: X) =
      some (dest ++ bs, '\\'.toNat :: X) := by
  intro bs
  induction bs with
  | nil =>
    intro dest fuel _ _ _
    rw [hexRowCont, List.flatMap_nil, List.nil_append, List.append_nil]
    exact parseHexLoop_stop rfl
  | cons b bs ih =>
    intro dest fuel hbs hlen hfuel
    obtain ⟨fuel, rfl⟩ : ∃ f, fuel = f + 1 := ⟨fuel - 1, by simp at hfuel; omega⟩
    have hb := hbs b List.mem_cons_self
    have h := parseHexLoop_byte len fuel dest (','.toNat :: (hexRowCont bs ++ '\\'.toNat :: X)) hb
      (by simp at hlen; omega) ⟨rfl, by simp, by simp, rfl⟩
    have heq : hexRowCont (b :: bs) ++ '\\'.toNat :: X =
        hexText 2 b ++ ','.toNat :: (hexRowCont bs ++ '\\'.toNat :: X) := by
      simp [hexRowCont]
    rw [heq, h, peek_cons, if_pos rfl, List.tail_cons, dropWhile_isSpace (peek_hexRowCont bs X),
      ih (dest ++ [b]) fuel (fun x hx => hbs x (List.mem_cons_of_mem b hx))
        (by simp at hlen ⊢; omega) (by simp at hfuel ⊢; omega)]
    simp

theorem loadHex_hexRow {fuel tmplen : Nat} {acc data : List Nat} (hdata : ∀ b ∈ data, b < 256)
    (text : List Nat) :
    ∃ tmplen', loadHex (fuel + 1) tmplen acc (hexRow data) text = (some (acc ++ data), tmplen', text) := by
  have hlen := length_hexRow hdata
  rw [loadHex, strlen_printable (printable_hexRow data), parseHex,
    parseHexLoop_hexRow data [] _ hdata (by simp; omega) (by omega)]
  exact ⟨_, rfl⟩

theorem loadHex_hexRowCont (fuel tmplen : Nat) (acc : List Nat) {bs : List Nat} (hbs : ∀ b ∈ bs, b < 256)
    {text line text' : List Nat} (hline : readNextLine text = some (line, text')) :
    ∃ tmplen', loadHex (fuel + 1) tmplen acc (hexRowCont bs ++ ['\\'.toNat]) text =
      loadHex fuel tmplen' (acc ++ bs) (line.dropWhile isSpace) text' := by
  have hlen := length_hexRowCont hbs
  have hpr : Printable (hexRowCont bs ++ ['\\'.toNat]) :=
    (printable_hexRowCont bs).append (Printable.cons (by decide) printable_nil)
  rw [loadHex, strlen_printable hpr, parseHex,
    parseHexLoop_hexRowCont [] bs [] _ hbs (by simp [hlen]; omega) (by simp [hlen]; omega)]
  simp only [List.nil_append]
  rw [dropWhile_isSpace rfl, peek_cons, if_neg (by decide), if_neg (by decide), hline]
  exact ⟨_, rfl⟩

/-- `load_value` reads binary data back from the lines `dump_value` wrote, the first of them
after `pre` on its line: the lines are taken off the text, and a pass of the loop per line
is enough. The induction is on the number of bytes, one line at a time. -/
theorem loadHex_dumpHex (rest : List Nat) : ∀ (n : Nat) (data : List Nat), data.length = n →
    ∀ (count : Nat) (pre : List Nat), (∀ b ∈ data, b < 256) → Printable pre →
    ∃ line text, readNextLine (pre ++ dumpHex count data ++ newline :: rest) = some (pre ++ line, text) ∧
      Printable line ∧ isSpace (peek line) = false ∧
      ∀ fuel, text.length < rest.length + fuel → ∀ tmplen acc,
        ∃ tmplen', loadHex fuel tmplen acc line text = (some (acc ++ data), tmplen', rest) := by
  intro n
  induction n using Nat.strong_induction_on with
  | _ n ih =>
  intro data hn count pre hdata hpre
  rcases dumpHex_lines data count with h | ⟨k, hk0, hk, h⟩
  · refine ⟨hexRow data, rest, ?_, printable_hexRow data, peek_hexRow data, ?_⟩
    · rw [h]
      exact readNextLine_line (hpre.append (printable_hexRow data)) rest
    · intro fuel hfuel tmplen acc
      obtain ⟨fuel, rfl⟩ : ∃ f, fuel = f + 1 := ⟨fuel - 1, by omega⟩
      exact loadHex_hexRow hdata rest
  · have hdrop : ∀ b ∈ data.drop k, b < 256 := fun b hb => hdata b (List.mem_of_mem_drop hb)
    have htake : ∀ b ∈ data.take k, b < 256 := fun b hb => hdata b (List.mem_of_mem_take hb)
    obtain ⟨line2, text2, hread2, _, hsp2, hload2⟩ :=
      ih (data.length - k) (by omega) (data.drop k) (by simp) 2 (chars [' ', ' ']) hdrop
        printable_spaces
    have hpr : Printable (hexRowCont (data.take k) ++ ['\\'.toNat]) :=
      (printable_hexRowCont _).append (Printable.cons (by decide) printable_nil)
    refine ⟨hexRowCont (data.take k) ++ ['\\'.toNat],
      chars [' ', ' '] ++ dumpHex 2 (data.drop k) ++ newline :: rest, ?_, hpr, ?_, ?_⟩
    · have heq : pre ++ dumpHex count data ++ newline :: rest =
          (pre ++ (hexRowCont (data.take k) ++ ['\\'.toNat])) ++ newline ::
            (chars [' ', ' '] ++ dumpHex 2 (data.drop k) ++ newline :: rest) := by
        rw [h]
        simp [chars, newline]
      rw [heq, readNextLine_line (hpre.append hpr)]
    · obtain ⟨b, bs, hbs⟩ : ∃ b bs, data.take k = b :: bs := by
        cases hd : data.take k with
        | nil =>
          have hlen := congrArg List.length hd
          rw [List.length_take, List.length_nil] at hlen
          omega
        | cons b bs => exact ⟨b, bs, rfl⟩
      have := (peek_hexText 2 b (','.toNat :: (hexRowCont bs ++ ['\\'.toNat]))).2
      simpa [hbs, hexRowCont] using this
    · intro fuel hfuel tmplen acc
      have hrest : rest.length < (chars [' ', ' '] ++ dumpHex 2 (data.drop k) ++ newline :: rest).length := by
        simp only [List.length_append, List.length_cons]
        omega
      obtain ⟨fuel, rfl⟩ : ∃ f, fuel = f + 1 := ⟨fuel - 1, by omega⟩
      have hshort := readNextLine_length hread2
      obtain ⟨tmplen1, h1⟩ := loadHex_hexRowCont fuel tmplen acc htake hread2
      have hspaces : (chars [' ', ' '] ++ line2).dropWhile isSpace = line2 := by
        simp [chars, isSpace, dropWhile_isSpace hsp2]
      rw [h1, hspaces]
      obtain ⟨tmplen2, h2⟩ := hload2 fuel (by omega) tmplen1 (acc ++ data.take k)
      rw [h2, List.append_assoc, List.take_append_drop]
      exact ⟨tmplen2, rfl⟩

end Binary

/-! ## Values -/

/-- A value its text can hold: `WCHAR`s in its name, a name `insert_value` accepts, a 32-bit
type and bytes of data. -/
structure KeyValue.Valid (value : KeyValue) : Prop where
  name_lt : ∀ c ∈ value.name, c < 0x10000
  name_len : value.name.length ≤ maxValueLen
  type_lt : value.type < 2 ^ 32
  data_lt : ∀ b ∈ value.data, b < 256

instance (value : KeyValue) : Decidable value.Valid :=
  decidable_of_iff ((∀ c ∈ value.name, c < 0x10000) ∧ value.name.length ≤ maxValueLen ∧
      value.type < 2 ^ 32 ∧ ∀ b ∈ value.data, b < 256)
    ⟨fun ⟨h1, h2, h3, h4⟩ => ⟨h1, h2, h3, h4⟩, fun h => ⟨h.1, h.2, h.3, h.4⟩⟩

/-- The part of a value's line before its data: the name in quotes and `=`, or `@=`. -/
def valueHead (value : KeyValue) : List Nat :=
  if value.name.length ≠ 0 then
    '"'.toNat :: dumpStrW '"'.toNat '"'.toNat value.name ++ chars ['"', '=']
  else chars ['@', '=']

section Values

theorem dumpValue_eq (value : KeyValue) :
    dumpValue value = valueHead value ++ dumpData value.type value.data (valueHead value).length := by
  unfold dumpValue valueHead
  split_ifs
  · have hlen : 1 + (dumpStrW '"'.toNat '"'.toNat value.name).length + 2 =
        ('"'.toNat :: dumpStrW '"'.toNat '"'.toNat value.name ++ chars ['"', '=']).length := by
      simp only [chars, List.length_cons, List.length_append, List.length_map, List.length_nil]
      omega
    rw [hlen, List.append_assoc]
  · rfl

theorem getDataType_quote (X : List Nat) : getDataType ('"'.toNat :: X) = some (regSz, .sz, 1) := by
  simp [getDataType, dataTypes, chars, List.isPrefixOf]

theorem getDataType_str {type : Nat} (htype : type = regExpandSz ∨ type = regMultiSz) (X : List Nat) :
    getDataType (chars ['s', 't', 'r', '('] ++ hexText 0 type ++ chars [')', ':'] ++ '"'.toNat :: X) =
      some (type, .sz, 8) := by
  rcases htype with rfl | rfl
  · rw [show hexText 0 regExpandSz = ['2'.toNat] by decide]
    simp [getDataType, dataTypes, chars, List.isPrefixOf, regExpandSz]
  · rw [show hexText 0 regMultiSz = ['7'.toNat] by decide]
    simp [getDataType, dataTypes, chars, List.isPrefixOf, regMultiSz]

theorem getDataType_dword (X : List Nat) :
    getDataType (chars ['d', 'w', 'o', 'r', 'd', ':'] ++ X) = some (regDword, .dword, 6) := by
  simp [getDataType, dataTypes, chars, List.isPrefixOf]

theorem getDataType_hex (X : List Nat) :
    getDataType (chars ['h', 'e', 'x', ':'] ++ X) = some (regBinary, .binary, 4) := by
  simp [getDataType, dataTypes, chars, List.isPrefixOf]

theorem getDataType_hexType {type : Nat} (htype : type < 2 ^ 32) (X : List Nat) :
    getDataType (chars ['h', 'e', 'x', '('] ++ hexText 0 type ++ chars [')', ':'] ++ X) =
      some (type, .binary, 4 + (hexText 0 type).length + 2) := by
  have hread : strtoul16 (hexText 0 type ++ (chars [')', ':'] ++ X)) = (type, chars [')', ':'] ++ X) :=
    strtoul16_hexText 0 (by omega) (by simp [chars]; decide) (by simp [chars])
  simp only [getDataType, dataTypes, chars, List.find?, List.isPrefixOf, List.map_cons,
    List.map_nil, List.cons_append, List.nil_append]
  simp [chars] at hread
  simp [hread]
  omega

theorem wcharBytes_wchars : ∀ data : List Nat, data.length % 2 = 0 → (∀ b ∈ data, b < 256) →
    wcharBytes (wchars data) = data
  | [], _, _ => rfl
  | [_], h, _ => absurd h (by simp)
  | b0 :: b1 :: rest, h, hb => by
    have h0 := hb b0 (by simp)
    have h1 := hb b1 (by simp)
    have ih := wcharBytes_wchars rest (by simp at h; omega) (fun x hx => hb x (by simp [hx]))
    simp only [wchars, wcharBytes, List.flatMap_cons] at ih ⊢
    rw [ih]
    simp only [List.cons_append, List.nil_append, List.cons.injEq, and_true]
    omega

theorem wchars_lt : ∀ data : List Nat, (∀ b ∈ data, b < 256) → ∀ c ∈ wchars data, c < 0x10000
  | [], _ => by simp [wchars]
  | [_], _ => by simp [wchars]
  | b0 :: b1 :: rest, hb => by
    intro c hc
    have h0 := hb b0 (by simp)
    have h1 := hb b1 (by simp)
    rcases List.mem_cons.mp hc with rfl | hc
    · omega
    · exact wchars_lt rest (fun x hx => hb x (by simp [hx])) c hc

theorem wchars_ne_nil : ∀ data : List Nat, 2 ≤ data.length → wchars data ≠ []
  | b0 :: b1 :: rest, _ => by simp [wchars]
  | [], h | [_], h => absurd h (by simp)

theorem dropLast_wchars_append {data : List Nat} (hlen : 2 ≤ data.length)
    (hlast : (wchars data).getLastD 0 = 0) : (wchars data).dropLast ++ [0] = wchars data := by
  have hne := wchars_ne_nil data hlen
  have hget : (wchars data).getLast hne = 0 := by
    rw [List.getLastD_eq_getLast?, List.getLast?_eq_some_getLast hne] at hlast
    exact hlast
  have := List.dropLast_concat_getLast hne
  rw [hget] at this
  exact this

theorem dwordOf_lt {data : List Nat} (hlen : data.length = 4) (hb : ∀ b ∈ data, b < 256) :
    dwordOf data < 2 ^ 32 := by
  match data, hlen with
  | [b0, b1, b2, b3], _ =>
    have := hb b0 (by simp); have := hb b1 (by simp); have := hb b2 (by simp)
    have := hb b3 (by simp)
    simp only [dwordOf, List.getD_cons_zero, List.getD_cons_succ]
    omega

theorem dwordBytes_dwordOf {data : List Nat} (hlen : data.length = 4) (hb : ∀ b ∈ data, b < 256) :
    dwordBytes (dwordOf data) = data := by
  match data, hlen with
  | [b0, b1, b2, b3], _ =>
    have := hb b0 (by simp); have := hb b1 (by simp); have := hb b2 (by simp)
    have := hb b3 (by simp)
    simp only [dwordOf, dwordBytes, List.getD_cons_zero, List.getD_cons_succ, List.cons.injEq,
      and_true]
    omega

/-- String data: the line of a quoted string after the tag `T`, read back with the NUL. -/
theorem loadData_string {type : Nat} {data : List Nat} {T : List Nat} (hT : Printable T)
    (hget : ∀ X, getDataType (T ++ '"'.toNat :: X) = some (type, .sz, T.length + 1))
    (hsp : ∀ X, isSpace (peek (T ++ '"'.toNat :: X)) = false)
    (hdata : ∀ b ∈ data, b < 256) (heven : data.length % 2 = 0) (hlen : 2 ≤ data.length)
    (hlast : (wchars data).getLastD 0 = 0) {pre : List Nat} (hpre : Printable pre) (rest : List Nat) :
    ∃ line text, readNextLine (pre ++ (T ++ '"'.toNat :: dumpStrW '"'.toNat '"'.toNat
        (wchars data).dropLast ++ chars ['"', '\n']) ++ rest) = some (pre ++ line, text) ∧
      Printable line ∧ isSpace (peek line) = false ∧
      ∀ tmplen, ∃ tmplen', loadData tmplen line text = (some (type, data), tmplen', rest) := by
  set s := (wchars data).dropLast
  have hs : ∀ c ∈ s, c < 0x10000 :=
    fun c hc => wchars_lt data hdata c (List.mem_of_mem_dropLast hc)
  have hstr : Printable (dumpStrW '"'.toNat '"'.toNat s ++ ['"'.toNat]) :=
    (printable_dumpStrW _ _ s).append (Printable.cons (by decide) printable_nil)
  have hline : Printable (T ++ '"'.toNat :: (dumpStrW '"'.toNat '"'.toNat s ++ ['"'.toNat])) :=
    hT.append (Printable.cons (by decide) hstr)
  refine ⟨T ++ '"'.toNat :: (dumpStrW '"'.toNat '"'.toNat s ++ ['"'.toNat]), rest, ?_, hline,
    hsp _, ?_⟩
  · have heq : pre ++ (T ++ '"'.toNat :: dumpStrW '"'.toNat '"'.toNat s ++ chars ['"', '\n']) ++ rest =
        (pre ++ (T ++ '"'.toNat :: (dumpStrW '"'.toNat '"'.toNat s ++ ['"'.toNat]))) ++ newline :: rest := by
      simp [chars, newline]
    rw [heq, readNextLine_line (hpre.append hline)]
  · intro tmplen
    have hdrop : (T ++ '"'.toNat :: (dumpStrW '"'.toNat '"'.toNat s ++ ['"'.toNat])).drop (T.length + 1) =
        dumpStrW '"'.toNat '"'.toNat s ++ ['"'.toNat] := by
      simp
    have hroom : s.length < tmpSpace tmplen (2 * strlen (dumpStrW '"'.toNat '"'.toNat s ++ ['"'.toNat])) / 2 := by
      have := length_dumpStrW '"'.toNat '"'.toNat s
      rw [strlen_printable hstr]
      simp only [tmpSpace, List.length_append, List.length_singleton]
      omega
    unfold loadData
    rw [hget]
    simp only
    rw [hdrop, parseStrW_dumpStrW plain_quote plain_quote (Or.inl rfl) s hs hroom [],
      dropLast_wchars_append hlen hlast]
    simp only
    rw [wcharBytes_wchars data heven hdata]
    exact ⟨_, rfl⟩

theorem loadData_hex {type : Nat} {data : List Nat} {tag : List Nat} (htag : Printable tag)
    (hget : ∀ X, getDataType (tag ++ X) = some (type, .binary, tag.length))
    (hsp : ∀ X, isSpace (peek (tag ++ X)) = false)
    (hdata : ∀ b ∈ data, b < 256) (count : Nat) {pre : List Nat} (hpre : Printable pre)
    (rest : List Nat) :
    ∃ line text, readNextLine (pre ++ (tag ++ dumpHex count data ++ [newline]) ++ rest) =
        some (pre ++ line, text) ∧
      Printable line ∧ isSpace (peek line) = false ∧
      ∀ tmplen, ∃ tmplen', loadData tmplen line text = (some (type, data), tmplen', rest) := by
  obtain ⟨line, text, hread, hpr, _, hload⟩ :=
    loadHex_dumpHex rest data.length data rfl count (pre ++ tag) hdata (hpre.append htag)
  refine ⟨tag ++ line, text, ?_, htag.append hpr, hsp line, ?_⟩
  · simpa using hread
  · intro tmplen
    obtain ⟨tmplen', h⟩ := hload (text.length + 1) (by omega) tmplen []
    unfold loadData
    rw [hget]
    simp only
    rw [List.drop_left, h]
    exact ⟨tmplen', rfl⟩

/-- `load_value` reads back the data of every value from the lines `dump_value` wrote for it,
the first of them after `pre`. -/
theorem loadData_dumpData {type : Nat} {data : List Nat} (htype : type < 2 ^ 32)
    (hdata : ∀ b ∈ data, b < 256) (count : Nat) {pre : List Nat} (hpre : Printable pre)
    (rest : List Nat) :
    ∃ line text, readNextLine (pre ++ dumpData type data count ++ rest) = some (pre ++ line, text) ∧
      Printable line ∧ isSpace (peek line) = false ∧
      ∀ tmplen, ∃ tmplen', loadData tmplen line text = (some (type, data), tmplen', rest) := by
  unfold dumpData
  split_ifs with hstr hsz hdw hbin
  · have htype' : type = regExpandSz ∨ type = regMultiSz := by
      rcases hstr.1 with h | h | h
      · exact absurd h hsz
      · exact Or.inl h
      · exact Or.inr h
    have hT : Printable (chars ['s', 't', 'r', '('] ++ hexText 0 type ++ chars [')', ':']) :=
      ((printable_chars _ (by simp)).append (printable_hexText 0 type)).append
        (printable_chars _ (by simp))
    have hTlen : (chars ['s', 't', 'r', '('] ++ hexText 0 type ++ chars [')', ':']).length = 7 := by
      rcases htype' with rfl | rfl <;> decide
    exact loadData_string hT (fun X => by rw [hTlen]; exact getDataType_str htype' X)
      (fun X => by simp [chars, isSpace]) hdata hstr.2.2.1 hstr.2.1 hstr.2.2.2 hpre rest
  · have hsz' : type = regSz := by simpa using hsz
    subst hsz'
    exact loadData_string printable_nil (fun X => getDataType_quote X) (fun X => by simp [isSpace])
      hdata hstr.2.2.1 hstr.2.1 hstr.2.2.2 hpre rest
  · have hline : Printable (chars ['d', 'w', 'o', 'r', 'd', ':'] ++ hexText 8 (dwordOf data)) :=
      (printable_chars _ (by simp)).append (printable_hexText 8 _)
    refine ⟨chars ['d', 'w', 'o', 'r', 'd', ':'] ++ hexText 8 (dwordOf data), rest, ?_, hline,
      by simp [chars, isSpace], ?_⟩
    · have heq : pre ++ (chars ['d', 'w', 'o', 'r', 'd', ':'] ++ hexText 8 (dwordOf data) ++ [newline]) ++ rest =
          (pre ++ (chars ['d', 'w', 'o', 'r', 'd', ':'] ++ hexText 8 (dwordOf data))) ++ newline :: rest := by
        simp
      rw [heq, readNextLine_line (hpre.append hline)]
    · intro tmplen
      have hread : strtoul16 (hexText 8 (dwordOf data) ++ []) = (dwordOf data, []) :=
        strtoul16_hexText 8 (by have := dwordOf_lt hdw.2 hdata; omega) rfl ⟨by decide, by decide⟩
      rw [List.append_nil] at hread
      have hdrop : (chars ['d', 'w', 'o', 'r', 'd', ':'] ++ hexText 8 (dwordOf data)).drop 6 =
          hexText 8 (dwordOf data) := by
        simp [chars]
      unfold loadData
      rw [hdw.1, getDataType_dword]
      simp only
      rw [hdrop, hread, Nat.mod_eq_of_lt (dwordOf_lt hdw.2 hdata), dwordBytes_dwordOf hdw.2 hdata]
      exact ⟨_, rfl⟩
  · subst hbin
    exact loadData_hex (printable_chars _ (by simp)) getDataType_hex
      (fun X => by simp [chars, isSpace]) hdata _ hpre rest
  · have htag : Printable (chars ['h', 'e', 'x', '('] ++ hexText 0 type ++ chars [')', ':']) :=
      ((printable_chars _ (by simp)).append (printable_hexText 0 type)).append
        (printable_chars _ (by simp))
    have htaglen : (chars ['h', 'e', 'x', '('] ++ hexText 0 type ++ chars [')', ':']).length =
        4 + (hexText 0 type).length + 2 := by
      simp [chars]
      omega
    exact loadData_hex htag (fun X => by rw [htaglen]; exact getDataType_hexType htype X)
      (fun X => by simp [chars, isSpace]) hdata _ hpre rest

theorem takeWhile_isSpace {X : List Nat} (h : isSpace (peek X) = false) : X.takeWhile isSpace = [] := by
  cases X with
  | nil => rfl
  | cons c X => exact List.takeWhile_cons_of_neg (by simpa using h)

theorem parseValueName_valueHead {value : KeyValue} (hname : ∀ c ∈ value.name, c < 0x10000)
    {D : List Nat} (hD : isSpace (peek D) = false) {tmplen : Nat}
    (hroom : (valueHead value).length ≤ tmplen / 2) :
    parseValueName tmplen (valueHead value ++ D) = some (value.name, (valueHead value).length) := by
  have hsp1 : ('='.toNat :: D).takeWhile isSpace = [] := takeWhile_isSpace rfl
  unfold valueHead at hroom ⊢
  split_ifs at hroom ⊢ with hn
  · set dump := dumpStrW '"'.toNat '"'.toNat value.name
    have hlen : value.name.length ≤ dump.length := length_dumpStrW _ _ value.name
    have hbuf : '"'.toNat :: dump ++ chars ['"', '='] ++ D =
        '"'.toNat :: (dump ++ '"'.toNat :: '='.toNat :: D) := by
      simp [chars]
    have hdrop1 : ('"'.toNat :: (dump ++ '"'.toNat :: '='.toNat :: D)).drop (dump.length + 1 + 1) =
        '='.toNat :: D := by
      rw [List.drop_succ_cons, List.drop_append]
      simp
    have hdrop2 : ('"'.toNat :: (dump ++ '"'.toNat :: '='.toNat :: D)).drop (dump.length + 1 + 1 + 1) =
        D := by
      rw [List.drop_succ_cons, List.drop_append]
      simp
    have hhead : ('"'.toNat :: dump ++ chars ['"', '=']).length = dump.length + 1 + 1 + 1 := by
      simp [chars]
    have hq : ('"'.toNat = '@'.toNat) = False := by decide
    have hparse : parseStrW tmplen (dump ++ '"'.toNat :: '='.toNat :: D) '"'.toNat =
        some (value.name ++ [0], (value.name.length + 1) * 2, dump.length + 1) :=
      parseStrW_dumpStrW plain_quote plain_quote (Or.inl rfl) _ hname
        (show value.name.length < tmplen / 2 by rw [hhead] at hroom; omega) ('='.toNat :: D)
    rw [hbuf, hhead]
    unfold parseValueName
    simp only [peek_cons, List.tail_cons, hq, ↓reduceIte, hparse, List.dropLast_concat, hdrop1, hsp1,
      List.length_nil, Nat.add_zero, ne_eq, not_true_eq_false, hdrop2, takeWhile_isSpace hD]
  · have hname0 : value.name = [] := List.eq_nil_of_length_eq_zero (by simpa using hn)
    have hbuf : chars ['@', '='] ++ D = '@'.toNat :: '='.toNat :: D := rfl
    rw [hname0, hbuf]
    unfold parseValueName
    simp only [peek_cons, ↓reduceIte, List.drop_succ_cons, List.drop_zero, hsp1, List.length_nil,
      Nat.add_zero, ne_eq, not_true_eq_false, takeWhile_isSpace hD]
    rfl

theorem printable_valueHead (value : KeyValue) : Printable (valueHead value) := by
  unfold valueHead
  split_ifs
  · exact Printable.cons (by decide)
      ((printable_dumpStrW _ _ _).append (printable_chars _ (by simp)))
  · exact printable_chars _ (by simp)

theorem peek_valueHead (value : KeyValue) (X : List Nat) :
    peek (valueHead value ++ X) = '"'.toNat ∨ peek (valueHead value ++ X) = '@'.toNat := by
  unfold valueHead
  split_ifs
  · exact Or.inl rfl
  · exact Or.inr rfl

theorem valueSlot_ok (key : RegKey) {name : List Nat} (hname : name.length ≤ maxValueLen)
    (found : Option Nat × Int) : ∃ key' i, valueSlot key found name = .ok (key', i) := by
  rcases found with ⟨_ | j, index⟩
  · simp only [valueSlot, insertValue, bind, Except.bind, pure, Except.pure]
    rw [if_neg (by omega)]
    exact ⟨_, _, rfl⟩
  · exact ⟨key, j, rfl⟩

theorem valueSlot_class {key key' : RegKey} {found : Option Nat × Int} {name : List Nat} {i : Nat}
    (h : valueSlot key found name = .ok (key', i)) :
    key'.class = key.class ∧ key'.classlen = key.classlen ∧ key'.flags = key.flags := by
  rcases found with ⟨_ | j, index⟩
  · simp only [valueSlot, insertValue, bind, Except.bind, pure, Except.pure, throw, throwThe,
      MonadExceptOf.throw] at h
    split_ifs at h <;> simp only [Except.ok.injEq, Prod.mk.injEq] at h <;> obtain ⟨rfl, -⟩ := h <;>
      exact ⟨rfl, rfl, rfl⟩
  · cases h
    exact ⟨rfl, rfl, rfl⟩

section Load

variable (toLower : Nat → Nat)

theorem loadValue_dumpValue {reg : Registry} {k : Nat} {key : RegKey} (hk : reg.keys k = some key)
    {value : KeyValue} (hv : value.Valid) (tmplen : Nat) (rest : List Nat) :
    ∃ line text, readNextLine (dumpValue value ++ rest) = some (line, text) ∧
      line.dropWhile isSpace = line ∧ (peek line = '"'.toNat ∨ peek line = '@'.toNat) ∧
      ∃ key', loadValueData toLower key value.name value.type value.data = .ok key' ∧
        ∃ tmplen', loadValue toLower reg k tmplen line text = (reg.setKey k key', tmplen', rest) := by
  obtain ⟨line, text, hread, hpr, hsp, hload⟩ := loadData_dumpData hv.type_lt hv.data_lt
    (valueHead value).length (printable_valueHead value) rest
  have hline : Printable (valueHead value ++ line) := (printable_valueHead value).append hpr
  have hhead : isSpace (peek (valueHead value ++ line)) = false := by
    rcases peek_valueHead value line with h | h <;> rw [h] <;> rfl
  obtain ⟨key1, i, hslot⟩ := valueSlot_ok key hv.name_len (findValue toLower key value.name)
  refine ⟨valueHead value ++ line, text, by rw [dumpValue_eq]; exact hread,
    dropWhile_isSpace hhead, peek_valueHead value line, key1.setValueData i value.type value.data,
    by simp [loadValueData, hslot, bind, Except.bind, pure, Except.pure], ?_⟩
  have hroom : (valueHead value).length ≤
      tmpSpace tmplen (2 * strlen (valueHead value ++ line)) / 2 := by
    rw [strlen_printable hline]
    simp only [tmpSpace, List.length_append]
    omega
  obtain ⟨tmplen', hdata⟩ := hload (tmpSpace tmplen (2 * strlen (valueHead value ++ line)))
  refine ⟨tmplen', ?_⟩
  unfold loadValue
  rw [hk]
  simp only
  rw [parseValueName_valueHead hv.name_lt hsp hroom]
  simp only
  rw [hslot]
  simp only
  rw [List.drop_left, hdata]

end Load

end Values

/-! ## The lines of a key -/

section Block

variable (toLower : Nat → Nat)

theorem loadHex_length : ∀ {fuel tmplen : Nat} {data buffer text : List Nat}
    {r : Option (List Nat)} {tmplen' : Nat} {text' : List Nat},
    loadHex fuel tmplen data buffer text = (r, tmplen', text') → text'.length ≤ text.length := by
  intro fuel
  induction fuel with
  | zero => intro _ _ _ text _ _ _ h; cases h; exact Nat.le_refl text.length
  | succ fuel ih =>
    intro tmplen data buffer text r tmplen' text' h
    unfold loadHex at h
    simp only at h
    split at h
    · cases h; exact Nat.le_refl _
    · split at h
      · cases h; exact Nat.le_refl _
      · split at h
        · cases h; exact Nat.le_refl _
        · split at h
          · cases h; exact Nat.le_refl _
          · rename_i line text'' hline
            exact Nat.le_trans (ih h) (Nat.le_of_lt (readNextLine_length hline))

theorem loadData_length {tmplen : Nat} {buffer text : List Nat} {r : Option (Nat × List Nat)}
    {tmplen' : Nat} {text' : List Nat} (h : loadData tmplen buffer text = (r, tmplen', text')) :
    text'.length ≤ text.length := by
  unfold loadData at h
  split at h
  · cases h; exact Nat.le_refl _
  · simp only at h
    split at h
    · split at h <;> (cases h; exact Nat.le_refl _)
    · cases h; exact Nat.le_refl _
    · split at h <;> rename_i heq <;> (cases h; exact loadHex_length heq)

theorem loadValue_length {reg : Registry} {k tmplen : Nat} {buffer text : List Nat}
    {reg' : Registry} {tmplen' : Nat} {text' : List Nat}
    (h : loadValue toLower reg k tmplen buffer text = (reg', tmplen', text')) :
    text'.length ≤ text.length := by
  unfold loadValue at h
  simp only at h
  split at h
  · cases h; exact Nat.le_refl _
  · split at h
    · cases h; exact Nat.le_refl _
    · split at h
      · cases h; exact Nat.le_refl _
      · split at h <;> rename_i heq <;> (cases h; exact loadData_length heq)

theorem loadKeyLines_fuel : ∀ (fuel fuel' : Nat) (reg : Registry) (k tmplen : Nat) (text : List Nat),
    text.length < fuel → text.length < fuel' →
    loadKeyLines toLower fuel reg k tmplen text = loadKeyLines toLower fuel' reg k tmplen text := by
  intro fuel
  induction fuel with
  | zero => intro _ _ _ _ text h; exact absurd h (Nat.not_lt_zero _)
  | succ fuel ih =>
    intro fuel' reg k tmplen text h h'
    obtain ⟨fuel', rfl⟩ : ∃ f, fuel' = f + 1 := ⟨fuel' - 1, by omega⟩
    unfold loadKeyLines
    split
    · rfl
    · rename_i line rest hline
      have hshort := readNextLine_length hline
      simp only
      split_ifs
      · rfl
      · rcases hval : loadValue toLower reg k tmplen (line.dropWhile isSpace) rest with
          ⟨reg', tmplen', rest'⟩
        have hv := loadValue_length toLower hval
        exact ih fuel' reg' k tmplen' rest' (by omega) (by omega)
      · exact ih fuel' _ k _ rest (by omega) (by omega)
      · exact ih fuel' reg k tmplen rest (by omega) (by omega)

theorem loadKeyBlock_dumpValue {reg : Registry} {k : Nat} {key : RegKey} (hk : reg.keys k = some key)
    {value : KeyValue} (hv : value.Valid) (tmplen : Nat) (rest : List Nat) :
    ∃ key', loadValueData toLower key value.name value.type value.data = .ok key' ∧
      ∃ tmplen', loadKeyBlock toLower reg k tmplen (dumpValue value ++ rest) =
        loadKeyBlock toLower (reg.setKey k key') k tmplen' rest := by
  obtain ⟨line, text, hread, hdrop, hpeek, key', hkey', tmplen', hload⟩ :=
    loadValue_dumpValue toLower hk hv tmplen rest
  refine ⟨key', hkey', tmplen', ?_⟩
  have hshort := readNextLine_length hread
  have hrest := loadValue_length toLower hload
  have hpeek' : peek line ≠ '['.toNat := by rcases hpeek with h | h <;> rw [h] <;> decide
  have hval : peek line = '@'.toNat ∨ peek line = '"'.toNat := hpeek.symm
  unfold loadKeyBlock
  rw [loadKeyLines, hread]
  simp only
  rw [hdrop, if_neg hpeek', if_pos hval, hload]
  exact loadKeyLines_fuel toLower _ _ _ k _ rest (by omega) (Nat.lt_succ_self _)

theorem Registry.setKey_self {reg : Registry} {k : Nat} {key : RegKey} (hk : reg.keys k = some key) :
    reg.setKey k key = reg := by
  unfold Registry.setKey
  rw [← hk, Function.update_eq_self]

@[simp] theorem Registry.setKey_setKey (reg : Registry) (k : Nat) (key key' : RegKey) :
    (reg.setKey k key).setKey k key' = reg.setKey k key' := by
  simp [Registry.setKey]

@[simp] theorem Registry.setKey_keys_self (reg : Registry) (k : Nat) (key : RegKey) :
    (reg.setKey k key).keys k = some key := by
  simp [Registry.setKey]

/-- The requests `load_value` makes for values read one after the other. -/
def loadValues (key : RegKey) : List KeyValue → Except NtStatus RegKey
  | [] => .ok key
  | value :: values =>
    match loadValueData toLower key value.name value.type value.data with
    | .ok key => loadValues key values
    | .error e => .error e

theorem loadKeyBlock_dumpValues {k : Nat} : ∀ (values : List KeyValue) (reg : Registry) (key : RegKey),
    reg.keys k = some key → (∀ v ∈ values, v.Valid) → ∀ (tmplen : Nat) (rest : List Nat),
    ∃ key', loadValues toLower key values = .ok key' ∧
      ∃ tmplen', loadKeyBlock toLower reg k tmplen (values.flatMap dumpValue ++ rest) =
        loadKeyBlock toLower (reg.setKey k key') k tmplen' rest := by
  intro values
  induction values with
  | nil =>
    intro reg key hk _ tmplen rest
    exact ⟨key, rfl, tmplen, by rw [Registry.setKey_self hk]; rfl⟩
  | cons value values ih =>
    intro reg key hk hvs tmplen rest
    obtain ⟨key1, hkey1, tmplen1, h1⟩ :=
      loadKeyBlock_dumpValue toLower hk (hvs value List.mem_cons_self) tmplen
        (values.flatMap dumpValue ++ rest)
    obtain ⟨key2, hkey2, tmplen2, h2⟩ := ih (reg.setKey k key1) key1 (Registry.setKey_keys_self _ _ _)
      (fun v hv => hvs v (List.mem_cons_of_mem _ hv)) tmplen1 rest
    refine ⟨key2, by simp [loadValues, hkey1, hkey2], tmplen2, ?_⟩
    rw [List.flatMap_cons, List.append_assoc, h1, h2, Registry.setKey_setKey]

theorem loadKeyBlock_option {reg : Registry} {k tmplen : Nat} {line : List Nat} (hline : Printable line)
    (hhash : peek line = '#'.toNat) (rest : List Nat) :
    loadKeyBlock toLower reg k tmplen (line ++ newline :: rest) =
      loadKeyBlock toLower (loadKeyOption reg k tmplen line).1 k (loadKeyOption reg k tmplen line).2
        rest := by
  have hread := readNextLine_line hline rest
  have hsp : isSpace (peek line) = false := by rw [hhash]; rfl
  unfold loadKeyBlock
  rw [loadKeyLines, hread]
  simp only
  rw [dropWhile_isSpace hsp, hhash, if_neg (by decide), if_neg (by decide), if_pos rfl]
  rcases hopt : loadKeyOption reg k tmplen line with ⟨reg', tmplen'⟩
  exact loadKeyLines_fuel toLower _ _ _ k _ rest (by simp; omega) (Nat.lt_succ_self _)

theorem loadKeyBlock_next (reg : Registry) (k tmplen : Nat) {next : List Nat}
    (hnext : next = [] ∨ ∃ more, next = newline :: '['.toNat :: more) :
    (loadKeyBlock toLower reg k tmplen next).1 = reg := by
  rcases hnext with rfl | ⟨more, rfl⟩
  · rfl
  · have hempty : readNextLine (newline :: '['.toNat :: more) = some ([], '['.toNat :: more) := by
      simpa using readNextLine_line printable_nil ('['.toNat :: more)
    have hheader : ∃ line rest, readNextLine ('['.toNat :: more) = some (line, rest) ∧
        peek line = '['.toNat := by
      unfold readNextLine
      simp only [List.takeWhile_cons, show ('['.toNat ≠ newline) = True by decide,
        decide_true, ↓reduceIte]
      split_ifs with hlt hcr
      · refine ⟨_, _, rfl, ?_⟩
        cases ht : List.takeWhile (fun x => decide (x ≠ newline)) more with
        | nil => rw [ht] at hcr; simp at hcr
        | cons a t => simp
      · exact ⟨_, _, rfl, rfl⟩
      · exact ⟨_, _, rfl, rfl⟩
    obtain ⟨line, rest, hread, hpeek⟩ := hheader
    have h1 : (0 = '['.toNat) = False := by decide
    have h2 : (0 = '@'.toNat) = False := by decide
    have h3 : (0 = '"'.toNat) = False := by decide
    have h4 : (0 = '#'.toNat) = False := by decide
    unfold loadKeyBlock
    rw [loadKeyLines, hempty]
    simp only [List.dropWhile_nil, peek_nil, h1, h2, h3, h4, or_self, ↓reduceIte, List.length_cons]
    rw [loadKeyLines, hread]
    simp only
    rw [dropWhile_isSpace (by rw [hpeek]; rfl), if_pos hpeek]

end Block

/-! ## Key options -/

/-- The class and its length, which `save_subkeys` writes and `load_key_option` reads. -/
def RegKey.classOf (key : RegKey) : Option (List Nat) × Nat := (key.class, key.classlen)

section Options

variable (toLower : Nat → Nat)

theorem loadKeyOption_time (reg : Registry) (k tmplen : Nat) (X : List Nat) :
    loadKeyOption reg k tmplen (chars ['#', 't', 'i', 'm', 'e', '='] ++ X) =
      (updateKeyTime (readTime 0 X) (reg.next + 1) reg k, tmplen) := by
  simp [loadKeyOption, chars, List.isPrefixOf]

theorem loadKeyOption_link {reg : Registry} {k : Nat} {key : RegKey} (hk : reg.keys k = some key)
    (tmplen : Nat) :
    (loadKeyOption reg k tmplen (chars ['#', 'l', 'i', 'n', 'k'])).1 =
      reg.setKey k { key with flags := key.flags ||| keySymlink } := by
  simp [loadKeyOption, chars, List.isPrefixOf, hk]

theorem loadKeyOption_class {reg : Registry} {k : Nat} {key : RegKey} (hk : reg.keys k = some key)
    {c : List Nat} (hc : ∀ x ∈ c, x < 0x10000) (tmplen : Nat) :
    (loadKeyOption reg k tmplen (chars ['#', 'c', 'l', 'a', 's', 's', '=', '"'] ++
        dumpStrW '"'.toNat '"'.toNat c ++ ['"'.toNat])).1 =
      reg.setKey k { key with «class» := some (c ++ [0]), classlen := (c.length + 1) * 2 } := by
  have hstr : Printable (dumpStrW '"'.toNat '"'.toNat c ++ ['"'.toNat]) :=
    (printable_dumpStrW _ _ c).append (Printable.cons (by decide) printable_nil)
  have hroom : c.length < tmpSpace tmplen (2 * strlen (dumpStrW '"'.toNat '"'.toNat c ++ ['"'.toNat])) / 2 := by
    have := length_dumpStrW '"'.toNat '"'.toNat c
    rw [strlen_printable hstr]
    simp only [tmpSpace, List.length_append, List.length_singleton]
    omega
  have hparse := parseStrW_dumpStrW plain_quote plain_quote (Or.inl rfl) c hc hroom []
  have hbuf : chars ['#', 'c', 'l', 'a', 's', 's', '=', '"'] ++ dumpStrW '"'.toNat '"'.toNat c ++ ['"'.toNat] =
      chars ['#', 'c', 'l', 'a', 's', 's', '='] ++ '"'.toNat :: (dumpStrW '"'.toNat '"'.toNat c ++ ['"'.toNat]) := by
    simp [chars]
  rw [hbuf]
  unfold loadKeyOption
  simp only [chars, List.map_cons, List.map_nil, List.cons_append, List.nil_append, List.isPrefixOf,
    List.drop_succ_cons, List.drop_zero, peek_cons, List.tail_cons]
  have hparse' : parseStrW (tmpSpace tmplen (2 * strlen (dumpStrW 34 34 c ++ [34])))
      (dumpStrW 34 34 c ++ [34]) 34 = some (c ++ [0], (c.length + 1) * 2, _) := hparse
  simp [hparse', hk, Registry.setKey]

theorem updateKeyTime_classOf (modif : Nat) : ∀ (fuel : Nat) (reg : Registry) (k x : Nat),
    ((updateKeyTime modif fuel reg k).keys x).map RegKey.classOf = (reg.keys x).map RegKey.classOf := by
  intro fuel
  induction fuel with
  | zero => intro reg k x; rfl
  | succ fuel ih =>
    intro reg k x
    have hset : ∀ key : RegKey, reg.keys k = some key →
        ((reg.setKey k { key with modif }).keys x).map RegKey.classOf = (reg.keys x).map RegKey.classOf := by
      intro key hk
      by_cases hx : x = k
      · subst hx
        simp [Registry.setKey, hk, RegKey.classOf]
      · simp [Registry.setKey, Function.update_of_ne hx]
    unfold updateKeyTime
    split
    · rfl
    · rename_i key hk
      split_ifs
      · rfl
      · split
        · exact hset key hk
        · rw [ih]
          exact hset key hk

theorem loadValueData_classOf {key key' : RegKey} {name : List Nat} {type : Nat} {data : List Nat}
    (h : loadValueData toLower key name type data = .ok key') : key'.classOf = key.classOf := by
  unfold loadValueData at h
  simp only [bind, Except.bind, pure, Except.pure] at h
  split at h
  · cases h
  · rename_i slot hslot
    cases h
    obtain ⟨hc, hl, -⟩ := valueSlot_class hslot
    simp [RegKey.setValueData, RegKey.classOf, hc, hl]

theorem loadValues_classOf : ∀ (values : List KeyValue) (key key' : RegKey),
    loadValues toLower key values = .ok key' → key'.classOf = key.classOf := by
  intro values
  induction values with
  | nil => intro key key' h; cases h; rfl
  | cons value values ih =>
    intro key key' h
    unfold loadValues at h
    split at h
    · rename_i key1 h1
      rw [ih key1 key' h, loadValueData_classOf toLower h1]
    · cases h

/-- The class is read back with one more character: the NUL `parse_strW` stores, which
`load_key_option` keeps in the class and in its length. The link flag and the values on the
lines after it leave the class alone. -/
theorem loadKeyBlock_dumpKeyBody_class {reg : Registry} {k : Nat} {target : RegKey}
    (hk : reg.keys k = some target) {key : RegKey} {c : List Nat} (hc : key.class = some c)
    (hlen : key.classlen = 2 * c.length) (hcs : ∀ x ∈ c, x < 0x10000)
    (hvals : ∀ i < (key.lastValue + 1).toNat, (key.values i).Valid) (tmplen : Nat)
    {next : List Nat} (hnext : next = [] ∨ ∃ more, next = newline :: '['.toNat :: more) :
    ∃ key', (loadKeyBlock toLower reg k tmplen (dumpKeyBody key ++ next)).1.keys k = some key' ∧
      key'.class = some (c ++ [0]) ∧ key'.classlen = key.classlen + 2 := by
  set values := (List.range (key.lastValue + 1).toNat).map key.values
  have hvalid : ∀ v ∈ values, v.Valid := by
    intro v hv
    obtain ⟨i, hi, rfl⟩ := List.mem_map.mp hv
    exact hvals i (List.mem_range.mp hi)
  have htake : c.take (key.classlen / 2) = c := by
    rw [hlen, Nat.mul_div_cancel_left _ (by decide), List.take_length]
  set timeLine := chars ['#', 't', 'i', 'm', 'e', '='] ++
    (hexText 0 (key.modif / 2 ^ 32 % 2 ^ 32) ++ hexText 8 (key.modif % 2 ^ 32))
  set classLine := chars ['#', 'c', 'l', 'a', 's', 's', '=', '"'] ++
    dumpStrW '"'.toNat '"'.toNat c ++ ['"'.toNat]
  have htime : Printable timeLine :=
    (printable_chars _ (by simp)).append ((printable_hexText _ _).append (printable_hexText _ _))
  have hclass : Printable classLine :=
    ((printable_chars _ (by simp)).append (printable_dumpStrW _ _ c)).append
      (Printable.cons (by decide) printable_nil)
  have htail : ∀ (reg3 : Registry) (t3 : RegKey) (tmplen3 : Nat), reg3.keys k = some t3 →
      ∃ key', (loadKeyBlock toLower reg3 k tmplen3 (values.flatMap dumpValue ++ next)).1.keys k =
        some key' ∧ key'.classOf = t3.classOf := by
    intro reg3 t3 tmplen3 ht3
    obtain ⟨key4, hkey4, tmplen4, h4⟩ :=
      loadKeyBlock_dumpValues toLower values reg3 t3 ht3 hvalid tmplen3 next
    refine ⟨key4, ?_, loadValues_classOf toLower values t3 key4 hkey4⟩
    rw [h4, loadKeyBlock_next toLower _ k tmplen4 hnext]
    exact Registry.setKey_keys_self _ _ _
  have hlink : ∀ (reg2 : Registry) (t2 : RegKey) (tmplen2 : Nat), reg2.keys k = some t2 →
      ∃ key', (loadKeyBlock toLower reg2 k tmplen2
          ((if key.flags &&& keySymlink ≠ 0 then chars ['#', 'l', 'i', 'n', 'k', '\n'] else []) ++
            (values.flatMap dumpValue ++ next))).1.keys k = some key' ∧ key'.classOf = t2.classOf := by
    intro reg2 t2 tmplen2 ht2
    split_ifs
    · have hline : chars ['#', 'l', 'i', 'n', 'k', '\n'] ++ (values.flatMap dumpValue ++ next) =
          chars ['#', 'l', 'i', 'n', 'k'] ++ newline :: (values.flatMap dumpValue ++ next) := by
        simp [chars, newline]
      rw [hline, loadKeyBlock_option toLower (printable_chars _ (by simp)) rfl,
        loadKeyOption_link ht2]
      obtain ⟨key', h', hc'⟩ := htail _ _ _ (Registry.setKey_keys_self _ _ _)
      exact ⟨key', h', hc'⟩
    · exact htail reg2 t2 tmplen2 ht2
  have hbody : dumpKeyBody key ++ next = timeLine ++ newline :: (classLine ++ newline ::
      ((if key.flags &&& keySymlink ≠ 0 then chars ['#', 'l', 'i', 'n', 'k', '\n'] else []) ++
        (values.flatMap dumpValue ++ next))) := by
    simp only [dumpKeyBody, hc, htake, timeLine, classLine, values, List.flatMap_map]
    simp [chars, newline]
  obtain ⟨t1, ht1, hc1⟩ : ∃ t1, (updateKeyTime (readTime 0 (hexText 0 (key.modif / 2 ^ 32 % 2 ^ 32) ++
      hexText 8 (key.modif % 2 ^ 32))) (reg.next + 1) reg k).keys k = some t1 ∧
      t1.classOf = target.classOf := by
    have h := updateKeyTime_classOf (readTime 0 (hexText 0 (key.modif / 2 ^ 32 % 2 ^ 32) ++
      hexText 8 (key.modif % 2 ^ 32))) (reg.next + 1) reg k k
    rw [hk] at h
    cases ht : (updateKeyTime _ (reg.next + 1) reg k).keys k with
    | none => rw [ht] at h; cases h
    | some t1 => rw [ht] at h; exact ⟨t1, rfl, Option.some.inj h⟩
  rw [hbody, loadKeyBlock_option toLower htime rfl, loadKeyOption_time,
    loadKeyBlock_option toLower hclass rfl, loadKeyOption_class ht1 hcs]
  obtain ⟨key', h', hc'⟩ := hlink _ _ _ (Registry.setKey_keys_self _ _ _)
  refine ⟨key', h', ?_, ?_⟩
  · have := congrArg Prod.fst hc'
    exact this
  · have := congrArg Prod.snd hc'
    simp only [RegKey.classOf] at this
    rw [this, hlen]
    ring

/-- The class `"a"` of a key with no values, saved and read back into a key of a store: it
comes back as `"a"` and a NUL, in four bytes. -/
theorem class_a_loaded_with_nul :
    ∃ key', (loadKeyBlock id { keys := fun _ => some (RegKey.init [] 0), next := 1 } 0 0
        (dumpKeyBody { RegKey.init ['k'.toNat] 0 with «class» := some ['a'.toNat], classlen := 2 } ++
          [])).1.keys 0 = some key' ∧
      key'.class = some (['a'.toNat] ++ [0]) ∧ key'.classlen = 2 + 2 :=
  loadKeyBlock_dumpKeyBody_class id (show (⟨fun _ => some (RegKey.init [] 0), 1⟩ : Registry).keys 0 =
      some (RegKey.init [] 0) from rfl) rfl rfl (by decide)
    (fun i hi => absurd hi (by simp [RegKey.init])) 0 (Or.inl rfl)

end Options

end Wine.Server
