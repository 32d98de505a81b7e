import Xeros.Kbd.Driver
/-!
# Scan codes

What a stream of scan codes means: `Decoder` is a keyboard with shift, caps
lock, control and Alt, a prefix `0xE0` and one table for each combination.
`kbtoa` follows it on the streams of `scan_codes_decoded`: the key-up test
comes before the test for the prefix, whose bit it is, and Alt is added to
entries that are zero or missing.
-/

namespace Xeros

open Runs

/-! ## What the codes mean -/

structure Modifiers where
  shift : Bool
  caps : Bool
  ctl : Bool
  alt : Bool
  deriving DecidableEq

def IsModifier (code : Byte) : Prop :=
  code = LSHIFT ∨ code = RSHIFT ∨ code = CAPSL ∨ code = LCTL ∨ code = LMETA

instance : DecidablePred IsModifier := fun _ => inferInstanceAs (Decidable (_ ∨ _))

namespace Modifiers

/-- The table in which an ordinary key is looked up. -/
def table (m : Modifiers) : List Byte := if m.ctl then kbctl else if m.shift ≠ m.caps then kbshift else kbcode

/-- The character of an ordinary key. -/
def char (m : Modifiers) (code : Byte) : Option Byte :=
  match m.table[code.toNat]? with
  | none => none
  | some c => if c = 0 then none else some (if m.alt then c + 0x80 else c)

def press (m : Modifiers) (code : Byte) : Modifiers :=
  if code = LSHIFT ∨ code = RSHIFT then { m with shift := true }
  else if code = LCTL then { m with ctl := true }
  else if code = LMETA then { m with alt := true }
  else m

/-- Caps lock changes when its key goes up. -/
def release (m : Modifiers) (key : Byte) : Modifiers :=
  if key = LSHIFT ∨ key = RSHIFT then { m with shift := false }
  else if key = CAPSL then { m with caps := !m.caps }
  else if key = LCTL then { m with ctl := false }
  else if key = LMETA then { m with alt := false }
  else m

end Modifiers

/-- The keyboard between two bytes; `prefixed` after a `0xE0`. -/
structure Decoder where
  held : Modifiers
  prefixed : Bool

/-- A byte that has been read, the character it gives and the modifiers after it. -/
structure Scan where
  code : Byte
  char : Option Byte
  held : Modifiers
  deriving DecidableEq

namespace Decoder

def start : Decoder := { held := { shift := false, caps := false, ctl := false, alt := false }, prefixed := false }

/-- The next byte. -/
def read (d : Decoder) (code : Byte) : Decoder × Option Byte :=
  if d.prefixed then ({ d with prefixed := false }, none)
  else if code = EXTESC then ({ d with prefixed := true }, none)
  else if code &&& KEY_UP ≠ 0 then ({ d with held := d.held.release (code &&& 0x7f) }, none)
  else if IsModifier code then ({ d with held := d.held.press code }, none)
  else (d, d.held.char code)

def scans (d : Decoder) : List Byte → List Scan
  | [] => []
  | code :: codes =>
    let (d', char) := d.read code
    { code := code, char := char, held := d'.held } :: d'.scans codes

end Decoder

/-! ## What the driver makes of them -/

/-- The modifiers in the state of the driver. -/
def held (state : Word) : Modifiers where
  shift := decide (state &&& INSHIFT ≠ 0)
  caps := decide (state &&& CAPSLOCK ≠ 0)
  ctl := decide (state &&& INCTL ≠ 0)
  alt := decide (state &&& INMETA ≠ 0)

/-- The character that is offered to `insert_char`. -/
def offered (ch : Word) : Option Byte :=
  let a : Byte := ch.setWidth 8
  if a ≠ 0 then some a else none

/-- The bytes `keyboard_fill` reads, with what it offers to `insert_char`. -/
def fill_scans (kb : Kbd) : List Byte → List Scan
  | [] => []
  | code :: codes =>
    let (ch, state) := kbtoa kb.state code
    let kb := { kb with state := state }
    let a : Byte := ch.setWidth 8
    if a ≠ 0 then
      let (kb, rc) := insert_char kb a
      { code := code, char := some a, held := held state } :: if rc = 0 then fill_scans kb codes else []
    else { code := code, char := none, held := held state } :: fill_scans kb codes

/-- The driver, and the bytes it has read from the controller. -/
structure ScanSys where
  kernel : Kernel
  scans : List Scan

def scanStep (e : DriverEvent) (s : ScanSys) : Option ScanSys := do
  let k ← driverStep e s.kernel
  match e with
  | .key codes => some { kernel := k, scans := s.scans ++ fill_scans s.kernel.kbd codes }
  | _ => some { s with kernel := k }

def ScanInit (s : ScanSys) : Prop := DriverInit s.kernel ∧ s.scans = []

def ScanOk (s : ScanSys) (e : DriverEvent) : Prop := DriverOk s.kernel e

/-! ## Where they agree -/

/-- With Alt down the driver adds 0x80 to an entry that is zero, and to `NOCHAR`
if it takes that for the character. -/
def AltQuirk (m : Modifiers) (code : Byte) : Prop :=
  m.alt = true ∧ code &&& KEY_UP = 0 ∧ ¬IsModifier code ∧
    (m.table[code.toNat]? = some 0 ∨ m.table[code.toNat]? = none ∧ m.shift = false ∧ m.ctl = false)

instance (m : Modifiers) (code : Byte) : Decidable (AltQuirk m code) := inferInstanceAs (Decidable (_ ∧ _))

namespace Decoder

/-- The byte is the same with and without regard to the prefix, and needs no character of Alt. -/
def Plain (d : Decoder) (code : Byte) : Prop :=
  ¬AltQuirk d.held code ∧ (d.prefixed = true →
    (read { d with prefixed := false } code).2 = none ∧ (read { d with prefixed := false } code).1.held = d.held)

instance (d : Decoder) (code : Byte) : Decidable (d.Plain code) := inferInstanceAs (Decidable (_ ∧ _))

def PlainStream (d : Decoder) : List Byte → Prop
  | [] => True
  | code :: codes => d.Plain code ∧ (d.read code).1.PlainStream codes

instance decPlainStream : ∀ (d : Decoder) (codes : List Byte), Decidable (d.PlainStream codes)
  | _, [] => inferInstanceAs (Decidable True)
  | d, code :: codes =>
    have := decPlainStream (d.read code).1 codes
    inferInstanceAs (Decidable (_ ∧ _))

end Decoder

/-! ## The state of the driver -/

section
variable {w : Word} {code : Byte}

theorem held_shift_down (w : Word) : held (w ||| INSHIFT) = { held w with shift := true } := by
  simp (disch := decide) only [held, Flags.set_other, Flags.set_self]
  rfl

theorem held_caps_on (w : Word) : held (w ||| CAPSLOCK) = { held w with caps := true } := by
  simp (disch := decide) only [held, Flags.set_other, Flags.set_self]
  rfl

theorem held_ctl_down (w : Word) : held (w ||| INCTL) = { held w with ctl := true } := by
  simp (disch := decide) only [held, Flags.set_other, Flags.set_self]
  rfl

theorem held_alt_down (w : Word) : held (w ||| INMETA) = { held w with alt := true } := by
  simp (disch := decide) only [held, Flags.set_other, Flags.set_self]
  rfl

theorem held_shift_up (w : Word) : held (w &&& ~~~INSHIFT) = { held w with shift := false } := by
  simp (disch := decide) only [held, Flags.clear_other, Flags.clear_self]
  rfl

theorem held_caps_off (w : Word) : held (w &&& ~~~CAPSLOCK) = { held w with caps := false } := by
  simp (disch := decide) only [held, Flags.clear_other, Flags.clear_self]
  rfl

theorem held_ctl_up (w : Word) : held (w &&& ~~~INCTL) = { held w with ctl := false } := by
  simp (disch := decide) only [held, Flags.clear_other, Flags.clear_self]
  rfl

theorem held_alt_up (w : Word) : held (w &&& ~~~INMETA) = { held w with alt := false } := by
  simp (disch := decide) only [held, Flags.clear_other, Flags.clear_self]
  rfl

theorem held_key_up (w : Word) (key : Byte) : held (key_up w key) = (held w).release key := by
  unfold key_up Modifiers.release
  split
  · exact held_shift_up w
  split
  · split
    · next hcaps =>
      have hon : (held w).caps = true := decide_eq_true hcaps
      rw [held_caps_off, hon]
      rfl
    · next hcaps =>
      have hoff : (held w).caps = false := decide_eq_false hcaps
      rw [held_caps_on, hoff]
      rfl
  split
  · exact held_ctl_up w
  split
  · exact held_alt_up w
  · rfl

theorem extended_key_up (h : w &&& EXTENDED = 0) (key : Byte) : key_up w key &&& EXTENDED = 0 := by
  unfold key_up
  split
  · rwa [Flags.clear_other w (by decide)]
  split
  · split
    · rwa [Flags.clear_other w (by decide)]
    · rwa [Flags.set_other w (by decide)]
  split
  · rwa [Flags.clear_other w (by decide)]
  split
  · rwa [Flags.clear_other w (by decide)]
  · exact h

theorem entry_eq {table : List Byte} (h : code.toNat < table.length) : entry table code = table[code.toNat].setWidth 32 := by
  rw [entry, List.getD_eq_getElem?_getD, List.getElem?_eq_getElem h, Option.getD_some]

theorem table_ctl (h : w &&& INCTL ≠ 0) : (held w).table = kbctl := if_pos (decide_eq_true h)

theorem table_no_ctl (h : ¬w &&& INCTL ≠ 0) : (held w).table =
    if w &&& INSHIFT ≠ 0 then if w &&& CAPSLOCK ≠ 0 then kbcode else kbshift
    else if w &&& CAPSLOCK ≠ 0 then kbshift else kbcode := by
  have hctl : (held w).ctl = false := decide_eq_false h
  have hshift : (held w).shift = decide (w &&& INSHIFT ≠ 0) := rfl
  have hcaps : (held w).caps = decide (w &&& CAPSLOCK ≠ 0) := rfl
  by_cases hs : w &&& INSHIFT ≠ 0
  · rw [decide_eq_true hs] at hshift
    by_cases hc : w &&& CAPSLOCK ≠ 0
    · rw [decide_eq_true hc] at hcaps
      simp only [Modifiers.table, hctl, hshift, hcaps, if_pos hs, if_pos hc]
      rfl
    · rw [decide_eq_false hc] at hcaps
      simp only [Modifiers.table, hctl, hshift, hcaps, if_pos hs, if_neg hc]
      rfl
  · rw [decide_eq_false hs] at hshift
    by_cases hc : w &&& CAPSLOCK ≠ 0
    · rw [decide_eq_true hc] at hcaps
      simp only [Modifiers.table, hctl, hshift, hcaps, if_neg hs, if_pos hc]
      rfl
    · rw [decide_eq_false hc] at hcaps
      simp only [Modifiers.table, hctl, hshift, hcaps, if_neg hs, if_neg hc]
      rfl

theorem length_kbctl : kbctl.length = 51 := rfl
theorem length_kbshift : kbshift.length = 58 := rfl
theorem length_kbcode : kbcode.length = 58 := rfl

/-- Without control the table has the length of `kbcode`. -/
theorem length_table_no_ctl (h : ¬w &&& INCTL ≠ 0) : (held w).table.length = kbcode.length := by
  have hlen : kbshift.length = kbcode.length := length_kbshift.trans length_kbcode.symm
  rw [table_no_ctl h]
  split
  · split
    · rfl
    · exact hlen
  · split
    · exact hlen
    · rfl

/-- A key with an entry in the table of the modifiers. -/
theorem key_char_entry (h : code.toNat < (held w).table.length) : key_char w code =
    if w &&& INMETA ≠ 0 then entry (held w).table code + 0x80 else entry (held w).table code := by
  by_cases hk : w &&& INCTL ≠ 0
  · rw [table_ctl hk] at h ⊢
    have hs : ¬(w &&& INSHIFT ≠ 0 ∧ kbshift.length ≤ code.toNat) := fun hs => by
      have hle := hs.2
      rw [length_kbctl] at h
      rw [length_kbshift] at hle
      omega
    have hc : ¬(w &&& INCTL ≠ 0 ∧ kbctl.length ≤ code.toNat) := fun hc => absurd hc.2 (Nat.not_le.2 h)
    simp only [key_char, if_neg hs, if_neg hc, if_pos hk]
  · have hlen : code.toNat < kbcode.length := by rwa [length_table_no_ctl hk] at h
    have hs : ¬(w &&& INSHIFT ≠ 0 ∧ kbshift.length ≤ code.toNat) := fun hs => absurd hs.2 (Nat.not_le.2 hlen)
    have hc : ¬(w &&& INCTL ≠ 0 ∧ kbctl.length ≤ code.toNat) := fun hc => hk hc.1
    rw [table_no_ctl hk]
    simp only [key_char, if_neg hs, if_neg hc, if_neg hk, if_pos hlen]
    congr 1
    all_goals
      split
      all_goals
        split
        all_goals rfl

/-- A key without an entry. -/
theorem key_char_missing (h : ¬code.toNat < (held w).table.length) : key_char w code =
    if w &&& INMETA ≠ 0 ∧ ¬w &&& INSHIFT ≠ 0 ∧ ¬w &&& INCTL ≠ 0 then NOCHAR + 0x80 else NOCHAR := by
  by_cases hk : w &&& INCTL ≠ 0
  · rw [table_ctl hk] at h
    have hc : w &&& INCTL ≠ 0 ∧ kbctl.length ≤ code.toNat := ⟨hk, Nat.not_lt.1 h⟩
    simp only [key_char, if_pos hc, ite_self]
    rw [if_neg fun h => h.2.2 hk]
  · have hlen : ¬code.toNat < kbcode.length := by rwa [length_table_no_ctl hk] at h
    have hc : ¬(w &&& INCTL ≠ 0 ∧ kbctl.length ≤ code.toNat) := fun hc => hk hc.1
    by_cases hsh : w &&& INSHIFT ≠ 0
    · have hs : w &&& INSHIFT ≠ 0 ∧ kbshift.length ≤ code.toNat := ⟨hsh, Nat.not_lt.1 hlen⟩
      simp only [key_char, if_pos hs]
      rw [if_neg fun h => h.2.1 hsh]
    · have hs : ¬(w &&& INSHIFT ≠ 0 ∧ kbshift.length ≤ code.toNat) := fun hs => hsh hs.1
      simp only [key_char, if_neg hs, if_neg hc, if_neg hk, if_neg hlen, if_neg hsh]
      exact if_congr (and_iff_left ⟨hsh, hk⟩).symm rfl rfl

/-! ## A byte -/

theorem offered_entry (c : Byte) : offered (c.setWidth 32) = if c = 0 then none else some c := by
  rw [offered, BitVec.setWidth_setWidth_of_le _ (by decide), BitVec.setWidth_eq]
  exact ite_not ..

theorem offered_alt (c : Byte) : offered (c.setWidth 32 + 0x80) = if c + 0x80 = 0 then none else some (c + 0x80) := by
  rw [offered, BitVec.setWidth_add _ _ (by decide), BitVec.setWidth_setWidth_of_le _ (by decide), BitVec.setWidth_eq]
  exact ite_not ..

theorem offered_nochar : offered NOCHAR = none := rfl

/-- The bit that Alt adds is in no entry. -/
theorem entry_alt (m : Modifiers) : ∀ c ∈ m.table, c + 0x80 ≠ 0 := by
  have hlt (t : List Byte) (ht : t.all (fun c => c.toNat < 128) = true) : ∀ c ∈ t, c + 0x80 ≠ 0 := by
    intro c hc h
    have hc := of_decide_eq_true (List.all_eq_true.1 ht c hc)
    bv_omega
  rw [Modifiers.table]
  split
  · exact hlt kbctl rfl
  split
  · exact hlt kbshift rfl
  · exact hlt kbcode rfl

/-- What the driver makes of an ordinary key. -/
theorem offered_key_char (w : Word) (hup : code &&& KEY_UP = 0) (hmod : ¬IsModifier code) :
    offered (key_char w code) = if AltQuirk (held w) code then some 0x80 else (held w).char code := by
  have halt : (held w).alt = true ↔ w &&& INMETA ≠ 0 := decide_eq_true_iff
  by_cases hlen : code.toNat < (held w).table.length
  · have hget := List.getElem?_eq_getElem hlen
    have hquirk : AltQuirk (held w) code ↔ w &&& INMETA ≠ 0 ∧ (held w).table[code.toNat] = 0 := by
      simp [AltQuirk, hup, hmod, hget, halt]
    have hne := entry_alt _ _ (List.getElem_mem hlen)
    rw [key_char_entry hlen, entry_eq hlen, Modifiers.char, hget]
    simp only [hquirk, halt]
    by_cases ha : w &&& INMETA ≠ 0
    · rw [if_pos ha, if_pos ha, offered_alt, if_neg hne]
      by_cases hc : (held w).table[code.toNat] = 0
      · rw [if_pos ⟨ha, hc⟩, hc]
        rfl
      · rw [if_neg fun h => hc h.2, if_neg hc]
    · rw [if_neg ha, if_neg ha, offered_entry, if_neg fun h : _ ∧ _ => ha h.1]
  · have hget : (held w).table[code.toNat]? = none := List.getElem?_eq_none (Nat.not_lt.1 hlen)
    have hquirk : AltQuirk (held w) code ↔ w &&& INMETA ≠ 0 ∧ ¬w &&& INSHIFT ≠ 0 ∧ ¬w &&& INCTL ≠ 0 := by
      have hshift : (held w).shift = false ↔ ¬w &&& INSHIFT ≠ 0 := decide_eq_false_iff_not
      have hctl : (held w).ctl = false ↔ ¬w &&& INCTL ≠ 0 := decide_eq_false_iff_not
      simp [AltQuirk, hup, hmod, hget, halt, hshift, hctl]
    rw [key_char_missing hlen, Modifiers.char, hget]
    simp only [hquirk]
    split
    · rfl
    · rfl

theorem not_extesc (hup : code &&& KEY_UP = 0) : code ≠ EXTESC := by
  rintro rfl
  exact absurd hup (by decide)

namespace Decoder
variable {m : Modifiers}

theorem read_key_up (hup : code &&& KEY_UP ≠ 0) (hesc : code ≠ EXTESC) :
    read ⟨m, false⟩ code = (⟨m.release (code &&& 0x7f), false⟩, none) := by
  simp only [read, Bool.false_eq_true, if_false, if_neg hesc, if_pos hup]

theorem read_modifier (hup : code &&& KEY_UP = 0) (hmod : IsModifier code) :
    read ⟨m, false⟩ code = (⟨m.press code, false⟩, none) := by
  simp only [read, Bool.false_eq_true, if_false, if_neg (not_extesc hup), if_neg (not_not.2 hup), if_pos hmod]

theorem read_ordinary (hup : code &&& KEY_UP = 0) (hmod : ¬IsModifier code) :
    read ⟨m, false⟩ code = (⟨m, false⟩, m.char code) := by
  simp only [read, Bool.false_eq_true, if_false, if_neg (not_extesc hup), if_neg (not_not.2 hup), if_neg hmod]

end Decoder

theorem kbtoa_key_up (h : w &&& EXTENDED = 0) (hup : code &&& KEY_UP ≠ 0) :
    kbtoa w code = (NOCHAR, key_up w (code &&& 0x7f)) := by
  rw [kbtoa, if_neg (not_not.2 h), if_pos hup]

theorem kbtoa_modifier (h : w &&& EXTENDED = 0) (hup : code &&& KEY_UP = 0) (hmod : IsModifier code) :
    (kbtoa w code).1 = NOCHAR ∧ held (kbtoa w code).2 = (held w).press code := by
  rw [kbtoa, if_neg (not_not.2 h), if_neg (not_not.2 hup), Modifiers.press]
  rcases hmod with rfl | rfl | rfl | rfl | rfl
  · exact ⟨rfl, held_shift_down w⟩
  · exact ⟨rfl, held_shift_down w⟩
  · exact ⟨rfl, rfl⟩
  · exact ⟨rfl, held_ctl_down w⟩
  · exact ⟨rfl, held_alt_down w⟩

theorem kbtoa_ordinary (h : w &&& EXTENDED = 0) (hup : code &&& KEY_UP = 0) (hmod : ¬IsModifier code) :
    kbtoa w code = (key_char w code, w) := by
  have hshift : ¬(code = LSHIFT ∨ code = RSHIFT) := fun hs => hmod (by simp only [IsModifier]; tauto)
  have hcaps : ¬code = CAPSL := fun hs => hmod (by simp [IsModifier, hs])
  have hctl : ¬code = LCTL := fun hs => hmod (by simp [IsModifier, hs])
  have halt : ¬code = LMETA := fun hs => hmod (by simp [IsModifier, hs])
  rw [kbtoa, if_neg (not_not.2 h), if_neg (not_not.2 hup), if_neg hshift, if_neg hcaps, if_neg hctl, if_neg halt,
    if_neg (not_extesc hup)]

/-- The driver, which never gets to the prefix, makes of a byte what it means
without one, but for the characters of Alt. -/
theorem kbtoa_read (h : w &&& EXTENDED = 0) (code : Byte) :
    held (kbtoa w code).2 = (Decoder.read ⟨held w, false⟩ code).1.held ∧
      offered (kbtoa w code).1 = if AltQuirk (held w) code then some 0x80 else (Decoder.read ⟨held w, false⟩ code).2 := by
  by_cases hup : code &&& KEY_UP = 0
  · by_cases hmod : IsModifier code
    · obtain ⟨hch, hheld⟩ := kbtoa_modifier h hup hmod
      rw [Decoder.read_modifier hup hmod, hch, if_neg fun hq : AltQuirk (held w) code => hq.2.2.1 hmod]
      exact ⟨hheld, offered_nochar⟩
    · rw [Decoder.read_ordinary hup hmod, kbtoa_ordinary h hup hmod]
      exact ⟨rfl, offered_key_char w hup hmod⟩
  · rw [kbtoa_key_up h hup, if_neg fun hq : AltQuirk (held w) code => hup hq.2.1]
    by_cases hesc : code = EXTESC
    · subst hesc
      exact ⟨held_key_up w _, offered_nochar⟩
    · rw [Decoder.read_key_up hup hesc]
      exact ⟨held_key_up w _, offered_nochar⟩

theorem kbtoa_extended (h : w &&& EXTENDED = 0) (code : Byte) : (kbtoa w code).2 &&& EXTENDED = 0 := by
  rw [kbtoa, if_neg (not_not.2 h)]
  split
  · exact extended_key_up h _
  split
  · rwa [Flags.set_other w (by decide)]
  split
  · exact h
  split
  · rwa [Flags.set_other w (by decide)]
  split
  · rwa [Flags.set_other w (by decide)]
  split
  · next hup _ _ _ _ hesc =>
    rw [hesc] at hup
    exact absurd hup (by decide)
  · exact h

end

/-! ## A stream of bytes -/

/-- What `kbtoa` makes of the bytes. -/
def kbtoa_scans (state : Word) : List Byte → List Scan
  | [] => []
  | code :: codes =>
    { code := code, char := offered (kbtoa state code).1, held := held (kbtoa state code).2 } ::
      kbtoa_scans (kbtoa state code).2 codes

def kbtoa_state (state : Word) (codes : List Byte) : Word := codes.foldl (fun state code => (kbtoa state code).2) state

theorem kbtoa_state_append (state : Word) (codes codes' : List Byte) :
    kbtoa_state state (codes ++ codes') = kbtoa_state (kbtoa_state state codes) codes' := List.foldl_append

theorem kbtoa_scans_append (state : Word) (codes codes' : List Byte) :
    kbtoa_scans state (codes ++ codes') = kbtoa_scans state codes ++ kbtoa_scans (kbtoa_state state codes) codes' := by
  induction codes generalizing state with
  | nil => rfl
  | cons code codes ih =>
    rw [List.cons_append, kbtoa_scans, kbtoa_scans, ih]
    rfl

/-- The decoder gives no character where Alt makes one. -/
theorem AltQuirk.read {m : Modifiers} {code : Byte} (h : AltQuirk m code) : (Decoder.read ⟨m, false⟩ code).2 = none := by
  obtain ⟨-, hup, hmod, hentry⟩ := h
  rw [Decoder.read_ordinary hup hmod, Modifiers.char]
  rcases hentry with hentry | ⟨hentry, -⟩
  · rw [hentry]
    rfl
  · rw [hentry]

theorem kbtoa_plain_iff {w : Word} (h : w &&& EXTENDED = 0) {d : Decoder} (hd : d.held = held w) (code : Byte) :
    (offered (kbtoa w code).1 = (d.read code).2 ∧ held (kbtoa w code).2 = (d.read code).1.held) ↔ d.Plain code := by
  obtain ⟨hheld, hoff⟩ := kbtoa_read h code
  obtain ⟨m, pre⟩ := d
  obtain rfl : m = held w := hd
  rw [hheld, hoff, Decoder.Plain]
  cases pre with
  | false =>
    by_cases hq : AltQuirk (held w) code
    · rw [if_pos hq, hq.read]
      exact iff_of_false (fun h => by cases h.1) (fun h => h.1 hq)
    · rw [if_neg hq]
      exact iff_of_true ⟨rfl, rfl⟩ ⟨hq, nofun⟩
  | true =>
    have hread : Decoder.read ⟨held w, true⟩ code = (⟨held w, false⟩, none) := rfl
    rw [hread]
    by_cases hq : AltQuirk (held w) code
    · rw [if_pos hq]
      exact iff_of_false (fun h => by cases h.1) (fun h => h.1 hq)
    · rw [if_neg hq]
      exact ⟨fun h => ⟨hq, fun _ => h⟩, fun h => h.2 rfl⟩

/-- The driver's log is the decoder's if and only if every byte is plain. -/
theorem kbtoa_scans_iff {w : Word} (h : w &&& EXTENDED = 0) {d : Decoder} (hd : d.held = held w) (codes : List Byte) :
    kbtoa_scans w codes = d.scans codes ↔ d.PlainStream codes := by
  induction codes generalizing w d with
  | nil => exact iff_of_true rfl trivial
  | cons code codes ih =>
    have hplain := kbtoa_plain_iff h hd code
    rw [kbtoa_scans, Decoder.scans, Decoder.PlainStream, List.cons.injEq, Scan.mk.injEq, ← hplain]
    constructor
    · rintro ⟨⟨-, hch, hm⟩, hrest⟩
      exact ⟨⟨hch, hm⟩, (ih (kbtoa_extended h code) hm.symm).1 hrest⟩
    · rintro ⟨⟨hch, hm⟩, hrest⟩
      exact ⟨⟨rfl, hch, hm⟩, (ih (kbtoa_extended h code) hm.symm).2 hrest⟩

/-! ## Runs -/

/-- An interrupt reads the bytes one by one. -/
theorem fill_scans_eq (kb : Kbd) (codes : List Byte) :
    fill_scans kb codes = kbtoa_scans kb.state ((fill_scans kb codes).map (·.code)) ∧
      (keyboard_fill kb codes).state = kbtoa_state kb.state ((fill_scans kb codes).map (·.code)) := by
  induction codes generalizing kb with
  | nil => exact ⟨rfl, rfl⟩
  | cons code codes ih =>
    unfold fill_scans keyboard_fill
    set ks := kbtoa kb.state code with hks
    simp only []
    split
    · next ha =>
      have hoff : offered ks.1 = some (ks.1.setWidth 8) := if_pos ha
      rcases insert_char_spec { kb with state := ks.2 } (ks.1.setWidth 8) with ⟨kb', hi, -, hstate, -⟩ | hi
      · rw [hi]
        simp only [if_pos, List.map_cons]
        obtain ⟨hscans, hend⟩ := ih kb'
        have hstate : kb'.state = (kbtoa kb.state code).2 := hstate
        rw [kbtoa_scans, ← hks, hoff, hks, ← hstate, ← hscans, hend]
        refine ⟨rfl, ?_⟩
        rw [hstate]
        rfl
      · rw [hi]
        refine ⟨?_, rfl⟩
        rw [← hoff]
        rfl
    · next ha =>
      have hoff : offered ks.1 = none := if_neg ha
      obtain ⟨hscans, hend⟩ := ih { kb with state := ks.2 }
      rw [List.map_cons, kbtoa_scans, ← hks, hoff, ← hscans, hend]
      exact ⟨rfl, rfl⟩

/-- The state of the keyboard after an event. -/
def scan_state (k : Kernel) : DriverEvent → Word
  | .key codes => (keyboard_fill k.kbd codes).state
  | _ => k.kbd.state

/-- Only interrupts change what the driver knows of the keyboard. -/
theorem driverStep_scan {e : DriverEvent} {k k' : Kernel} (hok : DriverOk k e) (ht : driverStep e k = some k') :
    k'.kbd.state = scan_state k e := by
  cases e with
  | dvopen d p =>
    simp only [driverStep] at ht
    split at ht
    · cases ht
      obtain ⟨echo, hd⟩ := dvopen_echo d
      rw [hd, open_with_echo, _keyboard_open]
      cases k.kbd.ps.pcb <;> rfl
    · cases ht
  | dvclose p =>
    simp only [driverStep] at ht
    split at ht
    · cases ht
      rfl
    · cases ht
  | dvioctl p cmd ap =>
    simp only [driverStep] at ht
    split at ht
    · cases ht
      rw [keyboard_ioclt_eq]
      rfl
    · cases ht
  | dvread p buf buf_len =>
    simp only [driverStep] at ht
    split at ht
    · obtain ⟨⟨rc, k1⟩, hr, ht⟩ := Option.map_eq_some_iff.1 ht
      cases ht
      rcases keyboard_read_kbd hr with e | ⟨-, -, t, hfed⟩
      · rw [e]
        rfl
      · exact hfed.state
    · cases ht
  | key codes =>
    obtain ⟨⟨k1, t⟩, hl, ht⟩ := Option.map_eq_some_iff.1 ht
    cases ht
    rcases keyboard_lower_kbd hl with e | ⟨p, k2, t2, -, hfed, e⟩
    · rw [e]
      rfl
    · rw [e]
      exact hfed.state
  | other k1 =>
    cases ht
    rw [hok.kbd]
    rfl

structure ScanInv (s : ScanSys) : Prop where
  scans : s.scans = kbtoa_scans 0 (s.scans.map (·.code))
  state : s.kernel.kbd.state = kbtoa_state 0 (s.scans.map (·.code))

theorem ScanInv.init {s : ScanSys} (h : ScanInit s) : ScanInv s := by
  obtain ⟨⟨hkbd, -⟩, hscans⟩ := h
  refine ⟨?_, ?_⟩
  all_goals rw [hscans]
  · rfl
  · rw [hkbd]
    rfl

theorem ScanInv.step {s s' : ScanSys} {e : DriverEvent} (h : ScanInv s) (hok : ScanOk s e)
    (ht : scanStep e s = some s') : ScanInv s' := by
  obtain ⟨k, hk, ht⟩ := Option.bind_eq_some_iff.1 ht
  have hstate := driverStep_scan hok hk
  cases e with
  | key codes =>
    cases ht
    obtain ⟨hscans, hend⟩ := fill_scans_eq s.kernel.kbd codes
    refine ⟨?_, ?_⟩
    all_goals simp only [List.map_append]
    · rw [kbtoa_scans_append, ← h.scans, ← h.state, ← hscans]
    · rw [kbtoa_state_append, ← h.state, ← hend]
      exact hstate
  | _ =>
    cases ht
    exact ⟨h.scans, hstate.trans h.state⟩

/-! ## Results -/

/-- What the driver offers on each byte and the modifiers it knows of are those
of the decoder exactly on the streams of plain bytes. -/
theorem scan_codes_decoded_iff {s : ScanSys} (hs : Reach scanStep ScanInit ScanOk s) :
    s.scans = Decoder.start.scans (s.scans.map (·.code)) ↔ Decoder.start.PlainStream (s.scans.map (·.code)) := by
  have h : ScanInv s := hs.inv ScanInv (fun _ h => .init h) fun _ _ _ h hok ht => h.step hok ht
  have hdec := kbtoa_scans_iff (w := 0) (by decide) (d := Decoder.start) rfl (s.scans.map (·.code))
  rwa [← h.scans] at hdec

def aloneScans : ScanSys := { kernel := alone, scans := [] }

/-- An `A` with shift down, and an `a`. -/
theorem scan_codes_decoded_iff_2_keys : ∃ s, Reach scanStep ScanInit ScanOk s ∧
    s.scans.filterMap (·.char) = [65, 97] ∧ s.scans = Decoder.start.scans (s.scans.map (·.code)) := by
  have h0 : Reach scanStep ScanInit ScanOk aloneScans := .start ⟨alone_driverInit, rfl⟩
  obtain ⟨s, hs, ht⟩ := h0.exec_ok (fun _ e => e.isCall) (fun _ _ => driverOk_of_isCall)
    [.key [LSHIFT, keyA, LSHIFT ||| KEY_UP], .key [keyA ||| KEY_UP, keyA]]
    (fun s => decide (s.scans.filterMap (·.char) = [65, 97] ∧ Decoder.start.PlainStream (s.scans.map (·.code))))
    (by decide +kernel)
  obtain ⟨hchars, hplain⟩ := of_decide_eq_true ht
  exact ⟨s, hs, hchars, (scan_codes_decoded_iff hs).2 hplain⟩

/-- The second Enter key, on the number pad, gives a newline. -/
theorem keypad_enter : ¬∀ s, Reach scanStep ScanInit ScanOk s → s.scans = Decoder.start.scans (s.scans.map (·.code)) := by
  intro hall
  have h0 : Reach scanStep ScanInit ScanOk aloneScans := .start ⟨alone_driverInit, rfl⟩
  obtain ⟨s, hs, ht⟩ := h0.exec_ok (fun _ e => e.isCall) (fun _ _ => driverOk_of_isCall)
    [.key [EXTESC, keyEnter]] (fun s => decide (s.scans ≠ Decoder.start.scans (s.scans.map (·.code))))
    (by decide +kernel)
  exact of_decide_eq_true ht (hall s hs)

end Xeros
