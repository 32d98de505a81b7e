import Xeros.Printf.Convert
/-!
# The language of formats

What `doprnt` scans is a small language: text, `%%` and directives with a
justification, a fill, a width, a maximum and a conversion. `render` writes an
item down and `denote` says what it prints; the scanner prints what is denoted,
whatever the uninitialized array `string` holds (`format_denotes`).
-/

namespace Xeros

open Numerals

/-! ## Syntax -/

/-- A width or a maximum: a number in the format, or the next argument. -/
inductive Size where
  | lit (n : Nat)
  | arg

inductive Conv where
  | char | string | signed | unsigned | octal | hex | binary

/-- The format characters of a conversion. -/
def Conv.letters : Conv → List Byte
  | .char => [ascii 'c']
  | .string => [ascii 's']
  | .signed => [ascii 'd', ascii 'D']
  | .unsigned => [ascii 'u', ascii 'U']
  | .octal => [ascii 'o', ascii 'O']
  | .hex => [ascii 'x', ascii 'X']
  | .binary => [ascii 'b', ascii 'B']

/-- A directive. A width does not begin with a 0, which would be the fill. -/
structure Directive where
  left : Bool
  zero : Bool
  width : Option Size
  max : Option Size
  long : Bool
  conv : Conv
  letter : Byte
  width_pos : ∀ n, width = some (.lit n) → n ≠ 0
  known : letter ∈ conv.letters

inductive Item where
  | text (c : Byte) (h : c ≠ ascii '%')
  | percent
  | directive (d : Directive)

def Size.render : Size → List Byte
  | .lit n => numeralBytes 10 n
  | .arg => [ascii '*']

namespace Directive
variable (d : Directive)

/-- What stands behind the maximum. -/
def renderEnd : List Byte := (if d.long then [ascii 'l'] else []) ++ [d.letter]

def renderMax : List Byte :=
  match d.max with
  | none => []
  | some s => ascii '.' :: s.render

def renderWidth : List Byte :=
  match d.width with
  | none => []
  | some s => s.render

def render : List Byte :=
  ascii '%' :: ((if d.left then [ascii '-'] else []) ++ ((if d.zero then [ascii '0'] else []) ++
    (d.renderWidth ++ (d.renderMax ++ d.renderEnd))))

end Directive

def Item.render : Item → List Byte
  | .text c _ => [c]
  | .percent => [ascii '%', ascii '%']
  | .directive d => d.render

def renderAll (items : List Item) : List Byte := items.flatMap Item.render

/-! ## Meaning -/

/-- The value of a width or maximum, and the arguments behind it. -/
def sizeOf : Option Size → List Word → Option (Word × List Word)
  | none, args => some (0, args)
  | some (.lit n), args => some (BitVec.ofNat 32 n, args)
  | some .arg, a :: args => some (a, args)
  | some .arg, [] => none

/-- Whether there is a minus sign, and what is printed behind it. -/
def Conv.body (m : Mem) (a : Word) : Conv → Option (Bool × List Byte)
  | .char => some (false, if a.setWidth 8 = 0 then [] else [a.setWidth 8])
  | .string => (cstring m STR_FUEL a).map fun s => (false, s)
  | .signed => some (decide (a.toInt < 0), numeralBytes 10 a.toInt.natAbs)
  | .unsigned => some (false, numeralBytes 10 a.toNat)
  | .octal => some (false, numeralBytes 8 a.toNat)
  | .hex => some (false, numeralBytes 16 a.toNat)
  | .binary => if a.toNat < 2 ^ 19 then some (false, numeralBytes 2 a.toNat) else none

/-- Only numbers are filled with zeros. -/
def Conv.fill (zero : Bool) : Conv → Byte
  | .char | .string => ascii ' '
  | _ => if zero then ascii '0' else ascii ' '

/-- A maximum other than 0 cuts strings. -/
def Conv.cut (max : Word) (text : List Byte) : Conv → List Byte
  | .string => if max = 0 then text else text.take max.toNat
  | _ => text

/-- `text` with its sign in a field of `width` bytes. A fill of zeros goes
between the sign and the text, but on the left it goes behind both. -/
def layout (left : Bool) (fill : Byte) (width : Nat) (sign : Bool) (text : List Byte) : List Byte :=
  let minus := if sign then [ascii '-'] else []
  let pad := List.replicate (width - (text.length + minus.length)) fill
  if left then minus ++ text ++ pad
  else if fill = ascii '0' then minus ++ pad ++ text
  else pad ++ minus ++ text

/-- What a directive prints, and the arguments behind its own. -/
def Directive.denote (m : Mem) (d : Directive) (args : List Word) : Option (List Byte × List Word) := do
  let (width, args) ← sizeOf d.width args
  let (max, args) ← sizeOf d.max args
  let a ← args.head?
  let (sign, text) ← d.conv.body m a
  some (layout d.left (d.conv.fill d.zero) (clip width).toNat sign (d.conv.cut (clip max) text), args.drop 1)

def denote (m : Mem) : List Item → List Word → Option (List Byte)
  | [], _ => some []
  | .text c _ :: items, args => do
    let out ← denote m items args
    some (c :: out)
  | .percent :: items, args => do
    let out ← denote m items args
    some (ascii '%' :: out)
  | .directive d :: items, args => do
    let (text, args) ← d.denote m args
    let out ← denote m items args
    some (text ++ out)

/-! ## Scanning -/

section scan
variable {c d : Byte} {fmt rest : List Byte} {args : List Word}

@[simp] theorem scan_flag_same (c : Byte) (fmt : List Byte) : scan_flag c (c :: fmt) = (true, fmt) := by
  rw [scan_flag, if_pos rfl]

theorem scan_flag_ne (h : d ≠ c) (fmt : List Byte) : scan_flag c (d :: fmt) = (false, d :: fmt) := by
  rw [scan_flag, if_neg h]

/-- The format goes on with one of the bytes `cs`. -/
def Begins (cs fmt : List Byte) : Prop := ∃ c rest, fmt = c :: rest ∧ c ∈ cs

theorem Begins.cons {cs : List Byte} (h : c ∈ cs) (rest : List Byte) : Begins cs (c :: rest) := ⟨c, rest, rfl, h⟩

theorem Begins.mono {cs cs' : List Byte} (h : Begins cs fmt) (hsub : cs ⊆ cs') : Begins cs' fmt := by
  obtain ⟨c, rest, e, hc⟩ := h
  exact ⟨c, rest, e, hsub hc⟩

theorem scan_flag_begins {cs : List Byte} (h : Begins cs fmt) (hc : c ∉ cs) : scan_flag c fmt = (false, fmt) := by
  obtain ⟨d, rest, rfl, hd⟩ := h
  apply scan_flag_ne
  rintro rfl
  exact hc hd

/-- A flag that may be there, in front of what cannot be taken for it. -/
theorem scan_flag_option {cs : List Byte} (b : Bool) (h : Begins cs fmt) (hc : c ∉ cs) :
    scan_flag c ((if b then [c] else []) ++ fmt) = (b, fmt) := by
  cases b with
  | true => exact scan_flag_same c fmt
  | false => exact scan_flag_begins h hc

def digitBytes : List Byte := (List.range 10).map digitByte

theorem isDigit_iff (c : Byte) : ascii '0' ≤ c ∧ c ≤ ascii '9' ↔ c ∈ digitBytes := by
  revert c
  decide

theorem scan_number_begins {cs : List Byte} (h : Begins cs rest) (hcs : ∀ c ∈ cs, c ∉ digitBytes) (n : Word) :
    scan_number rest n = (n, rest) := by
  obtain ⟨c, rest, rfl, hc⟩ := h
  rw [scan_number, if_neg fun hd => hcs c hc ((isDigit_iff c).1 hd)]

/-- The digits of a format are read as their number, modulo 2^32. -/
theorem scan_number_digits {ds : List Nat} {v : Nat} (hds : ∀ d ∈ ds, d < 10)
    (hrest : ∀ n, scan_number rest n = (n, rest)) :
    scan_number (ds.map digitByte ++ rest) (BitVec.ofNat 32 v) = (BitVec.ofNat 32 (value 10 v ds), rest) := by
  induction ds generalizing v with
  | nil => exact hrest _
  | cons d ds ih =>
    have hd := hds d List.mem_cons_self
    have hdigit : digitByte d ∈ digitBytes := List.mem_map_of_mem (List.mem_range.2 hd)
    have hval : BitVec.ofNat 32 v * 10 + (digitByte d).setWidth 32 - 48 = BitVec.ofNat 32 (v * 10 + d) := by
      have hbyte : (digitByte d).setWidth 32 = BitVec.ofNat 32 d + 48 := by
        rw [digitByte_ten hd]
        apply BitVec.eq_of_toNat_eq
        have h48 : (48 : Word).toNat = 48 := rfl
        rw [BitVec.toNat_setWidth, BitVec.toNat_add, h48, BitVec.toNat_ofNat, BitVec.toNat_ofNat]
        omega
      have hten : (10 : Word) = BitVec.ofNat 32 10 := rfl
      rw [hbyte, ← BitVec.add_assoc, BitVec.add_sub_cancel, BitVec.ofNat_add, BitVec.ofNat_mul, hten]
    rw [List.map_cons, List.cons_append, scan_number, if_pos ((isDigit_iff _).2 hdigit), hval,
      ih fun x hx => hds x (List.mem_cons_of_mem _ hx)]
    rfl

theorem numeralBytes_begins (n : Nat) (rest : List Byte) :
    ∃ d ds, numeralBytes 10 n ++ rest = digitByte d :: ds ∧ d < 10 ∧ (n ≠ 0 → d ≠ 0) := by
  cases hd : numeral 10 n with
  | nil => exact absurd hd (numeral_ne_nil 10 n)
  | cons d ds =>
    refine ⟨d, ds.map digitByte ++ rest, ?_, ?_, ?_⟩
    · rw [numeralBytes, hd]
      rfl
    · exact digit_lt (n := n) (by omega) (hd ▸ List.mem_cons_self)
    · intro hn
      exact head_ne_zero hn (b := 10) (by rw [hd]; rfl)

/-- A width or a maximum that may be there. -/
theorem scan_size_option {cs : List Byte} (s : Option Size) (h : Begins cs rest) (hstar : ascii '*' ∉ cs)
    (hcs : ∀ c ∈ cs, c ∉ digitBytes) :
    scan_size (s.elim [] Size.render ++ rest) args = (sizeOf s args).map fun x => (x.1, rest, x.2) := by
  have hrest : ∀ n, scan_number rest n = (n, rest) := scan_number_begins h hcs
  cases s with
  | none =>
    rw [Option.elim_none, List.nil_append]
    unfold scan_size
    rw [scan_flag_begins h hstar, if_neg (by simp), hrest]
    rfl
  | some s =>
    cases s with
    | arg =>
      have hflag : scan_flag (ascii '*') (ascii '*' :: rest) = (true, rest) := scan_flag_same ..
      change scan_size (ascii '*' :: rest) args = _
      unfold scan_size
      rw [hflag, if_pos rfl]
      cases args with
      | nil => rfl
      | cons a args => rfl
    | lit n =>
      have hflag : scan_flag (ascii '*') (numeralBytes 10 n ++ rest) = (false, numeralBytes 10 n ++ rest) := by
        obtain ⟨d, ds, e, hd, -⟩ := numeralBytes_begins n rest
        have hne : ∀ d < 10, digitByte d ≠ ascii '*' := by decide
        rw [e]
        exact scan_flag_ne (hne d hd) ds
      have hnum : scan_number (numeralBytes 10 n ++ rest) 0 = (BitVec.ofNat 32 n, rest) := by
        have e : scan_number ((numeral 10 n).map digitByte ++ rest) (BitVec.ofNat 32 0) =
            (BitVec.ofNat 32 (value 10 0 (numeral 10 n)), rest) :=
          scan_number_digits (fun d => digit_lt (by omega)) hrest
        rw [value_numeral] at e
        exact e
      change scan_size (numeralBytes 10 n ++ rest) args = _
      unfold scan_size
      rw [hflag, if_neg (by simp), hnum]
      rfl

end scan

/-! ## A directive -/

def allLetters : List Byte :=
  [ascii 'c', ascii 's', ascii 'd', ascii 'D', ascii 'u', ascii 'U', ascii 'o', ascii 'O', ascii 'x', ascii 'X',
    ascii 'b', ascii 'B']

theorem letters_subset (c : Conv) : c.letters ⊆ allLetters := by
  cases c <;> decide

namespace Directive
variable (d : Directive) (rest : List Byte)

def behindWidth : List Byte := ascii '.' :: ascii 'l' :: allLetters

def behindZero : List Byte := ascii '*' :: (digitBytes.drop 1 ++ behindWidth)

theorem begins_letter : Begins allLetters (d.letter :: rest) := .cons (letters_subset d.conv d.known) rest

theorem begins_end : Begins (ascii 'l' :: allLetters) (d.renderEnd ++ rest) := by
  unfold renderEnd
  cases d.long with
  | true => exact .cons List.mem_cons_self _
  | false => exact (d.begins_letter rest).mono (List.subset_cons_self ..)

theorem begins_max : Begins behindWidth (d.renderMax ++ (d.renderEnd ++ rest)) := by
  unfold renderMax
  split
  · exact (d.begins_end rest).mono (List.subset_cons_self ..)
  · exact .cons List.mem_cons_self _

theorem begins_width : Begins behindZero (d.renderWidth ++ (d.renderMax ++ (d.renderEnd ++ rest))) := by
  unfold renderWidth
  split
  · exact (d.begins_max rest).mono fun c hc => List.mem_cons_of_mem _ (List.mem_append_right _ hc)
  · next s hs =>
    cases s with
    | arg => exact .cons List.mem_cons_self _
    | lit n =>
      obtain ⟨i, ds, e, hi, hne⟩ := numeralBytes_begins n (d.renderMax ++ (d.renderEnd ++ rest))
      have hmem : ∀ i < 10, i ≠ 0 → digitByte i ∈ digitBytes.drop 1 := by decide
      refine ⟨digitByte i, ds, e, List.mem_cons_of_mem _ (List.mem_append_left _ ?_)⟩
      exact hmem i hi (hne (d.width_pos n hs))

theorem begins_zero : Begins (ascii '0' :: behindZero)
    ((if d.zero then [ascii '0'] else []) ++ (d.renderWidth ++ (d.renderMax ++ (d.renderEnd ++ rest)))) := by
  cases d.zero with
  | true => exact .cons List.mem_cons_self _
  | false => exact (d.begins_width rest).mono (List.subset_cons_self ..)

/-- What stands behind the `%` is scanned as it was rendered. -/
theorem scan (args : List Word) : scan_field ((if d.left then [ascii '-'] else []) ++
    ((if d.zero then [ascii '0'] else []) ++ (d.renderWidth ++ (d.renderMax ++ (d.renderEnd ++ rest))))) args = (do
      let (width, args) ← sizeOf d.width args
      let (max, args) ← sizeOf d.max args
      some (({ leftjust := d.left, fill := if d.zero then ascii '0' else ascii ' ', fmin := width, fmax := max } : Field),
        d.letter :: rest, args)) := by
  have hwidth : d.renderWidth = d.width.elim [] Size.render := by
    unfold renderWidth
    cases d.width <;> rfl
  unfold scan_field
  rw [scan_flag_option d.left (d.begins_zero rest) (by decide)]
  simp only []
  rw [scan_flag_option d.zero (d.begins_width rest) (by decide)]
  simp only []
  rw [hwidth, scan_size_option d.width (d.begins_max rest) (by decide) (by decide)]
  cases sizeOf d.width args with
  | none => rfl
  | some x =>
    obtain ⟨width, args⟩ := x
    simp only [Option.map_some, Option.bind_eq_bind, Option.bind_some]
    have hlong : scan_flag (ascii 'l') (d.renderEnd ++ rest) = (d.long, d.letter :: rest) := by
      unfold renderEnd
      rw [List.append_assoc]
      exact scan_flag_option d.long (d.begins_letter rest) (by decide)
    cases hmax : d.max with
    | none =>
      have hdot : scan_flag (ascii '.') (d.renderMax ++ (d.renderEnd ++ rest)) = (false, d.renderEnd ++ rest) := by
        unfold renderMax
        rw [hmax]
        exact scan_flag_begins (d.begins_end rest) (by decide)
      rw [hdot]
      simp only [Bool.false_eq_true, if_false, hlong]
      rfl
    | some s =>
      have hdot : scan_flag (ascii '.') (d.renderMax ++ (d.renderEnd ++ rest)) =
          (true, (some s).elim [] Size.render ++ (d.renderEnd ++ rest)) := by
        unfold renderMax
        rw [hmax]
        exact scan_flag_same ..
      rw [hdot]
      simp only [if_true]
      rw [scan_size_option (some s) (d.begins_end rest) (by decide) (by decide)]
      cases sizeOf (some s) args with
      | none => rfl
      | some x => simp only [Option.map_some, Option.bind_some, hlong]

end Directive

/-! ## A conversion -/

section convert
variable {m : Mem} {string : List Byte} {fld : Field} {a : Word} {args : List Word} {f : Byte}

theorem zero_not_mem_numeralBytes {b n : Nat} (hb : 1 < b) (hb' : b ≤ 16) : 0 ∉ numeralBytes b n := by
  intro h
  obtain ⟨d, hd, e⟩ := List.mem_map.1 h
  have hne : ∀ d < 16, digitByte d ≠ 0 := by decide
  exact hne d (Nat.lt_of_lt_of_le (digit_lt hb hd) hb') e

/-- What has been put into `string` is read back. -/
theorem read_put {digits string' : List Byte} (h : put_string string digits = some string') (h0 : 0 ∉ digits) :
    read_string string' = some digits := by
  unfold put_string at h
  split at h
  · cases h
    have htake : (digits ++ 0 :: string.drop (digits.length + 1)).takeWhile (fun c => c ≠ 0) = digits := by
      rw [List.takeWhile_append_of_pos]
      · simp
      · intro c hc
        simpa using ne_of_mem_of_not_mem hc h0
    rw [read_string, if_pos (by simp), htake]
  · cases h

/-- A number is converted when its digits fit. -/
theorem number_digits (string : List Byte) (fld : Field) {b n : Nat} (hb : 1 < b) (hb' : b ≤ 16) (sign : Bool)
    (hn : n < b ^ 19) :
    ∃ string', number string fld sign (numeralBytes b n) = some {
      echo := [], string := string', str := numeralBytes b n
      sign := sign, fill := fld.fill, fmax := 0 } := by
  have hput : put_string string (numeralBytes b n) =
      some (numeralBytes b n ++ 0 :: string.drop ((numeralBytes b n).length + 1)) := if_pos ((fits_iff hb).2 hn)
  refine ⟨numeralBytes b n ++ 0 :: string.drop ((numeralBytes b n).length + 1), ?_⟩
  unfold number
  rw [hput, Option.bind_eq_bind, Option.bind_some, read_put hput (zero_not_mem_numeralBytes hb hb')]
  rfl

theorem number_overruns {n : Nat} (sign : Bool) (hn : ¬n < 2 ^ 19) : number string fld sign (numeralBytes 2 n) = none := by
  have hput : put_string string (numeralBytes 2 n) = none := if_neg (mt (fits_iff (by omega)).1 hn)
  unfold number
  rw [hput]
  rfl

/-- The fill and the maximum that a conversion leaves. -/
def Conv.fillOf (fill : Byte) : Conv → Byte
  | .char | .string => ascii ' '
  | _ => fill

def Conv.maxOf (max : Word) : Conv → Word
  | .string => max
  | _ => 0

theorem convert_signed (hf : f ∈ Conv.signed.letters) : convert m string (a :: args) fld f = (do
    let digits ← unsigned (if a.toInt < 0 then -a else a)
    number string fld (decide (a.toInt < 0)) digits) := by
  rcases List.mem_pair.1 hf with rfl | rfl
  · rw [convert, if_neg (by decide), if_neg (by decide), if_pos (by decide)]
    rfl
  · rw [convert, if_neg (by decide), if_neg (by decide), if_pos (by decide)]
    rfl

theorem convert_unsigned (hf : f ∈ Conv.unsigned.letters) : convert m string (a :: args) fld f = (do
    let digits ← unsigned a
    number string fld false digits) := by
  rcases List.mem_pair.1 hf with rfl | rfl
  · rw [convert, if_neg (by decide), if_neg (by decide), if_neg (by decide), if_pos (by decide)]
    rfl
  · rw [convert, if_neg (by decide), if_neg (by decide), if_neg (by decide), if_pos (by decide)]
    rfl

theorem convert_octal (hf : f ∈ Conv.octal.letters) :
    convert m string (a :: args) fld f = number string fld false (prtl8 a) := by
  rcases List.mem_pair.1 hf with rfl | rfl
  · rw [convert, if_neg (by decide), if_neg (by decide), if_neg (by decide), if_neg (by decide), if_pos (by decide)]
    rfl
  · rw [convert, if_neg (by decide), if_neg (by decide), if_neg (by decide), if_neg (by decide), if_pos (by decide)]
    rfl

theorem convert_hex (hf : f ∈ Conv.hex.letters) :
    convert m string (a :: args) fld f = number string fld false (prtl16 a) := by
  rcases List.mem_pair.1 hf with rfl | rfl
  · rw [convert, if_neg (by decide), if_neg (by decide), if_neg (by decide), if_neg (by decide), if_neg (by decide),
      if_pos (by decide)]
    rfl
  · rw [convert, if_neg (by decide), if_neg (by decide), if_neg (by decide), if_neg (by decide), if_neg (by decide),
      if_pos (by decide)]
    rfl

theorem convert_binary (hf : f ∈ Conv.binary.letters) :
    convert m string (a :: args) fld f = number string fld false (prtl2 a) := by
  rcases List.mem_pair.1 hf with rfl | rfl
  · rw [convert, if_neg (by decide), if_neg (by decide), if_neg (by decide), if_neg (by decide), if_neg (by decide),
      if_neg (by decide), if_pos (by decide)]
    rfl
  · rw [convert, if_neg (by decide), if_neg (by decide), if_neg (by decide), if_neg (by decide), if_neg (by decide),
      if_neg (by decide), if_pos (by decide)]
    rfl

/-- The negative of the least word is its absolute value. -/
theorem toNat_abs (a : Word) : (if a.toInt < 0 then -a else a).toNat = a.toInt.natAbs := by
  rw [BitVec.toInt_eq_toNat_cond]
  have hlt := a.isLt
  split
  · split
    · omega
    · rfl
  · split
    · rw [BitVec.toNat_neg]
      omega
    · omega

/-- A byte that is put into `string` is a string, an empty one if it is 0. -/
theorem read_char (c : Byte) (string : List Byte) :
    read_string (c :: 0 :: string) = some (if c = 0 then [] else [c]) := by
  unfold read_string
  rw [if_pos (by simp)]
  by_cases h0 : c = 0
  · rw [if_pos h0, h0]
    rfl
  · rw [if_neg h0, List.takeWhile_cons_of_pos (by simpa using h0)]
    rfl

theorem convert_known (m : Mem) (string : List Byte) (a : Word) (args : List Word) (fld : Field) {c : Conv}
    (hf : f ∈ c.letters) : ∃ string', convert m string (a :: args) fld f =
    (c.body m a).map fun x => {
      echo := [], string := string', str := x.2, sign := x.1
      fill := c.fillOf fld.fill, fmax := c.maxOf fld.fmax } := by
  have hword : ∀ b, 8 ≤ b → b ≤ 16 → a.toNat < b ^ 19 := by
    intro b h1 h2
    calc a.toNat < 2 ^ 32 := a.isLt
      _ ≤ 8 ^ 19 := by decide
      _ ≤ b ^ 19 := Nat.pow_le_pow_left h1 19
  cases c with
  | char =>
    obtain rfl := List.mem_singleton.1 hf
    refine ⟨a.setWidth 8 :: 0 :: string.drop 2, ?_⟩
    rw [convert, if_pos rfl, List.head?_cons, Option.bind_eq_bind, Option.bind_some]
    simp only []
    rw [read_char]
    rfl
  | string =>
    obtain rfl := List.mem_singleton.1 hf
    refine ⟨string, ?_⟩
    rw [convert, if_neg (by decide), if_pos rfl, List.head?_cons, Option.bind_eq_bind, Option.bind_some]
    unfold Conv.body
    cases cstring m STR_FUEL a with
    | none => rfl
    | some s => rfl
  | signed =>
    have hfits : a.toInt.natAbs < 10 ^ 19 := by
      rw [← toNat_abs]
      exact Nat.lt_trans (BitVec.isLt _) (by decide)
    obtain ⟨string', h⟩ := number_digits string fld (by omega) (by omega) (decide (a.toInt < 0)) hfits
    refine ⟨string', ?_⟩
    rw [convert_signed hf, unsigned_numeral, toNat_abs, Option.bind_eq_bind, Option.bind_some, h]
    rfl
  | unsigned =>
    obtain ⟨string', h⟩ := number_digits string fld (by omega) (by omega) false
      (hword 10 (by omega) (by omega))
    refine ⟨string', ?_⟩
    rw [convert_unsigned hf, unsigned_numeral, Option.bind_eq_bind, Option.bind_some, h]
    rfl
  | octal =>
    obtain ⟨string', h⟩ := number_digits string fld (by omega) (by omega) false
      (hword 8 (by omega) (by omega))
    refine ⟨string', ?_⟩
    rw [convert_octal hf, prtl8_numeral, h]
    rfl
  | hex =>
    obtain ⟨string', h⟩ := number_digits string fld (by omega) (by omega) false
      (hword 16 (by omega) (by omega))
    refine ⟨string', ?_⟩
    rw [convert_hex hf, prtl16_numeral, h]
    rfl
  | binary =>
    rw [convert_binary hf, prtl2_numeral]
    unfold Conv.body
    by_cases hlt : a.toNat < 2 ^ 19
    · obtain ⟨string', h⟩ := number_digits string fld (by omega) (by omega) false hlt
      refine ⟨string', ?_⟩
      rw [h, if_pos hlt]
      rfl
    · refine ⟨string, ?_⟩
      rw [number_overruns false hlt, if_neg hlt]
      rfl

/-- Every known conversion takes an argument. -/
theorem convert_nil (hf : f ∈ allLetters) : convert m string [] fld f = none := by
  unfold convert
  split
  · rfl
  split
  · rfl
  split
  · rfl
  split
  · rfl
  split
  · rfl
  split
  · rfl
  split
  · rfl
  · simp only [allLetters, List.mem_cons, List.not_mem_nil, or_false] at hf
    tauto

end convert

/-! ## A field -/

/-- What follows the `switch` lays the text out in its field. -/
theorem put_field_layout (left : Bool) (fmin : Word) (c : Converted) (hfill : c.fill = ascii '0' ∨ c.fill = ascii ' ') :
    put_field left fmin c = layout left c.fill (clip fmin).toNat c.sign
      (if clip c.fmax = 0 then c.str else c.str.take (clip c.fmax).toNat) := by
  unfold put_field
  simp only []
  set text := if clip c.fmax = 0 then c.str else c.str.take (clip c.fmax).toNat with htext
  set length := if clip c.fmax ≠ 0 ∧ (clip c.fmax).toNat < c.str.length then (clip c.fmax).toNat else c.str.length
    with hlength
  have htake : c.str.take length = text := by
    rw [htext, hlength]
    by_cases h0 : clip c.fmax = 0
    · rw [if_neg (fun h => h.1 h0), if_pos h0, List.take_length]
    · rw [if_neg h0]
      split
      · rfl
      · next h =>
        have hle : c.str.length ≤ (clip c.fmax).toNat := Nat.le_of_not_lt fun hlt => h ⟨h0, hlt⟩
        rw [List.take_length, List.take_of_length_le hle]
  have hlen : text.length = length := by
    rw [← htake, List.length_take, hlength]
    split
    · next h => exact Nat.min_eq_left (Nat.le_of_lt h.2)
    · exact Nat.min_self _
  have hpad : (if clip c.fmax ≠ 0 ∨ clip fmin ≠ 0 then
      (if clip fmin ≠ 0 then ((clip fmin).toNat : Int) - length else 0) - (if c.sign then 1 else 0) else 0).toNat =
      (clip fmin).toNat - (text.length + (if c.sign then [ascii '-'] else []).length) := by
    have hsign : (if c.sign then [ascii '-'] else []).length = if c.sign then 1 else 0 := by
      cases c.sign <;> rfl
    rw [hlen, hsign]
    by_cases h0 : clip fmin = 0
    · have hz : (clip fmin).toNat = 0 := by rw [h0]; rfl
      have hno : ¬clip fmin ≠ 0 := fun h => h h0
      rw [hz, Nat.zero_sub, if_neg hno]
      split
      · split
        · rfl
        · rfl
      · rfl
    · rw [if_pos (.inr h0), if_pos h0]
      split
      · omega
      · omega
  rw [htake, hpad]
  unfold layout
  simp only []
  generalize List.replicate _ c.fill = pad
  rcases hfill with h | h
  · rw [h]
    cases left <;> cases c.sign <;> simp [show ascii '0' ≠ ascii ' ' by decide]
  · rw [h]
    cases left <;> cases c.sign <;> simp [show ascii ' ' ≠ ascii '0' by decide]

/-! ## Results -/

/-- One turn of the loop prints a directive. -/
theorem doprnt_directive (m : Mem) (d : Directive) (rest : List Byte) (args : List Word) (string : List Byte) (fuel : Nat) :
    (d.denote m args = none ∧ doprnt m (fuel + 1) (d.render ++ rest) args string = none) ∨
    ∃ text args' string', d.denote m args = some (text, args') ∧
      doprnt m (fuel + 1) (d.render ++ rest) args string = (doprnt m fuel rest args' string').map fun out => text ++ out := by
  have hpercent : scan_flag (ascii '%') ((if d.left then [ascii '-'] else []) ++
      ((if d.zero then [ascii '0'] else []) ++ (d.renderWidth ++ (d.renderMax ++ (d.renderEnd ++ rest))))) =
      (false, (if d.left then [ascii '-'] else []) ++
        ((if d.zero then [ascii '0'] else []) ++ (d.renderWidth ++ (d.renderMax ++ (d.renderEnd ++ rest))))) := by
    cases d.left with
    | true => exact scan_flag_ne (by decide) _
    | false => exact scan_flag_begins (d.begins_zero rest) (by decide)
  have hrender : d.render ++ rest = ascii '%' :: ((if d.left then [ascii '-'] else []) ++
      ((if d.zero then [ascii '0'] else []) ++ (d.renderWidth ++ (d.renderMax ++ (d.renderEnd ++ rest))))) := by
    simp only [Directive.render, List.cons_append, List.append_assoc]
  rw [hrender, doprnt]
  unfold Directive.denote
  simp only [if_neg (show ¬ascii '%' ≠ ascii '%' from fun h => h rfl)]
  rw [hpercent]
  simp only [Bool.false_eq_true, if_false]
  rw [d.scan rest args]
  cases sizeOf d.width args with
  | none => exact .inl ⟨rfl, rfl⟩
  | some x =>
    obtain ⟨width, args1⟩ := x
    simp only [Option.bind_eq_bind, Option.bind_some]
    cases sizeOf d.max args1 with
    | none => exact .inl ⟨rfl, rfl⟩
    | some y =>
      obtain ⟨max, args2⟩ := y
      simp only [Option.bind_some]
      cases args2 with
      | nil =>
        rw [convert_nil (letters_subset _ d.known)]
        exact .inl ⟨rfl, rfl⟩
      | cons a args3 =>
        obtain ⟨string', hconv⟩ := convert_known m string a args3
          ⟨d.left, if d.zero then ascii '0' else ascii ' ', width, max⟩ d.known
        rw [hconv]
        cases hbody : d.conv.body m a with
        | none => exact .inl ⟨by simp [hbody], rfl⟩
        | some z =>
          obtain ⟨sign, text⟩ := z
          have hfill : d.conv.fillOf (if d.zero then ascii '0' else ascii ' ') = d.conv.fill d.zero := by
            cases d.conv <;> rfl
          have hfill' : d.conv.fill d.zero = ascii '0' ∨ d.conv.fill d.zero = ascii ' ' := by
            cases d.conv <;> cases d.zero <;> decide
          have hcut : (if clip (d.conv.maxOf max) = 0 then text else text.take (clip (d.conv.maxOf max)).toNat) =
              d.conv.cut (clip max) text := by
            cases d.conv <;> rfl
          refine .inr ⟨layout d.left (d.conv.fill d.zero) (clip width).toNat sign (d.conv.cut (clip max) text), args3,
            string', ?_, ?_⟩
          · simp only [List.head?_cons, Option.bind_some, hbody, List.drop_succ_cons, List.drop_zero]
          · simp only [Option.map_some, Option.bind_some, List.nil_append, List.drop_succ_cons, List.drop_zero]
            rw [put_field_layout _ _ _ (hfill ▸ hfill'), hfill, hcut]
            cases doprnt m fuel rest args3 string' <;> rfl

theorem doprnt_renderAll (m : Mem) (items : List Item) {fuel : Nat} (hfuel : (renderAll items).length < fuel)
    (args : List Word) (string : List Byte) : doprnt m fuel (renderAll items) args string = denote m items args := by
  induction items generalizing fuel args string with
  | nil =>
    obtain ⟨fuel, rfl⟩ : ∃ n, fuel = n + 1 := ⟨fuel - 1, by omega⟩
    rfl
  | cons i items ih =>
    obtain ⟨fuel, rfl⟩ : ∃ n, fuel = n + 1 := ⟨fuel - 1, by omega⟩
    have hcons : renderAll (i :: items) = i.render ++ renderAll items := rfl
    rw [hcons, List.length_append] at hfuel
    rw [hcons]
    cases i with
    | text c hc =>
      have hf : (renderAll items).length < fuel := by
        simp only [Item.render, List.length_singleton] at hfuel
        omega
      change doprnt m (fuel + 1) (c :: renderAll items) args string = _
      rw [doprnt, if_pos hc, ih hf]
      rfl
    | percent =>
      have hf : (renderAll items).length < fuel := by
        simp only [Item.render, List.length_cons, List.length_nil] at hfuel
        omega
      change doprnt m (fuel + 1) (ascii '%' :: ascii '%' :: renderAll items) args string = _
      rw [doprnt, if_neg (by simp), scan_flag_same, if_pos rfl, ih hf]
      rfl
    | directive d =>
      have hf : (renderAll items).length < fuel := by
        simp only [Item.render, Directive.render, List.length_cons] at hfuel
        omega
      change doprnt m (fuel + 1) (d.render ++ renderAll items) args string = _
      unfold denote
      rcases doprnt_directive m d (renderAll items) args string fuel with ⟨hd, h⟩ | ⟨text, args', string', hd, h⟩
      · rw [h, hd]
        rfl
      · rw [h, hd, ih hf]
        cases hrest : denote m items args' <;> simp [hrest]

/-- What a format of text and known directives prints is what it denotes,
whatever was in the array `string`: it fails exactly when arguments are missing,
a string does not end, or a binary conversion overruns the array. -/
theorem format_denotes (m : Mem) (items : List Item) (args : List Word) (string : List Byte) :
    format m (renderAll items) args string = denote m items args :=
  doprnt_renderAll m items (Nat.lt_succ_self _) args string

end Xeros
