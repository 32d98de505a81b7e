import Xeros.Printf.Format
/-!
# `sprintf` and `atoi`

A decimal directive writes a bounded number of bytes whatever its width says,
and `atoi` reads the number back from them (`sprintf_atoi`): the blanks in front
of it are skipped, zeros may stand between the sign and the digits, and blanks
behind it end the number. Only `%-0` loses it, by zeros behind the digits.
-/

namespace Xeros

open Numerals

/-! ## Reading -/

theorem atoi_sign_blanks (k : Nat) (p : List Byte) : atoi_sign (List.replicate k (ascii ' ') ++ p) = atoi_sign p := by
  induction k with
  | zero => rfl
  | succ k ih =>
    rw [List.replicate_succ, List.cons_append, atoi_sign, if_pos (.inl rfl)]
    exact ih

theorem atoi_sign_digit {d : Nat} (hd : d < 10) (p : List Byte) :
    atoi_sign (digitByte d :: p) = (false, digitByte d :: p) := by
  have hne : ∀ d < 10, digitByte d ≠ ascii ' ' ∧ digitByte d ≠ 0x09 ∧ digitByte d ≠ ascii '-' ∧ digitByte d ≠ ascii '+' := by
    decide
  obtain ⟨hblank, htab, hminus, hplus⟩ := hne d hd
  have hspace : ¬(digitByte d = ascii ' ' ∨ digitByte d = 0x09) := fun h => h.elim hblank htab
  rw [atoi_sign, if_neg hspace, if_neg hminus, if_neg hplus]

theorem scan_number_blanks (l : Nat) (n : Word) :
    scan_number (List.replicate l (ascii ' ')) n = (n, List.replicate l (ascii ' ')) := by
  cases l with
  | zero => rfl
  | succ l =>
    have hblank : ∀ c ∈ [ascii ' '], c ∉ digitBytes := by decide
    exact scan_number_begins (.cons List.mem_cons_self _) hblank n

theorem zeros_digits (j n : Nat) :
    List.replicate j (ascii '0') ++ numeralBytes 10 n = (List.replicate j 0 ++ numeral 10 n).map digitByte := by
  rw [List.map_append, List.map_replicate]
  rfl

theorem scan_number_numeral (j n l : Nat) :
    scan_number (List.replicate j (ascii '0') ++ numeralBytes 10 n ++ List.replicate l (ascii ' ')) 0 =
      (BitVec.ofNat 32 n, List.replicate l (ascii ' ')) := by
  have hlt : ∀ d ∈ List.replicate j 0 ++ numeral 10 n, d < 10 := by
    intro d hd
    rcases List.mem_append.1 hd with h | h
    · rw [List.eq_of_mem_replicate h]
      decide
    · exact digit_lt (by omega) h
  have h := scan_number_digits (v := 0) hlt (scan_number_blanks l)
  rw [value_append, value_zeros, value_numeral] at h
  rw [zeros_digits]
  exact h

/-- `atoi` reads a number in blanks, with its sign in front of zeros. -/
theorem atoi_field (k j n l : Nat) (sign : Bool) : atoi (List.replicate k (ascii ' ') ++ ((if sign then [ascii '-'] else []) ++
    (List.replicate j (ascii '0') ++ numeralBytes 10 n ++ List.replicate l (ascii ' ')))) =
      if sign then -BitVec.ofNat 32 n else BitVec.ofNat 32 n := by
  unfold atoi
  rw [atoi_sign_blanks]
  cases sign with
  | true =>
    have hminus : atoi_sign (ascii '-' ::
        (List.replicate j (ascii '0') ++ numeralBytes 10 n ++ List.replicate l (ascii ' '))) =
        (true, List.replicate j (ascii '0') ++ numeralBytes 10 n ++ List.replicate l (ascii ' ')) := by
      rw [atoi_sign, if_neg (by decide), if_pos rfl]
    simp only [if_true, List.singleton_append, hminus, scan_number_numeral]
  | false =>
    have hdigit : atoi_sign (List.replicate j (ascii '0') ++ numeralBytes 10 n ++ List.replicate l (ascii ' ')) =
        (false, List.replicate j (ascii '0') ++ numeralBytes 10 n ++ List.replicate l (ascii ' ')) := by
      cases j with
      | zero =>
        obtain ⟨d, ds, e, hd, -⟩ := numeralBytes_begins n (List.replicate l (ascii ' '))
        rw [List.replicate_zero, List.nil_append, e]
        exact atoi_sign_digit hd ds
      | succ j => exact atoi_sign_digit (d := 0) (by omega) _
    simp only [Bool.false_eq_true, if_false, List.nil_append, hdigit, scan_number_numeral]

/-! ## Printing -/

theorem clip_le (w : Word) : (clip w).toNat ≤ 80 := by
  unfold clip
  split
  · decide
  · next h =>
    have hmax : MAXSTR.toInt = 80 := by decide
    have hw := BitVec.toInt_eq_toNat_cond w
    have hlt := w.isLt
    split at hw
    · omega
    · omega

theorem length_layout (left : Bool) (fill : Byte) (width : Nat) (sign : Bool) (text : List Byte) :
    (layout left fill width sign text).length = max width (text.length + if sign then 1 else 0) := by
  unfold layout
  cases left <;> cases sign <;> simp only [if_true, if_false, Bool.false_eq_true] <;> try split
  all_goals
    simp only [List.length_append, List.length_replicate, List.length_singleton, List.length_nil]
    omega

/-- A number in its field, unless zeros were filled in behind it. -/
theorem atoi_layout {left : Bool} {fill : Byte} (hfill : fill = ascii ' ' ∨ fill = ascii '0' ∧ left = false) (width n : Nat)
    (sign : Bool) : atoi (layout left fill width sign (numeralBytes 10 n)) =
      if sign then -BitVec.ofNat 32 n else BitVec.ofNat 32 n := by
  unfold layout
  simp only []
  generalize width - _ = pad
  rcases hfill with rfl | ⟨rfl, rfl⟩
  · cases left with
    | true => simpa using atoi_field 0 0 n pad sign
    | false => simpa [show ascii ' ' ≠ ascii '0' by decide] using atoi_field pad 0 n 0 sign
  · simpa using atoi_field 0 pad n 0 sign

/-- The arguments that a width or a maximum takes. -/
def Size.stars : Option Size → Nat
  | some .arg => 1
  | _ => 0

theorem sizeOf_drop {s : Option Size} {args : List Word} (h : Size.stars s ≤ args.length) :
    ∃ w, sizeOf s args = some (w, args.drop (Size.stars s)) := by
  cases s with
  | none => exact ⟨_, rfl⟩
  | some s =>
    cases s with
    | lit n => exact ⟨_, rfl⟩
    | arg =>
      cases args with
      | nil => exact absurd h (by decide)
      | cons a args => exact ⟨_, rfl⟩

/-- The place of a directive's argument behind those of its width and maximum. -/
def Directive.stars (d : Directive) : Nat := Size.stars d.width + Size.stars d.max

/-- Whether a conversion prints a decimal number. -/
def Conv.Decimal (c : Conv) : Prop := c = .signed ∨ c = .unsigned

theorem Conv.Decimal.body {c : Conv} (h : c.Decimal) (m : Mem) (a : Word) : ∃ sign n,
    c.body m a = some (sign, numeralBytes 10 n) ∧ n < 2 ^ 32 ∧
      (if sign then -BitVec.ofNat 32 n else BitVec.ofNat 32 n) = a := by
  rcases h with rfl | rfl
  · have hcond := BitVec.toInt_eq_toNat_cond a
    have hlt := a.isLt
    refine ⟨decide (a.toInt < 0), a.toInt.natAbs, rfl, ?_, ?_⟩
    · split at hcond <;> omega
    · by_cases hneg : a.toInt < 0
      · have hnat : a.toInt.natAbs = 2 ^ 32 - a.toNat := by
          split at hcond <;> omega
        rw [decide_eq_true hneg, if_pos rfl, hnat]
        apply BitVec.eq_of_toNat_eq
        rw [BitVec.toNat_neg, BitVec.toNat_ofNat]
        split at hcond <;> omega
      · have hnat : a.toInt.natAbs = a.toNat := by
          split at hcond <;> omega
        rw [decide_eq_false hneg, hnat]
        simp
  · exact ⟨false, a.toNat, rfl, a.isLt, by simp⟩

/-- A decimal directive finds its argument and prints the number in a field. -/
theorem Directive.denote_decimal {d : Directive} {args : List Word} {a : Word} (hconv : d.conv.Decimal) (m : Mem)
    (ha : args[d.stars]? = some a) : ∃ width sign n args', d.denote m args =
      some (layout d.left (if d.zero then ascii '0' else ascii ' ') (clip width).toNat sign (numeralBytes 10 n), args') ∧
      n < 2 ^ 32 ∧ (if sign then -BitVec.ofNat 32 n else BitVec.ofNat 32 n) = a := by
  have hlen : d.stars < args.length := (List.getElem?_eq_some_iff.1 ha).1
  have hwidth : Size.stars d.width ≤ args.length := Nat.le_trans (Nat.le_add_right ..) (Nat.le_of_lt hlen)
  have hmax : Size.stars d.max ≤ (args.drop (Size.stars d.width)).length := by
    rw [List.length_drop]
    exact Nat.le_sub_of_add_le' (Nat.le_of_lt hlen)
  obtain ⟨width, ewidth⟩ := sizeOf_drop hwidth
  obtain ⟨max, emax⟩ := sizeOf_drop hmax
  obtain ⟨sign, n, ebody, hn, hval⟩ := hconv.body m a
  have ehead : ((args.drop (Size.stars d.width)).drop (Size.stars d.max)).head? = some a := by
    rw [List.drop_drop, List.head?_drop]
    exact ha
  have efill : d.conv.fill d.zero = if d.zero then ascii '0' else ascii ' ' := by
    rcases hconv with h | h <;> rw [h] <;> rfl
  have ecut : d.conv.cut (clip max) (numeralBytes 10 n) = numeralBytes 10 n := by
    rcases hconv with h | h <;> rw [h] <;> rfl
  refine ⟨width, sign, n, ((args.drop (Size.stars d.width)).drop (Size.stars d.max)).drop 1, ?_, hn, hval⟩
  unfold Directive.denote
  simp only [ewidth, emax, ehead, ebody, efill, ecut, Option.bind_eq_bind, Option.bind_some]

theorem zero_not_mem_layout {left : Bool} {fill : Byte} (hfill : fill = ascii ' ' ∨ fill = ascii '0') (width n : Nat)
    (sign : Bool) : 0 ∉ layout left fill width sign (numeralBytes 10 n) := by
  have htext : 0 ∉ numeralBytes 10 n := zero_not_mem_numeralBytes (by omega) (by omega)
  have hminus : 0 ∉ if sign then [ascii '-'] else [] := by
    cases sign <;> decide
  have hpad : ∀ k, 0 ∉ List.replicate k fill := by
    intro k h
    have e := List.eq_of_mem_replicate h
    rcases hfill with rfl | rfl
    · exact absurd e (by decide)
    · exact absurd e (by decide)
  unfold layout
  simp only []
  split
  · simp only [List.mem_append, htext, hminus, hpad, or_false, not_false_eq_true]
  · split
    · simp only [List.mem_append, htext, hminus, hpad, or_false, not_false_eq_true]
    · simp only [List.mem_append, htext, hminus, hpad, or_false, not_false_eq_true]

/-! ## Storing -/

/-- The bytes and the `'\0'` behind them are a string, and nothing else is written. -/
theorem sprntf_string {m : Mem} {s : Word} {out : List Byte} {fuel : Nat} (h0 : 0 ∉ out) (hlen : out.length + 1 < 2 ^ 32)
    (hfuel : out.length < fuel) :
    cstring ((sprntf m s out).1.store8 (sprntf m s out).2 0) fuel s = some out ∧
      Mem.SameOutside s (out.length + 1) m ((sprntf m s out).1.store8 (sprntf m s out).2 0) := by
  obtain ⟨fuel, rfl⟩ : ∃ n, fuel = n + 1 := ⟨fuel - 1, by omega⟩
  induction out generalizing m s fuel with
  | nil =>
    refine ⟨?_, .cons (.refl _ _ _)⟩
    rw [cstring, if_pos]
    exact Mem.store8_same m s 0
  | cons c out ih =>
    rw [List.length_cons] at hlen hfuel
    obtain ⟨fuel, rfl⟩ : ∃ n, fuel = n + 1 := ⟨fuel - 1, by omega⟩
    obtain ⟨hstr, hsame⟩ := ih (m := m.store8 s c) (s := s + 1) (fun h => h0 (List.mem_cons_of_mem _ h)) (by omega) fuel
      (by omega)
    have hc : ((sprntf m s (c :: out)).1.store8 (sprntf m s (c :: out)).2 0) s = c := by
      have hbehind : out.length + 1 ≤ (s - (s + 1)).toNat := by bv_omega
      exact (hsame s hbehind).trans (Mem.store8_same m s c)
    have hc0 : c ≠ 0 := fun h => h0 (h ▸ List.mem_cons_self)
    refine ⟨?_, hsame.cons⟩
    rw [cstring, hc, if_neg hc0]
    change (cstring _ (fuel + 1) (s + 1)).bind _ = _
    rw [show sprntf m s (c :: out) = sprntf (m.store8 s c) (s + 1) out from rfl, hstr]
    rfl

/-! ## Results -/

/-- `atoi` reads back what a decimal directive has left in the buffer, for every
justification, fill, width and maximum but zeros on the right, and at most 81
bytes of the buffer are written. -/
theorem sprintf_atoi (m : Mem) (str : Word) {d : Directive} {args : List Word} {a : Word} (string : List Byte)
    (hconv : d.conv.Decimal) (hpad : ¬(d.left ∧ d.zero)) (ha : args[d.stars]? = some a) :
    ∃ text m', sprintf m str d.render args string = some (str, m') ∧ cstring m' STR_FUEL str = some text ∧ atoi text = a ∧
      Mem.SameOutside str 81 m m' := by
  obtain ⟨width, sign, n, args', hdenote, hn, hval⟩ := d.denote_decimal hconv m ha
  have hformat : format m d.render args string =
      some (layout d.left (if d.zero then ascii '0' else ascii ' ') (clip width).toNat sign (numeralBytes 10 n)) := by
    have hitems : d.render = renderAll [.directive d] := (List.append_nil _).symm
    rw [hitems, format, doprnt_renderAll m _ (Nat.lt_succ_self _), denote, hdenote]
    simp [denote]
  generalize hout : layout _ _ _ _ _ = out at hformat
  have h0 : 0 ∉ out := by
    rw [← hout]
    apply zero_not_mem_layout
    cases d.zero
    · exact .inl rfl
    · exact .inr rfl
  have hlen : out.length ≤ 80 := by
    have hdigits : (numeralBytes 10 n).length ≤ 10 := by
      rw [numeralBytes, List.length_map]
      exact (length_numeral_le (by omega) (by omega)).2 (Nat.lt_trans hn (by decide))
    have hclip := clip_le width
    rw [← hout, length_layout]
    split <;> omega
  have hatoi : atoi out = a := by
    rw [← hout, atoi_layout _ _ n sign, hval]
    cases hz : d.zero with
    | false => exact .inl rfl
    | true => exact .inr ⟨rfl, Bool.eq_false_of_not_eq_true fun hl => hpad ⟨hl, hz⟩⟩
  have hfuel : out.length < STR_FUEL := Nat.lt_of_le_of_lt hlen (by decide)
  obtain ⟨hstr, hsame⟩ := sprntf_string (m := m) (s := str) h0 (by omega) hfuel
  refine ⟨out, _, ?_, hstr, hatoi, fun x hx => hsame x (by omega)⟩
  rw [sprintf, hformat]
  rfl

/-- `%05d`. -/
def sampleDirective : Directive where
  left := false
  zero := true
  width := some (.lit 5)
  max := none
  long := false
  conv := .signed
  letter := ascii 'd'
  width_pos := by
    rintro n ⟨⟩
    decide
  known := List.mem_cons_self

/-- -42 is printed as `-0042`. -/
theorem sprintf_atoi_negative : ∃ text m',
    sprintf (fun _ => 0) 0x8000 sampleDirective.render [-42] [] = some (0x8000, m') ∧
      cstring m' STR_FUEL 0x8000 = some text ∧ atoi text = -42 ∧ Mem.SameOutside 0x8000 81 (fun _ => 0) m' :=
  sprintf_atoi (fun _ => 0) 0x8000 (d := sampleDirective) [] (.inl rfl) (by decide) rfl

end Xeros
