import Xeros.Console.Blkcopy
import Xeros.Lib.Teletype
/-!
# The display

`kbmputc` keeps 25 rows in the video memory and throws the first one away when
it needs another. It works like a teletype that prints on paper without an end,
of which the display shows a window (`display_shows`).
-/

namespace Xeros

open Teletype

/-- A character and its attribute, when that is known. The line that a scroll
clears has the attributes of another. -/
abbrev Cell := Byte × Option Byte

def Cell.blank : Cell := (ascii ' ', none)

namespace Console

/-! ## The teletype -/

/-- What a character does to the teletype. It cannot go back in front of the window. -/
def press (t : Tty Cell) (c : Byte) : Option (Tty Cell) :=
  if c = 0 then some t
  else if c = 0x08 then t.back 80
  else if c = 0x09 then some (t.tab 80 25 (ascii ' ', some att) 8)
  else if c = 0x0A then some (t.newline 80 25)
  else if c = 0x0D then some (t.home 80)
  else some (t.type 80 25 (c, some att))

def pressAll : Tty Cell → List Byte → Option (Tty Cell)
  | t, [] => some t
  | t, c :: out => (press t c).bind fun t => pressAll t out

/-- The video memory that the machine has. -/
def display (s : Console) : Word := if s.color then CGA_BUF else MONO_BUF

/-- The cursor at the start, or the top when it is not on the display. -/
def startPos (s : Console) : Nat := if s.probe.cursorat.toNat < 2000 then s.probe.cursorat.toNat else 0

/-- What the probe leaves is kept up to the cursor and cleared behind it. -/
def tty (s : Console) : Tty Cell where
  paper i :=
    if i < s.startPos then
      (s.probe.mem (s.display + BitVec.ofNat 32 (2 * i)), some (s.probe.mem (s.display + BitVec.ofNat 32 (2 * i + 1))))
    else if i < 2000 then (ascii ' ', some att)
    else .blank
  pos := s.startPos
  top := 0

/-! ## The relation -/

/-- The display shows the paper from the cell `first` on. -/
def Shown (m : Mem) (display : Word) (paper : Nat → Cell) (first : Nat) : Prop :=
  ∀ i < 2000, m (display + BitVec.ofNat 32 (2 * i)) = (paper (first + i)).1 ∧
    ∀ a ∈ (paper (first + i)).2, m (display + BitVec.ofNat 32 (2 * i + 1)) = a

/-- The display shows the window of the teletype, and `crtat` is at its cursor. -/
structure Displays (s : Console) (t : Tty Cell) : Prop where
  base : s.Crtat = s.display
  cells : Shown s.mem s.display t.paper (80 * t.top)
  fits : t.Fits 80 25 .blank
  crtat : s.crtat = s.display + BitVec.ofNat 32 (2 * (t.pos - 80 * t.top))

/-- The hardware shows the cursor there. -/
structure Shows (s : Console) (t : Tty Cell) : Prop extends s.Displays t where
  cursor : s.cursorat = BitVec.ofNat 32 (t.pos - 80 * t.top)

/-- Nothing has been printed, and the cursor is not just behind the display. -/
structure Fresh (s : Console) : Prop where
  crtat : s.crtat = 0
  base : s.Crtat = CGA_BUF
  ports : s.addr_6845 = CGA_BASE
  cursor : s.probe.cursorat ≠ COL * ROW

def Ready (s : Console) (t : Tty Cell) : Prop := s.Shows t ∨ s.Fresh ∧ t = s.tty

/-- Nothing but the video memory is written. -/
structure Keeps (s s' : Console) : Prop where
  color : s'.color = s.color
  mem : Mem.SameOutside s.display 4000 s.mem s'.mem

section keeps
variable {s s' s'' : Console}

theorem Keeps.refl (s : Console) : Keeps s s := ⟨rfl, .refl _ _ _⟩

theorem Keeps.display (h : Keeps s s') : s'.display = s.display := by
  unfold Console.display
  rw [h.color]

theorem Keeps.trans (h : Keeps s s') (h' : Keeps s' s'') : Keeps s s'' := by
  refine ⟨h'.color.trans h.color, fun x hx => ?_⟩
  rw [h'.mem x (by rw [h.display]; exact hx), h.mem x hx]

theorem display_cases (s : Console) : s.display = 0xB8000 ∨ s.display = 0xB0000 := by
  unfold Console.display
  cases s.color
  · exact .inr rfl
  · exact .inl rfl

theorem display_le (s : Console) : s.display.toNat ≤ 0xB8000 ∧ s.display.toNat % 16 = 0 ∧ s.display ≠ 0 := by
  rcases s.display_cases with h | h <;> rw [h] <;> decide

end keeps

/-! ## Clearing -/

theorem blank_cell_spec (m : Mem) {cp : Word} (hne : cp ≠ cp + 1) (attr : Option Byte) :
    (blank_cell m cp attr cp = ascii ' ' ∧ ∀ a ∈ attr, blank_cell m cp attr (cp + 1) = a) ∧
      ∀ x, x ≠ cp → x ≠ cp + 1 → blank_cell m cp attr x = m x := by
  cases attr with
  | none => exact ⟨⟨Mem.store8_same .., by simp⟩, fun x h0 _ => Mem.store8_ne _ _ h0⟩
  | some a =>
    refine ⟨⟨(Mem.store8_ne _ _ hne).trans (Mem.store8_same ..), ?_⟩, fun x h0 h1 => ?_⟩
    · rintro b ⟨⟩
      exact Mem.store8_same ..
    · exact (Mem.store8_ne _ _ h1).trans (Mem.store8_ne _ _ h0)

/-- A loop over the cells `[k, n)` blanks them, and writes their attributes only
where it is told to. -/
theorem blank_loop_spec {d : Word} (hd : d.toNat ≤ 0xB8000) (attr : Option Byte) (fuel : Nat) {k n : Nat}
    (hkn : k ≤ n) (hn : n ≤ 2000) (hfuel : n - k < fuel) (m : Mem) : ∃ m',
      blank_loop (d + BitVec.ofNat 32 (2 * n)) attr fuel (d + BitVec.ofNat 32 (2 * k)) m = some m' ∧
      (∀ i, k ≤ i → i < n → m' (d + BitVec.ofNat 32 (2 * i)) = ascii ' ' ∧
        ∀ a ∈ attr, m' (d + BitVec.ofNat 32 (2 * i + 1)) = a) ∧
      ∀ x, (∀ j, 2 * k ≤ j → j < 2 * n → x ≠ d + BitVec.ofNat 32 j) → m' x = m x := by
  obtain ⟨fuel, rfl⟩ : ∃ f, fuel = f + 1 := ⟨fuel - 1, by omega⟩
  induction fuel generalizing k m with
  | zero =>
    obtain rfl : k = n := by omega
    refine ⟨m, ?_, fun i h1 h2 => absurd h2 (Nat.not_lt.2 h1), fun x _ => rfl⟩
    rw [blank_loop, if_neg (by bv_omega)]
  | succ fuel ih =>
    by_cases hlt : k < n
    · have hcell : d + BitVec.ofNat 32 (2 * k) < d + BitVec.ofNat 32 (2 * n) := by bv_omega
      have hnext : d + BitVec.ofNat 32 (2 * k) + 2 = d + BitVec.ofNat 32 (2 * (k + 1)) := by bv_omega
      have hattr : d + BitVec.ofNat 32 (2 * k) + 1 = d + BitVec.ofNat 32 (2 * k + 1) := by bv_omega
      have hne : d + BitVec.ofNat 32 (2 * k) ≠ d + BitVec.ofNat 32 (2 * k) + 1 := by bv_omega
      obtain ⟨hfirst, hkept⟩ := blank_cell_spec m hne attr
      rw [hattr] at hfirst hkept
      obtain ⟨m', e, hcells, hout⟩ := ih hlt (blank_cell m (d + BitVec.ofNat 32 (2 * k)) attr) (by omega)
      refine ⟨m', ?_, ?_, ?_⟩
      · rw [blank_loop, if_pos hcell, hnext, e]
      · intro i h1 h2
        by_cases hi : i = k
        · subst hi
          rw [hout _ fun j hj1 hj2 => by bv_omega, hout _ fun j hj1 hj2 => by bv_omega]
          exact hfirst
        · exact hcells i (by omega) h2
      · intro x hx
        rw [hout x fun j hj1 hj2 => hx j (by omega) hj2]
        exact hkept x (hx _ (by omega) (by omega)) (hx _ (by omega) (by omega))
    · obtain rfl : k = n := by omega
      refine ⟨m, ?_, fun i h1 h2 => absurd h2 (Nat.not_lt.2 h1), fun x _ => rfl⟩
      rw [blank_loop, if_neg (by bv_omega)]

/-! ## The cursor -/

/-- The two registers hold a position of 16 bits. -/
theorem cursorat_cursor (s : Console) {o : Nat} (ho : o < 2 ^ 16) :
    (s.cursor (BitVec.ofNat 32 o)).cursorat = BitVec.ofNat 32 o := by
  have hhi : (s.cursor (BitVec.ofNat 32 o)).crtc s.addr_6845 14 = ((BitVec.ofNat 32 o).sshiftRight 8).setWidth 8 := by
    simp [cursor, outb]
  have hlo : (s.cursor (BitVec.ofNat 32 o)).crtc s.addr_6845 15 = (BitVec.ofNat 32 o &&& 0xFF).setWidth 8 := by
    simp [cursor, outb]
  have hnat : (BitVec.ofNat 32 o).toNat = o := by
    rw [BitVec.toNat_ofNat]
    omega
  have hshift : ((BitVec.ofNat 32 o).sshiftRight 8).toNat = o / 2 ^ 8 := by
    rw [Signed.toNat_sshiftRight (by omega), hnat]
  have hmask : o &&& 255 = o % 256 := Nat.and_two_pow_sub_one_eq_mod o 8
  have hff : (0xFF : Word).toNat = 255 := rfl
  change (((s.cursor (BitVec.ofNat 32 o)).crtc s.addr_6845 14).setWidth 32 <<< 8 |||
    ((s.cursor (BitVec.ofNat 32 o)).crtc s.addr_6845 15).setWidth 32) = _
  rw [hhi, hlo]
  apply BitVec.eq_of_toNat_eq
  rw [BitVec.toNat_or, BitVec.toNat_shiftLeft, BitVec.toNat_setWidth, BitVec.toNat_setWidth, BitVec.toNat_setWidth,
    BitVec.toNat_setWidth, hshift, BitVec.toNat_and, hff, hnat, hmask, Nat.shiftLeft_eq]
  have hor := Nat.two_pow_add_eq_or_of_lt (i := 8) (b := o % 256) (by omega) (o / 256)
  have e1 : o / 2 ^ 8 % 2 ^ 8 % 2 ^ 32 * 2 ^ 8 % 2 ^ 32 = 2 ^ 8 * (o / 256) := by omega
  have e2 : o % 256 % 2 ^ 8 % 2 ^ 32 = o % 256 := by omega
  rw [e1, e2, ← hor]
  omega

section offsets
variable {d : Word} {o : Nat}

theorem offset_sub (d : Word) (o : Nat) : d + BitVec.ofNat 32 o - d = BitVec.ofNat 32 o := by
  rw [BitVec.add_comm, BitVec.add_sub_cancel]

theorem offset_half (ho : o < 2 ^ 15) : (BitVec.ofNat 32 (2 * o)).sdiv CHR = BitVec.ofNat 32 o := by
  have hchr : CHR.toNat = 2 := rfl
  have hnat : (BitVec.ofNat 32 (2 * o)).toNat = 2 * o := by
    rw [BitVec.toNat_ofNat]
    omega
  apply BitVec.eq_of_toNat_eq
  rw [Signed.toNat_sdiv (by omega) (by decide), hnat, hchr, BitVec.toNat_ofNat]
  omega

theorem offset_line (ho : o < 2 ^ 15) : (BitVec.ofNat 32 (2 * o)).srem (COL * CHR) = BitVec.ofNat 32 (2 * (o % 80)) := by
  have hline : (COL * CHR).toNat = 160 := rfl
  have hnat : (BitVec.ofNat 32 (2 * o)).toNat = 2 * o := by
    rw [BitVec.toNat_ofNat]
    omega
  apply BitVec.eq_of_toNat_eq
  rw [Signed.toNat_srem (by omega) (by decide), hnat, hline, BitVec.toNat_ofNat]
  omega

/-- The display begins at a tab stop. -/
theorem offset_tab (hd : d.toNat ≤ 0xB8000) (hd16 : d.toNat % 16 = 0) (ho : o < 2 ^ 15) :
    (d + BitVec.ofNat 32 (2 * o)).srem (8 * CHR) = 0 ↔ o % 8 = 0 := by
  have htab : (8 * CHR).toNat = 16 := rfl
  have hnat : (d + BitVec.ofNat 32 (2 * o)).toNat = d.toNat + 2 * o := by
    rw [BitVec.toNat_add, BitVec.toNat_ofNat]
    omega
  have hrem : ((d + BitVec.ofNat 32 (2 * o)).srem (8 * CHR)).toNat = (d.toNat + 2 * o) % 16 := by
    rw [Signed.toNat_srem (by omega) (by decide), hnat, htab]
  have hzero : (0 : Word).toNat = 0 := rfl
  rw [← BitVec.toNat_inj, hrem, hzero]
  omega

end offsets

theorem Displays.crtat_offset {s : Console} {t : Tty Cell} (h : s.Displays t) : ∃ o < 2000, t.pos = 80 * t.top + o ∧
    s.crtat = s.display + BitVec.ofNat 32 (2 * o) := by
  have habove := h.fits.above
  have hbelow := h.fits.below
  exact ⟨t.pos - 80 * t.top, by omega, by omega, h.crtat⟩

/-! ## Scrolling -/

/-- The rows but the first move up, and a blank one follows. -/
theorem scroll_shown {m : Mem} {d : Word} {t : Tty Cell} (hd : d.toNat ≤ 0xB8000)
    (hcells : Shown m d t.paper (80 * t.top)) (hfits : t.Fits 80 25 .blank) : ∃ m',
      blank_loop (d + COL * ROW * CHR) none DISPLAY_FUEL (d + COL * (ROW - 1) * CHR)
        (blkcopy m d (d + COL * CHR) (COL * (ROW - 1) * CHR)).1 = some m' ∧
      Shown m' d t.paper (80 * (t.top + 1)) ∧ Mem.SameOutside d 4000 m m' := by
  have hcount : (COL * (ROW - 1) * CHR).toNat = 3840 := rfl
  have hsrc : d + COL * CHR = d + BitVec.ofNat 32 160 := rfl
  have hstop : d + COL * ROW * CHR = d + BitVec.ofNat 32 (2 * 2000) := rfl
  have hlast : d + COL * (ROW - 1) * CHR = d + BitVec.ofNat 32 (2 * 1920) := rfl
  have horder : SignedOrder d (d + COL * CHR) (COL * (ROW - 1) * CHR) := by
    have hint : d.toInt = d.toNat := BitVec.toInt_eq_toNat_of_lt (by omega)
    have hnat : (d + BitVec.ofNat 32 160).toNat = d.toNat + 160 := by
      rw [BitVec.toNat_add, BitVec.toNat_ofNat]
      omega
    have hint' : (d + BitVec.ofNat 32 160).toInt = (d + BitVec.ofNat 32 160).toNat := BitVec.toInt_eq_toNat_of_lt (by omega)
    rw [hsrc]
    constructor
    · intro h
      rw [hcount] at h
      bv_omega
    · intro _
      omega
  have hmoved := blkcopy_moved (by omega) horder m
  rw [hcount] at hmoved
  generalize (blkcopy m d (d + COL * CHR) (COL * (ROW - 1) * CHR)).1 = m1 at hmoved ⊢
  have hup : ∀ j < 3840, m1 (d + BitVec.ofNat 32 j) = m (d + BitVec.ofNat 32 (j + 160)) := by
    intro j hj
    rw [hmoved.moved j ⟨Nat.zero_le j, hj⟩, hsrc, BitVec.add_assoc, ← BitVec.ofNat_add, Nat.add_comm 160]
  obtain ⟨m', e, hblank, hkept⟩ := blank_loop_spec hd none DISPLAY_FUEL (k := 1920) (n := 2000) (by omega)
    (by omega) (by decide) m1
  rw [hstop, hlast]
  refine ⟨m', e, ?_, ?_⟩
  · intro i hi
    by_cases hrow : i < 1920
    · have hold := hcells (i + 80) (by omega)
      have hcell : 80 * (t.top + 1) + i = 80 * t.top + (i + 80) := by omega
      have h0 : 2 * i + 160 = 2 * (i + 80) := by omega
      have h1 : 2 * i + 1 + 160 = 2 * (i + 80) + 1 := by omega
      rw [hkept _ fun j hj1 hj2 => by bv_omega, hkept _ fun j hj1 hj2 => by bv_omega, hup _ (by omega), hup _ (by omega),
        hcell, h0, h1]
      exact hold
    · have hnew : t.paper (80 * (t.top + 1) + i) = .blank := hfits.blank _ (by omega)
      rw [hnew]
      exact ⟨(hblank i (by omega) hi).1, fun a ha => absurd ha (by simp [Cell.blank])⟩
  · intro x hx
    rw [hkept x fun j hj1 hj2 => by bv_omega]
    apply hmoved.kept
    rintro j ⟨-, hj⟩
    bv_omega

/-- What follows the `switch`, when the cursor has gone to a cell at most a row
behind the window. -/
theorem finish_shows {s : Console} {t : Tty Cell} {o : Nat} (hbase : s.Crtat = s.display)
    (hcells : Shown s.mem s.display t.paper (80 * t.top)) (hfits : t.Fits 80 25 .blank)
    (hcrtat : s.crtat = s.display + BitVec.ofNat 32 (2 * o)) (ho : o < 2080) :
    ∃ s', s.finish = some s' ∧ s'.Shows (t.move 80 25 (80 * t.top + o)) ∧ Keeps s s' := by
  obtain ⟨hd, -, -⟩ := s.display_le
  have hmove := hfits.move (80 * t.top + o) (by omega) (by omega) (by omega)
  have hscroll : s.Crtat + COL * ROW * CHR ≤ s.crtat ↔ 2000 ≤ o := by
    have hlen : COL * ROW * CHR = BitVec.ofNat 32 4000 := rfl
    rw [hbase, hcrtat, hlen]
    bv_omega
  have hhalf : (s.crtat - s.Crtat).sdiv CHR = BitVec.ofNat 32 o := by
    rw [hbase, hcrtat, offset_sub, offset_half (by omega)]
  by_cases hlt : o < 2000
  · have hin : 80 * t.top + o < 80 * (t.top + 25) := by omega
    have htop : (t.move 80 25 (80 * t.top + o)).top = t.top := if_pos hin
    have hpos : 80 * t.top + o - 80 * t.top = o := by omega
    have e : s.finish = some (s.cursor (BitVec.ofNat 32 o)) := by
      unfold finish scroll
      rw [if_neg (mt hscroll.1 (by omega))]
      simp only [Option.bind_eq_bind, Option.bind_some, hhalf]
    refine ⟨_, e, ⟨⟨hbase, ?_, hmove, ?_⟩, ?_⟩, ⟨rfl, .refl _ _ _⟩⟩
    · rw [htop]
      exact hcells
    · rw [htop]
      change s.crtat = s.display + BitVec.ofNat 32 (2 * (80 * t.top + o - 80 * t.top))
      rw [hpos]
      exact hcrtat
    · rw [htop]
      change _ = BitVec.ofNat 32 (80 * t.top + o - 80 * t.top)
      rw [hpos]
      exact s.cursorat_cursor (by omega)
  · obtain ⟨m', em, hshown, hsame⟩ := scroll_shown hd hcells hfits
    have hin : ¬80 * t.top + o < 80 * (t.top + 25) := by omega
    have htop : (t.move 80 25 (80 * t.top + o)).top = t.top + 1 := if_neg hin
    have hpos : 80 * t.top + o - 80 * (t.top + 1) = o - 80 := by omega
    have hback : s.crtat - COL * CHR = s.display + BitVec.ofNat 32 (2 * (o - 80)) := by
      have hline : COL * CHR = BitVec.ofNat 32 160 := rfl
      rw [hcrtat, hline]
      bv_omega
    have hhalf' : (s.crtat - COL * CHR - s.Crtat).sdiv CHR = BitVec.ofNat 32 (o - 80) := by
      rw [hback, hbase, offset_sub, offset_half (by omega)]
    have e : s.finish = some ({ s with mem := m', crtat := s.crtat - COL * CHR }.cursor (BitVec.ofNat 32 (o - 80))) := by
      unfold finish scroll
      rw [if_pos (hscroll.2 (by omega))]
      rw [hbase]
      simp only [Option.bind_eq_bind, Option.bind_some, em]
      rw [← hbase, hhalf']
    refine ⟨_, e, ⟨⟨hbase, ?_, hmove, ?_⟩, ?_⟩, ⟨rfl, hsame⟩⟩
    · rw [htop]
      exact hshown
    · rw [htop]
      change s.crtat - COL * CHR = s.display + BitVec.ofNat 32 (2 * (80 * t.top + o - 80 * (t.top + 1)))
      rw [hpos]
      exact hback
    · rw [htop]
      change _ = BitVec.ofNat 32 (80 * t.top + o - 80 * (t.top + 1))
      rw [hpos]
      exact cursorat_cursor _ (by omega)

/-! ## A character -/

section steps
variable {s : Console} {t t' : Tty Cell} {c : Byte}

theorem Displays.write (h : s.Displays t) (c : Byte) : Shown ((s.mem.store8 s.crtat c).store8 (s.crtat + 1) att) s.display
    (t.write (c, some att)).paper (80 * t.top) := by
  obtain ⟨o, ho, hpos, hcrtat⟩ := h.crtat_offset
  obtain ⟨hd, -, -⟩ := s.display_le
  have hattr : s.crtat + 1 = s.display + BitVec.ofNat 32 (2 * o + 1) := by
    rw [hcrtat]
    bv_omega
  rw [hattr, hcrtat]
  intro i hi
  by_cases hio : i = o
  · subst hio
    have hcell : (t.write (c, some att)).paper (80 * t.top + i) = (c, some att) := by
      rw [← hpos]
      exact Function.update_self ..
    rw [hcell]
    refine ⟨?_, ?_⟩
    · rw [Mem.store8_ne _ _ (by bv_omega), Mem.store8_same]
    · rintro a ⟨⟩
      exact Mem.store8_same ..
  · have hcell : (t.write (c, some att)).paper (80 * t.top + i) = t.paper (80 * t.top + i) :=
      Function.update_of_ne (by omega) ..
    rw [hcell, Mem.store8_ne _ _ (by bv_omega), Mem.store8_ne _ _ (by bv_omega), Mem.store8_ne _ _ (by bv_omega),
      Mem.store8_ne _ _ (by bv_omega)]
    exact h.cells i hi

theorem Displays.write_keeps (h : s.Displays t) (c : Byte) :
    Mem.SameOutside s.display 4000 s.mem ((s.mem.store8 s.crtat c).store8 (s.crtat + 1) att) := by
  obtain ⟨o, ho, -, hcrtat⟩ := h.crtat_offset
  intro x hx
  rw [hcrtat, Mem.store8_ne _ _ (by bv_omega), Mem.store8_ne _ _ (by bv_omega)]

/-- The `switch`, and what follows it. -/
theorem put_finish_shows (h : s.Displays t) (h0 : c ≠ 0) (h9 : c ≠ 0x09) (hpress : press t c = some t') :
    ∃ s', (s.put c).finish = some s' ∧ s'.Shows t' ∧ Keeps s s' := by
  obtain ⟨o, ho, hpos, hcrtat⟩ := h.crtat_offset
  obtain ⟨hd, -, -⟩ := s.display_le
  unfold press at hpress
  rw [if_neg h0] at hpress
  unfold put
  by_cases h8 : c = 0x08
  · rw [if_pos h8] at hpress ⊢
    unfold Tty.back at hpress
    split at hpress
    · exact absurd hpress (by simp)
    · next hne =>
      obtain rfl := Option.some.inj hpress
      have hback : s.crtat - CHR = s.display + BitVec.ofNat 32 (2 * (o - 1)) := by
        have hchr : CHR = BitVec.ofNat 32 2 := rfl
        rw [hcrtat, hchr]
        bv_omega
      obtain ⟨s', e, hshows, hkeeps⟩ := finish_shows (s := { s with crtat := s.crtat - CHR }) h.base h.cells h.fits hback
        (by omega)
      have hmove : t.move 80 25 (80 * t.top + (o - 1)) = { t with pos := t.pos - 1 } := by
        rw [Tty.move_in (by omega), hpos, Nat.add_sub_assoc (by omega)]
      rw [hmove] at hshows
      exact ⟨s', e, hshows, hkeeps.color, hkeeps.mem⟩
  · rw [if_neg h8, if_neg h9] at hpress
    rw [if_neg h8]
    by_cases h10 : c = 0x0A
    · rw [if_pos h10] at hpress ⊢
      obtain rfl := Option.some.inj hpress
      have hline : s.crtat + COL * CHR - (s.crtat + COL * CHR - s.Crtat).srem (COL * CHR) =
          s.display + BitVec.ofNat 32 (2 * (o + 80 - o % 80)) := by
        have hnext : s.crtat + COL * CHR = s.display + BitVec.ofNat 32 (2 * (o + 80)) := by
          have hcol : COL * CHR = BitVec.ofNat 32 160 := rfl
          rw [hcrtat, hcol]
          bv_omega
        rw [hnext, h.base, offset_sub, offset_line (by omega)]
        bv_omega
      obtain ⟨s', e, hshows, hkeeps⟩ := finish_shows (s := { s with crtat := s.crtat + COL * CHR }.carriage_return) h.base
        h.cells h.fits hline (by omega)
      have hrow : 80 * t.top + (o + 80 - o % 80) = 80 * (t.pos / 80 + 1) := by omega
      rw [hrow] at hshows
      exact ⟨s', e, hshows, hkeeps.color, hkeeps.mem⟩
    · rw [if_neg h10] at hpress ⊢
      by_cases h13 : c = 0x0D
      · rw [if_pos h13] at hpress ⊢
        obtain rfl := Option.some.inj hpress
        have hline : s.crtat - (s.crtat - s.Crtat).srem (COL * CHR) = s.display + BitVec.ofNat 32 (2 * (o - o % 80)) := by
          rw [hcrtat, h.base, offset_sub, offset_line (by omega)]
          bv_omega
        obtain ⟨s', e, hshows, hkeeps⟩ := finish_shows (s := s.carriage_return) h.base h.cells h.fits hline (by omega)
        have hmove : t.move 80 25 (80 * t.top + (o - o % 80)) = t.home 80 := by
          have hrow : 80 * t.top + (o - o % 80) = 80 * (t.pos / 80) := by omega
          rw [Tty.move_in (by omega), hrow]
          rfl
        rw [hmove] at hshows
        exact ⟨s', e, hshows, hkeeps.color, hkeeps.mem⟩
      · rw [if_neg h13] at hpress ⊢
        obtain rfl := Option.some.inj hpress
        have hnext : s.crtat + CHR = s.display + BitVec.ofNat 32 (2 * (o + 1)) := by
          have hchr : CHR = BitVec.ofNat 32 2 := rfl
          rw [hcrtat, hchr]
          bv_omega
        obtain ⟨s', e, hshows, hkeeps⟩ := finish_shows (t := t.write (c, some att)) (s := { s with
          mem := (s.mem.store8 s.crtat c).store8 (s.crtat + 1) att, crtat := s.crtat + CHR }) h.base (h.write c)
          (h.fits.write _) hnext (by omega)
        refine ⟨s', e, ?_, ?_⟩
        · have hmove : 80 * t.top + (o + 1) = t.pos + 1 := by omega
          change s'.Shows ((t.write (c, some att)).move 80 25 (80 * t.top + (o + 1))) at hshows
          rw [hmove] at hshows
          exact hshows
        · have hput : Keeps s { s with
              mem := (s.mem.store8 s.crtat c).store8 (s.crtat + 1) att, crtat := s.crtat + CHR } := ⟨rfl, h.write_keeps c⟩
          exact hput.trans hkeeps

theorem Displays.start (h : s.Displays t) : s.start = some s := by
  obtain ⟨o, ho, -, hcrtat⟩ := h.crtat_offset
  obtain ⟨hd, -, hne⟩ := s.display_le
  have hcrtat0 : s.crtat ≠ 0 := by
    rw [hcrtat]
    bv_omega
  rw [Console.start, if_neg hcrtat0]

theorem press_blank (t : Tty Cell) : press t (ascii ' ') = some (t.type 80 25 (ascii ' ', some att)) := rfl

theorem Displays.tab_stop (h : s.Displays t) : s.crtat.srem (8 * CHR) = 0 ↔ t.pos % 8 = 0 := by
  obtain ⟨o, ho, hpos, hcrtat⟩ := h.crtat_offset
  obtain ⟨hd, hd16, -⟩ := s.display_le
  rw [hcrtat, offset_tab hd hd16 (by omega)]
  omega

/-- Blanks are printed until the cursor is at a multiple of eight. -/
theorem tab_loop_shows (fuel : Nat) {n : Nat} (h : s.Displays t) (hn : n + 1 = 8 - t.pos % 8) (hfuel : n < fuel) :
    ∃ s', tab_loop fuel s = some s' ∧ s'.Shows (Nat.iterate (Tty.type 80 25 (ascii ' ', some att)) (n + 1) t) ∧
      Keeps s s' := by
  obtain ⟨fuel, rfl⟩ : ∃ f, fuel = f + 1 := ⟨fuel - 1, by omega⟩
  induction n generalizing s t fuel with
  | zero =>
    obtain ⟨s1, e1, hshows, hkeeps⟩ := put_finish_shows h (by decide) (by decide) (press_blank t)
    have hpos : (t.type 80 25 (ascii ' ', some att)).pos = t.pos + 1 := rfl
    have hstop : s1.crtat.srem (8 * CHR) = 0 := hshows.tab_stop.2 (by omega)
    refine ⟨s1, ?_, hshows, hkeeps⟩
    rw [tab_loop, h.start]
    simp only [Option.bind_eq_bind, Option.bind_some, e1, if_pos hstop]
  | succ n ih =>
    obtain ⟨s1, e1, hshows, hkeeps⟩ := put_finish_shows h (by decide) (by decide) (press_blank t)
    have hpos : (t.type 80 25 (ascii ' ', some att)).pos = t.pos + 1 := rfl
    have hstop : ¬s1.crtat.srem (8 * CHR) = 0 := mt hshows.tab_stop.1 (by omega)
    obtain ⟨fuel, rfl⟩ : ∃ f, fuel = f + 1 := ⟨fuel - 1, by omega⟩
    obtain ⟨s2, e2, hshows2, hkeeps2⟩ := ih hshows.toDisplays (by omega) fuel (by omega)
    refine ⟨s2, ?_, hshows2, hkeeps.trans hkeeps2⟩
    rw [tab_loop, h.start]
    simp only [Option.bind_eq_bind, Option.bind_some, e1, if_neg hstop, e2]

/-- Nothing moves when the cursor is on the display. -/
theorem Displays.finish (h : s.Displays t) : ∃ s', s.finish = some s' ∧ s'.Shows t ∧ Keeps s s' := by
  obtain ⟨o, ho, hpos, hcrtat⟩ := h.crtat_offset
  obtain ⟨s', e, hshows, hkeeps⟩ := finish_shows h.base h.cells h.fits hcrtat (by omega)
  rw [← hpos, Tty.move_in h.fits.below] at hshows
  exact ⟨s', e, hshows, hkeeps⟩

/-- The probe writes to the display that there is. -/
theorem probe_keeps (s : Console) : Mem.SameOutside s.display 4000 s.mem s.probe.mem := by
  unfold probe display
  cases s.color with
  | true => exact .refl _ _ _
  | false =>
    simp only [Bool.false_eq_true, if_false]
    intro x hx
    rw [Mem.store8_ne _ _ (by rintro rfl; revert hx; decide), Mem.store8_ne _ _ (by rintro rfl; revert hx; decide)]

/-- The display is cleared behind the cursor before the first character. -/
theorem Fresh.start (h : s.Fresh) : ∃ s', s.start = some s' ∧ s'.Displays s.tty ∧ Keeps s s' := by
  have hbase : s.probe.Crtat = s.display := by
    unfold probe display
    cases s.color
    · rfl
    · exact h.base
  have hdisplay : s.probe.display = s.display := by
    unfold probe
    split <;> rfl
  have hmem : Mem.SameOutside s.display 4000 s.mem s.probe.mem := s.probe_keeps
  have hcolor : s.probe.color = s.color := by
    unfold probe
    split <;> rfl
  obtain ⟨hd, -, -⟩ := s.display_le
  have hpos : s.startPos < 2000 := by
    unfold startPos
    split <;> omega
  have hcrtat : (if s.probe.cursorat ≤ COL * ROW then s.probe.Crtat + s.probe.cursorat * CHR else s.probe.Crtat) =
      s.display + BitVec.ofNat 32 (2 * s.startPos) := by
    have hne := h.cursor
    have hlen : COL * ROW = BitVec.ofNat 32 2000 := rfl
    have hchr : CHR = BitVec.ofNat 32 2 := rfl
    rw [hbase]
    rw [hlen] at hne ⊢
    unfold startPos
    generalize s.probe.cursorat = w at hne ⊢
    by_cases hlt : w.toNat < 2000
    · rw [if_pos (by bv_omega), if_pos hlt, hchr]
      bv_omega
    · rw [if_neg (by bv_omega), if_neg hlt]
      bv_omega
  have hstop : s.display + BitVec.ofNat 32 (2 * 2000) = s.probe.Crtat + ROW * COL * CHR := by
    rw [hbase]
    rfl
  obtain ⟨m', em, hcells, hkept⟩ := blank_loop_spec hd (some att) DISPLAY_FUEL (k := s.startPos) (n := 2000)
    (Nat.le_of_lt hpos) (Nat.le_refl _) (Nat.lt_of_le_of_lt (Nat.sub_le ..) (by decide)) s.probe.mem
  rw [hstop] at em
  have e : s.start = some { s.probe with crtat := s.display + BitVec.ofNat 32 (2 * s.startPos), mem := m' } := by
    unfold Console.start
    rw [if_pos h.crtat]
    simp only [Option.bind_eq_bind, Option.bind_some, hcrtat, em]
  refine ⟨_, e, ⟨?_, ?_, ?_, ?_⟩, ⟨hcolor, ?_⟩⟩
  · exact hbase.trans hdisplay.symm
  · change Shown m' s.probe.display s.tty.paper (80 * 0)
    rw [hdisplay]
    intro i hi
    rw [Nat.mul_zero, Nat.zero_add]
    by_cases hi0 : i < s.startPos
    · have hpaper : s.tty.paper i = (s.probe.mem (s.display + BitVec.ofNat 32 (2 * i)),
          some (s.probe.mem (s.display + BitVec.ofNat 32 (2 * i + 1)))) := if_pos hi0
      rw [hpaper, hkept _ fun j hj1 hj2 => by bv_omega, hkept _ fun j hj1 hj2 => by bv_omega]
      refine ⟨rfl, ?_⟩
      rintro a ⟨⟩
      rfl
    · have hpaper : s.tty.paper i = (ascii ' ', some att) := (if_neg hi0).trans (if_pos hi)
      rw [hpaper]
      exact hcells i (Nat.le_of_not_lt hi0) hi
  · refine ⟨Nat.zero_le _, hpos, fun i hi => ?_⟩
    have h0 : ¬i < s.startPos := by
      change 2000 ≤ i at hi
      omega
    exact (if_neg h0).trans (if_neg (Nat.not_lt.2 hi))
  · change _ = s.probe.display + BitVec.ofNat 32 (2 * (s.startPos - 0))
    rw [hdisplay]
    rfl
  · intro x hx
    have hkeep : m' x = s.probe.mem x := by
      apply hkept
      rintro j - hj rfl
      bv_omega
    exact hkeep.trans (hmem x hx)

theorem Ready.start (h : s.Ready t) : ∃ s', s.start = some s' ∧ s'.Displays t ∧ Keeps s s' := by
  rcases h with h | ⟨h, rfl⟩
  · exact ⟨s, h.toDisplays.start, h.toDisplays, .refl s⟩
  · exact h.start

theorem kbmputc_shows (h : s.Ready t) (h0 : c ≠ 0) (hpress : press t c = some t') :
    ∃ s', s.kbmputc c = some s' ∧ s'.Shows t' ∧ Keeps s s' := by
  obtain ⟨s1, e1, hdisplays, hkeeps1⟩ := h.start
  unfold kbmputc
  rw [if_neg h0, e1]
  simp only [Option.bind_eq_bind, Option.bind_some]
  by_cases h9 : c = 0x09
  · have htab : t' = Nat.iterate (Tty.type 80 25 (ascii ' ', some att)) (7 - t.pos % 8 + 1) t := by
      subst h9
      have hcount : 7 - t.pos % 8 + 1 = 8 - t.pos % 8 := by omega
      rw [hcount]
      exact (Option.some.inj hpress).symm
    obtain ⟨s2, e2, hshows2, hkeeps2⟩ := tab_loop_shows TAB_FUEL (n := 7 - t.pos % 8) hdisplays (by omega)
      (Nat.lt_succ_of_le (Nat.sub_le ..))
    obtain ⟨s3, e3, hshows3, hkeeps3⟩ := hshows2.toDisplays.finish
    rw [if_pos h9, e2, htab, Option.bind_some]
    exact ⟨s3, e3, hshows3, hkeeps1.trans (hkeeps2.trans hkeeps3)⟩
  · obtain ⟨s2, e2, hshows2, hkeeps2⟩ := put_finish_shows hdisplays h0 h9 hpress
    rw [if_neg h9]
    exact ⟨s2, e2, hshows2, hkeeps1.trans hkeeps2⟩

end steps

/-! ## Results -/

theorem kputs_shows {s : Console} {t t' : Tty Cell} {out : List Byte} (h : s.Ready t) (hpress : pressAll t out = some t') :
    ∃ s', s.kputs out = some s' ∧ (s.Shows t ∨ (∃ c ∈ out, c ≠ 0) → s'.Shows t') ∧ Keeps s s' := by
  induction out generalizing s t with
  | nil =>
    obtain rfl := Option.some.inj hpress
    refine ⟨s, rfl, ?_, .refl s⟩
    rintro (hs | ⟨c, hc, -⟩)
    · exact hs
    · exact absurd hc List.not_mem_nil
  | cons c out ih =>
    obtain ⟨t1, h1, hrest⟩ := Option.bind_eq_some_iff.1 hpress
    by_cases h0 : c = 0
    · subst h0
      obtain rfl := Option.some.inj h1
      obtain ⟨s', e, hshows, hkeeps⟩ := ih h hrest
      refine ⟨s', e, fun hs => hshows (hs.imp_right ?_), hkeeps⟩
      rintro ⟨c, hc, hne⟩
      exact ⟨c, (List.mem_cons.1 hc).resolve_left hne, hne⟩
    · obtain ⟨s1, e1, hshows1, hkeeps1⟩ := kbmputc_shows h h0 h1
      obtain ⟨s', e, hshows, hkeeps⟩ := ih (.inl hshows1) hrest
      refine ⟨s', ?_, fun _ => hshows (.inl hshows1), hkeeps1.trans hkeeps⟩
      rw [kputs, e1]
      exact e

/-- Whatever is printed from the start on, as long as the cursor did not start
just behind the display and no backspace leaves it at its top: the display shows
the last 25 rows that a teletype has come to, with its cursor, and no other
memory is written. -/
theorem display_shows {s : Console} (h : s.Fresh) {t : Tty Cell} {out : List Byte} (hpress : pressAll s.tty out = some t) :
    ∃ s', s.kputs out = some s' ∧ ((∃ c ∈ out, c ≠ 0) → s'.Shows t) ∧ Mem.SameOutside s.display 4000 s.mem s'.mem := by
  obtain ⟨s', e, hshows, hkeeps⟩ := kputs_shows (.inr ⟨h, rfl⟩) hpress
  exact ⟨s', e, fun hout => hshows (.inr hout), hkeeps.mem⟩

/-- The cursor is on the last row. -/
def sampleConsole : Console where
  mem := fun _ => 0
  crtc := fun _ r => if r = 14 then 0x07 else 0xCE
  color := true
  Crtat := CGA_BUF
  addr_6845 := CGA_BASE
  crtat := 0

/-- Two characters on the last two cells, and a tab on the row behind them. -/
theorem display_shows_scroll : ∃ t s', pressAll sampleConsole.tty [ascii 'a', ascii 'b', 0x09] = some t ∧
    sampleConsole.kputs [ascii 'a', ascii 'b', 0x09] = some s' ∧ s'.Shows t ∧
    Mem.SameOutside CGA_BUF 4000 sampleConsole.mem s'.mem := by
  have hfresh : sampleConsole.Fresh := ⟨rfl, rfl, rfl, by decide⟩
  obtain ⟨t, ht⟩ : ∃ t, pressAll sampleConsole.tty [ascii 'a', ascii 'b', 0x09] = some t := ⟨_, rfl⟩
  have hout : ∃ c ∈ [ascii 'a', ascii 'b', 0x09], c ≠ 0 := ⟨ascii 'a', List.mem_cons_self, by decide⟩
  obtain ⟨s', e, hshows, hsame⟩ := display_shows hfresh ht
  exact ⟨t, s', ht, e, hshows hout, hsame⟩

end Console

end Xeros
