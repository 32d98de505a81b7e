import Xeros.Model.Kbd
import Xeros.Lib.Flags
import Xeros.Lib.Ring
/-!
# The character buffer of the keyboard

The driver's buffer as a queue of characters: what `insert_char` and
`remove_char` do to it, and what an interrupt puts into it.
-/

namespace Xeros

/-- The buffered characters, oldest first. -/
def Kbd.ring (kb : Kbd) : List Byte := Ring.contents kb.kb_buf kb.head kb.size

@[simp] theorem Kbd.length_ring (kb : Kbd) : kb.ring.length = kb.size := Ring.length_contents

/-- The characters `insert_char` takes while `keyboard_fill` runs. -/
def accepted (kb : Kbd) : List Byte → List Byte
  | [] => []
  | code :: codes =>
    let (ch, state) := kbtoa kb.state code
    let kb := { kb with state := state }
    let a : Byte := ch.setWidth 8
    if a ≠ 0 then
      let (kb, rc) := insert_char kb a
      if rc = 0 then a :: accepted kb codes else []
    else accepted kb codes

/-- The EOF character sits in the buffer, or has been taken out of it, only
when `EOF_IN_BUF` is set. -/
structure Kbd.EofKnown (kb : Kbd) : Prop where
  seen : ∀ c ∈ kb.ring, (c.toNat : Int) = kb.ps.eof → kb.ps.status &&& EOF_IN_BUF ≠ 0
  reached : kb.ps.status &&& EOF_REACHED ≠ 0 → kb.ps.status &&& EOF_IN_BUF ≠ 0

variable {kb kb' : Kbd}

/-! ## Status bits -/

theorem eof_in_buf_set (status : Word) : (status ||| EOF_IN_BUF) &&& EOF_IN_BUF ≠ 0 := by
  rw [Flags.set_self]
  decide

theorem eof_in_buf_reached (status : Word) : (status ||| EOF_IN_BUF) &&& EOF_REACHED = status &&& EOF_REACHED :=
  Flags.set_other status (by decide)

theorem eof_reached_in_buf (status : Word) : (status ||| EOF_REACHED) &&& EOF_IN_BUF = status &&& EOF_IN_BUF :=
  Flags.set_other status (by decide)

theorem eof_reached_set (status : Word) : (status ||| EOF_REACHED) &&& EOF_REACHED ≠ 0 := by
  rw [Flags.set_self]
  decide

/-! ## Insert and remove -/

/-- `insert_char` appends, or the buffer is full and nothing happens. -/
theorem insert_char_spec (kb : Kbd) (c : Byte) :
    (∃ kb', insert_char kb c = (kb', 0) ∧ kb'.ring = kb.ring ++ [c] ∧ kb'.state = kb.state ∧
      kb'.ps = { kb.ps with status := if (c.toNat : Int) = kb.ps.eof then kb.ps.status ||| EOF_IN_BUF else kb.ps.status }) ∨
    insert_char kb c = (kb, -1) := by
  by_cases hs : kb.size < KEYBOARD_BUF_LEN
  · left
    by_cases he : (c.toNat : Int) = kb.ps.eof
    · simp only [insert_char, if_pos hs, if_pos he]
      refine ⟨_, rfl, ?_, rfl, rfl⟩
      exact Ring.contents_push hs c
    · simp only [insert_char, if_pos hs, if_neg he]
      refine ⟨_, rfl, ?_, rfl, rfl⟩
      exact Ring.contents_push hs c
  · right
    rw [insert_char, if_neg hs]

theorem insert_char_eofKnown {c : Byte} (h : kb.EofKnown) (hr : kb'.ring = kb.ring ++ [c])
    (hps : kb'.ps =
      { kb.ps with status := if (c.toNat : Int) = kb.ps.eof then kb.ps.status ||| EOF_IN_BUF else kb.ps.status }) :
    kb'.EofKnown := by
  refine ⟨fun a ha he => ?_, fun hreach => ?_⟩
  · rw [hr] at ha
    rw [hps] at he ⊢
    simp only [] at he ⊢
    split
    · exact eof_in_buf_set _
    · next hne =>
      rcases List.mem_append.1 ha with ha | ha
      · exact h.seen a ha he
      · exact absurd (List.mem_singleton.1 ha ▸ he) hne
  · rw [hps] at hreach ⊢
    simp only [] at hreach ⊢
    split
    · exact eof_in_buf_set _
    · next hne =>
      rw [if_neg hne] at hreach
      exact h.reached hreach

theorem remove_char_nil (h : kb.ring = []) : remove_char kb = none := by
  have hs : kb.size = 0 := by rw [← kb.length_ring, h]; rfl
  rw [remove_char, hs]
  rfl

theorem remove_char_cons {c : Byte} {R : List Byte} (h : kb.ring = c :: R) :
    ∃ kb', remove_char kb = some (c, kb') ∧ kb'.ring = R ∧ kb'.ps = kb.ps ∧ kb'.state = kb.state := by
  have hs : kb.size = R.length + 1 := by rw [← kb.length_ring, h]; rfl
  rw [Kbd.ring, hs, Ring.contents_pop] at h
  obtain ⟨hc, hR⟩ := List.cons.inj h
  refine ⟨{ kb with head := (kb.head + 1) % KEYBOARD_BUF_LEN, size := kb.size - 1 }, ?_, ?_, rfl, rfl⟩
  · rw [remove_char, if_pos (by omega), hc]
  · have hs' : kb.size - 1 = R.length := by omega
    rw [Kbd.ring, hs']
    exact hR

/-! ## An interrupt -/

/-- An interrupt appends the characters it accepts and touches of the driver
state only the status. -/
theorem keyboard_fill_ring (kb : Kbd) (codes : List Byte) :
    (keyboard_fill kb codes).ring = kb.ring ++ accepted kb codes := by
  induction codes generalizing kb with
  | nil => simp [keyboard_fill, accepted]
  | cons code codes ih =>
    unfold keyboard_fill accepted
    set ks := kbtoa kb.state code
    simp only []
    split
    · rcases insert_char_spec { kb with state := ks.2 } (ks.1.setWidth 8) with ⟨kb', h, hr, -, -⟩ | h
      · rw [h]
        simp only [if_pos, ih kb', hr]
        simp [Kbd.ring]
      · rw [h]
        simp [Kbd.ring]
    · rw [ih]
      rfl

theorem keyboard_fill_ps (kb : Kbd) (codes : List Byte) :
    ∃ status, (keyboard_fill kb codes).ps = { kb.ps with status := status } ∧
      status &&& EOF_REACHED = kb.ps.status &&& EOF_REACHED ∧ (kb.EofKnown → (keyboard_fill kb codes).EofKnown) := by
  induction codes generalizing kb with
  | nil => exact ⟨kb.ps.status, rfl, rfl, id⟩
  | cons code codes ih =>
    unfold keyboard_fill
    set ks := kbtoa kb.state code
    simp only []
    split
    · rcases insert_char_spec { kb with state := ks.2 } (ks.1.setWidth 8) with ⟨kb', h, hr, hst, hps⟩ | h
      · rw [h]
        simp only [if_pos]
        obtain ⟨status, h1, h2, h3⟩ := ih kb'
        refine ⟨status, ?_, ?_, fun hk => h3 ?_⟩
        · rw [h1, hps]
        · rw [h2, hps]
          simp only []
          split
          · exact eof_in_buf_reached _
          · rfl
        · have hk' : Kbd.EofKnown { kb with state := ks.2 } := ⟨hk.seen, hk.reached⟩
          exact insert_char_eofKnown hk' hr hps
      · rw [h]
        exact ⟨kb.ps.status, rfl, rfl, fun hk => ⟨hk.seen, hk.reached⟩⟩
    · obtain ⟨status, h1, h2, h3⟩ := ih { kb with state := ks.2 }
      exact ⟨status, h1, h2, fun hk => h3 ⟨hk.seen, hk.reached⟩⟩

end Xeros
