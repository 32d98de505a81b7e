import Mathlib.Data.List.Perm.Basic
import Mathlib.Tactic.Common
/-!
# Spans of addresses

A span is a non-empty interval of natural numbers. `Packed R l` says that the
spans of `l` do not meet and that each lies inside one of the regions `R`. The
rules below are what an allocator does: it cuts a span in two, gives up a part
of one, and joins two neighbours. A join needs regions with a gap between them,
since a span that reached over a border would lie in no region. `Spaced l` says
that the spans are in order and nowhere touch; what they cover then determines
them (`Spaced.unique`).
-/

structure Span where
  lo : Nat
  hi : Nat
  lt : lo < hi

namespace Span

def Apart (s t : Span) : Prop := s.hi ≤ t.lo ∨ t.hi ≤ s.lo

instance (s t : Span) : Decidable (Apart s t) := inferInstanceAs (Decidable (_ ∨ _))

def Within (s t : Span) : Prop := t.lo ≤ s.lo ∧ s.hi ≤ t.hi

/-- The span of two neighbours. -/
def join (s t : Span) (h : s.hi = t.lo) : Span := ⟨s.lo, t.hi, Nat.lt_trans s.lt (h ▸ t.lt)⟩

/-- Any two regions have a gap between them. -/
def Separate (R : List Span) : Prop := ∀ r ∈ R, ∀ r' ∈ R, r = r' ∨ r.hi < r'.lo ∨ r'.hi < r.lo

theorem Apart.symm {s t : Span} (h : Apart s t) : Apart t s := Or.symm h

theorem Apart.within {s s' t : Span} (h : Apart s t) (hs : Within s' s) : Apart s' t := by
  simp only [Apart, Within] at h hs ⊢
  omega

theorem Apart.join {s t u : Span} {e : s.hi = t.lo} (h : Apart s u) (h' : Apart t u) : Apart (s.join t e) u := by
  have := u.lt
  simp only [Apart, Span.join] at h h' ⊢
  omega

theorem Within.trans {s t u : Span} (h : Within s t) (h' : Within t u) : Within s u :=
  ⟨Nat.le_trans h'.1 h.1, Nat.le_trans h.2 h'.2⟩

/-- Spans that do not meet, each inside one of the regions. -/
structure Packed (R l : List Span) : Prop where
  apart : l.Pairwise Apart
  within : ∀ s ∈ l, ∃ r ∈ R, Within s r

namespace Packed
variable {R l l' : List Span} {s t u : Span}

theorem perm (h : Packed R l) (hp : l.Perm l') : Packed R l' :=
  ⟨h.apart.perm hp Apart.symm, fun s hs => h.within s (hp.mem_iff.2 hs)⟩

theorem of_cons (h : Packed R (s :: l)) : Packed R l :=
  ⟨(List.pairwise_cons.1 h.apart).2, fun t ht => h.within t (by simp [ht])⟩

theorem head_apart (h : Packed R (s :: l)) : ∀ t ∈ l, Apart s t := (List.pairwise_cons.1 h.apart).1

theorem cons (h : Packed R l) (hs : ∀ t ∈ l, Apart s t) (hw : ∃ r ∈ R, Within s r) : Packed R (s :: l) :=
  ⟨List.pairwise_cons.2 ⟨hs, h.apart⟩, List.forall_mem_cons.2 ⟨hw, h.within⟩⟩

/-- A span may give up a part. -/
theorem shrink (h : Packed R (s :: l)) (ht : Within t s) : Packed R (t :: l) := by
  obtain ⟨r, hr, hw⟩ := h.within s (by simp)
  exact h.of_cons.cons (fun x hx => (h.head_apart x hx).within ht) ⟨r, hr, ht.trans hw⟩

/-- A span may be cut in two. -/
theorem split (h : Packed R (s :: l)) (ht : Within t s) (hu : Within u s) (htu : Apart t u) :
    Packed R (t :: u :: l) := by
  obtain ⟨r, hr, hw⟩ := h.within s (by simp)
  refine (h.shrink hu).cons (fun x hx => ?_) ⟨r, hr, ht.trans hw⟩
  rcases List.mem_cons.1 hx with rfl | hx
  · exact htu
  · exact (h.head_apart x hx).within ht

/-- Neighbours may be joined. -/
theorem merge (h : Packed R (s :: t :: l)) (hR : Separate R) (e : s.hi = t.lo) : Packed R (s.join t e :: l) := by
  obtain ⟨r, hr, hs⟩ := h.within s (by simp)
  obtain ⟨r', hr', ht⟩ := h.within t (by simp)
  -- two regions that touch are the same one
  have hrr : r = r' := by
    have := s.lt
    have := t.lt
    simp only [Within] at hs ht
    rcases hR r hr r' hr' with h | h
    · exact h
    · omega
  subst hrr
  refine h.of_cons.of_cons.cons (fun x hx => ?_) ⟨r, hr, hs.1, ht.2⟩
  exact (h.head_apart x (by simp [hx])).join (h.of_cons.head_apart x hx)

end Packed

/-! ## Spans in order -/

/-- In order, with a gap between any two. -/
def Spaced (l : List Span) : Prop := l.Pairwise fun s t => s.hi < t.lo

instance (l : List Span) : Decidable (Spaced l) := inferInstanceAs (Decidable (l.Pairwise _))

/-- `x` lies in one of the spans. -/
def Covers (l : List Span) (x : Nat) : Prop := ∃ s ∈ l, s.lo ≤ x ∧ x < s.hi

theorem covers_append {l l' : List Span} {x : Nat} : Covers (l ++ l') x ↔ Covers l x ∨ Covers l' x := by
  simp only [Covers, List.mem_append, or_and_right, exists_or]

theorem covers_cons {s : Span} {l : List Span} {x : Nat} : Covers (s :: l) x ↔ s.lo ≤ x ∧ x < s.hi ∨ Covers l x := by
  simp only [Covers, List.mem_cons, or_and_right, exists_or, exists_eq_left]

theorem not_covers_nil (x : Nat) : ¬Covers [] x := by
  rintro ⟨s, hs, -⟩
  cases hs

theorem covers_join {s t : Span} {e : s.hi = t.lo} {x : Nat} :
    (s.join t e).lo ≤ x ∧ x < (s.join t e).hi ↔ s.lo ≤ x ∧ x < s.hi ∨ t.lo ≤ x ∧ x < t.hi := by
  have := s.lt
  have := t.lt
  simp only [Span.join]
  omega

/-- Spans that share no number with any of `l`. -/
theorem apart_of_not_covers {s : Span} {l : List Span} (h : ∀ x, s.lo ≤ x → x < s.hi → ¬Covers l x) :
    ∀ t ∈ l, Apart s t := by
  intro t ht
  have hs := s.lt
  have htt := t.lt
  by_contra hno
  simp only [Apart, not_or, Nat.not_le] at hno
  refine h (max s.lo t.lo) (by omega) (by omega) ⟨t, ht, by omega, by omega⟩

theorem not_covers_of_apart {s : Span} {l : List Span} (h : ∀ t ∈ l, Apart s t) {x : Nat} (hlo : s.lo ≤ x)
    (hhi : x < s.hi) : ¬Covers l x := by
  rintro ⟨t, ht, h1, h2⟩
  have hap := h t ht
  simp only [Apart] at hap
  omega

namespace Spaced
variable {l l' xs ys : List Span} {s t : Span}

theorem apart (h : Spaced l) : l.Pairwise Apart := h.imp fun hlt => .inl (Nat.le_of_lt hlt)

theorem of_append (h : Spaced (xs ++ s :: ys)) :
    Spaced xs ∧ Spaced ys ∧ (∀ x ∈ xs, x.hi < s.lo) ∧ (∀ y ∈ ys, s.hi < y.lo) ∧ ∀ x ∈ xs, ∀ y ∈ ys, x.hi < y.lo := by
  obtain ⟨hx, hsy, hxs⟩ := List.pairwise_append.1 h
  obtain ⟨hs, hy⟩ := List.pairwise_cons.1 hsy
  exact ⟨hx, hy, fun x hx' => hxs x hx' s (by simp), hs, fun x hx' y hy' => hxs x hx' y (by simp [hy'])⟩

/-- A span meets no other one. -/
theorem others_apart (h : Spaced (xs ++ s :: ys)) : ∀ t ∈ xs ++ ys, Apart s t := by
  obtain ⟨-, -, hxs, hys, -⟩ := h.of_append
  intro t ht
  rcases List.mem_append.1 ht with ht | ht
  · exact .inr (Nat.le_of_lt (hxs t ht))
  · exact .inl (Nat.le_of_lt (hys t ht))

theorem around (hx : Spaced xs) (hy : Spaced ys) (hxs : ∀ x ∈ xs, x.hi < s.lo) (hys : ∀ y ∈ ys, s.hi < y.lo) :
    Spaced (xs ++ s :: ys) := by
  refine List.pairwise_append.2 ⟨hx, List.pairwise_cons.2 ⟨hys, hy⟩, fun x hx' y hy' => ?_⟩
  rcases List.mem_cons.1 hy' with rfl | hy'
  · exact hxs x hx'
  · exact Nat.lt_trans (hxs x hx') (Nat.lt_trans s.lt (hys y hy'))

/-- A span may give up a part. -/
theorem shrink (h : Spaced (xs ++ s :: ys)) (ht : Within t s) : Spaced (xs ++ t :: ys) := by
  obtain ⟨hx, hy, hxs, hys, -⟩ := h.of_append
  exact around hx hy (fun x hx' => Nat.lt_of_lt_of_le (hxs x hx') ht.1)
    fun y hy' => Nat.lt_of_le_of_lt ht.2 (hys y hy')

/-- The numbers covered determine the spans. -/
theorem unique (h : Spaced l) (h' : Spaced l') (hc : ∀ x, Covers l x ↔ Covers l' x) : l = l' := by
  induction l generalizing l' with
  | nil =>
    cases l' with
    | nil => rfl
    | cons t l' => exact absurd ((hc t.lo).2 ⟨t, by simp, Nat.le_refl _, t.lt⟩) (not_covers_nil _)
  | cons s l ih =>
    cases l' with
    | nil => exact absurd ((hc s.lo).1 ⟨s, by simp, Nat.le_refl _, s.lt⟩) (not_covers_nil _)
    | cons t l' =>
      obtain ⟨hs, hl⟩ := List.pairwise_cons.1 h
      obtain ⟨ht, hl'⟩ := List.pairwise_cons.1 h'
      have hst := s.lt
      have htt := t.lt
      have hrest : ∀ {x}, Covers l x → s.hi < x := fun ⟨u, hu, hlo, _⟩ => Nat.lt_of_lt_of_le (hs u hu) hlo
      have hrest' : ∀ {x}, Covers l' x → t.hi < x := fun ⟨u, hu, hlo, _⟩ => Nat.lt_of_lt_of_le (ht u hu) hlo
      simp only [covers_cons] at hc
      -- both lists begin at the least number covered, and the first gap ends both first spans
      have hlo : s.lo = t.lo := by
        have h1 := (hc s.lo).1 (.inl ⟨Nat.le_refl _, hst⟩)
        have h2 := (hc t.lo).2 (.inl ⟨Nat.le_refl _, htt⟩)
        rcases h1 with h1 | h1 <;> rcases h2 with h2 | h2
        · omega
        · have := hrest h2
          omega
        · have := hrest' h1
          omega
        · have := hrest h2
          have := hrest' h1
          omega
      have hhi : s.hi = t.hi := by
        rcases Nat.lt_trichotomy s.hi t.hi with hlt | e | hlt
        · rcases (hc s.hi).2 (.inl ⟨by omega, hlt⟩) with h1 | h1
          · omega
          · exact absurd (hrest h1) (Nat.lt_irrefl _)
        · exact e
        · rcases (hc t.hi).1 (.inl ⟨by omega, hlt⟩) with h1 | h1
          · omega
          · exact absurd (hrest' h1) (Nat.lt_irrefl _)
      obtain rfl : s = t := by
        cases s
        cases t
        simp only at hlo hhi
        subst hlo hhi
        rfl
      rw [ih hl hl' fun x => ⟨fun hx => ?_, fun hx => ?_⟩]
      · rcases (hc x).1 (.inr hx) with h1 | h1
        · have := hrest hx
          omega
        · exact h1
      · rcases (hc x).2 (.inr hx) with h1 | h1
        · have := hrest' hx
          omega
        · exact h1

end Spaced

end Span
