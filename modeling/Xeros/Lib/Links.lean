import Mathlib.Logic.Function.Basic
import Mathlib.Data.List.Basic
import Mathlib.Data.List.Nodup
import Mathlib.Data.Fintype.Card
import Mathlib.Tactic.Common
/-!
# Singly linked lists that share one `next` field

Nodes `ι` carry a single `next` field, so a node is on at most one list; heads
`η` are the places lists start from. A `Link` is such a place: a head, or the
`next` field of a node. That is what a C variable of type `node **` points to,
and a `Store` says what every link holds.

`Chain s l is` says that the list behind `l` is exactly `is`, and `Family s f`
that every head `a` holds the list `f a`, no node being on two lists. Every
edit of a list changes one link of it and the `next` fields of nodes that come
and go; `Family.splice` is the one rule for all of them, and appending,
inserting and removing are its instances.
-/

namespace Links

/-- A place that holds a pointer to a node. -/
inductive Link (η ι : Type) where
  | head (a : η)
  | next (i : ι)
  deriving DecidableEq

/-- What every link holds; `none` is the null pointer. -/
abbrev Store (η ι : Type) := Link η ι → Option ι

variable {η ι : Type} {s s' : Store η ι} {l : Link η ι}

/-- The list behind `l` is `is` and ends in a null pointer. -/
def Chain (s : Store η ι) : Link η ι → List ι → Prop
  | l, [] => s l = none
  | l, i :: is => s l = some i ∧ Chain s (.next i) is

/-- The list behind `l` starts with `is`. -/
def Path (s : Store η ι) : Link η ι → List ι → Prop
  | _, [] => True
  | l, i :: is => s l = some i ∧ Path s (.next i) is

/-- The link a walk over `is` from `l` ends at. -/
def tail : Link η ι → List ι → Link η ι
  | l, [] => l
  | _, i :: is => tail (.next i) is

/-- `while (*l && !p(*l)) l = &(*l)->next`; `none` when the walk outlives its fuel. -/
def walk (s : Store η ι) (p : ι → Bool) : Nat → Link η ι → Option (Link η ι)
  | 0, _ => none
  | n + 1, l =>
    match s l with
    | none => some l
    | some i => if p i then some l else walk s p n (.next i)

/-- The list behind `l`, up to the given length. -/
def collect (s : Store η ι) : Nat → Link η ι → List ι
  | 0, _ => []
  | n + 1, l =>
    match s l with
    | none => []
    | some i => i :: collect s n (.next i)

/-! ## Chains and paths -/

theorem tail_cases (l : Link η ι) (is : List ι) : (is = [] ∧ tail l is = l) ∨ ∃ i ∈ is, tail l is = .next i := by
  induction is generalizing l with
  | nil => exact .inl ⟨rfl, rfl⟩
  | cons i is ih =>
    right
    rcases ih (.next i) with ⟨-, h⟩ | ⟨j, hj, h⟩
    · exact ⟨i, by simp, h⟩
    · exact ⟨j, by simp [hj], h⟩

theorem tail_ne_next {i : ι} {is : List ι} (hl : l ≠ .next i) (hi : i ∉ is) : tail l is ≠ .next i := by
  rcases tail_cases l is with ⟨-, h⟩ | ⟨j, hj, h⟩ <;> rw [h]
  · exact hl
  · rintro ⟨⟩; exact hi hj

theorem tail_append (l : Link η ι) (xs ys : List ι) : tail l (xs ++ ys) = tail (tail l xs) ys := by
  induction xs generalizing l with
  | nil => rfl
  | cons x xs ih => exact ih _

@[simp] theorem tail_concat (l : Link η ι) (xs : List ι) (i : ι) : tail l (xs ++ [i]) = .next i := by
  rw [tail_append]; rfl

theorem tail_head_eq_next {a : η} {is : List ι} {i : ι} : tail (.head a) is = .next i ↔ is.getLast? = some i := by
  rcases List.eq_nil_or_concat is with rfl | ⟨js, j, rfl⟩
  · simp [tail]
  · simp

theorem chain_append {xs ys : List ι} : Chain s l (xs ++ ys) ↔ Path s l xs ∧ Chain s (tail l xs) ys := by
  induction xs generalizing l with
  | nil => simp [Path, tail]
  | cons x xs ih => simp only [List.cons_append, Chain, Path, tail, ih, and_assoc]

theorem Chain.at_tail {is : List ι} (h : Chain s l is) : s (tail l is) = none := by
  rw [← List.append_nil is, chain_append] at h
  exact h.2

theorem Chain.head? {is : List ι} (h : Chain s l is) : s l = is.head? := by
  cases is with
  | nil => exact h
  | cons i is => exact h.1

theorem Chain.congr {is : List ι} (h : Chain s l is) (hl : s' l = s l) (hi : ∀ i ∈ is, s' (.next i) = s (.next i)) :
    Chain s' l is := by
  induction is generalizing l with
  | nil => exact hl.trans h
  | cons i is ih => exact ⟨hl.trans h.1, ih h.2 (hi i (by simp)) fun j hj => hi j (by simp [hj])⟩

/-- Two links that hold the same pointer start the same list. -/
theorem Chain.of_eq {l' : Link η ι} {is : List ι} (h : Chain s l is) (hl : s' l' = s l)
    (hi : ∀ i ∈ is, s' (.next i) = s (.next i)) : Chain s' l' is := by
  cases is with
  | nil => exact hl.trans h
  | cons i is =>
    exact ⟨hl.trans h.1, h.2.congr (hi i (by simp)) fun j hj => hi j (by simp [hj])⟩

/-- A path reads the links before its end, not the link it ends at. -/
theorem Path.congr {is : List ι} (h : Path s l is) (hag : ∀ l', (l' = l ∨ ∃ i ∈ is, l' = .next i) → l' ≠ tail l is →
    s' l' = s l') (hn : is.Nodup) (hl : ∀ i ∈ is, l ≠ .next i) : Path s' l is := by
  induction is generalizing l with
  | nil => trivial
  | cons i is ih =>
    rw [List.nodup_cons] at hn
    have hli : l ≠ tail l (i :: is) := by
      rcases tail_cases (.next i) is with ⟨-, h⟩ | ⟨j, hj, h⟩ <;> rw [tail, h]
      · exact hl i (by simp)
      · exact hl j (by simp [hj])
    refine ⟨(hag l (.inl rfl) hli).trans h.1, ih h.2 (fun l' hl' hne => hag l' (.inr ?_) hne) hn.2 ?_⟩
    · rcases hl' with rfl | ⟨j, hj, rfl⟩
      · exact ⟨i, by simp, rfl⟩
      · exact ⟨j, by simp [hj], rfl⟩
    · rintro j hj ⟨⟩; exact hn.1 hj

/-- A list is determined by the link it starts at. -/
theorem Chain.unique {is js : List ι} (h : Chain s l is) (h' : Chain s l js) : is = js := by
  induction is generalizing l js with
  | nil =>
    cases js with
    | nil => rfl
    | cons j js => rw [Chain] at h; simp [Chain, h] at h'
  | cons i is ih =>
    cases js with
    | nil => rw [Chain] at h'; simp [Chain, h'] at h
    | cons j js =>
      obtain ⟨h1, h2⟩ := h
      obtain ⟨h1', h2'⟩ := h'
      rw [h1, Option.some.injEq] at h1'
      subst h1'
      rw [ih h2 h2']

/-- `*end = i; i->next = NULL` at the end of one list. -/
theorem Chain.append [DecidableEq η] [DecidableEq ι] {a : η} {is : List ι} {i : ι} (h : Chain s (.head a) is)
    (hn : is.Nodup) (hi : i ∉ is) :
    Chain (Function.update (Function.update s (tail (.head a) is) (some i)) (.next i) none) (.head a) (is ++ [i]) := by
  have hne : tail (.head a) is ≠ .next i := tail_ne_next (by simp) hi
  have hp : Path s (.head a) is := by
    rw [← List.append_nil is, chain_append] at h
    exact h.1
  refine chain_append.2 ⟨hp.congr ?_ hn (by simp), ?_, Function.update_self ..⟩
  · intro l' hl' ht
    rw [Function.update_of_ne, Function.update_of_ne ht]
    rintro rfl
    rcases hl' with h | ⟨j, hj, h⟩
    · cases h
    · cases h
      exact hi hj
  · rw [Function.update_of_ne hne, Function.update_self]

theorem Chain.collect {is : List ι} (h : Chain s l is) {n : Nat} (hn : is.length ≤ n) : Links.collect s n l = is := by
  induction is generalizing l n with
  | nil =>
    cases n with
    | zero => rfl
    | succ n =>
      have hs : s l = none := h
      rw [Links.collect, hs]
  | cons i is ih =>
    cases n with
    | zero => cases hn
    | succ n =>
      rw [Links.collect, h.1]
      exact congrArg (i :: ·) (ih h.2 (Nat.le_of_succ_le_succ hn))

/-! ## Walks -/

theorem walk_chain {p : ι → Bool} {is : List ι} (h : Chain s l is) {n : Nat} (hn : is.length < n) :
    walk s p n l = some (tail l (is.takeWhile fun i => !p i)) := by
  induction is generalizing l n with
  | nil =>
    obtain ⟨n, rfl⟩ : ∃ m, n = m + 1 := ⟨n - 1, by simp at hn; omega⟩
    rw [Chain] at h
    simp [walk, h, tail]
  | cons i is ih =>
    simp only [List.length_cons] at hn
    obtain ⟨n, rfl⟩ : ∃ m, n = m + 1 := ⟨n - 1, by omega⟩
    rw [walk, h.1]
    cases hp : p i with
    | true => simp [hp, tail]
    | false => simpa [hp, tail] using ih h.2 (n := n) (by omega)

/-! ## Families of lists -/

/-- Head `a` holds the list `f a`, and no node occurs twice. -/
structure Family (s : Store η ι) (f : η → List ι) : Prop where
  chain : ∀ a, Chain s (.head a) (f a)
  nodup : ∀ a, (f a).Nodup
  disj : ∀ a b i, i ∈ f a → i ∈ f b → a = b

namespace Family
variable {f : η → List ι}

theorem length_le [Fintype ι] (h : Family s f) (a : η) : (f a).length ≤ Fintype.card ι := (h.nodup a).length_le_card

/-- Only the heads and the `next` fields of listed nodes matter. -/
theorem of_eq (h : Family s f) (ha : ∀ a, s' (.head a) = s (.head a)) (hi : ∀ a, ∀ i ∈ f a, s' (.next i) = s (.next i)) :
    Family s' f :=
  ⟨fun a => (h.chain a).congr (ha a) (hi a), h.nodup, h.disj⟩

variable [DecidableEq η]

theorem not_mem_remove (h : Family s f) {a : η} {xs ys : List ι} {i : ι} (hsplit : f a = xs ++ i :: ys) (b : η) :
    i ∉ Function.update f a (xs ++ ys) b := by
  have hnd := h.nodup a
  rw [hsplit] at hnd
  by_cases hb : b = a
  · subst hb
    rw [Function.update_self]
    exact (List.nodup_cons.1 ((List.perm_middle.nodup_iff).1 hnd)).1
  · rw [Function.update_of_ne hb]
    exact fun hi => hb (h.disj b a i hi (by rw [hsplit]; simp))

/-- The one edit rule. List `a` keeps its first part `xs` and goes on with `zs`
instead of `ys`; every link but the one at the end of `xs` is kept, as long as
it is a head or belongs to a node of `xs` or of another list. -/
theorem splice (h : Family s f) {a : η} {xs ys zs : List ι} (hsplit : f a = xs ++ ys)
    (hag : ∀ l, l ≠ tail (.head a) xs → (∀ i, l = .next i → i ∈ xs ∨ ∃ b, b ≠ a ∧ i ∈ f b) → s' l = s l)
    (hz : Chain s' (tail (.head a) xs) zs) (hnd : (xs ++ zs).Nodup)
    (hnew : ∀ i ∈ zs, i ∉ f a → ∀ b, i ∉ f b) :
    Family s' (Function.update f a (xs ++ zs)) := by
  have hnd0 := h.nodup a
  have hc := h.chain a
  rw [hsplit] at hnd0 hc
  have hxs := (List.nodup_append.1 hnd0).1
  -- a node of the new list is on no other list
  have hother : ∀ b i, b ≠ a → i ∈ xs ++ zs → i ∉ f b := by
    intro b i hb hi hib
    by_cases hia : i ∈ f a
    · exact hb (h.disj b a i hib hia)
    · rcases List.mem_append.1 hi with hx | hz
      · exact hia (by rw [hsplit]; exact List.mem_append_left _ hx)
      · exact hnew i hz hia b hib
  refine ⟨fun b => ?_, fun b => ?_, fun b c i => ?_⟩
  · by_cases hb : b = a
    · subst hb
      rw [Function.update_self]
      refine chain_append.2 ⟨(chain_append.1 hc).1.congr (fun l' hl' hne => hag l' hne ?_) hxs (by simp), hz⟩
      rintro i rfl
      rcases hl' with h | ⟨j, hj, h⟩
      · cases h
      · cases h; exact .inl hj
    · rw [Function.update_of_ne hb]
      refine (h.chain b).congr (hag _ ?_ (by simp)) fun i hi => hag _ ?_ ?_
      · rcases tail_cases (.head a) xs with ⟨-, e⟩ | ⟨j, hj, e⟩ <;> rw [e]
        · simpa using hb
        · simp
      · have : i ∉ xs := fun hx => hother b i hb (List.mem_append_left _ hx) hi
        exact (tail_ne_next (by simp) this).symm
      · rintro j ⟨⟩; exact .inr ⟨b, hb, hi⟩
  · by_cases hb : b = a
    · subst hb; rwa [Function.update_self]
    · rw [Function.update_of_ne hb]; exact h.nodup b
  · by_cases hb : b = a <;> by_cases hc : c = a
    · rw [hb, hc]; simp
    · subst hb; rw [Function.update_self, Function.update_of_ne hc]
      exact fun h1 h2 => absurd h2 (hother c i hc h1)
    · subst hc; rw [Function.update_self, Function.update_of_ne hb]
      exact fun h1 h2 => absurd h1 (hother b i hb h2)
    · rw [Function.update_of_ne hb, Function.update_of_ne hc]; exact h.disj b c i

variable [DecidableEq ι]

/-- The `next` field of a node on no list. -/
theorem unlisted (h : Family s f) {i : ι} (hi : ∀ a, i ∉ f a) (v : Option ι) :
    Family (Function.update s (.next i) v) f := by
  refine h.of_eq (fun a => Function.update_of_ne (by simp) ..) fun a j hj => Function.update_of_ne ?_ ..
  rintro ⟨⟩
  exact hi a hj

/-- `*end = i; i->next = NULL` at the end of a list. -/
theorem append (h : Family s f) (a : η) {i : ι} (hi : ∀ b, i ∉ f b) :
    Family (Function.update (Function.update s (tail (.head a) (f a)) (some i)) (.next i) none)
      (Function.update f a (f a ++ [i])) := by
  have hne : tail (.head a) (f a) ≠ .next i := tail_ne_next (by simp) (hi a)
  refine h.splice (List.append_nil _).symm (fun l hl hk => ?_) ?_ ?_ ?_
  · rw [Function.update_of_ne, Function.update_of_ne hl]
    rintro rfl
    rcases hk i rfl with hx | ⟨b, -, hb⟩
    · exact hi a hx
    · exact hi b hb
  · refine ⟨?_, ?_⟩
    · rw [Function.update_of_ne hne, Function.update_self]
    · exact Function.update_self ..
  · exact List.nodup_append.2 ⟨h.nodup a, by simp, fun x hx y hy => by
      rw [List.mem_singleton] at hy; subst hy; rintro rfl; exact hi a hx⟩
  · intro j hj _
    rw [List.mem_singleton] at hj
    exact hj ▸ hi

/-- `*link = i->next` takes `i` out of a list. -/
theorem remove (h : Family s f) {a : η} {xs ys : List ι} {i : ι} (hsplit : f a = xs ++ i :: ys) :
    Family (Function.update s (tail (.head a) xs) (s (.next i))) (Function.update f a (xs ++ ys)) := by
  have hnd := h.nodup a
  have hc := h.chain a
  rw [hsplit] at hnd hc
  have hys : ∀ j ∈ ys, j ∉ xs := fun j hj hx =>
    (List.nodup_append.1 hnd).2.2 j hx j (List.mem_cons_of_mem _ hj) rfl
  refine h.splice hsplit (fun l hl _ => Function.update_of_ne hl ..) ?_ ?_ ?_
  · refine (chain_append.1 hc).2.2.of_eq (Function.update_self ..) fun j hj => Function.update_of_ne ?_ ..
    exact (tail_ne_next (by simp) (hys j hj)).symm
  · exact hnd.sublist (List.Sublist.append_left (List.sublist_cons_self i ys) xs)
  · intro j hj hja
    rw [hsplit] at hja
    exact absurd (by simp [hj]) hja

/-- `i->next = *link; *link = i` puts `i` into a list. -/
theorem insert (h : Family s f) {a : η} {xs ys : List ι} {i : ι} (hsplit : f a = xs ++ ys) (hi : ∀ b, i ∉ f b) :
    Family (Function.update (Function.update s (.next i) (s (tail (.head a) xs))) (tail (.head a) xs) (some i))
      (Function.update f a (xs ++ i :: ys)) := by
  have hnd := h.nodup a
  have hc := h.chain a
  have hia := hi a
  rw [hsplit] at hnd hc hia
  simp only [List.mem_append, not_or] at hia
  have hys : ∀ j ∈ ys, j ∉ xs := fun j hj hx => (List.nodup_append.1 hnd).2.2 j hx j hj rfl
  have hne : tail (.head a) xs ≠ .next i := tail_ne_next (by simp) hia.1
  refine h.splice hsplit (fun l hl hk => ?_) ⟨Function.update_self .., ?_⟩ ?_ ?_
  · rw [Function.update_of_ne hl, Function.update_of_ne]
    rintro rfl
    rcases hk i rfl with hx | ⟨b, -, hb⟩
    · exact hia.1 hx
    · exact hi b hb
  · refine (chain_append.1 hc).2.of_eq ?_ fun j hj => ?_
    · rw [Function.update_of_ne hne.symm, Function.update_self]
    · have hji : (Link.next j : Link η ι) ≠ .next i := by rintro ⟨⟩; exact hia.2 hj
      rw [Function.update_of_ne (tail_ne_next (by simp) (hys j hj)).symm, Function.update_of_ne hji]
  · have : (i :: (xs ++ ys)).Nodup := List.nodup_cons.2 ⟨by simpa [not_or] using hia, hnd⟩
    exact (List.perm_middle.nodup_iff).2 this
  · intro j hj hja
    rcases List.mem_cons.1 hj with rfl | hj
    · exact hi
    · rw [hsplit] at hja; exact absurd (List.mem_append_right _ hj) hja

end Family

end Links
