import Xeros.Procs.Lists
/-!
# Waking processes

`tick` and `cleanup` take processes off the front of a list one after the
other and make each of them ready.
-/

namespace Xeros

open Links Kernel

/-- Field `g` with the value `v` for every process of a list. -/
def setAll {α : Type} (g : Idx → α) (is : List Idx) (v : α) : Idx → α := fun i => if i ∈ is then v else g i

section setAll
variable {α : Type} (g : Idx → α) {i p : Idx} {is : List Idx} (v : α)

@[simp] theorem setAll_nil : setAll g [] v = g := by
  funext i
  simp [setAll]

theorem setAll_cons : setAll (Function.update g p v) is v = setAll g (p :: is) v := by
  funext i
  by_cases hi : i = p
  · subst hi
    simp [setAll]
  · simp [setAll, hi]

theorem setAll_append (is js : List Idx) : setAll (setAll g is v) js v = setAll g (is ++ js) v := by
  funext i
  by_cases hj : i ∈ js <;> simp [setAll, hj]

theorem setAll_mem (hi : i ∈ is) : setAll g is v i = v := if_pos hi

theorem setAll_not_mem (hi : i ∉ is) : setAll g is v i = g i := if_neg hi
end setAll

/-- List `q` keeps `ys`, and `xs` join the ready queue. -/
def wake (f : Queue → List Idx) (q : Queue) (xs ys : List Idx) : Queue → List Idx :=
  Function.update (Function.update f q ys) .ready (f .ready ++ xs)

section wake
variable {f : Queue → List Idx} {q r : Queue} {p : Idx} {xs ys zs : List Idx}

theorem wake_ready : wake f q xs ys .ready = f .ready ++ xs := Function.update_self ..

theorem wake_self (hq : q ≠ .ready) : wake f q xs ys q = ys := by
  rw [wake, Function.update_of_ne hq, Function.update_self]

theorem wake_of_ne (hr : r ≠ .ready) (hq : r ≠ q) : wake f q xs ys r = f r := by
  rw [wake, Function.update_of_ne hr, Function.update_of_ne hq]

theorem wake_nil (h : f q = ys) : wake f q [] ys = f := by
  rw [wake, List.append_nil, ← h, Function.update_eq_self, Function.update_eq_self]

theorem wake_wake (hq : q ≠ .ready) : wake (wake f q [p] ys) q xs zs = wake f q (p :: xs) zs := by
  funext r
  by_cases hr : r = .ready
  · subst hr
    simp only [wake_ready, List.append_assoc, List.singleton_append]
  by_cases hrq : r = q
  · subst hrq
    rw [wake_self hq, wake_self hq]
  · simp only [wake_of_ne hr hrq]

/-- Waking brings no new process onto a list. -/
theorem mem_wake (hf : f q = xs ++ ys) (h : p ∈ wake f q xs ys r) : ∃ r', p ∈ f r' := by
  by_cases hr : r = .ready
  · subst hr
    rw [wake_ready] at h
    rcases List.mem_append.1 h with h | h
    · exact ⟨_, h⟩
    · exact ⟨q, by rw [hf]; exact List.mem_append_left _ h⟩
  by_cases hrq : r = q
  · subst hrq
    rw [wake_self hr] at h
    exact ⟨r, by rw [hf]; exact List.mem_append_right _ h⟩
  · rw [wake_of_ne hr hrq] at h
    exact ⟨r, h⟩

end wake

variable {k : Kernel} {f : Queue → List Idx} {q : Queue} {p : Idx} {is : List Idx}

/-- The first process of a list is unlinked and made ready. -/
theorem ready_head (h : Family k.links f) (hq : q ≠ .ready) (hf : f q = p :: is) {k1 : Kernel}
    (e : k1.links = Function.update k.links (.head q) (k.next p)) :
    ∃ k', ready k1 p = some k' ∧ Family k'.links (wake f q [p] is) := by
  have hsplit : f q = [] ++ p :: is := hf
  have hrem : Family k1.links (Function.update f q is) := e ▸ h.remove hsplit
  obtain ⟨k', hr, -, hf'⟩ := ready_spec hrem (h.not_mem_remove hsplit)
  rw [Function.update_of_ne hq.symm] at hf'
  exact ⟨k', hr, hf'⟩

/-! ## Cleanup -/

/-- Every process of the queue is made ready once, in order. -/
theorem drain_spec (h : Family k.links f) (hq : q ≠ .ready) {n : Nat} (hn : (f q).length < n) :
    ∃ k', drain q n k = some k' ∧ Family k'.links (wake f q (f q) []) ∧
      k' = { k with
        ready_queue := k'.ready_queue
        sleep_list := k'.sleep_list
        senders := k'.senders
        receivers := k'.receivers
        next := k'.next
        irc := setAll k.irc (f q) SYS_SR_NO_PID
        state := setAll k.state (f q) .READY } := by
  generalize hf : f q = is at hn ⊢
  induction is generalizing k f n with
  | nil =>
    obtain ⟨n, rfl⟩ : ∃ m, n = m + 1 := ⟨n - 1, by simp at hn; omega⟩
    have hc := h.chain q
    rw [hf] at hc
    refine ⟨k, drain_nil hc, ?_, ?_⟩
    · rwa [wake_nil hf]
    · rw [setAll_nil, setAll_nil]
  | cons p is ih =>
    simp only [List.length_cons] at hn
    obtain ⟨n, rfl⟩ : ∃ m, n = m + 1 := ⟨n - 1, by omega⟩
    have hc := h.chain q
    rw [hf] at hc
    set ka := k.assign (.head q) (k.next p) with hka
    set k1 : Kernel := { ka with irc := Function.update ka.irc p SYS_SR_NO_PID } with hk1
    have e1 : k1.links = Function.update k.links (.head q) (k.next p) := links_assign k (.head q) (k.next p)
    obtain ⟨k2, hr, hf2⟩ := ready_head h hq hf e1
    obtain ⟨k', hd, hf', e'⟩ := ih hf2 (wake_self hq) (n := n) (by omega)
    have e2 := ready_eq hr
    refine ⟨k', ?_, ?_, ?_⟩
    · rw [drain, hc.1]
      change (ready k1 p).bind (drain q n) = some k'
      rw [hr]
      exact hd
    · rwa [wake_wake hq] at hf'
    · rw [← setAll_cons, ← setAll_cons]
      rw [e', e2, hk1, hka]
      rcases q with _ | _ | q | q <;> rfl

/-! ## The clock -/

/-- The sleepers whose time has come are made ready with return value 0, in
order, up to the first that has time left. -/
theorem tick_loop_spec (h : Family k.links f) {xs ys : List Idx} (hf : f .sleepers = xs ++ ys)
    (hx : ∀ i ∈ xs, k.delta i = 0) (hy : ∀ i ∈ ys.head?, k.delta i ≠ 0) {nullDelta : Word} {n : Nat}
    (hn : xs.length < n) (hend : ys = [] → nullDelta ≠ 0) :
    ∃ k', tick_loop nullDelta n k = some k' ∧ Family k'.links (wake f .sleepers xs ys) ∧
      k' = { k with
        ready_queue := k'.ready_queue
        sleep_list := k'.sleep_list
        next := k'.next
        irc := setAll k.irc xs 0
        state := setAll k.state xs .READY } := by
  induction xs generalizing k f n with
  | nil =>
    obtain ⟨n, rfl⟩ : ∃ m, n = m + 1 := ⟨n - 1, by simp at hn; omega⟩
    have hc := h.chain .sleepers
    rw [hf, List.nil_append] at hc
    refine ⟨k, ?_, ?_, ?_⟩
    · unfold tick_loop
      cases ys with
      | nil =>
        have hs : k.sleep_list = none := hc
        rw [hs]
        exact if_neg (hend rfl)
      | cons y ys =>
        have hs : k.sleep_list = some y := hc.1
        rw [hs]
        exact if_neg (hy y rfl)
    · rwa [wake_nil (by rw [hf, List.nil_append])]
    · rw [setAll_nil, setAll_nil]
  | cons p xs ih =>
    simp only [List.length_cons] at hn
    obtain ⟨n, rfl⟩ : ∃ m, n = m + 1 := ⟨n - 1, by omega⟩
    have hc := h.chain .sleepers
    rw [hf] at hc
    have hs : k.sleep_list = some p := hc.1
    have hq : Queue.sleepers ≠ .ready := by decide
    set k1 : Kernel := { k with irc := Function.update k.irc p 0, sleep_list := k.next p } with hk1
    have e1 : k1.links = Function.update k.links (.head .sleepers) (k.next p) :=
      links_assign k (.head .sleepers) (k.next p)
    obtain ⟨k2, hr, hf2⟩ := ready_head h hq hf e1
    have e2 := ready_eq hr
    have hdelta : k2.delta = k.delta := by rw [e2]
    obtain ⟨k', hd, hf', e'⟩ := ih (n := n) hf2 (wake_self hq)
      (fun i hi => by rw [hdelta]; exact hx i (List.mem_cons_of_mem _ hi)) (fun i hi => by rw [hdelta]; exact hy i hi)
      (by omega)
    refine ⟨k', ?_, ?_, ?_⟩
    · unfold tick_loop
      rw [hs]
      simp only [if_pos (hx p List.mem_cons_self)]
      rw [← hk1, hr]
      exact hd
    · rwa [wake_wake hq] at hf'
    · rw [← setAll_cons, ← setAll_cons]
      rw [e', e2, hk1]

end Xeros
