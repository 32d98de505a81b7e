import Xeros.Procs.Wake
/-!
# Where processes are queued

One `next` field serves every list, so each process has to be on the list its
state calls for and on no other. `Queued` says so for given states, pids and
partners: the pid that a blocked `send` or `recv` was given. The rules of this
module are what moves a process from one place to another.
-/

namespace Xeros

open Links

/-- Process `i` is on list `q` rightly. -/
def Fits (state : Idx → PState) (pid partner : Idx → Word) (i : Idx) : Queue → Prop
  | .ready => state i = .READY
  | .sleepers => state i = .SLEEPING
  | .senders d => state i = .SENDING ∧ state d ≠ .STOPPED ∧ partner i = pid d
  | .receivers d => state i = .RECEIVING ∧ partner i ≠ 0 ∧ state d ≠ .STOPPED ∧ partner i = pid d

/-- The state of the processes on a list. -/
def Queue.state : Queue → PState
  | .ready => .READY
  | .sleepers => .SLEEPING
  | .senders _ => .SENDING
  | .receivers _ => .RECEIVING

/-- The queues of senders and receivers are the same. -/
def SameMessages (f f' : Queue → List Idx) : Prop := ∀ q, q ≠ .ready → q ≠ .sleepers → f' q = f q

namespace SameMessages
variable {f f' f'' : Queue → List Idx}

theorem refl (f : Queue → List Idx) : SameMessages f f := fun _ _ _ => rfl

theorem trans (h : SameMessages f f') (h' : SameMessages f' f'') : SameMessages f f'' :=
  fun q hr hs => (h' q hr hs).trans (h q hr hs)

theorem ready (f : Queue → List Idx) (is : List Idx) : SameMessages f (Function.update f .ready is) :=
  fun _ hr _ => Function.update_of_ne hr ..

theorem sleepers (f : Queue → List Idx) (is : List Idx) : SameMessages f (Function.update f .sleepers is) :=
  fun _ _ hs => Function.update_of_ne hs ..

theorem wake (f : Queue → List Idx) (xs ys : List Idx) : SameMessages f (wake f .sleepers xs ys) :=
  fun _ hr hs => wake_of_ne hr hs

end SameMessages

/-- A process in this state, with this partner, is on some list. -/
def Listed (st : PState) (partner : Word) : Prop :=
  match st with
  | .READY | .SLEEPING | .SENDING => True
  | .RECEIVING => partner ≠ 0
  | _ => False

/-- The lists are `f`, and every process is on the right one. -/
structure Queued (links : Links.Store Queue Idx) (state : Idx → PState) (pid partner : Idx → Word)
    (f : Queue → List Idx) : Prop where
  lists : Family links f
  fits : ∀ q, ∀ i ∈ f q, Fits state pid partner i q
  listed : ∀ i, Listed (state i) (partner i) → ∃ q, i ∈ f q

section Fits
variable {state state' : Idx → PState} {pid pid' partner partner' : Idx → Word} {i : Idx} {q : Queue}

theorem Fits.state_eq (h : Fits state pid partner i q) : q.state = state i := by
  cases q with
  | ready => exact h.symm
  | sleepers => exact h.symm
  | senders d => exact h.1.symm
  | receivers d => exact h.1.symm

theorem Fits.is_listed (h : Fits state pid partner i q) : Listed (state i) (partner i) := by
  rw [← h.state_eq]
  cases q with
  | ready => trivial
  | sleepers => trivial
  | senders d => trivial
  | receivers d => exact h.2.1

theorem Fits.ne_stopped (h : Fits state pid partner i q) : state i ≠ .STOPPED := by
  intro hs
  have hl := h.is_listed
  rw [hs] at hl
  exact hl

/-- Only the process itself and the owner of the list matter. -/
theorem Fits.congr (h : Fits state pid partner i q) (hstate : state' i = state i) (hpartner : partner' i = partner i)
    (howner : ∀ d, q = .senders d ∨ q = .receivers d → state d ≠ .STOPPED → state' d ≠ .STOPPED ∧ pid' d = pid d) :
    Fits state' pid' partner' i q := by
  cases q with
  | ready => exact hstate.trans h
  | sleepers => exact hstate.trans h
  | senders d =>
    obtain ⟨hs, hd, hp⟩ := h
    obtain ⟨hd', hpid⟩ := howner d (.inl rfl) hd
    exact ⟨hstate.trans hs, hd', by rw [hpartner, hpid, hp]⟩
  | receivers d =>
    obtain ⟨hs, h0, hd, hp⟩ := h
    obtain ⟨hd', hpid⟩ := howner d (.inr rfl) hd
    exact ⟨hstate.trans hs, by rwa [hpartner], hd', by rw [hpartner, hpid, hp]⟩

end Fits

namespace Queued
variable {links links' : Links.Store Queue Idx} {state : Idx → PState} {pid partner : Idx → Word}
  {f : Queue → List Idx} {p i : Idx} {q : Queue} {xs ys : List Idx} {st : PState}

/-- A process in a state without a list is on no list. -/
theorem unlisted (h : Queued links state pid partner f) (hp : ¬Listed (state p) (partner p)) (q : Queue) : p ∉ f q :=
  fun hm => hp (h.fits q p hm).is_listed

/-- Nobody waits for a process that is not in use. -/
theorem stopped (h : Queued links state pid partner f) (hp : state p = .STOPPED) :
    f (.senders p) = [] ∧ f (.receivers p) = [] := by
  refine ⟨List.eq_nil_iff_forall_not_mem.2 ?_, List.eq_nil_iff_forall_not_mem.2 ?_⟩
  · intro i hi
    exact (h.fits _ i hi).2.1 hp
  · intro i hi
    exact (h.fits _ i hi).2.2.1 hp

theorem congr (h : Queued links state pid partner f) (hl : Family links' f) : Queued links' state pid partner f :=
  ⟨hl, h.fits, h.listed⟩

/-- A process is taken off its list; it counts as running from then on. -/
theorem take (h : Queued links state pid partner f) (hsplit : f q = xs ++ i :: ys)
    (hl : Family links' (Function.update f q (xs ++ ys))) :
    Queued links' (Function.update state i .RUNNING) pid partner (Function.update f q (xs ++ ys)) := by
  have hi := h.lists.not_mem_remove hsplit
  have hold : ∀ r, ∀ j ∈ Function.update f q (xs ++ ys) r, j ∈ f r := by
    intro r j hj
    by_cases hr : r = q
    · subst hr
      rw [Function.update_self] at hj
      rw [hsplit]
      rcases List.mem_append.1 hj with hj | hj
      · exact List.mem_append_left _ hj
      · exact List.mem_append_right _ (List.mem_cons_of_mem _ hj)
    · rwa [Function.update_of_ne hr] at hj
  refine ⟨hl, ?_, ?_⟩
  · intro r j hj
    have hji : j ≠ i := by
      rintro rfl
      exact hi r hj
    refine (h.fits r j (hold r j hj)).congr (Function.update_of_ne hji ..) rfl ?_
    intro d _ hd
    refine ⟨?_, rfl⟩
    rw [Function.update_apply]
    split
    · simp
    · exact hd
  · intro j hj
    by_cases hji : j = i
    · subst hji
      rw [Function.update_self] at hj
      exact hj.elim
    · rw [Function.update_of_ne hji] at hj
      obtain ⟨r, hr⟩ := h.listed j hj
      refine ⟨r, ?_⟩
      by_cases hrq : r = q
      · subst hrq
        rw [Function.update_self]
        rw [hsplit] at hr
        simpa [hji] using hr
      · rwa [Function.update_of_ne hrq]

/-- A process on no list is put on the list its new state calls for. -/
theorem put (h : Queued links state pid partner f) (hp : ∀ r, p ∉ f r) (hsplit : f q = xs ++ ys)
    (hl : Family links' (Function.update f q (xs ++ p :: ys)))
    (hfit : Fits (Function.update state p st) pid partner p q) :
    Queued links' (Function.update state p st) pid partner (Function.update f q (xs ++ p :: ys)) := by
  have hst : st ≠ .STOPPED := by
    have hne := hfit.ne_stopped
    rwa [Function.update_self] at hne
  have hold : ∀ r j, j ≠ p → (j ∈ Function.update f q (xs ++ p :: ys) r ↔ j ∈ f r) := by
    intro r j hj
    by_cases hr : r = q
    · subst hr
      rw [Function.update_self, hsplit]
      simp [hj]
    · rw [Function.update_of_ne hr]
  refine ⟨hl, ?_, ?_⟩
  · intro r j hj
    by_cases hjp : j = p
    · subst hjp
      have hr : r = q := by
        by_contra hr
        rw [Function.update_of_ne hr] at hj
        exact hp r hj
      exact hr ▸ hfit
    · refine (h.fits r j ((hold r j hjp).1 hj)).congr (Function.update_of_ne hjp ..) rfl ?_
      intro d _ hd
      refine ⟨?_, rfl⟩
      rw [Function.update_apply]
      split
      · exact hst
      · exact hd
  · intro j hj
    by_cases hjp : j = p
    · subst hjp
      exact ⟨q, by simp⟩
    · rw [Function.update_of_ne hjp] at hj
      obtain ⟨r, hr⟩ := h.listed j hj
      exact ⟨r, (hold r j hjp).2 hr⟩

/-- A process on no list changes to a state without one. -/
theorem rest (h : Queued links state pid partner f) (hp : ∀ r, p ∉ f r) (hst : ¬Listed st (partner p))
    (hused : st = .STOPPED → f (.senders p) = [] ∧ f (.receivers p) = []) :
    Queued links (Function.update state p st) pid partner f := by
  have hne : ∀ r, ∀ j ∈ f r, j ≠ p := by
    rintro r j hj rfl
    exact hp r hj
  refine ⟨h.lists, ?_, ?_⟩
  · intro r j hj
    refine (h.fits r j hj).congr (Function.update_of_ne (hne r j hj) ..) rfl ?_
    intro d hr hd
    refine ⟨?_, rfl⟩
    rw [Function.update_apply]
    split
    · next hdp =>
      subst hdp
      intro hs
      obtain ⟨hsend, hrecv⟩ := hused hs
      rcases hr with rfl | rfl
      · rw [hsend] at hj
        cases hj
      · rw [hrecv] at hj
        cases hj
    · exact hd
  · intro j hj
    by_cases hjp : j = p
    · subst hjp
      rw [Function.update_self] at hj
      exact absurd hj hst
    · rw [Function.update_of_ne hjp] at hj
      exact h.listed j hj

/-- The first processes of a list are made ready. -/
theorem woken (h : Queued links state pid partner f) (hq : q ≠ .ready) (hsplit : f q = xs ++ ys)
    (hl : Family links' (wake f q xs ys)) :
    Queued links' (setAll state xs .READY) pid partner (wake f q xs ys) := by
  have hmem : ∀ i ∈ xs, i ∈ f q := by
    intro i hi
    rw [hsplit]
    exact List.mem_append_left _ hi
  have hnd := h.lists.nodup q
  rw [hsplit] at hnd
  have hlive : ∀ d, state d ≠ .STOPPED → setAll state xs .READY d ≠ .STOPPED := by
    intro d hd
    rw [setAll]
    split
    · simp
    · exact hd
  refine ⟨hl, ?_, ?_⟩
  · intro r j hj
    by_cases hjx : j ∈ xs
    · have hready : j ∈ wake f q xs ys .ready := by
        rw [wake_ready]
        exact List.mem_append_right _ hjx
      have hr : r = .ready := hl.disj r .ready j hj hready
      subst hr
      exact setAll_mem state .READY hjx
    · have hjr : j ∈ f r := by
        by_cases hr : r = .ready
        · subst hr
          rw [wake_ready] at hj
          rcases List.mem_append.1 hj with hj | hj
          · exact hj
          · exact absurd hj hjx
        by_cases hrq : r = q
        · subst hrq
          rw [wake_self hr] at hj
          rw [hsplit]
          exact List.mem_append_right _ hj
        · rwa [wake_of_ne hr hrq] at hj
      refine (h.fits r j hjr).congr (setAll_not_mem state .READY hjx) rfl ?_
      intro d _ hd
      exact ⟨hlive d hd, rfl⟩
  · intro j hj
    by_cases hjx : j ∈ xs
    · refine ⟨.ready, ?_⟩
      rw [wake_ready]
      exact List.mem_append_right _ hjx
    · rw [setAll_not_mem state .READY hjx] at hj
      obtain ⟨r, hr⟩ := h.listed j hj
      refine ⟨r, ?_⟩
      by_cases hrr : r = .ready
      · subst hrr
        rw [wake_ready]
        exact List.mem_append_left _ hr
      by_cases hrq : r = q
      · subst hrq
        rw [wake_self hrr]
        rw [hsplit] at hr
        rcases List.mem_append.1 hr with hr | hr
        · exact absurd hr hjx
        · exact hr
      · rwa [wake_of_ne hrr hrq]

/-- A process in a state without a list may get another partner. -/
theorem retarget (h : Queued links state pid partner f) (hp : state p = .RUNNING) (w : Word) :
    Queued links state pid (Function.update partner p w) f := by
  have hun : ∀ r, p ∉ f r := h.unlisted (by rw [hp]; exact id)
  refine ⟨h.lists, ?_, ?_⟩
  · intro r j hj
    have hjp : j ≠ p := by
      rintro rfl
      exact hun r hj
    exact (h.fits r j hj).congr rfl (Function.update_of_ne hjp ..) fun d _ hd => ⟨hd, rfl⟩
  · intro j hj
    by_cases hjp : j = p
    · subst hjp
      rw [hp] at hj
      exact hj.elim
    · rw [Function.update_of_ne hjp] at hj
      exact h.listed j hj

/-- A process that is not in use gets a pid. -/
theorem rename (h : Queued links state pid partner f) (hp : state p = .STOPPED) (w : Word) :
    Queued links state (Function.update pid p w) partner f := by
  refine ⟨h.lists, ?_, h.listed⟩
  intro r j hj
  refine (h.fits r j hj).congr rfl rfl ?_
  intro d _ hd
  have hdp : d ≠ p := by
    rintro rfl
    exact hd hp
  exact ⟨hd, Function.update_of_ne hdp ..⟩

end Queued

end Xeros
