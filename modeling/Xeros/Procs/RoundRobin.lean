import Xeros.Procs.Frames
import Xeros.Model.Syscall
import Xeros.Lib.Runs
import Mathlib.Data.List.TakeWhile
/-!
# Round-robin scheduling

The dispatcher selects the first ready process, and the idle process only when
no other is ready. Between two selections processes are made ready, and other
code runs that leaves the ready queue alone. While a process waits in the queue
no other is selected twice, since a process that has been selected comes back
behind it (`round_robin`).
-/

namespace Xeros

open Links Runs

/-! ## The ready queue -/

def readyQueue (k : Kernel) : List Idx := collect k.links MAX_NUM_PROCESS (.head .ready)

/-- The ready queue ends and holds nobody twice. -/
structure ReadyList (k : Kernel) : Prop where
  chain : Chain k.links (.head .ready) (readyQueue k)
  nodup : (readyQueue k).Nodup

theorem length_le_processes {is : List Idx} (hn : is.Nodup) : is.length ≤ MAX_NUM_PROCESS := by
  have hl := hn.length_le_card
  rwa [Fintype.card_fin] at hl

section
variable {k k' : Kernel}

theorem ReadyList.of_chain {is : List Idx} (hc : Chain k.links (.head .ready) is) (hn : is.Nodup) :
    ReadyList k ∧ readyQueue k = is := by
  have e : readyQueue k = is := hc.collect (length_le_processes hn)
  refine ⟨⟨?_, ?_⟩, e⟩
  · rwa [e]
  · rwa [e]

theorem ReadyList.ready {p : Idx} (h : ReadyList k) (hp : p ∉ readyQueue k) : ∃ k', Xeros.ready k p = some k' ∧
    ReadyList k' ∧ readyQueue k' = readyQueue k ++ [p] ∧ k'.idle = k.idle := by
  have hw := walk_chain (p := fun _ => false) h.chain (Nat.lt_succ_of_le (length_le_processes h.nodup))
  rw [List.takeWhile_eq_self_iff.2 (by simp)] at hw
  have hlinks (k' : Kernel) (st : Idx → PState) :
      ({ k' with next := Function.update k'.next p none, state := st } : Kernel).links =
        Function.update k'.links (.next p) none := Kernel.links_assign k' (.next p) none
  obtain ⟨k', hr⟩ : ∃ k', Xeros.ready k p = some k' := by
    unfold Xeros.ready
    rw [show walk k.links (fun _ => false) QUEUE_FUEL (.head .ready) = _ from hw]
    exact ⟨_, rfl⟩
  have hk := hr
  unfold Xeros.ready at hk
  rw [show walk k.links (fun _ => false) QUEUE_FUEL (.head .ready) = _ from hw] at hk
  have hl : k'.links =
      Function.update (Function.update k.links (tail (.head .ready) (readyQueue k)) (some p)) (.next p) none := by
    rw [← Option.some.inj hk, hlinks, Kernel.links_assign]
  have hc := h.chain.append h.nodup hp
  rw [← hl] at hc
  obtain ⟨h', e⟩ := ReadyList.of_chain hc (List.nodup_append.2 ⟨h.nodup, List.nodup_singleton p, by
    rintro i hi j hj rfl
    exact hp (List.mem_singleton.1 hj ▸ hi)⟩)
  refine ⟨k', hr, h', e, ?_⟩
  rw [ready_eq hr]

theorem ReadyList.next_nil (h : ReadyList k) (he : readyQueue k = []) : next k = (none, k) := by
  have hc := h.chain
  rw [he] at hc
  have hr : k.ready_queue = none := hc
  rw [next, hr]

theorem ReadyList.next_cons {p : Idx} {is : List Idx} (h : ReadyList k) (he : readyQueue k = p :: is) :
    ∃ k', next k = (some p, k') ∧ ReadyList k' ∧ readyQueue k' = is ∧ k'.idle = k.idle := by
  have hc := h.chain
  have hn := h.nodup
  rw [he] at hc hn
  obtain ⟨hp, hn⟩ := List.nodup_cons.1 hn
  have hr : k.ready_queue = some p := hc.1
  set k1 : Kernel := { k with ready_queue := k.next p, next := Function.update k.next p none } with hk1
  have hc1 : Chain k1.links (.head .ready) is := by
    refine hc.2.of_eq rfl ?_
    intro i hi
    have hip : i ≠ p := by
      rintro rfl
      exact hp hi
    exact Function.update_of_ne hip ..
  obtain ⟨h1, e⟩ := ReadyList.of_chain hc1 hn
  exact ⟨k1, by rw [next, hr], h1, e, rfl⟩

/-- A kernel with the same ready queue. -/
theorem ReadyList.congr (h : ReadyList k) (hr : k'.ready_queue = k.ready_queue)
    (hn : ∀ i ∈ readyQueue k, k'.next i = k.next i) : ReadyList k' ∧ readyQueue k' = readyQueue k :=
  ReadyList.of_chain (h.chain.congr hr hn) h.nodup

/-! ## Selections -/

/-- What `select` does with a ready queue. -/
inductive Selects (k k' : Kernel) : Option Idx → Prop
  | empty : readyQueue k = [] → readyQueue k' = [] → Selects k k' none
  /-- The first process. -/
  | first (p : Idx) (is : List Idx) : readyQueue k = p :: is → k.idle ≠ some p → readyQueue k' = is → Selects k k' (some p)
  /-- The idle process, which is alone. -/
  | idle (i : Idx) : k.idle = some i → readyQueue k = [i] → readyQueue k' = [] → Selects k k' (some i)
  /-- The idle process is first and goes to the end. -/
  | skip (i p : Idx) (is : List Idx) : k.idle = some i → readyQueue k = i :: p :: is → readyQueue k' = is ++ [i] →
    Selects k k' (some p)

theorem ReadyList.select (h : ReadyList k) :
    ∃ k' r, Xeros.select k = some (k', r) ∧ ReadyList k' ∧ k'.idle = k.idle ∧ Selects k k' r := by
  cases he : readyQueue k with
  | nil =>
    exact ⟨k, none, select_none (h.next_nil he), h, rfl, .empty he he⟩
  | cons p is =>
    obtain ⟨k1, hn1, h1, e1, hidle1⟩ := h.next_cons he
    by_cases hidle : k1.idle = some p
    · have hp : k.idle = some p := hidle1.symm.trans hidle
      cases is with
      | nil => exact ⟨k1, some p, select_idle hn1 hidle (h1.next_nil e1), h1, hidle1, .idle p hp he e1⟩
      | cons q is =>
        obtain ⟨k2, hn2, h2, e2, hidle2⟩ := h1.next_cons e1
        have hnot : p ∉ readyQueue k2 := by
          have hn := h.nodup
          rw [he] at hn
          rw [e2]
          exact fun hm => (List.nodup_cons.1 hn).1 (List.mem_cons_of_mem _ hm)
        obtain ⟨k3, hr, h3, e3, hidle3⟩ := h2.ready hnot
        refine ⟨k3, some q, ?_, h3, hidle3.trans (hidle2.trans hidle1), .skip p q is hp he (by rw [e3, e2])⟩
        rw [select_skip hn1 hidle hn2 (hidle2.trans hidle), hr]
        rfl
    · exact ⟨k1, some p, select_first hn1 hidle, h1, hidle1, .first p is he (hidle1 ▸ hidle) e1⟩

end

/-! ## The schedule -/

/-- The kernel, and the processes that have been selected, the last one first. -/
structure SchedSys where
  kernel : Kernel
  selected : List Idx

inductive SchedEvent where
  /-- The end of the loop body of `dispatch`. -/
  | select
  | ready (p : Idx)
  /-- Other code changes the kernel. -/
  | other (k : Kernel)

def schedStep : SchedEvent → SchedSys → Option SchedSys
  | .select, s => do
    let (k, p) ← select s.kernel
    some ⟨k, p.toList ++ s.selected⟩
  | .ready p, s => do
    let k ← ready s.kernel p
    some { s with kernel := k }
  | .other k, s => some { s with kernel := k }

def SchedInit (s : SchedSys) : Prop := ReadyList s.kernel ∧ s.selected = []

/-- Only processes that are not in the ready queue are made ready, and other
code leaves the queue alone. -/
def KeepsQueue (s : SchedSys) : SchedEvent → Prop
  | .select => True
  | .ready p => p ∉ readyQueue s.kernel
  | .other k => k.ready_queue = s.kernel.ready_queue ∧ k.idle = s.kernel.idle ∧
    ∀ i ∈ readyQueue s.kernel, k.next i = s.kernel.next i

instance (s : SchedSys) : DecidablePred (KeepsQueue s)
  | .select => inferInstanceAs (Decidable True)
  | .ready p => inferInstanceAs (Decidable (p ∉ readyQueue s.kernel))
  | .other _ => inferInstanceAs (Decidable (_ ∧ _ ∧ _))

/-- The processes of a list other than the idle process. -/
def withoutIdle (k : Kernel) (is : List Idx) : List Idx := is.filter fun i => k.idle ≠ some i

structure RoundRobin (s : SchedSys) : Prop where
  /-- Nobody is queued twice. -/
  once : (readyQueue s.kernel).Nodup
  /-- Somebody is selected unless nobody is ready. -/
  selects : ∃ k' r, select s.kernel = some (k', r) ∧ (r = none → readyQueue s.kernel = [])
  /-- While `w` waits, whatever happens, no other process is selected twice and
  the idle process is not selected. -/
  waits : ∀ w ∈ readyQueue s.kernel, s.kernel.idle ≠ some w →
    ∀ s', Reach schedStep (· = { s with selected := [] }) KeepsQueue s' → w ∉ s'.selected →
      w ∈ readyQueue s'.kernel ∧ (∀ q, s'.selected.count q ≤ 1) ∧ ∀ i, s.kernel.idle = some i → i ∉ s'.selected
  /-- The idle process is selected only when no other is ready. -/
  idle_last : ∀ i k', s.kernel.idle = some i → select s.kernel = some (k', some i) → readyQueue s.kernel = [i]
  /-- A selection takes the first of the others, and the rest of them stay in order. -/
  order : ∀ k' r, select s.kernel = some (k', r) →
    withoutIdle s.kernel (readyQueue s.kernel) =
      withoutIdle s.kernel r.toList ++ withoutIdle s.kernel (readyQueue k')

/-- The end of a turn of the dispatcher is a part of a schedule. -/
theorem dispatch_next_schedule {im : Image} {k : Kernel} {tr : Option Idx} {s : Sys} (h : dispatch_next im k tr = some s) :
    exec schedStep (fun _ _ => true) (tr.toList.map .ready ++ [.select, .other s.kernel]) ⟨k, []⟩ =
      some ⟨s.kernel, s.cur.toList⟩ := by
  obtain ⟨k1, k2, r, hk1, hsel, hend⟩ := dispatch_next_cases h
  have hrest : exec schedStep (fun _ _ => true) [.select, .other s.kernel] ⟨k1, []⟩ = some ⟨s.kernel, r.toList⟩ := by
    simp only [exec, schedStep, hsel]
    cases r <;> rfl
  have hcur : s.cur = r := by
    rcases hend with ⟨rfl, rfl⟩ | ⟨p, rfl, rfl⟩
    · rfl
    · rfl
  rw [hcur, ← hrest]
  rcases hk1 with ⟨rfl, rfl⟩ | ⟨p, rfl, hr⟩
  · rfl
  · simp only [Option.toList_some, List.map_cons, List.map_nil, List.singleton_append]
    rw [exec]
    simp only [schedStep, hr]
    rfl

/-! ## What is kept -/

variable {s s' : SchedSys} {e : SchedEvent} {w : Idx}

theorem ReadyList.step (h : ReadyList s.kernel) (hok : KeepsQueue s e) (ht : schedStep e s = some s') :
    ReadyList s'.kernel := by
  cases e with
  | select =>
    obtain ⟨k', r, hsel, h', -⟩ := h.select
    obtain ⟨⟨k1, r1⟩, hsel1, ht⟩ := Option.bind_eq_some_iff.1 ht
    cases Option.some.inj (hsel.symm.trans hsel1)
    cases ht
    exact h'
  | ready p =>
    obtain ⟨k', hr, h', -⟩ := h.ready hok
    obtain ⟨k1, hr1, ht⟩ := Option.bind_eq_some_iff.1 ht
    cases Option.some.inj (hr.symm.trans hr1)
    cases ht
    exact h'
  | other k =>
    cases ht
    exact (h.congr hok.1 hok.2.2).1

/-- `w` has waited in the queue for all this time: those that have been selected
are not in front of it. -/
structure Waiting (w : Idx) (idle : Option Idx) (s : SchedSys) : Prop where
  list : ReadyList s.kernel
  same : s.kernel.idle = idle
  queued : ∃ is js, readyQueue s.kernel = is ++ w :: js ∧ ∀ q ∈ s.selected, q ∉ is
  once : s.selected.Nodup
  rests : ∀ i, idle = some i → i ∉ s.selected

theorem Waiting.select {idle : Option Idx} (h : Waiting w idle s) (hw : idle ≠ some w)
    (ht : schedStep .select s = some s') : w ∈ s'.selected ∨ Waiting w idle s' := by
  obtain ⟨k', r, hsel, hlist, hidle, hcases⟩ := h.list.select
  obtain ⟨⟨k1, r1⟩, hsel1, ht⟩ := Option.bind_eq_some_iff.1 ht
  cases Option.some.inj (hsel.symm.trans hsel1)
  cases ht
  obtain ⟨is, js, hq, hfront⟩ := h.queued
  have hn := h.list.nodup
  have hidle' : k'.idle = idle := hidle.trans h.same
  rw [← h.same] at hw
  cases hcases with
  | empty he _ =>
    rw [he] at hq
    simp at hq
  | idle i hi he _ =>
    -- the idle process is alone, but `w` is in the queue
    rw [he] at hq
    have hmem : w ∈ [i] := by
      rw [hq]
      simp
    rw [List.mem_singleton.1 hmem, hi] at hw
    exact absurd rfl hw
  | first p is' he hp he' =>
    cases is with
    | nil =>
      left
      rw [he] at hq
      cases hq
      exact List.mem_cons_self
    | cons i is =>
      right
      rw [he] at hq
      cases hq
      rw [he] at hn
      have hpn := (List.nodup_cons.1 hn).1
      refine ⟨hlist, hidle', ⟨is, js, he', ?_⟩, List.nodup_cons.2 ⟨?_, h.once⟩, ?_⟩
      · intro q hmem hqi
        rcases List.mem_cons.1 hmem with rfl | hmem
        · exact hpn (List.mem_append_left _ hqi)
        · exact hfront q hmem (List.mem_cons_of_mem _ hqi)
      · exact fun hmem => hfront p hmem List.mem_cons_self
      · intro i hi hmem
        rcases List.mem_cons.1 hmem with rfl | hmem
        · exact hp (h.same.trans hi)
        · exact h.rests i hi hmem
  | skip i p is' hi he he' =>
    rw [he] at hq hn
    obtain ⟨hin, hn'⟩ := List.nodup_cons.1 hn
    cases is with
    | nil =>
      cases hq
      exact absurd hi hw
    | cons i' is =>
      obtain ⟨rfl, htail⟩ := List.cons.inj hq
      cases is with
      | nil =>
        left
        obtain ⟨rfl, -⟩ := List.cons.inj htail
        exact List.mem_cons_self
      | cons p' is =>
        right
        obtain ⟨rfl, rfl⟩ := List.cons.inj htail
        have hpn := (List.nodup_cons.1 hn').1
        refine ⟨hlist, hidle', ⟨is, js ++ [i], ?_, ?_⟩, List.nodup_cons.2 ⟨?_, h.once⟩, ?_⟩
        · rw [he']
          exact List.append_assoc is (w :: js) [i]
        · intro q hmem hqi
          rcases List.mem_cons.1 hmem with rfl | hmem
          · exact hpn (List.mem_append_left _ hqi)
          · exact hfront q hmem (List.mem_cons_of_mem _ (List.mem_cons_of_mem _ hqi))
        · exact fun hmem => hfront p hmem (List.mem_cons_of_mem _ List.mem_cons_self)
        · intro i1 hi1 hmem
          rcases List.mem_cons.1 hmem with rfl | hmem
          · have e : i = i1 := Option.some.inj (hi.symm.trans (h.same.trans hi1))
            exact hin (e ▸ List.mem_cons_self)
          · exact h.rests i1 hi1 hmem

theorem Waiting.step {idle : Option Idx} (h : Waiting w idle s) (hw : idle ≠ some w) (hok : KeepsQueue s e)
    (ht : schedStep e s = some s') : w ∈ s'.selected ∨ Waiting w idle s' := by
  cases e with
  | select => exact h.select hw ht
  | ready p =>
    right
    obtain ⟨k', hr, h', hq', hidle⟩ := h.list.ready hok
    obtain ⟨k1, hr1, ht⟩ := Option.bind_eq_some_iff.1 ht
    cases Option.some.inj (hr.symm.trans hr1)
    cases ht
    obtain ⟨is, js, hq, hfront⟩ := h.queued
    refine ⟨h', hidle.trans h.same, ⟨is, js ++ [p], ?_, hfront⟩, h.once, h.rests⟩
    rw [hq', hq, List.append_assoc]
    rfl
  | other k =>
    right
    cases ht
    obtain ⟨h', hq'⟩ := h.list.congr hok.1 hok.2.2
    obtain ⟨is, js, hq, hfront⟩ := h.queued
    exact ⟨h', hok.2.1.trans h.same, ⟨is, js, hq'.trans hq, hfront⟩, h.once, h.rests⟩

/-- Who has been selected stays so. -/
theorem selected_mono (ht : schedStep e s = some s') (hw : w ∈ s.selected) : w ∈ s'.selected := by
  cases e with
  | select =>
    obtain ⟨⟨k1, r⟩, -, ht⟩ := Option.bind_eq_some_iff.1 ht
    cases ht
    exact List.mem_append_right _ hw
  | ready p =>
    obtain ⟨k1, -, ht⟩ := Option.bind_eq_some_iff.1 ht
    cases ht
    exact hw
  | other k =>
    cases ht
    exact hw

/-! ## Result -/

theorem ReadyList.round_robin_at (h : ReadyList s.kernel) : RoundRobin s := by
  obtain ⟨k', r, hsel, h', hidle, hcases⟩ := h.select
  refine ⟨h.nodup, ⟨k', r, hsel, ?_⟩, ?_, ?_, ?_⟩
  · rintro rfl
    cases hcases with
    | empty he _ => exact he
  · intro w hw hidle s' hs hnot
    have hinv : w ∈ s'.selected ∨ Waiting w s.kernel.idle s' := by
      refine hs.inv (fun s' => w ∈ s'.selected ∨ Waiting w s.kernel.idle s') ?_ ?_
      · rintro s0 rfl
        obtain ⟨is, js, hq⟩ := List.append_of_mem hw
        refine .inr ⟨h, rfl, ⟨is, js, hq, fun q hq => ?_⟩, List.nodup_nil, fun i _ hi => ?_⟩
        · cases hq
        · cases hi
      · rintro s1 e s2 (hw1 | hw1) hok ht
        · exact .inl (selected_mono ht hw1)
        · exact hw1.step hidle hok ht
    have hwait := hinv.resolve_left hnot
    obtain ⟨is, js, hq, -⟩ := hwait.queued
    refine ⟨?_, fun q => List.nodup_iff_count_le_one.1 hwait.once q, hwait.rests⟩
    rw [hq]
    simp
  · intro i k1 hi hsel1
    cases Option.some.inj (hsel.symm.trans hsel1)
    cases hcases with
    | first p is he hp he' => exact absurd hi hp
    | idle i he he' => exact he'
    | skip i1 p is hi1 he he' =>
      have hn := h.nodup
      rw [he] at hn
      have e : i1 = i := Option.some.inj (hi1.symm.trans hi)
      subst e
      exact absurd List.mem_cons_self (List.nodup_cons.1 hn).1
  · intro k1 r1 hsel1
    cases Option.some.inj (hsel.symm.trans hsel1)
    cases hcases with
    | empty he he' => rw [he, he']; rfl
    | first p is he hp he' => rw [he, he']; simp [withoutIdle, hp]
    | idle i hi he he' => rw [he, he']; simp [withoutIdle]
    | skip i p is hi he he' =>
      have hn := h.nodup
      rw [he] at hn
      have hne : ¬i = p := fun e => (List.nodup_cons.1 hn).1 (e ▸ List.mem_cons_self)
      rw [he, he']
      simp [withoutIdle, hi, hne]

/-- Scheduling is round-robin in every run. -/
theorem round_robin (hs : Reach schedStep SchedInit KeepsQueue s) : RoundRobin s := by
  have h : ReadyList s.kernel := hs.inv (fun s => ReadyList s.kernel) (fun _ h => h.1) fun _ _ _ h hok ht => h.step hok ht
  exact h.round_robin_at

/-- Process 0 is the idle process. -/
def schedBoot : SchedSys := ⟨{ init sampleImage (fun _ => 0) with idle := some 0 }, []⟩

theorem round_robin_3_processes : ∃ s, Reach schedStep SchedInit KeepsQueue s ∧
    (readyQueue s.kernel = [2, 0, 1] ∧ s.selected = [1]) ∧ RoundRobin s := by
  have hc : Chain schedBoot.kernel.links (.head .ready) [] := rfl
  have h0 : Reach schedStep SchedInit KeepsQueue schedBoot := .start ⟨(ReadyList.of_chain hc List.nodup_nil).1, rfl⟩
  obtain ⟨s, hs, ht⟩ := h0.exec_ok (fun s e => decide (KeepsQueue s e)) (fun _ _ => of_decide_eq_true)
    [.ready 0, .ready 1, .ready 2, .select, .ready 1]
    (fun s => decide (readyQueue s.kernel = [2, 0, 1] ∧ s.selected = [1])) (by decide +kernel)
  exact ⟨s, hs, of_decide_eq_true ht, round_robin hs⟩

end Xeros
