import Xeros.PidMap.Runs
import Xeros.Procs.Frames
/-!
# The pid map and the PCB table

Processes are created and stopped in any order. `Agree` ties the map to the
table: the map holds exactly the pids of the processes in use, each with the
index of its PCB. It holds as long as no creation turns a subtree of the map to
the right (`table_agrees`).
-/

namespace Xeros

open Assoc Runs

/-! ## The system -/

inductive TableEvent where
  | create (func stack parent : Word)
  /-- The dispatcher takes a process off the ready queue. -/
  | next
  /-- A process stops. -/
  | stop (p : Idx)

def tableStep (im : Image) : TableEvent → Kernel → Option Kernel
  | .create func stack parent, k => do
    let (_, k) ← create im k func stack parent
    some k
  | .next, k => some (next k).2
  | .stop p, k => if k.state p = .STOPPED then none else cleanup keyboards k p

/-- After `kmeminit` and `init_pcb_table`. -/
def TableInit (im : Image) (k : Kernel) : Prop := ∃ m, k = init im m

structure PidsAgree (k : Kernel) : Prop where
  nonzero : ∀ i, k.state i ≠ .STOPPED → k.pid i ≠ 0
  distinct : ∀ i j, k.state i ≠ .STOPPED → k.state j ≠ .STOPPED → k.pid i = k.pid j → i = j
  found : ∀ i, k.state i ≠ .STOPPED → pidMapLookup k (k.pid i) = some (pcbIndex i)
  only : ∀ q v, pidMapLookup k q = some v → ∃ i, k.state i ≠ .STOPPED ∧ k.pid i = q

/-- A `create` that finds a PCB inserts a pid that turns a subtree to the right. -/
def createTurnsRight (k : Kernel) : Bool :=
  (firstStopped k).isSome && ((getNextPid k).any fun x => insertTurnsRight k.pidMap x.1)

def NoRightTurnCreate (k : Kernel) : TableEvent → Prop
  | .create .. => createTurnsRight k = false
  | _ => True

instance (k : Kernel) : DecidablePred (NoRightTurnCreate k)
  | .create .. => inferInstanceAs (Decidable (createTurnsRight k = false))
  | .next => inferInstanceAs (Decidable True)
  | .stop _ => inferInstanceAs (Decidable True)

/-! ## The invariant -/

/-- The map `t` holds the pids of the processes in use. -/
structure Agree (t : TreeNode) (pid : Idx → Word) (state : Idx → PState) : Prop where
  ordered : t.Ordered
  entries : ∀ q v, (q, v) ∈ t.entries ↔ ∃ i, state i ≠ .STOPPED ∧ pid i = q ∧ v = pcbIndex i
  nonzero : ∀ i, state i ≠ .STOPPED → pid i ≠ 0

namespace Agree
variable {t t' : TreeNode} {pid : Idx → Word} {state : Idx → PState}

theorem distinct (h : Agree t pid state) {i j : Idx} (hi : state i ≠ .STOPPED) (hj : state j ≠ .STOPPED)
    (e : pid i = pid j) : i = j := by
  have h1 := (h.entries _ _).2 ⟨i, hi, rfl, rfl⟩
  have h2 := (h.entries _ _).2 ⟨j, hj, e.symm, rfl⟩
  exact pcbIndex_inj (h.ordered.unique h1 h2)

/-- A process is put into use under a new pid. -/
theorem add (h : Agree t pid state) {p : Idx} {r : Word} {st : PState} (hp : state p = .STOPPED) (hr : r ≠ 0)
    (hnew : lookup t r = none) (hst : st ≠ .STOPPED) (hs : Sets r (pcbIndex p) t.entries t'.entries)
    (ho : t'.Ordered) : Agree t' (Function.update pid p r) (Function.update state p st) := by
  have hfree : ∀ i, state i ≠ .STOPPED → pid i ≠ r := by
    intro i hi e
    have hm := (lookup_iff h.ordered r _).2 ((h.entries r _).2 ⟨i, hi, e, rfl⟩)
    rw [hnew] at hm
    cases hm
  refine ⟨ho, fun q v => ?_, fun i hi => ?_⟩
  · rw [hs q v, h.entries q v]
    constructor
    · rintro (⟨rfl, rfl⟩ | ⟨hq, i, hi, rfl, rfl⟩)
      · exact ⟨p, by simpa using hst, by simp, rfl⟩
      · have hip : i ≠ p := by
          rintro rfl
          exact hi hp
        exact ⟨i, by simpa [hip] using hi, by simp [hip], rfl⟩
    · rintro ⟨i, hi, rfl, rfl⟩
      by_cases hip : i = p
      · subst hip
        exact .inl ⟨by simp, rfl⟩
      · rw [Function.update_of_ne hip] at hi ⊢
        exact .inr ⟨hfree i hi, i, hi, rfl, rfl⟩
  · by_cases hip : i = p
    · subst hip
      simpa using hr
    · rw [Function.update_of_ne hip] at hi ⊢
      exact h.nonzero i hi

/-- A process is taken out of use. -/
theorem drop (h : Agree t pid state) {p : Idx} (hp : state p ≠ .STOPPED) (hd : Drops (pid p) t.entries t'.entries)
    (ho : t'.Ordered) : Agree t' pid (Function.update state p .STOPPED) := by
  refine ⟨ho, fun q v => ?_, fun i hi => ?_⟩
  · rw [hd q v, h.entries q v]
    constructor
    · rintro ⟨hq, i, hi, rfl, rfl⟩
      have hip : i ≠ p := by
        rintro rfl
        exact hq rfl
      exact ⟨i, by simpa [hip] using hi, rfl, rfl⟩
    · rintro ⟨i, hi, rfl, rfl⟩
      by_cases hip : i = p
      · subst hip
        simp at hi
      · rw [Function.update_of_ne hip] at hi
        exact ⟨fun e => hip (h.distinct hi hp e), i, hi, rfl, rfl⟩
  · by_cases hip : i = p
    · subst hip
      simp at hi
    · rw [Function.update_of_ne hip] at hi
      exact h.nonzero i hi

end Agree

/-- Nobody waits for anybody, since no message is ever sent. -/
structure TableInv (k : Kernel) : Prop where
  agree : Agree k.pidMap k.pid k.state
  senders : ∀ i, k.senders i = none
  receivers : ∀ i, k.receivers i = none

namespace TableInv
variable {im : Image} {k k' : Kernel}

theorem init (im : Image) (m : Mem) : TableInv (Xeros.init im m) := by
  refine ⟨⟨List.Pairwise.nil, fun q v => ?_, fun i hi => absurd rfl hi⟩, fun i => rfl, fun i => rfl⟩
  constructor
  · intro hm
    cases hm
  · rintro ⟨i, hi, -⟩
    exact absurd rfl hi

theorem create (h : TableInv k) {func stack parent r : Word} (hok : createTurnsRight k = false)
    (hc : Xeros.create im k func stack parent = some (r, k')) : TableInv k' := by
  rcases create_cases hc with ⟨-, e⟩ | ⟨p, k1, hfs, hloop, ⟨hp, hp', hins⟩, ⟨ptr, esp, hk1⟩, hrdy⟩
  · rw [e]
    exact ⟨h.agree, h.senders, h.receivers⟩
  have hr : insertTurnsRight k.pidMap r = false := by
    have hnp : getNextPid k = some (r, { k with nextPid := r + 1 }) := by
      rw [getNextPid, hloop]
      rfl
    simpa [createTurnsRight, hfs, hnp] using hok
  obtain ⟨hset, hord⟩ := insert_sets h.agree.ordered hr hins
  obtain ⟨hr0, hnew⟩ := getNextPid_loop_spec hloop
  have e := ready_eq hrdy
  have hpid : k'.pid = Function.update k.pid p r := by
    rw [e, hk1]
    rfl
  have hstate : k'.state = Function.update k.state p .READY := by
    rw [e, hk1]
    rfl
  have hmap : k'.pidMap = k1.pidMap := by rw [e]
  have hsend : k'.senders = Function.update k.senders p none := by
    rw [e, hk1]
    rfl
  have hrecv : k'.receivers = Function.update k.receivers p none := by
    rw [e, hk1]
    rfl
  refine ⟨?_, fun i => ?_, fun i => ?_⟩
  · rw [hpid, hstate, hmap]
    exact h.agree.add (firstStopped_spec hfs) hr0 hnew (by decide) hset hord
  · rw [hsend, Function.update_apply]
    split
    · rfl
    · exact h.senders i
  · rw [hrecv, Function.update_apply]
    split
    · rfl
    · exact h.receivers i

theorem stop (h : TableInv k) {p : Idx} (hp : k.state p ≠ .STOPPED) (hc : cleanup keyboards k p = some k') :
    TableInv k' := by
  obtain ⟨k1, k2, k3, h1, h2, h3, hd⟩ := cleanup_cases hc
  -- both queues are empty
  obtain rfl : k = k1 := Option.some.inj ((drain_nil (q := .senders p) (h.senders p)).symm.trans h1)
  obtain rfl : k = k2 := Option.some.inj ((drain_nil (q := .receivers p) (h.receivers p)).symm.trans h2)
  rw [close_all_eq] at h3
  have hpid : k3.pid = k.pid := by rw [h3]
  have hmap : k3.pidMap = k.pidMap := by rw [h3]
  have hstate : k3.state = Function.update k.state p .STOPPED := by rw [h3]
  rw [hpid] at hd
  obtain ⟨⟨hp', e⟩, hdrop, hord⟩ := pidMapDelete_drops (by rw [hmap]; exact h.agree.ordered) hd
  rw [hmap] at hdrop
  have hpid' : k'.pid = k.pid := by rw [e]; exact hpid
  have hstate' : k'.state = Function.update k.state p .STOPPED := by rw [e]; exact hstate
  refine ⟨?_, fun i => ?_, fun i => ?_⟩
  · rw [hpid', hstate']
    exact h.agree.drop hp hdrop hord
  · rw [e, h3]
    exact h.senders i
  · rw [e, h3]
    exact h.receivers i

theorem step {e : TableEvent} (h : TableInv k) (hok : NoRightTurnCreate k e) (ht : tableStep im e k = some k') :
    TableInv k' := by
  cases e with
  | create func stack parent =>
    obtain ⟨⟨r, k1⟩, hc, ht⟩ := Option.bind_eq_some_iff.1 ht
    cases ht
    exact h.create hok hc
  | next =>
    cases ht
    have e := next_eq k
    refine ⟨?_, fun i => ?_, fun i => ?_⟩
    · rw [e]
      exact h.agree
    · rw [e]
      exact h.senders i
    · rw [e]
      exact h.receivers i
  | stop p =>
    by_cases hp : k.state p = .STOPPED
    · simp only [tableStep, if_pos hp, reduceCtorEq] at ht
    · simp only [tableStep, if_neg hp] at ht
      exact h.stop hp ht

theorem pidsAgree (h : TableInv k) : PidsAgree k := by
  refine ⟨h.agree.nonzero, fun i j => h.agree.distinct, fun i hi => ?_, fun q v hq => ?_⟩
  · rw [pidMapLookup, lookup_iff h.agree.ordered, h.agree.entries]
    exact ⟨i, hi, rfl, rfl⟩
  · rw [pidMapLookup, lookup_iff h.agree.ordered, h.agree.entries] at hq
    obtain ⟨i, hi, e, -⟩ := hq
    exact ⟨i, hi, e⟩

end TableInv

/-! ## Results -/

/-- In every run in which no creation turns a subtree to the right, map and
table agree. -/
theorem table_agrees {im : Image} {k : Kernel} (hk : Reach (tableStep im) (TableInit im) NoRightTurnCreate k) :
    PidsAgree k := by
  have h : TableInv k := by
    refine hk.inv TableInv (fun k h => ?_) fun _ _ _ h ho ht => h.step ho ht
    obtain ⟨m, rfl⟩ := h
    exact TableInv.init im m
  exact h.pidsAgree

/-- Twelve processes are created and the last four stop; then the next creation
drops the pid of a living process. -/
theorem pids_lost : ¬∀ im k, Reach (tableStep im) (TableInit im) Any k → PidsAgree k := by
  intro hall
  have h0 : Reach (tableStep sampleImage) (TableInit sampleImage) Any _ := .start ⟨fun _ => 0, rfl⟩
  obtain ⟨k, hk, ht⟩ := h0.exec_any (List.replicate 12 (.create 0x1000 256 0) ++ List.replicate 12 .next ++
      [.stop 11, .stop 10, .stop 9, .stop 8, .create 0x1000 256 0])
    (fun k => decide (∃ i, k.state i ≠ .STOPPED ∧ pidMapLookup k (k.pid i) ≠ some (pcbIndex i))) (by decide +kernel)
  obtain ⟨i, hi, hl⟩ := of_decide_eq_true ht
  exact hl ((hall _ k hk).found i hi)

end Xeros
