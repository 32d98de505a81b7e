import Xeros.Procs.Queued
import Xeros.Procs.Moves
import Xeros.PidMap.Sound
import Xeros.PidMap.Runs
/-!
# The dispatcher's functions keep processes queued

`Sound` is what holds of the kernel between any two of its functions: every
process is queued where its state says, and the pid map leads to processes in
use. The functions of `disp.c` and `create.c` keep it.
-/

namespace Xeros

open Links Kernel

/-- Every process is on the right list, and every entry of the map is right. -/
structure Sound (k : Kernel) (partner : Idx → Word) (f : Queue → List Idx) : Prop where
  queued : Queued k.links k.state k.pid partner f
  map : MapSound k.pidMap k.pid k.state

variable {k k' : Kernel} {partner pid : Idx → Word} {f : Queue → List Idx} {p i : Idx} {state : Idx → PState}

theorem Sound.running (h : Sound k partner f) (hp : k.state p = .RUNNING) (q : Queue) : p ∉ f q :=
  h.queued.unlisted (by rw [hp]; exact id) q

/-! ## The ready queue -/

/-- `ready` puts a process on no list at the end of the ready queue. -/
theorem Queued.ready (h : Queued k.links state pid partner f) (hp : ∀ q, p ∉ f q) : ∃ k', Xeros.ready k p = some k' ∧
    Queued k'.links (Function.update state p .READY) pid partner (Function.update f .ready (f .ready ++ [p])) ∧
    ∀ i, i ≠ p → (∀ q, i ∉ f q) → k'.next i = k.next i := by
  obtain ⟨k', hr, hlinks, hl⟩ := ready_spec h.lists hp
  refine ⟨k', hr, h.put hp (List.append_nil _).symm hl (Function.update_self ..), ?_⟩
  intro i hip hi
  have hne : (Link.next i : PcbLink) ≠ .next p := by
    rintro ⟨⟩
    exact hip rfl
  have htail : (Link.next i : PcbLink) ≠ tail (.head .ready) (f .ready) := (tail_ne_next (by simp) (hi .ready)).symm
  change k'.links (.next i) = k.links (.next i)
  rw [hlinks, Function.update_of_ne hne, Function.update_of_ne htail]

/-- `next` takes the first ready process, which then runs. -/
theorem Queued.next {is : List Idx} (h : Queued k.links state pid partner f) (hf : f .ready = p :: is) : ∃ k',
    Xeros.next k = (some p, k') ∧ k' = { k with ready_queue := k'.ready_queue, next := k'.next } ∧ k'.next p = none ∧
    Queued k'.links (Function.update state p .RUNNING) pid partner (Function.update f .ready is) := by
  obtain ⟨k', hn, hlinks, hl, e⟩ := next_some h.lists hf
  have hnone : k'.links (.next p) = none := by rw [hlinks, Function.update_self]
  refine ⟨k', hn, e, hnone, ?_⟩
  have hsplit : f .ready = [] ++ p :: is := hf
  exact h.take hsplit hl

/-- The process that is selected runs; the others are where they were. -/
theorem Queued.select (h : Queued k.links k.state pid partner f) : ∃ k' r f', Xeros.select k = some (k', r) ∧
    k' = { k with ready_queue := k'.ready_queue, next := k'.next } ∧ SameMessages f f' ∧
    (r = none → Queued k'.links k.state pid partner f') ∧
    ∀ p, r = some p → k.state p = .READY ∧ k'.next p = none ∧
      Queued k'.links (Function.update k.state p .RUNNING) pid partner f' := by
  cases hf : f .ready with
  | nil =>
    refine ⟨k, none, f, select_none (next_none h.lists hf), rfl, .refl f, fun _ => h, ?_⟩
    rintro p ⟨⟩
  | cons p is =>
    have hready : k.state p = .READY := h.fits .ready p (by rw [hf]; exact List.mem_cons_self)
    obtain ⟨k1, hn1, e1, hnone1, h1⟩ := h.next hf
    by_cases hidle : k1.idle = some p
    · -- the idle process came first: it runs only when no other is ready
      cases is with
      | nil =>
        have hf1 : Function.update f Queue.ready [] .ready = [] := Function.update_self ..
        have hsel := select_idle hn1 hidle (next_none h1.lists hf1)
        refine ⟨k1, some p, Function.update f .ready [], hsel, e1, .ready f _, by simp, ?_⟩
        rintro j ⟨⟩
        exact ⟨hready, hnone1, h1⟩
      | cons j js =>
        have hf1 : Function.update f Queue.ready (j :: js) .ready = j :: js := Function.update_self ..
        obtain ⟨k2, hn2, e2, hnone2, h2⟩ := h1.next hf1
        have hp1 : ∀ q, p ∉ Function.update f .ready (j :: js) q := by
          have hsplit : f .ready = [] ++ p :: j :: js := hf
          exact h.lists.not_mem_remove hsplit
        have hpj : p ≠ j := by
          rintro rfl
          exact hp1 .ready (by rw [hf1]; exact List.mem_cons_self)
        have hp2 : ∀ q, p ∉ Function.update (Function.update f .ready (j :: js)) .ready js q := by
          intro q hq
          by_cases hqr : q = .ready
          · subst hqr
            rw [Function.update_self] at hq
            exact hp1 .ready (by rw [hf1]; exact List.mem_cons_of_mem _ hq)
          · rw [Function.update_of_ne hqr] at hq
            exact hp1 q hq
        have hj2 : ∀ q, j ∉ Function.update (Function.update f .ready (j :: js)) .ready js q := by
          have hsplit : Function.update f Queue.ready (j :: js) .ready = [] ++ j :: js := hf1
          exact h1.lists.not_mem_remove hsplit
        obtain ⟨k3, hr, h3, hnext3⟩ := h2.ready hp2
        have hreadyj : k.state j = .READY :=
          h.fits .ready j (by rw [hf]; exact List.mem_cons_of_mem _ List.mem_cons_self)
        have e3 := ready_eq hr
        have hstate : Function.update k2.state p .READY = k.state := by
          rw [e2, e1, ← hready]
          exact Function.update_eq_self ..
        set f2 := Function.update (Function.update f .ready (j :: js)) .ready js with hf2
        have hsame : SameMessages f (Function.update f2 .ready (f2 .ready ++ [p])) :=
          (((SameMessages.ready f (j :: js)).trans (.ready _ js)).trans (.ready f2 _))
        refine ⟨k3, some j, Function.update f2 .ready (f2 .ready ++ [p]), ?_, ?_, hsame, by simp, ?_⟩
        · have hidle2 : k2.idle = some p := by rw [e2, hidle]
          rw [select_skip hn1 hidle hn2 hidle2, hr]
          rfl
        · rw [e3, hstate, e2, e1]
        · rintro i ⟨⟩
          refine ⟨hreadyj, (hnext3 j hpj.symm hj2).trans hnone2, ?_⟩
          have hfinal : Function.update (Function.update (Function.update k.state p .RUNNING) j .RUNNING) p .READY =
              Function.update k.state j .RUNNING := by
            rw [Function.update_comm hpj.symm, Function.update_idem, ← hready, Function.update_eq_self]
          rw [hfinal] at h3
          exact h3
    · refine ⟨k1, some p, Function.update f .ready is, select_first hn1 hidle, e1, .ready f _, by simp, ?_⟩
      rintro j ⟨⟩
      exact ⟨hready, hnone1, h1⟩

/-! ## The dispatcher -/

/-- The process that runs is on no list, and its `next` field is null. -/
def Runs (k : Kernel) (p : Idx) : Prop := k.state p = .RUNNING ∧ k.next p = none

theorem live_of_runs (h : Runs k p) : k.state p ≠ .STOPPED := by
  rw [h.1]
  simp

/-- Blocked on a message. -/
def Blocked (st : PState) : Prop := st = .SENDING ∨ st = .RECEIVING

/-- Who is blocked on a message after it was so before, under the same pid. -/
def NoneBlocks (k k' : Kernel) : Prop :=
  ∀ i, Blocked (k'.state i) → k'.state i = k.state i ∧ k'.pid i = k.pid i

theorem NoneBlocks.refl (k : Kernel) : NoneBlocks k k := fun _ _ => ⟨rfl, rfl⟩

theorem NoneBlocks.trans {k1 : Kernel} (h : NoneBlocks k k1) (h' : NoneBlocks k1 k') : NoneBlocks k k' := by
  intro i hi
  obtain ⟨hs', hp'⟩ := h' i hi
  rw [hs'] at hi
  obtain ⟨hs, hp⟩ := h i hi
  exact ⟨hs'.trans hs, hp'.trans hp⟩

/-- One process changes to a state that is not blocked on a message. -/
theorem NoneBlocks.update (p : Idx) (st : PState) (hst : ¬Blocked st) (hstate : k'.state = Function.update k.state p st)
    (hpid : ∀ i, i ≠ p → k'.pid i = k.pid i) : NoneBlocks k k' := by
  intro i hi
  rw [hstate] at hi ⊢
  by_cases hip : i = p
  · subst hip
    rw [Function.update_self] at hi
    exact absurd hi hst
  · exact ⟨Function.update_of_ne hip .., hpid i hip⟩

theorem NoneBlocks.ready (h : Xeros.ready k p = some k') : NoneBlocks k k' := by
  apply NoneBlocks.update p .READY
  · simp [Blocked]
  · rw [ready_eq h]
  · rw [ready_eq h]
    intro i _
    rfl

/-- `ready` of the caller keeps everything in its place. -/
theorem Sound.ready (h : Sound k partner f) (hp : ∀ q, p ∉ f q) (hused : k.state p ≠ .STOPPED) :
    ∃ k', Xeros.ready k p = some k' ∧ Sound k' partner (Function.update f .ready (f .ready ++ [p])) := by
  obtain ⟨k', hr, hq, -⟩ := h.queued.ready hp
  have e := ready_eq hr
  have hstate : k'.state = Function.update k.state p .READY := by rw [e]
  have hpid : k'.pid = k.pid := by rw [e]
  have hmap : k'.pidMap = k.pidMap := by rw [e]
  refine ⟨k', hr, ?_, ?_⟩
  · rw [hstate, hpid]
    exact hq
  · rw [hstate, hpid, hmap]
    exact h.map.update hused (by simp)

/-- A process that has been taken off the ready queue is switched to. -/
theorem Sound.resumed (im : Image) (hq : Queued k.links (Function.update k.state p .RUNNING) k.pid partner f)
    (hm : MapSound k.pidMap k.pid k.state) (hused : k.state p ≠ .STOPPED) (hn : k.next p = none) :
    Sound (resume im k p) partner f ∧ Runs (resume im k p) p ∧ NoneBlocks k (resume im k p) := by
  have e := resume_eq im k p
  have hlinks : (resume im k p).links = k.links := by
    rw [e]
    rfl
  have hstate : (resume im k p).state = Function.update k.state p .RUNNING := by rw [e]
  have hpid : (resume im k p).pid = k.pid := by rw [e]
  have hmap : (resume im k p).pidMap = k.pidMap := by rw [e]
  refine ⟨⟨?_, ?_⟩, ⟨?_, ?_⟩, ?_⟩
  · rw [hlinks, hstate, hpid]
    exact hq
  · rw [hmap, hpid, hstate]
    exact hm.update hused (by simp)
  · rw [hstate, Function.update_self]
  · rw [e]
    exact hn
  · apply NoneBlocks.update p .RUNNING
    · simp [Blocked]
    · exact hstate
    · intro i _
      rw [hpid]

/-- The rest of a turn of the dispatcher. -/
theorem Sound.dispatch_next {im : Image} {tr : Option Idx} {s : Sys} (h : Sound k partner f)
    (htr : ∀ p, tr = some p → k.state p = .RUNNING) (hd : Xeros.dispatch_next im k tr = some s) :
    (∃ f', Sound s.kernel partner f' ∧ SameMessages f f') ∧ (∀ p, s.cur = some p → Runs s.kernel p) ∧
      NoneBlocks k s.kernel := by
  obtain ⟨k1, k2, r, hk1, hsel, hend⟩ := dispatch_next_cases hd
  obtain ⟨f1, h1, hsame1, hblocks⟩ : ∃ f1, Sound k1 partner f1 ∧ SameMessages f f1 ∧ NoneBlocks k k1 := by
    rcases hk1 with ⟨-, rfl⟩ | ⟨p, rfl, hr⟩
    · exact ⟨f, h, .refl f, .refl _⟩
    · obtain ⟨k1', hr', h1⟩ := h.ready (h.running (htr p rfl)) (by rw [htr p rfl]; simp)
      cases Option.some.inj (hr'.symm.trans hr)
      exact ⟨_, h1, .ready f _, .ready hr⟩
  obtain ⟨k2', r', f2, hsel', e2, hsame2, hnone, hsome⟩ := h1.queued.select
  cases Option.some.inj (hsel'.symm.trans hsel)
  have hstate : k2.state = k1.state := by rw [e2]
  have hpid : k2.pid = k1.pid := by rw [e2]
  have hmap : MapSound k2.pidMap k2.pid k2.state := by
    rw [e2]
    exact h1.map
  have hsame : NoneBlocks k k2 := hblocks.trans fun i _ => ⟨congrFun hstate i, congrFun hpid i⟩
  rcases hend with ⟨rfl, rfl⟩ | ⟨p, rfl, rfl⟩
  · refine ⟨⟨f2, ⟨?_, hmap⟩, hsame1.trans hsame2⟩, ?_, hsame⟩
    · rw [hstate, hpid]
      exact hnone rfl
    · rintro p ⟨⟩
  · obtain ⟨hready, hnext, hq⟩ := hsome p rfl
    rw [← hstate, ← hpid] at hq
    obtain ⟨h', hruns, hblocks'⟩ := Sound.resumed im hq hmap (by rw [hstate, hready]; simp) hnext
    refine ⟨⟨f2, h', hsame1.trans hsame2⟩, ?_, hsame.trans hblocks'⟩
    rintro j ⟨⟩
    exact hruns

end Xeros
