import Xeros.Procs.Sound
import Xeros.Sleep.Insert
/-!
# Creation, cleanup and the clock

What `create`, `cleanup`, `sleep` and `tick` do to the lists.
-/

namespace Xeros

open Links Kernel

variable {im : Image} {k k' : Kernel} {partner : Idx → Word} {f : Queue → List Idx} {p : Idx} {q : Queue}

/-- Processes that become ready stay in the map. -/
theorem MapSound.woken {t : TreeNode} {pid : Idx → Word} {state : Idx → PState} (h : MapSound t pid state)
    {is : List Idx} (his : ∀ i ∈ is, state i ≠ .STOPPED) : MapSound t pid (setAll state is .READY) := by
  apply h.keep
  intro i
  rw [setAll]
  split
  · next hi => exact iff_of_false (by simp) (his i hi)
  · rfl

namespace Sound

/-! ## `create` -/

/-- The new process joins the ready queue, and nothing happens to the others. -/
theorem create {func stack parent r : Word} (h : Sound k partner f)
    (hc : Xeros.create im k func stack parent = some (r, k')) : (∃ f', Sound k' partner f' ∧ SameMessages f f') ∧
    NoneBlocks k k' ∧ ∀ i, k.state i ≠ .STOPPED → k'.state i = k.state i := by
  rcases create_cases hc with ⟨-, e⟩ | ⟨p, k1, hfs, hloop, ⟨hp, hp', hins⟩, ⟨ptr, esp, hk1⟩, hrdy⟩
  · have hlinks : k'.links = k.links := by
      rw [e]
      rfl
    have hstate : k'.state = k.state := by rw [e]
    have hpid : k'.pid = k.pid := by rw [e]
    have hmap : k'.pidMap = k.pidMap := by rw [e]
    refine ⟨⟨f, ⟨?_, ?_⟩, .refl f⟩, fun i _ => ⟨congrFun hstate i, congrFun hpid i⟩, fun i _ => congrFun hstate i⟩
    · rw [hlinks, hstate, hpid]
      exact h.queued
    · rw [hmap, hstate, hpid]
      exact h.map
  have hstopped := firstStopped_spec hfs
  have hun : ∀ q, p ∉ f q := h.queued.unlisted (by rw [hstopped]; exact id)
  obtain ⟨hsend, hrecv⟩ := h.queued.stopped hstopped
  have hlists : Family k1.links f := by
    -- the two queues of the new process were empty before
    have hs : k.senders p = none := by
      have hc := h.queued.lists.chain (.senders p)
      rwa [hsend] at hc
    have hr : k.receivers p = none := by
      have hc := h.queued.lists.chain (.receivers p)
      rwa [hrecv] at hc
    refine h.queued.lists.of_eq ?_ ?_
    · rintro (_ | _ | d | d)
      · rw [hk1]
        rfl
      · rw [hk1]
        rfl
      · rw [hk1]
        change Function.update k.senders p none d = k.senders d
        rw [← hs, Function.update_eq_self]
      · rw [hk1]
        change Function.update k.receivers p none d = k.receivers d
        rw [← hr, Function.update_eq_self]
    · intro q i hi
      have hip : i ≠ p := by
        rintro rfl
        exact hun q hi
      rw [hk1]
      exact Function.update_of_ne hip ..
  have hq1 : Queued k1.links k.state (Function.update k.pid p r) partner f := (h.queued.congr hlists).rename hstopped r
  obtain ⟨k2, hr2, hq2, -⟩ := hq1.ready hun
  cases Option.some.inj (hr2.symm.trans hrdy)
  have e := ready_eq hrdy
  have hstate : k'.state = Function.update k.state p .READY := by
    rw [e, hk1]
    rfl
  have hpid : k'.pid = Function.update k.pid p r := by
    rw [e, hk1]
    rfl
  have hmap : k'.pidMap = k1.pidMap := by rw [e]
  refine ⟨⟨Function.update f .ready (f .ready ++ [p]), ⟨?_, ?_⟩, .ready f _⟩, ?_, ?_⟩
  · rw [hstate, hpid]
    exact hq2
  · rw [hstate, hpid, hmap]
    exact h.map.add hstopped (getNextPid_loop_spec hloop).1 (by simp) hins
  · apply NoneBlocks.update p .READY
    · simp [Blocked]
    · exact hstate
    · intro i hip
      rw [hpid, Function.update_of_ne hip]
  · intro i hi
    have hip : i ≠ p := by
      rintro rfl
      exact hi hstopped
    rw [hstate, Function.update_of_ne hip]

/-! ## `cleanup` -/

theorem length_lt_drain (h : Sound k partner f) (q : Queue) : (f q).length < DRAIN_FUEL := by
  have hl := h.queued.lists.length_le q
  rw [Fintype.card_fin] at hl
  exact Nat.lt_of_le_of_lt hl (by decide)

/-- Everybody on a queue becomes ready, once, and is told that the pid is gone. -/
theorem drain (h : Sound k partner f) (hq : q ≠ .ready) : ∃ k', Xeros.drain q DRAIN_FUEL k = some k' ∧
    Sound k' partner (wake f q (f q) []) ∧ k'.state = setAll k.state (f q) .READY ∧
    k'.irc = setAll k.irc (f q) SYS_SR_NO_PID ∧ k'.pid = k.pid := by
  obtain ⟨k', hd, hl, e⟩ := drain_spec h.queued.lists hq (h.length_lt_drain q)
  have hstate : k'.state = setAll k.state (f q) .READY := by rw [e]
  have hirc : k'.irc = setAll k.irc (f q) SYS_SR_NO_PID := by rw [e]
  have hpid : k'.pid = k.pid := by rw [e]
  have hmap : k'.pidMap = k.pidMap := by rw [e]
  refine ⟨k', hd, ⟨?_, ?_⟩, hstate, hirc, hpid⟩
  · rw [hstate, hpid]
    exact h.queued.woken hq (List.append_nil _).symm hl
  · rw [hstate, hpid, hmap]
    exact h.map.woken fun i hi => (h.queued.fits q i hi).ne_stopped

/-- Those that waited for `p` are ready and were told so; `p` is gone. -/
theorem cleanup (h : Sound k partner f) (hp : k.state p = .RUNNING) (hc : Xeros.cleanup keyboards k p = some k') :
    ∃ f', Sound k' partner f' ∧ (f' (.senders p) = [] ∧ f' (.receivers p) = [] ∧
        ∀ q, q ≠ .ready → q ≠ .senders p → q ≠ .receivers p → f' q = f q) ∧
      k'.state p = .STOPPED ∧ k'.pid = k.pid ∧
      (∀ i ∈ f (.senders p) ++ f (.receivers p), k'.state i = .READY ∧ k'.irc i = SYS_SR_NO_PID) ∧
      ∀ i, i ∉ f (.senders p) ++ f (.receivers p) → i ≠ p → k'.state i = k.state i := by
  obtain ⟨k1, k2, k3, hd1, hd2, h3, hdel⟩ := cleanup_cases hc
  obtain ⟨k1', hd1', h1, hst1, hirc1, hpid1⟩ := h.drain (q := .senders p) (by simp)
  cases Option.some.inj (hd1'.symm.trans hd1)
  obtain ⟨k2', hd2', h2, hst2, hirc2, hpid2⟩ := h1.drain (q := .receivers p) (by simp)
  cases Option.some.inj (hd2'.symm.trans hd2)
  have hrecv1 : wake f (.senders p) (f (.senders p)) [] (.receivers p) = f (.receivers p) :=
    wake_of_ne (by simp) (by simp)
  rw [hrecv1] at h2 hst2 hirc2
  set f2 := wake (wake f (.senders p) (f (.senders p)) []) (.receivers p) (f (.receivers p)) [] with hf2
  have hp1 : p ∉ f (.senders p) := h.running hp _
  have hp2 : p ∉ f (.receivers p) := h.running hp _
  have hrun2 : k2.state p = .RUNNING := by
    rw [hst2, setAll_not_mem _ _ hp2, hst1, setAll_not_mem _ _ hp1, hp]
  have hsend2 : f2 (.senders p) = [] := by
    rw [hf2, wake_of_ne (by simp) (by simp), wake_self (by simp)]
  have hrecv2 : f2 (.receivers p) = [] := by
    rw [hf2, wake_self (by simp)]
  have hirc3 : ∀ i, i ≠ p → k3.irc i = k2.irc i := by
    intro i hip
    rw [h3]
    exact close_all_irc k2 hip
  rw [close_all_eq] at h3
  have hlinks3 : k3.links = Function.update k2.links (.next p) none := by
    rw [h3]
    exact links_assign k2 (.next p) none
  have hstate3 : k3.state = Function.update k2.state p .STOPPED := by rw [h3]
  have hpid3 : k3.pid = k2.pid := by rw [h3]
  have hmap3 : k3.pidMap = k2.pidMap := by rw [h3]
  have hq3 : Queued k3.links k3.state k3.pid partner f2 := by
    have hl : Family k3.links f2 := by
      rw [hlinks3]
      exact h2.queued.lists.unlisted (h2.running hrun2) none
    rw [hstate3, hpid3]
    exact (h2.queued.congr hl).rest (h2.running hrun2) id fun _ => ⟨hsend2, hrecv2⟩
  rw [hpid3] at hdel
  obtain ⟨⟨hp', e⟩, hdrop, hord⟩ := pidMapDelete_drops (by rw [hmap3]; exact h2.map.ordered) hdel
  rw [hmap3] at hdrop
  have hlinks : k'.links = k3.links := by
    rw [e]
    rfl
  have hstate : k'.state = Function.update k2.state p .STOPPED := by
    rw [e]
    exact hstate3
  have hpid : k'.pid = k2.pid := by
    rw [e]
    exact hpid3
  have hother : ∀ q, q ≠ .ready → q ≠ .senders p → q ≠ .receivers p → f2 q = f q := by
    intro q hr hs hv
    rw [hf2, wake_of_ne hr hv, wake_of_ne hr hs]
  refine ⟨f2, ⟨?_, ?_⟩, ⟨hsend2, hrecv2, hother⟩, ?_, ?_, ?_, ?_⟩
  · rw [hlinks, hstate, ← hstate3, hpid, ← hpid3]
    exact hq3
  · rw [hstate, hpid]
    exact h2.map.drop hdrop hord
  · rw [hstate, Function.update_self]
  · rw [hpid, hpid2, hpid1]
  · intro i hi
    have hip : i ≠ p := by
      rintro rfl
      rcases List.mem_append.1 hi with hi | hi
      · exact hp1 hi
      · exact hp2 hi
    have hirc : k'.irc i = k2.irc i := by
      rw [e]
      exact hirc3 i hip
    rw [hirc, hstate, Function.update_of_ne hip, hst2, hirc2, hst1, hirc1]
    by_cases hi2 : i ∈ f (.receivers p)
    · rw [setAll_mem _ _ hi2, setAll_mem _ _ hi2]
      exact ⟨rfl, rfl⟩
    · have hi1 : i ∈ f (.senders p) := (List.mem_append.1 hi).resolve_right hi2
      rw [setAll_not_mem _ _ hi2, setAll_not_mem _ _ hi2, setAll_mem _ _ hi1, setAll_mem _ _ hi1]
      exact ⟨rfl, rfl⟩
  · intro i hi hip
    simp only [List.mem_append, not_or] at hi
    rw [hstate, Function.update_of_ne hip, hst2, setAll_not_mem _ _ hi.2, hst1, setAll_not_mem _ _ hi.1]

/-! ## The clock -/

/-- The caller sleeps, or it is ready at once. -/
theorem sleep {ms : Word} (h : Sound k partner f) (hp : k.state p = .RUNNING) (hs : Xeros.sleep k p ms = some k') :
    (∃ f', Sound k' partner f' ∧ SameMessages f f') ∧ NoneBlocks k k' := by
  have hun := h.running hp
  by_cases hms : sleep_ticks ms = 0
  · have hr : Xeros.ready k p = some k' := by
      unfold Xeros.sleep at hs
      simpa [hms] using hs
    obtain ⟨k1, hr1, h1⟩ := h.ready hun (by rw [hp]; simp)
    cases Option.some.inj (hr1.symm.trans hr)
    exact ⟨⟨_, h1, .ready f _⟩, .ready hr⟩
  · obtain ⟨δ, link, hw⟩ : ∃ δ link, sleep_walk k SLEEP_FUEL (sleep_ticks ms) (.head .sleepers) = some (δ, link) := by
      unfold Xeros.sleep at hs
      simp only [] at hs
      rw [if_pos hms] at hs
      obtain ⟨⟨δ, link⟩, hw, -⟩ := Option.bind_eq_some_iff.1 hs
      exact ⟨δ, link, hw⟩
    obtain ⟨xs, ys, hsplit, rfl⟩ := sleep_walk_link (h.queued.lists.chain .sleepers) hw
    obtain ⟨k1, hs1, hl, e⟩ := sleep_insert h.queued.lists hun hsplit hms hw
    cases Option.some.inj (hs1.symm.trans hs)
    have hstate : k'.state = Function.update k.state p .SLEEPING := by rw [e]
    have hpid : k'.pid = k.pid := by rw [e]
    have hmap : k'.pidMap = k.pidMap := by rw [e]
    refine ⟨⟨Function.update f .sleepers (xs ++ p :: ys), ⟨?_, ?_⟩, .sleepers f _⟩, ?_⟩
    · rw [hstate, hpid]
      exact h.queued.put hun hsplit hl (Function.update_self ..)
    · rw [hstate, hpid, hmap]
      exact h.map.update (by rw [hp]; simp) (by simp)
    · apply NoneBlocks.update p .SLEEPING
      · simp [Blocked]
      · exact hstate
      · intro i _
        rw [hpid]

/-- The first sleepers become ready. -/
theorem tick_loop {nullDelta : Word} {n : Nat} (h : Family k.links f) (ht : Xeros.tick_loop nullDelta n k = some k') :
    ∃ xs ys, f .sleepers = xs ++ ys ∧ Family k'.links (wake f .sleepers xs ys) ∧
      k'.state = setAll k.state xs .READY ∧ k'.pid = k.pid ∧ k'.pidMap = k.pidMap := by
  induction n generalizing k f with
  | zero => cases ht
  | succ n ih =>
    have hstop : k' = k → ∃ xs ys, f .sleepers = xs ++ ys ∧ Family k'.links (wake f .sleepers xs ys) ∧
        k'.state = setAll k.state xs .READY ∧ k'.pid = k.pid ∧ k'.pidMap = k.pidMap := by
      rintro rfl
      refine ⟨[], f .sleepers, rfl, ?_, by rw [setAll_nil], rfl, rfl⟩
      rwa [wake_nil rfl]
    have hc := h.chain .sleepers
    unfold Xeros.tick_loop at ht
    split at ht
    · split at ht
      · cases ht
      · exact hstop (Option.some.inj ht).symm
    · next p hs =>
      cases hf : f .sleepers with
      | nil =>
        rw [hf] at hc
        have hn : k.sleep_list = none := hc
        rw [hs] at hn
        cases hn
      | cons i is =>
        rw [hf] at hc
        obtain rfl : p = i := Option.some.inj (hs.symm.trans hc.1)
        split at ht
        · obtain ⟨k2, hr, ht⟩ := Option.bind_eq_some_iff.1 ht
          set k1 : Kernel := { k with irc := Function.update k.irc p 0, sleep_list := k.next p } with hk1
          have e1 : k1.links = Function.update k.links (.head .sleepers) (k.next p) :=
            links_assign k (.head .sleepers) (k.next p)
          obtain ⟨k2', hr', hf2⟩ := ready_head h (by simp) hf e1
          cases Option.some.inj (hr'.symm.trans hr)
          have e2 := ready_eq hr
          obtain ⟨xs, ys, hsplit, hl, hstate, hpid, hmap⟩ := ih hf2 ht
          rw [wake_self (by simp)] at hsplit
          refine ⟨p :: xs, ys, by rw [hsplit]; rfl, ?_, ?_, ?_, ?_⟩
          · rwa [wake_wake (by simp)] at hl
          · rw [hstate, ← setAll_cons, e2]
          · rw [hpid, e2]
          · rw [hmap, e2]
        · obtain ⟨xs, ys, hsplit, h'⟩ := hstop (Option.some.inj ht).symm
          exact ⟨xs, ys, hf ▸ hsplit, h'⟩

theorem tick {nullDelta : Word} (h : Sound k partner f) (ht : Xeros.tick nullDelta k = some k') :
    (∃ f', Sound k' partner f' ∧ SameMessages f f') ∧ NoneBlocks k k' ∧
      ∀ i, k.state i = .RUNNING → k'.state i = .RUNNING := by
  unfold Xeros.tick at ht
  split at ht
  · cases ht
    exact ⟨⟨f, h, .refl f⟩, .refl k, fun i hi => hi⟩
  · next p hp =>
    set k1 : Kernel := { k with delta := Function.update k.delta p (k.delta p - 1) } with hk1
    have hl1 : Family k1.links f := h.queued.lists
    obtain ⟨xs, ys, hsplit, hl, hstate, hpid, hmap⟩ := tick_loop hl1 ht
    have hsleeping : ∀ i ∈ xs, k.state i = .SLEEPING := by
      intro i hi
      exact h.queued.fits .sleepers i (by rw [hsplit]; exact List.mem_append_left _ hi)
    refine ⟨⟨wake f .sleepers xs ys, ⟨?_, ?_⟩, .wake f xs ys⟩, ?_, ?_⟩
    · rw [hstate, hpid]
      exact h.queued.woken (by simp) hsplit hl
    · rw [hstate, hpid, hmap]
      exact h.map.woken fun i hi => by simp [hsleeping i hi]
    · intro i hi
      rw [hstate] at hi ⊢
      by_cases hix : i ∈ xs
      · rw [setAll_mem _ _ hix] at hi
        simp [Blocked] at hi
      · rw [setAll_not_mem _ _ hix, hpid]
        exact ⟨rfl, rfl⟩
    · intro i hi
      have hix : i ∉ xs := by
        intro hix
        rw [hsleeping i hix] at hi
        cases hi
      rw [hstate, setAll_not_mem _ _ hix]
      exact hi

end Sound

end Xeros
