import Xeros.Sleep.Insert
import Xeros.Lib.Runs
/-!
# Sleepers wake on time

`Clock` is what the sleep facility is for: a process that calls `sleep` is due
a fixed number of ticks later, and the tick it is due at moves it to the ready
queue. The kernel keeps step with it in every run (`sleepers_punctual`).
-/

namespace Xeros

open Links Kernel Deltas Runs

/-! ## The clock -/

/-- `asleep` lists the sleepers and their due times in the order they called `sleep`. -/
structure Clock where
  now : Nat
  asleep : List (Idx × Nat)
  ready : List Idx

namespace Clock

/-- The sleepers the next tick wakes. -/
def due (c : Clock) : List Idx := (c.asleep.filter fun e => e.2 = c.now + 1).map (·.1)

def sleep (c : Clock) (p : Idx) (milliseconds : Word) : Clock :=
  { c with asleep := c.asleep ++ [(p, dueTime c.now milliseconds)] }

def tick (c : Clock) : Clock :=
  { now := c.now + 1, asleep := c.asleep.filter fun e => e.2 ≠ c.now + 1, ready := c.ready ++ c.due }

def run (c : Clock) : Clock := { c with ready := c.ready.tail }

def yield (c : Clock) (p : Idx) : Clock := { c with ready := c.ready ++ [p] }

end Clock

/-! ## The system -/

structure SleepSys where
  kernel : Kernel
  clock : Clock

inductive SleepEvent where
  /-- A running process calls `sleep`. -/
  | sleep (p : Idx) (milliseconds : Word)
  | tick
  /-- The first ready process is run. -/
  | run
  /-- A running process gives up the processor. -/
  | yield (p : Idx)

def sleepStep (nullDelta : Word) : SleepEvent → SleepSys → Option SleepSys
  | .sleep p ms, s =>
    if s.kernel.state p = .RUNNING ∧ ms ≠ 0 then do
      let k ← sleep s.kernel p ms
      some ⟨k, s.clock.sleep p ms⟩
    else none
  | .tick, s => do
    let k ← tick nullDelta s.kernel
    some ⟨k, s.clock.tick⟩
  | .run, s =>
    match next s.kernel with
    | (none, k) => some ⟨k, s.clock⟩
    | (some p, k) => some ⟨{ k with state := Function.update k.state p .RUNNING }, s.clock.run⟩
  | .yield p, s =>
    if s.kernel.state p = .RUNNING then do
      let k ← ready s.kernel p
      some ⟨k, s.clock.yield p⟩
    else none

/-- Nobody sleeps, and what runs is on no list. -/
def SleepInit (s : SleepSys) : Prop :=
  ∃ f, Family s.kernel.links f ∧ f .sleepers = [] ∧ (∀ p, s.kernel.state p = .RUNNING → ∀ q, p ∉ f q) ∧
    s.clock = ⟨0, [], f .ready⟩

/-- The kernel keeps step with the clock. -/
structure Punctual (nullDelta : Word) (k : Kernel) (c : Clock) : Prop where
  ready : Chain k.links (.head .ready) c.ready
  sleepers : ∃ l, ByTime c.asleep l ∧ Chain k.links (.head .sleepers) (l.map (·.1))
  once : (c.asleep.map (·.1) ++ c.ready).Nodup
  ahead : ∀ e ∈ c.asleep, c.now < e.2
  /-- A tick returns and gives the value 0 to those that are due, and to no other. -/
  wakes : ∃ k', tick nullDelta k = some k' ∧ k'.irc = setAll k.irc c.due 0
  /-- `sleep_list->delta--` does not wrap. -/
  decrement : ∀ p, k.sleep_list = some p → k.delta p ≠ 0
  /-- A `sleep` returns, and `p->next->delta -= delta` does not wrap. -/
  insertion : ∀ p ms, k.state p = .RUNNING → ms ≠ 0 → (∃ k', sleep k p ms = some k') ∧
    ∃ δ l, sleep_walk k SLEEP_FUEL (sleep_ticks ms) (.head .sleepers) = some (δ, l) ∧ ∀ i, k.links l = some i → δ ≤ k.delta i

/-! ## The invariant -/

/-- The lists are `f`, and `D` are the sleepers in the order of their due times. -/
structure SleepInv (k : Kernel) (c : Clock) (f : Queue → List Idx) (D : List (Idx × Nat)) : Prop where
  lists : Family k.links f
  ready : f .ready = c.ready
  sleepers : f .sleepers = D.map (·.1)
  byTime : ByTime c.asleep D
  counts : Counts (ticks k.delta) c.now D
  ahead : ∀ e ∈ D, c.now < e.2
  running : ∀ p, k.state p = .RUNNING → ∀ q, p ∉ f q

namespace SleepInv
variable {k k' : Kernel} {c : Clock} {f : Queue → List Idx} {D : List (Idx × Nat)} {p : Idx} {nullDelta : Word}

theorem length_lt (h : SleepInv k c f D) : D.length < SLEEP_FUEL := by
  have hl := h.lists.length_le .sleepers
  rw [h.sleepers, List.length_map, Fintype.card_fin] at hl
  exact Nat.lt_of_le_of_lt hl (by decide)

/-- The walk of a `sleep` ends before the first that is due later. -/
theorem walk (h : SleepInv k c f D) (ms : Word) : ∃ xs ys δ, D = xs ++ ys ∧
    sleep_walk k SLEEP_FUEL (sleep_ticks ms) (.head .sleepers) = some (δ, tail (.head .sleepers) (xs.map (·.1))) ∧
    last c.now xs + δ.toNat = dueTime c.now ms ∧ (∀ e ∈ xs, e.2 ≤ dueTime c.now ms) ∧ ∀ e ∈ ys, dueTime c.now ms < e.2 := by
  have hc := h.lists.chain .sleepers
  rw [h.sleepers] at hc
  exact sleep_walk_spec hc h.counts (by rw [sleep_ticks_toNat]; rfl) h.length_lt

theorem sleep (h : SleepInv k c f D) (hp : k.state p = .RUNNING) {ms : Word} (hms : ms ≠ 0) :
    ∃ k' f' D', Xeros.sleep k p ms = some k' ∧ SleepInv k' (c.sleep p ms) f' D' := by
  obtain ⟨xs, ys, δ, hD, hw, hδ, hx, hy⟩ := h.walk ms
  have hun := h.running p hp
  have hf : f .sleepers = xs.map (·.1) ++ ys.map (·.1) := by rw [h.sleepers, hD, List.map_append]
  obtain ⟨k', hs, hlists, e⟩ := sleep_insert h.lists hun hf (sleep_ticks_ne hms) hw
  have hnd := h.lists.nodup .sleepers
  have hnot := hun .sleepers
  rw [hf] at hnd hnot
  refine ⟨k', _, xs ++ (p, dueTime c.now ms) :: ys, hs, hlists, ?_, ?_, ?_, ?_, ?_, ?_⟩
  · rw [Function.update_of_ne (by decide)]
    exact h.ready
  · rw [Function.update_self]
    simp
  · have hb := h.byTime
    rw [hD] at hb
    exact hb.insert hx hy p
  · have hcount := h.counts
    rw [hD] at hcount
    have hdelta : k'.delta = rebased k.delta p δ (ys.map (·.1)) := by rw [e]
    rw [hdelta]
    exact counts_rebased hcount (by rwa [List.map_append]) (by rwa [List.map_append]) hδ hy
  · intro e' he'
    rcases List.mem_append.1 he' with he' | he'
    · exact h.ahead e' (by rw [hD]; exact List.mem_append_left _ he')
    · rcases List.mem_cons.1 he' with rfl | he'
      · have hms' : ms.toNat ≠ 0 := fun e => hms (BitVec.eq_of_toNat_eq e)
        change c.now < c.now + (ms.toNat + 9) / 10
        omega
      · exact h.ahead e' (by rw [hD]; exact List.mem_append_right _ he')
  · intro i hi q hq
    have hstate : k'.state = Function.update k.state p .SLEEPING := by rw [e]
    rw [hstate] at hi
    have hip : i ≠ p := by
      rintro rfl
      rw [Function.update_self] at hi
      cases hi
    rw [Function.update_of_ne hip] at hi
    by_cases hqs : q = .sleepers
    · subst hqs
      rw [Function.update_self] at hq
      apply h.running i hi .sleepers
      rw [hf]
      simpa [hip] using hq
    · rw [Function.update_of_ne hqs] at hq
      exact h.running i hi q hq

/-- A tick splits the sleepers into those that are due and the others. It returns as long as somebody is left,
or what it finds at the end of the list is not 0. -/
theorem tick_due (h : SleepInv k c f D) : ∃ xs ys, D = xs ++ ys ∧ (∀ e ∈ xs, e.2 = c.now + 1) ∧
    (∀ e ∈ ys, c.now + 1 < e.2) ∧ ∀ nullDelta : Word, (D ≠ [] → ys = [] → nullDelta ≠ 0) →
      ∃ k', Xeros.tick nullDelta k = some k' ∧ Counts (ticks k'.delta) (c.now + 1) ys ∧
        Family k'.links (wake f .sleepers (xs.map (·.1)) (ys.map (·.1))) ∧
        k'.irc = setAll k.irc (xs.map (·.1)) 0 ∧ k'.state = setAll k.state (xs.map (·.1)) .READY := by
  have hc := h.lists.chain .sleepers
  rw [h.sleepers] at hc
  cases D with
  | nil =>
    have hs : k.sleep_list = none := hc
    refine ⟨[], [], rfl, by simp, by simp, fun nullDelta _ => ⟨k, ?_, trivial, ?_, ?_, ?_⟩⟩
    · exact tick_none hs nullDelta
    · have hw : wake f .sleepers [] [] = f := wake_nil h.sleepers
      exact hw.symm ▸ h.lists
    · rw [List.map_nil, setAll_nil]
    · rw [List.map_nil, setAll_nil]
  | cons e D =>
    have hs : k.sleep_list = some e.1 := hc.1
    set k1 : Kernel := { k with delta := Function.update k.delta e.1 (k.delta e.1 - 1) } with hk1
    have hnodup := h.lists.nodup .sleepers
    rw [h.sleepers, List.map_cons, List.nodup_cons] at hnodup
    have hcounts : Counts (ticks k1.delta) (c.now + 1) (e :: D) :=
      counts_tick h.counts (h.ahead e List.mem_cons_self) hnodup.1
    obtain ⟨xs, ys, hsplit, hx, hy, hhead, hys⟩ := hcounts.split
    have hsleepers : f .sleepers = xs.map (·.1) ++ ys.map (·.1) := by rw [h.sleepers, hsplit, List.map_append]
    have hlen : (xs.map (·.1)).length < TICK_FUEL := by
      have hl := h.lists.length_le .sleepers
      rw [hsleepers, List.length_append, Fintype.card_fin] at hl
      exact Nat.lt_of_le_of_lt (Nat.le_trans (Nat.le_add_right _ _) hl) (by decide)
    have hlists : Family k1.links f := h.lists
    refine ⟨xs, ys, hsplit, fun a ha => (hx a ha).2, hy, fun nullDelta hend => ?_⟩
    obtain ⟨k', ht, hf', e'⟩ := tick_loop_spec hlists hsleepers
      (fun i hi => by
        obtain ⟨a, ha, rfl⟩ := List.mem_map.1 hi
        exact BitVec.eq_of_toNat_eq (hx a ha).1)
      (fun i hi hz => by
        rw [List.head?_map] at hi
        obtain ⟨a, ha, rfl⟩ := Option.mem_map.1 hi
        apply hhead a ha
        rw [ticks, hz]
        rfl)
      hlen fun hnil => hend (List.cons_ne_nil e D) (List.map_eq_nil_iff.1 hnil)
    refine ⟨k', ?_, ?_, hf', ?_, ?_⟩
    · rw [tick_some hs]
      exact ht
    · have hd : k'.delta = k1.delta := by rw [e']
      rwa [hd]
    · rw [e']
    · rw [e']

theorem tick (h : SleepInv k c f D) (hnd : nullDelta ≠ 0) : ∃ k' f' D', Xeros.tick nullDelta k = some k' ∧
    k'.irc = setAll k.irc c.due 0 ∧ SleepInv k' c.tick f' D' := by
  obtain ⟨xs, ys, hD, hx, hy, hret⟩ := h.tick_due
  obtain ⟨k', ht, hcounts, hlists, hirc, hstate⟩ := hret nullDelta fun _ _ => hnd
  have hbt := h.byTime
  rw [hD] at hbt
  obtain ⟨hdue, hrest⟩ := hbt.due hx hy
  have hwoken : xs.map (·.1) = c.due := by rw [hdue]; rfl
  have hf : f .sleepers = xs.map (·.1) ++ ys.map (·.1) := by rw [h.sleepers, hD, List.map_append]
  rw [hwoken] at hirc
  refine ⟨k', _, ys, ht, hirc, hlists, ?_, wake_self (by decide), hrest, hcounts, hy, ?_⟩
  · rw [wake_ready, h.ready, hwoken]
    rfl
  · intro p hp q hq
    rw [hstate] at hp
    by_cases hm : p ∈ xs.map (·.1)
    · rw [setAll_mem k.state _ hm] at hp
      cases hp
    · rw [setAll_not_mem k.state _ hm] at hp
      obtain ⟨r, hr⟩ := mem_wake hf hq
      exact h.running p hp r hr

/-- The first ready process is run. -/
theorem run {is : List Idx} (h : SleepInv k c f D) (hf : f .ready = p :: is) : ∃ k', next k = (some p, k') ∧
    SleepInv { k' with state := Function.update k'.state p .RUNNING } c.run (Function.update f .ready is) D := by
  obtain ⟨k', hn, -, hlists, e⟩ := next_some h.lists hf
  have hsplit : f .ready = [] ++ p :: is := hf
  have hun := h.lists.not_mem_remove hsplit
  refine ⟨k', hn, hlists, ?_, ?_, h.byTime, ?_, h.ahead, ?_⟩
  · rw [Function.update_self, Clock.run, ← h.ready, hf]
    rfl
  · rw [Function.update_of_ne (by decide)]
    exact h.sleepers
  · have hdelta : k'.delta = k.delta := by rw [e]
    rw [hdelta]
    exact h.counts
  · intro i hi q hq
    by_cases hip : i = p
    · subst hip
      exact hun q hq
    · have hstate : k'.state = k.state := by rw [e]
      have hik : k.state i = .RUNNING := by
        rw [← hstate]
        exact (Function.update_of_ne hip .RUNNING k'.state).symm.trans hi
      by_cases hqr : q = .ready
      · subst hqr
        rw [Function.update_self] at hq
        apply h.running i hik .ready
        rw [hf]
        exact List.mem_cons_of_mem _ hq
      · rw [Function.update_of_ne hqr] at hq
        exact h.running i hik q hq

theorem yield (h : SleepInv k c f D) (hp : k.state p = .RUNNING) (hr : Xeros.ready k p = some k') :
    SleepInv k' (c.yield p) (Function.update f .ready (f .ready ++ [p])) D := by
  obtain ⟨k1, hr1, -, hlists⟩ := ready_spec h.lists (h.running p hp)
  obtain rfl : k1 = k' := Option.some.inj (hr1.symm.trans hr)
  have e := ready_eq hr
  refine ⟨hlists, ?_, ?_, h.byTime, ?_, h.ahead, ?_⟩
  · rw [Function.update_self, h.ready]
    rfl
  · rw [Function.update_of_ne (by decide)]
    exact h.sleepers
  · have hdelta : k1.delta = k.delta := by rw [e]
    rw [hdelta]
    exact h.counts
  · intro i hi q hq
    have hstate : k1.state = Function.update k.state p .READY := by rw [e]
    rw [hstate] at hi
    have hip : i ≠ p := by
      rintro rfl
      rw [Function.update_self] at hi
      cases hi
    rw [Function.update_of_ne hip] at hi
    by_cases hqr : q = .ready
    · subst hqr
      rw [Function.update_self] at hq
      apply h.running i hi .ready
      simpa [hip] using hq
    · rw [Function.update_of_ne hqr] at hq
      exact h.running i hi q hq

theorem start {s : SleepSys} (h : SleepInit s) : ∃ f D, SleepInv s.kernel s.clock f D := by
  obtain ⟨f, hf, hsl, hrun, hclock⟩ := h
  refine ⟨f, [], hf, ?_, hsl, ?_, trivial, by simp, hrun⟩
  · rw [hclock]
  · rw [hclock]
    exact ⟨List.Pairwise.nil, fun t => rfl⟩

theorem step {e : SleepEvent} {s s' : SleepSys} (h : SleepInv s.kernel s.clock f D) (hnd : nullDelta ≠ 0)
    (ht : sleepStep nullDelta e s = some s') : ∃ f' D', SleepInv s'.kernel s'.clock f' D' := by
  cases e with
  | sleep p ms =>
    simp only [sleepStep] at ht
    split at ht
    · next hp =>
      obtain ⟨k', f', D', hs, h'⟩ := h.sleep hp.1 hp.2
      rw [hs] at ht
      cases ht
      exact ⟨f', D', h'⟩
    · cases ht
  | tick =>
    obtain ⟨k', f', D', hs, -, h'⟩ := h.tick hnd
    rw [sleepStep, hs] at ht
    cases ht
    exact ⟨f', D', h'⟩
  | run =>
    simp only [sleepStep] at ht
    cases hf : f .ready with
    | nil =>
      rw [next_none h.lists hf] at ht
      cases ht
      exact ⟨f, D, h⟩
    | cons p is =>
      obtain ⟨k', hn, h'⟩ := h.run hf
      rw [hn] at ht
      cases ht
      exact ⟨_, D, h'⟩
  | yield p =>
    simp only [sleepStep] at ht
    split at ht
    · next hp =>
      obtain ⟨k', hr, ht⟩ := Option.bind_eq_some_iff.1 ht
      cases ht
      exact ⟨_, D, h.yield hp hr⟩
    · cases ht

theorem punctual (h : SleepInv k c f D) (hnd : nullDelta ≠ 0) : Punctual nullDelta k c := by
  have hready := h.lists.chain .ready
  have hsleepers := h.lists.chain .sleepers
  rw [h.ready] at hready
  rw [h.sleepers] at hsleepers
  refine ⟨hready, ⟨D, h.byTime, hsleepers⟩, ?_, ?_, ?_, ?_, ?_⟩
  · have hperm := (h.byTime.perm.map (·.1)).append_right c.ready
    rw [← hperm.nodup_iff, ← h.sleepers, ← h.ready]
    refine List.nodup_append.2 ⟨h.lists.nodup _, h.lists.nodup _, fun a ha b hb hab => ?_⟩
    cases h.lists.disj _ _ a ha (hab ▸ hb)
  · intro e he
    exact h.ahead e ((h.byTime.mem_iff e).2 he)
  · obtain ⟨k', -, -, ht, hirc, -⟩ := h.tick hnd
    exact ⟨k', ht, hirc⟩
  · intro p hp h0
    cases D with
    | nil =>
      have hs : k.sleep_list = none := hsleepers
      rw [hs] at hp
      cases hp
    | cons e D =>
      have hs : k.sleep_list = some e.1 := hsleepers.1
      rw [hs] at hp
      cases hp
      have h1 : c.now + (k.delta e.1).toNat = e.2 := h.counts.1
      have h2 := h.ahead e List.mem_cons_self
      rw [h0] at h1
      have hz : (0 : Word).toNat = 0 := rfl
      omega
  · intro p ms hp hms
    obtain ⟨k', -, -, hs, -⟩ := h.sleep hp hms
    refine ⟨⟨k', hs⟩, ?_⟩
    obtain ⟨xs, ys, δ, hD, hw, hδ, -, hy⟩ := h.walk ms
    refine ⟨δ, _, hw, fun i hi => ?_⟩
    have hcounts := h.counts
    rw [hD] at hcounts
    have hlt := left_lt hcounts hδ hy
    rw [hD, List.map_append] at hsleepers
    have hys := (chain_append.1 hsleepers).2
    cases ys with
    | nil =>
      have hn : k.links (tail (.head .sleepers) (xs.map (·.1))) = none := hys
      rw [hn] at hi
      cases hi
    | cons y ys =>
      have hn : k.links (tail (.head .sleepers) (xs.map (·.1))) = some y.1 := hys.1
      rw [hn] at hi
      cases hi
      exact BitVec.le_def.2 (Nat.le_of_lt (hlt y rfl))

end SleepInv

/-! ## Results -/

/-- In every run, every sleeper is woken by the tick it is due at. -/
theorem sleepers_punctual {nullDelta : Word} (hnd : nullDelta ≠ 0) {s : SleepSys}
    (hs : Reach (sleepStep nullDelta) SleepInit Any s) : Punctual nullDelta s.kernel s.clock := by
  obtain ⟨f, D, h⟩ : ∃ f D, SleepInv s.kernel s.clock f D := by
    refine hs.inv (fun s => ∃ f D, SleepInv s.kernel s.clock f D) (fun s h => SleepInv.start h) ?_
    rintro s e s' ⟨f, D, h⟩ _ ht
    exact h.step hnd ht
  exact h.punctual hnd

/-- Processes 0, 1 and 2 run, and nothing else has happened. -/
def threeRunning : SleepSys :=
  { kernel := { statics fun _ => 0 with state := fun i => if i < 3 then .RUNNING else .STOPPED }
    clock := ⟨0, [], []⟩ }

theorem threeRunning_init : SleepInit threeRunning := by
  refine ⟨fun _ => [], ⟨fun q => ?_, fun _ => .nil, by simp⟩, rfl, by simp, rfl⟩
  rcases q with _ | _ | p | p <;> rfl

/-- Process 1 calls `sleep` later than process 0 and is woken first; process 2
is due together with process 0 and comes behind it. -/
theorem sleepers_punctual_3_sleepers : ∃ s, Reach (sleepStep 1) SleepInit Any s ∧
    s.clock.ready = [1, 0, 2] ∧ Punctual 1 s.kernel s.clock := by
  have h0 : Reach (sleepStep 1) SleepInit Any threeRunning := .start threeRunning_init
  obtain ⟨s, hs, ht⟩ := h0.exec_any [.sleep 0 25, .tick, .sleep 1 10, .sleep 2 20, .tick, .tick]
    (fun s => decide (s.clock.ready = [1, 0, 2])) (by decide +kernel)
  exact ⟨s, hs, of_decide_eq_true ht, sleepers_punctual (by decide) hs⟩

end Xeros
