import Xeros.Procs.Effects
import Xeros.Signal.Delivery
/-!
# Every posted signal is accounted for

Between its `KILL` and the handler a signal is one bit. In every run, for every
process and every signal since the process was created, the signals posted are
those that were merged with one that was pending, those that were delivered and
the one that is pending now (`signals_conserved`): none is lost, whatever the
process is doing, and none is delivered twice or without a `KILL`.
-/

namespace Xeros

open Kernel Runs

variable {im : Image} {k k1 k' : Kernel} {p q : Idx} {i : Fin NUM_SIGNAL}

/-! ## What happens to signals -/

/-- The PCB that a request takes into use. -/
def takenInUse (k : Kernel) (p : Idx) : Option Request → Option Idx
  | some .CREATE => do
    let (ptr, _) ← kmalloc k.toHeap (k.arg p 1 + SAFETY_MARGIN + SIZEOF_CONTEXTFRAME)
    if ptr ≠ 0 then firstStopped k else none
  | _ => none

/-- The signal that a request posts, and the process it is for. -/
def posts (k : Kernel) (p : Idx) : Option Request → Option (Idx × Fin NUM_SIGNAL)
  | some .KILL => (killed k (k.arg p 0) (k.arg p 1)).map fun q => (q, Fin.ofNat NUM_SIGNAL (k.arg p 1).toNat)
  | _ => none

/-- The signal that is delivered to the next process. -/
def delivers (k : Kernel) (next : Option Idx) : Option (Idx × Fin NUM_SIGNAL) :=
  next.bind fun q => if Deliverable k q then some (q, sig_to_deliver (k.pending_sig q)) else none

/-! ## Counting -/

structure Tally where
  posted : Nat
  /-- Posted while pending. -/
  merged : Nat
  delivered : Nat
  deriving DecidableEq

/-- What has happened to each signal of each process. -/
abbrev Tallies := Idx → Fin NUM_SIGNAL → Tally

namespace Tallies

def reset (t : Tallies) : Option Idx → Tallies
  | none => t
  | some q => Function.update t q fun _ => ⟨0, 0, 0⟩

/-- `f` is applied to one tally. -/
def count (t : Tallies) (f : Idx → Fin NUM_SIGNAL → Tally → Tally) : Option (Idx × Fin NUM_SIGNAL) → Tallies
  | none => t
  | some (q, i) => Function.update t q (Function.update (t q) i (f q i (t q i)))

def post (t : Tallies) (k : Kernel) : Option (Idx × Fin NUM_SIGNAL) → Tallies :=
  t.count fun q i n =>
    { n with posted := n.posted + 1, merged := n.merged + if Has (k.pending_sig q) i then 1 else 0 }

def deliver (t : Tallies) : Option (Idx × Fin NUM_SIGNAL) → Tallies :=
  t.count fun _ _ n => { n with delivered := n.delivered + 1 }

/-- A turn for the request `r` of `p`, behind which the process `next` runs. -/
def turn (t : Tallies) (im : Image) (k : Kernel) (p : Idx) (r : Option Request) (next : Option Idx) : Tallies :=
  if r = some .TIME_INT then t
  else
    let served := (r.bind fun r => (handle_request im k p r).map Prod.fst).getD k
    ((t.reset (takenInUse k p r)).post k (posts k p r)).deliver (delivers served next)

/-- The signals posted are those merged, those delivered and the one pending. -/
def Balanced (t : Tallies) (k : Kernel) : Prop :=
  ∀ q i, (t q i).posted = (t q i).merged + (t q i).delivered + if Has (k.pending_sig q) i then 1 else 0

theorem Balanced.of_eq {t : Tallies} (h : t.Balanced k) (e : k'.pending_sig = k.pending_sig) : t.Balanced k' := by
  intro q i
  rw [e]
  exact h q i

/-- One tally changes with one bit. -/
theorem Balanced.count {t : Tallies} {f : Idx → Fin NUM_SIGNAL → Tally → Tally} (h : t.Balanced k)
    (hone : (f q i (t q i)).posted =
      (f q i (t q i)).merged + (f q i (t q i)).delivered + if Has (k'.pending_sig q) i then 1 else 0)
    (hbits : ∀ q' i', (q', i') ≠ (q, i) → (Has (k'.pending_sig q') i' ↔ Has (k.pending_sig q') i')) :
    (t.count f (some (q, i))).Balanced k' := by
  intro q' i'
  by_cases e : (q', i') = (q, i)
  · cases e
    rw [Tallies.count, Function.update_self, Function.update_self]
    exact hone
  · have hsame : t.count f (some (q, i)) q' i' = t q' i' := by
      rw [Tallies.count]
      by_cases hq : q' = q
      · subst hq
        have hi : i' ≠ i := fun hi => e (by rw [hi])
        rw [Function.update_self, Function.update_of_ne hi]
      · rw [Function.update_of_ne hq]
    rw [hsame, if_congr (hbits q' i' e) rfl rfl]
    exact h q' i'

end Tallies

/-! ## Requests -/

/-- Only a new process and a signal change what is pending. -/
theorem Effect.pending_sig {r : Request} (h : Effect im k k' p r) (hc : r ≠ .CREATE) (hk : r ≠ .KILL) :
    k'.pending_sig = k.pending_sig := by
  cases h with
  | moves hr hm => rw [hm]
  | refused h => exact absurd rfl hc
  | created q pid k1 k2 hfs hloop hins hk1 hr h => exact absurd rfl hc
  | stopped h =>
    obtain ⟨k1, k2, k3, h1, h2, h3, h⟩ := cleanup_cases h
    obtain ⟨⟨t, hp⟩, -, h⟩ := Option.bind_eq_some_iff.1 h
    cases h
    have e1 : k1.pending_sig = k.pending_sig := by rw [Moves.drain h1]
    have e2 : k2.pending_sig = k1.pending_sig := by rw [Moves.drain h2]
    change k3.pending_sig = _
    rw [h3, close_all_eq]
    exact e2.trans e1
  | registered handlers allowed h => rw [h]
  | returned esp hi_sig irc h => rw [h]
  | posted k1 rc v hs h => exact absurd rfl hk
  | drives dvs hr h => rw [h]

theorem signal_pending {pid sig_no : Word} {rc : Int} (h : signal k pid sig_no = some (k', rc)) :
    k'.pending_sig = match killed k pid sig_no with
      | none => k.pending_sig
      | some q => Function.update k.pending_sig q (k.pending_sig q ||| SIG_INT sig_no.toNat) := by
  unfold signal at h
  unfold killed
  split at h
  · next hrange =>
    cases h
    rw [if_pos hrange]
  next hrange =>
  rw [if_neg hrange]
  split at h
  · next hl =>
    cases h
    rw [hl]
    rfl
  next pcb_index hl =>
  obtain ⟨q, hq, h⟩ := Option.bind_eq_some_iff.1 h
  rw [hl]
  simp only [Option.bind_eq_bind, Option.bind_some, hq]
  simp only [] at h
  split at h
  · next hallowed =>
    rw [if_pos hallowed]
    split at h
    · cases h
    split at h
    · obtain ⟨k2, hr, h⟩ := Option.bind_eq_some_iff.1 h
      cases h
      rw [ready_eq hr]
    · split at h
      · obtain ⟨k2, hr, h⟩ := Option.bind_eq_some_iff.1 h
        cases h
        rw [ready_eq hr]
      · cases h
        rfl
  · next hallowed =>
    cases h
    rw [if_neg hallowed]

theorem create_pending {func stack parent r : Word} (h : create im k func stack parent = some (r, k')) :
    k'.pending_sig = match (do
        let (ptr, _) ← kmalloc k.toHeap (stack + SAFETY_MARGIN + SIZEOF_CONTEXTFRAME)
        if ptr ≠ 0 then firstStopped k else none : Option Idx) with
      | none => k.pending_sig
      | some q => Function.update k.pending_sig q 0 := by
  unfold create at h
  obtain ⟨⟨ptr, hp⟩, hm, h⟩ := Option.bind_eq_some_iff.1 h
  rw [hm]
  simp only [Option.bind_eq_bind, Option.bind_some]
  simp only [] at h
  split at h
  · next hptr =>
    rw [if_pos hptr]
    have hfs : firstStopped { k with toHeap := hp } = firstStopped k := rfl
    rw [hfs] at h
    cases hq : firstStopped k with
    | none =>
      rw [hq] at h
      obtain ⟨h', -, h⟩ := Option.bind_eq_some_iff.1 h
      cases h
      rfl
    | some q =>
      rw [hq] at h
      obtain ⟨⟨pid, k1⟩, hnp, h⟩ := Option.bind_eq_some_iff.1 h
      obtain ⟨pid', -, hk1⟩ := Option.bind_eq_some_iff.1 hnp
      cases hk1
      obtain ⟨k2, hins, h⟩ := Option.bind_eq_some_iff.1 h
      obtain ⟨⟨t, h2⟩, -, hk2⟩ := Option.bind_eq_some_iff.1 hins
      cases hk2
      obtain ⟨k3, hrdy, h⟩ := Option.bind_eq_some_iff.1 h
      cases h
      rw [ready_eq hrdy]
      rfl
  · next hptr =>
    rw [if_neg hptr]
    cases h
    rfl

/-! ## A step -/

namespace Tallies

variable {t : Tallies}

theorem Balanced.reset (h : t.Balanced k) (e : k'.pending_sig = Function.update k.pending_sig q 0) :
    (t.reset (some q)).Balanced k' := by
  intro q' i'
  rw [e]
  by_cases hq : q' = q
  · subst hq
    rw [Tallies.reset, Function.update_self, Function.update_self, if_neg (by simp)]
    rfl
  · rw [Tallies.reset, Function.update_of_ne hq, Function.update_of_ne hq]
    exact h q' i'

theorem Balanced.post (h : t.Balanced k)
    (e : k'.pending_sig = Function.update k.pending_sig q (k.pending_sig q ||| SIG_INT i)) :
    (t.post k (some (q, i))).Balanced k' := by
  apply h.count
  · have hq := h q i
    rw [e, Function.update_self, if_pos ((has_set _ i i).2 (.inr rfl))]
    simp only []
    split
    · next hpend =>
      rw [if_pos hpend] at hq
      omega
    · next hpend =>
      rw [if_neg hpend] at hq
      omega
  · intro q' i' hne
    rw [e]
    by_cases hq : q' = q
    · subst hq
      have hi : i' ≠ i := fun hi => hne (by rw [hi])
      rw [Function.update_self, has_set]
      exact or_iff_left hi
    · rw [Function.update_of_ne hq]

theorem Balanced.deliver (h : t.Balanced k) (q : Idx) (im : Image) :
    (t.deliver (delivers k (some q))).Balanced (resume im k q) := by
  have hpend : (resume im k q).pending_sig = (deliver_signal im k q).pending_sig := rfl
  unfold delivers
  rw [Option.bind_some]
  split
  · next hd =>
    have hspec : Delivered k (deliver_signal im k q) q (sig_to_deliver (k.pending_sig q)) := deliver_signal_spec hd
    have hne : k.pending_sig q ≠ 0 := by
      intro h0
      apply hd
      rw [h0]
      exact BitVec.zero_and
    have hhas := (sig_to_deliver_spec hne).1
    apply h.count
    · have hq := h q (sig_to_deliver (k.pending_sig q))
      rw [if_pos hhas] at hq
      rw [hpend, if_neg fun hh => ((hspec.pending _).1 hh).2 rfl]
      simp only []
      omega
    · intro q' i' hne'
      rw [hpend]
      by_cases hq : q' = q
      · subst hq
        have hi : i' ≠ sig_to_deliver (k.pending_sig q') := fun hi => hne' (by rw [← hi])
        rw [hspec.pending]
        exact and_iff_left hi
      · have hsame : (deliver_signal im k q).pending_sig q' = k.pending_sig q' := by
          unfold deliver_signal
          split
          · exact Function.update_of_ne hq ..
          · rfl
        rw [hsame]
  · next hd =>
    apply h.of_eq
    rw [hpend, deliver_signal_none hd]

/-- The request of `p` is served. -/
theorem Balanced.serve {r : Request} {tr : Option Idx} (h : t.Balanced k) (hr : r ≠ .TIME_INT)
    (hh : handle_request im k p r = some (k', tr)) :
    ((t.reset (takenInUse k p (some r))).post k (posts k p (some r))).Balanced k' := by
  by_cases hc : r = .CREATE
  · subst hc
    obtain ⟨⟨pid, k1⟩, hc, hh⟩ := Option.bind_eq_some_iff.1 hh
    cases hh
    have e := create_pending hc
    change (t.reset (takenInUse k p (some .CREATE))).Balanced _
    change k1.pending_sig = match takenInUse k p (some .CREATE) with
      | none => k.pending_sig
      | some q => Function.update k.pending_sig q 0 at e
    generalize takenInUse k p (some .CREATE) = x at e ⊢
    cases x with
    | none => exact h.of_eq e
    | some q => exact h.reset e
  by_cases hk : r = .KILL
  · subst hk
    obtain ⟨⟨k1, rc⟩, hs, hh⟩ := Option.bind_eq_some_iff.1 hh
    cases hh
    have e := signal_pending hs
    change (t.post k ((killed k (k.arg p 0) (k.arg p 1)).map fun q => (q, Fin.ofNat NUM_SIGNAL (k.arg p 1).toNat))).Balanced _
    cases hkilled : killed k (k.arg p 0) (k.arg p 1) with
    | none =>
      rw [hkilled] at e
      exact h.of_eq e
    | some q =>
      rw [hkilled] at e
      apply h.post
      have hsig : (Fin.ofNat NUM_SIGNAL (k.arg p 1).toNat : Nat) = (k.arg p 1).toNat := by
        obtain ⟨⟨h0, h32⟩, -⟩ := killed_spec hkilled
        have hint := BitVec.toInt_eq_toNat_cond (k.arg p 1)
        simp only [NUM_SIGNAL] at h32
        apply Nat.mod_eq_of_lt
        change (k.arg p 1).toNat < 32
        split at hint
        · omega
        · omega
      rw [hsig]
      exact e
  have htaken : takenInUse k p (some r) = none := by
    cases r <;> first | rfl | exact absurd rfl hc
  have hposts : posts k p (some r) = none := by
    cases r <;> first | rfl | exact absurd rfl hk
  rw [htaken, hposts]
  exact h.of_eq ((handle_request_effect hr hh).1.pending_sig hc hk)

theorem delivers_moves (h : Moves k k') (next : Option Idx) : delivers k' next = delivers k next := by
  have hpend : k'.pending_sig = k.pending_sig := by rw [h]
  have hhi : k'.hi_sig = k.hi_sig := by rw [h]
  have hd : ∀ q, Deliverable k' q ↔ Deliverable k q := by
    intro q
    unfold Deliverable
    rw [hpend, hhi]
  unfold delivers
  simp only [hd, hpend]

/-- The end of a turn delivers at most one signal, to the process it resumes. -/
theorem Balanced.dispatch_next {tr : Option Idx} {s : Sys} (h : t.Balanced k) (hn : Xeros.dispatch_next im k tr = some s) :
    (t.deliver (delivers k s.cur)).Balanced s.kernel := by
  obtain ⟨k2, hm, -, -, hend⟩ := dispatch_next_effect (p := 0) hn
  have h2 : t.Balanced k2 := h.of_eq (by rw [hm])
  rw [← delivers_moves hm]
  rcases hend with rfl | ⟨q, rfl⟩
  · exact h2
  · exact h2.deliver q im

theorem Balanced.turn {r : Option Request} {s : Sys} (h : t.Balanced k) (hd : dispatch_request im k p r = some s) :
    (t.turn im k p r s.cur).Balanced s.kernel := by
  unfold Tallies.turn
  cases r with
  | none =>
    have hd' : Xeros.dispatch_next im k none = some s := hd
    rw [if_neg (by simp)]
    exact h.dispatch_next hd'
  | some r =>
    by_cases hr : r = .TIME_INT
    · subst hr
      obtain rfl : (⟨switch_to k p, some p⟩ : Sys) = s := Option.some.inj hd
      rw [if_pos rfl]
      exact h.of_eq rfl
    · rw [dispatch_request_eq im k p hr] at hd
      obtain ⟨⟨k1, tr⟩, hh, hn⟩ := Option.bind_eq_some_iff.1 hd
      rw [if_neg fun e => hr (Option.some.inj e), Option.bind_some, hh]
      exact (h.serve hr hh).dispatch_next hn

end Tallies

/-! ## The machine, with its tallies -/

structure Tallied where
  sys : Sys
  tally : Tallies

def talliedStep (im : Image) (e : Event) (s : Tallied) : Option Tallied := do
  let sys ← step im e s.sys
  match trapped s.sys e with
  | some (k, p, r) => some ⟨sys, s.tally.turn im k p r sys.cur⟩
  | none => some ⟨sys, s.tally⟩

/-- The machine after `initproc`, before the first signal. -/
def TalliedInit (im : Image) (s : Tallied) : Prop := Booted im s.sys ∧ ∀ q i, s.tally q i = ⟨0, 0, 0⟩

theorem Tallied.step {s s' : Tallied} {e : Event} (h : s.tally.Balanced s.sys.kernel) (ht : talliedStep im e s = some s') :
    s'.tally.Balanced s'.sys.kernel := by
  obtain ⟨sys, hs, ht⟩ := Option.bind_eq_some_iff.1 ht
  rcases step_cases hs with ⟨g, rfl, rfl⟩ | ⟨codes, k, t, rfl, hl, rfl⟩ | ⟨k, p, r, htr, hd⟩
  · cases ht
    exact h.of_eq rfl
  · cases ht
    exact h.of_eq (by rw [keyboard_lower_eq hl])
  · rw [htr] at ht
    cases ht
    have hk : s.tally.Balanced k := h.of_eq (by rw [trapped_eq htr])
    exact hk.turn hd

theorem create_no_signals {func stack parent r : Word} (h0 : ∀ q, k.pending_sig q = 0)
    (h : create im k func stack parent = some (r, k')) (q : Idx) : k'.pending_sig q = 0 := by
  rw [create_pending h]
  split
  · exact h0 q
  · next j hj =>
    by_cases hq : q = j
    · rw [hq, Function.update_self]
    · rw [Function.update_of_ne hq]
      exact h0 q

theorem boot_no_signals {m : Mem} {root idleproc : Word} {s : Sys} (hb : boot im m root idleproc = some s) (q : Idx) :
    s.kernel.pending_sig q = 0 := by
  obtain ⟨pid1, k1, pid2, k2, idle, hc1, hc2, -, hend⟩ := boot_cases hb
  have h2 := create_no_signals (create_no_signals (fun _ => rfl) hc1) hc2
  have hnext : ∀ j, (next { k2 with idle := some idle }).2.pending_sig j = 0 := by
    intro j
    have hm : (next { k2 with idle := some idle }).2.pending_sig = k2.pending_sig := by rw [Moves.next]
    rw [hm]
    exact h2 j
  rcases hend with ⟨-, rfl⟩ | ⟨j, -, rfl⟩
  · exact hnext q
  · have hnot : ¬Deliverable (next { k2 with idle := some idle }).2 j := by
      intro hd
      apply hd
      rw [hnext j]
      exact BitVec.zero_and
    change (deliver_signal im _ j).pending_sig q = 0
    rw [deliver_signal_none hnot]
    exact hnext q

/-! ## Results -/

/-- In every run: a signal that has been posted was merged with one that was
pending, or has been delivered, or is pending, and in one of these ways only. -/
theorem signals_conserved {s : Tallied} (hs : Reach (talliedStep im) (TalliedInit im) Any s) (q : Idx)
    (i : Fin NUM_SIGNAL) : (s.tally q i).posted =
      (s.tally q i).merged + (s.tally q i).delivered + if Has (s.sys.kernel.pending_sig q) i then 1 else 0 := by
  refine hs.inv (fun s => s.tally.Balanced s.sys.kernel) ?_ (fun s e s' h _ ht => Tallied.step h ht) q i
  rintro s ⟨⟨m, root, idleproc, hb⟩, h0⟩ q i
  rw [h0, boot_no_signals hb, if_neg (by simp)]
  rfl

def talliedBoot : Tallied := ⟨sampleSys, fun _ _ => ⟨0, 0, 0⟩⟩

/-- A process posts a signal to itself three times, the last two from its
handler: the first is delivered, the second is pending, the third is merged. -/
theorem signals_conserved_thrice : ∃ s, Reach (talliedStep sampleImage) (TalliedInit sampleImage) Any s ∧
    s.tally 0 5 = ⟨3, 1, 1⟩ ∧
    (s.tally 0 5).posted =
      (s.tally 0 5).merged + (s.tally 0 5).delivered + if Has (s.sys.kernel.pending_sig 0) 5 then 1 else 0 := by
  have h0 : Reach (talliedStep sampleImage) (TalliedInit sampleImage) Any talliedBoot :=
    .start ⟨sampleSys_booted, fun _ _ => rfl⟩
  obtain ⟨s, hs, ht⟩ := h0.exec_any
    (call 0x10000 .SIGHANDLER [5, 0x5000, 0] ++ call 0x10000 .KILL [1, 5] ++ call 0xF000 .KILL [1, 5] ++
      call 0xF000 .KILL [1, 5])
    (fun s => decide (s.tally 0 5 = ⟨3, 1, 1⟩)) (by decide +kernel)
  exact ⟨s, hs, of_decide_eq_true ht, signals_conserved hs 0 5⟩

end Xeros
