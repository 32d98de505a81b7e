import Xeros.Procs.Requests
/-!
# A signal for a blocked process

A signal ends the system call its target is blocked in: `ready` puts the
target behind the ready queue. It does not look where the target is, so the
list the target waits on, if any, ends with it from then on
(`signal_takes_off_iff`).
-/

namespace Xeros

open Links Kernel

variable {k k' : Kernel} {partner : Idx → Word} {f : Queue → List Idx} {p : Idx} {q : Queue} {pid sig_no : Word}

/-! ## What is asked for -/

/-- The ticks a sleeper has left: the deltas of the list up to its own. -/
def timeLeft (delta : Idx → Word) : List Idx → Idx → Nat
  | [], _ => 0
  | j :: js, i => if j = i then (delta j).toNat else (delta j).toNat + timeLeft delta js i

/-- The target `p` is on no list any more, where the lists were `f`, and the other blocked processes are as before. -/
structure Unqueued (f : Queue → List Idx) (p : Idx) (k k' : Kernel) : Prop where
  state : ∀ i, i ≠ p → k'.state i = k.state i
  /-- Every list but the ready queue is the old one without `p`. -/
  lists : ∃ f' : Queue → List Idx, (∀ q, Chain k'.links (.head q) (f' q)) ∧ (∀ q, q ≠ .ready → f' q = (f q).filter (· ≠ p)) ∧
    ∀ i ∈ f .sleepers, i ≠ p → timeLeft k'.delta (f' .sleepers) i = timeLeft k.delta (f .sleepers) i

/-! ## `ready` of a process that waits -/

/-- The list `ready` finds the process on is cut behind it. -/
theorem ready_listed {xs ys : List Idx} (h : Family k.links f) (hq : q ≠ .ready) (hsplit : f q = xs ++ p :: ys) :
    ∃ k', ready k p = some k' ∧ Chain k'.links (.head q) (xs ++ [p]) := by
  have hmem : ∀ i ∈ xs ++ [p], i ∈ f q := by
    intro i hi
    rw [hsplit]
    rcases List.mem_append.1 hi with hi | hi
    · exact List.mem_append_left _ hi
    · exact List.mem_append_right _ (List.mem_cons.2 (.inl (List.mem_singleton.1 hi)))
  have hnd := h.nodup q
  rw [hsplit] at hnd
  have hpx : p ∉ xs := fun hx => (List.nodup_append.1 hnd).2.2 p hx p List.mem_cons_self rfl
  have hc := h.chain q
  rw [hsplit] at hc
  obtain ⟨hpath, hp, -⟩ := chain_append.1 hc
  -- the end of the ready queue is not among the links of the other list
  have htail : ∀ l, (l = .head q ∨ ∃ i ∈ xs ++ [p], l = .next i) → l ≠ tail (.head .ready) (f .ready) := by
    rintro l hl e
    rcases tail_cases (Link.head Queue.ready) (f .ready) with ⟨-, e'⟩ | ⟨j, hj, e'⟩
    · rcases hl with rfl | ⟨i, -, rfl⟩
      · exact hq (Link.head.inj (e.trans e'))
      · cases e.trans e'
    · rcases hl with rfl | ⟨i, hi, rfl⟩
      · cases e.trans e'
      · have hij : i = j := Link.next.inj (e.trans e')
        exact hq (h.disj q .ready i (hmem i hi) (hij ▸ hj))
  have hlinks (k' : Kernel) (st : Idx → PState) :
      ({ k' with next := Function.update k'.next p none, state := st } : Kernel).links =
        Function.update k'.links (.next p) none := links_assign k' (.next p) none
  unfold ready
  rw [walk_end h]
  refine ⟨_, rfl, ?_⟩
  rw [hlinks, links_assign]
  -- every link but the one of `p` is as before
  have hsame : ∀ l, (l = .head q ∨ ∃ i ∈ xs, l = .next i) →
      Function.update (Function.update k.links (tail (.head .ready) (f .ready)) (some p)) (.next p) none l =
        k.links l := by
    intro l hl
    have hne : l ≠ .next p := by
      rintro rfl
      rcases hl with e | ⟨i, hi, e⟩
      · cases e
      · cases e
        exact hpx hi
    rw [Function.update_of_ne hne, Function.update_of_ne (htail l ?_)]
    exact hl.imp_right fun ⟨i, hi, e⟩ => ⟨i, List.mem_append_left _ hi, e⟩
  refine chain_append.2 ⟨hpath.congr (fun l hl _ => hsame l hl) (List.nodup_append.1 hnd).1 (by simp), ?_, ?_⟩
  · rw [hsame _ ?_, hp]
    rcases tail_cases (.head q) xs with ⟨-, e⟩ | ⟨i, hi, e⟩
    · exact .inl e
    · exact .inr ⟨i, hi, e⟩
  · exact Function.update_self ..

/-! ## The signal -/

/-- For a blocked target `signal` records the number, readies the target and sets its return value. -/
theorem signal_blocked (hk : killed k pid sig_no = some p) (hb : PState.READY.code < (k.state p).code) :
    signal k pid sig_no = (ready { k with
        pending_sig := Function.update k.pending_sig p (k.pending_sig p ||| SIG_INT sig_no.toNat) } p).map fun k1 =>
      ({ k1 with irc := Function.update k1.irc p (if k.state p = .WAITING then sig_no else -129) }, 0) := by
  unfold killed at hk
  split at hk
  · cases hk
  next hrange =>
  obtain ⟨pcb_index, hl, hk⟩ := Option.bind_eq_some_iff.1 hk
  obtain ⟨i, hi, hk⟩ := Option.bind_eq_some_iff.1 hk
  split at hk
  swap
  · cases hk
  next hallowed =>
  cases hk
  have hused : k.state p ≠ .STOPPED := by
    intro e
    rw [e] at hb
    exact absurd hb (by decide)
  unfold signal
  rw [if_neg hrange, hl]
  change (pcbAt pcb_index).bind _ = _
  rw [hi, Option.bind_some]
  simp only []
  rw [if_pos hallowed, if_neg hused]
  by_cases hw : k.state p = .WAITING
  · have hcode : ¬(PState.READY.code < (k.state p).code ∧ (k.state p).code < PState.WAITING.code) := by
      rw [hw]
      decide
    rw [if_neg hcode, if_pos hw, if_pos hw]
    cases ready { k with
      pending_sig := Function.update k.pending_sig p (k.pending_sig p ||| SIG_INT sig_no.toNat) } p <;> rfl
  · have hcode : (k.state p).code < PState.WAITING.code := by
      cases hst : k.state p with
      | WAITING => exact absurd hst hw
      | _ => decide
    rw [if_pos ⟨hb, hcode⟩, if_neg hw]
    cases ready { k with
      pending_sig := Function.update k.pending_sig p (k.pending_sig p ||| SIG_INT sig_no.toNat) } p <;> rfl

/-- `KillOk` says of a blocked target that it is on no list. -/
theorem killOk_iff_unlisted (hk : killed k pid sig_no = some p) (hb : PState.READY.code < (k.state p).code) :
    KillOk k partner pid sig_no ↔ ¬Listed (k.state p) (partner p) := by
  have hof : KillOk k partner pid sig_no ↔
      k.state p ≠ .SENDING ∧ k.state p ≠ .SLEEPING ∧ (k.state p = .RECEIVING → partner p = 0) := by
    rw [KillOk, hk]
    exact ⟨fun h => h p rfl, fun h q hq => Option.some.inj hq ▸ h⟩
  rw [hof]
  cases hst : k.state p with
  | READY =>
    rw [hst] at hb
    exact absurd hb (Nat.lt_irrefl _)
  | _ => simp [Listed]

/-! ## Result -/

/-- In every state where each process is queued where its state says, a signal for a blocked target returns;
it takes the target off its list and leaves the other blocked processes alone exactly when the target was on
no list: when it reads, writes, waits for a signal or receives from any. -/
theorem signal_takes_off_iff (h : Queued k.links k.state k.pid partner f) (hk : killed k pid sig_no = some p)
    (hb : PState.READY.code < (k.state p).code) :
    ∃ k', signal k pid sig_no = some (k', 0) ∧ (Unqueued f p k k' ↔ KillOk k partner pid sig_no) := by
  rw [signal_blocked hk hb, killOk_iff_unlisted hk hb]
  set k1 : Kernel := { k with
    pending_sig := Function.update k.pending_sig p (k.pending_sig p ||| SIG_INT sig_no.toNat) } with hk1
  have h1 : Family k1.links f := h.lists
  by_cases hl : Listed (k.state p) (partner p)
  · obtain ⟨q, hq⟩ := h.listed p hl
    obtain ⟨xs, ys, hsplit⟩ := List.append_of_mem hq
    have hqr : q ≠ .ready := by
      rintro rfl
      have hready : k.state p = .READY := h.fits .ready p hq
      rw [hready] at hb
      exact absurd hb (Nat.lt_irrefl _)
    obtain ⟨k2, hr, hchain⟩ := ready_listed h1 hqr hsplit
    rw [hr]
    refine ⟨_, rfl, ?_⟩
    refine iff_of_false ?_ (not_not_intro hl)
    rintro ⟨-, f', hf', hoff, -⟩
    have hcut : f' q = xs ++ [p] := (hf' q).unique hchain
    have hgone : p ∉ f' q := by
      rw [hoff q hqr]
      simp
    exact hgone (by rw [hcut]; simp)
  · have hun : ∀ q, p ∉ f q := h.unlisted hl
    obtain ⟨k2, hr, -, hf⟩ := ready_spec h1 hun
    rw [hr]
    refine ⟨_, rfl, ?_⟩
    refine iff_of_true ⟨fun i hi => ?_, _, hf.chain, fun q hq => ?_, fun i _ _ => ?_⟩ hl
    · rw [ready_eq hr]
      exact Function.update_of_ne hi ..
    · rw [Function.update_of_ne hq]
      refine (List.filter_eq_self.2 fun i hi => ?_).symm
      rw [decide_eq_true_iff]
      rintro rfl
      exact hun q hi
    · rw [Function.update_of_ne (by simp), ready_eq hr]

/-- PCB 0 runs, PCB 2 sleeps, and PCB 1, which has pid 7 and a handler for signal 3, is in state `st`. -/
def dozing (st : PState) : Kernel :=
  { statics (fun _ => 0) with
    state := Function.update (Function.update (Function.update (fun _ => .STOPPED) 0 .RUNNING) 1 st) 2 .SLEEPING
    pid := fun i => if i = 1 then 7 else pcbIndex i
    sleep_list := if st = .SLEEPING then some 1 else some 2
    next := Function.update (fun _ => none) 1 (if st = .SLEEPING then some 2 else none)
    delta := fun _ => 5
    allowed_sig := fun _ => 8
    pidMap := .node 0x20010 7 1 1 .null .null }

def dozingLists (st : PState) : Queue → List Idx
  | .sleepers => if st = .SLEEPING then [1, 2] else [2]
  | _ => []

theorem dozing_queued {st : PState} (hst : st = .SLEEPING ∨ st = .WAITING) :
    Queued (dozing st).links (dozing st).state (dozing st).pid (fun _ => 0) (dozingLists st) := by
  have hstate : ∀ i, (dozing st).state i =
      if i = 2 then .SLEEPING else if i = 1 then st else if i = 0 then .RUNNING else .STOPPED := by
    intro i
    simp only [dozing, Function.update_apply]
  refine ⟨⟨?_, ?_, ?_⟩, ?_, ?_⟩
  · rintro (_ | _ | d | d)
    · rfl
    · rcases hst with rfl | rfl
      · exact ⟨rfl, rfl, rfl⟩
      · exact ⟨rfl, rfl⟩
    · rfl
    · rfl
  · rintro (_ | _ | d | d)
    · exact List.nodup_nil
    · rcases hst with rfl | rfl <;> decide
    · exact List.nodup_nil
    · exact List.nodup_nil
  · rintro (_ | _ | d | d) (_ | _ | e | e) i hi hi' <;> first | rfl | cases hi | cases hi'
  · rintro (_ | _ | d | d) i hi
    · cases hi
    · change (dozing st).state i = .SLEEPING
      rw [hstate]
      rcases hst with rfl | rfl <;> simp [dozingLists] at hi <;> grind
    · cases hi
    · cases hi
  · intro i hi
    refine ⟨.sleepers, ?_⟩
    rw [hstate] at hi
    rcases hst with rfl | rfl <;> simp only [dozingLists, if_pos, reduceCtorEq, if_false] <;> grind [Listed]

theorem signal_takes_off_waiting : ∃ k', signal (dozing .WAITING) 7 3 = some (k', 0) ∧
    Unqueued (dozingLists .WAITING) 1 (dozing .WAITING) k' := by
  have hk : killed (dozing .WAITING) 7 3 = some 1 := by decide +kernel
  obtain ⟨k', hs, hiff⟩ := signal_takes_off_iff (dozing_queued (.inr rfl)) hk (by decide)
  exact ⟨k', hs, hiff.2 (by decide +kernel)⟩

/-- A signal for the first of two sleepers leaves it on the list, and loses the second. -/
theorem signal_loses_sleeper : ¬∀ (k k' : Kernel) (partner : Idx → Word) (f : Queue → List Idx) (p : Idx)
    (pid sig_no : Word), Queued k.links k.state k.pid partner f → killed k pid sig_no = some p →
    PState.READY.code < (k.state p).code → signal k pid sig_no = some (k', 0) → Unqueued f p k k' := by
  intro hall
  have hk : killed (dozing .SLEEPING) 7 3 = some 1 := by decide +kernel
  have hq := dozing_queued (.inl rfl)
  have hs := signal_blocked hk (by decide)
  set k1 : Kernel := { dozing .SLEEPING with
    pending_sig := Function.update (dozing .SLEEPING).pending_sig 1
      ((dozing .SLEEPING).pending_sig 1 ||| SIG_INT (3 : Word).toNat) } with hk1
  have h1 : Family k1.links (dozingLists .SLEEPING) := hq.lists
  have hsplit : dozingLists .SLEEPING .sleepers = [] ++ 1 :: [2] := rfl
  obtain ⟨k2, hr, hchain⟩ := ready_listed h1 (by simp) hsplit
  rw [hr, Option.map_some] at hs
  obtain ⟨-, f', hf', hoff, -⟩ := hall _ _ _ _ 1 7 3 hq hk (by decide) hs
  have hcut : f' .sleepers = [1] := (hf' .sleepers).unique hchain
  have hleft : f' .sleepers = [2] := hoff .sleepers (by simp)
  rw [hcut] at hleft
  exact absurd hleft (by decide)

end Xeros
