import Xeros.PidMap.Tree
import Xeros.Model.Disp
/-!
# What the kernel's functions leave alone

One equation for each function, of the form `k' = { k with ... }`: the fields
that are not named are the old ones. A function that can end in several ways has
a lemma with the cases.
-/

namespace Xeros

open Links

/-! ## Queues -/

theorem walk_link {η ι : Type} {s : Store η ι} {p : ι → Bool} {n : Nat} {l l' : Link η ι} (h : walk s p n l = some l') :
    l' = l ∨ ∃ i, l' = .next i := by
  induction n generalizing l with
  | zero => cases h
  | succ n ih =>
    unfold walk at h
    split at h
    · cases h
      exact .inl rfl
    · split at h
      · cases h
        exact .inl rfl
      · rcases ih h with e | e
        · exact .inr ⟨_, e⟩
        · exact .inr e

theorem ready_eq {k k' : Kernel} {p : Idx} (h : ready k p = some k') :
    k' = { k with
      ready_queue := k'.ready_queue
      next := k'.next
      state := Function.update k.state p .READY } := by
  obtain ⟨stop, hw, h⟩ := Option.bind_eq_some_iff.1 h
  cases h
  rcases walk_link hw with rfl | ⟨i, rfl⟩ <;> rfl

theorem next_eq (k : Kernel) :
    (next k).2 = { k with ready_queue := (next k).2.ready_queue, next := (next k).2.next } := by
  unfold next
  split <;> rfl

/-! ## Messages -/

section
variable {k k' : Kernel} {p : Idx}

/-- `send` fails at once, or it looks for the destination on the caller's queue
and then meets a partner or waits for it. -/
theorem send_steps {pid : Word} (h : send k p pid = some k') :
    (∃ rc, ready { k with irc := Function.update k.irc p rc } p = some k') ∨
    ∃ r k1, queue_remove k (.receivers p) pid = some (r, k1) ∧
      ((∃ d, (do let k ← ready (send_receive_transfer k1 p d) p; ready k d) = some k') ∨
      ∃ d, queue_insert k1 (.senders d) p .SENDING = some k') := by
  unfold send at h
  split at h
  · exact .inl ⟨_, h⟩
  split at h
  · exact .inl ⟨_, h⟩
  obtain ⟨⟨r, k1⟩, h1, h⟩ := Option.bind_eq_some_iff.1 h
  refine .inr ⟨r, k1, h1, ?_⟩
  cases r with
  | some d => exact .inl ⟨d, h⟩
  | none =>
    obtain ⟨d, -, h⟩ := Option.bind_eq_some_iff.1 h
    split at h
    · exact .inl ⟨d, h⟩
    · exact .inr ⟨d, h⟩

/-- `receive` may also take the first sender, or wait for any. -/
theorem receive_steps {a : Word} (h : receive k p a = some k') :
    (∃ rc, ready { k with irc := Function.update k.irc p rc } p = some k') ∨
    (∃ d, (do
      let k ← ready { send_receive_transfer k d p with senders := Function.update k.senders p (k.next d) } p
      ready k d) = some k') ∨
    k' = { k with state := Function.update k.state p .RECEIVING } ∨
    ∃ r k1, queue_remove k (.senders p) (k.mem.load32 a) = some (r, k1) ∧
      ((∃ d, (do let k ← ready (send_receive_transfer k1 d p) p; ready k d) = some k') ∨
      ∃ d, queue_insert k1 (.receivers d) p .RECEIVING = some k') := by
  unfold receive at h
  simp only [] at h
  split at h
  · exact .inl ⟨_, h⟩
  split at h
  · split at h
    · next d _ => exact .inr (.inl ⟨d, h⟩)
    · exact .inr (.inr (.inl (Option.some.inj h).symm))
  split at h
  · exact .inl ⟨_, h⟩
  obtain ⟨⟨r, k1⟩, h1, h⟩ := Option.bind_eq_some_iff.1 h
  refine .inr (.inr (.inr ⟨r, k1, h1, ?_⟩))
  cases r with
  | some d => exact .inl ⟨d, h⟩
  | none =>
    obtain ⟨d, -, h⟩ := Option.bind_eq_some_iff.1 h
    exact .inr ⟨d, h⟩

end

/-! ## Signals -/

theorem register_sig_handler_eq (im : Image) (k : Kernel) (p : Idx) (signal new_handler old_handler : Word) :
    register_sig_handler im k p signal new_handler old_handler = { k with
      mem := (register_sig_handler im k p signal new_handler old_handler).mem
      sig_handler := Function.update k.sig_handler p
        ((register_sig_handler im k p signal new_handler old_handler).sig_handler p)
      allowed_sig := Function.update k.allowed_sig p
        ((register_sig_handler im k p signal new_handler old_handler).allowed_sig p)
      irc := Function.update k.irc p ((register_sig_handler im k p signal new_handler old_handler).irc p) } := by
  unfold register_sig_handler
  split
  · simp only []
    split
    · split <;> simp
    · split <;> simp
  · simp

/-- The process for which a `KILL` records its signal. -/
def killed (k : Kernel) (pid sig_no : Word) : Option Idx :=
  if sig_no.toInt < 0 ∨ NUM_SIGNAL ≤ sig_no.toInt then none
  else do
    let pcb_index ← pidMapLookup k pid
    let q ← pcbAt pcb_index
    if k.allowed_sig q &&& SIG_INT sig_no.toNat ≠ 0 then some q else none

/-- The kernel with the signal recorded for `q`. -/
def signalled (k : Kernel) (q : Idx) (sig_no : Word) : Kernel :=
  { k with pending_sig := Function.update k.pending_sig q (k.pending_sig q ||| SIG_INT sig_no.toNat) }

section
variable {k k' : Kernel} {q : Idx} {pid sig_no : Word}

theorem killed_spec (h : killed k pid sig_no = some q) :
    (0 ≤ sig_no.toInt ∧ sig_no.toInt < NUM_SIGNAL) ∧ k.allowed_sig q &&& SIG_INT sig_no.toNat ≠ 0 := by
  unfold killed at h
  split at h
  · cases h
  next hrange =>
  obtain ⟨pcb_index, -, h⟩ := Option.bind_eq_some_iff.1 h
  obtain ⟨i, -, h⟩ := Option.bind_eq_some_iff.1 h
  split at h
  · next hallowed =>
    cases h
    rw [not_or, Int.not_lt, Int.not_le] at hrange
    exact ⟨hrange, hallowed⟩
  · cases h

/-- `signal` does nothing, or it records the signal and wakes the process if it
is blocked. -/
theorem signal_cases {rc : Int} (h : signal k pid sig_no = some (k', rc)) : k' = k ∨
    ∃ q, killed k pid sig_no = some q ∧ (k' = signalled k q sig_no ∨
      PState.READY.code < (k.state q).code ∧ ∃ k2 v, ready (signalled k q sig_no) q = some k2 ∧
        k' = { k2 with irc := Function.update k2.irc q v }) := by
  unfold signal at h
  split at h
  · cases h
    exact .inl rfl
  next hrange =>
  split at h
  · cases h
    exact .inl rfl
  next pcb_index hl =>
  obtain ⟨q, hq, h⟩ := Option.bind_eq_some_iff.1 h
  simp only [] at h
  split at h
  · next hallowed =>
    refine .inr ⟨q, ?_, ?_⟩
    · rw [killed, if_neg hrange, hl]
      change (pcbAt pcb_index).bind _ = _
      rw [hq]
      exact if_pos hallowed
    split at h
    · cases h
    split at h
    · next hcode =>
      obtain ⟨k2, hr, h⟩ := Option.bind_eq_some_iff.1 h
      cases h
      exact .inr ⟨hcode.1, k2, _, hr, rfl⟩
    split at h
    · next hwaiting =>
      have hcode : PState.READY.code < (k.state q).code := by
        rw [show k.state q = .WAITING from hwaiting]
        decide
      obtain ⟨k2, hr, h⟩ := Option.bind_eq_some_iff.1 h
      cases h
      exact .inr ⟨hcode, k2, _, hr, rfl⟩
    · cases h
      exact .inl rfl
  · cases h
    exact .inl rfl

end

/-! ## The clock -/

theorem tick_none {k : Kernel} (h : k.sleep_list = none) (nullDelta : Word) : tick nullDelta k = some k := by
  unfold tick
  rw [h]

theorem tick_some {k : Kernel} {p : Idx} (h : k.sleep_list = some p) (nullDelta : Word) :
    tick nullDelta k =
      tick_loop nullDelta TICK_FUEL { k with delta := Function.update k.delta p (k.delta p - 1) } := by
  unfold tick
  split
  · next hn =>
    rw [h] at hn
    cases hn
  · next q hq =>
    rw [h] at hq
    cases hq
    rfl

/-! ## Devices -/

theorem dvclose_eq : ∀ d : Device, (keyboards d).dvclose = keyboard_close
  | 0 => rfl
  | 1 => rfl

/-- A descriptor the process has is in range. -/
theorem opened_ofNat {k : Kernel} {p : Idx} {i : Fin NUM_FD} {d : Device} (h : k.opened_dv p i = some d) :
    opened k p NUM_FD (BitVec.ofNat 32 i) = some (i, d) := by
  have hi : (i : Nat) < 4 := i.isLt
  have hint : (BitVec.ofNat 32 i : Word).toInt = i := by
    rw [BitVec.toInt_ofNat', Int.bmod_eq_of_le] <;> omega
  unfold opened
  simp only [hint, Int.toNat_natCast]
  rw [dif_pos ⟨by omega, by omega, hi⟩, h]
  rfl

theorem di_close_eq (k : Kernel) (p : Idx) (fd : Word) :
    (di_close keyboards k p fd).2 = { k with
      kbd := (di_close keyboards k p fd).2.kbd
      opened_dv := (di_close keyboards k p fd).2.opened_dv
      irc := (di_close keyboards k p fd).2.irc } := by
  unfold di_close
  split
  · rfl
  · rw [dvclose_eq]
    rfl

theorem close_all_eq (k : Kernel) (p : Idx) :
    close_all keyboards k p = { k with
      kbd := (close_all keyboards k p).kbd
      opened_dv := (close_all keyboards k p).opened_dv
      irc := (close_all keyboards k p).irc } := by
  unfold close_all
  generalize List.finRange NUM_FD = fds
  induction fds generalizing k with
  | nil => rfl
  | cons fd fds ih =>
    rw [List.foldl_cons, ih]
    split
    · rw [di_close_eq]
    · rfl

/-- Only the return value of the process itself changes. -/
theorem close_all_irc (k : Kernel) {p i : Idx} (hi : i ≠ p) : (close_all keyboards k p).irc i = k.irc i := by
  have hclose (k : Kernel) (fd : Word) : (di_close keyboards k p fd).2.irc i = k.irc i := by
    unfold di_close
    split
    · exact Function.update_of_ne hi ..
    · rw [dvclose_eq]
      exact Function.update_of_ne hi ..
  unfold close_all
  generalize List.finRange NUM_FD = fds
  induction fds generalizing k with
  | nil => rfl
  | cons fd fds ih =>
    rw [List.foldl_cons, ih]
    split
    · exact hclose k _
    · rfl

/-! ## Creation -/

theorem getNextPid_loop_spec {t : TreeNode} {n : Nat} {pid pid' : Word} (h : getNextPid_loop t n pid = some pid') :
    pid' ≠ 0 ∧ lookup t pid' = none := by
  induction n generalizing pid with
  | zero => cases h
  | succ n ih =>
    unfold getNextPid_loop at h
    split at h
    · exact ih h
    · next hp =>
      cases h
      rw [not_or] at hp
      exact ⟨hp.1, by simpa using hp.2⟩

/-- `create` takes a block and gives it up again, or it installs a process: the
PCB `p`, unused before, gets the pid `pid`, unused before, and is readied. -/
theorem create_cases {im : Image} {k k' : Kernel} {func stack parent r : Word}
    (h : create im k func stack parent = some (r, k')) :
    (r = SYSERR ∧ k' = { k with toHeap := k'.toHeap }) ∨
    ∃ p k1, firstStopped k = some p ∧ getNextPid_loop k.pidMap PID_FUEL k.nextPid = some r ∧
      (∃ h h', insert h k.pidMap r (pcbIndex p) = some (k1.pidMap, h')) ∧
      (∃ ptr esp, k1 = reset_pcb { k with
        toHeap := k1.toHeap
        nextPid := k1.nextPid
        pid := Function.update k.pid p r
        parentPid := Function.update k.parentPid p parent
        stack := Function.update k.stack p ptr
        esp := Function.update k.esp p esp
        pidMap := k1.pidMap } p) ∧
      ready k1 p = some k' := by
  unfold create at h
  obtain ⟨⟨ptr, hp⟩, -, h⟩ := Option.bind_eq_some_iff.1 h
  simp only [] at h
  split at h
  · split at h
    · next p hfs =>
      right
      obtain ⟨⟨pid, k1⟩, hnp, h⟩ := Option.bind_eq_some_iff.1 h
      obtain ⟨pid', hloop, hk1⟩ := Option.bind_eq_some_iff.1 hnp
      cases hk1
      obtain ⟨k2, hins, h⟩ := Option.bind_eq_some_iff.1 h
      obtain ⟨⟨t, h2⟩, htree, hk2⟩ := Option.bind_eq_some_iff.1 hins
      cases hk2
      obtain ⟨k3, hrdy, h⟩ := Option.bind_eq_some_iff.1 h
      cases h
      refine ⟨p, _, hfs, hloop, ⟨_, _, htree⟩, ⟨ptr, ptr + align16 stack, ?_⟩, hrdy⟩
      rfl
    · left
      obtain ⟨h', -, h⟩ := Option.bind_eq_some_iff.1 h
      cases h
      exact ⟨rfl, rfl⟩
  · left
    cases h
    exact ⟨rfl, rfl⟩

theorem firstStopped_spec {k : Kernel} {p : Idx} (h : firstStopped k = some p) : k.state p = .STOPPED := by
  have := List.find?_some h
  simpa using this

/-! ## Cleanup -/

theorem drain_nil {q : Queue} {n : Nat} {k : Kernel} (h : k.links (.head q) = none) : drain q (n + 1) k = some k := by
  rw [drain, h]

/-- `cleanup` drains the two queues of `p`, closes its devices, frees its stack,
and takes it out of the table and of the map. -/
theorem cleanup_cases {k k' : Kernel} {p : Idx} (h : cleanup keyboards k p = some k') :
    ∃ k1 k2 k3, drain (.senders p) DRAIN_FUEL k = some k1 ∧ drain (.receivers p) DRAIN_FUEL k1 = some k2 ∧
      k3 = { close_all keyboards k2 p with
        toHeap := k3.toHeap
        next := Function.update k2.next p none
        stack := k3.stack
        state := Function.update k2.state p .STOPPED } ∧
      pidMapDelete k3 (k3.pid p) = some k' := by
  obtain ⟨k1, h1, h⟩ := Option.bind_eq_some_iff.1 h
  obtain ⟨k2, h2, h⟩ := Option.bind_eq_some_iff.1 h
  obtain ⟨hp, -, h⟩ := Option.bind_eq_some_iff.1 h
  refine ⟨k1, k2, _, h1, h2, ?_, h⟩
  rw [close_all_eq]

/-! ## The dispatcher -/

section
variable {k k1 k2 : Kernel} {p q : Idx}

theorem select_none (hn : next k = (none, k1)) : select k = some (k1, none) := by
  unfold select
  rw [hn]
  exact if_neg fun h => h.1 h.2.symm

theorem select_first (hn : next k = (some p, k1)) (hp : k1.idle ≠ some p) : select k = some (k1, some p) := by
  unfold select
  rw [hn]
  exact if_neg fun h => hp h.2.symm

/-- The idle process came first and is alone. -/
theorem select_idle (hn : next k = (some p, k1)) (hp : k1.idle = some p) (hn1 : next k1 = (none, k1)) :
    select k = some (k1, some p) := by
  unfold select
  rw [hn]
  refine (if_pos ⟨by simp [hp], hp.symm⟩).trans ?_
  rw [hn1]
  exact congrArg (fun r => some (k1, r)) hp

/-- The idle process came first and another one is ready. -/
theorem select_skip (hn : next k = (some p, k1)) (hp : k1.idle = some p) (hn1 : next k1 = (some q, k2))
    (hp2 : k2.idle = some p) : select k = (ready k2 p).map fun k => (k, some q) := by
  unfold select
  rw [hn]
  refine (if_pos ⟨by simp [hp], hp.symm⟩).trans ?_
  rw [hn1]
  simp only []
  rw [hp2, Option.bind_eq_bind, Option.bind_some]
  cases ready k2 p <;> rfl

/-- A selection takes one process or two off the queue, and may put one back. -/
theorem select_cases {r : Option Idx} (h : select k = some (k1, r)) :
    k1 = (next k).2 ∨ k1 = (next (next k).2).2 ∨ ∃ i, ready (next (next k).2).2 i = some k1 := by
  unfold select at h
  simp only [] at h
  split at h
  · split at h
    · next k2 hn =>
      cases h
      exact .inr (.inl (by rw [hn]))
    · next q k2 hn =>
      obtain ⟨i, -, h⟩ := Option.bind_eq_some_iff.1 h
      obtain ⟨k3, hr, h⟩ := Option.bind_eq_some_iff.1 h
      cases h
      exact .inr (.inr ⟨i, by rw [hn]; exact hr⟩)
  · cases h
    exact .inl rfl

end

theorem deliver_signal_frame (im : Image) (k : Kernel) (p : Idx) :
    deliver_signal im k p = { k with
      mem := (deliver_signal im k p).mem
      esp := (deliver_signal im k p).esp
      pending_sig := (deliver_signal im k p).pending_sig
      hi_sig := (deliver_signal im k p).hi_sig } := by
  unfold deliver_signal
  split <;> rfl

theorem resume_eq (im : Image) (k : Kernel) (p : Idx) : resume im k p = { k with
    mem := (resume im k p).mem
    esp := (resume im k p).esp
    pending_sig := (resume im k p).pending_sig
    hi_sig := (resume im k p).hi_sig
    state := Function.update k.state p .RUNNING } := by
  have e := deliver_signal_frame im k p
  unfold resume switch_to
  rw [e]

/-- Every request but `TIME_INT` goes through the whole loop. -/
theorem dispatch_request_eq (im : Image) (k : Kernel) (p : Idx) {r : Request} (hr : r ≠ .TIME_INT) :
    dispatch_request im k p (some r) = (handle_request im k p r).bind fun x => dispatch_next im x.1 x.2 := by
  cases r with
  | TIME_INT => exact absurd rfl hr
  | _ => rfl

theorem dispatch_next_some (im : Image) (k : Kernel) (p : Idx) :
    dispatch_next im k (some p) = (ready k p).bind fun k => dispatch_next im k none := rfl

/-- One process is selected and resumed. -/
theorem dispatch_next_none_cases {im : Image} {k : Kernel} {s : Sys} (h : dispatch_next im k none = some s) :
    ∃ k2 r, select k = some (k2, r) ∧
      ((r = none ∧ s = ⟨k2, none⟩) ∨ ∃ p, r = some p ∧ s = ⟨resume im k2 p, some p⟩) := by
  obtain ⟨⟨k2, r⟩, h2, h⟩ := Option.bind_eq_some_iff.1 h
  cases r with
  | none =>
    cases h
    exact ⟨k2, none, h2, .inl ⟨rfl, rfl⟩⟩
  | some p =>
    cases h
    exact ⟨k2, some p, h2, .inr ⟨p, rfl, rfl⟩⟩

/-- The process that made the request may become ready, one is selected, and
that one is resumed. -/
theorem dispatch_next_cases {im : Image} {k : Kernel} {tr : Option Idx} {s : Sys} (h : dispatch_next im k tr = some s) :
    ∃ k1 k2 r, ((tr = none ∧ k1 = k) ∨ ∃ p, tr = some p ∧ ready k p = some k1) ∧ select k1 = some (k2, r) ∧
      ((r = none ∧ s = ⟨k2, none⟩) ∨ ∃ p, r = some p ∧ s = ⟨resume im k2 p, some p⟩) := by
  cases tr with
  | none =>
    obtain ⟨k2, r, h'⟩ := dispatch_next_none_cases h
    exact ⟨k, k2, r, .inl ⟨rfl, rfl⟩, h'⟩
  | some p =>
    rw [dispatch_next_some] at h
    obtain ⟨k1, h1, h⟩ := Option.bind_eq_some_iff.1 h
    obtain ⟨k2, r, h'⟩ := dispatch_next_none_cases h
    exact ⟨k1, k2, r, .inr ⟨p, rfl, h1⟩, h'⟩

end Xeros
