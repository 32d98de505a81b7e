import Xeros.Procs.Twins
import Xeros.Procs.Machine
/-!
# No request returns the value of the one before

A caller's return value is written on every path on which a request completes,
at once or later, but for a `sleep` of no time. So two runs that differ only in
the caller's return value at the time of a request come to the same state by
the time the caller goes on (`answers_fresh`).
-/

namespace Xeros

open Links Kernel Runs

variable {k t : Kernel} {p q : Idx}

namespace Twin

/-! ## Devices -/

/-- What a device call of `q` leaves: the same result and one return value. -/
def Done (p q : Idx) (a b : Int × Kernel) : Prop := a.1 = b.1 ∧ Twin p a.2 b.2 ∧ (q = p → b.2 = a.2)

/-- The same for a call that may block its caller, whose return value is written later then. -/
def Call (p q : Idx) (a b : Int × Kernel) : Prop :=
  a.1 = b.1 ∧ Twin p a.2 b.2 ∧ (q = p → a.1 ≠ DRV_BLOCK → b.2 = a.2)

theorem Done.call {a b : Int × Kernel} (h : Done p q a b) : Call p q a b := ⟨h.1, h.2.1, fun e _ => h.2.2 e⟩

/-- A call that ends with a write of the return value. -/
theorem done_set (h : Twin p k t) (q : Idx) (rc : Int) (w : Word) :
    Done p q (rc, set_irc k q w) (rc, set_irc t q w) := by
  refine ⟨rfl, h.set q w, ?_⟩
  rintro rfl
  exact h.set_self w

theorem dvopen (h : Twin p k t) (d : Device) (q : Idx) :
    ((keyboards d).dvopen t q).1 = ((keyboards d).dvopen k q).1 ∧
      Twin p ((keyboards d).dvopen k q).2 ((keyboards d).dvopen t q).2 := by
  obtain ⟨echo, hd⟩ := dvopen_echo d
  have h' := h
  obtain ⟨⟨v, rfl⟩, -⟩ := h'
  rw [hd]
  unfold open_with_echo _keyboard_open
  rw [set_irc_kbd]
  cases k.kbd.ps.pcb with
  | some _ => exact ⟨rfl, h⟩
  | none =>
    refine ⟨rfl, h.edit (g := fun k => { k with kbd := { k.kbd with
      ps := { k.kbd.ps with
        pcb := some q, buf := 0, buf_len := 0, ch_read := 0, eof := DEFAULT_EOF, status := 0, echo := echo }
      head := 0, size := 0 } }) (fun _ _ => rfl) id⟩

theorem di_open (h : Twin p k t) (q : Idx) (n : Word) :
    Done p q (Xeros.di_open keyboards k q n) (Xeros.di_open keyboards t q n) := by
  unfold Xeros.di_open
  split
  · next hn =>
    have hfree : free_fd t q = free_fd k q := h.same (free_fd · q) fun _ => rfl
    simp only []
    rw [hfree]
    cases free_fd k q with
    | none => exact h.done_set q DRV_ERROR (-1)
    | some fd =>
      obtain ⟨hrc, h1⟩ := h.dvopen ⟨n.toInt.toNat, by omega⟩ q
      simp only []
      rw [hrc]
      split
      · have h2 := h1.edit (g := fun k => { k with
          opened_dv := Function.update k.opened_dv q
            (Function.update (k.opened_dv q) fd (some ⟨n.toInt.toNat, by omega⟩)) }) (fun _ _ => rfl) id
        exact h2.done_set q DRV_DONE (BitVec.ofNat 32 fd)
      · exact h1.done_set q DRV_ERROR (-1)
  · exact h.done_set q DRV_ERROR (-1)

theorem opened_eq (h : Twin p k t) (q : Idx) (n : Nat) (fd : Word) : opened t q n fd = opened k q n fd :=
  h.same (opened · q n fd) fun _ => rfl

theorem di_close (h : Twin p k t) (q : Idx) (fd : Word) :
    Done p q (Xeros.di_close keyboards k q fd) (Xeros.di_close keyboards t q fd) := by
  unfold Xeros.di_close
  rw [h.opened_eq]
  cases opened k q NUM_FD fd with
  | none => exact h.done_set q DRV_ERROR (-1)
  | some x =>
    obtain ⟨fd, d⟩ := x
    simp only [dvclose_eq]
    have h1 : Twin p (keyboard_close k q).2 (keyboard_close t q).2 :=
      h.edit (g := fun k => (keyboard_close k q).2) (fun _ _ => rfl) id
    have h2 := h1.edit (g := fun k => { k with
      opened_dv := Function.update k.opened_dv q (Function.update (k.opened_dv q) fd none) }) (fun _ _ => rfl) id
    exact h2.done_set q DRV_DONE 0

theorem di_ioctl (h : Twin p k t) (q : Idx) (fd cmd ap : Word) :
    Done p q (Xeros.di_ioctl keyboards k q fd cmd ap) (Xeros.di_ioctl keyboards t q fd cmd ap) := by
  unfold Xeros.di_ioctl devtab_at
  rw [h.opened_eq]
  cases opened k q NUM_DEVICE fd with
  | none => exact h.done_set q DRV_ERROR (-1)
  | some x =>
    obtain ⟨fd, d⟩ := x
    simp only [dvioctl_eq]
    unfold keyboard_ioclt
    by_cases hcmd : cmd = 53
    · simp only [if_pos hcmd]
      have h1 := h.edit (g := fun k => { k with kbd := { k.kbd with
        ps := { k.kbd.ps with eof := (k.mem.load32 ap).toInt } } }) (fun _ _ => rfl) id
      exact h1.done_set q DRV_DONE 0
    · simp only [if_neg hcmd]
      exact h.done_set q DRV_ERROR (-1)

/-! ## Reading -/

theorem buf_copy_loop (h : Twin p k t) (q : Idx) (n : Nat) :
    Option.Rel (fun a b => Call p q (a.1, a.2.1) (b.1, b.2.1) ∧ a.2.2 = b.2.2) (Xeros.buf_copy_loop q n k)
      (Xeros.buf_copy_loop q n t) := by
  induction n generalizing k t with
  | zero => exact .none
  | succ n ih =>
    have h' := h
    obtain ⟨⟨v, rfl⟩, -⟩ := h'
    unfold Xeros.buf_copy_loop
    rw [set_irc_kbd]
    cases remove_char k.kbd with
    | none => exact .some ⟨⟨rfl, h, fun _ e => absurd rfl e⟩, rfl⟩
    | some x =>
      obtain ⟨c, kb⟩ := x
      refine rel_ite .rfl (fun _ => ?_) fun _ => ?_
      · have h1 := h.edit (g := fun k => { k with kbd := { kb with
          ps := { kb.ps with status := kb.ps.status ||| EOF_REACHED } } }) (fun _ _ => rfl) id
        exact .some ⟨(h1.done_set q DRV_DONE (BitVec.ofInt 32 kb.ps.ch_read)).call, rfl⟩
      · have h1 := h.edit (g := fun k => { k with
          mem := k.mem.store8 (kb.ps.buf + BitVec.ofInt 32 kb.ps.ch_read) c
          kbd := { kb with ps := { kb.ps with ch_read := kb.ps.ch_read + 1 } } }) (fun _ _ => rfl) id
        have hdone := (h1.done_set q DRV_DONE (BitVec.ofInt 32 (kb.ps.ch_read + 1))).call
        refine rel_ite .rfl (fun _ => .some ⟨hdone, rfl⟩) fun _ => ?_
        refine rel_ite .rfl (fun _ => ?_) fun _ => .some ⟨hdone, rfl⟩
        refine rel_bind (ih h1) ?_
        rintro ⟨rc, k2, s⟩ ⟨rc', t2, s'⟩ ⟨hcall, hs⟩
        exact .some ⟨hcall, congrArg (Touch.store _ c :: ·) hs⟩

theorem buf_copy (h : Twin p k t) (hq : k.kbd.ps.pcb = some q) :
    Option.Rel (fun a b => Call p q (a.1, a.2.1) (b.1, b.2.1) ∧ a.2.2 = b.2.2) (Xeros.buf_copy k)
      (Xeros.buf_copy t) := by
  have ht : t.kbd = k.kbd := h.same (·.kbd) fun _ => rfl
  unfold Xeros.buf_copy
  rw [ht, hq]
  exact h.buf_copy_loop q (k.kbd.size + 1)

/-- A read blocks its caller or writes its return value. -/
theorem keyboard_read (h : Twin p k t) (q : Idx) (buf buf_len : Word) :
    Option.Rel (Call p q) (Xeros.keyboard_read k q buf buf_len) (Xeros.keyboard_read t q buf buf_len) := by
  have h1 : Twin p (requested k buf buf_len) (requested t buf buf_len) :=
    h.edit (g := fun k => requested k buf buf_len) (fun _ _ => rfl) id
  have h' := h
  obtain ⟨⟨v, rfl⟩, -⟩ := h'
  unfold Xeros.keyboard_read
  refine rel_ite .rfl (fun _ => .none) fun hpcb => ?_
  refine rel_ite .rfl (fun _ => ?_) fun _ => rel_ite .rfl (fun _ => ?_) fun _ => ?_
  · exact .some ⟨rfl, h1.setState q (by simp), fun _ e => absurd rfl e⟩
  · refine rel_ite .rfl (fun _ => .some (h1.done_set q DRV_DONE 0).call) fun _ => ?_
    have hpcb' : (requested k buf buf_len).kbd.ps.pcb = some q := not_not.1 hpcb
    refine rel_bind (h1.buf_copy hpcb') ?_
    rintro ⟨rc, k2, s⟩ ⟨rc', t2, s'⟩ ⟨⟨hrc, h2, heq⟩, -⟩
    change rc = rc' at hrc
    subst hrc
    refine rel_ite .rfl (fun hd => .some ⟨rfl, h2, fun e _ => heq e ?_⟩) fun _ => .none
    change rc = DRV_DONE at hd
    change rc ≠ DRV_BLOCK
    rw [hd]
    decide
  · exact .some (h.done_set q DRV_DONE 0).call

/-- The common part of reads and writes, for a driver function that keeps twins. -/
theorem di_transfer (h : Twin p k t) (q : Idx) (fd buf buf_len : Word)
    {entry : Devsw → Kernel → Idx → Word → Word → Option (Int × Kernel)}
    (hentry : ∀ d, Option.Rel (Call p q) (entry (keyboards d) k q buf buf_len) (entry (keyboards d) t q buf buf_len)) :
    Option.Rel (Call p q) (Xeros.di_transfer keyboards k q entry fd buf buf_len)
      (Xeros.di_transfer keyboards t q entry fd buf buf_len) := by
  unfold Xeros.di_transfer devtab_at
  rw [h.opened_eq]
  cases opened k q NUM_DEVICE fd with
  | none => exact .some (h.done_set q DRV_ERROR (-1)).call
  | some x =>
    obtain ⟨fd, d⟩ := x
    refine rel_bind (hentry _) ?_
    rintro ⟨rc, k1⟩ ⟨rc', t1⟩ ⟨hrc, h1, heq⟩
    change rc = rc' at hrc
    subst hrc
    refine rel_ite .rfl (fun hb => ?_) fun hb => rel_ite .rfl (fun _ => ?_) fun _ => ?_
    · exact .some ⟨rfl, h1, fun _ e => absurd rfl e⟩
    · exact .some ⟨rfl, h1, fun e _ => heq e hb⟩
    · exact .some (h1.done_set q DRV_ERROR (-1)).call

theorem di_write (h : Twin p k t) (q : Idx) (fd buf buf_len : Word) :
    Option.Rel (Call p q) (Xeros.di_write keyboards k q fd buf buf_len)
      (Xeros.di_write keyboards t q fd buf buf_len) := by
  -- the driver refuses, and the device layer writes the return value
  unfold Xeros.di_write Xeros.di_transfer devtab_at
  rw [h.opened_eq]
  cases opened k q NUM_DEVICE fd with
  | none => exact .some (h.done_set q DRV_ERROR (-1)).call
  | some x =>
    simp only [dvwrite_eq]
    exact .some (h.done_set q DRV_ERROR (-1)).call

theorem di_read (h : Twin p k t) (q : Idx) (fd buf buf_len : Word) :
    Option.Rel (Call p q) (Xeros.di_read keyboards k q fd buf buf_len) (Xeros.di_read keyboards t q fd buf buf_len) :=
  h.di_transfer q fd buf buf_len fun d => by
    rw [dvread_eq]
    exact h.keyboard_read q buf buf_len

/-- An interrupt readies the owner of the device with its return value. -/
theorem keyboard_lower (h : Twin p k t) (codes : List Byte) :
    Option.Rel (fun a b => Twin p a.1 b.1 ∧ a.2 = b.2) (Xeros.keyboard_lower k codes)
      (Xeros.keyboard_lower t codes) := by
  have h1 : Twin p (filled k codes) (filled t codes) := h.edit (g := fun k => filled k codes) (fun _ _ => rfl) id
  have ht : (filled t codes).kbd = (filled k codes).kbd := h.same (fun k => (filled k codes).kbd) fun _ => rfl
  unfold Xeros.keyboard_lower
  have hreads : (filled k codes).kbd.ps.ch_read < (filled k codes).kbd.ps.buf_len ↔
      (filled t codes).kbd.ps.ch_read < (filled t codes).kbd.ps.buf_len := by rw [ht]
  refine rel_ite hreads (fun _ => ?_) fun _ => .some ⟨h1, rfl⟩
  cases hpcb : (filled k codes).kbd.ps.pcb with
  | none =>
    have hnone {k : Kernel} (hk : k.kbd.ps.pcb = none) : Xeros.buf_copy k = none := by
      rw [Xeros.buf_copy, hk]
      rfl
    change Option.Rel _ ((Xeros.buf_copy (filled k codes)).bind _) ((Xeros.buf_copy (filled t codes)).bind _)
    rw [hnone hpcb, hnone (by rw [ht, hpcb])]
    exact .none
  | some q =>
    have hcopy := rel_mono (h1.buf_copy hpcb) (S := fun a b =>
      (Call p q (a.1, a.2.1) (b.1, b.2.1) ∧ a.2.2 = b.2.2) ∧ a.2.1.kbd.ps.pcb = some q) ?_
    · refine rel_bind hcopy ?_
      rintro ⟨rc, k1, s⟩ ⟨rc', t1, s'⟩ ⟨⟨⟨hrc, h2, heq⟩, hs⟩, hq⟩
      change rc = rc' at hrc
      change s = s' at hs
      change k1.kbd.ps.pcb = some q at hq
      subst hrc hs
      have hq' : t1.kbd.ps.pcb = some q := by
        rw [h2.same (·.kbd) fun _ => rfl]
        exact hq
      refine rel_ite .rfl (fun hd => ?_) fun _ => .some ⟨h2, rfl⟩
      rw [hq, hq']
      change rc = DRV_DONE at hd
      change Option.Rel _ ((Xeros.ready k1 q).bind _) ((Xeros.ready t1 q).bind _)
      refine rel_bind (h2.ready fun e => heq e ?_) fun a b hab => .some ⟨hab, rfl⟩
      change rc ≠ DRV_BLOCK
      rw [hd]
      decide
    · rintro ⟨rc, k1, s⟩ b hk hab
      refine ⟨hab, ?_⟩
      obtain ⟨rc', k1', s', xs, ended, rest, hk', hspec⟩ := buf_copy_spec hpcb
      cases Option.some.inj (hk'.symm.trans hk)
      have hps := hspec.ps
      change k1.kbd.ps.pcb = some q
      rw [hps]
      exact hpcb

/-! ## Creation and cleanup -/

theorem pidMapInsert (h : Twin p k t) (pid i : Word) :
    Option.Rel (Twin p) (Xeros.pidMapInsert k pid i) (Xeros.pidMapInsert t pid i) := by
  have h' := h
  obtain ⟨⟨v, rfl⟩, -⟩ := h'
  unfold Xeros.pidMapInsert
  rw [set_irc_heap, set_irc_pidMap]
  exact rel_bind_same fun ⟨m, hp⟩ _ =>
    .some (h.edit (g := fun k => { k with toHeap := hp, pidMap := m }) (fun _ _ => rfl) id)

theorem pidMapDelete (h : Twin p k t) (pid : Word) :
    Option.Rel (Twin p) (Xeros.pidMapDelete k pid) (Xeros.pidMapDelete t pid) := by
  have h' := h
  obtain ⟨⟨v, rfl⟩, -⟩ := h'
  unfold Xeros.pidMapDelete
  rw [set_irc_heap, set_irc_pidMap]
  exact rel_bind_same fun ⟨m, hp⟩ _ =>
    .some (h.edit (g := fun k => { k with toHeap := hp, pidMap := m }) (fun _ _ => rfl) id)

/-- The return value of the new process is 0. -/
theorem reset_pcb (h : Twin p k t) (i : Idx) :
    Twin p (Xeros.reset_pcb k i) (Xeros.reset_pcb t i) ∧ (i = p → Xeros.reset_pcb t i = Xeros.reset_pcb k i) := by
  have hreset : ∀ k, Xeros.reset_pcb k i = Xeros.reset_pcb (set_irc k i 0) i := by
    intro k
    unfold Xeros.reset_pcb set_irc
    simp only [Function.update_idem]
  refine ⟨?_, ?_⟩
  · by_cases hi : i = p
    · subst hi
      rw [hreset k, hreset t, h.set_self]
      exact refl i _
    · refine h.edit (g := fun k => Xeros.reset_pcb k i) (fun k v => ?_) id
      exact congrArg (fun k' => Xeros.reset_pcb k' i) rfl |>.trans (by
        unfold Xeros.reset_pcb set_irc
        simp only [Function.update_comm (Ne.symm hi)])
  · rintro rfl
    rw [hreset k, hreset t, h.set_self]

theorem getNextPid (h : Twin p k t) :
    Option.Rel (fun a b => a.1 = b.1 ∧ Twin p a.2 b.2) (Xeros.getNextPid k) (Xeros.getNextPid t) := by
  have h' := h
  obtain ⟨⟨v, rfl⟩, -⟩ := h'
  unfold Xeros.getNextPid
  rw [set_irc_pidMap, set_irc_nextPid]
  exact rel_bind_same fun pid _ =>
    .some ⟨rfl, h.edit (g := fun k => { k with nextPid := pid + 1 }) (fun _ _ => rfl) id⟩

theorem create (h : Twin p k t) (im : Image) (func stack parent : Word) :
    Option.Rel (fun a b => a.1 = b.1 ∧ Twin p a.2 b.2) (Xeros.create im k func stack parent)
      (Xeros.create im t func stack parent) := by
  have h' := h
  obtain ⟨⟨v, rfl⟩, -⟩ := h'
  unfold Xeros.create
  rw [set_irc_heap]
  refine rel_bind_same fun ⟨ptr, hp⟩ _ => ?_
  have h1 := h.edit (g := fun k => { k with toHeap := hp }) (fun _ _ => rfl) id
  refine rel_ite .rfl (fun _ => ?_) fun _ => .some ⟨rfl, h1⟩
  have hfree : firstStopped { set_irc k p v with toHeap := hp } = firstStopped k := rfl
  have hfree' : firstStopped { k with toHeap := hp } = firstStopped k := rfl
  simp only [hfree, hfree']
  cases firstStopped k with
  | none =>
    refine rel_bind_same fun hp _ => .some ⟨rfl, ?_⟩
    exact h.edit (g := fun k => { k with toHeap := hp }) (fun _ _ => rfl) id
  | some i =>
    refine rel_bind h1.getNextPid ?_
    rintro ⟨pid, k2⟩ ⟨pid', t2⟩ ⟨hpid, h2⟩
    change pid = pid' at hpid
    change Twin p k2 t2 at h2
    subst hpid
    have h3 := h2.edit (g := fun k => { k with
      pid := Function.update k.pid i pid
      parentPid := Function.update k.parentPid i parent
      stack := Function.update k.stack i ptr }) (fun _ _ => rfl) id
    refine rel_bind (h3.pidMapInsert pid (pcbIndex i)) fun k4 t4 h4 => ?_
    have h5 := h4.edit (g := fun k => { k with
      esp := Function.update k.esp i (ptr + align16 stack)
      mem := first_context im k.mem (ptr + align16 stack) func }) (fun _ _ => rfl) id
    obtain ⟨h6, heq⟩ := h5.reset_pcb i
    exact rel_bind (h6.ready heq) fun k7 t7 h7 => .some ⟨rfl, h7⟩

theorem cleanup (h : Twin p k t) (q : Idx) :
    Option.Rel (Twin p) (Xeros.cleanup keyboards k q) (Xeros.cleanup keyboards t q) := by
  unfold Xeros.cleanup
  refine rel_bind (h.drain (.senders q) DRAIN_FUEL) fun k1 t1 h1 => ?_
  refine rel_bind (h1.drain (.receivers q) DRAIN_FUEL) fun k2 t2 h2 => ?_
  have h3 : Twin p (close_all keyboards k2 q) (close_all keyboards t2 q) := by
    unfold close_all
    generalize List.finRange NUM_FD = fds
    induction fds generalizing k2 t2 with
    | nil => exact h2
    | cons fd fds ih =>
      rw [List.foldl_cons, List.foldl_cons]
      apply ih
      have hdv : t2.opened_dv = k2.opened_dv := h2.same (·.opened_dv) fun _ => rfl
      rw [hdv]
      split
      · exact (h2.di_close q _).2.1
      · exact h2
  generalize close_all keyboards k2 q = k3 at h3 ⊢
  generalize close_all keyboards t2 q = t3 at h3 ⊢
  have h3' := h3
  obtain ⟨⟨v, rfl⟩, -⟩ := h3'
  refine rel_bind_same fun hp _ => ?_
  have h4 := (h3.setState q (show PState.STOPPED ≠ .READY by simp)).edit (g := fun k => { k with
    toHeap := hp
    next := Function.update k.next q none
    stack := Function.update k.stack q 0 }) (fun _ _ => rfl) id
  exact h4.pidMapDelete (k3.pid q)

end Twin

/-! ## Requests -/

/-- The requests that return a value. -/
def Request.returns : Request → Bool
  | .CREATE | .GET_PID | .GET_P_PID | .SEND | .RECV | .SLEEP | .SIGHANDLER | .KILL | .SIGWAIT | .OPEN | .CLOSE
  | .WRITE | .READ | .IO_CTL => true
  | .TIME_INT | .YIELD | .STOP | .PUTS | .SYS_TIMER | .SIGRETURN => false

/-- A request that returns a value, and is no `SLEEP` of 0 milliseconds. -/
def Replied (k : Kernel) (p : Idx) (r : Request) : Prop := r.returns ∧ (r = .SLEEP → k.arg p 0 ≠ 0)

namespace Twin

/-- What a request leaves: twins, which are equal if the caller `p` goes back to the ready queue. -/
def Handled (p : Idx) (a b : Kernel × Option Idx) : Prop :=
  a.2 = b.2 ∧ Twin p a.1 b.1 ∧ (a.2 = some p → b.1 = a.1)

/-- The caller blocks, or was readied on the way. -/
theorem handled_none (h : Twin p k t) : Handled p (k, none) (t, none) := ⟨rfl, h, by simp⟩

/-- The return value is the last thing that is written. -/
theorem handled_set (h : Twin p k t) (q : Idx) (w : Word) :
    Handled p (set_irc k q w, some q) (set_irc t q w, some q) := by
  refine ⟨rfl, h.set q w, ?_⟩
  rintro ⟨⟩
  exact h.set_self w

theorem handled_done {a b : Int × Kernel} (h : Done p q a b) : Handled p (a.2, some q) (b.2, some q) := by
  refine ⟨rfl, h.2.1, ?_⟩
  rintro ⟨⟩
  exact h.2.2 rfl

theorem handled_call {a b : Int × Kernel} (h : Call p q a b) (hb : a.1 ≠ DRV_BLOCK) :
    Handled p (a.2, some q) (b.2, some q) := by
  refine ⟨rfl, h.2.1, ?_⟩
  rintro ⟨⟩
  exact h.2.2 rfl hb

/-- A request of another process, or one of `p` that returns a value. -/
theorem handle_request (h : Twin p k t) (im : Image) (q : Idx) (r : Request) (hq : q = p → Replied k q r) :
    Option.Rel (Handled p) (Xeros.handle_request im k q r) (Xeros.handle_request im t q r) := by
  have hback {k t : Kernel} (h : Twin p k t) (hne : q ≠ p) : Handled p (k, some q) (t, some q) := by
    refine ⟨rfl, h, ?_⟩
    rintro ⟨⟩
    exact absurd rfl hne
  have hquiet (hr : r.returns = false) : q ≠ p := by
    intro e
    have h1 := (hq e).1
    rw [hr] at h1
    cases h1
  have harg : t.arg = k.arg := h.same (·.arg) fun _ => rfl
  have hpid : t.pid = k.pid := by
    obtain ⟨⟨v, rfl⟩, -⟩ := h
    rfl
  cases r with
  | TIME_INT => exact .some h.handled_none
  | CREATE =>
    simp only [Xeros.handle_request, harg, hpid]
    refine rel_bind (h.create im _ _ _) ?_
    rintro ⟨pid, k1⟩ ⟨pid', t1⟩ ⟨hp, h1⟩
    change pid = pid' at hp
    subst hp
    exact .some (Twin.handled_set h1 q pid)
  | YIELD => exact .some (hback h (hquiet rfl))
  | STOP => exact rel_bind (h.cleanup q) fun _ _ h1 => .some h1.handled_none
  | GET_PID =>
    simp only [Xeros.handle_request, hpid]
    exact .some (h.handled_set q (k.pid q))
  | GET_P_PID =>
    have hparent : t.parentPid = k.parentPid := h.same (·.parentPid) fun _ => rfl
    simp only [Xeros.handle_request, hparent]
    exact .some (h.handled_set q (k.parentPid q))
  | PUTS => exact .some (hback h (hquiet rfl))
  | SEND =>
    simp only [Xeros.handle_request, harg]
    exact rel_bind (h.send q _) fun _ _ h1 => .some h1.handled_none
  | RECV =>
    simp only [Xeros.handle_request, harg]
    exact rel_bind (h.receive q _) fun _ _ h1 => .some h1.handled_none
  | SYS_TIMER => exact rel_bind (h.tick im.nullDelta) fun _ _ h1 => .some (hback h1 (hquiet rfl))
  | SLEEP =>
    simp only [Xeros.handle_request, harg]
    refine rel_bind (h.sleep q _ fun e => ?_) fun _ _ h1 => .some h1.handled_none
    exact sleep_ticks_ne ((hq e).2 rfl)
  | SIGHANDLER =>
    simp only [Xeros.handle_request, harg]
    obtain ⟨h1, heq⟩ := h.register_sig_handler im q (k.arg q 0) (k.arg q 1) (k.arg q 2)
    refine .some ⟨rfl, h1, ?_⟩
    rintro ⟨⟩
    exact heq rfl
  | SIGRETURN =>
    simp only [Xeros.handle_request, harg]
    have h1 := (h.edit (g := fun k => { k with
      esp := Function.update k.esp q (k.arg q 0)
      hi_sig := Function.update k.hi_sig q (getFrame k.mem (k.arg q 0 - SIZEOF_SIGNAL_FRAME) .old_hi_sig) })
      (fun _ _ => rfl) id).set q (getFrame k.mem (k.arg q 0 - SIZEOF_SIGNAL_FRAME) .old_irc)
    have hmem : t.mem = k.mem := h.same (·.mem) fun _ => rfl
    rw [harg, hmem] at h1
    unfold sigreturn
    rw [hmem]
    exact .some (hback h1 (hquiet rfl))
  | KILL =>
    simp only [Xeros.handle_request, harg]
    refine rel_bind (h.signal _ _) ?_
    rintro ⟨k1, rc⟩ ⟨t1, rc'⟩ ⟨hrc, h1⟩
    change rc = rc' at hrc
    subst hrc
    exact .some (Twin.handled_set h1 q _)
  | SIGWAIT => exact .some (h.setState q (show PState.WAITING ≠ .READY by simp)).handled_none
  | OPEN =>
    simp only [Xeros.handle_request, harg]
    exact .some (handled_done (h.di_open q _))
  | CLOSE =>
    simp only [Xeros.handle_request, harg]
    exact .some (handled_done (h.di_close q _))
  | WRITE =>
    simp only [Xeros.handle_request, harg]
    refine rel_bind (h.di_write q _ _ _) ?_
    rintro ⟨rc, k1⟩ ⟨rc', t1⟩ hcall
    have hrc : rc = rc' := hcall.1
    subst hrc
    refine rel_ite .rfl (fun _ => ?_) fun hb => .some (handled_call hcall hb)
    exact .some (hcall.2.1.setState q (show PState.WRITING ≠ .READY by simp)).handled_none
  | READ =>
    simp only [Xeros.handle_request, harg]
    refine rel_bind (h.di_read q _ _ _) ?_
    rintro ⟨rc, k1⟩ ⟨rc', t1⟩ hcall
    have hrc : rc = rc' := hcall.1
    subst hrc
    refine rel_ite .rfl (fun _ => ?_) fun hb => .some (handled_call hcall hb)
    exact .some (hcall.2.1.setState q (show PState.READING ≠ .READY by simp)).handled_none
  | IO_CTL =>
    simp only [Xeros.handle_request, harg]
    exact .some (handled_done (h.di_ioctl q _ _ _))

/-! ## The dispatcher -/

variable {im : Image} {partner : Idx → Word} {f : Queue → List Idx}

/-- The first of the ready queue is ready, so twins that select `p` are equal. -/
theorem select (h : Twin p k t) (hready : ∀ i, k.ready_queue = some i → k.state i = .READY) :
    Option.Rel (fun a b => a.2 = b.2 ∧ Twin p a.1 b.1) (Xeros.select k) (Xeros.select t) := by
  obtain ⟨hr1, h1⟩ := h.next
  have hfirst : (Xeros.next k).1 = k.ready_queue := by
    unfold Xeros.next
    cases k.ready_queue <;> rfl
  have hstate1 : (Xeros.next k).2.state = k.state := by rw [next_eq]
  rw [← hfirst, ← hstate1] at hready
  unfold Xeros.select
  generalize Xeros.next k = n at hr1 h1 hready ⊢
  generalize Xeros.next t = m at hr1 h1 ⊢
  obtain ⟨r, k1⟩ := n
  obtain ⟨r', t1⟩ := m
  change r' = r at hr1
  change Twin p k1 t1 at h1
  subst hr1
  have hidle : t1.idle = k1.idle := h1.same (·.idle) fun _ => rfl
  refine rel_ite (by rw [hidle]) (fun hi => ?_) fun _ => .some ⟨rfl, h1⟩
  obtain ⟨hr2, h2⟩ := h1.next
  have hstate2 : (Xeros.next k1).2.state = k1.state := by rw [next_eq]
  have hidle2 : (Xeros.next k1).2.idle = k1.idle := by rw [next_eq]
  generalize Xeros.next k1 = n at hr2 h2 hstate2 hidle2 ⊢
  generalize Xeros.next t1 = m at hr2 h2 ⊢
  obtain ⟨j, k2⟩ := n
  obtain ⟨j', t2⟩ := m
  change j' = j at hr2
  change Twin p k2 t2 at h2
  subst hr2
  have hidle' : t2.idle = k2.idle := by
    obtain ⟨⟨v, rfl⟩, -⟩ := h2
    rfl
  cases j' with
  | none => exact .some ⟨hidle'.symm, h2⟩
  | some j =>
    simp only [hidle']
    refine rel_bind_same fun i hi2 => ?_
    -- the idle process was the first of the ready queue
    refine rel_bind (h2.ready ?_) fun k3 t3 h3 => .some ⟨rfl, h3⟩
    rintro rfl
    refine h2.2 ?_
    change k2.idle = k1.idle at hidle2
    change k2.state = k1.state at hstate2
    rw [hstate2]
    exact hready i (hi.2.trans (hidle2.symm.trans hi2))

/-- The switch reads the return value of the process it switches to, and no other. -/
theorem resume (h : Twin p k t) (im : Image) (q : Idx) (heq : q = p → t = k) :
    Twin p (Xeros.resume im k q) (Xeros.resume im t q) ∧ (q = p → Xeros.resume im t q = Xeros.resume im k q) := by
  by_cases hq : q = p
  · rw [heq hq]
    exact ⟨refl p _, fun _ => rfl⟩
  refine ⟨?_, fun e => absurd e hq⟩
  refine h.edit (g := fun k => Xeros.resume im k q) (fun k v => ?_) fun e => ?_
  · have hirc : (set_irc k p v).irc q = k.irc q := Function.update_of_ne hq ..
    have hd : deliver_signal im (set_irc k p v) q = set_irc (deliver_signal im k q) p v := by
      unfold deliver_signal
      rw [hirc]
      by_cases hc : k.pending_sig q &&& k.hi_sig q ≠ 0
      · have hc' : (set_irc k p v).pending_sig q &&& (set_irc k p v).hi_sig q ≠ 0 := hc
        rw [if_pos hc, if_pos hc']
        rfl
      · have hc' : ¬((set_irc k p v).pending_sig q &&& (set_irc k p v).hi_sig q ≠ 0) := hc
        rw [if_neg hc, if_neg hc']
    have hirc' : (set_irc (deliver_signal im k q) p v).irc q = (deliver_signal im k q).irc q :=
      Function.update_of_ne hq ..
    unfold Xeros.resume switch_to
    rw [hd]
    simp only [hirc']
    rfl
  · have hst : (Xeros.resume im k q).state = Function.update k.state q .RUNNING := by rw [resume_eq]
    rw [hst] at e
    exact (Function.update_of_ne (Ne.symm hq) ..).symm.trans e

/-- Machines that differ in the return value of `p`, and are the same once `p` runs. -/
def System (p : Idx) (s s' : Sys) : Prop := s.cur = s'.cur ∧ Twin p s.kernel s'.kernel ∧ (s.cur = some p → s = s')

theorem dispatch_next (h : Twin p k t) (hs : Sound k partner f) {tr : Option Idx}
    (htr : ∀ q, tr = some q → k.state q = .RUNNING) (heq : tr = some p → t = k) :
    Option.Rel (System p) (Xeros.dispatch_next im k tr) (Xeros.dispatch_next im t tr) := by
  have hrest {k t : Kernel} {f : Queue → List Idx} (h : Twin p k t) (hs : Sound k partner f) :
      Option.Rel (System p) (Xeros.dispatch_next im k none) (Xeros.dispatch_next im t none) := by
    change Option.Rel (System p) ((Xeros.select k).bind _) ((Xeros.select t).bind _)
    have hhead : ∀ i, k.ready_queue = some i → k.state i = .READY := by
      intro i hi
      have hc : k.ready_queue = (f .ready).head? := (hs.queued.lists.chain .ready).head?
      exact hs.queued.fits .ready i (List.mem_of_mem_head? (hc.symm.trans hi))
    obtain ⟨k', r', f', hsel, e, -, -, hsome⟩ := hs.queued.select
    refine rel_bind (rel_mono (h.select hhead) (S := fun a b => (a.2 = b.2 ∧ Twin p a.1 b.1) ∧
      ∀ i, a.2 = some i → a.1.state i = .READY) ?_) ?_
    · rintro a b ha hab
      refine ⟨hab, fun i hi => ?_⟩
      cases Option.some.inj (hsel.symm.trans ha)
      have hst : k'.state = k.state := by rw [e]
      change k'.state i = _
      rw [hst]
      exact (hsome i hi).1
    · rintro ⟨k1, r⟩ ⟨t1, r1⟩ ⟨⟨hr, h1⟩, hst⟩
      change r = r1 at hr
      change Twin p k1 t1 at h1
      subst hr
      cases r with
      | none => exact .some ⟨rfl, h1, by simp⟩
      | some i =>
        obtain ⟨h2, heq2⟩ := h1.resume im i (by
          rintro rfl
          exact h1.2 (hst i rfl))
        refine .some ⟨rfl, h2, fun e => ?_⟩
        rw [heq2 (Option.some.inj e)]
  cases tr with
  | none => exact hrest h hs
  | some q =>
    rw [dispatch_next_some, dispatch_next_some]
    obtain ⟨k1, hk1, hs1⟩ := hs.ready (hs.running (htr q rfl)) (by rw [htr q rfl]; simp)
    refine rel_bind (rel_mono (h.ready fun e => heq (congrArg some e)) (S := fun a b => Twin p a b ∧ a = k1) ?_) ?_
    · intro a b ha hab
      exact ⟨hab, Option.some.inj (ha.symm.trans hk1)⟩
    · rintro a b ⟨hab, rfl⟩
      exact hrest hab hs1

/-- One turn of the dispatcher, for another process or a request of `p` that is replied to. -/
theorem dispatch_request {r : Option Request} (h : Twin p k t) (hs : Sound k partner f) (hrun : Runs k q)
    (hok : ∀ x, r = some x → RequestOk k partner q x) (hq : q = p → ∃ x, r = some x ∧ Replied k q x) :
    Option.Rel (System p) (Xeros.dispatch_request im k q r) (Xeros.dispatch_request im t q r) := by
  unfold Xeros.dispatch_request
  split
  · -- `TIME_INT` goes back to its caller, which is not `p`
    have hne : q ≠ p := by
      intro e
      obtain ⟨x, hx, hret, -⟩ := hq e
      cases hx
      cases hret
    refine .some ⟨rfl, h.edit (g := fun k => switch_to k q) (fun k v => ?_) id, fun e => absurd (Option.some.inj e) hne⟩
    have hirc : (set_irc k p v).irc q = k.irc q := Function.update_of_ne hne ..
    unfold switch_to
    rw [hirc]
    rfl
  · next x hx =>
    have hqx : q = p → Replied k q x := by
      intro e
      obtain ⟨y, hy, hreplied⟩ := hq e
      cases hy
      exact hreplied
    refine rel_bind (rel_mono (h.handle_request im q x hqx) (S := fun a b => Handled p a b ∧
      (∃ f', Sound a.1 (retarget partner q (named k q x)) f') ∧ ∀ j, a.2 = some j → a.1.state j = .RUNNING) ?_) ?_
    · rintro ⟨k1, tr⟩ b hh hab
      obtain ⟨⟨f1, h1, -⟩, hst⟩ := hs.handled hrun (hok x rfl) hh
      exact ⟨hab, ⟨f1, h1⟩, hst⟩
    · rintro ⟨k1, tr⟩ ⟨t1, tr'⟩ ⟨⟨htr, h1, heq⟩, ⟨f1, hs1⟩, hst⟩
      change tr = tr' at htr
      subst htr
      exact h1.dispatch_next hs1 hst heq
  · exact h.dispatch_next hs (by rintro j ⟨⟩) (by rintro ⟨⟩)

end Twin

/-! ## Runs -/

/-- The running process `p` traps with a request that is replied to. -/
def Asks (s : Traced) (p : Idx) (e : Event) : Prop :=
  ∃ k r, trapped s.sys e = some (k, p, some r) ∧ Replied k p r

/-- The machine with another return value for `p`. -/
def with_irc (s : Traced) (p : Idx) (v : Word) : Traced :=
  { s with sys := { s.sys with kernel := set_irc s.sys.kernel p v } }

/-- Two machines side by side that differ in the return value of `p`. -/
structure Alike (p : Idx) (s t : Traced) : Prop where
  inv : TracedInv s
  partner : s.partner = t.partner
  cur : s.sys.cur = t.sys.cur
  twin : Twin p s.sys.kernel t.sys.kernel

namespace Alike

variable {im : Image} {s t : Traced} {e : Event}

/-- A trap leads to the same request of the same process. -/
theorem at_trap {r : Option Request} (h : Alike p s t) (ht : trapped s.sys e = some (k, q, r)) :
    ∃ k', trapped t.sys e = some (k', q, r) ∧ Twin p k k' ∧ ∀ x, named k' q x = named k q x := by
  have hnamed {k k' : Kernel} (h : Twin p k k') (q : Idx) (x : Request) : named k' q x = named k q x :=
    h.same (named · q x) fun _ => rfl
  cases e with
  | user g => cases ht
  | keyboard codes => cases ht
  | syscall esp =>
    obtain ⟨i, hi, ht⟩ := Option.bind_eq_some_iff.1 ht
    cases ht
    have h1 := h.twin.edit (g := fun k => (syscall_entry k q esp).1) (fun _ _ => rfl) id
    refine ⟨_, ?_, h1, hnamed h1 q⟩
    rw [← h.twin.same (·.mem) fun _ => rfl]
    unfold trapped
    rw [← h.cur, hi]
    rfl
  | timer esp eax =>
    obtain ⟨i, hi, ht⟩ := Option.bind_eq_some_iff.1 ht
    cases ht
    have h1 := (h.twin.edit (g := fun k => { k with esp := Function.update k.esp q esp }) (fun _ _ => rfl) id).set q eax
    refine ⟨_, ?_, h1, hnamed h1 q⟩
    unfold trapped
    rw [← h.cur, hi]
    rfl

/-- While `p` does not run, and when it asks, the machines stay alike, and they
are the same once `p` runs. -/
theorem step (h : Alike p s t) (hok : ReadiesUnlisted s e) (hcur : s.sys.cur = some p → Asks s p e) :
    Option.Rel (fun a b => Alike p a b ∧ (a.sys.cur = some p → a = b)) (tracedStep im e s) (tracedStep im e t) := by
  have hrel : Option.Rel (fun a b => a.partner = b.partner ∧ Twin.System p a.sys b.sys)
      (tracedStep im e s) (tracedStep im e t) := by
    cases htr : trapped s.sys e with
    | some x =>
      obtain ⟨k, q, r⟩ := x
      obtain ⟨k', htr', htwin, hnamed⟩ := h.at_trap htr
      obtain ⟨⟨f, hf⟩, hrun⟩ := h.inv.at_trap htr
      have hok' : ∀ x, r = some x → RequestOk k s.partner q x := by
        rintro x rfl
        exact hok.request htr
      have hq : q = p → ∃ x, r = some x ∧ Replied k q x := by
        rintro rfl
        obtain ⟨k1, x, hk1, hx⟩ := hcur (trapped_cur htr)
        cases Option.some.inj (htr.symm.trans hk1)
        exact ⟨x, rfl, hx⟩
      rw [tracedStep_trapped htr, tracedStep_trapped htr', ← h.partner, show named k' q = named k q from funext hnamed]
      exact rel_bind (htwin.dispatch_request hf hrun hok' hq) fun a b hab => .some ⟨rfl, hab⟩
    | none =>
      have hne : s.sys.cur ≠ some p := by
        intro hp
        obtain ⟨k, r, hk, -⟩ := hcur hp
        rw [htr] at hk
        cases hk
      have hback {k t' : Kernel} (hk : Twin p k t') :
          Twin.System p { s.sys with kernel := k } { t.sys with kernel := t' } := ⟨h.cur, hk, fun hp => absurd hp hne⟩
      -- a trap of nobody does not happen
      have hhalt (hcur : s.sys.cur = none) : Option.Rel (fun a b => a.partner = b.partner ∧ Twin.System p a.sys b.sys)
          (tracedStep im e s) (tracedStep im e t) := by
        rw [tracedStep_halted hcur, tracedStep_halted (h.cur.symm.trans hcur)]
        exact .none
      cases e with
      | user g =>
        rw [tracedStep_user, tracedStep_user, ← h.cur]
        refine rel_bind_same fun _ _ => .some ⟨h.partner, hback ?_⟩
        exact h.twin.edit (g := fun k => { k with mem := g k.mem }) (fun _ _ => rfl) id
      | keyboard codes =>
        rw [tracedStep_keyboard, tracedStep_keyboard, ← h.cur]
        refine rel_bind_same fun _ _ => rel_bind (h.twin.keyboard_lower codes) ?_
        exact fun a b hab => .some ⟨h.partner, hback hab.1⟩
      | syscall esp =>
        refine hhalt (Option.eq_none_iff_forall_ne_some.2 fun i hi => ?_)
        rw [trapped, hi] at htr
        cases htr
      | timer esp eax =>
        refine hhalt (Option.eq_none_iff_forall_ne_some.2 fun i hi => ?_)
        rw [trapped, hi] at htr
        cases htr
  refine rel_mono hrel ?_
  rintro a b ha ⟨hpartner, hsys⟩
  refine ⟨⟨h.inv.step hok ha, hpartner, hsys.1, hsys.2.1⟩, fun hp => ?_⟩
  obtain ⟨sys, partner⟩ := a
  obtain ⟨sys', partner'⟩ := b
  change partner = partner' at hpartner
  rw [hpartner, show sys = sys' from hsys.2.2 hp]

end Alike

/-! ## Results -/

/-- The value that `p` finds in `eax` when it goes on. -/
def returned (s : Traced) (p : Idx) : Word := getFrame s.sys.kernel.mem (s.sys.kernel.esp p) .eax

/-- Nothing is made ready that is on a list, and `p` does not run. -/
def Away (p : Idx) (s : Traced) (e : Event) : Prop := ReadiesUnlisted s e ∧ s.sys.cur ≠ some p

/-- A request of `p` that is replied to leads to the same machine, and to the
same return value, whatever return value `p` had before it, once `p` goes on. -/
theorem answers_fresh {im : Image} {s s1 s' : Traced} {p : Idx} {e : Event} {es : List Event}
    (hs : Reach (tracedStep im) (TracedInit im) ReadiesUnlisted s) (hask : Asks s p e) (hok : ReadiesUnlisted s e)
    (h1 : tracedStep im e s = some s1) (hrun : Trail (tracedStep im) (Away p) s1 es s') (hp : s'.sys.cur = some p)
    (v : Word) : ∃ t1, tracedStep im e (with_irc s p v) = some t1 ∧
      Trail (tracedStep im) (fun s _ => s.sys.cur ≠ some p) t1 es s' := by
  have hinv : TracedInv s := by
    refine hs.inv TracedInv ?_ fun _ _ _ h hok ht => h.step hok ht
    rintro s ⟨m, root, idleproc, hb⟩
    exact (TracedInv.boot hb).1
  have hcur : s.sys.cur = some p := by
    obtain ⟨k, r, ht, -⟩ := hask
    exact trapped_cur ht
  have halike : Alike p s (with_irc s p v) := by
    refine ⟨hinv, rfl, rfl, ⟨v, rfl⟩, fun e => ?_⟩
    rw [(hinv.runs p hcur).1] at e
    cases e
  have hrel : Option.Rel (fun a b => Alike p a b ∧ (a.sys.cur = some p → a = b)) (tracedStep im e s)
      (tracedStep im e (with_irc s p v)) := halike.step hok fun _ => hask
  rw [h1] at hrel
  cases ht1 : tracedStep im e (with_irc s p v) with
  | none =>
    rw [ht1] at hrel
    cases hrel
  | some t1 =>
    rw [ht1] at hrel
    cases hrel with
    | some hR =>
      -- in lockstep until `p` runs, when they are the same
      have hkeep : ∀ a b e, Alike p a b ∧ (a.sys.cur = some p → a = b) → Away p a e →
          b.sys.cur ≠ some p ∧ Option.Rel (fun a b => Alike p a b ∧ (a.sys.cur = some p → a = b))
            (tracedStep im e a) (tracedStep im e b) := by
        rintro a b e ⟨hab, -⟩ ⟨hok, hne⟩
        exact ⟨fun hb => hne (hab.cur.trans hb), hab.step hok fun ha => absurd ha hne⟩
      have hlock : ∃ t', Trail (tracedStep im) (fun s _ => s.sys.cur ≠ some p) t1 es t' ∧
          Alike p s' t' ∧ (s'.sys.cur = some p → s' = t') := hrun.lockstep hkeep hR
      obtain ⟨t', htrail, -, heq⟩ := hlock
      rw [heq hp]
      exact ⟨t1, rfl, htrail⟩

def awayEvent (p : Idx) (s : Traced) (e : Event) : Bool := plainEvent s e && decide (s.sys.cur ≠ some p)

theorem awayEvent_ok {p : Idx} {s : Traced} {e : Event} (h : awayEvent p s e = true) : Away p s e := by
  obtain ⟨hplain, hne⟩ := (Bool.and_eq_true ..).mp h
  exact ⟨plainEvent_ok hplain, of_decide_eq_true hne⟩

/-- Process 0 sends to the idle process, which receives. -/
theorem answers_fresh_send : ∃ s s', s.sys.cur = some 0 ∧ s'.sys.cur = some 0 ∧
    ∀ v, ∃ t1, tracedStep sampleImage (.syscall 0x10000) (with_irc s 0 v) = some t1 ∧
      Trail (tracedStep sampleImage) (fun s _ => s.sys.cur ≠ some 0) t1
        (call 0x11000 .RECV [0x12000, 0x12100, 0]) s' := by
  have h0 : Reach (tracedStep sampleImage) (TracedInit sampleImage) ReadiesUnlisted tracedBoot := .start tracedBoot_init
  obtain ⟨s, hs, ht⟩ := h0.exec_ok plainEvent (fun _ _ => plainEvent_ok) ((call 0x10000 .SEND [2]).take 1)
    (fun s : Traced => plainEvent s (.syscall 0x10000) &&
      (trapped s.sys (.syscall 0x10000)).any (·.2 = (0, some .SEND)) &&
      (tracedStep sampleImage (.syscall 0x10000) s).any fun s1 : Traced =>
        (exec (tracedStep sampleImage) (awayEvent 0) (call 0x11000 .RECV [0x12000, 0x12100, 0]) s1).any
          fun s' : Traced => decide (s'.sys.cur = some 0)) (by decide +kernel)
  simp only [Bool.and_eq_true, Option.any_eq_true, decide_eq_true_eq] at ht
  obtain ⟨⟨hplain, ⟨k, q, r⟩, htr, hr⟩, s1, h1, s', hrun, hp⟩ := ht
  cases hr
  have hask : Asks s 0 (.syscall 0x10000) := ⟨k, .SEND, htr, rfl, fun e => by cases e⟩
  exact ⟨s, s', trapped_cur htr, hp, answers_fresh hs hask (plainEvent_ok hplain) h1
    (.of_exec (fun _ _ => awayEvent_ok) hrun) hp⟩

/-- The same holds of no `SLEEP` of 0 milliseconds: process 0 comes back with the return value it had. -/
theorem answers_stale : ¬∀ im s p e es s1 s', Reach (tracedStep im) (TracedInit im) Any s →
    (∃ k r, trapped s.sys e = some (k, p, some r) ∧ r.returns = true) → tracedStep im e s = some s1 →
    Trail (tracedStep im) (fun s _ => s.sys.cur ≠ some p) s1 es s' → s'.sys.cur = some p →
    ∀ v t1 t', tracedStep im e (with_irc s p v) = some t1 →
      Trail (tracedStep im) (fun s _ => s.sys.cur ≠ some p) t1 es t' → t'.sys.cur = some p →
      returned s' p = returned t' p := by
  intro hall
  have h0 : Reach (tracedStep sampleImage) (TracedInit sampleImage) Any tracedBoot := .start tracedBoot_init
  obtain ⟨s, hs, ht⟩ := h0.exec_any ((call 0x10000 .SLEEP [0]).take 1)
    (fun s : Traced => (trapped s.sys (.syscall 0x10000)).any (·.2 = (0, some .SLEEP)) &&
      (tracedStep sampleImage (.syscall 0x10000) s).any fun s1 : Traced => s1.sys.cur = some 0 &&
        (tracedStep sampleImage (.syscall 0x10000) (with_irc s 0 7)).any fun t1 : Traced => t1.sys.cur = some 0 &&
          returned s1 0 != returned t1 0) (by decide +kernel)
  simp only [Bool.and_eq_true, Option.any_eq_true, decide_eq_true_eq, bne_iff_ne] at ht
  obtain ⟨⟨⟨k, q, r⟩, htr, hr⟩, s1, h1, hp, t1, ht1, hp', hne⟩ := ht
  cases hr
  exact hne (hall _ _ _ _ [] _ _ hs ⟨k, .SLEEP, htr, rfl⟩ h1 .nil hp 7 _ _ ht1 .nil hp')

end Xeros
