import Xeros.Model.Syscall
import Xeros.Msg.Exchange
/-!
# The bytes of a message

A sender and a receiver that meet are handed to `send_receive_transfer` by one
of four paths. It takes the least of two lengths that no one has checked as an
`int` and gives it to `_bcopy` as a count: a negative one makes for some 4 GiB
(`transfer_exact_iff`).
-/

namespace Xeros

open Mem Kernel

variable {k k' : Kernel} {s r p d : Idx}

/-- `max(0, min(sender length, receiver length))`. -/
def messageLen (k : Kernel) (s r : Idx) : Nat := (max 0 (min (k.arg s 2).toInt (k.arg r 2).toInt)).toNat

/-- A `send` of `s` or a `receive` of `r` that makes the other one ready. -/
def Matched (k k' : Kernel) (s r : Idx) : Prop :=
  (k.state s = .RUNNING ∧ k.state r = .RECEIVING ∧ send k s (k.arg s 0) = some k' ∧ k'.state r = .READY) ∨
  (k.state r = .RUNNING ∧ k.state s = .SENDING ∧ receive k r (k.arg r 0) = some k' ∧ k'.state s = .READY)

/-- The two buffers and the from-pid cell do not meet. -/
structure RegionsDisjoint (k : Kernel) (s r : Idx) : Prop where
  buffers : Mem.Disjoint (k.arg s 1) (messageLen k s r) (k.arg r 1) (messageLen k s r)
  sent : Mem.Disjoint (k.arg s 1) (messageLen k s r) (k.arg r 0) 4
  received : Mem.Disjoint (k.arg r 1) (messageLen k s r) (k.arg r 0) 4

/-- The message is in the receiver's buffer, no other memory but the from-pid
cell has changed, and both processes get its length or an error code. -/
structure Transferred (k k' : Kernel) (s r : Idx) : Prop where
  bytes : k'.mem.bytes (k.arg r 1) (messageLen k s r) = k.mem.bytes (k.arg s 1) (messageLen k s r)
  others : ∀ x : Word, messageLen k s r ≤ (x - k.arg r 1).toNat → 4 ≤ (x - k.arg r 0).toNat → k'.mem x = k.mem x
  count : k'.irc s = k'.irc r ∧ (k'.irc s = BitVec.ofNat 32 (messageLen k s r) ∨ (k'.irc s).toInt < 0)

/-! ## The transfer -/

/-- The bytes that `_bcopy` is called for. -/
def copyLen (k : Kernel) (s r : Idx) : Word :=
  if (k.arg s 2).toInt < (k.arg r 2).toInt then k.arg s 2 else k.arg r 2

theorem transfer_mem (k : Kernel) (s r : Idx) : (send_receive_transfer k s r).mem =
    (k.mem.copy (k.arg s 1) (k.arg r 1) (copyLen k s r).toNat).store32 (k.arg r 0) (k.pid s) := by
  have hzero : (if copyLen k s r ≠ 0 then k.mem.copy (k.arg s 1) (k.arg r 1) (copyLen k s r).toNat else k.mem) =
      k.mem.copy (k.arg s 1) (k.arg r 1) (copyLen k s r).toNat := by
    split
    · rfl
    · next h =>
      rw [not_not.1 h]
      rfl
  rw [← hzero]
  rfl

theorem transfer_irc (hsr : r ≠ s) :
    (send_receive_transfer k s r).irc s = copyLen k s r ∧ (send_receive_transfer k s r).irc r = copyLen k s r := by
  refine ⟨Function.update_self .., ?_⟩
  exact (Function.update_of_ne hsr ..).trans (Function.update_self ..)

/-- The count is the length of the message when neither length is negative. -/
theorem copyLen_of_nonneg (hs : 0 ≤ (k.arg s 2).toInt) (hr : 0 ≤ (k.arg r 2).toInt) :
    (copyLen k s r).toNat = messageLen k s r := by
  unfold copyLen messageLen
  have hnat {x : Word} (hx : 0 ≤ x.toInt) : x.toInt = x.toNat := by
    rw [BitVec.toInt_eq_toNat_cond] at hx ⊢
    omega
  rw [hnat hs, hnat hr]
  split <;> omega

theorem messageLen_le (k : Kernel) (s r : Idx) : messageLen k s r ≤ 2 ^ 32 := by
  have h := BitVec.toInt_lt (x := k.arg s 2)
  unfold messageLen
  omega

/-- What a transfer of non-negative lengths does. -/
theorem delivered_of_nonneg (hsr : r ≠ s) (hs : 0 ≤ (k.arg s 2).toInt) (hr : 0 ≤ (k.arg r 2).toInt)
    (hd : RegionsDisjoint k s r) (hmem : k'.mem = (send_receive_transfer k s r).mem)
    (hirc : k'.irc = (send_receive_transfer k s r).irc) : Transferred k k' s r := by
  have hlen := copyLen_of_nonneg hs hr
  have hn := messageLen_le k s r
  rw [transfer_mem, hlen] at hmem
  obtain ⟨hi, hi'⟩ := transfer_irc (k := k) hsr
  refine ⟨?_, fun x hx hcell => ?_, ?_⟩
  · rw [hmem, bytes_congr hn fun x hx => store32_outside _ _ _ x (hd.received x hx)]
    exact bytes_copy k.mem hn hd.buffers
  · rw [hmem, store32_outside _ _ _ x hcell, copy_outside _ _ _ hx]
  · rw [hirc, hi, hi', ← hlen, BitVec.ofNat_toNat, BitVec.setWidth_eq]
    exact ⟨rfl, .inl rfl⟩

/-! ## The four paths -/

/-- Taking a process out of a queue writes one link at most. -/
theorem queue_remove_eq {q : Queue} {pid : Word} {o : Option Idx} (h : queue_remove k q pid = some (o, k')) :
    k' = k ∨ ∃ l v, k' = k.assign l v := by
  obtain ⟨link, -, h⟩ := Option.bind_eq_some_iff.1 h
  split at h
  · cases h
    exact .inl rfl
  · cases h
    exact .inr ⟨_, _, rfl⟩

/-- The two have met, and of the others none is ready who was not before. -/
theorem ready_both_eq (h : (do let k ← ready k p; ready k d) = some k') :
    k'.mem = k.mem ∧ k'.irc = k.irc ∧ ∀ i, k'.state i = .READY → i = p ∨ i = d ∨ k.state i = .READY := by
  obtain ⟨k1, h1, h2⟩ := Option.bind_eq_some_iff.1 h
  have e1 := ready_eq h1
  have e2 := ready_eq h2
  refine ⟨by rw [e2, e1], by rw [e2, e1], fun i hi => ?_⟩
  by_cases hip : i = p
  · exact .inl hip
  by_cases hid : i = d
  · exact .inr (.inl hid)
  rw [e2, e1] at hi
  simp only [Function.update_of_ne hid, Function.update_of_ne hip] at hi
  exact .inr (.inr hi)

/-- The kernel `k1` differs from `k` in links only. -/
structure SameArgs (k k1 : Kernel) : Prop where
  arg : ∀ i n, k1.arg i n = k.arg i n
  mem : k1.mem = k.mem
  pid : k1.pid = k.pid
  irc : k1.irc = k.irc
  state : k1.state = k.state

theorem SameArgs.of_remove {q : Queue} {pid : Word} {o : Option Idx} (h : queue_remove k q pid = some (o, k')) :
    SameArgs k k' := by
  rcases queue_remove_eq h with rfl | ⟨l, v, rfl⟩
  · exact ⟨fun _ _ => rfl, rfl, rfl, rfl, rfl⟩
  · exact ⟨arg_assign k l v, by rw [assign_heap], assign_pid .., assign_irc .., assign_state ..⟩

/-- The effect of the transfer that two processes have met in. -/
theorem SameArgs.transfer {k1 : Kernel} (h : SameArgs k k1) (s r : Idx) :
    (send_receive_transfer k1 s r).mem = (send_receive_transfer k s r).mem ∧
      (send_receive_transfer k1 s r).irc = (send_receive_transfer k s r).irc := by
  constructor
  · simp only [send_receive_transfer, h.arg, h.mem, h.pid]
  · simp only [send_receive_transfer, h.arg, h.irc]

/-- A process that was not ready and now is has met `p`, which has called for it. -/
theorem met_of_ready {k1 : Kernel} {q : Idx} (hd : k.state d ≠ .READY) (hdp : d ≠ p)
    (h : (do let k ← ready k1 p; ready k q) = some k') (hstate : k1.state = k.state)
    (hready : k'.state d = .READY) : d = q ∧ k'.mem = k1.mem ∧ k'.irc = k1.irc := by
  obtain ⟨hmem, hirc, hall⟩ := ready_both_eq h
  refine ⟨?_, hmem, hirc⟩
  rcases hall d hready with e | e | e
  · exact absurd e hdp
  · exact e
  · rw [hstate] at e
    exact absurd e hd

/-- A call that only readies the caller. -/
theorem not_ready_of_caller {k1 : Kernel} (hd : k.state d ≠ .READY) (hdp : d ≠ p) (h : ready k1 p = some k')
    (hstate : k1.state = k.state) : k'.state d ≠ .READY := by
  have e := ready_eq h
  rw [e]
  simpa only [Function.update_of_ne hdp, hstate] using hd

/-- A call that only blocks the caller. -/
theorem not_ready_of_insert {k1 : Kernel} {q : Queue} {st : PState} (hd : k.state d ≠ .READY) (hdp : d ≠ p)
    (h : queue_insert k1 q p st = some k') (hstate : k1.state = k.state) : k'.state d ≠ .READY := by
  obtain ⟨stop, -, h⟩ := Option.bind_eq_some_iff.1 h
  cases h
  simpa only [Function.update_of_ne hdp, assign_state, hstate] using hd

theorem send_matched {dest : Word} (hp : k.state p = .RUNNING) (hd : k.state d = .RECEIVING)
    (h : send k p dest = some k') (hready : k'.state d = .READY) :
    k'.mem = (send_receive_transfer k p d).mem ∧ k'.irc = (send_receive_transfer k p d).irc := by
  have hnr : k.state d ≠ .READY := by simp [hd]
  have hdp : d ≠ p := ne_of_apply_ne k.state (by simp [hd, hp])
  rcases send_steps h with ⟨rc, h⟩ | ⟨r, k1, hrem, hend⟩
  · exact absurd hready (not_ready_of_caller hnr hdp h rfl)
  have hsame := SameArgs.of_remove hrem
  rcases hend with ⟨q, h⟩ | ⟨q, h⟩
  · obtain ⟨rfl, hmem, hirc⟩ := met_of_ready hnr hdp h hsame.state hready
    exact ⟨hmem.trans (hsame.transfer p d).1, hirc.trans (hsame.transfer p d).2⟩
  · exact absurd hready (not_ready_of_insert hnr hdp h hsame.state)

theorem receive_matched {a : Word} (hp : k.state p = .RUNNING) (hd : k.state d = .SENDING)
    (h : receive k p a = some k') (hready : k'.state d = .READY) :
    k'.mem = (send_receive_transfer k d p).mem ∧ k'.irc = (send_receive_transfer k d p).irc := by
  have hnr : k.state d ≠ .READY := by simp [hd]
  have hdp : d ≠ p := ne_of_apply_ne k.state (by simp [hd, hp])
  rcases receive_steps h with ⟨rc, h⟩ | ⟨q, h⟩ | rfl | ⟨r, k1, hrem, hend⟩
  · exact absurd hready (not_ready_of_caller hnr hdp h rfl)
  · obtain ⟨rfl, hmem, hirc⟩ := met_of_ready hnr hdp h rfl hready
    exact ⟨hmem, hirc⟩
  · exact absurd ((Function.update_of_ne hdp _ k.state).symm.trans hready) hnr
  have hsame := SameArgs.of_remove hrem
  rcases hend with ⟨q, h⟩ | ⟨q, h⟩
  · obtain ⟨rfl, hmem, hirc⟩ := met_of_ready hnr hdp h hsame.state hready
    exact ⟨hmem.trans (hsame.transfer d p).1, hirc.trans (hsame.transfer d p).2⟩
  · exact absurd hready (not_ready_of_insert hnr hdp h hsame.state)

/-! ## A meeting with any two lengths -/

/-- PCB 0, which runs, sends to PCB 1, which receives from any. The sender's
buffer is its own arguments, and everything else is 0. -/
def meeting (ls lr : Word) : Kernel :=
  { init sampleImage (fun _ => 0) with
    mem := [(0x1000, 2), (0x1004, 0x1000), (0x1008, ls), (0x2000, 0x3000), (0x2004, 0x4000), (0x2008, lr)].foldl
      (fun m a => m.store32 a.1 a.2) fun _ => 0
    state := Function.update (Function.update (fun _ => .STOPPED) 0 .RUNNING) 1 .RECEIVING
    pid := Function.update (Function.update (fun _ => 0) 0 1) 1 2
    iargs := Function.update (Function.update (fun _ => 0) 0 0x1000) 1 0x2000
    pidMap := .node 0x20010 1 0 2 .null (.node 0x20040 2 1 1 .null .null) }

section
variable (ls lr : Word)

theorem args_meeting : (meeting ls lr).arg 0 0 = 2 ∧ (meeting ls lr).arg 0 1 = 0x1000 ∧ (meeting ls lr).arg 0 2 = ls ∧
    (meeting ls lr).arg 1 0 = 0x3000 ∧ (meeting ls lr).arg 1 1 = 0x4000 ∧ (meeting ls lr).arg 1 2 = lr ∧
    (meeting ls lr).mem.load32 0x3000 = 0 := by
  have hload (a v : Word) (h : (meeting ls lr).mem.load32 a = v) {p : Idx} {n : Nat}
      (e : (meeting ls lr).iargs p + BitVec.ofNat 32 (4 * n) = a) : (meeting ls lr).arg p n = v := by
    rw [arg, e, h]
  refine ⟨hload 0x1000 _ ?_ rfl, hload 0x1004 _ ?_ rfl, hload 0x1008 _ ?_ rfl, hload 0x2000 _ ?_ rfl,
    hload 0x2004 _ ?_ rfl, hload 0x2008 _ ?_ rfl, ?_⟩
  all_goals
    simp (disch := decide) only [meeting, List.foldl_cons, List.foldl_nil, load32_store32_of_apart, load32_store32]
  rfl

theorem meeting_matched : ∃ k', Matched (meeting ls lr) k' 0 1 := by
  obtain ⟨hdest, -, -, hcell, -, -, h0⟩ := args_meeting ls lr
  have hany : (meeting ls lr).state 1 = .RECEIVING ∧ (meeting ls lr).mem.load32 ((meeting ls lr).arg 1 0) = 0 :=
    ⟨rfl, by rw [hcell, h0]⟩
  obtain ⟨k', hk', hready⟩ : ∃ k', (do
      let k ← ready (send_receive_transfer (meeting ls lr) 0 1) 0
      ready k 1) = some k' ∧ k'.state 1 = .READY := ⟨_, rfl, rfl⟩
  refine ⟨k', .inl ⟨rfl, rfl, ?_, hready⟩⟩
  have hpid : (meeting ls lr).pid 0 ≠ 2 := show (1 : Word) ≠ 2 by decide
  have hlookup : pidMapLookup (meeting ls lr) 2 = some (pcbIndex 1) := rfl
  have hremove : recv_queue_remove (meeting ls lr) 0 2 = some (none, meeting ls lr) := rfl
  rw [hdest, send, if_neg hpid, hlookup]
  simp only []
  rw [hremove, Option.bind_eq_bind, Option.bind_some]
  simp only []
  rw [pcbAt_pcbIndex, Option.bind_eq_bind, Option.bind_some]
  exact (if_pos hany).trans hk'

/-- A negative count moves the first byte of the sender's buffer at least. -/
theorem meeting_not_delivered (hneg : ¬(0 ≤ ls.toInt ∧ 0 ≤ lr.toInt)) (h : Matched (meeting ls lr) k' 0 1) :
    RegionsDisjoint (meeting ls lr) 0 1 ∧ ¬Transferred (meeting ls lr) k' 0 1 := by
  obtain ⟨-, hsrc, hls, hcell, hdst, hlr, -⟩ := args_meeting ls lr
  have hzero : messageLen (meeting ls lr) 0 1 = 0 := by
    rw [messageLen, hls, hlr]
    omega
  have hcount : 0 < (copyLen (meeting ls lr) 0 1).toNat := by
    rw [Nat.pos_iff_ne_zero]
    intro e
    have e0 : copyLen (meeting ls lr) 0 1 = 0 := BitVec.eq_of_toNat_eq e
    have h0 : (0 : Word).toInt = 0 := rfl
    rw [copyLen, hls, hlr] at e0
    split at e0
    · next hlt =>
      rw [e0] at hneg hlt
      omega
    · next hlt =>
      rw [e0] at hneg hlt
      omega
  have hsend : (meeting ls lr).mem 0x1000 = 2 := by
    simp (disch := decide) only [meeting, List.foldl_cons, List.foldl_nil, store32_outside]
    rfl
  have hrecv : (meeting ls lr).mem 0x4000 = 0 := by
    simp (disch := decide) only [meeting, List.foldl_cons, List.foldl_nil, store32_outside]
  rcases h with ⟨hp, hd, hs, hready⟩ | ⟨hp, -⟩
  · refine ⟨⟨?_, ?_, ?_⟩, fun hdel => ?_⟩
    · rw [hzero]
      exact disjoint_zero
    · rw [hzero]
      exact disjoint_zero
    · rw [hzero]
      exact disjoint_zero
    · have hsame := hdel.others 0x4000 (by rw [hzero]; exact Nat.zero_le _) (by rw [hcell]; decide)
      obtain ⟨hmem, -⟩ := send_matched hp hd hs hready
      have hmoved := copy_inside (meeting ls lr).mem 0x1000 0x4000 hcount (Nat.le_of_lt (BitVec.isLt _))
        fun j hj => absurd hj (Nat.not_lt_zero j)
      rw [BitVec.add_zero, BitVec.add_zero, hsend] at hmoved
      rw [hmem, transfer_mem, hsrc, hdst, hcell, store32_outside _ _ _ _ (by decide), hmoved, hrecv] at hsame
      exact absurd hsame (by decide)
  · -- the receiver is the one that waits
    exact absurd hp (show PState.RECEIVING ≠ .RUNNING by decide)

end

/-! ## Results -/

/-- For two lengths, every meeting of a sender and a receiver that were called
with them delivers the message exactly when neither length is negative. -/
theorem transfer_exact_iff (ls lr : Word) :
    (∀ k k' s r, Matched k k' s r → k.arg s 2 = ls → k.arg r 2 = lr → RegionsDisjoint k s r → Transferred k k' s r) ↔
      0 ≤ ls.toInt ∧ 0 ≤ lr.toInt := by
  constructor
  · intro hall
    by_contra hneg
    obtain ⟨k', hm⟩ := meeting_matched ls lr
    obtain ⟨hd, hnot⟩ := meeting_not_delivered ls lr hneg hm
    obtain ⟨-, -, hls, -, -, hlr, -⟩ := args_meeting ls lr
    exact hnot (hall _ k' 0 1 hm hls hlr hd)
  · rintro ⟨hs, hr⟩ k k' s r hm rfl rfl hd
    rcases hm with ⟨hs', hr', hsend, hready⟩ | ⟨hr', hs', hrecv, hready⟩
    · obtain ⟨hmem, hirc⟩ := send_matched hs' hr' hsend hready
      exact delivered_of_nonneg (ne_of_apply_ne k.state (by simp [hs', hr'])) hs hr hd hmem hirc
    · obtain ⟨hmem, hirc⟩ := receive_matched hr' hs' hrecv hready
      exact delivered_of_nonneg (ne_of_apply_ne k.state (by simp [hs', hr'])) hs hr hd hmem hirc

theorem transfer_exact_4_bytes : ∃ k', Matched (meeting 4 6) k' 0 1 ∧ messageLen (meeting 4 6) 0 1 = 4 ∧
    Transferred (meeting 4 6) k' 0 1 := by
  obtain ⟨k', hm⟩ := meeting_matched 4 6
  obtain ⟨-, hsrc, hls, hcell, hdst, hlr, -⟩ := args_meeting 4 6
  have hlen : messageLen (meeting 4 6) 0 1 = 4 := by
    rw [messageLen, hls, hlr]
    decide
  refine ⟨k', hm, hlen, (transfer_exact_iff 4 6).2 (by decide) _ k' 0 1 hm hls hlr ⟨?_, ?_, ?_⟩⟩
  · rw [hlen, hsrc, hdst]
    intro x hx
    bv_omega
  · rw [hlen, hsrc, hcell]
    intro x hx
    bv_omega
  · rw [hlen, hdst, hcell]
    intro x hx
    bv_omega

/-- A sender that gives -1 as its length has more than 4 GB copied. -/
theorem transfer_runs_away : ¬∀ k k' s r, Matched k k' s r → RegionsDisjoint k s r → Transferred k k' s r := by
  intro hall
  obtain ⟨k', hm⟩ := meeting_matched (-1) 4
  obtain ⟨hd, hnot⟩ := meeting_not_delivered (-1) 4 (by decide) hm
  exact hnot (hall _ k' 0 1 hm hd)

end Xeros
