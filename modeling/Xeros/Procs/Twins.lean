import Xeros.Lib.Lockstep
import Xeros.Procs.Moves
import Xeros.Signal.Register
/-!
# Two kernels that differ in one return value

`Twin p k t` says that `t` is `k` with another return value for `p`, and `k`
itself once `p` is ready. Nothing reads a return value but the switch to its
process, so the functions of the kernel do the same to both; a function that
makes `p` ready has to write its return value to keep them twins.
-/

namespace Xeros

open Links Kernel Runs

variable {k t : Kernel} {p q i : Idx} {v w : Word}

/-! ## Another return value -/

section set_irc
variable (k p v)

@[simp] theorem set_irc_heap : (set_irc k p v).toHeap = k.toHeap := rfl
@[simp] theorem set_irc_senders : (set_irc k p v).senders = k.senders := rfl
@[simp] theorem set_irc_ready_queue : (set_irc k p v).ready_queue = k.ready_queue := rfl
@[simp] theorem set_irc_sleep_list : (set_irc k p v).sleep_list = k.sleep_list := rfl
@[simp] theorem set_irc_pidMap : (set_irc k p v).pidMap = k.pidMap := rfl
@[simp] theorem set_irc_nextPid : (set_irc k p v).nextPid = k.nextPid := rfl
@[simp] theorem set_irc_kbd : (set_irc k p v).kbd = k.kbd := rfl
@[simp] theorem set_irc_links : (set_irc k p v).links = k.links := rfl

@[simp] theorem set_irc_idem (w : Word) : set_irc (set_irc k p v) p w = set_irc k p w := by
  simp only [set_irc, Function.update_idem]

theorem set_irc_self : set_irc k p (k.irc p) = k := by
  simp only [set_irc, Function.update_eq_self]

theorem set_irc_comm (h : i ≠ p) (w : Word) : set_irc (set_irc k p v) i w = set_irc (set_irc k i w) p v := by
  simp only [set_irc, Function.update_comm h.symm]

theorem set_irc_assign (l : PcbLink) (x : Option Idx) : (set_irc k p v).assign l x = set_irc (k.assign l x) p v := by
  rcases l with (_ | _ | _ | _) | _ <;> rfl

end set_irc

/-! ## Twins -/

/-- `t` is `k` but for the return value of `p`; they are equal once `p` is ready. -/
def Twin (p : Idx) (k t : Kernel) : Prop := (∃ v, t = set_irc k p v) ∧ (k.state p = .READY → t = k)

namespace Twin

theorem refl (p : Idx) (k : Kernel) : Twin p k k := ⟨⟨k.irc p, (set_irc_self k p).symm⟩, fun _ => rfl⟩

theorem rel_refl (p : Idx) (x : Option Kernel) : Option.Rel (Twin p) x x := Runs.rel_refl (refl p) x

/-- What does not read the return value of `p` sees no difference. -/
theorem same {α : Type} (h : Twin p k t) (g : Kernel → α) (hg : ∀ v, g (set_irc k p v) = g k) : g t = g k := by
  obtain ⟨⟨v, rfl⟩, -⟩ := h
  exact hg v

/-- A write of the return value of `p` makes them equal. -/
theorem set_self (h : Twin p k t) (w : Word) : set_irc t p w = set_irc k p w := by
  obtain ⟨⟨v, rfl⟩, -⟩ := h
  exact set_irc_idem k p v w

theorem set (h : Twin p k t) (i : Idx) (w : Word) : Twin p (set_irc k i w) (set_irc t i w) := by
  by_cases hi : i = p
  · subst hi
    rw [h.set_self]
    exact refl i _
  · obtain ⟨⟨v, rfl⟩, hr⟩ := h
    exact ⟨⟨v, set_irc_comm k p v hi w⟩, fun e => by rw [hr e]⟩

/-- An edit that neither reads nor writes return values. -/
theorem edit (h : Twin p k t) {g : Kernel → Kernel} (hg : ∀ k v, g (set_irc k p v) = set_irc (g k) p v)
    (hst : (g k).state p = .READY → k.state p = .READY) : Twin p (g k) (g t) := by
  obtain ⟨⟨v, rfl⟩, hr⟩ := h
  exact ⟨⟨v, hg k v⟩, fun e => by rw [hr (hst e)]⟩

theorem assign (h : Twin p k t) (l : PcbLink) (x : Option Idx) : Twin p (k.assign l x) (t.assign l x) := by
  refine h.edit (g := fun k => k.assign l x) (fun k v => set_irc_assign k p v l x) fun e => ?_
  rwa [assign_state] at e

/-- A state other than ready. -/
theorem setState (h : Twin p k t) (q : Idx) {st : PState} (hst : st ≠ .READY) :
    Twin p { k with state := Function.update k.state q st } { t with state := Function.update t.state q st } := by
  refine h.edit (g := fun k => { k with state := Function.update k.state q st }) (fun _ _ => rfl) fun e => ?_
  by_cases hp : p = q
  · subst hp
    exact absurd ((Function.update_self ..).symm.trans e) hst
  · exact (Function.update_of_ne hp st k.state).symm.trans e

/-! ## The ready queue -/

theorem ready_set_irc (k : Kernel) (p : Idx) (v : Word) (i : Idx) :
    Xeros.ready (set_irc k p v) i = (Xeros.ready k i).map fun k' => set_irc k' p v := by
  unfold Xeros.ready
  rw [set_irc_links]
  cases walk k.links (fun _ => false) QUEUE_FUEL (.head .ready) with
  | none => rfl
  | some stop =>
    rcases stop with (_ | _ | _ | _) | _ <;> rfl

/-- `ready` of another process, or of `p` when they are equal. -/
theorem ready (h : Twin p k t) (hi : i = p → t = k) : Option.Rel (Twin p) (Xeros.ready k i) (Xeros.ready t i) := by
  by_cases hip : i = p
  · rw [hi hip]
    exact rel_refl p _
  · obtain ⟨⟨v, rfl⟩, hr⟩ := h
    rw [ready_set_irc]
    cases hk : Xeros.ready k i with
    | none => exact .none
    | some k' =>
      refine .some ⟨⟨v, rfl⟩, fun e => ?_⟩
      have e' := ready_eq hk
      have hst : k'.state p = k.state p := by
        rw [e']
        exact Function.update_of_ne (Ne.symm hip) ..
      have hv : k'.irc p = v := by
        have hsame := congrFun (congrArg Kernel.irc (hr (hst.symm.trans e))) p
        rw [e', ← hsame]
        exact Function.update_self ..
      rw [← hv]
      exact set_irc_self k' p

/-- `ready` of a process whose return value is written first. -/
theorem wake (h : Twin p k t) (i : Idx) (w : Word) :
    Option.Rel (Twin p) (Xeros.ready (set_irc k i w) i) (Xeros.ready (set_irc t i w) i) := by
  refine (h.set i w).ready ?_
  rintro rfl
  exact h.set_self w

theorem next (h : Twin p k t) : (Xeros.next t).1 = (Xeros.next k).1 ∧ Twin p (Xeros.next k).2 (Xeros.next t).2 := by
  obtain ⟨⟨v, rfl⟩, hr⟩ := h
  unfold Xeros.next
  rw [set_irc_ready_queue]
  cases k.ready_queue with
  | none => exact ⟨rfl, ⟨v, rfl⟩, hr⟩
  | some i => exact ⟨rfl, ⟨v, rfl⟩, fun e => by rw [hr e]⟩

/-! ## Queues -/

theorem queue_remove (h : Twin p k t) (q : Queue) (pid : Word) :
    Option.Rel (fun a b => a.1 = b.1 ∧ Twin p a.2 b.2) (Xeros.queue_remove k q pid) (Xeros.queue_remove t q pid) := by
  have h' := h
  obtain ⟨⟨v, rfl⟩, -⟩ := h'
  unfold Xeros.queue_remove
  simp only [set_irc_links]
  refine rel_bind_same fun link _ => ?_
  cases k.links link with
  | none => exact .some ⟨rfl, h⟩
  | some j => exact .some ⟨rfl, h.assign link (k.next j)⟩

theorem queue_insert (h : Twin p k t) (q : Queue) (i : Idx) {st : PState} (hst : st ≠ .READY) :
    Option.Rel (Twin p) (Xeros.queue_insert k q i st) (Xeros.queue_insert t q i st) := by
  have h' := h
  obtain ⟨⟨v, rfl⟩, -⟩ := h'
  unfold Xeros.queue_insert
  simp only [set_irc_links]
  refine rel_bind_same fun link _ => .some ?_
  exact (h.assign link (some i)).setState i hst

theorem drain (h : Twin p k t) (q : Queue) (n : Nat) : Option.Rel (Twin p) (Xeros.drain q n k) (Xeros.drain q n t) := by
  induction n generalizing k t with
  | zero => exact .none
  | succ n ih =>
    have h' := h
    obtain ⟨⟨v, rfl⟩, -⟩ := h'
    unfold Xeros.drain
    rw [set_irc_links]
    cases k.links (.head q) with
    | none => exact .some h
    | some i => exact rel_bind ((h.assign (.head q) (k.next i)).wake i SYS_SR_NO_PID) fun a b hab => ih hab

/-! ## Messages -/

/-- A transfer writes the return values of both ends. -/
theorem transfer (h : Twin p k t) (src dest : Idx) :
    Twin p (send_receive_transfer k src dest) (send_receive_transfer t src dest) ∧
      (src = p ∨ dest = p → send_receive_transfer t src dest = send_receive_transfer k src dest) := by
  have h' := h
  obtain ⟨⟨v, rfl⟩, -⟩ := h'
  -- the copy, and then two return values
  obtain ⟨m, len, hm, ht⟩ : ∃ m len,
      send_receive_transfer k src dest = set_irc (set_irc { k with mem := m } dest len) src len ∧
      send_receive_transfer (set_irc k p v) src dest =
        set_irc (set_irc { set_irc k p v with mem := m } dest len) src len := ⟨_, _, rfl, rfl⟩
  have h1 : Twin p { k with mem := m } { set_irc k p v with mem := m } :=
    h.edit (g := fun k => { k with mem := m }) (fun _ _ => rfl) id
  rw [hm, ht]
  refine ⟨(h1.set dest len).set src len, ?_⟩
  rintro (rfl | rfl)
  · exact (h1.set dest len).set_self len
  · rw [h1.set_self]

/-- Both ends of a transfer become ready. -/
theorem meet (h : Twin p k t) (src dest i j : Idx) (hi : i = src ∨ i = dest) (hj : j = src ∨ j = dest)
    {g : Kernel → Kernel} (hg : ∀ k t, Twin p k t → Twin p (g k) (g t)) :
    Option.Rel (Twin p) ((Xeros.ready (g (send_receive_transfer k src dest)) i).bind fun k => Xeros.ready k j)
      ((Xeros.ready (g (send_receive_transfer t src dest)) i).bind fun k => Xeros.ready k j) := by
  obtain ⟨h1, heq⟩ := h.transfer src dest
  by_cases hp : src = p ∨ dest = p
  · rw [heq hp]
    exact rel_refl p _
  · obtain ⟨hs, hd⟩ := not_or.1 hp
    have hne {l : Idx} (hl : l = src ∨ l = dest) : l ≠ p := by
      rcases hl with rfl | rfl
      · exact hs
      · exact hd
    refine rel_bind ((hg _ _ h1).ready fun e => absurd e (hne hi)) fun a b hab => ?_
    exact hab.ready fun e => absurd e (hne hj)

theorem send (h : Twin p k t) (q : Idx) (dest_pid : Word) :
    Option.Rel (Twin p) (Xeros.send k q dest_pid) (Xeros.send t q dest_pid) := by
  have h' := h
  obtain ⟨⟨v, rfl⟩, -⟩ := h'
  unfold Xeros.send pidMapLookup
  refine rel_ite .rfl (fun _ => h.wake q SYS_SR_SELF) fun _ => ?_
  rw [set_irc_pidMap]
  cases lookup k.pidMap dest_pid with
  | none => exact h.wake q SYS_SR_NO_PID
  | some pcb_index =>
    refine rel_bind (h.queue_remove (.receivers q) dest_pid) ?_
    rintro ⟨r, k1⟩ ⟨r', t1⟩ ⟨rfl, h1⟩
    change Twin p k1 t1 at h1
    cases r with
    | some d => exact h1.meet q d q d (.inl rfl) (.inr rfl) (g := id) fun _ _ h => h
    | none =>
      refine rel_bind_same fun d _ => ?_
      have h1' := h1
      obtain ⟨⟨w, rfl⟩, -⟩ := h1'
      refine rel_ite .rfl (fun _ => ?_) fun _ => ?_
      · exact h1.meet q d q d (.inl rfl) (.inr rfl) (g := id) fun _ _ h => h
      · exact h1.queue_insert (.senders d) q (by simp)

theorem receive (h : Twin p k t) (q : Idx) (src_pid : Word) :
    Option.Rel (Twin p) (Xeros.receive k q src_pid) (Xeros.receive t q src_pid) := by
  have h' := h
  obtain ⟨⟨v, rfl⟩, -⟩ := h'
  unfold Xeros.receive pidMapLookup
  refine rel_ite .rfl (fun _ => h.wake q SYS_SR_SELF) fun _ => rel_ite .rfl (fun _ => ?_) fun _ => ?_
  · rw [set_irc_senders]
    cases k.senders q with
    | none => exact .some (h.setState q (by simp))
    | some s =>
      refine h.meet s q q s (.inr rfl) (.inl rfl) (g := fun k => k.assign (.head (.senders q)) (k.next s)) ?_
      intro k1 t1 h1
      have h1' := h1
      obtain ⟨⟨w, rfl⟩, -⟩ := h1'
      exact h1.assign (.head (.senders q)) (k1.next s)
  · rw [set_irc_pidMap, set_irc_heap]
    cases lookup k.pidMap (k.mem.load32 src_pid) with
    | none => exact h.wake q SYS_SR_NO_PID
    | some pcb_index =>
      refine rel_bind (h.queue_remove (.senders q) (k.mem.load32 src_pid)) ?_
      rintro ⟨r, k1⟩ ⟨r', t1⟩ ⟨rfl, h1⟩
      change Twin p k1 t1 at h1
      cases r with
      | some s => exact h1.meet s q q s (.inr rfl) (.inl rfl) (g := id) fun _ _ h => h
      | none =>
        refine rel_bind_same fun d _ => ?_
        exact h1.queue_insert (.receivers d) q (by simp)

/-! ## Sleeping -/

theorem sleep_walk_set_irc (k : Kernel) (p : Idx) (v : Word) (n : Nat) (δ : Word) (l : PcbLink) :
    sleep_walk (set_irc k p v) n δ l = sleep_walk k n δ l := by
  induction n generalizing δ l with
  | zero => rfl
  | succ n ih =>
    unfold sleep_walk
    rw [set_irc_links]
    cases k.links l with
    | none => rfl
    | some i =>
      change (if k.delta i ≤ δ then _ else _) = _
      rw [ih]
      rfl

/-- Only a `sleep` of no time returns without writing a return value. -/
theorem sleep (h : Twin p k t) (q : Idx) (ms : Word) (hz : q = p → sleep_ticks ms ≠ 0) :
    Option.Rel (Twin p) (Xeros.sleep k q ms) (Xeros.sleep t q ms) := by
  have h' := h
  obtain ⟨⟨v, rfl⟩, -⟩ := h'
  unfold Xeros.sleep
  refine rel_ite .rfl (fun _ => ?_) fun h0 => h.ready fun e => absurd (hz e) h0
  rw [sleep_walk_set_irc]
  refine rel_bind_same fun ⟨δ, link⟩ _ => .some ?_
  have h1 : Twin p
      { k with next := Function.update k.next q (k.links link), delta := Function.update k.delta q δ }
      { set_irc k p v with next := Function.update k.next q (k.links link), delta := Function.update k.delta q δ } :=
    h.edit (g := fun k => { k with
      next := Function.update k.next q (k.links link), delta := Function.update k.delta q δ }) (fun _ _ => rfl) id
  have hs : PState.SLEEPING ≠ .READY := by simp
  simp only [Function.update_self, set_irc_links]
  cases hl : k.links link with
  | none =>
    rw [hl] at h1
    exact (h1.assign link (some q)).setState q hs
  | some i =>
    -- the sleeper behind the new one
    rw [hl] at h1
    have h2 := h1.edit (g := fun k => { k with delta := Function.update k.delta i (k.delta i - δ) }) (fun _ _ => rfl) id
    exact (h2.assign link (some q)).setState q hs

theorem tick_loop (h : Twin p k t) (nullDelta : Word) (n : Nat) :
    Option.Rel (Twin p) (Xeros.tick_loop nullDelta n k) (Xeros.tick_loop nullDelta n t) := by
  induction n generalizing k t with
  | zero => exact .none
  | succ n ih =>
    have h' := h
    obtain ⟨⟨v, rfl⟩, -⟩ := h'
    unfold Xeros.tick_loop
    rw [set_irc_sleep_list]
    cases k.sleep_list with
    | none => exact rel_ite .rfl (fun _ => .none) fun _ => .some h
    | some i =>
      refine rel_ite .rfl (fun _ => ?_) fun _ => .some h
      refine rel_bind (((h.set i 0).assign (.head .sleepers) (k.next i)).ready ?_) fun a b hab => ih hab
      rintro rfl
      rw [h.set_self]

theorem tick (h : Twin p k t) (nullDelta : Word) :
    Option.Rel (Twin p) (Xeros.tick nullDelta k) (Xeros.tick nullDelta t) := by
  have hs : t.sleep_list = k.sleep_list := h.same (·.sleep_list) fun _ => rfl
  cases hk : k.sleep_list with
  | none =>
    rw [tick_none hk, tick_none (hs.trans hk)]
    exact .some h
  | some i =>
    rw [tick_some hk, tick_some (hs.trans hk)]
    have h1 := h.edit (g := fun k => { k with delta := Function.update k.delta i (k.delta i - 1) }) (fun _ _ => rfl) id
    exact h1.tick_loop nullDelta TICK_FUEL

/-! ## Signals -/

/-- `ready` of a process whose return value is written afterwards. -/
theorem ready_set (h : Twin p k t) (i : Idx) (w : Word) :
    Option.Rel (Twin p) ((Xeros.ready k i).map fun k' => set_irc k' i w)
      ((Xeros.ready t i).map fun k' => set_irc k' i w) := by
  by_cases hi : i = p
  · subst hi
    obtain ⟨⟨v, rfl⟩, -⟩ := h
    rw [ready_set_irc, Option.map_map]
    have hsame : ((fun k' => set_irc k' i w) ∘ fun k' => set_irc k' i v) = fun k' => set_irc k' i w := by
      funext k'
      exact set_irc_idem k' i v w
    rw [hsame]
    exact rel_refl i _
  · rw [Option.map_eq_bind, Option.map_eq_bind]
    exact rel_bind (h.ready fun e => absurd e hi) fun a b hab => .some (hab.set i w)

theorem signal (h : Twin p k t) (pid sig_no : Word) :
    Option.Rel (fun a b => a.2 = b.2 ∧ Twin p a.1 b.1) (Xeros.signal k pid sig_no) (Xeros.signal t pid sig_no) := by
  have h' := h
  obtain ⟨⟨v, rfl⟩, -⟩ := h'
  unfold Xeros.signal pidMapLookup
  refine rel_ite .rfl (fun _ => .some ⟨rfl, h⟩) fun _ => ?_
  rw [set_irc_pidMap]
  cases lookup k.pidMap pid with
  | none => exact .some ⟨rfl, h⟩
  | some pcb_index =>
    refine rel_bind_same fun q _ => rel_ite .rfl (fun _ => ?_) fun _ => .some ⟨rfl, h⟩
    have h1 := h.edit (g := fun k => { k with
      pending_sig := Function.update k.pending_sig q (k.pending_sig q ||| SIG_INT sig_no.toNat) }) (fun _ _ => rfl) id
    have hwoken {k t : Kernel} (h : Twin p k t) (w : Word) : Option.Rel (fun a b => a.2 = b.2 ∧ Twin p a.1 b.1)
        ((Xeros.ready k q).bind fun k' => some (set_irc k' q w, (0 : Int)))
        ((Xeros.ready t q).bind fun k' => some (set_irc k' q w, (0 : Int))) := by
      have hrel := h.ready_set q w
      cases hk : Xeros.ready k q <;> cases ht : Xeros.ready t q <;> rw [hk, ht] at hrel <;> cases hrel
      · exact .none
      · next hab => exact .some ⟨rfl, hab⟩
    refine rel_ite .rfl (fun _ => .none) fun _ => rel_ite .rfl (fun _ => hwoken h1 (-129)) fun _ => ?_
    exact rel_ite .rfl (fun _ => hwoken h1 sig_no) fun _ => .some ⟨rfl, h1⟩

/-- Every path of the call writes the return value. -/
theorem register_sig_handler (h : Twin p k t) (im : Image) (q : Idx) (sig new old : Word) :
    Twin p (Xeros.register_sig_handler im k q sig new old) (Xeros.register_sig_handler im t q sig new old) ∧
      (q = p → Xeros.register_sig_handler im t q sig new old = Xeros.register_sig_handler im k q sig new old) := by
  have hwrite {k1 t1 : Kernel} (h1 : Twin p k1 t1) (w : Word) :
      Twin p (set_irc k1 q w) (set_irc t1 q w) ∧ (q = p → set_irc t1 q w = set_irc k1 q w) := by
    refine ⟨h1.set q w, ?_⟩
    rintro rfl
    exact h1.set_self w
  by_cases hex : ∃ i : Fin NUM_SIGNAL, sig.toInt = i
  · obtain ⟨i, hi⟩ := hex
    have h' := h
    obtain ⟨⟨v, rfl⟩, -⟩ := h'
    rw [register_signal hi, register_signal hi]
    split
    · exact hwrite (h.edit (g := fun k => { k with mem := writeOld k q i old }) (fun _ _ => rfl) id) (-2)
    · exact hwrite (h.edit (g := fun k => { k with
        mem := writeOld k q i old
        sig_handler := Function.update k.sig_handler q (Function.update (k.sig_handler q) i new)
        allowed_sig := Function.update k.allowed_sig q
          (if new = 0 then k.allowed_sig q &&& ~~~SIG_INT i else k.allowed_sig q ||| SIG_INT i) })
        (fun _ _ => rfl) id) 0
  · rw [register_no_signal (not_exists.1 hex), register_no_signal (not_exists.1 hex)]
    exact hwrite h (-1)

end Twin

end Xeros
