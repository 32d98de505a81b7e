import Xeros.Procs.Frames
/-!
# Functions that move processes

Most of the kernel only moves processes between lists: it changes links,
states, return values, deltas and memory. `Moves` says so in one equation,
which gives back every field it does not name.
-/

namespace Xeros

open Kernel

/-- Nothing but links, states, return values, deltas and memory changes. -/
def Moves (k k' : Kernel) : Prop :=
  k' = { k with
    mem := k'.mem
    state := k'.state
    irc := k'.irc
    delta := k'.delta
    next := k'.next
    senders := k'.senders
    receivers := k'.receivers
    ready_queue := k'.ready_queue
    sleep_list := k'.sleep_list }

namespace Moves
variable {k k1 k' : Kernel} {p : Idx}

theorem trans (h : Moves k k1) (h' : Moves k1 k') : Moves k k' := by
  unfold Moves at h h' ⊢
  rw [h', h]

theorem assign (k : Kernel) (l : PcbLink) (v : Option Idx) : Moves k (k.assign l v) := by
  rcases l with (_ | _ | _ | _) | _ <;> rfl

theorem ready (h : Xeros.ready k p = some k') : Moves k k' := by
  unfold Moves
  rw [ready_eq h]

theorem next (k : Kernel) : Moves k (Xeros.next k).2 := by
  unfold Moves
  rw [next_eq]

theorem select {r : Option Idx} (h : Xeros.select k = some (k', r)) : Moves k k' := by
  rcases select_cases h with rfl | rfl | ⟨i, hr⟩
  · exact next k
  · exact trans (next k) (next _)
  · exact trans (trans (next k) (next _)) (ready hr)

theorem queue_remove {q : Queue} {pid : Word} {r : Option Idx} (h : Xeros.queue_remove k q pid = some (r, k')) :
    Moves k k' := by
  obtain ⟨link, -, h⟩ := Option.bind_eq_some_iff.1 h
  split at h
  · cases h
    rfl
  · cases h
    exact assign ..

theorem queue_insert {q : Queue} {st : PState} (h : Xeros.queue_insert k q p st = some k') : Moves k k' := by
  obtain ⟨link, -, h⟩ := Option.bind_eq_some_iff.1 h
  cases h
  exact trans (assign k link (some p)) rfl

theorem drain {q : Queue} {n : Nat} (h : Xeros.drain q n k = some k') : Moves k k' := by
  induction n generalizing k with
  | zero => cases h
  | succ n ih =>
    unfold Xeros.drain at h
    split at h
    · cases h
      rfl
    · next i _ =>
      obtain ⟨k2, hr, h⟩ := Option.bind_eq_some_iff.1 h
      have h1 : Moves k { k.assign (.head q) (k.next i) with
          irc := Function.update (k.assign (.head q) (k.next i)).irc i SYS_SR_NO_PID } :=
        trans (assign k (.head q) (k.next i)) rfl
      exact trans h1 (trans (ready hr) (ih h))

theorem tick_loop {nullDelta : Word} {n : Nat} (h : Xeros.tick_loop nullDelta n k = some k') : Moves k k' := by
  induction n generalizing k with
  | zero => cases h
  | succ n ih =>
    unfold Xeros.tick_loop at h
    split at h
    · split at h
      · cases h
      · cases h
        rfl
    · split at h
      · obtain ⟨k2, hr, h⟩ := Option.bind_eq_some_iff.1 h
        refine trans ?_ (trans (ready hr) (ih h))
        rfl
      · cases h
        rfl

theorem tick {nullDelta : Word} (h : Xeros.tick nullDelta k = some k') : Moves k k' := by
  unfold Xeros.tick at h
  split at h
  · cases h
    rfl
  · refine trans ?_ (tick_loop h)
    rfl

theorem sleep {ms : Word} (h : Xeros.sleep k p ms = some k') : Moves k k' := by
  unfold Xeros.sleep at h
  simp only [] at h
  split at h
  · obtain ⟨⟨δ, link⟩, -, h⟩ := Option.bind_eq_some_iff.1 h
    cases h
    refine trans (trans ?_ (assign _ link (some p))) rfl
    split <;> rfl
  · exact ready h

theorem transfer (k : Kernel) (src dest : Idx) : Moves k (send_receive_transfer k src dest) := rfl

theorem ready_both {a b : Idx} (h : (do let k ← Xeros.ready k a; Xeros.ready k b) = some k') : Moves k k' := by
  obtain ⟨k1, h1, h2⟩ := Option.bind_eq_some_iff.1 h
  exact trans (ready h1) (ready h2)

theorem send {pid : Word} (h : Xeros.send k p pid = some k') : Moves k k' := by
  rcases send_steps h with ⟨rc, h⟩ | ⟨r, k1, h1, ⟨d, h⟩ | ⟨d, h⟩⟩
  · refine trans ?_ (ready h)
    rfl
  · exact trans (queue_remove h1) (trans (transfer ..) (ready_both h))
  · exact trans (queue_remove h1) (queue_insert h)

theorem receive {a : Word} (h : Xeros.receive k p a = some k') : Moves k k' := by
  rcases receive_steps h with ⟨rc, h⟩ | ⟨d, h⟩ | rfl | ⟨r, k1, h1, ⟨d, h⟩ | ⟨d, h⟩⟩
  · refine trans ?_ (ready h)
    rfl
  · refine trans ?_ (ready_both h)
    rfl
  · rfl
  · exact trans (queue_remove h1) (trans (transfer ..) (ready_both h))
  · exact trans (queue_remove h1) (queue_insert h)

end Moves

end Xeros
