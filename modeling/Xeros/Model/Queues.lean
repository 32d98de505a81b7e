import Xeros.Model.Kernel
/-!
# The queues of `disp.c`, `msg.c` and `sleep.c`

Every list of processes is walked through a `pcb **`, here a `PcbLink`. A list
holds each PCB at most once, so a walk that takes more than `QUEUE_FUEL` turns
runs in a circle and never ends.
-/

namespace Xeros

open Links (walk)

def QUEUE_FUEL : Nat := MAX_NUM_PROCESS + 1

/-- Returns a PCB pointer. -/
def next (k : Kernel) : Option Idx × Kernel :=
  match k.ready_queue with
  | none => (none, k)
  | some p => (some p, { k with ready_queue := k.next p, next := Function.update k.next p none })

/-- Appends `p` to the ready queue. -/
def ready (k : Kernel) (p : Idx) : Option Kernel := do
  let stop ← walk k.links (fun _ => false) QUEUE_FUEL (.head .ready)
  let k := k.assign stop (some p)
  some { k with next := Function.update k.next p none, state := Function.update k.state p .READY }

/-- Takes the first process with the given pid out of a queue. -/
def queue_remove (k : Kernel) (q : Queue) (pid : Word) : Option (Option Idx × Kernel) := do
  let link ← walk k.links (fun i => k.pid i == pid) QUEUE_FUEL (.head q)
  match k.links link with
  | none => some (none, k)
  | some p => some (some p, k.assign link (k.next p))

/-- Appends `p` to a queue and blocks it in state `st`. -/
def queue_insert (k : Kernel) (q : Queue) (p : Idx) (st : PState) : Option Kernel := do
  let stop ← walk k.links (fun _ => false) QUEUE_FUEL (.head q)
  let k := k.assign stop (some p)
  some { k with state := Function.update k.state p st }

/-- Removes destination process from `p`'s receiver queue. -/
def recv_queue_remove (k : Kernel) (p : Idx) (dest_pid : Word) : Option (Option Idx × Kernel) :=
  queue_remove k (.receivers p) dest_pid

/-- Removes source process from `p`'s sender queue. -/
def send_queue_remove (k : Kernel) (p : Idx) (src_pid : Word) : Option (Option Idx × Kernel) :=
  queue_remove k (.senders p) src_pid

/-- Appends receiver to `p`'s receiver queue. -/
def recv_queue_insert (k : Kernel) (p receiver : Idx) : Option Kernel :=
  queue_insert k (.receivers p) receiver .RECEIVING

/-- Appends sender to `p`'s sender queue. -/
def send_queue_insert (k : Kernel) (p sender : Idx) : Option Kernel :=
  queue_insert k (.senders p) sender .SENDING

end Xeros
