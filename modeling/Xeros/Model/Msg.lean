import Xeros.Model.Queues
import Xeros.Model.PidMap
/-!
# `msg.c`

`send` and `receive` read their arguments from the caller's stack through
`iargs`, and those of a blocked partner through the partner's.
-/

namespace Xeros

/-- Copies from the sender's buffer to the receiver's, sets both return values
to the bytes transferred and the receiver's from-pid cell to the sender's pid. -/
def send_receive_transfer (k : Kernel) (src_p dest_p : Idx) : Kernel :=
  let src_pid := k.arg dest_p 0
  let src_buf := k.arg src_p 1
  let dest_buf := k.arg dest_p 1
  -- the least of the two supplied lengths
  let len := if (k.arg src_p 2).toInt < (k.arg dest_p 2).toInt then k.arg src_p 2 else k.arg dest_p 2
  let mem := if len ≠ 0 then k.mem.copy src_buf dest_buf len.toNat else k.mem
  let mem := mem.store32 src_pid (k.pid src_p)
  { k with mem := mem, irc := Function.update (Function.update k.irc dest_p len) src_p len }

/-- Sends a message to another process. -/
def send (k : Kernel) (p : Idx) (dest_pid : Word) : Option Kernel :=
  if k.pid p = dest_pid then
    ready { k with irc := Function.update k.irc p SYS_SR_SELF } p
  else
    match pidMapLookup k dest_pid with
    | none => ready { k with irc := Function.update k.irc p SYS_SR_NO_PID } p
    | some dest_pcb_index => do
      -- look for specified process in receiver queue
      let (dest_p, k) ← recv_queue_remove k p dest_pid
      match dest_p with
      | some dest_p =>
        let k := send_receive_transfer k p dest_p
        let k ← ready k p
        ready k dest_p
      | none =>
        -- destination process not in queue, check if it's blocked recv from any
        let dest_p ← pcbAt dest_pcb_index
        if k.state dest_p = .RECEIVING ∧ k.mem.load32 (k.arg dest_p 0) = 0 then
          let k := send_receive_transfer k p dest_p
          let k ← ready k p
          ready k dest_p
        else
          send_queue_insert k dest_p p

/-- Receives a message from another process; `src_pid` is the address of the
caller's from-pid cell. -/
def receive (k : Kernel) (p : Idx) (src_pid : Word) : Option Kernel :=
  let src := k.mem.load32 src_pid
  if k.pid p = src then
    ready { k with irc := Function.update k.irc p SYS_SR_SELF } p
  else if src = 0 then
    -- accept first sender in queue
    match k.senders p with
    | some src_p => do
      let k := send_receive_transfer k src_p p
      let k := { k with senders := Function.update k.senders p (k.next src_p) }
      let k ← ready k p
      ready k src_p
    | none => some { k with state := Function.update k.state p .RECEIVING }
  else
    match pidMapLookup k src with
    | none => ready { k with irc := Function.update k.irc p SYS_SR_NO_PID } p
    | some src_pcb_index => do
      -- look for specific process in sender queue
      let (src_p, k) ← send_queue_remove k p src
      match src_p with
      | some src_p =>
        let k := send_receive_transfer k src_p p
        let k ← ready k p
        ready k src_p
      | none =>
        let src_p ← pcbAt src_pcb_index
        recv_queue_insert k src_p p

end Xeros
