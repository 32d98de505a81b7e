import Xeros.Model.Msg
import Xeros.Model.Sleep
import Xeros.Model.DiCalls
import Xeros.Model.Create
/-!
# `disp.c`, `ctsw.c` and `initproc`

The dispatcher. A `Sys` is the machine while the process `cur` runs in user
mode; `step` takes it to the next such moment: user code writes memory, a
keyboard interrupt comes and goes, or the process enters the kernel, which
handles the request, selects the next process and switches to it.
-/

namespace Xeros

/-- `request_type`. -/
inductive Request where
  | TIME_INT | CREATE | YIELD | STOP | GET_PID | GET_P_PID | PUTS | SEND | RECV | SYS_TIMER | SLEEP | SIGHANDLER
  | SIGRETURN | KILL | SIGWAIT | OPEN | CLOSE | WRITE | READ | IO_CTL
  deriving DecidableEq

/-- The constants of the enumeration, in order. -/
def Request.all : List Request :=
  [.TIME_INT, .CREATE, .YIELD, .STOP, .GET_PID, .GET_P_PID, .PUTS, .SEND, .RECV, .SYS_TIMER, .SLEEP, .SIGHANDLER,
    .SIGRETURN, .KILL, .SIGWAIT, .OPEN, .CLOSE, .WRITE, .READ, .IO_CTL]

/-! ## Init and cleanup -/

def init_pcb_table (k : Kernel) : Kernel :=
  { k with
    pid := fun _ => 0
    state := fun _ => .STOPPED
    next := fun _ => none
    senders := fun _ => none
    receivers := fun _ => none
    irc := fun _ => 0
    iargs := fun _ => 0
    delta := fun _ => 0
    pending_sig := fun _ => 0
    allowed_sig := fun _ => 0
    nextPid := 1
    ready_queue := none
    idle := none
    pidMap := .null }

/-- A process is drained at most once, and each turn takes one off the queue. -/
def DRAIN_FUEL : Nat := 2 * MAX_NUM_PROCESS + 2

/-- Readies every process of a queue with `SYS_SR_NO_PID`: the two loops of
`cleanup`. -/
def drain (q : Queue) : Nat → Kernel → Option Kernel
  | 0, _ => none
  | fuel + 1, k =>
    match k.links (.head q) with
    | none => some k
    | some i => do
      let k := k.assign (.head q) (k.next i)
      let k := { k with irc := Function.update k.irc i SYS_SR_NO_PID }
      let k ← ready k i
      drain q fuel k

/-- Closes every opened device. -/
def close_all (devtab : Device → Devsw) (k : Kernel) (p : Idx) : Kernel :=
  (List.finRange NUM_FD).foldl
    (fun k fd => if (k.opened_dv p fd).isSome then (di_close devtab k p (BitVec.ofNat 32 fd)).2 else k) k

def cleanup (devtab : Device → Devsw) (k : Kernel) (p : Idx) : Option Kernel := do
  -- unblock all blocked trying to send to / receive from this process
  let k ← drain (.senders p) DRAIN_FUEL k
  let k ← drain (.receivers p) DRAIN_FUEL k
  let k := close_all devtab k p
  let h ← kfree k.toHeap (k.stack p)
  let k := { k with
    toHeap := h
    next := Function.update k.next p none
    stack := Function.update k.stack p 0
    state := Function.update k.state p .STOPPED }
  pidMapDelete k (k.pid p)

/-! ## Requests -/

/-- What a request leaves to the end of the loop: the kernel, and `to_ready`. -/
abbrev Handled := Option (Kernel × Option Idx)

/-- The `switch` of `dispatch`. TIME_INT does not get here. -/
def handle_request (im : Image) (k : Kernel) (p : Idx) : Request → Handled
  | .TIME_INT => some (k, none)
  | .CREATE => do
    let (pid, k) ← create im k (k.arg p 0) (k.arg p 1) (k.pid p)
    some (set_irc k p pid, some p)
  | .YIELD => some (k, some p)
  | .STOP => do
    let k ← cleanup keyboards k p
    some (k, none)
  | .GET_PID => some (set_irc k p (k.pid p), some p)
  | .GET_P_PID => some (set_irc k p (k.parentPid p), some p)
  | .PUTS => some (k, some p)
  | .SEND => do
    let k ← send k p (k.arg p 0)
    some (k, none)
  | .RECV => do
    let k ← receive k p (k.arg p 0)
    some (k, none)
  | .SYS_TIMER => do
    let k ← tick im.nullDelta k
    some (k, some p)
  | .SLEEP => do
    let k ← sleep k p (k.arg p 0)
    some (k, none)
  | .SIGHANDLER => some (register_sig_handler im k p (k.arg p 0) (k.arg p 1) (k.arg p 2), some p)
  | .SIGRETURN => some (sigreturn k p (k.arg p 0), some p)
  | .KILL => do
    let (k, rc) ← signal k (k.arg p 0) (k.arg p 1)
    some (set_irc k p (if rc = -1 then -33 else if rc = -2 then -12 else 0), some p)
  | .SIGWAIT => some ({ k with state := Function.update k.state p .WAITING }, none)
  | .OPEN => some ((di_open keyboards k p (k.arg p 0)).2, some p)
  | .CLOSE => some ((di_close keyboards k p (k.arg p 0)).2, some p)
  | .WRITE => do
    let (rc, k) ← di_write keyboards k p (k.arg p 0) (k.arg p 1) (k.arg p 2)
    if rc = DRV_BLOCK then some ({ k with state := Function.update k.state p .WRITING }, none) else some (k, some p)
  | .READ => do
    let (rc, k) ← di_read keyboards k p (k.arg p 0) (k.arg p 1) (k.arg p 2)
    if rc = DRV_BLOCK then some ({ k with state := Function.update k.state p .READING }, none) else some (k, some p)
  | .IO_CTL => some ((di_ioctl keyboards k p (k.arg p 0) (k.arg p 1) (k.arg p 2)).2, some p)

/-! ## Context switches -/

/-- `contextswitch` up to `iret`: the return value goes into the `eax` the
process is resumed with. -/
def switch_to (k : Kernel) (p : Idx) : Kernel := { k with mem := setFrame k.mem (k.esp p) .eax (k.irc p) }

/-- The rest of `contextswitch` after a system call trap: `request` and `iargs`
are words of the context `esp` points to. -/
def syscall_entry (k : Kernel) (p : Idx) (esp : Word) : Kernel × Word :=
  ({ k with
      esp := Function.update k.esp p esp
      iargs := Function.update k.iargs p (k.mem.load32 (esp + SIZEOF_CONTEXTFRAME + 4)) },
    k.mem.load32 (esp + SIZEOF_CONTEXTFRAME))

/-- The rest of `contextswitch` after a timer interrupt: the `eax` of the
process is kept as its return value. -/
def timer_entry (k : Kernel) (p : Idx) (esp eax : Word) : Kernel :=
  { k with esp := Function.update k.esp p esp, irc := Function.update k.irc p eax }

/-- `p = next()`, and the idle process again only when no other is ready. -/
def select (k : Kernel) : Option (Kernel × Option Idx) :=
  match next k with
  | (p, k) =>
    if k.idle ≠ none ∧ p = k.idle then
      match next k with
      | (none, k) => some (k, k.idle)
      | (some q, k) => do
        let i ← k.idle
        let k ← ready k i
        some (k, some q)
    else some (k, p)

/-- The head of the loop body: deliver a signal, mark `p` running, switch. -/
def resume (im : Image) (k : Kernel) (p : Idx) : Kernel :=
  let k := deliver_signal im k p
  switch_to { k with state := Function.update k.state p .RUNNING } p

/-! ## The machine -/

/-- The machine in user mode; `cur` is none when `dispatch` has returned. -/
structure Sys where
  kernel : Kernel
  cur : Option Idx

inductive Event where
  /-- The running process changes memory. -/
  | user (f : Mem → Mem)
  /-- A keyboard interrupt with scan codes waiting in the controller. -/
  | keyboard (codes : List Byte)
  /-- The running process traps with its context at `esp`. -/
  | syscall (esp : Word)
  /-- The timer preempts the running process. -/
  | timer (esp eax : Word)

/-- The loop from the end of `switch` to the next `iret`. -/
def dispatch_next (im : Image) (k : Kernel) (to_ready : Option Idx) : Option Sys := do
  let k ← match to_ready with
    | some p => ready k p
    | none => some k
  let (k, p) ← select k
  match p with
  | none => some ⟨k, none⟩
  | some p => some ⟨resume im k p, some p⟩

/-- One turn of the dispatcher for a request of `p`. A number that is no
request leaves `p` behind. -/
def dispatch_request (im : Image) (k : Kernel) (p : Idx) (r : Option Request) : Option Sys :=
  match r with
  | some .TIME_INT => some ⟨switch_to k p, some p⟩
  | some r => do
    let (k, to_ready) ← handle_request im k p r
    dispatch_next im k to_ready
  | none => dispatch_next im k none

def step (im : Image) (e : Event) (s : Sys) : Option Sys := do
  let p ← s.cur
  match e with
  | .user f => some { s with kernel := { s.kernel with mem := f s.kernel.mem } }
  | .keyboard codes => do
    let (k, _) ← keyboard_lower s.kernel codes
    some { s with kernel := k }
  | .syscall esp =>
    let (k, n) := syscall_entry s.kernel p esp
    dispatch_request im k p (Request.all[n.toNat]?)
  | .timer esp eax => dispatch_request im (timer_entry s.kernel p esp eax) p (some .SYS_TIMER)

/-! ## Boot -/

/-- The kernel's statics before `initproc`, over memory `m`. -/
def statics (m : Mem) : Kernel :=
  { mem := m, freeList := 0
    pid := fun _ => 0, parentPid := fun _ => 0, state := fun _ => .STOPPED
    next := fun _ => none, senders := fun _ => none, receivers := fun _ => none
    esp := fun _ => 0, stack := fun _ => 0, irc := fun _ => 0, iargs := fun _ => 0, delta := fun _ => 0
    sig_handler := fun _ _ => 0, pending_sig := fun _ => 0, allowed_sig := fun _ => 0, hi_sig := fun _ => 0
    opened_dv := fun _ _ => none
    idle := none, ready_queue := none, sleep_list := none, pidMap := .null, nextPid := 0
    kbd := {
      kb_buf := fun _ => 0, head := 0, size := 0, state := 0
      ps := { pcb := none, buf := 0, buf_len := 0, ch_read := 0, eof := 0, echo := 0, status := 0 } } }

/-- `kmeminit` and `init_pcb_table`. -/
def init (im : Image) (m : Mem) : Kernel :=
  let k := statics m
  init_pcb_table { k with toHeap := kmeminit im.freemem k.toHeap }

/-- `initproc` up to the first `iret`; `root` and `idleproc` are the addresses
of the first two processes. A failed assertion loops forever. -/
def boot (im : Image) (m : Mem) (root idleproc : Word) : Option Sys := do
  let k := init im m
  let (_, k) ← create im k root 0x2000 0
  let (pid, k) ← create im k idleproc 0x2000 0
  let pcb_index ← pidMapLookup k pid
  let idle ← pcbAt pcb_index
  let k := { k with idle := some idle }
  if k.state idle = .READY then
    match next k with
    | (none, k) => some ⟨k, none⟩
    | (some p, k) => some ⟨resume im k p, some p⟩
  else none

end Xeros
