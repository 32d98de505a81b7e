import Xeros.Lib.Memory
import Xeros.Lib.Links
/-!
# The kernel's data

`xeroskernel.h`, `kbd.h` and the statics of `c/*.c`. A `pcb *` is an index
into `pcbTable` (`Idx`), and `p->irc` is `k.irc p`: the table is kept one
function per field. Free-list headers live in the byte memory `mem`, like
everything a process can write; the kernel's own statics do not.

`abort()` and a loop that never ends have no next state, so a function that
can get there returns an `Option`.
-/

namespace Xeros

abbrev Word := BitVec 32
abbrev Byte := BitVec 8

/-! ## Constants -/

abbrev MAX_NUM_PROCESS : Nat := 256
abbrev NUM_SIGNAL : Nat := 32
abbrev NUM_FD : Nat := 4
abbrev NUM_DEVICE : Nat := 2
abbrev KEYBOARD_BUF_LEN : Nat := 4

instance : NeZero MAX_NUM_PROCESS := ⟨Nat.succ_ne_zero _⟩
instance : NeZero NUM_SIGNAL := ⟨Nat.succ_ne_zero _⟩
instance : NeZero KEYBOARD_BUF_LEN := ⟨Nat.succ_ne_zero _⟩
instance : NeZero NUM_DEVICE := ⟨Nat.succ_ne_zero _⟩

def HOLESTART : Word := 640 * 1024
def HOLEEND : Word := (1024 + 600) * 1024
def FREEMEM_END : Word := 0x400000
def SAFETY_MARGIN : Word := 0x40
def SIZEOF_MEMHEADER : Word := 16
def SIZEOF_TREENODE : Word := 20
def SIZEOF_CONTEXTFRAME : Word := 44
def SIZEOF_SIGNAL_FRAME : Word := 68
def TIME_SLICE_MS : Word := 10

def SYSERR : Word := -1
def SYS_SR_NO_PID : Word := -1
def SYS_SR_SELF : Word := -2

def DRV_DONE : Int := 0
def DRV_BLOCK : Int := 1
def DRV_ERROR : Int := -1

def EOF_REACHED : Word := 1
def EOF_IN_BUF : Word := 2
def DEFAULT_EOF : Int := 4

/-- `((x/16) + (x%16?1:0)) * 16` in signed arithmetic. -/
def align16 (x : Word) : Word := (x.sdiv 16 + if x.srem 16 ≠ 0 then 1 else 0) * 16

/-! ## Types -/

/-- A `pcb *` into `pcbTable`. -/
abbrev Idx := Fin MAX_NUM_PROCESS

/-- A `devsw *` into `devtab`. -/
abbrev Device := Fin NUM_DEVICE

/-- `enum { STOPPED = 0, RUNNING, ... } state`. -/
inductive PState where
  | STOPPED | RUNNING | READY | SENDING | RECEIVING | SLEEPING | READING | WRITING | WAITING
  deriving DecidableEq

/-- The number C gives the constant. -/
def PState.code : PState → Nat
  | .STOPPED => 0
  | .RUNNING => 1
  | .READY => 2
  | .SENDING => 3
  | .RECEIVING => 4
  | .SLEEPING => 5
  | .READING => 6
  | .WRITING => 7
  | .WAITING => 8

/-- The tree a `treeNode *` leads to; a node has the address `kmalloc` gave it.
It is what memory holds as long as nobody writes over a node. -/
inductive TreeNode where
  | null
  | node (addr pid pcbIndex height : Word) (left right : TreeNode)
  deriving DecidableEq

/-- What `mem.c` works on: memory and the static `freeList`. -/
structure Heap where
  mem : Mem
  freeList : Word

/-- `proc_state`. -/
structure ProcState where
  pcb : Option Idx
  buf : Word
  buf_len : Int
  ch_read : Int
  eof : Int
  echo : Word
  status : Word

/-- The statics of `kbd.c`. -/
structure Kbd where
  kb_buf : Fin KEYBOARD_BUF_LEN → Byte
  head : Nat
  size : Nat
  ps : ProcState
  state : Word

structure Kernel extends Heap where
  pid : Idx → Word
  parentPid : Idx → Word
  state : Idx → PState
  next : Idx → Option Idx
  senders : Idx → Option Idx
  receivers : Idx → Option Idx
  esp : Idx → Word
  stack : Idx → Word
  irc : Idx → Word
  iargs : Idx → Word
  delta : Idx → Word
  sig_handler : Idx → Fin NUM_SIGNAL → Word
  pending_sig : Idx → Word
  allowed_sig : Idx → Word
  hi_sig : Idx → Word
  opened_dv : Idx → Fin NUM_FD → Option Device
  idle : Option Idx
  ready_queue : Option Idx
  sleep_list : Option Idx
  pidMap : TreeNode
  nextPid : Word
  kbd : Kbd

/-- What the linker and the machine fix: the first free address, the addresses
of three functions, the code segment `getCS` returns, and the word a read of
`NULL->delta` finds. -/
structure Image where
  freemem : Word
  sigtramp : Word
  fake_return : Word
  sysstop : Word
  cs : Word
  nullDelta : Word

/-- `pcbTable + i`; outside the table it points at no PCB. -/
def pcbAt (i : Word) : Option Idx := if h : i.toNat < MAX_NUM_PROCESS then some ⟨i.toNat, h⟩ else none

/-- The address of a PCB as the number `create` stores in the pid map. -/
def pcbIndex (i : Idx) : Word := BitVec.ofNat 32 i

theorem pcbIndex_toNat (i : Idx) : (pcbIndex i).toNat = i := by
  have h : (i : Nat) < 256 := i.isLt
  simp only [pcbIndex, BitVec.toNat_ofNat]
  omega

@[simp] theorem pcbAt_pcbIndex (i : Idx) : pcbAt (pcbIndex i) = some i := by
  have h : (i : Nat) < MAX_NUM_PROCESS := i.isLt
  simp only [pcbAt, pcbIndex_toNat, dif_pos h, Fin.eta]

theorem pcbIndex_inj {i j : Idx} (h : pcbIndex i = pcbIndex j) : i = j := by
  have e := congrArg pcbAt h
  simpa using e

/-! ## Links -/

/-- The heads of the lists that run through `pcb.next`. -/
inductive Queue where
  | ready
  | sleepers
  | senders (p : Idx)
  | receivers (p : Idx)
  deriving DecidableEq

/-- A `pcb **`. -/
abbrev PcbLink := Links.Link Queue Idx

namespace Kernel

/-- `*link`. -/
def links (k : Kernel) : Links.Store Queue Idx
  | .head .ready => k.ready_queue
  | .head .sleepers => k.sleep_list
  | .head (.senders p) => k.senders p
  | .head (.receivers p) => k.receivers p
  | .next p => k.next p

/-- `*link = v`. -/
def assign (k : Kernel) (l : PcbLink) (v : Option Idx) : Kernel :=
  match l with
  | .head .ready => { k with ready_queue := v }
  | .head .sleepers => { k with sleep_list := v }
  | .head (.senders p) => { k with senders := Function.update k.senders p v }
  | .head (.receivers p) => { k with receivers := Function.update k.receivers p v }
  | .next p => { k with next := Function.update k.next p v }

/-- `va_arg`: the `n`th word a request was given. -/
def arg (k : Kernel) (p : Idx) (n : Nat) : Word := k.mem.load32 (k.iargs p + BitVec.ofNat 32 (4 * n))

section assign
variable (k : Kernel) (l : PcbLink) (v : Option Idx)

theorem links_assign : (k.assign l v).links = Function.update k.links l v := by
  funext l'
  rcases l with (_ | _ | p | p) | p <;> rcases l' with (_ | _ | q | q) | q <;>
    simp [assign, links, Function.update_apply]

@[simp] theorem assign_heap : (k.assign l v).toHeap = k.toHeap := by rcases l with (_ | _ | _ | _) | _ <;> rfl
@[simp] theorem assign_pid : (k.assign l v).pid = k.pid := by rcases l with (_ | _ | _ | _) | _ <;> rfl
@[simp] theorem assign_parentPid : (k.assign l v).parentPid = k.parentPid := by
  rcases l with (_ | _ | _ | _) | _ <;> rfl
@[simp] theorem assign_state : (k.assign l v).state = k.state := by rcases l with (_ | _ | _ | _) | _ <;> rfl
@[simp] theorem assign_esp : (k.assign l v).esp = k.esp := by rcases l with (_ | _ | _ | _) | _ <;> rfl
@[simp] theorem assign_stack : (k.assign l v).stack = k.stack := by rcases l with (_ | _ | _ | _) | _ <;> rfl
@[simp] theorem assign_irc : (k.assign l v).irc = k.irc := by rcases l with (_ | _ | _ | _) | _ <;> rfl
@[simp] theorem assign_iargs : (k.assign l v).iargs = k.iargs := by rcases l with (_ | _ | _ | _) | _ <;> rfl
@[simp] theorem assign_delta : (k.assign l v).delta = k.delta := by rcases l with (_ | _ | _ | _) | _ <;> rfl
@[simp] theorem assign_sig_handler : (k.assign l v).sig_handler = k.sig_handler := by
  rcases l with (_ | _ | _ | _) | _ <;> rfl
@[simp] theorem assign_pending_sig : (k.assign l v).pending_sig = k.pending_sig := by
  rcases l with (_ | _ | _ | _) | _ <;> rfl
@[simp] theorem assign_allowed_sig : (k.assign l v).allowed_sig = k.allowed_sig := by
  rcases l with (_ | _ | _ | _) | _ <;> rfl
@[simp] theorem assign_hi_sig : (k.assign l v).hi_sig = k.hi_sig := by rcases l with (_ | _ | _ | _) | _ <;> rfl
@[simp] theorem assign_opened_dv : (k.assign l v).opened_dv = k.opened_dv := by
  rcases l with (_ | _ | _ | _) | _ <;> rfl
@[simp] theorem assign_idle : (k.assign l v).idle = k.idle := by rcases l with (_ | _ | _ | _) | _ <;> rfl
@[simp] theorem assign_pidMap : (k.assign l v).pidMap = k.pidMap := by rcases l with (_ | _ | _ | _) | _ <;> rfl
@[simp] theorem assign_nextPid : (k.assign l v).nextPid = k.nextPid := by rcases l with (_ | _ | _ | _) | _ <;> rfl
@[simp] theorem assign_kbd : (k.assign l v).kbd = k.kbd := by rcases l with (_ | _ | _ | _) | _ <;> rfl
end assign

end Kernel

end Xeros
