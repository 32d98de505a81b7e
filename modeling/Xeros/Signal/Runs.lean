import Xeros.Signal.Calls
import Xeros.Model.Syscall
import Xeros.Lib.Runs
import Mathlib.Order.Bounds.Basic
/-!
# Nested signal handlers

The machine seen from one process `p`: whatever runs, `p` has a stack of
active handlers, one frame for each delivery that has not returned yet.
`Priority` says how the signals of these handlers are ordered and when the
next one comes in, and `Transparent` what a return gives back. Both hold in
every run in which the words that a return reads are left alone, and the second
in so far as the interrupted code's part of the stack is.
-/

namespace Xeros

open Runs

/-! ## The system -/

/-- A delivery: the signal, and the kernel just before it. -/
structure SigFrame where
  sig : Fin NUM_SIGNAL
  before : Kernel

namespace SigFrame

/-- Where the frame was put. -/
def base (p : Idx) (fr : SigFrame) : Word := fr.before.esp p - SIZEOF_SIGNAL_FRAME

/-- The address is one of the words that `SIGRETURN` reads: `old_sp`,
`old_hi_sig` and `old_irc`. -/
def Saves (p : Idx) (fr : SigFrame) (x : Word) : Prop := fr.base p + FrameField.old_sp.offset ≤ x ∧ x < fr.before.esp p

/-- What the return needs, and what it finds of the memory `own`. -/
def Keeps (own : Set Word) (p : Idx) (fr : SigFrame) (x : Word) : Prop := fr.Saves p x ∨ x ∈ own ∧ fr.before.esp p ≤ x

end SigFrame

/-- `frames` are the active handlers of the process, innermost first;
`resumes` is the kernel before the delivery that has returned last, until the
process is switched to. -/
structure SigSys where
  kernel : Kernel
  frames : List SigFrame
  resumes : Option Kernel

inductive SigEvent where
  /-- Some process changes memory. -/
  | user (f : Mem → Mem)
  | keyboard (codes : List Byte)
  /-- Process `q` traps with its context at `esp`, and its request is served. -/
  | syscall (q : Idx) (esp : Word)
  /-- Process `q` is preempted. -/
  | timer (q : Idx) (esp eax : Word)
  /-- The next process is taken off the ready queue. -/
  | select
  /-- Process `q` has been selected and is switched to. -/
  | dispatch (q : Idx)

/-- The `switch` of the dispatcher and the `ready` after it. -/
def serve (im : Image) (k : Kernel) (q : Idx) : Option Request → Option Kernel
  | none => some k
  | some .TIME_INT => some (switch_to k q)
  | some r => do
    let (k, to_ready) ← handle_request im k q r
    match to_ready with
    | some i => ready k i
    | none => some k

/-- The request of a trap. -/
def requested_by (k : Kernel) (q : Idx) (esp : Word) : Option Request := Request.all[(syscall_entry k q esp).2.toNat]?

def sigStep (im : Image) (p : Idx) : SigEvent → SigSys → Option SigSys
  | .user f, s => some { s with kernel := { s.kernel with mem := f s.kernel.mem } }
  | .keyboard codes, s => do
    let (k, _) ← keyboard_lower s.kernel codes
    some { s with kernel := k }
  | .syscall q esp, s => do
    let r := requested_by s.kernel q esp
    let k ← serve im (syscall_entry s.kernel q esp).1 q r
    if q = p ∧ r = some .SIGRETURN then
      some { kernel := k, frames := s.frames.tail, resumes := s.frames.head?.map (·.before) }
    else some { s with kernel := k }
  | .timer q esp eax, s => do
    let k ← serve im (timer_entry s.kernel q esp eax) q (some .SYS_TIMER)
    some { s with kernel := k }
  | .select, s => do
    let (k, _) ← select s.kernel
    some { s with kernel := k }
  | .dispatch q, s =>
    let k := resume im s.kernel q
    if q = p then
      let frames :=
        if Deliverable s.kernel p then ⟨sig_to_deliver (s.kernel.pending_sig p), s.kernel⟩ :: s.frames else s.frames
      some { kernel := k, frames := frames, resumes := none }
    else some { s with kernel := k }

/-- No handler is active, and every signal may come in. -/
def SigInit (p : Idx) (s : SigSys) : Prop := s.kernel.hi_sig p = 0xFFFFFFFF ∧ s.frames = [] ∧ s.resumes = none

/-! ## What the handlers keep to -/

/-- Memory that only `p` itself may change, and not before the handlers have
returned or `p` is switched to: the saved words of its active frames, and what
the interrupted code has of `own`. -/
def Protected (own : Set Word) (p : Idx) (s : SigSys) (x : Word) : Prop :=
  (∃ b ∈ s.resumes, x ∈ own ∧ b.esp p ≤ x) ∨ ∃ fr ∈ s.frames, fr.Keeps own p x

/-- A context at `esp` lies below the frame of the innermost handler. -/
def BelowFrames (p : Idx) (s : SigSys) (esp : Word) : Prop := ∀ fr ∈ s.frames.head?, esp ≤ fr.base p

/-- Nothing happens to `p` while it is ready. -/
def LeavesReady (p : Idx) (k k' : Kernel) : Prop :=
  k.state p = .READY → k'.state p = .READY ∧ k'.irc p = k.irc p

/-- The event leaves protected memory alone. -/
def KeepsMemory (im : Image) (own : Set Word) (p : Idx) (s : SigSys) (e : SigEvent) : Prop :=
  ∀ s', sigStep im p e s = some s' → ∀ x, Protected own p s x → s'.kernel.mem x = s.kernel.mem x

/-- Properly nested handlers: they change `own`, the stack of `p`, only below
their frames, and `sigtramp` returns with the stack pointer it was given. What
other processes do does not disturb `p`, which stays in use. -/
def Nested (im : Image) (own : Set Word) (p : Idx) (s : SigSys) : SigEvent → Prop
  | .user f => KeepsMemory im own p s (.user f)
  | .keyboard codes => KeepsMemory im own p s (.keyboard codes) ∧
    ∀ s', sigStep im p (.keyboard codes) s = some s' → LeavesReady p s.kernel s'.kernel
  | .syscall q esp =>
    s.kernel.state q = .RUNNING ∧ s.kernel.state p ≠ .STOPPED ∧
    if q = p then
      BelowFrames p s esp ∧
      if requested_by s.kernel p esp = some .SIGRETURN then
        ∃ fr ∈ s.frames.head?,
          (syscall_entry s.kernel p esp).1.arg p 0 = getFrame s.kernel.mem (fr.base p) .old_sp
      else KeepsMemory im own p s (.syscall q esp)
    else KeepsMemory im own p s (.syscall q esp) ∧
      ∀ s', sigStep im p (.syscall q esp) s = some s' → LeavesReady p s.kernel s'.kernel
  | .timer q esp eax =>
    s.kernel.state q = .RUNNING ∧ KeepsMemory im own p s (.timer q esp eax) ∧
    if q = p then BelowFrames p s esp
    else ∀ s', sigStep im p (.timer q esp eax) s = some s' → LeavesReady p s.kernel s'.kernel
  | .select => True
  | .dispatch q =>
    s.kernel.state q = .READY ∧ if q = p then 68 ≤ s.kernel.esp p else KeepsMemory im own p s (.dispatch q)

/-! ## What holds -/

/-- Some pending signal is above the innermost active one. -/
def Due (p : Idx) (s : SigSys) : Prop :=
  ∃ i, Has (s.kernel.pending_sig p) i ∧ ∀ fr ∈ s.frames.head?, fr.sig < i

/-- No memory but the saved words is protected. -/
structure Priority (im : Image) (p : Idx) (s : SigSys) : Prop where
  /-- From the outermost to the innermost handler the signals increase. -/
  increasing : s.frames.Pairwise fun inner outer => outer.sig < inner.sig
  mask : ∀ i, Has (s.kernel.hi_sig p) i ↔ ∀ fr ∈ s.frames.head?, fr.sig < i
  /-- A dispatch delivers the greatest pending signal whenever one is due. -/
  delivers : Due p s → ∃ g s', sigStep im p (.dispatch p) s = some s' ∧
    IsGreatest { i | Has (s.kernel.pending_sig p) i } g ∧ s'.frames = ⟨g, s.kernel⟩ :: s.frames ∧
    ∀ i, Has (s'.kernel.pending_sig p) i ↔ Has (s.kernel.pending_sig p) i ∧ i ≠ g
  rests : ¬Due p s → ∃ s', sigStep im p (.dispatch p) s = some s' ∧ s'.frames = s.frames ∧
    s'.kernel.pending_sig p = s.kernel.pending_sig p
  /-- A pending signal disappears only by its own delivery. -/
  kept : ∀ e s', Nested im ∅ p s e → sigStep im p e s = some s' → ∀ i, Has (s.kernel.pending_sig p) i →
    ¬Has (s'.kernel.pending_sig p) i → e = .dispatch p ∧ s'.frames = ⟨i, s.kernel⟩ :: s.frames

/-- `k` is, for `p` with the memory `own`, the kernel `b` again. -/
structure Restored (own : Set Word) (p : Idx) (b k : Kernel) : Prop where
  esp : k.esp p = b.esp p
  hi_sig : k.hi_sig p = b.hi_sig p
  irc : k.irc p = b.irc p
  mem : ∀ x ∈ own, b.esp p ≤ x → k.mem x = b.mem x

/-- After the return that matches a delivery everything is as before it, and
the switch that follows resumes the interrupted code as a switch before the
delivery would have. -/
structure Transparent (im : Image) (own : Set Word) (p : Idx) (s : SigSys) : Prop where
  restored : ∀ b ∈ s.resumes, Restored own p b s.kernel
  switched : ∀ b ∈ s.resumes, ¬Deliverable s.kernel p →
    (resume im s.kernel p).esp p = b.esp p ∧ getFrame (resume im s.kernel p).mem (b.esp p) .eax = b.irc p ∧
    ∀ x ∈ own, b.esp p ≤ x → (resume im s.kernel p).mem x = (switch_to b p).mem x

end Xeros
