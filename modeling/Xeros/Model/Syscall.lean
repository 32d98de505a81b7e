import Xeros.Model.Disp
/-!
# `syscall.c`

What a process does to make a request: `syscall` pushes the number of the
request and the address of its arguments, and traps.
-/

namespace Xeros

/-- The running process, its context at `esp`, makes a request. -/
def call (esp : Word) (r : Request) (args : List Word) : List Event :=
  let iargs := esp + 0x80
  let push (m : Mem) : Mem :=
    (m.store32 (esp + SIZEOF_CONTEXTFRAME) (BitVec.ofNat 32 (Request.all.idxOf r))).store32
      (esp + SIZEOF_CONTEXTFRAME + 4) iargs
  [.user fun m => args.zipIdx.foldl (fun m a => m.store32 (iargs + BitVec.ofNat 32 (4 * a.2)) a.1) (push m), .syscall esp]

/-! ## A machine to run -/

def sampleImage : Image :=
  { freemem := 0x20000, sigtramp := 0x1000, fake_return := 0x1100, sysstop := 0x1200, cs := 8, nullDelta := 1 }

theorem sampleBoot : (boot sampleImage (fun _ => 0) 0x5000 0x6000).isSome := by decide +kernel

/-- `initproc` has run: PCB 0 runs, and PCB 1 is the idle process. -/
def sampleSys : Sys := (boot sampleImage (fun _ => 0) 0x5000 0x6000).get sampleBoot

end Xeros
