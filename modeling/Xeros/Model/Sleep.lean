import Xeros.Model.Queues
/-!
# `sleep.c`

A delta list: a sleeper's `delta` counts from the wake-up of the one before it.
-/

namespace Xeros

/-- A walk takes its counter down on every round of a circle, unless all the
deltas of the circle are 0. -/
def SLEEP_FUEL : Nat := 2 ^ 41

/-- No list of sleepers is longer, and a PCB is met at most twice. -/
def TICK_FUEL : Nat := 2 * MAX_NUM_PROCESS + 2

/-- `while (sleep_list->delta == 0)`. At the end of the list `NULL->delta` is
read: `nullDelta` is what is found there, and a 0 makes `tick` write through
the null pointer. -/
def tick_loop (nullDelta : Word) : Nat → Kernel → Option Kernel
  | 0, _ => none
  | fuel + 1, k =>
    match k.sleep_list with
    | none => if nullDelta = 0 then none else some k
    | some p =>
      if k.delta p = 0 then do
        let k := { k with irc := Function.update k.irc p 0 }
        let k := { k with sleep_list := k.next p }
        let k ← ready k p
        tick_loop nullDelta fuel k
      else some k

/-- Decrements the key of the head of the delta list and readies every process
with key 0. -/
def tick (nullDelta : Word) (k : Kernel) : Option Kernel :=
  match k.sleep_list with
  | none => some k
  | some p => tick_loop nullDelta TICK_FUEL { k with delta := Function.update k.delta p (k.delta p - 1) }

/-- `while (*next && (*next)->delta <= delta)`: the delta that is left and the
link to insert at. -/
def sleep_walk (k : Kernel) : Nat → Word → PcbLink → Option (Word × PcbLink)
  | 0, _, _ => none
  | fuel + 1, delta, link =>
    match k.links link with
    | none => some (delta, link)
    | some i => if k.delta i ≤ delta then sleep_walk k fuel (delta - k.delta i) (.next i) else some (delta, link)

/-- `(milliseconds/TIME_SLICE_MS) + (milliseconds%TIME_SLICE_MS?1:0)`. -/
def sleep_ticks (milliseconds : Word) : Word :=
  milliseconds / TIME_SLICE_MS + if milliseconds % TIME_SLICE_MS ≠ 0 then 1 else 0

/-- Inserts a process into the delta list. -/
def sleep (k : Kernel) (p : Idx) (milliseconds : Word) : Option Kernel :=
  let delta := sleep_ticks milliseconds
  if delta ≠ 0 then do
    let (delta, link) ← sleep_walk k SLEEP_FUEL delta (.head .sleepers)
    let k := { k with next := Function.update k.next p (k.links link) }
    let k := { k with delta := Function.update k.delta p delta }
    let k := match k.next p with
      | some i => { k with delta := Function.update k.delta i (k.delta i - delta) }
      | none => k
    let k := k.assign link (some p)
    some { k with state := Function.update k.state p .SLEEPING }
  else ready k p

end Xeros
