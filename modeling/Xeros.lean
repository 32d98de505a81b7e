import Xeros.Lib.Memory
import Xeros.Lib.Links
import Xeros.Lib.DLinks
import Xeros.Lib.Spans
import Xeros.Lib.Ring
import Xeros.Lib.Deltas
import Xeros.Lib.Assoc
import Xeros.Lib.Lines
import Xeros.Lib.Flags
import Xeros.Lib.Runs
import Xeros.Lib.Lockstep
import Xeros.Model.Kernel
import Xeros.Model.Mem
import Xeros.Model.Queues
import Xeros.Model.PidMap
import Xeros.Model.Msg
import Xeros.Model.Sleep
import Xeros.Model.Signal
import Xeros.Model.Kbd
import Xeros.Model.DiCalls
import Xeros.Model.Create
import Xeros.Model.Disp
import Xeros.Model.Syscall
import Xeros.Heap.Blocks
import Xeros.Heap.Kmalloc
import Xeros.Heap.Kfree
import Xeros.Heap.FirstFit
import Xeros.Heap.Forward
import Xeros.Heap.RoundTrip
import Xeros.Heap.Runs
import Xeros.Heap.DoubleFree
import Xeros.PidMap.Tree
import Xeros.PidMap.Delete
import Xeros.PidMap.Runs
import Xeros.PidMap.Sound
import Xeros.PidMap.Turns
import Xeros.PidMap.Balance
import Xeros.PidMap.Ascending
import Xeros.PidMap.Search
import Xeros.PidMap.Table
import Xeros.Procs.Frames
import Xeros.Procs.Lists
import Xeros.Procs.Wake
import Xeros.Procs.Queued
import Xeros.Procs.Moves
import Xeros.Procs.Sound
import Xeros.Procs.Calls
import Xeros.Procs.Cleanup
import Xeros.Procs.RoundRobin
import Xeros.Procs.Creation
import Xeros.Procs.FirstContext
import Xeros.Procs.Requests
import Xeros.Procs.Machine
import Xeros.Procs.Twins
import Xeros.Procs.Answers
import Xeros.Sleep.Insert
import Xeros.Sleep.Runs
import Xeros.Sleep.EndOfList
import Xeros.Kbd.Buffer
import Xeros.Kbd.Fifo
import Xeros.Kbd.Copy
import Xeros.Kbd.Devices
import Xeros.Kbd.Stream
import Xeros.Kbd.Underway
import Xeros.Kbd.Blocked
import Xeros.Kbd.Driver
import Xeros.Kbd.Bounds
import Xeros.Kbd.Immediate
import Xeros.Kbd.Sticky
import Xeros.Kbd.Scancodes
import Xeros.Kbd.Batch
import Xeros.Kbd.Descriptors
import Xeros.Kbd.Readers
import Xeros.Kbd.Owner
import Xeros.Kbd.Exclusive
import Xeros.Signal.Masks
import Xeros.Signal.Delivery
import Xeros.Signal.Calls
import Xeros.Signal.Runs
import Xeros.Signal.Active
import Xeros.Signal.Nesting
import Xeros.Signal.Priority
import Xeros.Signal.Return
import Xeros.Signal.Handlers
import Xeros.Signal.Unblock
import Xeros.Signal.Register
import Xeros.Msg.Exchange
import Xeros.Msg.Transfer
import Xeros.Msg.Rendezvous
import Xeros.Msg.Order
import Xeros.Lib.RunQueue
import Xeros.Lib.Numerals
import Xeros.Lib.Signed
import Xeros.Lib.Move
import Xeros.Lib.Teletype
import Xeros.Model.Doprnt
import Xeros.Model.Kprintf
import Xeros.Procs.Effects
import Xeros.Procs.Running
import Xeros.Procs.Undisturbed
import Xeros.Procs.Waiting
import Xeros.PidMap.Fresh
import Xeros.Printf.Convert
import Xeros.Printf.Format
import Xeros.Printf.Atoi
import Xeros.Console.Blkcopy
import Xeros.Console.Display
import Xeros.Signal.Tally
import Xeros.Lib.Pic
import Xeros.Model.I386
import Xeros.Interrupts.Lines
import Xeros.Interrupts.Delivery
import Xeros.PidMap.Nodes
import Xeros.Procs.InUse
import Xeros.Procs.Ledger
import Xeros.Procs.Stacks
import Xeros.Procs.Contained
