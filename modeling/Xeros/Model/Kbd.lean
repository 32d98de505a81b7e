import Xeros.Model.Queues
/-!
# `kbd.c`

The keyboard driver. Its interrupt runs while some process runs, and is the
one part of the kernel that acts on another process without a request:
`Touch` lists what it does to the process that has the device open.
-/

namespace Xeros

/-! ## The character buffer -/

/-- Circular queue insert; the second component is the return code. -/
def insert_char (kb : Kbd) (c : Byte) : Kbd × Int :=
  if kb.size < KEYBOARD_BUF_LEN then
    let kb := { kb with
      kb_buf := Function.update kb.kb_buf (Fin.ofNat KEYBOARD_BUF_LEN (kb.head + kb.size)) c
      size := kb.size + 1 }
    if (c.toNat : Int) = kb.ps.eof then
      ({ kb with ps := { kb.ps with status := kb.ps.status ||| EOF_IN_BUF } }, 0)
    else (kb, 0)
  else (kb, -1)

/-- Circular queue remove; `none` is the return code -1. -/
def remove_char (kb : Kbd) : Option (Byte × Kbd) :=
  if 0 < kb.size then
    some (kb.kb_buf (Fin.ofNat KEYBOARD_BUF_LEN kb.head),
      { kb with head := (kb.head + 1) % KEYBOARD_BUF_LEN, size := kb.size - 1 })
  else none

/-! ## Scan codes -/

def KEY_UP : Byte := 0x80
def LSHIFT : Byte := 0x2a
def RSHIFT : Byte := 0x36
def LMETA : Byte := 0x38
def LCTL : Byte := 0x1d
def CAPSL : Byte := 0x3a
def INCTL : Word := 0x01
def INSHIFT : Word := 0x02
def CAPSLOCK : Word := 0x04
def INMETA : Word := 0x08
def EXTENDED : Word := 0x10
def EXTESC : Byte := 0xe0
def NOCHAR : Word := 256

/-- Normal table to translate scan code. -/
def kbcode : List Byte := [0,
  27, 49, 50, 51, 52, 53, 54, 55, 56, 57,
  48, 45, 61, 8, 9, 113, 119, 101, 114, 116,
  121, 117, 105, 111, 112, 91, 93, 10, 0, 97,
  115, 100, 102, 103, 104, 106, 107, 108, 59, 39,
  96, 0, 92, 122, 120, 99, 118, 98, 110, 109,
  44, 46, 47, 0, 0, 0, 32]

/-- Capitalized table. -/
def kbshift : List Byte := [0,
  0, 33, 64, 35, 36, 37, 94, 38, 42, 40,
  41, 95, 43, 8, 9, 81, 87, 69, 82, 84,
  89, 85, 73, 79, 80, 123, 125, 10, 0, 65,
  83, 68, 70, 71, 72, 74, 75, 76, 58, 34,
  126, 0, 124, 90, 88, 67, 86, 66, 78, 77,
  60, 62, 63, 0, 0, 0, 32]

/-- Control table. -/
def kbctl : List Byte := [0,
  0, 0, 0, 0, 0, 0, 0, 0, 0, 0,
  0, 31, 0, 8, 9, 17, 23, 5, 18, 20,
  25, 21, 9, 15, 16, 27, 29, 10, 0, 1,
  19, 4, 6, 7, 8, 10, 11, 12, 0, 0,
  0, 0, 28, 26, 24, 3, 22, 2, 14, 13]

/-- `table[code]`. -/
def entry (table : List Byte) (code : Byte) : Word := (table.getD code.toNat 0).setWidth 32

def extchar (state : Word) : Word × Word := (NOCHAR, state &&& ~~~EXTENDED)

/-- A key-up event changes the state of the modifier keys. -/
def key_up (state : Word) (key : Byte) : Word :=
  if key = LSHIFT ∨ key = RSHIFT then state &&& ~~~INSHIFT
  else if key = CAPSL then if state &&& CAPSLOCK ≠ 0 then state &&& ~~~CAPSLOCK else state ||| CAPSLOCK
  else if key = LCTL then state &&& ~~~INCTL
  else if key = LMETA then state &&& ~~~INMETA
  else state

/-- The character of an ordinary key in the given state. -/
def key_char (state : Word) (code : Byte) : Word :=
  let ch := NOCHAR
  let ch :=
    if code.toNat < kbcode.length then
      if state &&& CAPSLOCK ≠ 0 then entry kbshift code else entry kbcode code
    else ch
  if state &&& INSHIFT ≠ 0 ∧ kbshift.length ≤ code.toNat then NOCHAR
  else
    let ch :=
      if state &&& INSHIFT ≠ 0 then
        if state &&& CAPSLOCK ≠ 0 then entry kbcode code else entry kbshift code
      else ch
    if state &&& INCTL ≠ 0 ∧ kbctl.length ≤ code.toNat then NOCHAR
    else
      let ch := if state &&& INCTL ≠ 0 then entry kbctl code else ch
      if state &&& INMETA ≠ 0 then ch + 0x80 else ch

/-- Scan code to ASCII, with the new state of the keyboard. -/
def kbtoa (state : Word) (code : Byte) : Word × Word :=
  if state &&& EXTENDED ≠ 0 then extchar state
  else if code &&& KEY_UP ≠ 0 then (NOCHAR, key_up state (code &&& 0x7f))
  else if code = LSHIFT ∨ code = RSHIFT then (NOCHAR, state ||| INSHIFT)
  else if code = CAPSL then (NOCHAR, state)
  else if code = LCTL then (NOCHAR, state ||| INCTL)
  else if code = LMETA then (NOCHAR, state ||| INMETA)
  else if code = EXTESC then (NOCHAR, state ||| EXTENDED)
  else (key_char state code, state)

/-! ## Opening and closing -/

/-- Checks that the driver has not been opened and initializes it. -/
def _keyboard_open (k : Kernel) (p : Idx) : Int × Kernel :=
  match k.kbd.ps.pcb with
  | some _ => (DRV_ERROR, k)
  | none =>
    let ps := { k.kbd.ps with pcb := some p, buf := 0, buf_len := 0, ch_read := 0, eof := DEFAULT_EOF, status := 0 }
    (DRV_DONE, { k with kbd := { k.kbd with ps := ps, head := 0, size := 0 } })

/-- `_keyboard_open` with the echo flag set to `echo`. -/
def open_with_echo (echo : Word) (k : Kernel) (p : Idx) : Int × Kernel :=
  match _keyboard_open k p with
  | (rc, k) =>
    if rc = DRV_DONE then (DRV_DONE, { k with kbd := { k.kbd with ps := { k.kbd.ps with echo := echo } } })
    else (DRV_ERROR, k)

def keyboard_open : Kernel → Idx → Int × Kernel := open_with_echo 0

def keyboard_open_echo : Kernel → Idx → Int × Kernel := open_with_echo 1

/-- Cleans up the driver state, whoever calls. -/
def keyboard_close (k : Kernel) (_p : Idx) : Int × Kernel :=
  let ps : ProcState :=
    { pcb := none, buf := 0, buf_len := 0, ch_read := 0, eof := DEFAULT_EOF, echo := 0, status := 0 }
  (DRV_DONE, { k with kbd := { k.kbd with ps := ps, head := 0, size := 0 } })

/-- Command 53 sets the EOF character to the first argument. -/
def keyboard_ioclt (k : Kernel) (_p : Idx) (cmd ap : Word) : Int × Kernel :=
  if cmd = 53 then
    (DRV_DONE, { k with kbd := { k.kbd with ps := { k.kbd.ps with eof := (k.mem.load32 ap).toInt } } })
  else (DRV_ERROR, k)

def keyboard_write (k : Kernel) (_p : Idx) (_buf _buf_len : Word) : Option (Int × Kernel) := some (DRV_ERROR, k)

/-! ## Reading -/

/-- What the driver does to a process: a byte into its buffer, its return
value, a place in the ready queue. -/
inductive Touch where
  | store (a : Word) (c : Byte)
  | irc (p : Idx) (v : Word)
  | ready (p : Idx)
  deriving DecidableEq

/-- The label `read_done`. -/
def read_done (k : Kernel) (p : Idx) : Int × Kernel × List Touch :=
  let n := BitVec.ofInt 32 k.kbd.ps.ch_read
  (DRV_DONE, { k with irc := Function.update k.irc p n }, [.irc p n])

/-- `do { ... } while (ps.ch_read < ps.buf_len)` for the process `p`; every
turn takes a character out of the buffer. -/
def buf_copy_loop (p : Idx) : Nat → Kernel → Option (Int × Kernel × List Touch)
  | 0, _ => none
  | fuel + 1, k =>
    match remove_char k.kbd with
    | none => some (DRV_BLOCK, k, [])
    | some (a, kb) =>
      let k := { k with kbd := kb }
      if (a.toNat : Int) = k.kbd.ps.eof then
        let ps := { k.kbd.ps with status := k.kbd.ps.status ||| EOF_REACHED }
        some (read_done { k with kbd := { k.kbd with ps := ps } } p)
      else
        let addr := k.kbd.ps.buf + BitVec.ofInt 32 k.kbd.ps.ch_read
        let ps := { k.kbd.ps with ch_read := k.kbd.ps.ch_read + 1 }
        let k := { k with mem := k.mem.store8 addr a, kbd := { k.kbd with ps := ps } }
        if a = 10 then
          let (rc, k, t) := read_done k p
          some (rc, k, .store addr a :: t)
        else if k.kbd.ps.ch_read < k.kbd.ps.buf_len then do
          let (rc, k, t) ← buf_copy_loop p fuel k
          some (rc, k, .store addr a :: t)
        else
          let (rc, k, t) := read_done k p
          some (rc, k, .store addr a :: t)

/-- Copies the buffer to the process until one of the unblocking conditions is
met or the buffer is empty. -/
def buf_copy (k : Kernel) : Option (Int × Kernel × List Touch) := do
  let p ← k.kbd.ps.pcb
  buf_copy_loop p (k.kbd.size + 1) k

/-- Returns at once what is buffered, or sets up a read request and tells the
device layer to block the process. -/
def keyboard_read (k : Kernel) (p : Idx) (buf buf_len : Word) : Option (Int × Kernel) :=
  if k.kbd.ps.pcb ≠ some p then none
  else
    let ps := { k.kbd.ps with buf := buf, buf_len := buf_len.toInt, ch_read := 0 }
    let k' := { k with kbd := { k.kbd with ps := ps } }
    if k.kbd.ps.status &&& EOF_IN_BUF = 0 ∧ (k.kbd.size : Int) < buf_len.toInt then
      some (DRV_BLOCK, { k' with state := Function.update k'.state p .READING })
    else if buf_len.toInt ≤ k.kbd.size ∨ k.kbd.ps.status &&& EOF_IN_BUF ≠ 0 then
      -- this descriptor has returned EOF at least once since open
      if k'.kbd.ps.status &&& EOF_REACHED ≠ 0 then
        some (DRV_DONE, { k' with irc := Function.update k'.irc p 0 })
      else do
        let (rc, k, _) ← buf_copy k'
        if rc = DRV_DONE then some (DRV_DONE, k) else none
    else
      some (DRV_DONE, { k with irc := Function.update k.irc p 0 })

/-! ## The interrupt -/

/-- Reads the waiting scan codes into the driver buffer until it is full. -/
def keyboard_fill (kb : Kbd) : List Byte → Kbd
  | [] => kb
  | code :: codes =>
    let (ch, state) := kbtoa kb.state code
    let kb := { kb with state := state }
    let a : Byte := ch.setWidth 8
    if a ≠ 0 then
      let (kb, rc) := insert_char kb a
      if rc = 0 then keyboard_fill kb codes else kb
    else keyboard_fill kb codes

/-- The interrupt service routine, with `codes` waiting in the controller. -/
def keyboard_lower (k : Kernel) (codes : List Byte) : Option (Kernel × List Touch) :=
  let k := { k with kbd := keyboard_fill k.kbd codes }
  if k.kbd.ps.ch_read < k.kbd.ps.buf_len then do
    let (rc, k, t) ← buf_copy k
    if rc = DRV_DONE then do
      let p ← k.kbd.ps.pcb
      let k ← ready k p
      some (k, t ++ [.ready p])
    else some (k, t)
  else some (k, [])

end Xeros
