import Xeros.Model.Doprnt
/-!
# `kprintf.c` and `blkcopy.s`

The console: `kbmputc` keeps the display in the video memory, and moves the text
up with `blkcopy`. Of the 6845 only the registers are modelled, by the address
of its ports; the index that selects one is written before every access.
-/

namespace Xeros

/-! ## `blkcopy` -/

/-- `esi` or `edi` behind a string instruction, by the direction flag. -/
def string_step (df : Bool) (size reg : Word) : Word := if df then reg - size else reg + size

/-- `rep` before an instruction that moves `size` bytes, `ecx` times. -/
def rep_movs (df : Bool) (size : Word) (movs : Mem → Word → Word → Mem) : Nat → Word → Word → Mem → Word × Word × Mem
  | 0, esi, edi, m => (esi, edi, m)
  | ecx + 1, esi, edi, m =>
    rep_movs df size movs ecx (string_step df size esi) (string_step df size edi) (movs m esi edi)

def movsb (m : Mem) (esi edi : Word) : Mem := m.store8 edi (m esi)

def movsl (m : Mem) (esi edi : Word) : Mem := m.store32 edi (m.load32 esi)

/-- The memory, and the direction flag that is left. -/
def blkcopy (m : Mem) (dst src count : Word) : Mem × Bool :=
  if src.toInt ≤ dst.toInt then
    -- set pointers to end, move residual bytes
    let (esi, edi, m) := rep_movs true 1 movsb (count &&& 3).toNat (src + (count - 1)) (dst + (count - 1)) m
    -- convert to long word pointers
    let (_, _, m) := rep_movs true 4 movsl (count.sshiftRight 2).toNat (esi - 3) (edi - 3) m
    (m, true)
  else
    let (esi, edi, m) := rep_movs false 4 movsl (count.sshiftRight 2).toNat src dst m
    let (_, _, m) := rep_movs false 1 movsb (count &&& 3).toNat esi edi m
    (m, false)

/-! ## The console -/

def COL : Word := 80
def ROW : Word := 25
def CHR : Word := 2
def MONO_BASE : Word := 0x3B4
def MONO_BUF : Word := 0xB0000
def CGA_BASE : Word := 0x3D4
def CGA_BUF : Word := 0xB8000

def att : Byte := 0x7

/-- The static variables of `kprintf.c` and the machine they are about. -/
structure Console where
  mem : Mem
  /-- The registers of a 6845. -/
  crtc : Word → Byte → Byte
  /-- There is memory at `CGA_BUF`. -/
  color : Bool
  Crtat : Word
  addr_6845 : Word
  /-- 0 until the first character. -/
  crtat : Word

namespace Console

def outb (s : Console) (reg val : Byte) : Console :=
  { s with crtc := fun port r => if port = s.addr_6845 ∧ r = reg then val else s.crtc port r }

def cursor (s : Console) (pos : Word) : Console :=
  (s.outb 14 ((pos.sshiftRight 8).setWidth 8)).outb 15 ((pos &&& 0xFF).setWidth 8)

/-- `Extract cursor location`. -/
def cursorat (s : Console) : Word :=
  (s.crtc s.addr_6845 14).setWidth 32 <<< 8 ||| (s.crtc s.addr_6845 15).setWidth 32

/-- What is written over the start of `CGA_BUF` is read back from memory, and
what was there is put back. Without memory there it is put at the start of
`MONO_BUF`. -/
def probe (s : Console) : Console :=
  if s.color then s
  else { s with
    Crtat := MONO_BUF
    addr_6845 := MONO_BASE
    mem := (s.mem.store8 MONO_BUF (s.mem CGA_BUF)).store8 (MONO_BUF + 1) (s.mem (CGA_BUF + 1)) }

/-- A cell is cleared; the second of the two loops leaves the attribute. -/
def blank_cell (m : Mem) (cp : Word) : Option Byte → Mem
  | none => m.store8 cp (ascii ' ')
  | some att => (m.store8 cp (ascii ' ')).store8 (cp + 1) att

/-- `for (; cp < stop; cp += 2)`. -/
def blank_loop (stop : Word) (attr : Option Byte) : Nat → Word → Mem → Option Mem
  | 0, _, _ => none
  | fuel + 1, cp, m =>
    if cp < stop then blank_loop stop attr fuel (cp + 2) (blank_cell m cp attr) else some m

/-- No turn without a cell of the display. -/
def DISPLAY_FUEL : Nat := 25 * 80 + 1

/-- `if (crtat == 0)`. -/
def start (s : Console) : Option Console :=
  if s.crtat = 0 then do
    let s := s.probe
    let crtat := if s.cursorat ≤ COL * ROW then s.Crtat + s.cursorat * CHR else s.Crtat
    let mem ← blank_loop (s.Crtat + ROW * COL * CHR) (some att) DISPLAY_FUEL crtat s.mem
    some { s with crtat := crtat, mem := mem }
  else some s

/-- `case '\r'`. -/
def carriage_return (s : Console) : Console := { s with crtat := s.crtat - (s.crtat - s.Crtat).srem (COL * CHR) }

/-- `switch (c)`, but for the tabs. -/
def put (s : Console) (c : Byte) : Console :=
  if c = 0x08 then { s with crtat := s.crtat - CHR }
  else if c = 0x0A then { s with crtat := s.crtat + COL * CHR }.carriage_return
  else if c = 0x0D then s.carriage_return
  else { s with mem := (s.mem.store8 s.crtat c).store8 (s.crtat + 1) att, crtat := s.crtat + CHR }

def scroll (s : Console) : Option Console :=
  if s.Crtat + COL * ROW * CHR ≤ s.crtat then do
    let (mem, _) := blkcopy s.mem s.Crtat (s.Crtat + COL * CHR) (COL * (ROW - 1) * CHR)
    let mem ← blank_loop (s.Crtat + COL * ROW * CHR) none DISPLAY_FUEL (s.Crtat + COL * (ROW - 1) * CHR) mem
    some { s with mem := mem, crtat := s.crtat - COL * CHR }
  else some s

/-- What follows the `switch`. -/
def finish (s : Console) : Option Console := do
  let s ← s.scroll
  some (s.cursor ((s.crtat - s.Crtat).sdiv CHR))

/-- `do kbmputc(' '); while ((int)crtat % (8*CHR))`. -/
def tab_loop : Nat → Console → Option Console
  | 0, _ => none
  | fuel + 1, s => do
    let s ← s.start
    let s ← (s.put (ascii ' ')).finish
    if s.crtat.srem (8 * CHR) = 0 then some s else tab_loop fuel s

/-- A tab is at most eight blanks. -/
def TAB_FUEL : Nat := 8

def kbmputc (s : Console) (c : Byte) : Option Console :=
  if c = 0 then some s
  else do
    let s ← s.start
    let s ← if c = 0x09 then tab_loop TAB_FUEL s else some (s.put c)
    s.finish

/-- The bytes that `_doprnt` gives to `kputc`. -/
def kputs (s : Console) : List Byte → Option Console
  | [] => some s
  | c :: out => do
    let s ← s.kbmputc c
    s.kputs out

/-- The display is not where the format and its strings are. -/
def kprintf (s : Console) (fmt : List Byte) (args : List Word) (string : List Byte) : Option Console := do
  let out ← format s.mem fmt args string
  s.kputs out

end Console

end Xeros
