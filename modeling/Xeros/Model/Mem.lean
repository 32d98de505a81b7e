import Xeros.Model.Kernel
/-!
# `mem.c`

The allocator on the raw memory: a header is four words (`HdrField`) read and
written with `Heap.get` and `Heap.set`, and an address 0 is `NULL`.
-/

namespace Xeros

/-- The words of a `memHeader`. -/
inductive HdrField where
  | size | prev | next | sanityCheck
  deriving DecidableEq

def HdrField.offset : HdrField → Word
  | .size => 0
  | .prev => 4
  | .next => 8
  | .sanityCheck => 12

/-- `hdr->dataStart`. -/
def dataStart (hdr : Word) : Word := hdr + SIZEOF_MEMHEADER

namespace Heap

def get (h : Heap) (a : Word) (f : HdrField) : Word := h.mem.load32 (a + f.offset)

def set (h : Heap) (a : Word) (f : HdrField) (v : Word) : Heap := { h with mem := h.mem.store32 (a + f.offset) v }

@[simp] theorem set_freeList (h : Heap) (a : Word) (f : HdrField) (v : Word) : (h.set a f v).freeList = h.freeList := rfl

end Heap

/-- The first node: everything before the hole; the second: everything after it. -/
def kmeminit (freemem : Word) (h : Heap) : Heap :=
  let alignedStart := align16 freemem
  let h := { h with freeList := alignedStart }
  let h := h.set alignedStart .size (HOLESTART - SIZEOF_MEMHEADER - alignedStart)
  let h := h.set alignedStart .prev 0
  let h := h.set alignedStart .next HOLEEND
  let h := h.set alignedStart .sanityCheck 0
  let h := h.set HOLEEND .size (FREEMEM_END - HOLEEND - SIZEOF_MEMHEADER)
  let h := h.set HOLEEND .prev h.freeList
  let h := h.set HOLEEND .next 0
  h.set HOLEEND .sanityCheck 0

/-- More turns than there are headers: a walk that outlives it never ends. -/
def WALK_FUEL : Nat := 2 ^ 32

/-- `while (node != NULL && node->size < amount) node = node->next`. -/
def kmalloc_walk (h : Heap) (amount : Word) : Nat → Word → Option Word
  | 0, _ => none
  | fuel + 1, node =>
    if node ≠ 0 ∧ h.get node .size < amount then kmalloc_walk h amount fuel (h.get node .next) else some node

/-- Cuts `amount` bytes off the free `node` and links what takes its place. -/
def kmalloc_take (h : Heap) (amount node : Word) : Heap :=
  let rmdSize := h.get node .size - amount - SIZEOF_MEMHEADER
  let (nextNode, h) :=
    if 0 < rmdSize.toInt then
      -- split the free node and initialize a new free node
      let nextNode := dataStart node + amount
      let h := h.set nextNode .size rmdSize
      let h := h.set nextNode .next (h.get node .next)
      let h := if h.get node .next ≠ 0 then h.set (h.get node .next) .prev nextNode else h
      (nextNode, h)
    else
      (h.get node .next, h)
  let h := if nextNode ≠ 0 then h.set nextNode .prev (h.get node .prev) else h
  let h := if h.get node .prev ≠ 0 then h.set (h.get node .prev) .next nextNode else { h with freeList := nextNode }
  let h := h.set node .size amount
  let h := h.set node .next 0
  let h := h.set node .prev 0
  h.set node .sanityCheck (dataStart node)

/-- Returns the payload address, 0 when there is none. -/
def kmalloc (h : Heap) (size : Word) : Option (Word × Heap) :=
  if size.toInt ≤ 0 then
    some (0, h)
  else do
    let amount := align16 size
    let node ← kmalloc_walk h amount WALK_FUEL h.freeList
    if node = 0 then
      some (0, h)
    else
      some (dataStart node, kmalloc_take h amount node)

/-- `while (freeNode->next != NULL && hdr > freeNode->next) freeNode = freeNode->next`. -/
def kfree_walk (h : Heap) (hdr : Word) : Nat → Word → Option Word
  | 0, _ => none
  | fuel + 1, freeNode =>
    if h.get freeNode .next ≠ 0 ∧ hdr > h.get freeNode .next then kfree_walk h hdr fuel (h.get freeNode .next)
    else some freeNode

/-- Links `hdr` into the free list in order of address. -/
def kfree_insert (h : Heap) (hdr : Word) : Option Heap :=
  if h.freeList = 0 then
    some { h with freeList := hdr }
  else if hdr < h.freeList then
    let h := h.set h.freeList .prev hdr
    let h := h.set hdr .next h.freeList
    some { h with freeList := hdr }
  else do
    let freeNode ← kfree_walk h hdr WALK_FUEL h.freeList
    let h :=
      if h.get freeNode .next ≠ 0 then
        let h := h.set hdr .next (h.get freeNode .next)
        h.set (h.get freeNode .next) .prev hdr
      else h
    let h := h.set freeNode .next hdr
    some (h.set hdr .prev freeNode)

/-- Merges `hdr` into the free node just below it; returns the merged header. -/
def coalesce_lower (h : Heap) (hdr : Word) : Heap × Word :=
  let prev := h.get hdr .prev
  if prev ≠ 0 ∧ dataStart prev + h.get prev .size = hdr then
    let h := h.set prev .size (h.get prev .size + (h.get hdr .size + SIZEOF_MEMHEADER))
    let h := h.set prev .next (h.get hdr .next)
    let h := if h.get hdr .next ≠ 0 then h.set (h.get hdr .next) .prev (h.get hdr .prev) else h
    (h, h.get hdr .prev)
  else (h, hdr)

/-- Merges the free node just above `hdr` into it. The back link is fixed up
only when the node after the absorbed one has a successor, and then on that
successor. -/
def coalesce_upper (h : Heap) (hdr : Word) : Heap :=
  let next := h.get hdr .next
  if next ≠ 0 ∧ dataStart hdr + h.get hdr .size = next then
    let h := h.set hdr .size (h.get hdr .size + (h.get next .size + SIZEOF_MEMHEADER))
    let h := h.set hdr .next (h.get next .next)
    let next := h.get hdr .next
    if next ≠ 0 ∧ h.get next .next ≠ 0 then h.set (h.get next .next) .prev hdr else h
  else h

def kfree (h : Heap) (ptr : Word) : Option Heap :=
  let hdr := ptr - SIZEOF_MEMHEADER
  if h.get hdr .sanityCheck = dataStart hdr then do
    let h := h.set hdr .next 0
    let h := h.set hdr .prev 0
    let h := h.set hdr .sanityCheck 0
    let h ← kfree_insert h hdr
    let (h, hdr) := coalesce_lower h hdr
    some (coalesce_upper h hdr)
  else some h

end Xeros
