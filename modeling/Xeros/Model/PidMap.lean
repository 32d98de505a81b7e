import Xeros.Model.Mem
/-!
# The pid map of `disp.c`

A search tree of nodes allocated with `kmalloc`. A `TreeNode` value is the tree
a pointer leads to; a function that changes the node it was given returns the
new tree.
-/

namespace Xeros

namespace TreeNode

/-- `node ? node->height : 0`. -/
def heightOf : TreeNode → Word
  | .null => 0
  | .node _ _ _ height _ _ => height

end TreeNode

open TreeNode

def balanceFactor : TreeNode → Int
  | .null => 0
  | .node _ _ _ _ left right => (left.heightOf - right.heightOf).toInt

def updateHeight : TreeNode → TreeNode
  | .null => .null
  | .node addr pid idx _ left right =>
    .node addr pid idx ((if right.heightOf < left.heightOf then left.heightOf else right.heightOf) + 1) left right

def rotateLeft : TreeNode → TreeNode
  | .node a p i h left (.node a' p' i' h' left' right') =>
    updateHeight (.node a' p' i' h' (updateHeight (.node a p i h left left')) right')
  | t => t

/-- `ret->right` is never pointed at `node`, so `node` and its right subtree
are dropped. -/
def rotateRight : TreeNode → TreeNode
  | .node _ _ _ _ (.node a' p' i' h' left' right') _ => updateHeight (.node a' p' i' h' left' right')
  | t => t

/-- The end of `insert`: restores the balance of a node. -/
def rebalance : TreeNode → TreeNode
  | .null => .null
  | .node a p i h left right =>
    if 1 < balanceFactor (.node a p i h left right) then
      let left := if balanceFactor left < 0 then rotateLeft left else left
      rotateRight (.node a p i h left right)
    else if balanceFactor (.node a p i h left right) < -1 then
      let right := if 0 < balanceFactor right then rotateRight right else right
      rotateLeft (.node a p i h left right)
    else .node a p i h left right

/-- Inserts a node and balances the tree; `none` is `abort()`. -/
def insert (h : Heap) : TreeNode → Word → Word → Option (TreeNode × Heap)
  | .null, pid, pcbIndex => do
    let (newNode, h) ← kmalloc h SIZEOF_TREENODE
    if newNode = 0 then none else some (.node newNode pid pcbIndex 1 .null .null, h)
  | .node a p i height left right, pid, pcbIndex =>
    if pid > p then do
      let (right, h) ← insert h right pid pcbIndex
      some (rebalance (updateHeight (.node a p i height left right)), h)
    else if pid < p then do
      let (left, h) ← insert h left pid pcbIndex
      some (rebalance (updateHeight (.node a p i height left right)), h)
    else some (.node a p pcbIndex height left right, h)

/-- `some i` is `OK` with `*pcbIndex = i`, `none` is 0. -/
def lookup : TreeNode → Word → Option Word
  | .null, _ => none
  | .node _ p i _ left right, pid =>
    if p = pid then some i
    else if pid > p then lookup right pid
    else lookup left pid

/-- The pid and index of the rightmost node. -/
def rightmost : TreeNode → Option (Word × Word)
  | .null => none
  | .node _ p i _ _ .null => some (p, i)
  | .node _ _ _ _ _ right => rightmost right

/-- The pid and index of the node with the largest key below the node's own. -/
def predecessor : TreeNode → Option (Word × Word)
  | .null => none
  | .node _ _ _ _ left _ => rightmost left

/-- Removes a node from the tree. -/
def delete (h : Heap) : TreeNode → Word → Option (TreeNode × Heap)
  | .null, _ => some (.null, h)
  | .node a p i height left right, pid =>
    if p = pid then
      match left, right with
      | .null, child | child, .null => do
        let h ← kfree h a
        some (child, h)
      | left, right => do
        let (pid', idx') ← predecessor (.node a p i height left right)
        let (left, h) ← delete h left pid'
        some (.node a pid' idx' height left right, h)
    else if pid > p then do
      let (right, h) ← delete h right pid
      some (.node a p i height left right, h)
    else do
      let (left, h) ← delete h left pid
      some (.node a p i height left right, h)

def pidMapInsert (k : Kernel) (pid pcbIndex : Word) : Option Kernel := do
  let (t, h) ← insert k.toHeap k.pidMap pid pcbIndex
  some { k with toHeap := h, pidMap := t }

def pidMapDelete (k : Kernel) (pid : Word) : Option Kernel := do
  let (t, h) ← delete k.toHeap k.pidMap pid
  some { k with toHeap := h, pidMap := t }

def pidMapLookup (k : Kernel) (pid : Word) : Option Word := lookup k.pidMap pid

end Xeros
