import WazAISentinel.Foundations.ColorTree
import WazAISentinel.VersionMatcher.CString

/-!
# The red-black tree

`rbtree_op.c`: nodes on a heap with pointers to their parent and children. A pointer is an address
or NULL (`none`). Following NULL or the address of a freed node, a failed assertion and a loop that
does not come to its end are faults.

The two rotations are mirror images of each other, and so are the two halves of the balancing loops;
each pair is one definition with a direction. `Dir.left` gives the functions and branches as they
are written for the left side, `Dir.right` those for the right side.

The string of a key is its characters. Values are pointers that the tree hands to `dispose` (if one
is set) when it drops them; the calls are recorded.
-/

namespace WazAISentinel.Shared

open Foundations
open VersionMatcher (strcmp)

/-- `rb_node`. -/
structure RbNode (V : Type) where
  key : List Char
  value : Option V
  color : Color
  parent : Option Nat
  left : Option Nat
  right : Option Nat

/-- What must not happen. -/
inductive Fault where
  | nullPointer
  | freedPointer
  | assertion
  | unfinished
  deriving DecidableEq, Repr

/-- `rb_tree` and the heap. Addresses from `next` on have not been given out. -/
structure RbTree (V : Type) where
  root : Option Nat
  dispose : Bool
  disposed : List V
  heap : Nat → Option (RbNode V)
  next : Nat

namespace RbNode

variable {V : Type}

/-- The child on a side. -/
def child (d : Dir) (n : RbNode V) : Option Nat :=
  match d with
  | .left => n.left
  | .right => n.right

def setChild (d : Dir) (p : Option Nat) (n : RbNode V) : RbNode V :=
  match d with
  | .left => { n with left := p }
  | .right => { n with right := p }

def setParent (p : Option Nat) (n : RbNode V) : RbNode V := { n with parent := p }

def setColor (c : Color) (n : RbNode V) : RbNode V := { n with color := c }

end RbNode

namespace RbTree

variable {V : Type}

/-- `rbtree_init`, with or without a function to dispose values. -/
def init (dispose : Bool) : RbTree V := ⟨none, dispose, [], fun _ => none, 0⟩

section

variable (tree : RbTree V)

/-- Follow a pointer. -/
def deref : Option Nat → Except Fault (RbNode V)
  | none => .error .nullPointer
  | some a =>
    match tree.heap a with
    | none => .error .freedPointer
    | some n => .ok n

/-- Change the node behind a pointer. -/
def store (p : Option Nat) (f : RbNode V → RbNode V) : Except Fault (RbTree V) :=
  match p with
  | none => .error .nullPointer
  | some a =>
    match tree.heap a with
    | none => .error .freedPointer
    | some n => .ok { tree with heap := Function.update tree.heap a (some (f n)) }

/-- `free` of a node. -/
def free (p : Option Nat) : Except Fault (RbTree V) :=
  match p with
  | none => .ok tree
  | some a =>
    match tree.heap a with
    | none => .error .freedPointer
    | some _ => .ok { tree with heap := Function.update tree.heap a none }

/-- `rb_init`: a new red node. -/
def rbInit (key : List Char) (value : Option V) : RbTree V × Option Nat :=
  ({ tree with
      heap := Function.update tree.heap tree.next (some ⟨key, value, .red, none, none, none⟩)
      next := tree.next + 1 },
    some tree.next)

/-- The number of rounds given to a loop; every loop goes along one path of the tree. -/
def rounds : Nat := tree.next + 2

/-! ## Searching -/

/-- The loop of `rb_get`. -/
def rbGetLoop (key : List Char) : Nat → Option Nat → Except Fault (Option Nat)
  | 0, _ => .error .unfinished
  | fuel + 1, node =>
    if node = none then .ok none
    else do
      let n ← tree.deref node
      let cmp := strcmp key n.key
      if cmp = 0 then pure node
      else rbGetLoop key fuel (if cmp < 0 then n.left else n.right)

section

variable (node : Option Nat)

/-- `rb_get`. -/
def rbGet (key : List Char) : Except Fault (Option Nat) :=
  tree.rbGetLoop key tree.rounds node

/-- The loop of `rb_min`. -/
def rbMinLoop : Nat → Option Nat → Except Fault (Option Nat)
  | 0, _ => .error .unfinished
  | fuel + 1, t => do
      let n ← tree.deref t
      if n.left ≠ none then rbMinLoop fuel n.left else pure t

/-- `rb_min`. -/
def rbMin : Except Fault (Option Nat) :=
  tree.rbMinLoop tree.rounds node

/-- `rb_uncle`. -/
def rbUncle : Except Fault (Option Nat) := do
  let n ← tree.deref node
  if n.parent = none then pure none
  else do
    let p ← tree.deref n.parent
    if p.parent = none then pure none
    else do
      let gp ← tree.deref p.parent
      pure (if n.parent = gp.left then gp.right else gp.left)

/-- `node != NULL && node->color == RB_RED`. -/
def isRed : Except Fault Bool :=
  if node = none then .ok false else (tree.deref node).map fun n => n.color = .red

/-- `node == NULL || node->color == RB_BLACK`. -/
def isBlack : Except Fault Bool :=
  if node = none then .ok true else (tree.deref node).map fun n => n.color = .black

end

/-! ## Rotations -/

/-- Put `t` in the place of `node` below `parent`, or at the root. -/
def replaceChild (parent node t : Option Nat) : Except Fault (RbTree V) :=
  if parent = none then .ok { tree with root := t }
  else do
    let p ← tree.deref parent
    if node = p.left then tree.store parent (RbNode.setChild .left t)
    else tree.store parent (RbNode.setChild .right t)

/-- Set the parent of a node, if there is one. -/
def setParentOf (t parent : Option Nat) : Except Fault (RbTree V) :=
  if t ≠ none then tree.store t (RbNode.setParent parent) else .ok tree

end

variable (d : Dir)

/-- `rb_rotate_left` and its mirror image. -/
def rotate (tree : RbTree V) (node : Option Nat) : Except Fault (RbTree V) := do
  let n ← tree.deref node
  let t := n.child d.flip
  let tree ← tree.replaceChild n.parent node t
  let below ← tree.deref t
  let tree ← tree.setParentOf (below.child d) node
  let below ← tree.deref t
  let tree ← tree.store node (RbNode.setChild d.flip (below.child d))
  let tree ← tree.store t (RbNode.setChild d node)
  let n ← tree.deref node
  let tree ← tree.store t (RbNode.setParent n.parent)
  tree.store node (RbNode.setParent t)

variable (tree : RbTree V)

/-- `rb_rotate_left`. -/
def rbRotateLeft (node : Option Nat) : Except Fault (RbTree V) :=
  rotate .left tree node

/-- `rb_rotate_right`. -/
def rbRotateRight (node : Option Nat) : Except Fault (RbTree V) :=
  rotate .right tree node

/-! ## Balancing after an insertion -/

/-- An inner node is rotated to the outside first: the node to go on with. -/
def rotateInner (tree : RbTree V) (node : Option Nat) :
  Except Fault (RbTree V × Option Nat) := do
  let n ← tree.deref node
  let p ← tree.deref n.parent
  if node = p.child d.flip then do
    let tree ← rotate d tree n.parent
    pure (tree, n.parent)
  else pure (tree, node)

/-- The branch of `rb_balance_insert` for a parent on the side `d` of the grandparent. -/
def balanceInsertSide (tree : RbTree V) (node : Option Nat) :
    Except Fault (RbTree V × Option Nat) := do
  let (tree, node) ← rotateInner d tree node
  let n ← tree.deref node
  let tree ← tree.store n.parent (RbNode.setColor .black)
  let p ← tree.deref n.parent
  let tree ← tree.store p.parent (RbNode.setColor .red)
  let tree ← rotate d.flip tree p.parent
  pure (tree, node)

/-- The loop of `rb_balance_insert`. -/
def balanceInsertLoop : Nat → RbTree V → Option Nat → Except Fault (RbTree V)
  | 0, _, _ => .error .unfinished
  | fuel + 1, tree, node => do
      let n ← tree.deref node
      let parentRed ← tree.isRed n.parent
      if parentRed then do
        let uncle ← tree.rbUncle node
        let p ← tree.deref n.parent
        let uncleRed ← tree.isRed uncle
        if uncleRed then do
          let tree ← tree.store n.parent (RbNode.setColor .black)
          let tree ← tree.store uncle (RbNode.setColor .black)
          let tree ← tree.store p.parent (RbNode.setColor .red)
          balanceInsertLoop fuel tree p.parent
        else do
          let gp ← tree.deref p.parent
          let (tree, node) ← balanceInsertSide
            (if n.parent = gp.left then .left else .right) tree node
          balanceInsertLoop fuel tree node
      else pure tree

/-- `rb_balance_insert`. -/
def rbBalanceInsert (node : Option Nat) : Except Fault (RbTree V) := do
  let tree ← balanceInsertLoop tree.rounds tree node
  tree.store tree.root (RbNode.setColor .black)

/-! ## Balancing after a deletion -/

/-- Case 1 of `rb_balance_delete`, a red sibling: the sibling to go on with. -/
def balanceDeleteCase1 (tree : RbTree V) (parent sibling : Option Nat) :
    Except Fault (RbTree V × Option Nat) := do
  let s ← tree.deref sibling
  if s.color = .red then do
    let tree ← tree.store sibling (RbNode.setColor .black)
    let tree ← tree.store parent (RbNode.setColor .red)
    let tree ← rotate d tree parent
    let p ← tree.deref parent
    pure (tree, p.child d.flip)
  else pure (tree, sibling)

/-- Case 3, a black outer nephew: the sibling to go on with. -/
def balanceDeleteCase3 (tree : RbTree V) (parent sibling : Option Nat) :
    Except Fault (RbTree V × Option Nat) := do
  let s ← tree.deref sibling
  let outerBlack ← tree.isBlack (s.child d.flip)
  if outerBlack then do
    let tree ← tree.store (s.child d) (RbNode.setColor .black)
    let tree ← tree.store sibling (RbNode.setColor .red)
    let tree ← rotate d.flip tree sibling
    let p ← tree.deref parent
    pure (tree, p.child d.flip)
  else pure (tree, sibling)

/-- Case 4, a red outer nephew. -/
def balanceDeleteCase4 (tree : RbTree V) (parent sibling : Option Nat) :
  Except Fault (RbTree V) := do
  let s ← tree.deref sibling
  if s.child d.flip = none then throw .assertion
  else do
    let p ← tree.deref parent
    let tree ← tree.store sibling (RbNode.setColor p.color)
    let tree ← tree.store parent (RbNode.setColor .black)
    let tree ← tree.store (s.child d.flip) (RbNode.setColor .black)
    rotate d tree parent

/-- The end of `rb_balance_delete`. -/
def balanceDeleteEnd (node : Option Nat) : Except Fault (RbTree V) :=
  if node ≠ none then tree.store node (RbNode.setColor .black) else .ok tree

/-- `rb_balance_delete`: the loop and what follows it. -/
def balanceDeleteLoop : Nat → RbTree V → Option Nat → Option Nat → Except Fault (RbTree V)
  | 0, _, _, _ => .error .unfinished
  | fuel + 1, tree, node, parent => do
      let nodeBlack ← tree.isBlack node
      if parent ≠ none ∧ nodeBlack then do
        let p ← tree.deref parent
        let d : Dir := if node = p.left then .left else .right
        let sibling := p.child d.flip
        if sibling = none then throw .assertion
        else do
          let (tree, sibling) ← balanceDeleteCase1 d tree parent sibling
          let s ← tree.deref sibling
          let leftBlack ← tree.isBlack s.left
          let rightBlack ← tree.isBlack s.right
          if s.color = .black ∧ leftBlack ∧ rightBlack then do
            -- case 2: the defect moves to the parent
            let tree ← tree.store sibling (RbNode.setColor .red)
            let p ← tree.deref parent
            balanceDeleteLoop fuel tree parent p.parent
          else do
            let (tree, sibling) ← balanceDeleteCase3 d tree parent sibling
            let tree ← balanceDeleteCase4 d tree parent sibling
            balanceDeleteEnd tree node
      else balanceDeleteEnd tree node

/-- `rb_balance_delete`. -/
def rbBalanceDelete (node parent : Option Nat) : Except Fault (RbTree V) :=
  balanceDeleteLoop tree.rounds tree node parent

/-! ## The operations -/

/-- The loop of `rbtree_insert`: the last node, the last comparison, or `none` for a key that is
there. -/
def insertLoop (key : List Char) :
    Nat → Option Nat → Option Nat → Int → Except Fault (Option (Option Nat × Int))
  | 0, _, _, _ => .error .unfinished
  | fuel + 1, t, parent, cmp =>
    if t = none then .ok (some (parent, cmp))
    else do
      let n ← tree.deref t
      let cmp := strcmp key n.key
      if cmp = 0 then pure none
      else insertLoop key fuel (if cmp < 0 then n.left else n.right) t cmp

/-- The new node goes below the last one, or to the root. -/
def linkNode (parent : Option Nat) (cmp : Int) (node : Option Nat) :
    Except Fault (RbTree V) :=
  if parent = none then .ok { tree with root := node }
  else if cmp < 0 then tree.store parent (RbNode.setChild .left node)
  else tree.store parent (RbNode.setChild .right node)

/-- `rbtree_insert`: the new node, or NULL for a key that is there. -/
def rbtreeInsert (key : List Char) (value : Option V) :
    Except Fault (RbTree V × Option Nat) := do
  let (tree, node) := tree.rbInit key value
  let place ← tree.insertLoop key tree.rounds tree.root none 0
  match place with
  | none => do
      let tree ← tree.free node
      pure (tree, none)
  | some (parent, cmp) => do
      let tree ← tree.linkNode parent cmp node
      let tree ← tree.store node (RbNode.setParent parent)
      let tree ← tree.rbBalanceInsert node
      pure (tree, node)

/-- The call of `tree->dispose`. -/
def disposeValue (value : Option V) : RbTree V :=
  match value with
  | none => tree
  | some v => if tree.dispose then { tree with disposed := tree.disposed ++ [v] } else tree

/-- `rbtree_replace`. -/
def rbtreeReplace (key : List Char) (value : Option V) :
    Except Fault (RbTree V × Option V) := do
  let node ← tree.rbGet tree.root key
  if node = none then pure (tree, none)
  else do
    let n ← tree.deref node
    let tree := tree.disposeValue n.value
    let tree ← tree.store node fun n => { n with value := value }
    pure (tree, value)

/-- `rbtree_get`. -/
def rbtreeGet (key : List Char) : Except Fault (Option V) := do
  let node ← tree.rbGet tree.root key
  if node = none then pure none else (tree.deref node).map fun n => n.value

/-- The node that is taken out: the one with the key, or its successor if it has two children. -/
def successor (node : Option Nat) : Except Fault (Option Nat) := do
  let n ← tree.deref node
  if n.left ≠ none ∧ n.right ≠ none then tree.rbMin n.right else pure node

/-- Copy the successor into the node. -/
def copySuccessor (node s : Option Nat) : Except Fault (RbTree V) :=
  if node ≠ s then do
    let sn ← tree.deref s
    tree.store node fun n => { n with key := sn.key, value := sn.value }
  else .ok tree

/-- The tree is out of balance if the node that was taken out is black. -/
def balanceAfter (sn : RbNode V) (t : Option Nat) : Except Fault (RbTree V) :=
  if sn.color = .black then tree.rbBalanceDelete t sn.parent else .ok tree

/-- `rbtree_delete`. -/
def rbtreeDelete (key : List Char) : Except Fault (RbTree V × Int) := do
  let node ← tree.rbGet tree.root key
  if node = none then pure (tree, 0)
  else do
    let s ← tree.successor node
    let sn ← tree.deref s
    let t := if sn.left ≠ none then sn.left else sn.right
    let tree ← tree.replaceChild sn.parent s t
    let tree ← tree.setParentOf t sn.parent
    let n ← tree.deref node
    let tree := tree.disposeValue n.value
    let tree ← tree.copySuccessor node s
    let sn ← tree.deref s
    let tree ← tree.balanceAfter sn t
    let tree ← tree.free s
    pure (tree, 1)

end RbTree

end WazAISentinel.Shared
