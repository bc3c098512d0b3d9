import Mathlib

/-!
# Red-black trees

The model of `lib/rbtree.c`, on nodes that are given by numbers. Directions are `false` for `RB_LEFT` and `true` for
`RB_RIGHT`. A function returns `none` where the code follows a `NULL` pointer, or has not come to its end after the number of
turns it was given.
-/

namespace OpenLsd

inductive RbColor where
  | black
  | red
  deriving DecidableEq, Repr

structure RbNode where
  parent : Option Nat
  child : Bool → Option Nat
  color : RbColor

/-- The node that `memset` leaves. -/
def RbNode.zero : RbNode where
  parent := none
  child := fun _ => none
  color := .black

structure RbTree where
  node : Nat → RbNode
  root : Option Nat

namespace RbTree

def setNode (s : RbTree) (p : Nat) (n : RbNode) : RbTree := { s with node := fun q => if q = p then n else s.node q }

def setParent (s : RbTree) (p : Nat) (parent : Option Nat) : RbTree := s.setNode p { s.node p with parent := parent }

def setChild (s : RbTree) (p : Nat) (dir : Bool) (child : Option Nat) : RbTree :=
  s.setNode p { s.node p with child := fun d => if d = dir then child else (s.node p).child d }

def setColor (s : RbTree) (p : Nat) (color : RbColor) : RbTree := s.setNode p { s.node p with color := color }

/-- `if (p) p->parent = parent`. -/
def setParent? (s : RbTree) (p parent : Option Nat) : RbTree :=
  match p with
  | some p => s.setParent p parent
  | none => s

/-- Puts `new` where the parent, or the root, has `old`. -/
def relink (s : RbTree) (parent : Option Nat) (old : Nat) (new : Option Nat) : RbTree :=
  match parent with
  | some q => s.setChild q (decide ((s.node q).child true = some old)) new
  | none => { s with root := new }

def rotateNode (s : RbTree) (node : Nat) (dir : Bool) : Option RbTree := do
  let parent := (s.node node).parent
  let child ← (s.node node).child (!dir)
  let inner := (s.node child).child dir
  let s := s.setChild node (!dir) inner
  let s := s.setParent? inner (some node)
  let s := s.setChild child dir (some node)
  let s := s.setParent child parent
  let s := s.relink parent node (some child)
  return s.setParent node (some child)

/-- `get_outermost` of a node that is not `NULL`. -/
def getOutermost : Nat → RbTree → Nat → Bool → Option Nat
  | 0, _, _, _ => none
  | n + 1, s, node, dir =>
    match (s.node node).child dir with
    | some child => getOutermost n s child dir
    | none => some node

def isRed (s : RbTree) : Option Nat → Bool
  | some p => (s.node p).color = .red
  | none => false

/-! ## Insertion -/

/-- The first rotation of a turn of `rb_balance`: an inner grandchild changes places with its parent. -/
def straighten (s : RbTree) (node parent : Nat) (dir : Bool) : Option (RbTree × Nat × Nat) :=
  if (s.node parent).child dir = some node then do
    let s ← s.rotateNode parent (!dir)
    let parent' ← (s.node parent).parent
    return (s, parent, parent')
  else some (s, node, parent)

/-- The loop of `rb_balance`. -/
def balanceLoop : Nat → RbTree → Nat → Option RbTree
  | 0, _, _ => none
  | n + 1, s, node =>
    match (s.node node).parent with
    | none => some s
    | some parent =>
      if (s.node parent).color = .black then some s
      else do
        let grandparent ← (s.node parent).parent
        let dir := decide ((s.node grandparent).child false = some parent)
        match (s.node grandparent).child dir, s.isRed ((s.node grandparent).child dir) with
        | some uncle, true =>
          let s := ((s.setColor parent .black).setColor uncle .black).setColor grandparent .red
          balanceLoop n s grandparent
        | _, _ =>
          let (s, node, parent) ← s.straighten node parent dir
          let s := (s.setColor parent .black).setColor grandparent .red
          let s ← s.rotateNode grandparent dir
          balanceLoop n s node

/-- Balances the tree after the insertion of the node. -/
def rbBalance (fuel : Nat) (s : RbTree) (node : Nat) : Option RbTree := do
  let s ← balanceLoop fuel (s.setColor node .red) node
  let root ← s.root
  return s.setColor root .black

/-! ## Removal -/

/-- The end of `do_remove`: `child` takes the place of the node, which is cleared. -/
def detach (s : RbTree) (node : Nat) (parent child : Option Nat) : RbTree :=
  ((s.relink parent node child).setParent? child parent).setNode node .zero

/-- `do_remove`, which calls itself once, for a node without a right child. -/
def doRemove : Nat → RbTree → Nat → Option RbTree
  | 0, _, _ => none
  | n + 1, s, node =>
    let parent := (s.node node).parent
    match (s.node node).child false, (s.node node).child true with
    | some left, some _ => do
      let child ← s.getOutermost n left true
      let s ← doRemove n s child
      let s := s.setChild child false ((s.node node).child false)
      let s := s.setParent? ((s.node node).child false) (some child)
      let s := s.setChild child true ((s.node node).child true)
      let s := s.setParent? ((s.node node).child true) (some child)
      return s.detach node parent (some child)
    | some left, none => some (s.detach node parent (some left))
    | none, right => some (s.detach node parent right)

/-- How a turn of the loop of `rb_remove` ends: the loop is left, or goes on with another node. -/
inductive Turn where
  | stop (s : RbTree) (node : Nat)
  | next (s : RbTree) (node : Nat)

/-- The rest of a turn once the far child of the sibling is red, or has been made so. -/
def lastRotation (s : RbTree) (parent sibling : Nat) (dir : Bool) : Option Turn := do
  let s := s.setColor sibling (s.node parent).color
  let s := s.setColor parent .black
  let far ← (s.node sibling).child dir
  let s := s.setColor far .black
  let s ← s.rotateNode parent (!dir)
  let root ← s.root
  return .next s root

/-- A turn of the loop of `rb_remove` whose sibling is black. The rotation of the third case turns the parent of the node,
not the sibling. -/
def blackSibling (s : RbTree) (node parent sibling : Nat) (dir : Bool) : Option Turn := do
  if !s.isRed ((s.node sibling).child (!dir)) ∧ !s.isRed ((s.node sibling).child dir) then
    return .next (s.setColor sibling .red) parent
  else if s.isRed ((s.node sibling).child dir) then lastRotation s parent sibling dir
  else
    let s := s.setColor sibling .red
    let s := match (s.node sibling).child (!dir) with
      | some near => s.setColor near .black
      | none => s
    let s ← s.rotateNode parent dir
    match (s.node node).parent with
    | none => return .stop s node
    | some parent =>
      match (s.node parent).child dir with
      | none => return .stop s node
      | some sibling => lastRotation s parent sibling dir

/-- A turn of the loop of `rb_remove` for a node with a parent. -/
def removeTurn (s : RbTree) (node parent : Nat) : Option Turn := do
  let dir := decide ((s.node parent).child false = some node)
  match (s.node parent).child dir with
  | none => return .stop s node
  | some sibling =>
    if (s.node sibling).color = .red then
      let s := (s.setColor parent .red).setColor sibling .black
      let s ← s.rotateNode parent (!dir)
      let parent ← (s.node node).parent
      let sibling ← (s.node parent).child dir
      blackSibling s node parent sibling dir
    else blackSibling s node parent sibling dir

def removeLoop : Nat → RbTree → Nat → Option RbTree
  | 0, _, _ => none
  | n + 1, s, node =>
    match (s.node node).parent with
    | none => some (s.setColor node .black)
    | some parent => do
      match ← s.removeTurn node parent with
      | .stop s node => return s.setColor node .black
      | .next s node => removeLoop n s node

def rbRemove (fuel : Nat) (s : RbTree) (node : Nat) : Option RbTree := do
  let childDir := (s.node node).child false |>.isNone
  let child := (s.node node).child childDir
  let other := (s.node node).child (!childDir)
  let s ← s.doRemove fuel node
  if child = none ∧ other = none then return s
  -- The node has been cleared, so its color is not the one it had in the tree.
  if (s.node node).color = .red then return s
  let node ← child
  if (s.node node).color = .red then return s.setColor node .black
  removeLoop fuel s node

end RbTree

end OpenLsd
