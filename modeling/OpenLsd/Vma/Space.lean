import OpenLsd.Lib.PtrTree
import OpenLsd.Mem.Addr
import OpenLsd.Vma.RbTree

/-!
# The memory areas of a task

The model of `kernel/vma/find.c`, `insert.c`, `merge.c`, `remove.c` and `split.c`, as far as the areas themselves go: the
red-black tree `task_rb` and the sorted list `task_mmap`, over records that are given by numbers. Addresses are 64-bit values,
and sums of them wrap. What `kmalloc` gives out is zero, as is what `kfree` has taken back.

Loops over the tree get as many turns as there are areas in the list. `rb_remove` is given its number of turns by the caller:
it may follow a `NULL` pointer, and then the whole operation is `none`.
-/

namespace OpenLsd

/-- `struct vma`, without the links. -/
structure Vma where
  vmName : String
  vmBase : Nat
  vmEnd : Nat
  /-- The data that backs the area, `none` for `NULL`. -/
  vmSrc : Option Nat
  vmLen : Nat
  vmFlags : Nat
  deriving DecidableEq, Repr

def Vma.zero : Vma where
  vmName := ""
  vmBase := 0
  vmEnd := 0
  vmSrc := none
  vmLen := 0
  vmFlags := 0

/-- The areas of a task. -/
structure VmSpace where
  taskRb : RbTree
  taskMmap : List Nat
  vma : Nat → Vma
  /-- The number of the record that `kmalloc` gives out next. -/
  next : Nat

namespace VmSpace

def empty : VmSpace where
  taskRb := { node := fun _ => .zero, root := none }
  taskMmap := []
  vma := fun _ => .zero
  next := 0

def setVma (s : VmSpace) (p : Nat) (v : Vma) : VmSpace := { s with vma := fun q => if q = p then v else s.vma q }

/-- A record from `kmalloc`, with its links set up and its fields filled in. -/
def newVma (s : VmSpace) (v : Vma) : VmSpace :=
  { s.setVma s.next v with taskRb := s.taskRb.setNode s.next .zero, next := s.next + 1 }

def kfree (s : VmSpace) (p : Nat) : VmSpace := s.setVma p .zero

/-! ## Finding areas -/

/-- The loop of `find_vma`, with the area found so far. -/
def findLoop (s : VmSpace) (addr : Nat) : Nat → Option Nat → Option Nat → Option Nat
  | 0, _, found => found
  | _ + 1, none, found => found
  | n + 1, some node, found =>
    if addr ≥ (s.vma node).vmEnd then findLoop s addr n ((s.taskRb.node node).child true) found
    else if (s.vma node).vmBase ≤ addr then some node
    else findLoop s addr n ((s.taskRb.node node).child false) (some node)

/-- The area with the lowest end above the address. -/
def findVma (s : VmSpace) (addr : Nat) : Option Nat := s.findLoop addr s.taskMmap.length s.taskRb.root none

/-- The area that the address is in. -/
def taskFindVma (s : VmSpace) (addr : Nat) : Option Nat :=
  match s.findVma addr with
  | none => none
  | some p => if addr < (s.vma p).vmBase then none else some p

/-! ## Inserting areas -/

/-- The loop of `insert_vma`: the node that gets the area as its child, and the side. There is none when the area overlaps
another one. -/
def insertLoop (s : VmSpace) (vma : Vma) : Nat → Nat → Option (Nat × Bool)
  | 0, _ => none
  | n + 1, node =>
    let dir := decide (vma.vmBase ≥ (s.vma node).vmEnd)
    if !dir ∧ vma.vmEnd > (s.vma node).vmBase then none
    else match (s.taskRb.node node).child dir with
      | some child => insertLoop s vma n child
      | none => some (node, dir)

/-- `insert_vma`, with `false` for the result `-1`. -/
def insertVma (s : VmSpace) (p : Nat) : Option (Bool × VmSpace) := do
  match s.taskRb.root with
  | none =>
    let rb ← { s.taskRb with root := some p : RbTree }.rbBalance (s.taskMmap.length + 2) p
    return (true, { s with taskRb := rb, taskMmap := p :: s.taskMmap })
  | some root =>
    match s.insertLoop (s.vma p) s.taskMmap.length root with
    | none => return (false, s)
    | some (parent, dir) =>
      let rb ← ((s.taskRb.setChild parent dir (some p)).setParent p (some parent)).rbBalance (s.taskMmap.length + 2) p
      return (true, { s with taskRb := rb, taskMmap := PtrTree.Rooted.insertBeside dir parent p s.taskMmap })

/-! ## Removing and merging areas -/

def removeVma (fuel : Nat) (s : VmSpace) (p : Nat) : Option VmSpace := do
  let rb ← s.taskRb.rbRemove fuel p
  return { s with taskRb := rb.setNode p .zero, taskMmap := s.taskMmap.erase p }

/-- The areas are adjacent and alike. -/
def mergeable (lhs rhs : Vma) : Prop :=
  pageAligned lhs.vmBase ∧ pageAligned lhs.vmEnd ∧ pageAligned rhs.vmBase ∧ pageAligned rhs.vmEnd ∧
  lhs.vmEnd = rhs.vmBase ∧ lhs.vmFlags = rhs.vmFlags ∧ lhs.vmName = rhs.vmName ∧ lhs.vmSrc = rhs.vmSrc ∧
  lhs.vmLen = rhs.vmLen

instance (lhs rhs : Vma) : Decidable (mergeable lhs rhs) := by
  unfold mergeable
  infer_instance

/-- `merge_vma`, with `false` for the result `NULL`. -/
def mergeVma (fuel : Nat) (s : VmSpace) (lhs rhs : Nat) : Option (Bool × VmSpace) := do
  if mergeable (s.vma lhs) (s.vma rhs) then
    let s := s.setVma lhs { s.vma lhs with vmEnd := (s.vma rhs).vmEnd }
    let s ← s.removeVma fuel rhs
    return (true, s.kfree rhs)
  else return (false, s)

/-- The element after `p`. -/
def listNext (p : Nat) : List Nat → Option Nat
  | [] => none
  | x :: l => if x = p then l.head? else listNext p l

/-- The element before `p`. -/
def listPrev (p : Nat) : List Nat → Option Nat
  | [] => none
  | [_] => none
  | x :: y :: l => if y = p then some x else listPrev p (y :: l)

/-- The first half of `merge_vmas`: merging with the area before. -/
def mergePrev (fuel : Nat) (s : VmSpace) (p : Nat) : Option (Nat × VmSpace) := do
  match listPrev p s.taskMmap with
  | none => return (p, s)
  | some prev =>
    let (merged, s) ← s.mergeVma fuel prev p
    return (if merged then prev else p, s)

/-- The second half of `merge_vmas`: merging with the area after. -/
def mergeNext (fuel : Nat) (s : VmSpace) (p : Nat) : Option (Nat × VmSpace) := do
  match listNext p s.taskMmap with
  | none => return (p, s)
  | some next =>
    let (_, s) ← s.mergeVma fuel p next
    return (p, s)

/-- Merges the area with its neighbours, and returns what it has become. -/
def mergeVmas (fuel : Nat) (s : VmSpace) (p : Nat) : Option (Nat × VmSpace) := do
  let (p, s) ← s.mergePrev fuel p
  s.mergeNext fuel p

/-! ## Adding areas -/

/-- `add_executable_vma`. `enough` says whether `kmalloc` succeeds. If it does not, `kfree` is called with the `NULL` pointer, and
looks for the slab of the object in front of address zero. -/
def addExecutableVma (fuel : Nat) (enough : Bool) (s : VmSpace) (name : String) (addr size flags : Nat) (src : Option Nat)
    (len : Nat) : Option (Option Nat × VmSpace) := do
  if enough then
    let p := s.next
    let s := s.newVma { vmName := name, vmBase := addr, vmEnd := add64 addr size, vmSrc := src, vmLen := len, vmFlags := flags }
    let (inserted, s) ← s.insertVma p
    if inserted then
      let (p, s) ← s.mergeVmas fuel p
      return (some p, s)
    else return (none, s)
  else none

def addAnonymousVma (fuel : Nat) (enough : Bool) (s : VmSpace) (name : String) (addr size flags : Nat) :
    Option (Option Nat × VmSpace) :=
  s.addExecutableVma fuel enough name addr size flags none 0

/-! ## Splitting areas -/

/-- `split_vma`. When the new area cannot be inserted the old one stays short. -/
def splitVma (enough : Bool) (s : VmSpace) (lhs addr : Nat) : Option (Option Nat × VmSpace) := do
  if addr ≤ (s.vma lhs).vmBase ∨ addr ≥ (s.vma lhs).vmEnd then return (some lhs, s)
  else if enough then
    let l := s.vma lhs
    let rhs := s.next
    let s := s.newVma { l with vmBase := addr, vmLen := l.vmEnd - addr }
    let s := s.setVma lhs { l with vmEnd := addr, vmLen := addr - l.vmBase }
    let (inserted, s) ← s.insertVma rhs
    if inserted then return (some rhs, s)
    else return (none, s.kfree rhs)
  else return (none, s)

/-- The second half of `split_vmas`: what is behind `addr` is split off. -/
def splitEnd (enough : Bool) (s : VmSpace) (middle addr : Nat) : Option (Option Nat × VmSpace) := do
  if (s.vma middle).vmEnd > addr then
    let (rhs, s) ← s.splitVma enough middle addr
    return (rhs.map fun _ => middle, s)
  else return (some middle, s)

/-- Splits the area at both ends of the range, and returns the part within. -/
def splitVmas (enough : Bool × Bool) (s : VmSpace) (p base size : Nat) : Option (Option Nat × VmSpace) := do
  if (s.vma p).vmBase < base then
    let (middle, s) ← s.splitVma enough.1 p base
    match middle with
    | none => return (none, s)
    | some middle => s.splitEnd enough.2 middle (add64 base size)
  else s.splitEnd enough.2 p (add64 base size)

end VmSpace

end OpenLsd
