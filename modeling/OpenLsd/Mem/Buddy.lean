import Mathlib

/-!
# Physical memory and the buddy allocator

The model of `kernel/mem/buddy.c`. A frame is named by its index in the `pages` array (a physical address is the index
shifted by `PAGE_TABLE_SHIFT`), and `struct page_info` is a record under that index. The intrusive lists are lists of
frames: an embedded node is in a list exactly when its frame is a member, and `list_del` takes the frame out of whichever
list holds it. The bytes of a frame are read and written through the kernel's direct map (`page2kva`), so they are a
function of the frame and of the offset. The locks are left out: they order CPUs and compute nothing.
-/

namespace OpenLsd

/-- The buddy order of a 4K page and of a 2M page. -/
def BUDDY_4K_PAGE : Nat := 0
def BUDDY_2M_PAGE : Nat := 9

/-- Buddy orders go from 0 to `BUDDY_MAX_ORDER - 1`. -/
def BUDDY_MAX_ORDER : Nat := BUDDY_2M_PAGE + 1

def PAGE_SIZE : Nat := 4096

/-- The flags of `page_alloc`, by the bit that holds each. -/
def ALLOC_ZERO : Nat := 1 <<< 0
def ALLOC_HUGE : Nat := 1 <<< 1

/-- `struct page_info`. The list nodes are not fields: see `Phys.buddyFreeList` and `Phys.activePages`. -/
@[ext] structure PageInfo where
  /-- The reference count, a `uint16_t`. -/
  ppRef : Nat
  ppOrder : Nat
  ppFree : Bool
  ppAvail : Bool
  virtAddr : Nat
  /-- The pid of the owning task. -/
  owner : Option Nat
  deriving DecidableEq, Repr

/-- What the code of page tables uses of the CPU and of the tasks. The allocator never looks at it. -/
structure Cpu where
  /-- The pid of `cur_task`. -/
  curTask : Option Nat := none
  /-- The physical address of the PML4 that is loaded. -/
  cr3 : Nat := 0
  /-- The address of the PML4 of each task. -/
  taskPml4 : Nat → Nat := fun _ => 0
  /-- The resident set size of each task, a `size_t`. -/
  taskRss : Nat → Nat := fun _ => 0
  /-- The addresses that were given to `flush_page`, in order. -/
  flushed : List Nat := []

/-- The frames of the machine with their metadata, the free lists by order, the list of tracked pages, the bytes of each
frame, and the CPU. -/
@[ext] structure Phys where
  npages : Nat
  pages : Nat → PageInfo
  buddyFreeList : Nat → List Nat
  activePages : List Nat
  bytes : Nat → Nat → UInt8
  cpu : Cpu := {}

namespace Phys

/-- A write to the fields of one `struct page_info`. -/
@[simps -fullyApplied npages buddyFreeList activePages bytes cpu]
def modifyPage (m : Phys) (p : Nat) (f : PageInfo → PageInfo) : Phys :=
  { m with pages := Function.update m.pages p (f (m.pages p)) }

@[simps! -fullyApplied npages buddyFreeList activePages bytes cpu]
def setRef (m : Phys) (p r : Nat) : Phys := m.modifyPage p (fun i => { i with ppRef := r })

@[simps! -fullyApplied npages buddyFreeList activePages bytes cpu]
def setOrder (m : Phys) (p k : Nat) : Phys := m.modifyPage p (fun i => { i with ppOrder := k })

@[simps! -fullyApplied npages buddyFreeList activePages bytes cpu]
def setFree (m : Phys) (p : Nat) (b : Bool) : Phys := m.modifyPage p (fun i => { i with ppFree := b })

/-- `list_del(&pp->pp_node)`. -/
@[simps -fullyApplied npages pages activePages bytes cpu]
def listDel (m : Phys) (p : Nat) : Phys :=
  { m with buddyFreeList := fun k => (m.buddyFreeList k).erase p }

/-- `list_add_tail(&buddy_free_list[k], &pp->pp_node)`. -/
@[simps -fullyApplied npages pages activePages bytes cpu]
def listAddTail (m : Phys) (k p : Nat) : Phys :=
  { m with buddyFreeList := Function.update m.buddyFreeList k (m.buddyFreeList k ++ [p]) }

/-- `memset(page2kva(pp), 0, n * PAGE_SIZE)`. -/
@[simps -fullyApplied npages pages buddyFreeList activePages cpu]
def clearFrames (m : Phys) (p n : Nat) : Phys :=
  { m with bytes := fun f o => if p ≤ f ∧ f < p + n then 0 else m.bytes f o }

/-- `memcpy(page2kva(dst), page2kva(src), n * PAGE_SIZE)`. -/
@[simps -fullyApplied npages pages buddyFreeList activePages cpu]
def copyFrames (m : Phys) (dst src n : Nat) : Phys :=
  { m with bytes := fun f o => if dst ≤ f ∧ f < dst + n then m.bytes (src + (f - dst)) o else m.bytes f o }

/-! ### What a write leaves alone -/

section

variable (m : Phys)

include m

theorem modifyPage_pages (p : Nat) (f : PageInfo → PageInfo) (q : Nat) :
    (m.modifyPage p f).pages q = if q = p then f (m.pages q) else m.pages q := by
  by_cases hq : q = p
  · subst hq
    simp [modifyPage]
  · simp [modifyPage, hq]

@[simp] theorem setRef_pages (p r : Nat) (q : Nat) :
    (m.setRef p r).pages q = { m.pages q with ppRef := if q = p then r else (m.pages q).ppRef } := by
  rw [setRef, modifyPage_pages]
  split <;> rfl

@[simp] theorem setOrder_pages (p k : Nat) (q : Nat) :
    (m.setOrder p k).pages q = { m.pages q with ppOrder := if q = p then k else (m.pages q).ppOrder } := by
  rw [setOrder, modifyPage_pages]
  split <;> rfl

@[simp] theorem setFree_pages (p : Nat) (b : Bool) (q : Nat) :
    (m.setFree p b).pages q = { m.pages q with ppFree := if q = p then b else (m.pages q).ppFree } := by
  rw [setFree, modifyPage_pages]
  split <;> rfl

@[simp] theorem listDel_buddyFreeList (p k : Nat) : (m.listDel p).buddyFreeList k = (m.buddyFreeList k).erase p := rfl

@[simp] theorem listAddTail_buddyFreeList (k p j : Nat) :
    (m.listAddTail k p).buddyFreeList j = if j = k then m.buddyFreeList j ++ [p] else m.buddyFreeList j := by
  by_cases hj : j = k
  · subst hj
    simp [listAddTail]
  · simp [listAddTail, hj]

end

/-- Counts the number of free pages for the given order. -/
def countFreePages (m : Phys) (order : Nat) : Nat :=
  if order ≥ BUDDY_MAX_ORDER then 0 else (m.buddyFreeList order).length

/-- Gets the total amount of free pages. -/
def countTotalFreePages (m : Phys) : Nat :=
  (List.range BUDDY_MAX_ORDER).foldl (fun nfree order => nfree + m.countFreePages order * (1 <<< order)) 0

/-! ## Splitting -/

/-- One turn of the loop of `buddy_split`: the upper half of `lhs` becomes a free block of the order below. -/
def splitStep (m : Phys) (lhs : Nat) : Phys :=
  let order := (m.pages lhs).ppOrder - 1
  let buddy := lhs ^^^ (1 <<< order)
  (((m.setOrder lhs order).setOrder buddy order).setFree buddy true).listAddTail order buddy

/-- The loop of `buddy_split`. A turn takes one from the order of `lhs`, so the order bounds the number of turns. -/
def splitLoop (reqOrder : Nat) : Nat → Phys → Nat → Phys
  | 0, m, _ => m
  | n + 1, m, lhs =>
    if (m.pages lhs).ppOrder > reqOrder then splitLoop reqOrder n (m.splitStep lhs) lhs else m

/-- Splits `lhs` into free pages until its order is the requested one. -/
def buddySplit (m : Phys) (lhs reqOrder : Nat) : Phys :=
  (splitLoop reqOrder (m.pages lhs).ppOrder m lhs).setFree lhs false

/-! ## Merging -/

/-- The buddy that a turn of `buddy_merge` joins with the page, if the turn does not leave the loop. -/
def mergeable (m : Phys) (page : Nat) : Option Nat :=
  let order := (m.pages page).ppOrder
  let buddy := page ^^^ (1 <<< order)
  let info := m.pages buddy
  if order < BUDDY_MAX_ORDER - 1 then
    if info.ppAvail = false ∨ info.ppRef > 0 then none
    else if info.ppFree = false ∨ info.ppOrder ≠ order then none
    else some buddy
  else none

/-- One turn of the loop of `buddy_merge` with a buddy that can be joined: the lower of the two is the page from now on.
The turn clears `pp_free` of the upper one only, so the page that goes on may still carry the flag. -/
def mergeStep (m : Phys) (page buddy : Nat) : Phys × Nat :=
  let m := m.listDel buddy
  let (page, buddy) := if page > buddy then (buddy, page) else (page, buddy)
  let m := m.setFree buddy false
  (m.setOrder page ((m.pages page).ppOrder + 1), page)

/-- The loop of `buddy_merge`. A turn adds one to the order of the page, which stays below `BUDDY_MAX_ORDER`. -/
def mergeLoop : Nat → Phys → Nat → Phys × Nat
  | 0, m, page => (m, page)
  | n + 1, m, page =>
    match m.mergeable page with
    | none => (m, page)
    | some buddy =>
      let (m, page) := m.mergeStep page buddy
      mergeLoop n m page

/-- Merges the page with its buddies as long as they are free and of the same order. Returns the largest merged page. -/
def buddyMerge (m : Phys) (page : Nat) : Phys × Nat := mergeLoop BUDDY_MAX_ORDER m page

/-! ## Allocating and freeing -/

/-- The loop of `buddy_find`, with the number of orders that are left. -/
def findLoop (reqOrder : Nat) : Nat → Nat → Phys → Option Nat × Phys
  | 0, _, m => (none, m)
  | n + 1, order, m =>
    match m.buddyFreeList order with
    | [] => findLoop reqOrder n (order + 1) m
    | page :: _ => (some page, (m.listDel page).buddySplit page reqOrder)

/-- Finds a page of the requested order or splits a larger one down to it. -/
def buddyFind (m : Phys) (reqOrder : Nat) : Option Nat × Phys :=
  findLoop reqOrder (BUDDY_MAX_ORDER - reqOrder) reqOrder m

/-- The order `page_alloc` asks for. -/
def reqOrder (allocFlags : Nat) : Nat :=
  if allocFlags &&& ALLOC_HUGE ≠ 0 then BUDDY_2M_PAGE else BUDDY_4K_PAGE

/-- The end of `page_alloc`: the page is zeroed on request, and the tracking fields get safe defaults. -/
def initPage (m : Phys) (allocFlags page : Nat) : Phys :=
  let m := if allocFlags &&& ALLOC_ZERO ≠ 0 then m.clearFrames page (1 <<< reqOrder allocFlags) else m
  m.modifyPage page (fun i => { i with virtAddr := 0, owner := none })

/-- Allocates a physical page. -/
def pageAlloc (m : Phys) (allocFlags : Nat) : Option Nat × Phys :=
  let req := reqOrder allocFlags
  if req ≥ BUDDY_MAX_ORDER then (none, m) else
  match m.buddyFind req with
  | (none, m) => (none, m)
  | (some page, m) => (some page, m.initPage allocFlags page)

/-- Returns a page to the free list. -/
def pageFree (m : Phys) (pp : Nat) : Phys :=
  let m := { m with activePages := m.activePages.erase pp }
  let (m, pp) := m.buddyMerge pp
  let m := m.setFree pp true
  m.listAddTail (m.pages pp).ppOrder pp

/-- Decrements the reference count of a page and frees the page when no reference is left. The assertion of the source
fails when there was none. -/
def pageDecref (m : Phys) (pp : Nat) : Option Phys :=
  if (m.pages pp).ppRef > 0 then
    let m := m.setRef pp ((m.pages pp).ppRef - 1)
    some (if (m.pages pp).ppRef = 0 then m.pageFree pp else m)
  else none

end Phys

end OpenLsd
