import OpenLsd.Mem.Addr

/-!
# Moving the array of pages

The model of `buddy_migrate` in `kernel/mem/buddy.c`. Here a `struct list` is what it is in memory, a pair of addresses: the array
`pages` and the heads of the free lists have addresses, and the nodes of a page lie at fixed places in its record. The array is
mapped at both of its addresses, so that the move leaves the records where they are.
-/

namespace OpenLsd

/-- `sizeof(struct page_info)` and `sizeof(struct list)`. -/
def PAGE_INFO_SIZE : Nat := 64
def LIST_SIZE : Nat := 16

/-- Where `active_node` is in a `struct page_info`, which begins with `pp_node`. -/
def ACTIVE_NODE_OFF : Nat := 48

/-- `struct list`. -/
structure ListNode where
  next : Nat
  prev : Nat

/-- The node at the address is in no list: it refers to itself. -/
def ListNode.Unlinked (n : ListNode) (a : Nat) : Prop := n.next = a ∧ n.prev = a

/-- The lists of the buddy allocator in memory. -/
structure PageLists where
  pages : Nat
  npages : Nat
  ppNode : Nat → ListNode
  activeNode : Nat → ListNode
  /-- The address of the array of heads, and the heads. -/
  heads : Nat
  buddyFreeList : Nat → ListNode

namespace PageLists

def headAddr (s : PageLists) (order : Nat) : Nat := s.heads + LIST_SIZE * order

def ppAddr (s : PageLists) (i : Nat) : Nat := s.pages + PAGE_INFO_SIZE * i

def activeAddr (s : PageLists) (i : Nat) : Nat := s.ppAddr i + ACTIVE_NODE_OFF

def inPageRange (s : PageLists) (p : Nat) : Prop := s.pages ≤ p ∧ p < s.pages + PAGE_INFO_SIZE * s.npages

instance (s : PageLists) (p : Nat) : Decidable (s.inPageRange p) :=
  inferInstanceAs (Decidable (s.pages ≤ p ∧ p < s.pages + PAGE_INFO_SIZE * s.npages))

def updatePtr (s : PageLists) (p : Nat) : Nat := if s.inPageRange p then sub64 (add64 p KPAGES) s.pages else p

/-- The two assignments to a node. -/
def updateNode (s : PageLists) (n : ListNode) : ListNode := ⟨s.updatePtr n.next, s.updatePtr n.prev⟩

/-- Turns the pointers into the array into pointers to its new place. -/
def buddyMigrate (s : PageLists) : PageLists :=
  { s with
    ppNode := fun i => if i < s.npages then s.updateNode (s.ppNode i) else s.ppNode i
    buddyFreeList := fun order =>
      if order < BUDDY_MAX_ORDER then s.updateNode (s.buddyFreeList order) else s.buddyFreeList order
    pages := KPAGES }

/-- The index of the page whose `pp_node` is at the address. -/
def index (s : PageLists) (a : Nat) : Nat := (a - s.pages) / PAGE_INFO_SIZE

/-- `list_foreach` over a free list from the node at `a` on, for `n` turns at most: the pages that it comes to. -/
def traverse (s : PageLists) (order : Nat) : Nat → Nat → List Nat
  | 0, _ => []
  | n + 1, a => if a = s.headAddr order then [] else s.index a :: s.traverse order n (s.ppNode (s.index a)).next

/-- The pages of a free list. -/
def freePages (s : PageLists) (order n : Nat) : List Nat := s.traverse order n (s.buddyFreeList order).next

end PageLists

end OpenLsd
