import OpenLsd.Mem.Addr

/-!
# Page tables

The model of `kernel/mem/walk.c`, `ptbl.c`, `populate.c`, `protect.c`, `remove.c`, `insert.c` and `lookup.c`. A page table is
the function of its entries, and an entry that refers to a table carries that table: `Branch` is an entry with what is below
it. What is below an entry that is not present, or that maps a huge page, means nothing. A callback of the walker acts on the
frames and on the entry it is called for. Addresses are translated through the page tables at every access, and what
`tlb_invalidate` flushes is only noted. The locks are left out, and a call that finds no memory stops with `oom` instead of
going on to kill a task.
-/

namespace OpenLsd

/-- Why the kernel does not get to the end of a call. -/
inductive Stop where
  /-- There is no memory for a page or an object. -/
  | oom
  /-- An assertion fails, and the kernel panics. -/
  | assertion
  /-- A reference count does not fit into 16 bits. -/
  | overflow
  /-- A page that is neither 4K nor 2M is inserted. -/
  | order
  /-- The kernel accesses memory that is not mapped, through a `NULL` pointer or in user space. -/
  | fault
  /-- The code of the red-black tree follows a `NULL` pointer or does not return. -/
  | rbTree
  /-- A loop does not come to its end within its turns. -/
  | loop
  /-- A callback of a walk returns a negative value. -/
  | code (r : Int)
  deriving DecidableEq, Repr

/-- A computation of the kernel. -/
abbrev Kernel := Except Stop

/-! ## Entries -/

/-- The flags that the functions below are given. -/
structure PageFlags where
  present : Bool
  write : Bool
  user : Bool
  noExec : Bool
  huge : Bool
  deriving DecidableEq, Repr

/-- An entry of a page table, with the frame that its address part names. -/
structure Entry where
  frame : Nat
  present : Bool
  write : Bool
  user : Bool
  noExec : Bool
  huge : Bool
  dirty : Bool
  deriving DecidableEq, Repr

instance : Zero Entry := ⟨⟨0, false, false, false, false, false, false⟩⟩

/-- `page2pa(page) | flags`. -/
def PageFlags.entry (flags : PageFlags) (page : Nat) : Entry where
  frame := page
  present := flags.present
  write := flags.write
  user := flags.user
  noExec := flags.noExec
  huge := flags.huge
  dirty := false

/-- `*entry & PAGE_UMASK`. -/
def Entry.umask (e : Entry) : PageFlags where
  present := e.present
  write := e.write
  user := e.user
  noExec := e.noExec
  huge := false

/-- `(*entry & ~PAGE_UMASK) | flags`. -/
def Entry.protect (e : Entry) (flags : PageFlags) : Entry where
  frame := e.frame
  present := flags.present
  write := flags.write
  user := flags.user
  noExec := flags.noExec
  huge := e.huge || flags.huge
  dirty := e.dirty

/-- The entry for a page table. -/
def tableEntry (page : Nat) : Entry :=
  PageFlags.entry { present := true, write := true, user := true, noExec := false, huge := false } page

/-- An entry with the table it refers to. -/
structure Branch (C : Type) where
  entry : Entry
  child : Nat → C

instance {C : Type} [Zero C] : Zero (Branch C) := ⟨⟨0, fun _ => 0⟩⟩

abbrev Pde := Branch Entry
abbrev Pdpte := Branch Pde
abbrev Pml4e := Branch Pdpte

/-- A PML4. The entries from 256 on map the kernel half. -/
abbrev Pml4 := Nat → Pml4e

/-- What has an entry of its own. -/
class HasEntry (C : Type) where
  entryOf : C → Entry

instance : HasEntry Entry := ⟨id⟩
instance {C : Type} : HasEntry (Branch C) := ⟨Branch.entry⟩

/-! ## Frames -/

namespace Phys

/-- `page_alloc` for a page that the caller cannot do without. -/
def allocPage (m : Phys) (allocFlags : Nat) : Kernel (Nat × Phys) :=
  match m.pageAlloc allocFlags with
  | (some page, m) => .ok (page, m)
  | (none, _) => .error .oom

/-- `page->pp_ref++`. -/
def incRef (m : Phys) (page : Nat) : Kernel Phys :=
  if (m.pages page).ppRef + 1 < 2 ^ 16 then .ok (m.setRef page ((m.pages page).ppRef + 1)) else .error .overflow

/-- `page_decref`, with the panic of its assertion. -/
def decref (m : Phys) (page : Nat) : Kernel Phys :=
  match m.pageDecref page with
  | some m => .ok m
  | none => .error .assertion

/-- The end of `populate_pte`: the page is tracked as active, with its address and its owner. -/
def track (m : Phys) (page addr : Nat) : Phys :=
  let m := m.modifyPage page fun i => { i with virtAddr := roundDown addr, owner := m.cpu.curTask }
  { m with activePages := m.activePages ++ [page] }

/-- `cur_task->task_rss += n`, if there is a current task. -/
def charge (m : Phys) (n : Nat) : Phys :=
  match m.cpu.curTask with
  | none => m
  | some pid =>
    { m with cpu := { m.cpu with taskRss := Function.update m.cpu.taskRss pid (add64 (m.cpu.taskRss pid) n) } }

/-- `cur_task->task_rss -= n`, if there is a current task. -/
def uncharge (m : Phys) (n : Nat) : Phys :=
  match m.cpu.curTask with
  | none => m
  | some pid =>
    { m with cpu := { m.cpu with taskRss := Function.update m.cpu.taskRss pid (sub64 (m.cpu.taskRss pid) n) } }

/-- `tlb_invalidate`: the address is flushed if the PML4 is the loaded one. -/
def tlbInvalidate (m : Phys) (pml4 va : Nat) : Phys :=
  if pml4 = KADDR m.cpu.cr3 then { m with cpu := { m.cpu with flushed := m.cpu.flushed ++ [va] } } else m

/-- `tlb_invalidate(cur_task->task_pml4, va)`. -/
def tlbInvalidateCur (m : Phys) (va : Nat) : Kernel Phys :=
  match m.cpu.curTask with
  | none => .error .fault
  | some pid => .ok (m.tlbInvalidate (m.cpu.taskPml4 pid) va)

end Phys

/-! ## The walker -/

/-- The callbacks of a walk, over a state of any kind: each gets the boundaries of what its entry maps. One that the source
does not set keeps everything as it is. -/
structure Walker (σ : Type) where
  pteCallback : Nat → Nat → σ → Entry → Kernel (σ × Entry) := fun _ _ s e => .ok (s, e)
  pdeCallback : Nat → Nat → σ → Pde → Kernel (σ × Pde) := fun _ _ s e => .ok (s, e)
  pdpteCallback : Nat → Nat → σ → Pdpte → Kernel (σ × Pdpte) := fun _ _ s e => .ok (s, e)
  pml4eCallback : Nat → Nat → σ → Pml4e → Kernel (σ × Pml4e) := fun _ _ s e => .ok (s, e)
  pdeUnmap : Nat → Nat → σ → Pde → Kernel (σ × Pde) := fun _ _ s e => .ok (s, e)
  pdpteUnmap : Nat → Nat → σ → Pdpte → Kernel (σ × Pdpte) := fun _ _ s e => .ok (s, e)
  pml4eUnmap : Nat → Nat → σ → Pml4e → Kernel (σ × Pml4e) := fun _ _ s e => .ok (s, e)
  ptHoleCallback : Nat → Nat → σ → Kernel σ := fun _ _ s => .ok s

section Walk

variable {σ : Type}

/-- The loop that the four walks share, over a table whose entries map `span` bytes each. No walk visits an entry twice, so
the number of entries bounds the number of turns. -/
def walkLoop {N : Type} (span : Nat) (visit : Nat → Nat → σ → N → Kernel (σ × N)) :
    Nat → Nat → Nat → σ → (Nat → N) → Kernel (σ × (Nat → N))
  | 0, base, last, s, t => if base ≤ last then .error .loop else .ok (s, t)
  | n + 1, base, last, s, t =>
    if base ≤ last then do
      let base := signExtend base
      let i := base / span % PAGE_TABLE_ENTRIES
      let (s, e) ← visit base last s (t i)
      let t := Function.update t i e
      let next := add64 (blockEnd span base) 1
      if next = 0 then .ok (s, t) else walkLoop span visit n next last s t
    else .ok (s, t)

def walkRange {N : Type} (span : Nat) (visit : Nat → Nat → σ → N → Kernel (σ × N)) (base last : Nat) (s : σ)
    (t : Nat → N) : Kernel (σ × (Nat → N)) :=
  walkLoop span visit PAGE_TABLE_ENTRIES (signExtend base) (signExtend last) s t

namespace Walker

/-- The call of `pt_hole_callback` for an entry that is not present. -/
def hole {N : Type} (w : Walker σ) (span base : Nat) (s : σ) (e : N) : Kernel (σ × N) := do
  let s ← w.ptHoleCallback (blockStart span base) (blockEnd span base) s
  .ok (s, e)

def visitPte (w : Walker σ) (base _last : Nat) (s : σ) (e : Entry) : Kernel (σ × Entry) := do
  let (s, e) ← w.pteCallback (blockStart PAGE_SIZE base) (blockEnd PAGE_SIZE base) s e
  if e.present then .ok (s, e) else w.hole PAGE_SIZE base s e

/-- `ptbl_walk_range`. -/
def ptblWalkRange (w : Walker σ) (base last : Nat) (s : σ) (t : Nat → Entry) : Kernel (σ × (Nat → Entry)) :=
  walkRange PAGE_SIZE w.visitPte base last s t

def visitPde (w : Walker σ) (base last : Nat) (s : σ) (e : Pde) : Kernel (σ × Pde) := do
  let (s, e) ← w.pdeCallback (blockStart PAGE_TABLE_SPAN base) (blockEnd PAGE_TABLE_SPAN base) s e
  if e.entry.present then
    if e.entry.huge then
      w.pdeUnmap (blockStart PAGE_TABLE_SPAN base) (blockEnd PAGE_TABLE_SPAN base) s e
    else
      let (s, t) ← w.ptblWalkRange base (min (blockEnd PAGE_TABLE_SPAN base) last) s e.child
      w.pdeUnmap (blockStart PAGE_TABLE_SPAN base) (blockEnd PAGE_TABLE_SPAN base) s { e with child := t }
  else w.hole PAGE_TABLE_SPAN base s e

/-- `pdir_walk_range`. -/
def pdirWalkRange (w : Walker σ) (base last : Nat) (s : σ) (t : Nat → Pde) : Kernel (σ × (Nat → Pde)) :=
  walkRange PAGE_TABLE_SPAN w.visitPde base last s t

/-- The end of the range that is passed to `pdpte_unmap` is clipped, unlike that of the other callbacks. -/
def visitPdpte (w : Walker σ) (base last : Nat) (s : σ) (e : Pdpte) : Kernel (σ × Pdpte) := do
  let (s, e) ← w.pdpteCallback (blockStart PAGE_DIR_SPAN base) (blockEnd PAGE_DIR_SPAN base) s e
  if e.entry.present then
    let (s, t) ← w.pdirWalkRange base (min (blockEnd PAGE_DIR_SPAN base) last) s e.child
    w.pdpteUnmap (blockStart PAGE_DIR_SPAN base) (min (blockEnd PAGE_DIR_SPAN base) last) s { e with child := t }
  else w.hole PAGE_DIR_SPAN base s e

/-- `pdpt_walk_range`. -/
def pdptWalkRange (w : Walker σ) (base last : Nat) (s : σ) (t : Nat → Pdpte) : Kernel (σ × (Nat → Pdpte)) :=
  walkRange PAGE_DIR_SPAN w.visitPdpte base last s t

def visitPml4e (w : Walker σ) (base last : Nat) (s : σ) (e : Pml4e) : Kernel (σ × Pml4e) := do
  let (s, e) ← w.pml4eCallback (blockStart PDPT_SPAN base) (blockEnd PDPT_SPAN base) s e
  if e.entry.present then
    let (s, t) ← w.pdptWalkRange base (min (blockEnd PDPT_SPAN base) last) s e.child
    w.pml4eUnmap (blockStart PDPT_SPAN base) (blockEnd PDPT_SPAN base) s { e with child := t }
  else w.hole PDPT_SPAN base s e

/-- `pml4_walk_range`. -/
def pml4WalkRange (w : Walker σ) (base last : Nat) (s : σ) (t : Pml4) : Kernel (σ × Pml4) :=
  walkRange PDPT_SPAN w.visitPml4e base last s t

/-- `walk_page_range`, from `base` to before `bound`. -/
def walkPageRange (w : Walker σ) (base bound : Nat) (s : σ) (t : Pml4) : Kernel (σ × Pml4) :=
  w.pml4WalkRange (roundDown base) (sub64 (roundUp bound) 1) s t

def walkUserPages (w : Walker σ) (s : σ) (t : Pml4) : Kernel (σ × Pml4) := w.pml4WalkRange 0 USER_LIM s t

end Walker

end Walk

/-- A loop over the `n` numbers from `i` on. -/
def forRange {S : Type} (f : Nat → S → Kernel S) : Nat → Nat → S → Kernel S
  | 0, _, s => .ok s
  | n + 1, i, s => do
    let s ← f i s
    forRange f n (i + 1) s

/-! ## Making, splitting, merging and freeing tables -/

/-- Allocates a page table if none is present for the entry. -/
def ptblAlloc {C : Type} [Zero C] (m : Phys) (e : Branch C) : Kernel (Phys × Branch C) := do
  if e.entry.present then .ok (m, e)
  else
    let (page, m) ← m.allocPage ALLOC_ZERO
    let m ← (m.charge 1).incRef page
    .ok (m, { entry := tableEntry page, child := fun _ => 0 })

/-- One turn of the loop of `ptbl_split`: entry `i` of the new table gets a copy of its part of the huge page. A part of a
huge page that the allocator does not manage is mapped as it is. -/
def splitEntry (staticallyMapped : Bool) (hugePage : Nat) (flags : PageFlags) (i : Nat) (s : Phys × (Nat → Entry)) :
    Kernel (Phys × (Nat → Entry)) := do
  if staticallyMapped then
    .ok (s.1, Function.update s.2 i (PageFlags.entry { flags with present := true } (hugePage + i)))
  else
    let (page, m) ← s.1.allocPage ALLOC_ZERO
    let m := (m.charge 1).copyFrames page (hugePage + i) 1
    let m := m.setRef page 1
    .ok (m, Function.update s.2 i (PageFlags.entry { flags with present := true } page))

/-- Splits up a huge page, or allocates a page table if no huge page is mapped. -/
def ptblSplit (m : Phys) (e : Pde) : Kernel (Phys × Pde) := do
  if e.entry.present = false ∨ e.entry.huge = false then ptblAlloc m e
  else
    let hugePage := e.entry.frame
    let (page, m) ← m.allocPage ALLOC_ZERO
    let m ← (m.charge 1).incRef page
    let staticallyMapped := (m.pages hugePage).ppFree = false ∧ (m.pages hugePage).ppRef = 0
    let (m, t) ← forRange (splitEntry staticallyMapped hugePage e.entry.umask) PAGE_TABLE_ENTRIES 0 (m, fun _ => 0)
    if staticallyMapped then .ok (m, { entry := tableEntry page, child := t })
    else
      let m ← m.decref hugePage
      .ok (m.uncharge PAGE_TABLE_ENTRIES, { entry := tableEntry page, child := t })

/-- All entries of the table are present and have the flags of the first. -/
def Mergeable (t : Nat → Entry) : Prop :=
  ∀ i < PAGE_TABLE_ENTRIES, (t i).present = true ∧ (t i).umask = (t 0).umask

instance (t : Nat → Entry) : Decidable (Mergeable t) := inferInstanceAs (Decidable (∀ i < PAGE_TABLE_ENTRIES, _ ∧ _))

/-- One turn of the loop of `ptbl_merge` that gives up the old pages. -/
def mergeEntry (t : Nat → Entry) (i : Nat) (m : Phys) : Kernel Phys := do
  let m ← m.decref (t i).frame
  .ok (m.uncharge 1)

/-- Merges the pages of a table into a huge page if they are all there with the same flags. What is passed to
`tlb_invalidate` is the physical address of the PML4. -/
def ptblMerge (base : Nat) (m : Phys) (e : Pde) : Kernel (Phys × Pde) := do
  if e.entry.present = false ∨ e.entry.huge = true then .ok (m, e)
  else if Mergeable e.child then
    let (hugePage, m) ← m.allocPage (ALLOC_HUGE ||| ALLOC_ZERO)
    let m ← (m.charge PAGE_TABLE_ENTRIES).incRef hugePage
    let m ← forRange (fun i m => .ok (m.copyFrames (hugePage + i) (e.child i).frame 1)) PAGE_TABLE_ENTRIES 0 m
    let m ← forRange (fun i m => .ok (m.tlbInvalidate m.cpu.cr3 (base + i * PAGE_SIZE))) PAGE_TABLE_ENTRIES 0 m
    let m ← forRange (mergeEntry e.child) PAGE_TABLE_ENTRIES 0 m
    let m ← m.decref e.entry.frame
    .ok (m, { e with entry := PageFlags.entry { (e.child 0).umask with present := true, huge := true } hugePage })
  else .ok (m, e)

/-- Frees the page table if no entry in it is present. -/
def ptblFree {C : Type} [HasEntry C] (m : Phys) (e : Branch C) : Kernel (Phys × Branch C) := do
  if e.entry.huge = true ∧ e.entry.present = false then .ok (m, e)
  else if ∃ i < PAGE_TABLE_ENTRIES, (HasEntry.entryOf (e.child i)).present = true then .ok (m, e)
  else
    let m ← (m.uncharge 1).decref e.entry.frame
    .ok (m, { e with entry := 0 })

/-! ## Populating -/

/-- `struct populate_info`. -/
structure PopulateInfo where
  flags : PageFlags
  base : Nat
  last : Nat

/-- A page is allocated where none is present, and one that is shared is copied. -/
def populatePte (info : PopulateInfo) (base : Nat) (m : Phys) (e : Entry) : Kernel (Phys × Entry) := do
  if e.present = true ∧ (m.pages e.frame).ppRef > 1 then
    let (newPage, m) ← m.allocPage ALLOC_ZERO
    let m ← (m.charge 1).decref e.frame
    let m ← m.incRef newPage
    let m ← ((m.copyFrames newPage e.frame 1).track newPage base).tlbInvalidateCur base
    .ok (m, PageFlags.entry { info.flags with present := true } newPage)
  else if e.present = true ∧ (m.pages e.frame).ppRef = 1 then .ok (m, e)
  else
    let (page, m) ← m.allocPage ALLOC_ZERO
    let m ← (m.charge 1).incRef page
    .ok (m.track page base, PageFlags.entry { info.flags with present := true } page)

/-- A shared huge page is copied, and a huge page is allocated where nothing is present if the range covers all of it. -/
def populatePde (info : PopulateInfo) (base last : Nat) (m : Phys) (e : Pde) : Kernel (Phys × Pde) := do
  if e.entry.present = true ∧ e.entry.huge = true ∧ (m.pages e.entry.frame).ppRef > 1 then
    let (newPage, m) ← m.allocPage (ALLOC_ZERO ||| ALLOC_HUGE)
    let m ← (m.charge PAGE_TABLE_ENTRIES).decref e.entry.frame
    let m ← m.incRef newPage
    let m ← (m.copyFrames newPage e.entry.frame PAGE_TABLE_ENTRIES).tlbInvalidateCur base
    .ok (m, { e with entry := PageFlags.entry { info.flags with present := true, huge := true } newPage })
  else if e.entry.present = true ∧ (m.pages e.entry.frame).ppRef = 1 then .ok (m, e)
  else if info.base ≤ base ∧ info.last ≥ last then
    let (page, m) ← m.allocPage (ALLOC_ZERO ||| ALLOC_HUGE)
    let m ← (m.charge PAGE_TABLE_ENTRIES).incRef page
    .ok (m, { e with entry := PageFlags.entry { info.flags with present := true, huge := true } page })
  else ptblSplit m e

/-- The callbacks of `populate_region`. -/
def PopulateInfo.walker (info : PopulateInfo) : Walker Phys where
  pteCallback := fun base _ m e => populatePte info base m e
  pdeCallback := fun base last m e => populatePde info base last m e
  pdpteCallback := fun _ _ m e => ptblAlloc m e
  pml4eCallback := fun _ _ m e => ptblAlloc m e
  pdeUnmap := fun base _ m e => ptblMerge base m e

/-- Populates `[va, va + size)` with pages. -/
def populateRegion (m : Phys) (t : Pml4) (va size : Nat) (flags : PageFlags) : Kernel (Phys × Pml4) :=
  let info : PopulateInfo := { flags := flags, base := roundDown va, last := sub64 (roundUp (add64 va size)) 1 }
  if flags.huge = true ∧ va % HPAGE_SIZE ≠ 0 then .ok (m, t)
  else info.walker.walkPageRange va (add64 va size) m t

/-! ## Protecting -/

/-- `struct protect_info`. The PML4 is given by its address. -/
structure ProtectInfo where
  pml4 : Nat
  flags : PageFlags
  base : Nat
  last : Nat

def protectPte (info : ProtectInfo) (base : Nat) (m : Phys) (e : Entry) : Kernel (Phys × Entry) :=
  if e.present = true ∧ e.umask ≠ info.flags then .ok (m.tlbInvalidate info.pml4 base, e.protect info.flags) else .ok (m, e)

/-- A huge page gets the flags if it is exactly the range, and is split otherwise. -/
def protectPde (info : ProtectInfo) (base last : Nat) (m : Phys) (e : Pde) : Kernel (Phys × Pde) := do
  if e.entry.huge = true ∧ e.entry.present = true then
    if base = info.base ∧ last = info.last then
      if e.entry.umask = info.flags then .ok (m, e)
      else .ok (m.tlbInvalidate info.pml4 base, { e with entry := e.entry.protect info.flags })
    else
      let (m, e) ← ptblSplit m e
      .ok (m.tlbInvalidate info.pml4 base, e)
  else .ok (m, e)

/-- The callbacks of `protect_region`. -/
def ProtectInfo.walker (info : ProtectInfo) : Walker Phys where
  pteCallback := fun base _ m e => protectPte info base m e
  pdeCallback := fun base last m e => protectPde info base last m e

/-- Changes the protection of `[va, va + size)` in the PML4 at the address `pml4`. -/
def protectRegion (pml4 : Nat) (m : Phys) (t : Pml4) (va size : Nat) (flags : PageFlags) : Kernel (Phys × Pml4) :=
  let info : ProtectInfo :=
    { pml4 := pml4, flags := flags, base := roundDown va, last := sub64 (roundUp (add64 va size)) 1 }
  info.walker.walkPageRange va (add64 va size) m t

/-! ## Removing -/

/-- `struct remove_info`. -/
structure RemoveInfo where
  pml4 : Nat
  baseRemove : Nat
  endRemove : Nat

def removePte (info : RemoveInfo) (base : Nat) (m : Phys) (e : Entry) : Kernel (Phys × Entry) := do
  if e.present = true then
    let m ← m.decref e.frame
    .ok (m.tlbInvalidate info.pml4 base, 0)
  else .ok (m, e)

/-- A huge page is removed, or split if the range does not cover all of it. -/
def removePde (info : RemoveInfo) (base last : Nat) (m : Phys) (e : Pde) : Kernel (Phys × Pde) := do
  if e.entry.present = true ∧ e.entry.huge = true then
    if info.baseRemove > base ∨ info.endRemove < last then
      let (m, e) ← ptblSplit m e
      .ok (m.tlbInvalidate info.pml4 (blockStart PAGE_TABLE_SPAN base), e)
    else
      let m ← m.decref e.entry.frame
      .ok (m.tlbInvalidate info.pml4 (blockStart PAGE_TABLE_SPAN base), { e with entry := 0 })
  else .ok (m, e)

/-- The callbacks of `unmap_page_range`. -/
def RemoveInfo.walker (info : RemoveInfo) : Walker Phys where
  pteCallback := fun base _ m e => removePte info base m e
  pdeCallback := fun base last m e => removePde info base last m e
  pdeUnmap := fun _ _ m e => ptblFree m e
  pdpteUnmap := fun _ _ m e => ptblFree m e
  pml4eUnmap := fun _ _ m e => ptblFree m e

/-- Unmaps `[va, va + size)` in the PML4 at the address `pml4`. -/
def unmapPageRange (pml4 : Nat) (m : Phys) (t : Pml4) (va size : Nat) : Kernel (Phys × Pml4) :=
  let info : RemoveInfo := { pml4 := pml4, baseRemove := va, endRemove := add64 va size }
  info.walker.walkPageRange va (add64 va size) m t

/-- Unmaps all user pages. -/
def unmapUserPages (pml4 : Nat) (m : Phys) (t : Pml4) : Kernel (Phys × Pml4) := unmapPageRange pml4 m t 0 USER_LIM

/-! ## Looking up and inserting -/

/-- The walk of `page_lookup` over one page: the entry that maps it if one does, and whether that is a PDE. -/
def lookup (t : Pml4) (va : Nat) : Option (Bool × Entry) :=
  let va := signExtend va
  let pml4e := t (va / PDPT_SPAN % PAGE_TABLE_ENTRIES)
  let pdpte := pml4e.child (va / PAGE_DIR_SPAN % PAGE_TABLE_ENTRIES)
  let pde := pdpte.child (va / PAGE_TABLE_SPAN % PAGE_TABLE_ENTRIES)
  let pte := pde.child (va / PAGE_SIZE % PAGE_TABLE_ENTRIES)
  if pml4e.entry.present = false ∨ pdpte.entry.present = false ∨ pde.entry.present = false then none
  else if pde.entry.huge = true then some (true, pde.entry)
  else if pte.present = true then some (false, pte)
  else none

def pageLookup (t : Pml4) (va : Nat) : Option Entry := (lookup t va).map Prod.snd

def Branch.modifyChild {C : Type} (e : Branch C) (i : Nat) (f : C → C) : Branch C :=
  { e with child := Function.update e.child i (f (e.child i)) }

/-- A write through the pointer that `page_lookup` stores: to the entry that maps the address. -/
def modifyEntry (t : Pml4) (va : Nat) (f : Entry → Entry) : Pml4 :=
  let va := signExtend va
  let i := va / PDPT_SPAN % PAGE_TABLE_ENTRIES
  Function.update t i <|
    (t i).modifyChild (va / PAGE_DIR_SPAN % PAGE_TABLE_ENTRIES) fun pdpte =>
      pdpte.modifyChild (va / PAGE_TABLE_SPAN % PAGE_TABLE_ENTRIES) fun pde =>
        if pde.entry.huge = true then { pde with entry := f pde.entry }
        else pde.modifyChild (va / PAGE_SIZE % PAGE_TABLE_ENTRIES) f

/-- Unmaps the page at the address. How much is unmapped depends on the order of the page. -/
def pageRemove (pml4 : Nat) (m : Phys) (t : Pml4) (va : Nat) : Kernel (Phys × Pml4) :=
  match pageLookup t va with
  | none => .ok (m, t)
  | some e =>
    if (m.pages e.frame).ppOrder = BUDDY_2M_PAGE then unmapPageRange pml4 m t va HPAGE_SIZE
    else unmapPageRange pml4 m t va PAGE_SIZE

/-- `struct insert_info`. -/
structure InsertInfo where
  page : Nat
  flags : PageFlags

/-- What was mapped by an entry that gets a new page. What is passed to `tlb_invalidate` is the physical address of the
PML4. -/
def dropOld (base : Nat) (m : Phys) (e : Entry) : Kernel Phys := do
  let m ← m.decref e.frame
  .ok (m.tlbInvalidate m.cpu.cr3 base)

def insertPte (info : InsertInfo) (base : Nat) (m : Phys) (e : Entry) : Kernel (Phys × Entry) := do
  if (m.pages info.page).ppOrder ≠ 0 then .error .order
  else
    let m ← m.incRef info.page
    let m ← if e.present = true then dropOld base m e else .ok m
    .ok (m.setFree info.page false, PageFlags.entry { info.flags with present := true } info.page)

def insertPde (info : InsertInfo) (base : Nat) (m : Phys) (e : Pde) : Kernel (Phys × Pde) := do
  if info.flags.huge = true then
    let m ← m.incRef info.page
    let m ← if e.entry.present = true ∧ e.entry.huge = true then dropOld base m e.entry else .ok m
    .ok (m.setFree info.page false, { e with entry := info.flags.entry info.page })
  else ptblAlloc m e

/-- The callbacks of `page_insert`. -/
def InsertInfo.walker (info : InsertInfo) : Walker Phys where
  pteCallback := fun base _ m e => insertPte info base m e
  pdeCallback := fun base _ m e => insertPde info base m e
  pdpteCallback := fun _ _ m e => ptblAlloc m e
  pml4eCallback := fun _ _ m e => ptblAlloc m e
  pdeUnmap := fun base _ m e => ptblMerge base m e

/-- Maps the page at the address, with `false` for the result `-1`. -/
def pageInsert (m : Phys) (t : Pml4) (page va : Nat) (flags : PageFlags) : Kernel (Bool × Phys × Pml4) := do
  if ¬pageAligned va then .ok (false, m, t)
  else
    let huge := flags.huge || (m.pages page).ppOrder = BUDDY_2M_PAGE
    if huge = true ∧ va % HPAGE_SIZE ≠ 0 then .ok (false, m, t)
    else
      let info : InsertInfo := { page := page, flags := { flags with huge := huge, present := true } }
      let size := if huge then HPAGE_SIZE else PAGE_SIZE
      let (m, t) ← info.walker.walkPageRange va (add64 va size) m t
      .ok (true, m, t)

end OpenLsd
