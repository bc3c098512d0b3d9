import OpenLsd.Errors
import OpenLsd.Mem.PageTable
import OpenLsd.Vma.Space

/-!
# The system calls on memory areas

The model of `kernel/vma/walk.c`, `syscall.c` and `pfault.c`, and of what `populate.c`, `protect.c` and `remove.c` do for an
area. A call acts on the frames, the areas and the page tables of the task that makes it. `kmalloc` succeeds. `fuel` is the
number of turns that `rb_remove` and the search of `add_vma` get, and `image` is the memory that executable areas are
filled from.
-/

namespace OpenLsd

/-- What the memory calls of a task act on: the frames of the machine, and the task's areas and page tables, with the frame
of the PML4. -/
structure TaskMem where
  phys : Phys
  vm : VmSpace
  pml4 : Pml4
  root : Nat := 0

/-- `task->task_pml4`. -/
def TaskMem.taskPml4 (s : TaskMem) : Nat := KADDR (s.root * PAGE_SIZE)

def PROT_READ : Nat := 1 <<< 0
def PROT_WRITE : Nat := 1 <<< 1
def PROT_EXEC : Nat := 1 <<< 2

def MAP_PRIVATE : Nat := 1 <<< 0
def MAP_ANONYMOUS : Nat := 1 <<< 1
def MAP_POPULATE : Nat := 1 <<< 4
def MAP_FIXED : Nat := 1 <<< 5

def MADV_WILLNEED : Nat := 1
def MADV_DONTNEED : Nat := 2

/-- `flags & bit`. -/
def hasFlag (flags bit : Nat) : Bool := flags &&& bit != 0

/-- What the code of the tree computes. -/
def ofTree {A : Type} : Option A → Kernel A
  | some a => .ok a
  | none => .error .rbTree

/-! ## Walking over areas -/

/-- The loop of `walk_vma_range`. The next area is read before the callback runs: when the callback has freed it since, the
loop goes on with what is left of it. -/
def walkAreas (getVma : TaskMem → Nat → Kernel (Bool × TaskMem)) (last : Nat) :
    Nat → Option Nat → TaskMem → Kernel (Bool × TaskMem)
  | 0, _, _ => .error .loop
  | _ + 1, none, s => .ok (true, s)
  | n + 1, some p, s =>
    if (s.vm.vma p).vmBase < last then do
      let next := VmSpace.listNext p s.vm.taskMmap
      let (ok, s) ← getVma s p
      if ok then walkAreas getVma last n next s else .ok (false, s)
    else .ok (true, s)

/-- `walk_vma_range`, with `false` for a negative result. The whole range is handed to the callback for each area. -/
def walkVmaRange (getVma : Nat → Nat → TaskMem → Nat → Kernel (Bool × TaskMem)) (s : TaskMem) (base size : Nat) :
    Kernel (Bool × TaskMem) :=
  match s.vm.findVma base with
  | none => .ok (false, s)
  | some p =>
    if add64 base size ≤ (s.vm.vma p).vmBase then .ok (false, s)
    else walkAreas (getVma base size) (add64 base size) (s.vm.taskMmap.length + 1) (some p) s

/-- The loop of `walk_vma_range`, with the results of the callback as they are. -/
def walkAreasRet (getVma : TaskMem → Nat → Kernel (Int × TaskMem)) (last : Nat) :
    Nat → Option Nat → TaskMem → Kernel (Int × TaskMem)
  | 0, _, _ => .error .loop
  | _ + 1, none, s => .ok (0, s)
  | n + 1, some p, s =>
    if (s.vm.vma p).vmBase < last then do
      let next := VmSpace.listNext p s.vm.taskMmap
      let (ret, s) ← getVma s p
      if ret < 0 then .ok (ret, s) else walkAreasRet getVma last n next s
    else .ok (0, s)

/-- `walk_vma_range` with its result, of which the callers only see whether it is negative. -/
def walkVmaRangeRet (getVma : Nat → Nat → TaskMem → Nat → Kernel (Int × TaskMem)) (s : TaskMem) (base size : Nat) :
    Kernel (Int × TaskMem) :=
  match s.vm.findVma base with
  | none => .ok (-1, s)
  | some p =>
    if add64 base size ≤ (s.vm.vma p).vmBase then .ok (-1, s)
    else walkAreasRet (getVma base size) (add64 base size) (s.vm.taskMmap.length + 1) (some p) s

/-! ## Removing -/

def doRemoveVma (fuel : Nat) (base size : Nat) (s : TaskMem) (p : Nat) : Kernel (Bool × TaskMem) := do
  match ← ofTree (s.vm.splitVmas (true, true) p base size) with
  | (none, vm) => .ok (false, { s with vm := vm })
  | (some q, vm) =>
    let (m, t) ← unmapPageRange s.taskPml4 s.phys s.pml4 base size
    let vm ← ofTree (vm.removeVma fuel q)
    .ok (true, { s with phys := m, vm := vm.kfree q, pml4 := t })

def removeVmaRange (fuel : Nat) (s : TaskMem) (base size : Nat) : Kernel (Bool × TaskMem) :=
  walkVmaRange (doRemoveVma fuel) s base size

/-- One turn of the loop of `do_unmap_vma`: a page that is not dirty is removed. -/
def unmapClean (pml4 va : Nat) (s : Phys × Pml4) : Kernel (Phys × Pml4) :=
  match pageLookup s.2 va with
  | none => .ok s
  | some e => if e.dirty then .ok s else pageRemove pml4 s.1 s.2 va

/-- The number of turns of `for (va = base; va < end; va += PAGE_SIZE)`. -/
def pageCount (base bound : Nat) : Nat := (bound - base + (PAGE_SIZE - 1)) / PAGE_SIZE

def doUnmapVma (base size : Nat) (s : TaskMem) (p : Nat) : Kernel (Bool × TaskMem) := do
  match ← ofTree (s.vm.splitVmas (true, true) p base size) with
  | (none, vm) => .ok (false, { s with vm := vm })
  | (some _, vm) =>
    let (m, t) ← forRange (fun i => unmapClean s.taskPml4 (base + i * PAGE_SIZE)) (pageCount base (add64 base size)) 0
      (s.phys, s.pml4)
    .ok (true, { s with phys := m, vm := vm, pml4 := t })

def unmapVmaRange (s : TaskMem) (base size : Nat) : Kernel (Bool × TaskMem) := walkVmaRange doUnmapVma s base size

/-! ## Protecting -/

/-- The flags that pages get from the protection of their area. -/
def protectFlags (flags : Nat) : PageFlags :=
  if flags = 0 then { present := false, write := false, user := false, noExec := false, huge := false }
  else
    { present := hasFlag flags PROT_READ
      write := hasFlag flags PROT_WRITE
      user := true
      noExec := !hasFlag flags PROT_EXEC
      huge := false }

def doProtectVma (fuel flags : Nat) (base size : Nat) (s : TaskMem) (p : Nat) : Kernel (Bool × TaskMem) := do
  if flags = (s.vm.vma p).vmFlags ∨ (s.vm.vma p).vmBase = (s.vm.vma p).vmEnd then .ok (true, s)
  else match ← ofTree (s.vm.splitVmas (true, true) p base size) with
    | (none, vm) => .ok (false, { s with vm := vm })
    | (some q, vm) =>
      let vm := vm.setVma q { vm.vma q with vmFlags := flags }
      let (m, t) ← protectRegion s.taskPml4 s.phys s.pml4 base size (protectFlags flags)
      let (_, vm) ← ofTree (vm.mergeVmas fuel q)
      .ok (true, { s with phys := m, vm := vm, pml4 := t })

def protectVmaRange (fuel : Nat) (s : TaskMem) (base size flags : Nat) : Kernel (Bool × TaskMem) :=
  walkVmaRange (doProtectVma fuel flags) s base size

/-! ## Populating -/

/-- The flags that `do_populate_vma` maps pages with. -/
def populateFlags (vmFlags : Nat) : PageFlags where
  present := true
  write := hasFlag vmFlags PROT_WRITE
  user := true
  noExec := !hasFlag vmFlags PROT_EXEC
  huge := false

/-- A store to user memory, which marks the entry dirty. -/
def storeByte (va : Nat) (b : UInt8) (s : Phys × Pml4) : Kernel (Phys × Pml4) :=
  match lookup s.2 va with
  | none => .error .fault
  | some (pde, e) =>
    let frame := if pde then e.frame + signExtend va / PAGE_SIZE % PAGE_TABLE_ENTRIES else e.frame
    .ok ({ s.1 with bytes := Function.update s.1.bytes frame (Function.update (s.1.bytes frame) (va % PAGE_SIZE) b) },
      modifyEntry s.2 va fun e => { e with dirty := true })

/-- The access does not ask for more than the area allows. -/
def populateAllowed (flags vmFlags : Nat) : Prop :=
  (hasFlag flags PROT_READ → hasFlag vmFlags PROT_READ) ∧ (hasFlag flags PROT_WRITE → hasFlag vmFlags PROT_WRITE) ∧
    (hasFlag flags PROT_EXEC → hasFlag vmFlags PROT_EXEC)

instance (flags vmFlags : Nat) : Decidable (populateAllowed flags vmFlags) :=
  inferInstanceAs (Decidable ((_ → _) ∧ (_ → _) ∧ (_ → _)))

/-- The range lies in a 2M block that the anonymous area covers: `do_populate_vma` then populates that block, and only
that block. -/
def hugeShortcut (v : Vma) (base : Nat) : Prop :=
  v.vmSrc = none ∧ v.vmBase ≤ blockStart HPAGE_SIZE base ∧ add64 (blockStart HPAGE_SIZE base) HPAGE_SIZE ≤ v.vmEnd

instance (v : Vma) (base : Nat) : Decidable (hugeShortcut v base) := inferInstanceAs (Decidable (_ ∧ _ ∧ _))

/-- The copy from the executable to the pages of its area. -/
def fillFrom (image : Nat → UInt8) (v : Vma) (base size : Nat) (s : Phys × Pml4) : Kernel (Phys × Pml4) :=
  match v.vmSrc with
  | none => .ok s
  | some src =>
    let offset := sub64 base v.vmBase
    if offset < v.vmLen then
      forRange (fun i => storeByte (base + i) (image (src + offset + i))) (min size (v.vmLen - offset)) 0 s
    else .ok s

def doPopulateVma (image : Nat → UInt8) (flags : Nat) (base size : Nat) (s : TaskMem) (p : Nat) : Kernel (Bool × TaskMem) := do
  let v := s.vm.vma p
  let flags' := populateFlags v.vmFlags
  if ¬populateAllowed flags v.vmFlags then .ok (false, s)
  else if hugeShortcut v base then
    let (m, t) ← populateRegion s.phys s.pml4 (blockStart HPAGE_SIZE base) HPAGE_SIZE { flags' with huge := true }
    let (m, t) ← protectRegion s.taskPml4 m t base size flags'
    .ok (true, { s with phys := m, pml4 := t })
  else
    let (m, t) ← populateRegion s.phys s.pml4 base size flags'
    let (m, t) ← fillFrom image v base size (m, t)
    let (m, t) ← protectRegion s.taskPml4 m t base size flags'
    .ok (true, { s with phys := m, pml4 := t })

def populateVmaRange (image : Nat → UInt8) (s : TaskMem) (base size flags : Nat) : Kernel (Bool × TaskMem) :=
  walkVmaRange (doPopulateVma image flags) s base size

/-! ## Finding room for an area -/

/-- The loops of `add_vma`: from `base` downward in steps of `size` as long as `goOn` holds, until the area fits. -/
def scanDown (fuel : Nat) (name : String) (size flags : Nat) (goOn : Nat → Prop) [DecidablePred goOn] :
    Nat → Nat → VmSpace → Kernel (Option Nat × VmSpace)
  | 0, _, _ => .error .loop
  | n + 1, base, s =>
    if goOn base then do
      match ← ofTree (s.addExecutableVma fuel true name base size flags none 0) with
      | (some p, s) => .ok (some p, s)
      | (none, s) => scanDown fuel name size flags goOn n (sub64 base size) s
    else .ok (none, s)

/-- Adds an area at the address or where there is room for it. -/
def addVma (fuel : Nat) (s : VmSpace) (name : String) (addr size flags : Nat) : Kernel (Option Nat × VmSpace) := do
  let size := roundUp size
  if addr ≠ 0 then
    match ← ofTree (s.addExecutableVma fuel true name addr size flags none 0) with
    | (some p, s) => .ok (some p, s)
    | (none, s) =>
      match ← scanDown fuel name size flags (· ≥ PAGE_SIZE) fuel addr s with
      | (some p, s) => .ok (some p, s)
      | (none, s) => scanDown fuel name size flags (· > addr) fuel (sub64 USER_LIM size) s
  else scanDown fuel name size flags (· ≥ PAGE_SIZE) fuel (sub64 USER_LIM size) s

/-! ## The calls -/

/-- `PROT_WRITE` and `PROT_EXEC` exclude each other, and both need `PROT_READ`. -/
def protAllowed (prot : Nat) : Prop :=
  ¬(hasFlag prot PROT_WRITE ∧ hasFlag prot PROT_EXEC) ∧ ¬(hasFlag prot PROT_WRITE ∧ ¬hasFlag prot PROT_READ) ∧
    ¬(hasFlag prot PROT_EXEC ∧ ¬hasFlag prot PROT_READ)

instance (prot : Nat) : Decidable (protAllowed prot) := inferInstanceAs (Decidable (¬_ ∧ ¬_ ∧ ¬_))

/-- The arguments pass the checks of `sys_mmap`. -/
def mmapAllowed (addr len prot flags : Nat) : Prop :=
  ¬(hasFlag flags MAP_FIXED ∧ addr = 0) ∧ hasFlag flags MAP_ANONYMOUS ∧ hasFlag flags MAP_PRIVATE ∧ protAllowed prot ∧
    roundUp (add64 addr len) < USER_LIM

instance (addr len prot flags : Nat) : Decidable (mmapAllowed addr len prot flags) :=
  inferInstanceAs (Decidable (¬_ ∧ _ ∧ _ ∧ _ ∧ _ < _))

/-- The first part of `sys_mmap`: with `MAP_FIXED` the range is emptied. -/
def mmapClear (fuel : Nat) (s : TaskMem) (addr size flags : Nat) : Kernel TaskMem := do
  if hasFlag flags MAP_FIXED then
    let (_, s) ← removeVmaRange fuel s addr size
    .ok s
  else .ok s

/-- `sys_mmap`, with `none` for `MAP_FAILED`. -/
def sysMmap (fuel : Nat) (image : Nat → UInt8) (s : TaskMem) (addr len prot flags : Nat) :
    Kernel (Option Nat × TaskMem) := do
  let alignedAddr := roundDown addr
  let alignedSize := sub64 (roundUp (add64 addr len)) alignedAddr
  if ¬mmapAllowed addr len prot flags then .ok (none, s)
  else
    let s ← mmapClear fuel s alignedAddr alignedSize flags
    match ← addVma fuel s.vm "user" alignedAddr alignedSize prot with
    | (none, vm) => .ok (none, { s with vm := vm })
    | (some p, vm) =>
      let s := { s with vm := vm }
      if hasFlag flags MAP_POPULATE then
        match ← populateVmaRange image s (vm.vma p).vmBase alignedSize prot with
        | (true, s) => .ok (some (s.vm.vma p).vmBase, s)
        | (false, s) =>
          let vm ← ofTree (s.vm.removeVma fuel p)
          .ok (none, { s with vm := vm.kfree p })
      else .ok (some (vm.vma p).vmBase, s)

def sysMunmap (fuel : Nat) (s : TaskMem) (addr len : Nat) : Kernel TaskMem := do
  let alignedAddr := roundDown addr
  let alignedSize := sub64 (roundDown (add64 addr len)) alignedAddr
  let (_, s) ← removeVmaRange fuel s alignedAddr alignedSize
  .ok s

def sysMprotect (fuel : Nat) (s : TaskMem) (addr len prot : Nat) : Kernel (Int × TaskMem) := do
  let alignedAddr := roundDown addr
  let alignedEnd := roundUp (add64 addr len)
  let alignedSize := sub64 alignedEnd alignedAddr
  if len = 0 then .ok (-EINVAL, s)
  else if prot &&& (PROT_READ ||| PROT_WRITE ||| PROT_EXEC) ≠ prot then .ok (-EINVAL, s)
  else if hasFlag prot PROT_WRITE ∧ ¬hasFlag prot PROT_READ then .ok (-EFAULT, s)
  else if hasFlag prot PROT_EXEC ∧ ¬hasFlag prot PROT_READ then .ok (-EFAULT, s)
  else if hasFlag prot PROT_WRITE ∧ hasFlag prot PROT_EXEC then .ok (-EINVAL, s)
  else if alignedEnd ≥ USER_LIM then .ok (-EINVAL, s)
  else
    let (ok, s) ← protectVmaRange fuel s alignedAddr alignedSize prot
    .ok (if ok then 0 else -1, s)

/-- `sys_madvise`. The check of the range against the area computes `-EFAULT` and does not return it. -/
def sysMadvise (image : Nat → UInt8) (s : TaskMem) (addr len advise : Nat) : Kernel (Int × TaskMem) := do
  let alignedAddr := roundDown addr
  let alignedEnd := roundUp (add64 addr len)
  let alignedSize := sub64 alignedEnd alignedAddr
  if alignedEnd ≥ USER_LIM then .ok (-EINVAL, s)
  else if advise = MADV_WILLNEED then
    match s.vm.taskFindVma addr with
    | none => .error .fault
    | some p =>
      let (ok, s) ← populateVmaRange image s alignedAddr alignedSize (s.vm.vma p).vmFlags
      .ok (if ok then 0 else -1, s)
  else if advise = MADV_DONTNEED then
    let (ok, s) ← unmapVmaRange s alignedAddr alignedSize
    .ok (if ok then 0 else -1, s)
  else .ok (-EINVAL, s)

/-- `task_page_fault_handler`, for an access at `va` that asks for `flags`. -/
def taskPageFaultHandler (image : Nat → UInt8) (s : TaskMem) (va flags : Nat) : Kernel (Int × TaskMem) := do
  match s.vm.taskFindVma va with
  | none => .ok (-EFAULT, s)
  | some p =>
    let vmFlags := (s.vm.vma p).vmFlags
    if hasFlag flags PROT_WRITE ∧ ¬hasFlag vmFlags PROT_WRITE then .ok (-EFAULT, s)
    else if hasFlag flags PROT_EXEC ∧ ¬hasFlag vmFlags PROT_EXEC then .ok (-EFAULT, s)
    else if ¬hasFlag vmFlags PROT_READ then .ok (-EFAULT, s)
    else
      let (ok, s) ← populateVmaRange image s (roundDown va) PAGE_SIZE flags
      .ok (if ok then 0 else -1, s)

/-- A memory call with its arguments. -/
inductive MemCall where
  | mmap (addr len prot flags : Nat)
  | munmap (addr len : Nat)
  | mprotect (addr len prot : Nat)
  | madvise (addr len advise : Nat)
  deriving DecidableEq, Repr

/-- `cur_task` is set. -/
def TaskMem.runs (s : TaskMem) (curTask : Option Nat) : TaskMem :=
  { s with phys := { s.phys with cpu := { s.phys.cpu with curTask := curTask } } }

/-- What a call of the current task leaves, whatever it returns to the task. -/
def MemCall.run (fuel : Nat) (image : Nat → UInt8) (curTask : Option Nat) (s : TaskMem) : MemCall → Kernel TaskMem
  | mmap addr len prot flags => do
    let (_, s) ← sysMmap fuel image (s.runs curTask) addr len prot flags
    .ok s
  | munmap addr len => sysMunmap fuel (s.runs curTask) addr len
  | mprotect addr len prot => do
    let (_, s) ← sysMprotect fuel (s.runs curTask) addr len prot
    .ok s
  | madvise addr len advise => do
    let (_, s) ← sysMadvise image (s.runs curTask) addr len advise
    .ok s

end OpenLsd
