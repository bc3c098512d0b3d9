import OpenLsd.Mem.PageTable

/-!
# The slab allocators

The model of `kernel/mem/slab.c` and `kernel/mem/kmem.c`, for the allocators of one CPU. A `struct slab_info` and the header
of an object are records under their address in the direct map, and a list of them is the list of those addresses: a node is
in a list exactly when its address is a member, and `list_del` takes it out of whichever list holds it. A `struct slab` is
named by its index in `slabs`.

The records lie in the slab pages, next to the objects. The words that a list operation writes there are not computed:
`Kmem.written` says which bytes of the pages a call may have written beside those that the model clears.
-/

namespace OpenLsd

def SLAB_ALIGN : Nat := 32

/-- `sizeof(struct slab_obj)` and `sizeof(struct slab_info)`. -/
def SLAB_OBJ_SIZE : Nat := 24
def SLAB_INFO_SIZE : Nat := 48

/-- `ROUNDUP(a, SLAB_ALIGN)`. -/
def slabRoundUp (a : Nat) : Nat := add64 a (SLAB_ALIGN - 1) / SLAB_ALIGN * SLAB_ALIGN

/-- The address of a frame in the direct map. -/
def page2kva (page : Nat) : Nat := KADDR (page * PAGE_SIZE)

/-- `struct slab`. -/
structure Slab where
  partialSlabs : List Nat
  full : List Nat
  infoOff : Nat
  objSize : Nat
  count : Nat

/-- `struct slab_info`. -/
structure SlabInfo where
  /-- The index of the allocator that the slab belongs to. -/
  slab : Nat
  freeList : List Nat
  freeCount : Nat

/-- The state of the slab allocators of a CPU. -/
structure Kmem where
  phys : Phys
  nslabs : Nat
  slabs : Nat → Slab
  /-- The `struct slab_info` at an address. -/
  infos : Nat → SlabInfo
  /-- The field `info` of the `struct slab_obj` at an address. -/
  objInfo : Nat → Nat

/-- `list_del(&info->node)`. -/
def Slab.listDel (s : Slab) (info : Nat) : Slab :=
  { s with partialSlabs := s.partialSlabs.erase info, full := s.full.erase info }

/-- `list_add(&slab->partial, &info->node)` and `list_add(&slab->full, &info->node)`. -/
def Slab.addPartial (s : Slab) (info : Nat) : Slab := { s with partialSlabs := info :: s.partialSlabs }
def Slab.addFull (s : Slab) (info : Nat) : Slab := { s with full := info :: s.full }

namespace Kmem

/-- A write to one `struct slab`. -/
@[simps -fullyApplied phys nslabs infos objInfo]
def modifySlab (k : Kmem) (slab : Nat) (f : Slab → Slab) : Kmem :=
  { k with slabs := Function.update k.slabs slab (f (k.slabs slab)) }

/-- A write to one `struct slab_info`. -/
@[simps -fullyApplied phys nslabs slabs objInfo]
def modifyInfo (k : Kmem) (info : Nat) (f : SlabInfo → SlabInfo) : Kmem :=
  { k with infos := Function.update k.infos info (f (k.infos info)) }

@[simp] theorem modifySlab_slabs (k : Kmem) (slab l : Nat) (f : Slab → Slab) :
    (k.modifySlab slab f).slabs l = if l = slab then f (k.slabs l) else k.slabs l := by
  by_cases h : l = slab <;> simp [modifySlab, h]

@[simp] theorem modifyInfo_infos (k : Kmem) (info a : Nat) (f : SlabInfo → SlabInfo) :
    (k.modifyInfo info f).infos a = if a = info then f (k.infos a) else k.infos a := by
  by_cases h : a = info <;> simp [modifyInfo, h]

/-- `memset(p, 0, n)` in the direct map. -/
def memset (k : Kmem) (p n : Nat) : Kmem :=
  { k with phys := { k.phys with bytes := fun f o =>
      if o < PAGE_SIZE ∧ p ≤ page2kva f + o ∧ page2kva f + o < p + n then 0 else k.phys.bytes f o } }

/-- One turn of the loop of `slab_alloc_chunk`: the object gets its reference to the slab and joins the free list. -/
def addObj (k : Kmem) (info obj : Nat) : Kmem :=
  { k with objInfo := Function.update k.objInfo obj info }.modifyInfo info fun i => { i with freeList := obj :: i.freeList }

/-- Allocates a new slab from the buddy allocator and adds it to the partial slabs. Returns whether there was a page. -/
def slabAllocChunk (k : Kmem) (slab : Nat) : Kernel (Bool × Kmem) :=
  match k.phys.pageAlloc ALLOC_ZERO with
  | (none, m) => .ok (false, { k with phys := m })
  | (some page, m) => do
    let m ← m.incRef page
    let base := page2kva page
    let s := k.slabs slab
    let info := base + s.infoOff
    let k := { k with phys := m }.modifyInfo info fun _ => { slab := slab, freeList := [], freeCount := s.count }
    let k := (List.range s.count).foldl (fun k i => k.addObj info (base + i * s.objSize)) k
    return (true, k.modifySlab slab (·.addPartial info))

/-- Removes a slab from the list that holds it and returns its page. `PADDR` and `pa2page` panic on an address that is not
of a page. -/
def slabFreeChunk (k : Kmem) (slab info : Nat) : Kernel Kmem := do
  let baseKva := roundDown info
  if baseKva < KERNEL_VMA then throw .assertion
  let page := (baseKva - KERNEL_VMA) / PAGE_SIZE
  if page ≥ k.phys.npages then throw .assertion
  let k := k.modifySlab slab (·.listDel info)
  return { k with phys := ← k.phys.decref page }

/-- Initializes a slab allocator for the given object size. -/
def slabSetup (k : Kmem) (slab objSize : Nat) : Kmem :=
  let objSize := slabRoundUp (add64 objSize SLAB_OBJ_SIZE)
  let count := (PAGE_SIZE - SLAB_INFO_SIZE) / objSize
  k.modifySlab slab fun _ =>
    { objSize := objSize, count := count, infoOff := objSize * count, full := [], partialSlabs := [] }

/-- The end of `slab_alloc`: the first free object of the first partial slab is taken. The first node of an empty list is
the list itself, which is neither a slab nor an object. -/
def takeFirst (k : Kmem) (slab : Nat) : Kernel (Nat × Kmem) :=
  match (k.slabs slab).partialSlabs with
  | [] => .error .fault
  | info :: _ =>
    match (k.infos info).freeList with
    | [] => .error .fault
    | obj :: rest =>
      let k := k.modifyInfo info fun i => { i with freeList := rest, freeCount := sub64 i.freeCount 1 }
      let k := if (k.infos info).freeList.isEmpty then k.modifySlab slab (fun s => (s.listDel info).addFull info) else k
      .ok (obj + SLAB_OBJ_SIZE, k)

/-- Allocates an object from the given slab allocator. -/
def slabAlloc (k : Kmem) (slab : Nat) : Kernel (Option Nat × Kmem) := do
  let (found, k) ← if (k.slabs slab).partialSlabs.isEmpty then k.slabAllocChunk slab else .ok (true, k)
  if !found then return (none, k)
  let (p, k) ← k.takeFirst slab
  return (some p, k)

/-- The middle of `slab_free`: the object joins the free list of its slab, which is a partial one from now on. -/
def putObj (k : Kmem) (slab info obj : Nat) : Kmem :=
  let k :=
    if (k.infos info).freeList.isEmpty then k.modifySlab slab (fun s => (s.listDel info).addPartial info) else k
  k.modifyInfo info fun i => { i with freeList := obj :: i.freeList, freeCount := add64 i.freeCount 1 }

/-- Frees an object by adding it back to the owning slab allocator. -/
def slabFree (k : Kmem) (p : Nat) : Kernel Kmem :=
  let obj := p - SLAB_OBJ_SIZE
  let info := k.objInfo obj
  let slab := (k.infos info).slab
  let k := k.memset p ((k.slabs slab).objSize - SLAB_OBJ_SIZE)
  let k := k.putObj slab info obj
  if (k.infos info).freeCount ≥ (k.slabs slab).count then k.slabFreeChunk slab info else .ok k

/-- Where the lists of an allocator are in memory, by address and size: the footers of its slabs and the headers of their free
objects. -/
def links (k : Kmem) (slab : Nat) : List (Nat × Nat) :=
  ((k.slabs slab).partialSlabs ++ (k.slabs slab).full).flatMap fun info =>
    (info, SLAB_INFO_SIZE) :: (k.infos info).freeList.map fun obj => (obj, SLAB_OBJ_SIZE)

/-- What a call of `slab_alloc` or `slab_free` may write of headers and footers, between the states `k` and `k'`: those of the
lists before and after it, and that of the object. Without an object it writes none. -/
def written (k k' : Kmem) (slab : Nat) : Option Nat → List (Nat × Nat)
  | none => []
  | some p => (p - SLAB_OBJ_SIZE, SLAB_OBJ_SIZE) :: (k.links slab ++ k'.links slab)

/-- The pages with other contents. -/
def withBytes (k : Kmem) (bytes : Nat → Nat → UInt8) : Kmem := { k with phys := { k.phys with bytes := bytes } }

/-- Sets up slab allocators for every multiple of `SLAB_ALIGN` bytes starting from `SLAB_ALIGN`. -/
def kmemInit (k : Kmem) : Kmem :=
  (List.range 32).foldl (fun k i => k.slabSetup i ((i + 1) * SLAB_ALIGN)) { k with nslabs := 32 }

/-- Allocates a chunk of memory of `size` bytes. -/
def kmalloc (k : Kmem) (size : Nat) : Kernel (Option Nat × Kmem) :=
  if size = 0 then .ok (none, k) else
  let size := slabRoundUp size
  let index := sub64 (size / SLAB_ALIGN) 1
  if index ≥ k.nslabs then .ok (none, k) else k.slabAlloc index

/-- Frees a chunk of memory. -/
def kfree (k : Kmem) (p : Nat) : Kernel Kmem := k.slabFree p

end Kmem

end OpenLsd
