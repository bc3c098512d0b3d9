import OpenLsd.Lemmas.Frames
import OpenLsd.Lib.Outcome
import OpenLsd.Mem.Slab

/-!
# The representation invariant of the slab allocators

`SlabInv k alloc owner` is what holds of the allocators, where `alloc` names the blocks that are allocated and `owner` the
slab pages with the size class of each. A change is of one of two kinds: a slab page of a class is rewritten and put in the
list where it belongs (`refile`: a new page, an object that is taken, one that comes back), or an empty slab page goes away
(`slabFreeChunk`).
-/

namespace OpenLsd

open Function Kmem

variable {i p j l : Nat} {k k' : Kmem} {alloc alloc' owner : Nat → Option Nat}

/-! ## The layout of a slab page -/

/-- The size of the objects of a class, their number on a page, and the offset of the footer. -/
def slabObjSize (i : Nat) : Nat := (i + 2) * SLAB_ALIGN
def slabCount (i : Nat) : Nat := (PAGE_SIZE - SLAB_INFO_SIZE) / slabObjSize i
def slabInfoOff (i : Nat) : Nat := slabObjSize i * slabCount i

/-- The footer of a slab page and its objects. -/
def infoAddr (p i : Nat) : Nat := page2kva p + slabInfoOff i
def objAddr (p i j : Nat) : Nat := page2kva p + j * slabObjSize i

theorem slabCount_bounds (hi : i < 32) : 3 ≤ slabCount i ∧ slabCount i ≤ 63 := by
  revert i
  decide

theorem slabInfoOff_lt (hi : i < 32) : slabInfoOff i + SLAB_INFO_SIZE ≤ PAGE_SIZE := by
  revert i
  decide

/-- The objects of a page end before its footer. -/
theorem objAddr_end_le (hj : j < slabCount i) : objAddr p i j + slabObjSize i ≤ infoAddr p i := by
  have h := Nat.mul_le_mul_right (slabObjSize i) (Nat.succ_le_of_lt hj)
  rw [Nat.succ_mul] at h
  unfold objAddr infoAddr slabInfoOff
  rw [Nat.mul_comm (slabObjSize i)]
  omega

/-- The frame that an address of the direct map lies in. -/
def kvaFrame (a : Nat) : Nat := (a - KERNEL_VMA) / PAGE_SIZE

theorem kvaFrame_page2kva {o : Nat} (ho : o < PAGE_SIZE) : kvaFrame (page2kva p + o) = p := by
  unfold kvaFrame page2kva KADDR
  simp only [PAGE_SIZE] at ho ⊢
  omega

theorem slabObjSize_pos (i : Nat) : SLAB_OBJ_SIZE + (i + 1) * SLAB_ALIGN ≤ slabObjSize i := by
  simp only [slabObjSize, SLAB_OBJ_SIZE, SLAB_ALIGN]
  omega

theorem kvaFrame_infoAddr (hi : i < 32) : kvaFrame (infoAddr p i) = p := by
  have h := slabInfoOff_lt hi
  refine kvaFrame_page2kva ?_
  simp only [SLAB_INFO_SIZE] at h
  omega

theorem kvaFrame_objAddr (hi : i < 32) (hj : j < slabCount i) : kvaFrame (objAddr p i j) = p := by
  have h := slabInfoOff_lt hi
  have hend := objAddr_end_le (p := p) hj
  have hpos := slabObjSize_pos i
  refine kvaFrame_page2kva ?_
  unfold objAddr infoAddr at hend
  simp only [SLAB_INFO_SIZE, SLAB_OBJ_SIZE] at h hpos
  omega

theorem infoAddr_ne {q : Nat} (hi : i < 32) (hl : l < 32) (hpq : p ≠ q) : infoAddr p i ≠ infoAddr q l := by
  intro h
  rw [← kvaFrame_infoAddr (p := p) hi, h, kvaFrame_infoAddr hl] at hpq
  exact hpq rfl

theorem objAddr_inj (h : objAddr p i j = objAddr p i l) : j = l := by
  unfold objAddr at h
  have hpos := slabObjSize_pos i
  simp only [SLAB_OBJ_SIZE] at hpos
  exact Nat.eq_of_mul_eq_mul_right (show 0 < slabObjSize i by omega) (by omega)

/-! ## The invariant -/

/-- The data of one slab page: the footer counts the free objects and lists them once, and the header of every object leads
to the footer. -/
structure SlabPage (k : Kmem) (p i : Nat) : Prop where
  slab : (k.infos (infoAddr p i)).slab = i
  freeCount : (k.infos (infoAddr p i)).freeCount = (k.infos (infoAddr p i)).freeList.length
  nodup : (k.infos (infoAddr p i)).freeList.Nodup
  objects : ∀ a ∈ (k.infos (infoAddr p i)).freeList, ∃ j < slabCount i, a = objAddr p i j
  header : ∀ j < slabCount i, k.objInfo (objAddr p i j) = infoAddr p i

/-- The sizes that `slab_setup` gives to the class `i`. -/
structure Slab.Sized (s : Slab) (i : Nat) : Prop where
  objSize : s.objSize = slabObjSize i
  count : s.count = slabCount i
  infoOff : s.infoOff = slabInfoOff i

/-- A list holds, once each, the footers of the pages of a class whose free list is as `P` says. -/
structure Filed (k : Kmem) (owner : Nat → Option Nat) (i : Nat) (P : List Nat → Prop) (l : List Nat) : Prop where
  nodup : l.Nodup
  mem_iff : ∀ a, a ∈ l ↔ ∃ p, owner p = some i ∧ a = infoAddr p i ∧ P (k.infos a).freeList

/-- A slab page is an allocated frame with the one reference that its slab holds. -/
structure SlabFrame (m : Phys) (alloc : Orders) (p : Nat) : Prop where
  alloc : alloc p = some 0
  ppRef : (m.pages p).ppRef = 1

/-- The representation invariant of the slab allocators. -/
structure SlabInv (k : Kmem) (alloc owner : Nat → Option Nat) : Prop where
  frames : Frames k.phys alloc
  nslabs : k.nslabs = 32
  sized : ∀ i < 32, (k.slabs i).Sized i
  partials : ∀ i < 32, Filed k owner i (· ≠ []) (k.slabs i).partialSlabs
  full : ∀ i < 32, Filed k owner i (· = []) (k.slabs i).full
  lt : ∀ p i, owner p = some i → i < 32
  frame : ∀ p i, owner p = some i → SlabFrame k.phys alloc p
  page : ∀ p i, owner p = some i → SlabPage k p i

/-- No slab page is completely free. -/
def NoneFree (k : Kmem) (owner : Nat → Option Nat) : Prop :=
  ∀ p i, owner p = some i → (k.infos (infoAddr p i)).freeList.length < slabCount i

/-- The object at an address is handed out: it is on a slab page and not on its free list. -/
def Held (k : Kmem) (owner : Nat → Option Nat) (a : Nat) : Prop :=
  ∃ p i j, owner p = some i ∧ j < slabCount i ∧ a = objAddr p i j ∧ a ∉ (k.infos (infoAddr p i)).freeList

namespace SlabPage

/-- The free objects are some of the objects of the page. -/
theorem subperm (h : SlabPage k p i) :
    (k.infos (infoAddr p i)).freeList.Subperm ((List.range (slabCount i)).map (objAddr p i)) := by
  refine List.subperm_of_subset h.nodup fun a ha => ?_
  obtain ⟨j, hj, rfl⟩ := h.objects a ha
  exact List.mem_map_of_mem (List.mem_range.2 hj)

theorem length_le (h : SlabPage k p i) : (k.infos (infoAddr p i)).freeList.length ≤ slabCount i := by
  simpa using h.subperm.length_le

theorem mem_of_length (h : SlabPage k p i) (hl : (k.infos (infoAddr p i)).freeList.length = slabCount i)
    (hj : j < slabCount i) : objAddr p i j ∈ (k.infos (infoAddr p i)).freeList := by
  have hperm := h.subperm.perm_of_length_le (by simp [hl])
  exact hperm.mem_iff.2 (List.mem_map_of_mem (List.mem_range.2 hj))

theorem congr (h : SlabPage k p i) (hinfo : k'.infos (infoAddr p i) = k.infos (infoAddr p i))
    (hobj : ∀ j < slabCount i, k'.objInfo (objAddr p i j) = k.objInfo (objAddr p i j)) : SlabPage k' p i where
  slab := by rw [hinfo, h.slab]
  freeCount := by rw [hinfo, h.freeCount]
  nodup := by rw [hinfo]; exact h.nodup
  objects := by rw [hinfo]; exact h.objects
  header := fun j hj => (hobj j hj).trans (h.header j hj)

end SlabPage

/-! ## Filing a page -/

/-- A list after `a` was filed anew: `a` is in it just if `c`, and the others are as they were. -/
structure Refiled (a : Nat) (c : Prop) (l l' : List Nat) : Prop where
  nodup : l'.Nodup
  mem_iff : ∀ x, x ∈ l' ↔ (x ∈ l ∧ x ≠ a) ∨ (x = a ∧ c)

namespace Refiled

variable {a : Nat} {c : Prop} {l : List Nat}

theorem same (hl : l.Nodup) (h : a ∈ l ↔ c) : Refiled a c l l := by
  refine ⟨hl, fun x => ?_⟩
  by_cases hx : x = a
  · simp [hx, h]
  · simp [hx]

theorem erase (hl : l.Nodup) (hc : ¬c) : Refiled a c l (l.erase a) := by
  refine ⟨hl.erase a, fun x => ?_⟩
  rw [hl.mem_erase_iff]
  by_cases hx : x = a <;> simp [hx, hc]

theorem cons (hl : l.Nodup) (hc : c) : Refiled a c l (a :: l.erase a) := by
  refine ⟨List.nodup_cons.2 ⟨hl.not_mem_erase, hl.erase a⟩, fun x => ?_⟩
  rw [List.mem_cons, hl.mem_erase_iff]
  by_cases hx : x = a <;> simp [hx, hc]

theorem add (hl : l.Nodup) (ha : a ∉ l) (hc : c) : Refiled a c l (a :: l) := by
  have h := cons (a := a) hl hc
  rwa [List.erase_of_not_mem ha] at h

end Refiled

/-- Two states that differ at most in one slab page, the lists of its class and physical memory. -/
structure SamePages (k k' : Kmem) (p i : Nat) : Prop where
  nslabs : k'.nslabs = k.nslabs
  sized : (k.slabs i).Sized i → (k'.slabs i).Sized i
  slabs : ∀ l, l ≠ i → k'.slabs l = k.slabs l
  infos : ∀ a, a ≠ infoAddr p i → k'.infos a = k.infos a
  objInfo : ∀ q l j, q ≠ p → l < 32 → j < slabCount l → k'.objInfo (objAddr q l j) = k.objInfo (objAddr q l j)

section Filing

variable {l : Nat} {o : Option Nat} {P : List Nat → Prop} {L L' : List Nat}

/-- No page of another class is the page that changed. -/
theorem Filed.other (h : Filed k owner l P L) (hs : SamePages k k' p i) (hl : l < 32) (hi : i < 32) (hown : owner p ≠ some l)
    (ho : o ≠ some l) : Filed k' (update owner p o) l P L := by
  refine ⟨h.nodup, fun a => (h.mem_iff a).trans (exists_congr fun q => ?_)⟩
  by_cases hqp : q = p
  · subst hqp
    simp [hown, ho]
  · rw [update_of_ne hqp]
    refine and_congr_right fun _ => and_congr_right fun ha => ?_
    rw [ha, hs.infos _ (infoAddr_ne hl hi hqp)]

theorem Filed.refile (h : Filed k owner i P L) (hs : SamePages k k' p i) (hi : i < 32)
    (hr : Refiled (infoAddr p i) (o = some i ∧ P (k'.infos (infoAddr p i)).freeList) L L') :
    Filed k' (update owner p o) i P L' := by
  refine ⟨hr.nodup, fun a => ?_⟩
  rw [hr.mem_iff, h.mem_iff]
  constructor
  · rintro (⟨⟨q, hq, ha, hP⟩, hne⟩ | ⟨rfl, ho, hP⟩)
    · have hqp : q ≠ p := by
        rintro rfl
        exact hne ha
      exact ⟨q, by rwa [update_of_ne hqp], ha, by rwa [hs.infos a hne]⟩
    · exact ⟨p, by rw [update_self, ho], rfl, hP⟩
  · rintro ⟨q, hq, rfl, hP⟩
    by_cases hqp : q = p
    · subst hqp
      rw [update_self] at hq
      exact .inr ⟨rfl, hq, hP⟩
    · rw [update_of_ne hqp] at hq
      have hne := infoAddr_ne hi hi hqp
      exact .inl ⟨⟨q, hq, rfl, by rwa [← hs.infos _ hne]⟩, hne⟩

/-- A slab page of the class `i` is written anew and filed, or goes away. -/
theorem SlabInv.refile (h : SlabInv k alloc owner) (hi : i < 32) (hs : SamePages k k' p i)
    (hown : owner p = none ∨ owner p = some i) (ho : o = none ∨ o = some i)
    (hp : Refiled (infoAddr p i) (o = some i ∧ (k'.infos (infoAddr p i)).freeList ≠ []) (k.slabs i).partialSlabs
      (k'.slabs i).partialSlabs)
    (hf : Refiled (infoAddr p i) (o = some i ∧ (k'.infos (infoAddr p i)).freeList = []) (k.slabs i).full (k'.slabs i).full)
    (hb : Frames k'.phys alloc') (hframe : ∀ q, q ≠ p → SlabFrame k.phys alloc q → SlabFrame k'.phys alloc' q)
    (hpage : o = some i → SlabFrame k'.phys alloc' p ∧ SlabPage k' p i) : SlabInv k' alloc' (update owner p o) := by
  have hcases : ∀ {q l}, update owner p o q = some l → (q = p ∧ l = i ∧ o = some i) ∨ (q ≠ p ∧ owner q = some l) := by
    intro q l hq
    by_cases hqp : q = p
    · rw [hqp, update_self] at hq
      rcases ho with rfl | rfl
      · cases hq
      · cases hq
        exact .inl ⟨hqp, rfl, rfl⟩
    · rw [update_of_ne hqp] at hq
      exact .inr ⟨hqp, hq⟩
  have hother : ∀ l, l ≠ i → owner p ≠ some l ∧ o ≠ some l := by
    intro l hli
    refine ⟨?_, ?_⟩
    · rcases hown with e | e <;> simp [e, Ne.symm hli]
    · rcases ho with e | e <;> simp [e, Ne.symm hli]
  refine ⟨hb, hs.nslabs.trans h.nslabs, fun l hl => ?_, fun l hl => ?_, fun l hl => ?_, fun q l hq => ?_, fun q l hq => ?_,
    fun q l hq => ?_⟩
  · by_cases hli : l = i
    · exact hli ▸ hs.sized (h.sized i hi)
    · exact hs.slabs l hli ▸ h.sized l hl
  · by_cases hli : l = i
    · exact hli ▸ (h.partials i hi).refile hs hi hp
    · exact hs.slabs l hli ▸ (h.partials l hl).other hs hl hi (hother l hli).1 (hother l hli).2
  · by_cases hli : l = i
    · exact hli ▸ (h.full i hi).refile hs hi hf
    · exact hs.slabs l hli ▸ (h.full l hl).other hs hl hi (hother l hli).1 (hother l hli).2
  · rcases hcases hq with ⟨-, rfl, -⟩ | ⟨-, hq⟩
    · exact hi
    · exact h.lt q l hq
  · rcases hcases hq with ⟨rfl, -, e⟩ | ⟨hqp, hq⟩
    · exact (hpage e).1
    · exact hframe q hqp (h.frame q l hq)
  · rcases hcases hq with ⟨rfl, rfl, e⟩ | ⟨hqp, hq⟩
    · exact (hpage e).2
    · have hl := h.lt q l hq
      exact (h.page q l hq).congr (hs.infos _ (infoAddr_ne hl hi hqp)) fun j hj => hs.objInfo q l j hqp hl hj

end Filing

/-! ## A new slab page -/

namespace Kmem

/-- What the loop of `slab_alloc_chunk` does: the objects join the free list, the last one first. -/
theorem addObjs_spec (k : Kmem) (info : Nat) (obj : Nat → Nat) (n : Nat) :
    ∃ k', (List.range n).foldl (fun k j => k.addObj info (obj j)) k = k' ∧ k'.phys = k.phys ∧ k'.nslabs = k.nslabs ∧
      k'.slabs = k.slabs ∧ (∀ a, a ≠ info → k'.infos a = k.infos a) ∧
      k'.infos info = { k.infos info with freeList := ((List.range n).map obj).reverse ++ (k.infos info).freeList } ∧
      (∀ j < n, k'.objInfo (obj j) = info) ∧ ∀ a, (∀ j < n, a ≠ obj j) → k'.objInfo a = k.objInfo a := by
  induction n with
  | zero => exact ⟨k, rfl, rfl, rfl, rfl, fun _ _ => rfl, rfl, fun j hj => absurd hj (Nat.not_lt_zero j), fun _ _ => rfl⟩
  | succ n ih =>
    obtain ⟨k', hk', hphys, hn, hslabs, hinfos, hinfo, hobj, hrest⟩ := ih
    refine ⟨k'.addObj info (obj n), ?_, hphys, hn, hslabs, ?_, ?_, ?_, ?_⟩
    · rw [List.range_succ, List.foldl_append, hk']
      rfl
    · intro a ha
      rw [← hinfos a ha]
      exact update_of_ne ha ..
    · simp only [addObj, modifyInfo, update_self, hinfo, List.range_succ, List.map_append, List.reverse_append,
        List.map_cons, List.map_nil, List.reverse_cons, List.reverse_nil, List.nil_append, List.cons_append]
    · intro j hj
      simp only [addObj, modifyInfo]
      by_cases hjn : obj j = obj n
      · rw [hjn, update_self]
      · rw [update_of_ne hjn]
        refine hobj j ?_
        by_contra hlt
        obtain rfl : j = n := by omega
        exact hjn rfl
    · intro a ha
      simp only [addObj, modifyInfo]
      rw [update_of_ne (ha n (by omega))]
      exact hrest a (fun j hj => ha j (by omega))

end Kmem

/-- The state after `slab_alloc_chunk` made a slab of the page `p`. -/
structure NewSlab (k k' : Kmem) (m : Phys) (p i : Nat) : Prop where
  phys : k'.phys = m
  same : SamePages k k' p i
  page : SlabPage k' p i
  partialSlabs : (k'.slabs i).partialSlabs = infoAddr p i :: (k.slabs i).partialSlabs
  full : (k'.slabs i).full = (k.slabs i).full
  length : (k'.infos (infoAddr p i)).freeList.length = slabCount i

/-- A new slab page. -/
theorem Kmem.slabAllocChunk_some {m : Phys} (hi : i < 32) (hsz : (k.slabs i).Sized i)
    (hr : k.phys.pageAlloc ALLOC_ZERO = (some p, m)) (href : (m.pages p).ppRef = 0) :
    ∃ k', k.slabAllocChunk i = .ok (true, k') ∧ NewSlab k k' (m.setRef p 1) p i := by
  obtain ⟨k', hk', hphys, hn, hslabs, hinfos, hinfo, hobj, hrest⟩ := addObjs_spec
    (modifyInfo { k with phys := m.setRef p 1 } (infoAddr p i)
      fun _ => { slab := i, freeList := [], freeCount := slabCount i }) (infoAddr p i) (objAddr p i) (slabCount i)
  have hinc : m.incRef p = .ok (m.setRef p 1) := by
    rw [Phys.incRef, href]
    rfl
  simp only [modifyInfo_infos, if_true, List.append_nil] at hinfo
  refine ⟨k'.modifySlab i (·.addPartial (infoAddr p i)), ?_, hphys, ?_, ?_, ?_, ?_, ?_⟩
  · unfold slabAllocChunk
    rw [hr]
    simp only [hinc, hsz.infoOff, hsz.count, hsz.objSize, ← hk']
    rfl
  · refine ⟨hn, fun hs => ?_, fun l hl => ?_, fun a ha => ?_, fun q l j hqp hl hj => ?_⟩
    · rw [modifySlab_slabs, if_pos rfl, hslabs]
      exact ⟨hs.objSize, hs.count, hs.infoOff⟩
    · rw [modifySlab_slabs, if_neg hl, hslabs]
      rfl
    · rw [modifySlab_infos, hinfos a ha, modifyInfo_infos, if_neg ha]
    · refine hrest _ fun j' hj' he => hqp ?_
      rw [← kvaFrame_objAddr (p := q) hl hj, he, kvaFrame_objAddr hi hj']
  · have hinfo' : (k'.modifySlab i (·.addPartial (infoAddr p i))).infos (infoAddr p i) = _ := hinfo
    constructor
    · rw [hinfo']
    · rw [hinfo']
      simp
    · rw [hinfo', List.nodup_reverse]
      exact List.Nodup.map (fun _ _ h => objAddr_inj h) List.nodup_range
    · rw [hinfo']
      intro a ha
      obtain ⟨j, hj, rfl⟩ := List.mem_map.1 (List.mem_reverse.1 ha)
      exact ⟨j, List.mem_range.1 hj, rfl⟩
    · exact hobj
  · rw [modifySlab_slabs, if_pos rfl, hslabs]
    rfl
  · rw [modifySlab_slabs, if_pos rfl, hslabs]
    rfl
  · have hinfo' : (k'.modifySlab i (·.addPartial (infoAddr p i))).infos (infoAddr p i) = _ := hinfo
    rw [hinfo']
    simp

section Calls

theorem Filed.mem_footer {P : List Nat → Prop} {l : List Nat} (h : Filed k owner i P l) (hi : i < 32) :
    infoAddr p i ∈ l ↔ owner p = some i ∧ P (k.infos (infoAddr p i)).freeList := by
  rw [h.mem_iff]
  constructor
  · rintro ⟨q, hq, he, hP⟩
    have hpq : p = q := by
      by_contra hne
      exact infoAddr_ne hi hi hne he
    exact ⟨hpq ▸ hq, hP⟩
  · rintro ⟨hp, hP⟩
    exact ⟨p, hp, rfl, hP⟩

namespace SlabInv

theorem not_free (h : SlabInv k alloc owner) (hown : owner p = some i) : p ∉ k.phys.freeSet := by
  have ha := (h.frame p i hown).alloc
  exact h.frames.not_mem_freeSet ha (mem_blockSet.2 (by omega))

theorem owner_none (h : SlabInv k alloc owner) (hp : alloc p = none) : owner p = none := by
  cases ho : owner p with
  | none => rfl
  | some l =>
    have := (h.frame p l ho).alloc
    rw [hp] at this
    cases this

/-- A new slab page for a class, or nothing when the buddy allocator has no page. -/
theorem slabAllocChunk (h : SlabInv k alloc owner) (hi : i < 32) :
    ((k.phys.pageAlloc ALLOC_ZERO).1 = none ∧ k.slabAllocChunk i = .ok (false, k)) ∨
      ∃ p k' alloc', k.slabAllocChunk i = .ok (true, k') ∧ owner p = none ∧ SlabInv k' alloc' (update owner p (some i)) ∧
        NewSlab k k' k'.phys p i ∧ p ∈ k.phys.freeSet ∧ k'.phys.freeSet = k.phys.freeSet \ {p} ∧
        ∀ f o, k'.phys.bytes f o = if f = p then 0 else k.phys.bytes f o := by
  cases hr : k.phys.pageAlloc ALLOC_ZERO with
  | mk r m =>
  have h1 : (k.phys.pageAlloc ALLOC_ZERO).1 = r := by rw [hr]
  have h2 : (k.phys.pageAlloc ALLOC_ZERO).2 = m := by rw [hr]
  cases r with
  | none =>
    refine .inl ⟨rfl, ?_⟩
    unfold Kmem.slabAllocChunk
    rw [hr]
    simp only
    rw [← h2, (h.frames.pageAlloc_none h1).1]
  | some p =>
    right
    obtain ⟨hfr, hal⟩ := h.frames.pageAlloc h1
    rw [h2] at hfr hal
    have hreq : Phys.reqOrder ALLOC_ZERO = 0 := by decide
    rw [hreq] at hfr
    have hnone := h.owner_none hal.head
    have hnp : infoAddr p i ∉ (k.slabs i).partialSlabs := fun hm => by
      rw [(h.partials i hi).mem_footer hi, hnone] at hm
      cases hm.1
    have hnf : infoAddr p i ∉ (k.slabs i).full := fun hm => by
      rw [(h.full i hi).mem_footer hi, hnone] at hm
      cases hm.1
    obtain ⟨k', hk', hnew⟩ := slabAllocChunk_some hi (h.sized i hi) hr hal.idle.2
    have hset : (m.setRef p 1).freeSet = k.phys.freeSet \ {p} := by
      rw [Frames.freeSet_setRef, hal.freeSet, hreq, blockSet_zero]
    have hne : (k'.infos (infoAddr p i)).freeList ≠ [] := by
      have hcount := slabCount_bounds hi
      exact List.ne_nil_of_length_pos (by rw [hnew.length]; omega)
    refine ⟨p, k', update alloc p (some 0), hk', hnone, ?_, hnew.phys ▸ hnew, ?_, by rw [hnew.phys, hset], fun f o => ?_⟩
    · refine h.refile hi hnew.same (.inl hnone) (.inr rfl) ?_ ?_ (hnew.phys ▸ hfr.setRef (update_self p (some 0) alloc) 1)
        (fun q hqp hold => ?_) fun _ => ⟨?_, hnew.page⟩
      · rw [hnew.partialSlabs]
        exact .add (h.partials i hi).nodup hnp ⟨rfl, hne⟩
      · rw [hnew.full]
        exact .same (h.full i hi).nodup (iff_of_false hnf fun hc => hne hc.2)
      · rw [hnew.phys]
        refine ⟨by rw [update_of_ne hqp, hold.alloc], ?_⟩
        rw [Phys.setRef_pages, if_neg hqp, hal.ppRef, hold.ppRef]
      · rw [hnew.phys]
        exact ⟨update_self .., by simp⟩
    · exact hal.free (by rw [hreq, blockSet_zero]; rfl)
    · rw [hnew.phys, Phys.setRef_bytes, hal.bytes, hreq]
      refine if_congr ⟨fun hf => ?_, fun hf => ⟨by decide, ?_⟩⟩ rfl rfl <;> omega

end SlabInv

/-! ## Taking an object and putting it back -/

/-- The page `p` of the class `i` gets another free list, and `f` files it. -/
def Kmem.rewrite (k : Kmem) (p i : Nat) (objs : List Nat) (f : Slab → Slab) : Kmem :=
  (k.modifyInfo (infoAddr p i) fun _ => ⟨i, objs, objs.length⟩).modifySlab i f

theorem Kmem.modifySlab_id (k : Kmem) (i : Nat) : k.modifySlab i id = k := by
  simp only [modifySlab, id, update_eq_self]

theorem Kmem.rewrite_freeList (k : Kmem) (p i : Nat) (objs : List Nat) (f : Slab → Slab) :
    ((k.rewrite p i objs f).infos (infoAddr p i)).freeList = objs := by
  simp [rewrite]

theorem Kmem.rewrite_infos (k : Kmem) (p i : Nat) (objs : List Nat) (f : Slab → Slab) {a : Nat} (ha : a ≠ infoAddr p i) :
    (k.rewrite p i objs f).infos a = k.infos a := by
  simp [rewrite, ha]

namespace SlabInv

section

variable (h : SlabInv k alloc owner)

include h

section

variable (hown : owner p = some i) {objs rest : List Nat}

include hown

theorem rewrite {f : Slab → Slab} (hsized : (k.slabs i).Sized i → (f (k.slabs i)).Sized i)
    (hp : Refiled (infoAddr p i) (objs ≠ []) (k.slabs i).partialSlabs (f (k.slabs i)).partialSlabs)
    (hf : Refiled (infoAddr p i) (objs = []) (k.slabs i).full (f (k.slabs i)).full) (hnd : objs.Nodup)
    (hobjs : ∀ a ∈ objs, ∃ j < slabCount i, a = objAddr p i j) : SlabInv (k.rewrite p i objs f) alloc owner := by
  have hupd : update owner p (some i) = owner := by rw [← hown, update_eq_self]
  have hslab : (k.rewrite p i objs f).slabs i = f (k.slabs i) := by simp [Kmem.rewrite]
  have hinfo : (k.rewrite p i objs f).infos (infoAddr p i) = ⟨i, objs, objs.length⟩ := by simp [Kmem.rewrite]
  have hput : SlabInv (k.rewrite p i objs f) alloc (update owner p (some i)) := by
    refine h.refile (h.lt p i hown) ⟨rfl, by rwa [hslab], fun l hl => ?_, fun a => k.rewrite_infos p i objs f,
      fun _ _ _ _ _ _ => rfl⟩ (.inr hown) (.inr rfl) ?_ ?_ h.frames (fun _ _ hq => hq) fun _ => ⟨h.frame p i hown, ?_⟩
    · simp [Kmem.rewrite, hl]
    · simpa only [hslab, hinfo, true_and] using hp
    · simpa only [hslab, hinfo, true_and] using hf
    · refine ⟨?_, ?_, ?_, ?_, (h.page p i hown).header⟩ <;> rw [hinfo]
      · exact hnd
      · exact hobjs
  rwa [hupd] at hput

/-- A page that still has free objects, or still has none, stays in its list. -/
theorem rewrite_id (hiff : objs = [] ↔ (k.infos (infoAddr p i)).freeList = []) (hnd : objs.Nodup)
    (hobjs : ∀ a ∈ objs, ∃ j < slabCount i, a = objAddr p i j) : SlabInv (k.rewrite p i objs id) alloc owner := by
  have hi := h.lt p i hown
  refine h.rewrite hown id (.same (h.partials i hi).nodup ?_) (.same (h.full i hi).nodup ?_) hnd hobjs
  · rw [(h.partials i hi).mem_footer hi, ne_eq, ne_eq, hiff]
    exact and_iff_right hown
  · rw [(h.full i hi).mem_footer hi, hiff]
    exact and_iff_right hown

/-- An object is taken. -/
theorem takeFirst (hp : (k.slabs i).partialSlabs = infoAddr p i :: rest) :
    ∃ j objs f, j < slabCount i ∧ (k.infos (infoAddr p i)).freeList = objAddr p i j :: objs ∧
      k.takeFirst i = .ok (objAddr p i j + SLAB_OBJ_SIZE, k.rewrite p i objs f) ∧ SlabInv (k.rewrite p i objs f) alloc owner := by
  have hi := h.lt p i hown
  have hpage := h.page p i hown
  have hmem := ((h.partials i hi).mem_footer hi).1 (by rw [hp]; exact List.mem_cons_self)
  obtain ⟨obj, objs, hobjs⟩ := List.exists_cons_of_ne_nil hmem.2
  obtain ⟨j, hj, rfl⟩ := hpage.objects obj (by rw [hobjs]; exact List.mem_cons_self)
  have hcount : sub64 (k.infos (infoAddr p i)).freeCount 1 = objs.length := by
    have hle := hpage.length_le
    have hmax := (slabCount_bounds hi).2
    rw [hobjs, List.length_cons] at hle
    rw [hpage.freeCount, hobjs, List.length_cons, sub64]
    omega
  have hnd := (List.nodup_cons.1 (hobjs ▸ hpage.nodup)).2
  have hsub : ∀ a ∈ objs, ∃ j < slabCount i, a = objAddr p i j :=
    fun a ha => hpage.objects a (by rw [hobjs]; exact List.mem_cons_of_mem _ ha)
  have hrun : ∀ f : Slab → Slab, (if objs.isEmpty then fun s : Slab => (s.listDel (infoAddr p i)).addFull (infoAddr p i) else id) = f →
      k.takeFirst i = .ok (objAddr p i j + SLAB_OBJ_SIZE, k.rewrite p i objs f) := by
    rintro f rfl
    unfold Kmem.takeFirst
    simp only [hp, hobjs, Kmem.modifyInfo_infos, if_true, Kmem.rewrite]
    unfold Kmem.modifyInfo
    simp only [hpage.slab, hcount]
    split
    · rfl
    · rw [Kmem.modifySlab_id]
  cases objs with
  | nil =>
    refine ⟨j, [], _, hj, hobjs, hrun _ rfl, h.rewrite hown (fun hs => ⟨hs.objSize, hs.count, hs.infoOff⟩) ?_ ?_ hnd hsub⟩
    · exact .erase (h.partials i hi).nodup (not_not.2 rfl)
    · exact .cons (h.full i hi).nodup rfl
  | cons obj objs => exact ⟨j, _, id, hj, hobjs, hrun _ rfl, h.rewrite_id hown (by simp [hobjs]) hnd hsub⟩

/-- An object comes back. -/
theorem putObj (hj : j < slabCount i) (hheld : objAddr p i j ∉ (k.infos (infoAddr p i)).freeList) :
    ∃ f, k.putObj i (infoAddr p i) (objAddr p i j) =
        k.rewrite p i (objAddr p i j :: (k.infos (infoAddr p i)).freeList) f ∧
      SlabInv (k.rewrite p i (objAddr p i j :: (k.infos (infoAddr p i)).freeList) f) alloc owner := by
  have hi := h.lt p i hown
  have hpage := h.page p i hown
  have hcount : add64 (k.infos (infoAddr p i)).freeCount 1 = (objAddr p i j :: (k.infos (infoAddr p i)).freeList).length := by
    have hle := hpage.length_le
    have hmax := (slabCount_bounds hi).2
    rw [hpage.freeCount, List.length_cons, add64]
    omega
  have hnd : (objAddr p i j :: (k.infos (infoAddr p i)).freeList).Nodup := List.nodup_cons.2 ⟨hheld, hpage.nodup⟩
  have hsub : ∀ a ∈ objAddr p i j :: (k.infos (infoAddr p i)).freeList, ∃ j < slabCount i, a = objAddr p i j := by
    intro a ha
    rcases List.mem_cons.1 ha with rfl | ha
    · exact ⟨j, hj, rfl⟩
    · exact hpage.objects a ha
  have hinfo : ∀ k0 : Kmem, k0.infos = k.infos →
      (k0.modifyInfo (infoAddr p i) fun s => { s with freeList := objAddr p i j :: s.freeList, freeCount := add64 s.freeCount 1 }) =
        k0.modifyInfo (infoAddr p i) fun _ => ⟨i, objAddr p i j :: (k.infos (infoAddr p i)).freeList,
          (objAddr p i j :: (k.infos (infoAddr p i)).freeList).length⟩ := by
    intro k0 hk0
    simp only [modifyInfo, hk0, hpage.slab, hcount]
  unfold Kmem.putObj
  by_cases hl : (k.infos (infoAddr p i)).freeList = []
  · refine ⟨fun s => (s.listDel (infoAddr p i)).addPartial (infoAddr p i), ?_,
      h.rewrite hown (fun hs => ⟨hs.objSize, hs.count, hs.infoOff⟩) (.cons (h.partials i hi).nodup (List.cons_ne_nil _ _))
        (.erase (h.full i hi).nodup (List.cons_ne_nil _ _)) hnd hsub⟩
    rw [if_pos (List.isEmpty_iff.2 hl)]
    exact hinfo (k.modifySlab i _) rfl
  · refine ⟨id, ?_, h.rewrite_id hown (by simp [hl]) hnd hsub⟩
    rw [if_neg (mt List.isEmpty_iff.1 hl), Kmem.rewrite, Kmem.modifySlab_id]
    exact hinfo k rfl

omit hown in
theorem setPhys {m : Phys} (hb : Frames m alloc')
    (hframe : ∀ p i, owner p = some i → SlabFrame m alloc' p) : SlabInv { k with phys := m } alloc' owner where
  frames := hb
  nslabs := h.nslabs
  sized := h.sized
  partials := fun i hi => ⟨(h.partials i hi).nodup, (h.partials i hi).mem_iff⟩
  full := fun i hi => ⟨(h.full i hi).nodup, (h.full i hi).mem_iff⟩
  lt := h.lt
  frame := hframe
  page := fun p i hp => (h.page p i hp).congr rfl fun _ _ => rfl

/-- An empty slab page goes away. -/
theorem slabFreeChunk :
    ∃ k', k.slabFreeChunk i (infoAddr p i) = .ok k' ∧ SlabInv k' (update alloc p none) (update owner p none) ∧
      k'.phys.freeSet = k.phys.freeSet ∪ {p} ∧ k'.infos = k.infos ∧ k'.phys.bytes = k.phys.bytes := by
  have hi := h.lt p i hown
  have hfr := h.frame p i hown
  have hoff := slabInfoOff_lt hi
  obtain ⟨m, hm, hdrop⟩ := h.frames.decref hfr.alloc (by rw [hfr.ppRef]; exact Nat.one_pos)
  have hbase : roundDown (infoAddr p i) = page2kva p := by
    simp only [roundDown, infoAddr, page2kva, KADDR, KERNEL_VMA, PAGE_SIZE, SLAB_INFO_SIZE] at hoff ⊢
    omega
  have hpage : (page2kva p - KERNEL_VMA) / PAGE_SIZE = p := by
    simp only [page2kva, KADDR, PAGE_SIZE]
    omega
  have hge : ¬page2kva p < KERNEL_VMA := by
    simp only [page2kva, KADDR]
    omega
  have hlt : ¬p ≥ k.phys.npages := by
    have := h.frames.lt_of_alloc hfr.alloc
    omega
  have hfrm := hdrop.frames
  have hset := hdrop.freeSet
  rw [if_pos hfr.ppRef] at hfrm hset
  refine ⟨{ k.modifySlab i (·.listDel (infoAddr p i)) with phys := m }, ?_, ?_, by rw [hset, blockSet_zero], rfl, hdrop.bytes⟩
  · unfold Kmem.slabFreeChunk
    simp only [hbase, hpage, if_neg hge, if_neg hlt, modifySlab_phys, hm]
    rfl
  · refine h.refile hi ⟨rfl, fun hs => ?_, fun l hl => ?_, fun _ _ => rfl, fun _ _ _ _ _ _ => rfl⟩ (.inr hown) (.inl rfl)
      ?_ ?_ hfrm (fun q hqp hold => ?_) nofun
    · simp only [modifySlab_slabs, if_true]
      exact ⟨hs.objSize, hs.count, hs.infoOff⟩
    · simp only [modifySlab_slabs, if_neg hl]
    · simp only [modifySlab_slabs, if_true]
      exact .erase (h.partials i hi).nodup nofun
    · simp only [modifySlab_slabs, if_true]
      exact .erase (h.full i hi).nodup nofun
    · exact ⟨by rw [update_of_ne hqp, hold.alloc], by rw [hdrop.ppRef, if_neg hqp, hold.ppRef]⟩

/-! ## The calls -/

omit hown in
/-- The page of an object is read off its address. -/
theorem held_iff (a : Nat) : Held k owner a ↔
    ∃ i, owner (kvaFrame a) = some i ∧ (∃ j < slabCount i, a = objAddr (kvaFrame a) i j) ∧
      a ∉ (k.infos (infoAddr (kvaFrame a) i)).freeList := by
  constructor
  · rintro ⟨q, l, j, hq, hj, ha, hfree⟩
    have hframe : kvaFrame a = q := by rw [ha, kvaFrame_objAddr (h.lt q l hq) hj]
    rw [hframe]
    exact ⟨l, hq, ⟨j, hj, ha⟩, hfree⟩
  · rintro ⟨l, hq, ⟨j, hj, ha⟩, hfree⟩
    exact ⟨_, l, j, hq, hj, ha, hfree⟩

theorem held_page {a : Nat} (ha : kvaFrame a = p) :
    Held k owner a ↔ (∃ j < slabCount i, a = objAddr p i j) ∧ a ∉ (k.infos (infoAddr p i)).freeList := by
  rw [h.held_iff, ha, hown]
  simp only [Option.some.injEq, exists_eq_left']

omit hown in
/-- Two states whose free lists differ by one object of the page `p`. -/
theorem held_cons (h' : SlabInv k' alloc owner) (hown : owner p = some i)
    (hoff : ∀ a, a ≠ infoAddr p i → k'.infos a = k.infos a) (hj : j < slabCount i)
    (hfl : (k.infos (infoAddr p i)).freeList = objAddr p i j :: (k'.infos (infoAddr p i)).freeList) :
    ¬Held k owner (objAddr p i j) ∧ ∀ a, Held k' owner a ↔ Held k owner a ∨ a = objAddr p i j := by
  have hi := h.lt p i hown
  have hframe := kvaFrame_objAddr (p := p) hi hj
  have hnd := (List.nodup_cons.1 (hfl ▸ (h.page p i hown).nodup)).1
  refine ⟨fun hh => ((h.held_page hown hframe).1 hh).2 (by rw [hfl]; exact List.mem_cons_self), fun a => ?_⟩
  by_cases ha : kvaFrame a = p
  · rw [h'.held_page hown ha, h.held_page hown ha, hfl, List.mem_cons]
    by_cases hx : a = objAddr p i j
    · exact iff_of_true ⟨⟨j, hj, hx⟩, hx ▸ hnd⟩ (.inr hx)
    · simp only [hx, false_or, or_false]
  · have hx : a ≠ objAddr p i j := fun e => ha (e ▸ hframe)
    rw [h'.held_iff, h.held_iff, or_iff_left hx]
    refine exists_congr fun l => and_congr_right fun hl => ?_
    rw [hoff _ (infoAddr_ne (h.lt _ l hl) hi ha)]

omit hown in
/-- A page whose objects are all free is as good as none. -/
theorem held_allFree {owner' : Nat → Option Nat} (h' : SlabInv k' alloc' owner') (hown : owner p = some i)
    (hall : (k.infos (infoAddr p i)).freeList.length = slabCount i) (hnone : owner' p = none)
    (hsame : ∀ q, q ≠ p → owner' q = owner q) (hoff : ∀ a, a ≠ infoAddr p i → k'.infos a = k.infos a) (a : Nat) :
    Held k owner a ↔ Held k' owner' a := by
  by_cases ha : kvaFrame a = p
  · refine iff_of_false (fun hh => ?_) fun hh => ?_
    · obtain ⟨⟨j, hj, rfl⟩, hno⟩ := (h.held_page hown ha).1 hh
      exact hno ((h.page p i hown).mem_of_length hall hj)
    · obtain ⟨l, hl, -⟩ := (h'.held_iff a).1 hh
      rw [ha, hnone] at hl
      cases hl
  · rw [h.held_iff, h'.held_iff, hsame _ ha]
    refine exists_congr fun l => and_congr_right fun hl => ?_
    rw [hoff _ (infoAddr_ne (h.lt _ l hl) (h.lt p i hown) ha)]

/-- Taking the first object of the page at the head of the partial slabs, which may be a new one. -/
theorem takeFirst_held (hp : (k.slabs i).partialSlabs = infoAddr p i :: rest)
    (hn : ∀ q l, owner q = some l → q ≠ p → (k.infos (infoAddr q l)).freeList.length < slabCount l) :
    ∃ j k', j < slabCount i ∧ k.takeFirst i = .ok (objAddr p i j + SLAB_OBJ_SIZE, k') ∧ SlabInv k' alloc owner ∧
      k'.phys = k.phys ∧ NoneFree k' owner ∧ ¬Held k owner (objAddr p i j) ∧
      ∀ a, Held k' owner a ↔ Held k owner a ∨ a = objAddr p i j := by
  obtain ⟨j, objs, f, hj, hfl, hrun, hinv⟩ := h.takeFirst hown hp
  obtain ⟨hfresh, hheld⟩ := h.held_cons hinv hown (fun a => k.rewrite_infos p i objs f) hj (by rw [rewrite_freeList, hfl])
  refine ⟨j, _, hj, hrun, hinv, rfl, fun q l hq => ?_, hfresh, hheld⟩
  by_cases hqp : q = p
  · subst hqp
    cases hown.symm.trans hq
    have hle := (h.page q i hown).length_le
    rw [hfl, List.length_cons] at hle
    rw [rewrite_freeList]
    omega
  · rw [rewrite_infos _ _ _ _ _ (infoAddr_ne (h.lt q l hq) (h.lt p i hown) hqp)]
    exact hn q l hq hqp

end

/-- What `slab_alloc` does when it returns the object `j` of the page `p`. -/
structure Took (k k' : Kmem) (alloc' owner : Nat → Option Nat) (p i j : Nat) : Prop where
  inv : SlabInv k' alloc' (update owner p (some i))
  noneFree : NoneFree k' (update owner p (some i))
  lt : j < slabCount i
  fresh : ¬Held k owner (objAddr p i j)
  held : ∀ a, Held k' (update owner p (some i)) a ↔ Held k owner a ∨ a = objAddr p i j
  frames : (owner p = some i ∧ k'.phys.freeSet = k.phys.freeSet) ∨
    (owner p = none ∧ p ∈ k.phys.freeSet ∧ k'.phys.freeSet = k.phys.freeSet \ {p})

/-- `slab_alloc` hands out an object that nobody holds, or finds no memory and changes nothing. A page that it takes is
cleared. -/
theorem slabAlloc (hn : NoneFree k owner) (hi : i < 32) :
    ((k.slabs i).partialSlabs = [] ∧ (k.phys.pageAlloc ALLOC_ZERO).1 = none ∧ k.slabAlloc i = .ok (none, k)) ∨
      ∃ p j k' alloc', k.slabAlloc i = .ok (some (objAddr p i j + SLAB_OBJ_SIZE), k') ∧ Took k k' alloc' owner p i j ∧
        ∀ f o, k'.phys.bytes f o = if owner p = none ∧ f = p then 0 else k.phys.bytes f o := by
  unfold Kmem.slabAlloc
  cases hl : (k.slabs i).partialSlabs with
  | cons info rest =>
    right
    obtain ⟨p, hown, rfl, _⟩ := ((h.partials i hi).mem_iff info).1 (by rw [hl]; exact List.mem_cons_self)
    obtain ⟨j, k', hj, hrun, hinv, hphys, hn', hfresh, hheld⟩ := h.takeFirst_held hown hl (fun q l hq _ => hn q l hq)
    have hupd : update owner p (some i) = owner := by rw [← hown, update_eq_self]
    refine ⟨p, j, k', alloc, ?_, ⟨?_, ?_, hj, hfresh, ?_, .inl ⟨hown, by rw [hphys]⟩⟩, by simp [hphys, hown]⟩
    · simp only [List.isEmpty_cons, Bool.false_eq_true, if_false]
      show (k.takeFirst i >>= _) = _
      rw [hrun]
      rfl
    · rwa [hupd]
    · rwa [hupd]
    · rwa [hupd]
  | nil =>
    simp only [List.isEmpty_nil, if_true]
    rcases h.slabAllocChunk hi with ⟨hnone, hrun⟩ | ⟨p, k1, alloc', hsome, hown, hinv, hnew, hfree, hset, hbytes⟩
    · refine .inl ⟨trivial, hnone, ?_⟩
      rw [hrun]
      rfl
    · right
      have hoff := hnew.same.infos
      have hp : (k1.slabs i).partialSlabs = infoAddr p i :: [] := by rw [hnew.partialSlabs, hl]
      have hheld1 := hinv.held_allFree h (update_self p (some i) owner) hnew.length hown (fun q hqp => (update_of_ne hqp _ _).symm)
        fun a ha => (hoff a ha).symm
      obtain ⟨j, k', hj, hrun, hinv', hphys, hn', hfresh, hheld⟩ :=
        hinv.takeFirst_held (update_self p (some i) owner) hp (fun q l hq hqp => by
          rw [update_of_ne hqp] at hq
          rw [hoff _ (infoAddr_ne (h.lt q l hq) hi hqp)]
          exact hn q l hq)
      refine ⟨p, j, k', alloc', ?_, ⟨hinv', hn', hj, fun hh => hfresh ((hheld1 _).2 hh), fun a => ?_,
        .inr ⟨hown, hfree, by rw [hphys, hset]⟩⟩, by simp [hphys, hown, hbytes]⟩
      · rw [hsome]
        show (k1.takeFirst i >>= _) = _
        rw [hrun]
        rfl
      · rw [hheld, hheld1]

/-- What `slab_free` does with the object `j` of the page `p`: the page stays with an object less, or goes. -/
structure Gave (k k' : Kmem) (alloc' owner owner' : Nat → Option Nat) (p i j : Nat) : Prop where
  inv : SlabInv k' alloc' owner'
  noneFree : NoneFree k' owner'
  held : ∀ a, Held k' owner' a ↔ Held k owner a ∧ a ≠ objAddr p i j
  frames : (owner' = owner ∧ k'.phys.freeSet = k.phys.freeSet) ∨
    (owner' = update owner p none ∧ k'.phys.freeSet = k.phys.freeSet ∪ {p})

/-- `slab_free` takes back an object that is handed out, and clears it. -/
theorem slabFree (hn : NoneFree k owner) (hown : owner p = some i)
    (hj : j < slabCount i) (hfree : objAddr p i j ∉ (k.infos (infoAddr p i)).freeList) :
    ∃ k' alloc' owner', k.slabFree (objAddr p i j + SLAB_OBJ_SIZE) = .ok k' ∧ Gave k k' alloc' owner owner' p i j ∧
      k'.phys.bytes = (k.memset (objAddr p i j + SLAB_OBJ_SIZE) (slabObjSize i - SLAB_OBJ_SIZE)).phys.bytes := by
  have hi := h.lt p i hown
  have hpage := h.page p i hown
  let k0 := k.memset (objAddr p i j + SLAB_OBJ_SIZE) ((k.slabs i).objSize - SLAB_OBJ_SIZE)
  have h0 : SlabInv k0 alloc owner := by
    refine h.setPhys (h.frames.congr_pages rfl rfl (fun _ => rfl) (fun _ => rfl) (fun _ => rfl) fun _ => rfl) ?_
    exact fun q l hq => ⟨(h.frame q l hq).alloc, (h.frame q l hq).ppRef⟩
  have hbytes : k0.phys.bytes = (k.memset (objAddr p i j + SLAB_OBJ_SIZE) (slabObjSize i - SLAB_OBJ_SIZE)).phys.bytes := by
    rw [← (h.sized i hi).objSize]
  obtain ⟨f, hput, hinv⟩ := h0.putObj hown hj hfree
  generalize hk1 : k0.rewrite p i _ f = k1 at hput hinv
  have hfl : (k1.infos (infoAddr p i)).freeList = objAddr p i j :: (k.infos (infoAddr p i)).freeList := by
    rw [← hk1, rewrite_freeList]
    rfl
  have hoff : ∀ a, a ≠ infoAddr p i → k1.infos a = k.infos a := fun a ha => by
    rw [← hk1, rewrite_infos _ _ _ _ _ ha]
    rfl
  have hphys : k1.phys = k0.phys := by
    rw [← hk1]
    rfl
  have hset : k1.phys.freeSet = k.phys.freeSet := by
    rw [hphys]
    rfl
  obtain ⟨hno, hback⟩ := hinv.held_cons h hown (fun a ha => (hoff a ha).symm) hj hfl
  have hheld : ∀ a, Held k1 owner a ↔ Held k owner a ∧ a ≠ objAddr p i j := by
    intro a
    rw [hback]
    constructor
    · exact fun ha => ⟨.inl ha, fun e => hno (e ▸ ha)⟩
    · exact fun ha => ha.1.resolve_right ha.2
  have hrun : k.slabFree (objAddr p i j + SLAB_OBJ_SIZE) =
      if (k1.infos (infoAddr p i)).freeList.length ≥ slabCount i then k1.slabFreeChunk i (infoAddr p i) else .ok k1 := by
    unfold Kmem.slabFree
    simp only [Nat.add_sub_cancel, hpage.header j hj, hpage.slab]
    rw [← (hinv.sized i hi).count, ← (hinv.page p i hown).freeCount, ← hput]
  -- The pages other than `p` have as many free objects as before.
  have hrest : ∀ q l, owner q = some l → q ≠ p → (k1.infos (infoAddr q l)).freeList.length < slabCount l := by
    intro q l hq hqp
    rw [hoff _ (infoAddr_ne (h.lt q l hq) hi hqp)]
    exact hn q l hq
  by_cases hall : (k1.infos (infoAddr p i)).freeList.length ≥ slabCount i
  · obtain ⟨k', hk', hinv', hset', hinfos, hb⟩ := hinv.slabFreeChunk hown
    have hlen := le_antisymm (hinv.page p i hown).length_le hall
    have hgone := hinv.held_allFree hinv' hown hlen (update_self p none owner) (fun q hqp => update_of_ne hqp _ _)
      fun a _ => by rw [hinfos]
    refine ⟨k', _, update owner p none, by rw [hrun, if_pos hall, hk'], ⟨hinv', fun q l hq => ?_,
      fun a => (hgone a).symm.trans (hheld a), .inr ⟨rfl, by rw [hset', hset]⟩⟩, by rw [hb, hphys, hbytes]⟩
    by_cases hqp : q = p
    · rw [hqp, update_self] at hq
      cases hq
    · rw [update_of_ne hqp] at hq
      rw [hinfos]
      exact hrest q l hq hqp
  · refine ⟨k1, alloc, owner, by rw [hrun, if_neg hall], ⟨hinv, fun q l hq => ?_, hheld, .inl ⟨rfl, hset⟩⟩, by rw [hphys, hbytes]⟩
    by_cases hqp : q = p
    · subst hqp
      cases hown.symm.trans hq
      omega
    · exact hrest q l hq hqp

end

end SlabInv

end Calls

end OpenLsd
