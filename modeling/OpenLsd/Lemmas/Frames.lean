import OpenLsd.Lemmas.BuddyOps
import OpenLsd.Mem.PageTable

/-!
# Allocated frames and their references

What the users of physical memory rely on: `page_alloc`, `pp_ref++` and `page_decref` as operations on the allocated blocks
and their reference counts. `Frames` is the invariant of the buddy allocator together with the fact that every allocated
block is available memory, so that its last reference may be dropped at any time.
-/

namespace OpenLsd

open Function

/-- The invariant of the buddy allocator, with every allocated block in available memory. -/
structure Frames (m : Phys) (alloc : Orders) : Prop extends BuddyInv m alloc where
  avail : ∀ p k, alloc p = some k → (m.pages p).ppAvail = true

/-- What dropping a reference to the block at `p` does: with the last reference the block is free again. -/
structure Dropped (m : Phys) (alloc : Orders) (p k : Nat) (m' : Phys) : Prop where
  frames : Frames m' (if (m.pages p).ppRef = 1 then update alloc p none else alloc)
  ppRef : ∀ q, (m'.pages q).ppRef = if q = p then (m.pages q).ppRef - 1 else (m.pages q).ppRef
  freeSet : m'.freeSet = if (m.pages p).ppRef = 1 then m.freeSet ∪ blockSet p k else m.freeSet
  npages : m'.npages = m.npages
  bytes : m'.bytes = m.bytes
  cpu : m'.cpu = m.cpu

namespace Frames

variable {m m' : Phys} {alloc : Orders} {p k : Nat}

/-- References are counted on allocated blocks only, and the allocator never looks at them there. -/
theorem setRef (h : Frames m alloc) (ha : alloc p = some k) (r : Nat) : Frames (m.setRef p r) alloc := by
  refine ⟨h.congr rfl rfl (fun q => by simp) (fun q => by simp) (fun _ _ i _ _ hi hidle => ?_), fun q l hq => ?_⟩
  · have hip : i ≠ p := by
      rintro rfl
      rw [ha] at hi
      cases hi
    simpa [PageInfo.Idle, hip] using hidle
  · rw [Phys.setRef_pages]
    exact h.avail q l hq

theorem freeSet_setRef (m : Phys) (p r : Nat) : (m.setRef p r).freeSet = m.freeSet :=
  BuddyInv.freeSet_congr rfl (fun _ => by simp) (fun _ => by simp)

/-- Changing the bytes, the CPU or what is tracked of the pages changes nothing for the allocator. -/
theorem congr_pages (h : Frames m alloc) (hn : m'.npages = m.npages) (hl : m'.buddyFreeList = m.buddyFreeList)
    (ho : ∀ q, (m'.pages q).ppOrder = (m.pages q).ppOrder) (hf : ∀ q, (m'.pages q).ppFree = (m.pages q).ppFree)
    (ha : ∀ q, (m'.pages q).ppAvail = (m.pages q).ppAvail) (hr : ∀ q, (m'.pages q).ppRef = (m.pages q).ppRef) :
    Frames m' alloc := by
  refine ⟨h.congr hn hl ho hf (fun _ _ i _ _ _ hidle => ?_), fun q l hq => (ha q).trans (h.avail q l hq)⟩
  exact ⟨(ha i).trans hidle.1, (hr i).trans hidle.2⟩

theorem pageAlloc (h : Frames m alloc) {allocFlags : Nat} (hr : (m.pageAlloc allocFlags).1 = some p) :
    Frames (m.pageAlloc allocFlags).2 (update alloc p (some (Phys.reqOrder allocFlags))) ∧
      BuddyInv.Allocated m alloc allocFlags p (m.pageAlloc allocFlags).2 := by
  have hspec := h.pageAlloc_some hr
  refine ⟨⟨hspec.inv, fun q l hq => ?_⟩, hspec⟩
  by_cases hqp : q = p
  · rw [hqp]
    exact hspec.idle.1
  · rw [hspec.ppAvail]
    rw [update_of_ne hqp] at hq
    exact h.avail q l hq

/-- `page_decref` of an allocated page. -/
theorem decref (h : Frames m alloc) (ha : alloc p = some k) (hpos : 0 < (m.pages p).ppRef) :
    ∃ m', m.decref p = .ok m' ∧ Dropped m alloc p k m' := by
  let m1 := m.setRef p ((m.pages p).ppRef - 1)
  have h1 : Frames m1 alloc := h.setRef ha _
  have href : ∀ q, (m1.pages q).ppRef = if q = p then (m.pages q).ppRef - 1 else (m.pages q).ppRef := by
    intro q
    rw [Phys.setRef_pages]
    by_cases hq : q = p <;> simp [hq]
  have hself : (m1.pages p).ppRef = (m.pages p).ppRef - 1 := by rw [href, if_pos rfl]
  by_cases hlast : (m.pages p).ppRef = 1
  · have hzero : (m1.pages p).ppRef = 0 := by omega
    have hidle : (m1.pages p).Idle := ⟨h1.avail p k ha, hzero⟩
    obtain ⟨hinv, hset, hsame⟩ := h1.toBuddyInv.pageFree ha hidle
    refine ⟨m1.pageFree p, ?_, ⟨?_, fun q => (hsame.ppRef q).trans (href q), ?_, hsame.npages, hsame.bytes, hsame.cpu⟩⟩
    · have : m.pageDecref p = some (m1.pageFree p) := by
        rw [Phys.pageDecref, if_pos hpos]
        simp only [m1] at hzero
        simp only [hzero, if_true, m1]
      rw [Phys.decref, this]
    · rw [if_pos hlast]
      refine ⟨hinv, fun q l hq => ?_⟩
      rw [hsame.ppAvail]
      by_cases hqp : q = p
      · rw [hqp, update_self] at hq
        cases hq
      · rw [update_of_ne hqp] at hq
        exact h1.avail q l hq
    · rw [if_pos hlast, hset, freeSet_setRef]
  · refine ⟨m1, ?_, ⟨by rwa [if_neg hlast], href, by rw [if_neg hlast, freeSet_setRef], rfl, rfl, rfl⟩⟩
    have hne : (m1.pages p).ppRef ≠ 0 := by omega
    have : m.pageDecref p = some m1 := by
      rw [Phys.pageDecref, if_pos hpos]
      simp only [m1] at hne
      simp only [hne, if_false, m1]
    rw [Phys.decref, this]

end Frames

end OpenLsd
