import OpenLsd.Lemmas.BuddyOps
import OpenLsd.Lemmas.WalkRules

/-!
# What the code of page tables does to the CPU

In any state of the allocator: taking, referring to and dropping frames, and making, splitting and freeing tables, changes
nothing of the CPU but the size of the resident set, and flushes nothing.
-/

namespace OpenLsd

open Outcome Function Phys

/-- Nothing is flushed, and the same task runs on the same page tables. -/
structure Quiet (m m' : Phys) : Prop where
  flushed : m'.cpu.flushed = m.cpu.flushed
  cr3 : m'.cpu.cr3 = m.cpu.cr3
  curTask : m'.cpu.curTask = m.cpu.curTask
  taskPml4 : m'.cpu.taskPml4 = m.cpu.taskPml4

/-- Every frame that has a reference keeps one. -/
def KeepsRef (m m' : Phys) : Prop := ∀ f, (m.pages f).ppRef ≠ 0 → (m'.pages f).ppRef ≠ 0

namespace KeepsRef

variable {m m' m'' : Phys}

theorem refl (m : Phys) : KeepsRef m m := fun _ h => h

end KeepsRef

namespace Quiet

variable {m m' m'' : Phys} {C : Type}

theorem refl (m : Phys) : Quiet m m := ⟨rfl, rfl, rfl, rfl⟩

theorem trans (h : Quiet m m') (h' : Quiet m' m'') : Quiet m m'' :=
  ⟨h'.1.trans h.1, h'.2.trans h.2, h'.3.trans h.3, h'.4.trans h.4⟩

theorem of_cpu (h : m'.cpu = m.cpu) : Quiet m m' := by constructor <;> rw [h]

theorem charge (m : Phys) (n : Nat) : Quiet m (m.charge n) := by
  unfold Phys.charge
  split
  · exact refl m
  · exact ⟨rfl, rfl, rfl, rfl⟩

end Quiet

@[simp] theorem Phys.charge_pages (m : Phys) (n : Nat) : (m.charge n).pages = m.pages := by
  unfold charge
  split <;> rfl

theorem Phys.pageAlloc_quiet (m : Phys) (allocFlags : Nat) :
    (m.pageAlloc allocFlags).2.cpu = m.cpu ∧ ∀ q, ((m.pageAlloc allocFlags).2.pages q).ppRef = (m.pages q).ppRef := by
  have hfind : SameUse m (m.buddyFind (reqOrder allocFlags)).2 := SameUse.findLoop _ _ _ _
  have hreq : ¬reqOrder allocFlags ≥ BUDDY_MAX_ORDER := Nat.not_le_of_lt (BuddyInv.reqOrder_lt allocFlags)
  simp only [pageAlloc, if_neg hreq]
  rcases he : m.buddyFind (reqOrder allocFlags) with ⟨_ | p, m1⟩
  · rw [he] at hfind
    exact ⟨hfind.cpu, hfind.ppRef⟩
  · rw [he] at hfind
    obtain ⟨_, _, _, hp, _, hc⟩ := BuddyInv.initPage_eq m1 allocFlags p
    refine ⟨hc.trans hfind.cpu, fun q => ?_⟩
    simp only [hp]
    split
    · exact hfind.ppRef q
    · exact hfind.ppRef q

namespace Phys

variable (m : Phys)

/-- What the operations on frames do in any state, if they return. -/
theorem allocPage_quiet (allocFlags : Nat) :
    Yields (m.allocPage allocFlags) fun r => Quiet m r.2 ∧ ∀ q, (r.2.pages q).ppRef = (m.pages q).ppRef := by
  have hq := m.pageAlloc_quiet allocFlags
  unfold allocPage
  split
  · next p m' he =>
    rw [he] at hq
    exact .ok ⟨.of_cpu hq.1, hq.2⟩
  · exact .error id

theorem incRef_quiet (p : Nat) :
    Yields (m.incRef p) fun r => Quiet m r ∧
      ∀ q, (r.pages q).ppRef = if q = p then (m.pages p).ppRef + 1 else (m.pages q).ppRef := by
  refine .ite (fun _ => .ok ⟨.of_cpu rfl, fun q => ?_⟩) fun _ => .error id
  rw [setRef_pages]

end Phys

namespace Quiet

variable {m m' m'' : Phys} {C : Type}

theorem ptblAlloc [Zero C] (m : Phys) (e : Branch C) :
    Yields (OpenLsd.ptblAlloc m e) fun r => Quiet m r.1 ∧ KeepsRef m r.1 ∧
      (e.entry.present = true ∧ r.2 = e ∨
        e.entry.present = false ∧ ∃ p, r.2 = { entry := tableEntry p, child := fun _ => 0 }) := by
  refine .ite (fun hp => .ok ⟨refl m, .refl m, .inl ⟨hp, rfl⟩⟩) fun hp => ?_
  refine (m.allocPage_quiet _).bind fun ⟨p, m1⟩ h1 => ?_
  refine ((m1.charge 1).incRef_quiet p).bind fun m2 h2 => .ok ⟨(h1.1.trans (charge m1 1)).trans h2.1, fun f hf => ?_, ?_⟩
  · rw [h2.2, charge_pages]
    split
    · omega
    · rwa [h1.2]
  · exact .inr ⟨by simpa using hp, p, rfl⟩

end Quiet

theorem ptblMerge_huge {m : Phys} {e : Pde} (base : Nat) (hh : e.entry.huge = true) : ptblMerge base m e = .ok (m, e) :=
  if_pos (.inr hh)

end OpenLsd
