import OpenLsd.Lemmas.CallRules
import OpenLsd.Lemmas.Unmap

/-!
# The page tables of new tasks and of dead ones

A task starts with a PML4 of its own that maps nothing in the user half, and when its memory is freed nothing of the user half
is left: a walk that removes all pages of a table frees the table as well, level by level up to the PML4.
-/

namespace OpenLsd

open Outcome Function VmSpace

/-! ## Emptying tables -/

section Sweep

variable {σ N : Type}

/-- A sweep over all entries of a table that leaves none of them. -/
theorem sweepPages_clears [HasEntry N] {f : Nat → σ → N → Kernel (σ × N)} {l : Level} {lo hi c : Nat}
    (hlo : lo / l.pages = c * 512) (hhi : hi / l.pages = c * 512 + 511)
    (hf : ∀ d, d / 512 = c → ∀ s e, Yields (f d s e) fun r => (HasEntry.entryOf r.2).present = false) (s : σ) (t : Nat → N) :
    Yields (sweepPages l f lo hi s t) fun r => ∀ i < 512, (HasEntry.entryOf (r.2 i)).present = false := by
  have hn : hi / l.pages - lo / l.pages < 512 := by omega
  refine (sweepPages_each (P := fun _ e => (HasEntry.entryOf e).present = false) hn (fun d hge hle => hf d (by omega)) s t).mono
    fun r hr i hi' => ?_
  have := hr (c * 512 + i) (by omega) (by omega)
  rwa [show (c * 512 + i) % 512 = i by omega] at this

end Sweep

section Remove

variable {info : RemoveInfo} {lo hi c : Nat} {m : Phys}

theorem removePte_clears {e : Entry} : Yields (info.walker.pteTurn c m e) fun r => r.2.present = false := by
  have hcall : Yields (removePte info (Level.first .pte c) m e) fun r => r.2.present = false :=
    .ite (fun _ => .skip fun _ => .ok rfl) fun hp => .ok (by simpa using hp)
  exact hcall.bind fun r hr => .ite (fun hp => absurd hp (by simp [show r.2.present = false from hr])) fun _ => .ok hr

theorem removePde_clears (hlo : lo ≤ c * 512) (hc : c * 512 + 511 ≤ hi) {e : Pde} :
    Yields (info.walker.pdeTurn lo hi c m e) fun r => r.2.entry.present = false := by
  refine branchTurn_clears (C := Entry) (removePde_table _ _ e) rfl fun m t => ?_
  refine sweepPages_clears (l := .pte) (c := c) ?_ ?_ (fun d _ m e => removePte_clears) m t
  · simp only [Level.clipLo, Level.pages]
    omega
  · simp only [Level.clipHi, Level.pages]
    omega

/-- Removing all pages leaves no entry in the user half. -/
theorem unmapUserPages_clears {pml4 : Nat} {t : Pml4} :
    Yields (unmapUserPages pml4 m t) fun r => ∀ i < KERNEL_INDEX, (r.2 i).entry.present = false := by
  have hrange : UserRange 0 USER_LIM := ⟨rfl, by decide, by decide, le_rfl⟩
  have hlast : USER_LIM / PAGE_SIZE - 1 = 2 ^ 35 - 1 := by decide
  unfold unmapUserPages unmapPageRange
  rw [show add64 0 USER_LIM = USER_LIM by decide]
  dsimp only
  rw [hrange.walk_eq, hlast, Nat.zero_div]
  let info : RemoveInfo := { pml4 := pml4, baseRemove := 0, endRemove := USER_LIM }
  have hpde : ∀ c < 2 ^ 26, ∀ m e, Yields (info.walker.pdeTurn 0 (2 ^ 35 - 1) c m e) fun r =>
      r.2.entry.present = false := by
    intro c hc m e
    exact removePde_clears (Nat.zero_le _) (by omega)
  have hpdpte : ∀ c < 2 ^ 17, ∀ m e, Yields (info.walker.pdpteTurn 0 (2 ^ 35 - 1) c m e) fun r =>
      r.2.entry.present = false := by
    intro c hc m e
    refine branchTurn_clears (.ok fun _ => rfl) rfl fun m t =>
      sweepPages_clears (l := .pde) (c := c) ?_ ?_ (fun d hd m e => hpde d (by omega) m e) m t
    · simp only [Level.clipLo, Level.pages]
      omega
    · simp only [Level.clipHi, Level.pages]
      omega
  have hpml4e : ∀ c < 2 ^ 8, ∀ m e, Yields (info.walker.pml4eTurn 0 (2 ^ 35 - 1) c m e) fun r =>
      r.2.entry.present = false := by
    intro c hc m e
    refine branchTurn_clears (.ok fun _ => rfl) rfl fun m t =>
      sweepPages_clears (l := .pdpte) (c := c) ?_ ?_ (fun d hd m e => hpdpte d (by omega) m e) m t
    · simp only [Level.clipLo, Level.pages]
      omega
    · simp only [Level.clipHi, Level.pages]
      omega
  refine (sweep_each (P := fun _ (e : Pml4e) => e.entry.present = false) 256 0 m t (by decide)
    fun d _ hd m e => hpml4e d (by omega) m e).mono fun r hr i hi => ?_
  have hi : i < 256 := hi
  have := hr.1 i (Nat.zero_le _) (by omega)
  rwa [Nat.mod_eq_of_lt (by omega)] at this

end Remove

section Memory

variable {keep : Orders} {count ext : Nat → Nat} {alloc : Orders} {m : Phys} {t : Pml4}

theorem unmapUserPages_spec {pml4 : Nat} (h : Acc keep ext alloc m t) :
    Ends Panics (unmapUserPages pml4 m t) fun r => ∃ alloc', Ledger keep ext alloc' r.1 ∧ Spares ∅ ext alloc m alloc' r.1 := by
  have hrange : UserRange 0 USER_LIM := ⟨rfl, by decide, by decide, le_rfl⟩
  have hmoves : Ends Panics (unmapPageRange pml4 m t 0 USER_LIM)
      (Moves keep False (removeRel.at (0 / PAGE_SIZE) (USER_LIM / PAGE_SIZE)) ext alloc m t) :=
    unmapPageRange_moves hrange (by decide) h
  refine (hmoves.and unmapUserPages_clears).mono fun r ⟨⟨ext', alloc', hmoved⟩, hclear⟩ => ⟨alloc', ?_, hmoved.spares⟩
  have hext := hmoved.ext_eq id
  have hrefs : Node.refs r.2 = 0 := tableRefs_absent hclear
  have hl := hmoved.acc.ledger
  rw [hext, hrefs, add_zero] at hl
  exact hl

theorem freeVmas_ends {bad : Stop → Prop} {fuel : Nat} (htree : ¬bad .rbTree) (l : List Nat) (s : VmSpace) :
    Ends bad (freeVmas fuel l s) fun _ => True := by
  induction l generalizing s with
  | nil => exact .ok trivial
  | cons p l ih =>
    show Ends bad (ofTree (s.removeVma fuel p) >>= fun s => freeVmas fuel l (s.kfree p)) _
    cases s.removeVma fuel p with
    | none => exact .error htree
    | some s' => exact ih _

theorem newPml4_empty (kernelPml4 : Pml4) (keep alloc : Orders) (m : Phys) :
    Node.refs (fun i => if i < KERNEL_INDEX then 0 else kernelPml4 i : Pml4) = 0 ∧
      Node.Fits keep alloc m (fun i => if i < KERNEL_INDEX then 0 else kernelPml4 i : Pml4) := by
  have habs : ∀ i < KERNEL_INDEX, (HasEntry.entryOf (if i < KERNEL_INDEX then 0 else kernelPml4 i)).present = false := by
    intro i hi
    rw [if_pos hi]
    rfl
  exact ⟨tableRefs_absent habs, fun i hi => Sparse.fits (habs i hi)⟩

theorem taskAlloc_spec {kernelPml4 : Pml4} {pid : Nat} (h : Ledger keep count alloc m) :
    Ends Panics (taskAlloc m kernelPml4 pid) fun r => Ledger.NewPage keep count alloc m BUDDY_4K_PAGE r.2.2 r.1 ∧
      r.2.1 = fun i => if i < KERNEL_INDEX then 0 else kernelPml4 i := by
  have hs : SameFrames m { m with cpu := { m.cpu with taskRss := update m.cpu.taskRss pid 0 } } := .of_pages rfl rfl rfl
  unfold taskAlloc taskSetupVas
  simp only [bind_assoc]
  refine ((h.congr hs).allocPage (by decide)).bind fun ⟨page, m1⟩ ht => ?_
  refine (ht.incRef (h.congr hs)).bind fun m2 hn => .ok ⟨?_, rfl⟩
  have hl := hn.ledger
  have hs' : SameFrames m2 { m2 with cpu := { m2.cpu with
      taskPml4 := update m2.cpu.taskPml4 pid (KADDR (page * PAGE_SIZE)) } } := .of_pages rfl rfl rfl
  refine ⟨hn.head, hn.idle, hn.keep_none, hl.congr hs', ?_, hn.zero⟩
  refine ((h.spares_of_same (fun _ hf => hf) hs rfl).trans hn.spares).trans ?_
  exact hl.spares_of_same pos_add hs' rfl

end Memory

end OpenLsd
