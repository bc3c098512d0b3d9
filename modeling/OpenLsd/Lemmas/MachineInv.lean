import OpenLsd.Lemmas.CloneSpecs
import OpenLsd.Lemmas.TaskSpecs
import OpenLsd.Sched.Task

/-!
# The frames of the machine

Every reference to a frame is one of the kernel or one of a task: from an entry of its page tables, or from the task to its
PML4. A task is a node like the tables are, with the PML4 as what it holds, so the tasks are counted like the entries of a
table. Each task has at most one reference to a frame, and none to the frames that the kernel has references to. The steps of
the machine keep this as long as they stay in the user half.
-/

namespace OpenLsd

open Outcome Function VmSpace Node Machine

variable {keep alloc alloc' alloc0 : Orders} {ext ext0 : Nat → Nat} {m m' m0 : Phys} {u t : TaskSpace} {s s' : Machine}
  {pid fuel : Nat} {T : Set Nat} {bad : Stop → Prop} {image : Nat → UInt8}

/-! ## Tasks as nodes -/

instance : Node (Option TaskSpace) where
  pages := Node.pages Pml4
  refs := fun t => t.elim 0 fun u => Pi.single u.root 1 + Node.refs u.pml4
  Table := fun t f => ∃ u, t = some u ∧ (u.root = f ∨ Node.Table u.pml4 f)
  Fits := fun keep alloc m t => ∀ u, t = some u → TableFrame keep alloc m u.root ∧ Node.Fits keep alloc m u.pml4
  page := fun m t g => t.bind fun u => Node.page m u.pml4 g
  table_refs := by
    rintro _ f ⟨u, rfl, rfl | ht⟩
    · simp
    · exact Nat.add_pos_right _ (Node.table_refs ht)
  fits_table := by
    rintro keep alloc m _ f h ⟨u, rfl, rfl | ht⟩
    · exact (h u rfl).1
    · exact Node.fits_table (h u rfl).2 ht
  fits_spared := by
    rintro keep alloc alloc' lent ext m m' _ hs hext hl h u rfl
    refine ⟨(h u rfl).1.spared hs (hext _ (by simp)) fun hfl => hl _ hfl ⟨u, rfl, .inl rfl⟩, ?_⟩
    exact Node.fits_spared hs (fun f hf => hext f (Nat.add_pos_right _ hf)) (fun f hfl ht => hl f hfl ⟨u, rfl, .inr ht⟩)
      (h u rfl).2
  page_spared := by
    intro keep alloc alloc' lent ext m m' t hs hext h g
    cases t with
    | none => exact .none
    | some u => exact Node.page_spared hs (fun f hf => hext f (Nat.add_pos_right _ hf)) (h u rfl).2 g

theorem refs_task (u : TaskSpace) : refs (some u) = Pi.single u.root 1 + refs u.pml4 := rfl

theorem refs_noTask : refs (none : Option TaskSpace) = 0 := rfl

section Acc

variable {u' : TaskSpace}

theorem Acc.pml4 (h : Acc keep ext alloc m (some u)) : Acc keep (ext + Pi.single u.root 1) alloc m u.pml4 := by
  refine ⟨?_, (h.fits u rfl).2⟩
  rw [add_assoc]
  exact h.ledger

theorem Acc.withPml4 {lent : Set Nat} (h : Acc keep ext alloc m (some u)) (hroot : u'.root = u.root)
    (hacc : Acc keep (ext + Pi.single u.root 1) alloc' m' u'.pml4)
    (hs : Spares lent (ext + Pi.single u.root 1) alloc m alloc' m') (hlent : u.root ∉ lent) : Acc keep ext alloc' m' (some u') := by
  refine ⟨?_, ?_⟩
  · have hl := hacc.ledger
    rwa [add_assoc, ← hroot] at hl
  · rintro _ ⟨⟩
    rw [hroot]
    exact ⟨(h.fits u rfl).1.spared hs (by simp) hlent, hacc.fits⟩

/-- Whoever has at most one reference to a frame has at most one when others are spared. -/
theorem Acc.refs_le {N : Type} [Node N] {e e' : N} (h : Acc keep ext alloc m e) (h' : Acc keep ext alloc' m' e')
    (hs : Spares ∅ ext alloc m alloc' m') (f : Nat) : refs e' f ≤ if ext f = 0 then max 1 (refs e f) else refs e f := by
  have hc := h.ledger.counted f
  have hc' := h'.ledger.counted f
  rw [Pi.add_apply] at hc hc'
  split
  · have := hs.once f (Set.notMem_empty f)
    omega
  · have := hs.ppRef f (Set.notMem_empty f) (by omega)
    omega

end Acc

/-! ## The invariant -/

/-- The kernel has the references `ext0`, each task has its own, and these are all. What the kernel has is as it was with the
frames `m0`. -/
structure Machine.Counted (keep : Orders) (ext0 : Nat → Nat) (alloc0 : Orders) (m0 : Phys)
    (alloc : Orders) (s : Machine) : Prop where
  kernel : Spares Set.univ ext0 alloc0 m0 alloc s.phys
  ledger : Ledger keep (ext0 + tableRefs pidMax s.tasks) alloc s.phys
  fits : ∀ pid, Node.Fits keep alloc s.phys (s.tasks pid)
  once : ∀ pid f, Node.refs (s.tasks pid) f ≤ if ext0 f = 0 then 1 else 0
  pids : ∀ pid t, s.tasks pid = some t → 0 < pid ∧ pid < pidMax
  areas : ∀ pid t, s.tasks pid = some t → AreasOk t.vm

namespace Machine.Counted

variable (h : s.Counted keep ext0 alloc0 m0 alloc)

include h

/-- What is counted apart from a task. -/
theorem acc (hpid : pid < pidMax) : Acc keep (ext0 + otherRefs pidMax s.tasks pid) alloc s.phys (s.tasks pid) := by
  refine ⟨?_, h.fits pid⟩
  rw [add_assoc, ← tableRefs_eq hpid]
  exact h.ledger

/-- The rule for every step: a task changes, and the others keep what they have. -/
theorem set {c : Option TaskSpace} {lent : Set Nat} (hpos : 0 < pid) (hpid : pid < pidMax)
    (hacc : Acc keep (ext0 + otherRefs pidMax s.tasks pid) alloc' m' c)
    (hs : Spares lent (ext0 + otherRefs pidMax s.tasks pid) alloc s.phys alloc' m')
    (hlent : ∀ f ∈ lent, ∀ q, q ≠ pid → ¬Table (s.tasks q) f) (honce : ∀ f, refs c f ≤ if ext0 f = 0 then 1 else 0)
    (hareas : ∀ t, c = some t → AreasOk t.vm) : ({ s with phys := m' }.setTask pid c).Counted keep ext0 alloc0 m0 alloc' := by
  have htasks : ({ s with phys := m' }.setTask pid c).tasks = update s.tasks pid c := rfl
  have hother : ∀ q, q ≠ pid → ({ s with phys := m' }.setTask pid c).tasks q = s.tasks q := fun q hq => by
    rw [htasks, update_of_ne hq]
  have hself : ({ s with phys := m' }.setTask pid c).tasks pid = c := by rw [htasks, update_self]
  refine ⟨?_, ?_, fun q => ?_, fun q f => ?_, fun q u hq => ?_, fun q u hq => ?_⟩
  · exact h.kernel.trans ((hs.mono pos_add).lend_more (Set.subset_univ lent))
  · rw [htasks, tableRefs_eq hpid, otherRefs_update, update_self, ← add_assoc]
    exact hacc.ledger
  · by_cases hq : q = pid
    · subst hq
      rw [hself]
      exact hacc.fits
    · rw [hother q hq]
      cases htq : s.tasks q with
      | none => exact fun _ hno => nomatch hno
      | some u =>
        have hlt := (h.pids q u htq).2
        have hfits := h.fits q
        rw [htq] at hfits
        refine fits_spared hs (fun f hf => ?_) (fun f hfl => htq ▸ hlent f hfl q hq) hfits
        have hle := le_otherRefs hlt hq s.tasks f
        rw [htq] at hle
        exact lt_of_lt_of_le hf (le_trans hle (Nat.le_add_left _ _))
  · by_cases hq : q = pid
    · subst hq
      rw [hself]
      exact honce f
    · rw [hother q hq]
      exact h.once q f
  · by_cases hqp : q = pid
    · exact hqp ▸ ⟨hpos, hpid⟩
    · exact h.pids q u (hother q hqp ▸ hq)
  · by_cases hqp : q = pid
    · subst hqp
      exact hareas u (hself ▸ hq)
    · exact h.areas q u (hother q hqp ▸ hq)

/-- A task that works on its own page tables. -/
theorem setOwn (ht : s.tasks pid = some t) (hroot : u.root = t.root) (hareas : AreasOk u.vm)
    (hacc : Acc keep (ext0 + otherRefs pidMax s.tasks pid + Pi.single t.root 1) alloc' m' u.pml4)
    (hs : Spares ∅ (ext0 + otherRefs pidMax s.tasks pid + Pi.single t.root 1) alloc s.phys alloc' m') :
    ({ s with phys := m' }.setTask pid (some u)).Counted keep ext0 alloc0 m0 alloc' := by
  obtain ⟨hpos, hpid⟩ := h.pids pid t ht
  have hold := h.acc hpid
  rw [ht] at hold
  have hnew := hold.withPml4 hroot hacc hs (Set.notMem_empty _)
  have hs' : Spares ∅ (ext0 + otherRefs pidMax s.tasks pid) alloc s.phys alloc' m' :=
    hs.mono pos_add
  refine h.set hpos hpid hnew hs' (fun f hf => absurd hf (Set.notMem_empty f)) (fun f => ?_) fun v hv => ?_
  · have hle := hold.refs_le hnew hs' f
    have honce := h.once pid f
    rw [ht] at honce
    rw [Pi.add_apply] at hle
    by_cases hf : ext0 f = 0
    · rw [if_pos hf] at honce ⊢
      split at hle <;> omega
    · rw [if_neg hf] at honce ⊢
      rw [if_neg (by omega)] at hle
      omega
  · cases hv
    exact hareas

theorem refs_le_one (pid f : Nat) : refs (s.tasks pid) f ≤ 1 := by
  have := h.once pid f
  split at this <;> omega

theorem refs_pid {q f : Nat} (hf : 0 < refs (s.tasks q) f) : q < pidMax := by
  cases hq : s.tasks q with
  | none =>
    rw [hq] at hf
    cases hf
  | some u => exact (h.pids q u hq).2

theorem two_le_ref {p q f : Nat} (hpq : p ≠ q) (hpf : 0 < refs (s.tasks p) f)
    (hqf : 0 < refs (s.tasks q) f) : 2 ≤ (s.phys.pages f).ppRef := by
  rw [h.ledger.counted, Pi.add_apply]
  exact le_trans (two_le_tableRefs (h.refs_pid hpf) (h.refs_pid hqf) hpq hpf hqf) (Nat.le_add_left _ _)

theorem accPml4 (ht : s.tasks pid = some t) :
    Acc keep (ext0 + otherRefs pidMax s.tasks pid + Pi.single t.root 1) alloc s.phys t.pml4 := by
  have hacc := h.acc (h.pids pid t ht).2
  rw [ht] at hacc
  exact hacc.pml4

theorem pml4_refs_le_one (ht : s.tasks pid = some t) (f : Nat) : refs t.pml4 f ≤ 1 := by
  have hle := h.refs_le_one pid f
  rw [ht, refs_task, Pi.add_apply] at hle
  omega

end Machine.Counted

/-! ## What the other tasks notice -/

/-- The tasks that are not in `T` keep what they have, and stay alone with the frames that nobody shares with them. These frames
keep their bytes. -/
structure Machine.Apart (T : Set Nat) (s s' : Machine) : Prop where
  tasks : ∀ q, q ∉ T → s'.tasks q = s.tasks q
  alone : ∀ q f, q ∉ T → 0 < Node.refs (s.tasks q) f → (s.phys.pages f).ppRef ≤ 1 → (s'.phys.pages f).ppRef ≤ 1
  bytes : ∀ q u va x, q ∉ T → s.tasks q = some u → va < USER_LIM → lookup u.pml4 va = some x →
    (s.phys.pages x.2.frame).ppRef ≤ 1 → ∀ y ∈ blockSet x.2.frame (leafOrder x.1), s'.phys.bytes y = s.phys.bytes y

/-- A task refers to the frames that it maps. -/
theorem leaf_refs_pos {s : Machine} {q va : Nat} {u : TaskSpace} {x : Bool × Entry} (hu : s.tasks q = some u) (hva : va < USER_LIM)
    (hl : lookup u.pml4 va = some x) : 0 < refs (s.tasks q) x.2.frame := by
  rw [hu, refs_task]
  exact Nat.add_pos_right _ (lookup_refs_pos hva hl)

namespace Machine.Apart

variable {T' : Set Nat} {s'' : Machine}

theorem of_same (ht : ∀ q, q ∉ T → s'.tasks q = s.tasks q) (hs : SameFrames s.phys s'.phys) (hb : s'.phys.bytes = s.phys.bytes) :
    s.Apart T s' :=
  ⟨ht, fun _ f _ _ h => (hs.ppRef f).trans_le h, fun _ _ _ _ _ _ _ _ _ _ _ => by rw [hb]⟩

theorem refl (T : Set Nat) (s : Machine) : s.Apart T s := .of_same (fun _ _ => rfl) (.refl _) rfl

theorem trans (h : s.Apart T s') (h' : s'.Apart T s'') : s.Apart T s'' where
  tasks := fun q hq => (h'.tasks q hq).trans (h.tasks q hq)
  alone := fun q f hq hf hone => h'.alone q f hq (by rwa [h.tasks q hq]) (h.alone q f hq hf hone)
  bytes := fun q u va x hq hu hva hl hone y hy => by
    have hone' := h.alone q _ hq (leaf_refs_pos hu hva hl) hone
    rw [h'.bytes q u va x hq ((h.tasks q hq).trans hu) hva hl hone' y hy, h.bytes q u va x hq hu hva hl hone y hy]

theorem mono (h : s.Apart T s') (hsub : T ⊆ T') : s.Apart T' s' where
  tasks := fun q hq => h.tasks q fun hqt => hq (hsub hqt)
  alone := fun q f hq => h.alone q f fun hqt => hq (hsub hqt)
  bytes := fun q u va x hq => h.bytes q u va x fun hqt => hq (hsub hqt)

end Machine.Apart

/-- What an action of the tasks in `T` comes to. -/
def Machine.Steps (keep : Orders) (ext0 : Nat → Nat) (alloc0 : Orders) (m0 : Phys) (T : Set Nat)
    (s s' : Machine) : Prop :=
  (∃ alloc', s'.Counted keep ext0 alloc0 m0 alloc') ∧ s.Apart T s'

namespace Machine.Counted

variable {lent : Set Nat} (h : s.Counted keep ext0 alloc0 m0 alloc)

include h

theorem refl_steps (T : Set Nat) : s.Steps keep ext0 alloc0 m0 T s :=
  ⟨⟨alloc, h⟩, .refl T s⟩

/-- What a task maps is a block of its own. -/
theorem leaf_alloc {va : Nat} {x : Bool × Entry} (ht : s.tasks pid = some t) (hva : va < USER_LIM) (hl : lookup t.pml4 va = some x) :
    alloc x.2.frame = some (leafOrder x.1) ∧ keep x.2.frame = none := lookup_fits (h.accPml4 ht).fits hva hl

/-- What is lent to others is the frames of the tasks in `T`. -/
theorem apart (ht : ∀ q, q ∉ T → s'.tasks q = s.tasks q)
    (hs : Spares lent ext alloc s.phys alloc' s'.phys) (hext : ∀ q f, q ∉ T → 0 < refs (s.tasks q) f → 0 < ext f)
    (hlent : ∀ f ∈ lent, ∃ p ∈ T, 0 < refs (s.tasks p) f) : s.Apart T s' := by
  refine ⟨ht, fun q f hq hf hone => ?_, fun q u va x hq hu hva hl _ => ?_⟩
  swap
  · exact hs.bytes _ _ (hext q _ hq (leaf_refs_pos hu hva hl)) (h.leaf_alloc hu hva hl).1
  refine le_trans (hs.ppRef f (fun hfl => ?_) (hext q f hq hf)) hone
  obtain ⟨p, hp, hpf⟩ := hlent f hfl
  have hpq : p ≠ q := by
    rintro rfl
    exact hq hp
  have := h.two_le_ref hpq hpf hf
  omega

/-- One task works, and lends nothing. -/
theorem apart_one (c : Option TaskSpace) (hs : Spares ∅ (ext0 + otherRefs pidMax s.tasks pid) alloc s.phys alloc' m') :
    s.Apart {pid} ({ s with phys := m' }.setTask pid c) := by
  refine h.apart (fun q hq => ?_) hs (fun q f hq hf => ?_) fun f hf => absurd hf (Set.notMem_empty f)
  · exact setTask_of_ne _ hq
  · exact lt_of_lt_of_le hf (le_trans (le_otherRefs (h.refs_pid hf) hq s.tasks f) (Nat.le_add_left _ _))

end Machine.Counted

/-! ## Working on the own page tables -/

section Regions

variable {r : Phys × Pml4} {base size last pml4 : Nat} {flags : PageFlags}

/-- The page tables stay counted and nobody else notices, whatever becomes of the pages. -/
def KeepsTables (keep : Orders) (ext : Nat → Nat) (alloc : Orders) (m : Phys) (r : Phys × Pml4) : Prop :=
  ∃ alloc', Acc keep ext alloc' r.1 r.2 ∧ Spares ∅ ext alloc m alloc' r.1

section

variable (hbad : ∀ s, bad s → Panics s)

include hbad

theorem KeepsTables.moves {R : StateRel} {x : Kernel (Phys × Pml4)}
    (h : KeepsTables keep ext alloc m r)
    (hx : ∀ ext' alloc', Acc keep ext' alloc' r.1 r.2 → Ends Panics x (Moves keep False R ext' alloc' r.1 r.2)) :
    Ends bad x (KeepsTables keep ext alloc m) := by
  obtain ⟨alloc1, hacc, hs⟩ := h
  refine ((hx ext alloc1 hacc).weaken hbad).mono fun r' ⟨ext', alloc', hmoved⟩ => ⟨alloc', ?_, hs.trans hmoved.spares⟩
  rw [← hmoved.ext_eq id]
  exact hmoved.acc

theorem KeepsTables.unmap : UnmapKeeps bad pml4 (KeepsTables keep ext alloc m) := fun _ _ _ _ _ hr hs h =>
  h.moves hbad fun _ _ hacc => unmapPageRange_moves hr hs hacc

theorem KeepsTables.protect (hr : UserRange base last) (hs : add64 base size = last) (hp : flags.present = true)
    (h : KeepsTables keep ext alloc m r) : Ends bad (protectRegion pml4 r.1 r.2 base size flags) (KeepsTables keep ext alloc m) :=
  h.moves hbad fun _ _ hacc => (protectRegion_moves hr hs hacc).mono fun _ hm => hm.lossy_imp fun hno => by
    rw [hp] at hno
    cases hno

theorem KeepsTables.populate : PopulateKeeps bad image pml4 (KeepsTables keep ext alloc m) :=
  fun _ _ _ _ _ hr hv h => h.moves (R := fun _ _ _ => True) hbad fun _ _ hacc =>
    populatePages_moves hr hv hacc (fun _ _ _ _ _ _ _ _ => trivial) fun _ _ _ _ _ _ _ _ _ _ => trivial

end

end Regions

/-! ## The steps -/

namespace Machine.Counted

variable (h : s.Counted keep ext0 alloc0 m0 alloc)

include h

/-- What a task starts from when it works on its page tables. -/
theorem keeps (ht : s.tasks pid = some t) (hs : SameFrames s.phys m) (hb : m.bytes = s.phys.bytes) :
    KeepsTables keep (ext0 + otherRefs pidMax s.tasks pid + Pi.single t.root 1) alloc s.phys (m, t.pml4) := by
  have hkept := (h.accPml4 ht).congr hs hb
  exact ⟨alloc, hkept.acc, hkept.spares⟩

/-- What a task leaves when it has worked on its page tables. -/
theorem withMem (ht : s.tasks pid = some t) {r : TaskMem} (hareas : AreasOk r.vm)
    (hk : KeepsTables keep (ext0 + otherRefs pidMax s.tasks pid + Pi.single t.root 1) alloc s.phys (r.phys, r.pml4)) :
    s.Steps keep ext0 alloc0 m0 {pid} (s.withMem pid t r) := by
  obtain ⟨alloc', hacc, hs⟩ := hk
  exact ⟨⟨alloc', h.setOwn ht rfl hareas hacc hs⟩,
    h.apart_one _ (hs.mono pos_add)⟩

end Machine.Counted

/-- The call stays in the user half, and leaves pages present. -/
def MemCall.InUser (s : VmSpace) : MemCall → Prop
  | mmap addr len prot flags => mmapAllowed addr len prot flags → MmapFits s addr len flags
  | munmap addr len => roundDown (add64 addr len) ≤ USER_LIM
  | mprotect _ _ prot => hasFlag prot PROT_READ = true
  | madvise addr len advise => MadviseFits addr len advise

namespace Machine.Counted

variable {va f : Nat} (h : s.Counted keep ext0 alloc0 m0 alloc) {b : UInt8}

include h

/-- A call on memory keeps the counts. -/
theorem call (hbad : ∀ s, bad s → Panics s) (ht : s.tasks pid = some t) {c : MemCall} (hc : c.InUser t.vm) :
    Ends bad (c.run fuel image (some pid) (s.running pid t)) fun r => s.Steps keep ext0 alloc0 m0 {pid} (s.withMem pid t r) := by
  have hloop : ¬bad .loop := fun hb => by cases hbad _ hb <;> contradiction
  have htree : ¬bad .rbTree := fun hb => by cases hbad _ hb <;> contradiction
  have hareas := h.areas pid t ht
  have hk := h.keeps (m := ((s.running pid t).runs (some pid)).phys) ht (.of_pages rfl rfl rfl) rfl
  cases c with
  | mmap addr len prot flags =>
    refine (sysMmap_keeps (t := (s.running pid t).runs (some pid)) hloop htree hareas hk hc (KeepsTables.unmap hbad)
      (KeepsTables.populate hbad)).bind fun r hr => .ok (h.withMem ht hr.areas hr.pages)
  | munmap addr len =>
    exact (sysMunmap_keeps (t := (s.running pid t).runs (some pid)) hloop htree hareas hk hc
      (KeepsTables.unmap hbad)).mono fun r hr => h.withMem ht hr.areas hr.pages
  | mprotect addr len prot =>
    refine (sysMprotect_keeps (t := (s.running pid t).runs (some pid)) hloop htree hareas hk fun hr m pt hk => ?_).bind
      fun r hr => .ok (h.withMem ht hr.areas hr.pages)
    exact hk.protect hbad hr (add64_sub64 (roundUp_lt _)) (protectFlags_present hc)
  | madvise addr len advise =>
    refine (sysMadvise_keeps (t := (s.running pid t).runs (some pid)) hloop (fun hb => by cases hbad _ hb <;> contradiction) hareas hk
      hc (KeepsTables.unmap hbad) (KeepsTables.populate hbad)).bind fun r hr => .ok (h.withMem ht hr.areas hr.pages)

/-- A page fault keeps the counts. -/
theorem fault {flags : Nat} (hbad : ∀ s, bad s → Panics s) (ht : s.tasks pid = some t) :
    Ends bad (taskPageFaultHandler image (s.running pid t) va flags) fun r =>
      s.Steps keep ext0 alloc0 m0 {pid} (s.withMem pid t r.2) := by
  have hloop : ¬bad .loop := fun hb => by cases hbad _ hb <;> contradiction
  have hareas := h.areas pid t ht
  have hk := h.keeps (m := (s.running pid t).phys) ht (.of_pages rfl rfl rfl) rfl
  refine (taskPageFaultHandler_spec (t := s.running pid t)
    (P := KeepsTables keep (ext0 + otherRefs pidMax s.tasks pid + Pi.single t.root 1) alloc s.phys) hloop hareas
    fun p hp _ hbase hend _ _ => ?_).mono fun r hr => ?_
  · have hlim := (hareas.vmEnd hp).2.2
    have hend : roundDown va + PAGE_SIZE ≤ (t.vm.vma p).vmEnd := hend
    have hal := pageAligned_roundDown va
    refine KeepsTables.populate hbad _ _ _ _ _ ⟨hal, ?_, Nat.lt_add_of_pos_right (by decide), le_trans hend hlim⟩ hlim hk
    simp only [pageAligned, PAGE_SIZE] at *
    omega
  · rcases hr with hr | ⟨hvm, _, hk'⟩
    · rw [hr]
      exact h.withMem ht hareas hk
    · refine h.withMem ht ?_ hk'
      rw [hvm]
      exact hareas

/-- What is stored changes no table and no reference. -/
theorem sameFrames (hs : SameFrames s.phys m)
    (hb : Spares Set.univ ext0 alloc s.phys alloc m) : ({ s with phys := m } : Machine).Counted keep ext0 alloc0 m0 alloc := by
  refine ⟨h.kernel.trans hb, h.ledger.congr hs, fun q => ?_, h.once, h.pids, h.areas⟩
  have hs' : SameFrames s.phys { m with bytes := s.phys.bytes } :=
    ⟨hs.npages, hs.buddyFreeList, hs.ppOrder, hs.ppFree, hs.ppAvail, hs.ppRef⟩
  have hspares : Spares ∅ (fun f => (s.phys.pages f).ppRef) alloc s.phys alloc { m with bytes := s.phys.bytes } :=
    .of_same hs' (fun _ => id) (fun _ _ _ _ _ _ => rfl) fun _ _ => rfl
  cases hq : s.tasks q with
  | none => exact fun _ hno => nomatch hno
  | some u =>
    have hfits := h.fits q
    rw [hq] at hfits
    have hfits' : Fits keep alloc { m with bytes := s.phys.bytes } (some u) := by
      refine fits_spared hspares (fun f hf => ?_) (fun f hf => absurd hf (Set.notMem_empty f)) hfits
      have hle := le_tableRefs (h.pids q u hq).2 s.tasks f
      rw [hq] at hle
      rw [h.ledger.counted, Pi.add_apply]
      omega
    -- The bytes are nothing to the tables.
    exact hfits'

theorem leaf_ext (ht : s.tasks pid = some t) {x : Bool × Entry} (hva : va < USER_LIM)
    (hl : lookup t.pml4 va = some x) : ext0 x.2.frame = 0 ∧ refs t.pml4 x.2.frame = 1 ∧ t.root ≠ x.2.frame := by
  have hpos := lookup_refs_pos hva hl
  have honce := h.once pid x.2.frame
  rw [ht, refs_task, Pi.add_apply] at honce
  by_cases hf : ext0 x.2.frame = 0
  · rw [if_pos hf] at honce
    refine ⟨hf, by omega, fun hr => ?_⟩
    rw [hr, Pi.single_eq_same] at honce
    omega
  · rw [if_neg hf] at honce
    omega

/-- A byte is written where the task has a page. -/
theorem written {pml4 : Pml4} (ht : s.tasks pid = some t)
    (hva : va < USER_LIM) (he : storeByte va b (s.phys, t.pml4) = .ok (m, pml4)) :
    ({ s with phys := m }.setTask pid (some { t with pml4 := pml4 })).Counted keep ext0 alloc0 m0 alloc ∧
      SameFrames s.phys m ∧ ∃ x, lookup t.pml4 va = some x ∧
        ∀ y ∉ blockSet x.2.frame (leafOrder x.1), m.bytes y = s.phys.bytes y := by
  unfold storeByte at he
  cases hl : lookup t.pml4 va with
  | none =>
    simp only [hl] at he
    cases he
  | some x =>
    obtain ⟨pde, e⟩ := x
    simp only [hl] at he
    cases he
    obtain ⟨hext, _, _⟩ := h.leaf_ext ht hva hl
    have halloc := (h.leaf_alloc ht hva hl).1
    set frame := if pde = true then e.frame + signExtend va / PAGE_SIZE % PAGE_TABLE_ENTRIES else e.frame with hframe
    have hin : frame ∈ blockSet e.frame (leafOrder pde) := by
      rw [hframe]
      cases pde
      · exact head_mem_blockSet _ _
      · exact ⟨Nat.le_add_right _ _, Nat.add_lt_add_left (Nat.mod_lt _ (by decide)) _⟩
    have hsame := s.phys.writeByte_same frame (va % PAGE_SIZE) b
    have hb : ∀ y ∉ blockSet e.frame (leafOrder pde), (s.phys.writeByte frame (va % PAGE_SIZE) b).bytes y = s.phys.bytes y :=
      fun y hy => Phys.writeByte_ne fun hyf => hy (hyf ▸ hin)
    refine ⟨?_, hsame, _, rfl, hb⟩
    have h1 := h.sameFrames hsame (h.ledger.spares_write (fun f hf => Nat.add_pos_left hf _) hsame halloc hext hb)
    have hacc := h1.accPml4 ht
    refine h1.setOwn ht rfl (h.areas pid t ht) (hacc.modifyEntry ?_ hva hl) hacc.spares_refl
    exact ⟨fun _ => rfl, fun _ => rfl, fun _ => rfl⟩

theorem store (ht : s.tasks pid = some t) (hva : va < USER_LIM) : s.Steps keep ext0 alloc0 m0 {pid} (s.store pid va b t) := by
  unfold Machine.store
  split
  · exact h.refl_steps _
  · next m pml4 hst =>
    have he : storeByte va b (s.phys, t.pml4) = .ok (m, pml4) := by
      unfold userStore at hst
      split at hst
      · cases hst
      · split at hst
        · split at hst
          · next hb =>
            cases hst
            exact hb
          · cases hst
        · cases hst
    obtain ⟨hc, hsame, x0, hl0, hb⟩ := h.written ht hva he
    refine ⟨⟨alloc, hc⟩, fun q hq => setTask_of_ne _ hq, fun _ f _ _ hone => (hsame.ppRef f).trans_le hone,
      fun q u va' x hq hu hva' hl hone y hy => hb y fun hy0 => ?_⟩
    have hframe := h.ledger.disjoint_blocks (h.leaf_alloc ht hva hl0).1 (h.leaf_alloc hu hva' hl).1 hy0 hy
    have := h.two_le_ref (Ne.symm hq) (leaf_refs_pos ht hva hl0) (hframe ▸ leaf_refs_pos hu hva' hl)
    rw [hframe] at this
    omega

omit h in
theorem otherRefs_noTask (hpid : pid < pidMax) (hnone : s.tasks pid = none) :
    otherRefs pidMax s.tasks pid = tableRefs pidMax s.tasks := by
  rw [tableRefs_eq hpid, hnone, refs_noTask, add_zero]

/-- A task comes, with nothing in its half of the PML4. -/
theorem newTask {root : Nat} (hnone : s.tasks pid = none) (hpos : 0 < pid)
    (hpid : pid < pidMax) (hn : Ledger.NewPage keep (ext0 + tableRefs pidMax s.tasks) alloc s.phys BUDDY_4K_PAGE root m)
    (hroot : u.root = root) (hpml4 : u.pml4 = fun i => if i < KERNEL_INDEX then 0 else s.kernelPml4 i) (hvm : AreasOk u.vm) :
    ({ s with phys := m }.setTask pid (some u)).Counted keep ext0 alloc0 m0 (update alloc root (some BUDDY_4K_PAGE)) ∧
      s.Apart {pid} ({ s with phys := m }.setTask pid (some u)) := by
  subst hroot
  obtain ⟨hrefs, hfits⟩ := newPml4_empty s.kernelPml4 keep (update alloc u.root (some BUDDY_4K_PAGE)) m
  rw [← hpml4] at hrefs hfits
  have hother := otherRefs_noTask hpid hnone
  have hself : refs (some u) = Pi.single u.root 1 := by rw [refs_task, hrefs, add_zero]
  have hs : Spares ∅ (ext0 + otherRefs pidMax s.tasks pid) alloc s.phys (update alloc u.root (some BUDDY_4K_PAGE)) m := by
    rw [hother]
    exact hn.spares
  refine ⟨h.set hpos hpid ⟨?_, ?_⟩ hs (fun f hf => absurd hf (Set.notMem_empty f)) (fun f => ?_) fun v hv => ?_, h.apart_one _ hs⟩
  · rw [hother, hself]
    exact hn.ledger
  · rintro _ ⟨⟩
    exact ⟨⟨update_self _ _ _, hn.keep_none, hn.ledger.ref_one hn.idle⟩, hfits⟩
  · rw [hself]
    by_cases hf : f = u.root
    · have hidle := hn.idle
      rw [Pi.add_apply] at hidle
      rw [hf, Pi.single_eq_same, if_pos (by omega)]
    · rw [Pi.single_eq_of_ne hf]
      exact Nat.zero_le _
  · cases hv
    exact hvm

theorem create {binary : Nat} {hdrs : List ProgHdr} (hbad : ∀ s, bad s → Panics s) (hassert : ¬bad .assertion)
    (hnone : s.tasks pid = none) (hpos : 0 < pid) (hpid : pid < pidMax) (hu : ∀ h ∈ hdrs, h.InUser) :
    Ends bad (s.taskCreate fuel pid binary hdrs) (s.Steps keep ext0 alloc0 m0 {pid}) := by
  refine ((taskAlloc_spec h.ledger).weaken hbad).bind fun ⟨m, pml4, root⟩ ⟨hn, hpml4⟩ => ?_
  refine (taskLoadElf_ok hassert (fun hb => by cases hbad _ hb <;> contradiction) hu).bind fun vm hvm => .ok ?_
  obtain ⟨hc, ha⟩ := h.newTask (u := ⟨vm, pml4, root⟩) hnone hpos hpid hn rfl hpml4 hvm
  exact ⟨⟨_, hc⟩, ha⟩

/-- Freeing a task keeps the counts. -/
theorem free {cur : Option Nat} (hbad : ∀ s, bad s → Panics s) (ht : s.tasks pid = some t) :
    Ends bad ((s.setCur cur).taskFree fuel pid t) (s.Steps keep ext0 alloc0 m0 {pid}) := by
  obtain ⟨hpos, hpid⟩ := h.pids pid t ht
  have hacc := h.acc hpid
  rw [ht] at hacc
  have hsame : SameFrames s.phys (s.setCur cur).phys := .of_pages rfl rfl rfl
  have hkept := hacc.pml4.congr hsame rfl
  refine (freeVmas_ends (fun hb => by cases hbad _ hb <;> contradiction) _ _).bind fun _ _ => ?_
  refine ((unmapUserPages_spec hkept.acc).weaken hbad).bind fun ⟨m1, pml4⟩ ⟨alloc1, hl1, hs1⟩ => ?_
  have hroot := ((hacc.fits t rfl).1.spared (hkept.spares.trans hs1) (by simp) (Set.notMem_empty _))
  refine ((hl1.decref hroot.1 hroot.2.1).weaken hbad).bind fun m2 ⟨alloc2, hl2, hs2, _⟩ => .ok ?_
  have hs : Spares ∅ (ext0 + otherRefs pidMax s.tasks pid) alloc s.phys alloc2 m2 :=
    ((hkept.spares.trans hs1).mono pos_add).trans hs2
  refine ⟨⟨alloc2, h.set hpos hpid (c := none) ⟨?_, fun _ hno => nomatch hno⟩ hs (fun f hf => absurd hf (Set.notMem_empty f))
    (fun f => Nat.zero_le _) fun _ hno => nomatch hno⟩, h.apart_one none hs⟩
  rw [refs_noTask, add_zero]
  exact hl2

theorem refs_zero (f : Nat) : refs (s.tasks 0) f = 0 := by
  cases hz : s.tasks 0 with
  | none => rfl
  | some u => exact absurd (h.pids 0 u hz).1 (lt_irrefl 0)

/-- No more tasks refer to a frame than there are pids, leaving out pids that are known not to. -/
theorem refs_le_card (f : Nat) (S : Finset Nat)
    (hS : ∀ q ∈ S, refs (s.tasks q) f = 0) : tableRefs pidMax s.tasks f ≤ (Finset.range pidMax \ S).card := by
  have hsum : ∑ q ∈ Finset.range pidMax \ S, refs (s.tasks q) f = ∑ q ∈ Finset.range pidMax, refs (s.tasks q) f :=
    Finset.sum_subset Finset.sdiff_subset fun q hq hnot => hS q (by simpa [hq] using hnot)
  rw [tableRefs, Finset.sum_apply, ← hsum]
  exact (Finset.sum_le_card_nsmul _ _ 1 fun q _ => h.refs_le_one q f).trans_eq (by rw [smul_eq_mul, mul_one])

theorem refs_lt_pids {q : Nat} (hpos : 0 < q) (hq : q < pidMax)
    (hf : refs (s.tasks q) f = 0) : tableRefs pidMax s.tasks f ≤ pidMax - 2 := by
  have hle := h.refs_le_card f {0, q} fun p hp => by
    rcases Finset.mem_insert.1 hp with rfl | hp
    · exact h.refs_zero f
    · rw [Finset.mem_singleton.1 hp, hf]
  rwa [Finset.card_sdiff_of_subset, Finset.card_range, Finset.card_pair (ne_of_lt hpos)] at hle
  intro p hp
  rcases Finset.mem_insert.1 hp with rfl | hp
  · exact Finset.mem_range.2 (lt_trans hpos hq)
  · rw [Finset.mem_singleton.1 hp]
    exact Finset.mem_range.2 hq

theorem leaf_not_table (ht : s.tasks pid = some t) (hf : f ∈ leafFrames t.pml4) (q : Nat) : ¬Table (s.tasks q) f := by
  obtain ⟨va, x, hva, hl, rfl⟩ := hf
  obtain ⟨_, hone, hroot⟩ := h.leaf_ext ht hva hl
  intro htable
  by_cases hq : q = pid
  · subst hq
    rw [ht] at htable
    obtain ⟨_, ⟨⟩, hr | htab⟩ := htable
    · exact hroot hr
    · exact lookup_not_table hva hl (le_of_eq hone) htab
  · have href := (fits_table (h.fits q) htable).2.2
    have := h.two_le_ref (Ne.symm hq) (leaf_refs_pos ht hva hl) (table_refs htable)
    omega

/-! ## Forking -/

section Fork

variable {child n : Nat} {parent pml4 : Pml4} {vm : VmSpace}

section

variable (ht : s.tasks pid = some t) (hu : s.tasks child = some u)

include ht hu

/-- What the parent sees of the frames is what a child sees that has no pages yet. -/
theorem refs_parent_child (hempty : refs u.pml4 = 0) : ext0 + otherRefs pidMax s.tasks pid + Pi.single t.root 1 + refs t.pml4 =
      ext0 + otherRefs pidMax s.tasks child + Pi.single u.root 1 := by
  have hparent := tableRefs_eq (h.pids pid t ht).2 s.tasks
  have hchild := tableRefs_eq (h.pids child u hu).2 s.tasks
  rw [ht, refs_task] at hparent
  rw [hu, refs_task, hempty, add_zero] at hchild
  rw [add_assoc, add_assoc, ← hparent, hchild, add_assoc]

/-- A child that has no pages yet may get one of each of its parent. -/
theorem room (hempty : refs u.pml4 = 0)
    (hf : f ∈ leafFrames t.pml4) : (ext0 + otherRefs pidMax s.tasks pid + Pi.single t.root 1 : Nat → Nat) f + 2 < 2 ^ 16 := by
  obtain ⟨hpos, hchild⟩ := h.pids child u hu
  have hroot : f ≠ u.root := fun hr => h.leaf_not_table ht hf child ⟨u, hu, .inl hr.symm⟩
  have hle := h.refs_lt_pids hpos hchild (f := f) (by rw [hu, refs_task, hempty, add_zero, Pi.single_eq_of_ne hroot])
  obtain ⟨va, x, hva, hl, rfl⟩ := hf
  obtain ⟨hext, hone, hne⟩ := h.leaf_ext ht hva hl
  rw [tableRefs_eq (h.pids pid t ht).2, ht, refs_task] at hle
  simp only [Pi.add_apply, hone, hext, Pi.single_eq_of_ne (Ne.symm hne), pidMax] at hle ⊢
  omega

theorem child_once (hempty : refs u.pml4 = 0)
    (hc : Cloned keep (ext0 + otherRefs pidMax s.tasks pid + Pi.single t.root 1) alloc s.phys t.pml4 n alloc' m' parent pml4)
    (f : Nat) : refs (some { u with vm := vm, pml4 := pml4 }) f ≤ if ext0 f = 0 then 1 else 0 := by
  change (Pi.single u.root 1 : Nat → Nat) f + refs pml4 f ≤ _
  by_cases hf : refs pml4 f = 0
  · have honce := h.once child f
    rw [hu, refs_task, hempty, add_zero] at honce
    rwa [hf]
  · have hone := hc.once f
    have hseen := hc.seen f (Nat.pos_of_ne_zero hf)
    rw [← Pi.add_apply, h.refs_parent_child ht hu hempty] at hseen
    by_cases hshared : 0 < (ext0 + otherRefs pidMax s.tasks child + Pi.single u.root 1 : Nat → Nat) f
    · obtain ⟨va, x, hva, _, hl, rfl⟩ := hseen hshared
      have hroot : x.2.frame ≠ u.root := fun hr => h.leaf_not_table ht ⟨va, x, hva, hl, rfl⟩ child ⟨u, hu, .inl hr.symm⟩
      rw [if_pos (h.leaf_ext ht hva hl).1, Pi.single_eq_of_ne hroot]
      omega
    · simp only [Pi.add_apply] at hshared
      rw [if_pos (by omega)]
      omega

theorem cloned (hne : pid ≠ child) (hempty : refs u.pml4 = 0) (hvm : AreasOk vm)
    (hc : Cloned keep (ext0 + otherRefs pidMax s.tasks pid + Pi.single t.root 1) alloc s.phys t.pml4 n alloc' m' parent pml4) :
    s.Steps keep ext0 alloc0 m0 {pid, child} (({ s with phys := m' }.setTask child (some { u with vm := vm, pml4 := pml4 })).setTask
      pid (some { t with pml4 := parent })) := by
  obtain ⟨hpos, hchild⟩ := h.pids child u hu
  have h0 := h.accPml4 ht
  have hold := h.acc hchild
  rw [hu] at hold
  have htotal := h.refs_parent_child ht hu hempty
  have hacc := hc.accChild
  have hs := hc.spares
  rw [htotal] at hacc hs
  have hnew : Acc keep (ext0 + otherRefs pidMax s.tasks child) alloc' m' (some { u with vm := vm, pml4 := pml4 }) :=
    hold.withPml4 rfl hacc hs fun hroot => h.leaf_not_table ht hroot child ⟨u, hu, .inl rfl⟩
  have h2 := h.set hpos hchild hnew (hs.mono pos_add)
    (fun f hf q _ => h.leaf_not_table ht hf q) (h.child_once ht hu hempty hc) fun v hv => by
      cases hv
      exact hvm
  have ht2 : ({ s with phys := m' }.setTask child (some { u with vm := vm, pml4 := pml4 })).tasks pid = some t := by
    rw [setTask_tasks, if_neg hne]
    exact ht
  have hacc2 := h2.accPml4 ht2
  refine ⟨⟨alloc', h2.setOwn (u := { t with pml4 := parent }) ht2 rfl (h.areas pid t ht) ⟨?_, ?_⟩ hacc2.spares_refl⟩,
    h.apart (fun q hq => ?_) hs (fun q f hq hf => ?_) fun f hf => ⟨pid, Set.mem_insert _ _, ?_⟩⟩
  · rw [show refs parent = _ from hc.refs_parent h0]
    exact hacc2.ledger
  · exact hc.fits_parent h0 (h.pml4_refs_le_one ht)
  · obtain ⟨hqp, hqc⟩ := not_or.1 hq
    exact (setTask_of_ne _ hqp).trans (setTask_of_ne _ hqc)
  · have hle := le_otherRefs (h.refs_pid hf) (fun hqc => hq (.inr hqc)) s.tasks f
    simp only [Pi.add_apply]
    omega
  · obtain ⟨va, x, hva, hl, rfl⟩ := hf
    exact leaf_refs_pos ht hva hl

end

/-- A fork keeps the counts. -/
theorem fork (hbad : ∀ s, bad s → Panics s) (ht : s.tasks pid = some t)
    (hnone : s.tasks child = none) (hpos : 0 < child) (hchild : child < pidMax) :
    Ends bad ({ s with phys := (s.running pid t).phys }.taskClone fuel pid child t) (s.Steps keep ext0 alloc0 m0 {pid, child}) := by
  have hsame : SameFrames s.phys (s.running pid t).phys := .of_pages rfl rfl rfl
  have h1 := h.sameFrames hsame (h.ledger.spares_of_same (fun f hf => Nat.add_pos_left hf _) hsame rfl)
  have hne : pid ≠ child := fun he => by
    rw [he, hnone] at ht
    cases ht
  refine ((taskAlloc_spec h1.ledger).weaken hbad).bind fun ⟨m, pml4, root⟩ ⟨hn, hpml4⟩ => ?_
  obtain ⟨h2, ha2⟩ := h1.newTask (u := ⟨VmSpace.empty, pml4, root⟩) hnone hpos hchild hn rfl hpml4 areasOk_empty
  set s2 := ({ s with phys := m } : Machine).setTask child (some ⟨VmSpace.empty, pml4, root⟩) with hs2
  have ht2 : s2.tasks pid = some t := by
    rw [hs2, setTask_tasks, if_neg hne]
    exact ht
  have hu2 : s2.tasks child = some ⟨VmSpace.empty, pml4, root⟩ := by
    rw [hs2, setTask_tasks, if_pos rfl]
  have hempty : refs pml4 = 0 := by
    rw [show pml4 = _ from hpml4]
    exact (newPml4_empty s.kernelPml4 keep alloc m).1
  have hacc := h2.accPml4 ht2
  have hareas := h.areas pid t ht
  refine (cloneAreas_spec hbad hacc (h2.pml4_refs_le_one ht2) (fun _ f hf => h2.room ht2 hu2 hempty hf) hareas t.vm.taskMmap 0
    (update alloc root (some BUDDY_4K_PAGE)) ⟨m, t.pml4, VmSpace.empty, pml4⟩
    (fun _ => id) hareas.agrees.sorted (fun _ _ => Nat.zero_le _) ⟨areasOk_empty, ?_⟩ (.start hacc ?_)).bind
    fun c ⟨hvm, n, alloc', hc⟩ => .ok ?_
  · rintro va k ⟨p, hp, _⟩
    cases hp
  · intro i hi
    rw [show pml4 = _ from hpml4]
    simp only [hi, if_true]
    rfl
  · have hfinal := h2.cloned ht2 hu2 hne hempty hvm hc
    have htasks : update (update s2.tasks child (some ⟨c.childVm, c.child, root⟩)) pid (some { t with pml4 := c.parent }) =
        update (update s.tasks pid (some { t with pml4 := c.parent })) child (some ⟨c.childVm, c.child, root⟩) := by
      rw [hs2, setTask, update_idem, update_comm hne]
    rw [setTask, setTask, htasks] at hfinal
    have ha1 : s.Apart {pid, child} { s with phys := (s.running pid t).phys } := .of_same (fun _ _ => rfl) hsame rfl
    exact ⟨hfinal.1, (ha1.trans (ha2.mono (Set.subset_insert pid {child}))).trans hfinal.2⟩

end Fork

end Machine.Counted

/-! ## Runs -/

/-- The pids are those of tasks, and what happens stays in the user half and leaves pages present. -/
def Machine.InUserHalf (s : Machine) : MemAction → Prop
  | .create pid _ hdrs => 0 < pid ∧ pid < pidMax ∧ ∀ h ∈ hdrs, h.InUser
  | .call pid c => ∀ t, s.tasks pid = some t → c.InUser t.vm
  | .fault _ _ _ => True
  | .store _ va _ => va < USER_LIM
  | .fork _ child => 0 < child ∧ child < pidMax
  | .free _ _ => True

/-- The tasks that an action is about. -/
def MemAction.touches : MemAction → Set Nat
  | .create pid _ _ => {pid}
  | .call pid _ => {pid}
  | .fault pid _ _ => {pid}
  | .store pid _ _ => {pid}
  | .fork pid child => {pid, child}
  | .free _ pid => {pid}

namespace Machine.Counted

variable {a : MemAction} (h : s.Counted keep ext0 alloc0 m0 alloc)

include h

/-- An action of a task that exists. -/
theorem forTask {f : TaskSpace → Kernel Machine}
    (hf : ∀ t, s.tasks pid = some t → Ends bad (f t) (s.Steps keep ext0 alloc0 m0 T)) :
    Ends bad (s.forTask pid f) (s.Steps keep ext0 alloc0 m0 T) := by
  unfold Machine.forTask
  cases ht : s.tasks pid with
  | none => exact .ok (h.refl_steps T)
  | some t => exact hf t ht

theorem act (hbad : ∀ s, bad s → Panics s) (hassert : ¬bad .assertion)
    (ha : s.InUserHalf a) : Ends bad (s.act fuel image a) (s.Steps keep ext0 alloc0 m0 a.touches) := by
  cases a with
  | create pid binary hdrs =>
    refine .ite (fun _ => .ok (h.refl_steps _)) fun hnone => ?_
    exact h.create hbad hassert (Option.not_isSome_iff_eq_none.1 hnone) ha.1 ha.2.1 ha.2.2
  | call pid c => exact h.forTask fun t ht => (h.call hbad ht (ha t ht)).bind fun r hr => .ok hr
  | fault pid va flags => exact h.forTask fun t ht => (h.fault hbad ht).bind fun r hr => .ok hr
  | store pid va b => exact h.forTask fun t ht => .ok (h.store ht ha)
  | fork pid child =>
    refine .ite (fun _ => .ok (h.refl_steps _)) fun hnone => h.forTask fun t ht => ?_
    exact h.fork hbad ht (Option.not_isSome_iff_eq_none.1 hnone) ha.1 ha.2
  | free cur pid => exact h.forTask fun t ht => h.free hbad ht

theorem step (ha : s.InUserHalf a) (he : s.act fuel image a = .ok s') : s.Steps keep ext0 alloc0 m0 a.touches s' := by
  have hnone : ∀ s, False → Panics s := fun _ => False.elim
  exact (h.act hnone id ha).1 _ he

omit h in
/-- Before the first task all references are the kernel's. -/
theorem boot (hno : s.NoTasks) (hf : Frames s.phys alloc) :
    s.Counted (fun f => if (s.phys.pages f).ppRef = 0 then alloc f else none) (fun f => (s.phys.pages f).ppRef) alloc s.phys alloc := by
  have hrefs : tableRefs pidMax s.tasks = 0 := Finset.sum_eq_zero fun pid _ => by
    rw [hno pid]
    rfl
  have hl : Ledger (fun f => if (s.phys.pages f).ppRef = 0 then alloc f else none) (fun f => (s.phys.pages f).ppRef) alloc s.phys := by
    refine ⟨hf, fun _ => rfl, fun f k hk => ?_, fun f k hk => ?_⟩
    · split at hk
      · exact hk
      · cases hk
    · by_cases hz : (s.phys.pages f).ppRef = 0
      · exact .inr (by rw [if_pos hz, hk])
      · exact .inl (Nat.pos_of_ne_zero hz)
  refine ⟨hl.spares_refl fun _ => id, ?_, fun pid => ?_, fun pid f => ?_, fun pid t ht => ?_, fun pid t ht => ?_⟩
  · rw [hrefs, add_zero]
    exact hl
  · rw [hno pid]
    exact fun _ hno => nomatch hno
  · rw [hno pid]
    exact Nat.zero_le _
  · rw [hno pid] at ht
    cases ht
  · rw [hno pid] at ht
    cases ht

theorem run (hr : Run InUserHalf s s') : ∃ alloc', s'.Counted keep ext0 alloc0 m0 alloc' := by
  induction hr with
  | refl => exact ⟨alloc, h⟩
  | step _ ha he ih =>
    obtain ⟨alloc1, h1⟩ := ih
    exact (h1.step ha he).1

end Machine.Counted

end OpenLsd
