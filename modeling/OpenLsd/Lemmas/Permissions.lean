import OpenLsd.Lemmas.AreaCalls
import OpenLsd.Lemmas.Leaves

/-!
# Permissions of areas and of pages

A property of the flags of areas, and the property of leaf entries that follows from it. Whatever the calls, the page faults
and `task_clone` do, they make areas with flags that they were given or that another area has, and pages with the flags of an
area: so the two properties are kept together. The freed records matter as well, since the walk over the areas may come to
one of them.
-/

namespace OpenLsd

open Outcome Function Machine

variable {F : Nat → Prop} {p fuel addr size : Nat} {L : Entry → Prop}

/-! ## The flags of areas -/

namespace VmSpace

/-- The property holds of the flags of every record. -/
def FlagsIn (F : Nat → Prop) (s : VmSpace) : Prop := ∀ p, F (s.vma p).vmFlags

namespace FlagsIn

variable {s s' : VmSpace} {q : Nat}

section

variable (h : FlagsIn F s) {r : Option Nat} {b : Bool} {v : Vma}

include h

theorem setVma (hv : F v.vmFlags) : FlagsIn F (s.setVma p v) := by
  intro x
  show F (if x = p then v else s.vma x).vmFlags
  split
  · exact hv
  · exact h x

theorem newVma (hv : F v.vmFlags) : FlagsIn F (s.newVma v) := h.setVma hv

theorem kfree (h0 : F 0) : FlagsIn F (s.kfree p) := h.setVma h0

theorem insertVma (he : s.insertVma p = some (b, s')) : FlagsIn F s' := by
  simp only [VmSpace.insertVma, Option.bind_eq_bind, Option.pure_def] at he
  split at he
  · obtain ⟨rb, _, he⟩ := Option.bind_eq_some_iff.1 he
    cases he
    exact h
  · split at he
    · cases he
      exact h
    · obtain ⟨rb, _, he⟩ := Option.bind_eq_some_iff.1 he
      cases he
      exact h

theorem removeVma (he : s.removeVma fuel p = some s') : FlagsIn F s' := by
  simp only [VmSpace.removeVma, Option.bind_eq_bind, Option.pure_def] at he
  obtain ⟨rb, _, he⟩ := Option.bind_eq_some_iff.1 he
  cases he
  exact h

theorem mergeVma (h0 : F 0) (he : s.mergeVma fuel p q = some (b, s')) : FlagsIn F s' := by
  simp only [VmSpace.mergeVma, Option.bind_eq_bind, Option.pure_def] at he
  split at he
  · obtain ⟨s1, h1, he⟩ := Option.bind_eq_some_iff.1 he
    cases he
    refine (removeVma (h.setVma ?_) h1).kfree h0
    exact h p
  · cases he
    exact h

theorem mergeVmas {r : Nat} (h0 : F 0) (he : s.mergeVmas fuel p = some (r, s')) : FlagsIn F s' := by
  simp only [VmSpace.mergeVmas, Option.bind_eq_bind] at he
  obtain ⟨⟨q, s1⟩, h1, he⟩ := Option.bind_eq_some_iff.1 he
  have hs1 : FlagsIn F s1 := by
    unfold mergePrev at h1
    split at h1
    · cases h1
      exact h
    · obtain ⟨⟨b, s2⟩, h2, h1⟩ := Option.bind_eq_some_iff.1 h1
      cases h1
      exact h.mergeVma h0 h2
  unfold mergeNext at he
  split at he
  · cases he
    exact hs1
  · obtain ⟨⟨b, s2⟩, h2, he⟩ := Option.bind_eq_some_iff.1 he
    cases he
    exact hs1.mergeVma h0 h2

theorem addExecutableVma {name : String} {flags len : Nat} {src : Option Nat} (h0 : F 0)
    (hf : F flags) (he : s.addExecutableVma fuel true name addr size flags src len = some (r, s')) : FlagsIn F s' := by
  simp only [VmSpace.addExecutableVma, if_true, Option.bind_eq_bind, Option.pure_def] at he
  obtain ⟨⟨b, s1⟩, h1, he⟩ := Option.bind_eq_some_iff.1 he
  have hs1 := insertVma (h.newVma hf) h1
  split at he
  · obtain ⟨⟨q, s2⟩, h2, he⟩ := Option.bind_eq_some_iff.1 he
    cases he
    exact hs1.mergeVmas h0 h2
  · cases he
    exact hs1

theorem splitVma (h0 : F 0) (he : s.splitVma true p addr = some (r, s')) : FlagsIn F s' := by
  simp only [VmSpace.splitVma, if_true, Option.bind_eq_bind, Option.pure_def] at he
  split at he
  · cases he
    exact h
  · obtain ⟨⟨b, s1⟩, h1, he⟩ := Option.bind_eq_some_iff.1 he
    have hs1 : FlagsIn F s1 := by
      refine insertVma (setVma (h.newVma ?_) ?_) h1
      · exact h p
      · exact h p
    split at he
    · cases he
      exact hs1
    · cases he
      exact hs1.kfree h0

theorem splitEnd (h0 : F 0) (he : s.splitEnd true p addr = some (r, s')) : FlagsIn F s' := by
  simp only [VmSpace.splitEnd, Option.bind_eq_bind, Option.pure_def] at he
  split at he
  · obtain ⟨⟨r, s1⟩, h1, he⟩ := Option.bind_eq_some_iff.1 he
    cases he
    exact h.splitVma h0 h1
  · cases he
    exact h

theorem splitVmas {base : Nat} (h0 : F 0) (he : s.splitVmas (true, true) p base size = some (r, s')) : FlagsIn F s' := by
  simp only [VmSpace.splitVmas, Option.bind_eq_bind, Option.pure_def] at he
  split at he
  · obtain ⟨⟨middle, s1⟩, h1, he⟩ := Option.bind_eq_some_iff.1 he
    have hs1 := h.splitVma h0 h1
    cases middle with
    | none =>
      cases he
      exact hs1
    | some middle => exact hs1.splitEnd h0 he
  · exact h.splitEnd h0 he

end

end FlagsIn

end VmSpace

open VmSpace

/-- What the code of the tree computes keeps a property. -/
theorem ofTree_ends {A : Type} {x : Option A} {post : A → Prop} (h : ∀ a, x = some a → post a) : Yields (ofTree x) post := by
  cases x with
  | none => exact .error id
  | some a => exact .ok (h a rfl)

/-! ## The calls -/

/-- A property of leaf entries and one of the flags of areas that gives it: for the pages that are populated, and for those
whose protection is changed. -/
structure Permission (L : Entry → Prop) (F : Nat → Prop) : Prop where
  flags : FlagProp L
  readOnly : ∀ e : Entry, e.write = false → L e
  dirty : ∀ e, L e → L { e with dirty := true }
  zero : F 0
  allowed : ∀ {prot}, protAllowed prot → F prot
  populated : ∀ {fl}, F fl → ∀ e : Entry, e.umask = populateFlags fl → L e
  changed : ∀ {fl}, F fl → (protectFlags fl).present = true → ∀ e : Entry, e.umask = protectFlags fl → L e

/-- Both properties hold of the memory of a task. -/
structure Permitted (L : Entry → Prop) (F : Nat → Prop) (vm : VmSpace) (t : Pml4) : Prop where
  leaves : UserAll L t
  areas : vm.FlagsIn F

section Calls

variable {m : Phys} {t : Pml4} {s : TaskMem} {base : Nat}

section

variable (h : Permission L F) {image : Nat → UInt8} {flags fl va len prot : Nat} {r : Phys × Pml4} {b : UInt8}

include h

theorem Permission.populateRegion (hf : F fl) (huge : Bool) (ht : UserAll L t) (va size : Nat) :
    Yields (populateRegion m t va size { populateFlags fl with huge := huge }) fun r => UserAll L r.2 := by
  refine .ite (fun _ => .ok ht) fun _ => ?_
  refine (populate_keepsLeaves h.flags ?_).walkPageRange ht
  exact fun e he => h.populated hf e he

theorem Permission.protectRegion (hf : F fl) (ht : UserAll L t) (pml4 va size : Nat) :
    Yields (protectRegion pml4 m t va size (protectFlags fl)) fun r => UserAll L r.2 := by
  refine (protect_keepsLeaves h.flags fun hp e he => h.changed hf hp e ?_).walkPageRange ht
  rw [he]
  unfold protectFlags
  split <;> rfl

/-- Populated pages are protected with the flags that they were populated with. -/
theorem Permission.protectPopulated (hf : F fl) (ht : UserAll L t) (pml4 va size : Nat) :
    Yields (OpenLsd.protectRegion pml4 m t va size (populateFlags fl)) fun r => UserAll L r.2 :=
  (protect_keepsLeaves h.flags fun _ e he => h.populated hf e he).walkPageRange ht

theorem Permission.unmapPageRange (ht : UserAll L t) (pml4 va size : Nat) :
    Yields (OpenLsd.unmapPageRange pml4 m t va size) fun r => UserAll L r.2 :=
  (remove_keepsLeaves h.flags _).walkPageRange ht

omit h in
/-- A leaf is changed. -/
theorem UserAll.modifyEntry {f : Entry → Entry} (hp : ∀ e, (f e).present = e.present) (hh : ∀ e, (f e).huge = e.huge)
    (hL : ∀ e, L e → L (f e)) (ht : UserAll L t) (va : Nat) : UserAll L (modifyEntry t va f) := by
  -- One level: the property of a node with one entry changed.
  have child : ∀ {C : Type} {P : C → Prop} {g : C → C} {e : Branch C} (j : Nat), (∀ x, P x → P (g x)) →
      (∀ i < PAGE_TABLE_ENTRIES, P (e.child i)) → ∀ i < PAGE_TABLE_ENTRIES, P ((e.modifyChild j g).child i) := by
    intro C P g e j hg hc i hi
    show P (update e.child j (g (e.child j)) i)
    by_cases hij : i = j
    · subst hij
      rw [update_self]
      exact hg _ (hc i hi)
    · rw [update_of_ne hij]
      exact hc i hi
  have hpte : ∀ e : Entry, (e.present = true → L e) → (f e).present = true → L (f e) :=
    fun e he hpe => hL e (he (hp e ▸ hpe))
  intro i hi
  unfold OpenLsd.modifyEntry
  by_cases hij : i = signExtend va / PDPT_SPAN % PAGE_TABLE_ENTRIES
  · subst hij
    rw [update_self]
    refine fun hpres => child _ (fun pdpte hpdpte => ?_) (ht _ hi hpres)
    refine fun hpres => child _ (fun pde hpde => ?_) (hpdpte hpres)
    split
    · rename_i hhuge
      refine fun hpres => ⟨fun _ => hL _ ((hpde (hp pde.entry ▸ hpres)).1 hhuge), fun hno => ?_⟩
      rw [hh pde.entry, hhuge] at hno
      cases hno
    · rename_i hno
      refine fun hpres => ⟨fun hhuge => absurd hhuge hno, fun hno' => ?_⟩
      exact child (P := fun e : Entry => e.present = true → L e) _ hpte ((hpde hpres).2 hno')
  · rw [update_of_ne hij]
    exact ht i hi

theorem Permission.pageRemove (ht : UserAll L t) (pml4 va : Nat) :
    Yields (OpenLsd.pageRemove pml4 m t va) fun r => UserAll L r.2 := by
  unfold OpenLsd.pageRemove
  split
  · exact .ok ht
  · exact .ite (fun _ => h.unmapPageRange ht ..) fun _ => h.unmapPageRange ht ..

theorem Permission.pageInsert {flags : PageFlags}
    (hf : ∀ e : Entry, e.umask = { flags with present := true, huge := false } → L e) (ht : UserAll L t) (page va : Nat) :
    Yields (OpenLsd.pageInsert m t page va flags) fun r => UserAll L r.2.2 := by
  refine .ite (fun _ => .ok ht) fun _ => .ite (fun _ => .ok ht) fun _ => ?_
  refine ((insert_keepsLeaves h.flags ?_).walkPageRange ht).bind fun ⟨m, t⟩ hr => .ok hr
  exact hf

theorem Permission.storeByte (ht : UserAll L r.2) (va : Nat) : Yields (OpenLsd.storeByte va b r) fun r => UserAll L r.2 := by
  unfold OpenLsd.storeByte
  split
  · exact .error id
  · exact .ok (ht.modifyEntry (f := fun e => { e with dirty := true }) (fun _ => rfl) (fun _ => rfl) h.dirty va)

theorem Permission.userStore {m' : Phys} {t' : Pml4} (ht : UserAll L t)
    (he : OpenLsd.userStore m t va b = some (m', t')) : UserAll L t' := by
  unfold OpenLsd.userStore at he
  split at he
  · cases he
  · split at he
    · split at he
      · next r hr =>
        cases he
        exact (h.storeByte (r := (m, t)) ht va).1 _ hr
      · cases he
    · cases he

theorem Permission.fillFrom {v : Vma} (ht : UserAll L r.2) :
    Yields (OpenLsd.fillFrom image v base size r) fun r => UserAll L r.2 := by
  unfold OpenLsd.fillFrom
  split
  · exact .ok ht
  · refine .ite (fun _ => ?_) fun _ => .ok ht
    exact forRange_rule (I := fun _ (r : Phys × Pml4) => UserAll L r.2) (fun _ _ _ _ hr => h.storeByte hr _) ht

/-! ### The callbacks of the walks over areas -/

theorem Permission.doRemoveVma (hs : Permitted L F s.vm s.pml4) :
    Yields (OpenLsd.doRemoveVma fuel base size s p) fun r => Permitted L F r.2.vm r.2.pml4 := by
  refine (ofTree_ends fun _ he => hs.areas.splitVmas h.zero he).bind fun ⟨r, vm⟩ hvm => ?_
  cases r with
  | none => exact .ok ⟨hs.leaves, hvm⟩
  | some q =>
    refine (h.unmapPageRange hs.leaves ..).bind fun ⟨m, t⟩ ht => ?_
    exact (ofTree_ends fun _ he => hvm.removeVma he).bind fun vm hvm => .ok ⟨ht, hvm.kfree h.zero⟩

theorem Permission.doUnmapVma (hs : Permitted L F s.vm s.pml4) :
    Yields (OpenLsd.doUnmapVma base size s p) fun r => Permitted L F r.2.vm r.2.pml4 := by
  refine (ofTree_ends fun _ he => hs.areas.splitVmas h.zero he).bind fun ⟨r, vm⟩ hvm => ?_
  cases r with
  | none => exact .ok ⟨hs.leaves, hvm⟩
  | some q =>
    refine Ends.bind (P := fun r => UserAll L r.2) ?_ fun ⟨m, t⟩ ht => .ok ⟨ht, hvm⟩
    refine forRange_rule (I := fun _ (r : Phys × Pml4) => UserAll L r.2) (fun _ r _ _ hr => ?_) hs.leaves
    unfold unmapClean
    split
    · exact .ok hr
    · exact .ite (fun _ => .ok hr) fun _ => h.pageRemove hr _ _

theorem Permission.doProtectVma (hf : F flags) (hs : Permitted L F s.vm s.pml4) :
    Yields (OpenLsd.doProtectVma fuel flags base size s p) fun r => Permitted L F r.2.vm r.2.pml4 := by
  refine .ite (fun _ => .ok hs) fun _ => ?_
  refine (ofTree_ends fun _ he => hs.areas.splitVmas h.zero he).bind fun ⟨r, vm⟩ hvm => ?_
  cases r with
  | none => exact .ok ⟨hs.leaves, hvm⟩
  | some q =>
    refine (h.protectRegion hf hs.leaves ..).bind fun ⟨m, t⟩ ht => ?_
    exact (ofTree_ends fun _ he => FlagsIn.mergeVmas (hvm.setVma hf) h.zero he).bind fun ⟨_, vm⟩ hvm => .ok ⟨ht, hvm⟩

theorem Permission.doPopulateVma (hs : Permitted L F s.vm s.pml4) :
    Yields (OpenLsd.doPopulateVma image flags base size s p) fun r => Permitted L F r.2.vm r.2.pml4 := by
  have hf := hs.areas p
  refine .ite (fun _ => .ok hs) fun _ => .ite (fun _ => ?_) fun _ => ?_
  · refine (h.populateRegion hf true hs.leaves _ _).bind fun ⟨m, t⟩ ht => ?_
    exact (h.protectPopulated hf ht ..).bind fun ⟨m, t⟩ ht => .ok ⟨ht, hs.areas⟩
  · refine (h.populateRegion hf false hs.leaves _ _).bind fun ⟨m, t⟩ ht => ?_
    refine (h.fillFrom ht).bind fun ⟨m, t⟩ ht => ?_
    exact (h.protectPopulated hf ht ..).bind fun ⟨m, t⟩ ht => .ok ⟨ht, hs.areas⟩

omit h in
/-- A walk over areas keeps what its callback keeps. -/
theorem Permitted.walkVmaRange {getVma : Nat → Nat → TaskMem → Nat → Kernel (Bool × TaskMem)} (hs : Permitted L F s.vm s.pml4)
    (hstep : ∀ s p, Permitted L F s.vm s.pml4 → Yields (getVma base size s p) fun r => Permitted L F r.2.vm r.2.pml4) :
    Yields (OpenLsd.walkVmaRange getVma s base size) fun r => Permitted L F r.2.vm r.2.pml4 := by
  refine walkVmaRange_rule (I := fun s _ => Permitted L F s.vm s.pml4) id hs (fun _ _ _ => hs) (fun s p hi _ => ?_)
    fun _ _ hi _ => hi
  refine (hstep s p hi).mono fun r hr => ?_
  split
  · exact hr
  · exact hr

/-! ### The calls themselves -/

theorem Permission.addVma {vm : VmSpace} {name : String} (hvm : vm.FlagsIn F)
    (hf : F flags) : Yields (OpenLsd.addVma fuel vm name addr size flags) fun r => r.2.FlagsIn F := by
  have hscan : ∀ (goOn : Nat → Prop) [DecidablePred goOn] (size n b : Nat) (vm : VmSpace), vm.FlagsIn F →
      Yields (scanDown fuel name size flags goOn n b vm) fun r => r.2.FlagsIn F := by
    intro goOn _ size n
    induction n with
    | zero => exact fun b vm _ => .error id
    | succ n ih =>
      intro b vm hvm
      refine .ite (fun _ => ?_) fun _ => .ok hvm
      refine (ofTree_ends fun _ he => hvm.addExecutableVma h.zero hf he).bind fun ⟨r, vm⟩ hvm => ?_
      cases r with
      | none => exact ih _ vm hvm
      | some p => exact .ok hvm
  refine .ite (fun _ => ?_) fun _ => hscan _ _ _ _ vm hvm
  refine (ofTree_ends fun _ he => hvm.addExecutableVma h.zero hf he).bind fun ⟨r, vm⟩ hvm => ?_
  cases r with
  | some p => exact .ok hvm
  | none =>
    refine (hscan _ _ _ _ vm hvm).bind fun ⟨r, vm⟩ hvm => ?_
    cases r with
    | some p => exact .ok hvm
    | none => exact hscan _ _ _ _ vm hvm

theorem Permission.sysMmap (hs : Permitted L F s.vm s.pml4) :
    Yields (OpenLsd.sysMmap fuel image s addr len prot flags) fun r => Permitted L F r.2.vm r.2.pml4 := by
  refine .ite (fun _ => .ok hs) fun hall => ?_
  have hf : F prot := h.allowed (not_not.1 hall).2.2.2.1
  refine Ends.bind (P := fun r => Permitted L F r.vm r.pml4) ?_ fun s hs => ?_
  · refine .ite (fun _ => ?_) fun _ => .ok hs
    exact (hs.walkVmaRange fun s p hs => h.doRemoveVma hs).bind fun ⟨_, s⟩ hs => .ok hs
  · refine (h.addVma hs.areas hf).bind fun ⟨r, vm⟩ hvm => ?_
    cases r with
    | none => exact .ok ⟨hs.leaves, hvm⟩
    | some p =>
      have hs : Permitted L F vm s.pml4 := ⟨hs.leaves, hvm⟩
      refine .ite (fun _ => ?_) fun _ => .ok hs
      refine (Permitted.walkVmaRange hs fun s p hs => h.doPopulateVma hs).bind fun ⟨ok, s⟩ hs => ?_
      cases ok with
      | true => exact .ok hs
      | false => exact (ofTree_ends fun _ he => hs.areas.removeVma he).bind fun vm hvm => .ok ⟨hs.leaves, hvm.kfree h.zero⟩

theorem Permission.sysMprotect (hs : Permitted L F s.vm s.pml4) :
    Yields (OpenLsd.sysMprotect fuel s addr len prot) fun r => Permitted L F r.2.vm r.2.pml4 := by
  refine .ite (fun _ => .ok hs) fun _ => .ite (fun _ => .ok hs) fun _ => .ite (fun _ => .ok hs) fun h1 =>
    .ite (fun _ => .ok hs) fun h2 => .ite (fun _ => .ok hs) fun h3 => .ite (fun _ => .ok hs) fun _ => ?_
  have hf : F prot := h.allowed ⟨h3, h1, h2⟩
  exact (hs.walkVmaRange fun s p hs => h.doProtectVma hf hs).bind fun ⟨_, s⟩ hs => .ok hs

theorem Permission.sysMadvise {advise : Nat} (hs : Permitted L F s.vm s.pml4) :
    Yields (OpenLsd.sysMadvise image s addr len advise) fun r => Permitted L F r.2.vm r.2.pml4 := by
  refine .ite (fun _ => .ok hs) fun _ => .ite (fun _ => ?_) fun _ => .ite (fun _ => ?_) fun _ => .ok hs
  · split
    · exact .error id
    · exact (hs.walkVmaRange fun s p hs => h.doPopulateVma hs).bind fun ⟨_, s⟩ hs => .ok hs
  · exact (hs.walkVmaRange fun s p hs => h.doUnmapVma hs).bind fun ⟨_, s⟩ hs => .ok hs

theorem Permission.run {cur : Option Nat} (c : MemCall) (hs : Permitted L F s.vm s.pml4) :
    Yields (c.run fuel image cur s) fun r => Permitted L F r.vm r.pml4 := by
  have hs : Permitted L F (s.runs cur).vm (s.runs cur).pml4 := hs
  cases c with
  | mmap addr len prot flags => exact (h.sysMmap hs).bind fun ⟨_, s⟩ hs => .ok hs
  | munmap addr len => exact (hs.walkVmaRange fun s p hs => h.doRemoveVma hs).bind fun ⟨_, s⟩ hs => .ok hs
  | mprotect addr len prot => exact (h.sysMprotect hs).bind fun ⟨_, s⟩ hs => .ok hs
  | madvise addr len advise => exact (h.sysMadvise hs).bind fun ⟨_, s⟩ hs => .ok hs

theorem Permission.taskPageFaultHandler (hs : Permitted L F s.vm s.pml4) :
    Yields (OpenLsd.taskPageFaultHandler image s va flags) fun r => Permitted L F r.2.vm r.2.pml4 := by
  unfold OpenLsd.taskPageFaultHandler
  split
  · exact .ok hs
  · refine .ite (fun _ => .ok hs) fun _ => .ite (fun _ => .ok hs) fun _ => .ite (fun _ => .ok hs) fun _ => ?_
    exact (hs.walkVmaRange fun s p hs => h.doPopulateVma hs).bind fun ⟨_, s⟩ hs => .ok hs

end

end Calls

/-! ## The machine -/

section Tasks

theorem taskAlloc_leaves (m : Phys) (kernelPml4 : Pml4) (pid : Nat) :
    Yields (taskAlloc m kernelPml4 pid) fun r => UserAll L r.2.1 := by
  refine Ends.bind (P := fun r => UserAll L r.2.1) ?_ fun ⟨m, t, root⟩ ht => .ok ht
  refine .skip fun ⟨page, m⟩ => .skip fun m => .ok fun i hi => ?_
  simp only [if_pos hi]
  exact nofun

/-- Loading a program. -/
theorem Permission.taskLoadElf (h : Permission L F) {binary : Nat} {hdrs : List ProgHdr}
    (hf : ∀ hdr ∈ hdrs, hdr.pLoad = true → F hdr.protFlags) :
    Yields (OpenLsd.taskLoadElf fuel binary hdrs) fun vm => vm.FlagsIn F := by
  have hload : ∀ (hdrs : List ProgHdr) (vm : VmSpace), (∀ hdr ∈ hdrs, hdr.pLoad = true → F hdr.protFlags) → vm.FlagsIn F →
      Yields (hdrs.foldlM (loadSegment fuel binary) vm) fun vm => vm.FlagsIn F := by
    intro hdrs
    induction hdrs with
    | nil => exact fun vm _ hvm => .ok hvm
    | cons hdr hdrs ih =>
      intro vm hf hvm
      rw [List.foldlM_cons]
      refine Ends.bind (P := fun vm => vm.FlagsIn F) ?_ fun vm hvm =>
        ih vm (fun hdr hmem => hf hdr (List.mem_cons_of_mem _ hmem)) hvm
      refine .ite (fun _ => .ok hvm) fun hl => .ite (fun _ => .error id) fun _ => ?_
      have hflags := hf hdr List.mem_cons_self (by simpa using hl)
      exact (ofTree_ends fun _ he => hvm.addExecutableVma h.zero hflags he).bind fun ⟨_, vm⟩ hvm => .ok hvm
  refine (hload hdrs VmSpace.empty hf fun _ => h.zero).bind fun vm hvm => ?_
  exact (ofTree_ends fun _ he => hvm.addExecutableVma h.zero (h.allowed (by decide)) he).bind fun ⟨_, vm⟩ hvm => .ok hvm

/-- What holds of a machine: the property of pages and the one of areas, for every task. -/
def Machine.Permitted (L : Entry → Prop) (F : Nat → Prop) (s : Machine) : Prop :=
  ∀ pid t, s.tasks pid = some t → OpenLsd.Permitted L F t.vm t.pml4

variable {s : Machine} {c : CloneState} {pml4 : Nat}

theorem Machine.Permitted.setTask (h : s.Permitted L F) {t : TaskSpace} (ht : OpenLsd.Permitted L F t.vm t.pml4) (pid : Nat) :
    (s.setTask pid (some t)).Permitted L F := by
  intro pid' t' hp
  rw [setTask_tasks] at hp
  split at hp
  · cases hp
    exact ht
  · exact h pid' t' hp

/-- The pages that a child gets are read-only. -/
theorem Permission.clonePage (h : Permission L F) {va : Nat} (hp : UserAll L c.parent) (hc : UserAll L c.child) :
    Yields (OpenLsd.clonePage pml4 va c) fun r =>
      UserAll L r.parent ∧ UserAll L r.child ∧ r.childVm = c.childVm := by
  unfold OpenLsd.clonePage
  split
  · exact .ok ⟨hp, hc, rfl⟩
  · refine (h.pageInsert (fun e he => h.readOnly e ?_) hc _ _).bind fun ⟨_, m, t⟩ ht => .ok ⟨?_, ht, rfl⟩
    · exact congrArg PageFlags.write he
    · exact hp.modifyEntry (f := fun e => { e with write := false }) (fun _ => rfl) (fun _ => rfl)
        (fun _ _ => h.readOnly _ rfl) va

/-- Cloning areas. -/
theorem Permission.cloneAreas (h : Permission L F) {vm : VmSpace} (hvm : vm.FlagsIn F) (l : List Nat)
    (hp : UserAll L c.parent) (hc : OpenLsd.Permitted L F c.childVm c.child) :
    Yields (OpenLsd.cloneAreas fuel pml4 vm l c) fun r =>
      UserAll L r.parent ∧ OpenLsd.Permitted L F r.childVm r.child := by
  induction l generalizing c with
  | nil => exact .ok ⟨hp, hc⟩
  | cons p l ih =>
    refine Ends.bind (P := fun r => UserAll L r.parent ∧ OpenLsd.Permitted L F r.childVm r.child) ?_
      fun c hc => ih hc.1 hc.2
    refine (h.addVma hc.areas (hvm p)).bind fun ⟨r, childVm⟩ hchild => ?_
    cases r with
    | none => exact .error id
    | some q =>
      have hflags : FlagsIn F (childVm.setVma q { childVm.vma q with vmSrc := (vm.vma p).vmSrc, vmLen := (vm.vma p).vmLen }) :=
        hchild.setVma (hchild q)
      refine (forRange_rule (I := fun _ (r : CloneState) => UserAll L r.parent ∧ UserAll L r.child ∧ r.childVm.FlagsIn F)
        (fun _ c _ _ hc => ?_) ?_).mono fun r hr => ⟨hr.1, hr.2.1, hr.2.2⟩
      case refine_2 => exact ⟨hp, hc.leaves, hflags⟩
      exact (h.clonePage hc.1 hc.2.1).mono fun r hr => ⟨hr.1, hr.2.1, hr.2.2 ▸ hc.2.2⟩

theorem Machine.forTask_ends {bad : Stop → Prop} {pid : Nat} {f : TaskSpace → Kernel Machine} {post : Machine → Prop}
    (hs : post s) (hf : ∀ t, s.tasks pid = some t → Ends bad (f t) post) : Ends bad (s.forTask pid f) post := by
  unfold forTask
  split
  · exact .ok hs
  · exact hf _ ‹_›

/-- Every step keeps the two properties, if programs are only loaded with areas that have theirs. -/
theorem Permission.act (h : Permission L F) {image : Nat → UInt8} (a : MemAction)
    (ha : ∀ pid binary hdrs, a = .create pid binary hdrs → ∀ hdr ∈ hdrs, hdr.pLoad = true → F hdr.protFlags)
    (hs : s.Permitted L F) : Yields (s.act fuel image a) fun r => r.Permitted L F := by
  cases a with
  | create pid binary hdrs =>
    refine .ite (fun _ => .ok hs) fun _ => ?_
    refine (taskAlloc_leaves (L := L) _ _ _).bind fun ⟨m, t, root⟩ ht => ?_
    exact (h.taskLoadElf (ha pid binary hdrs rfl)).bind fun vm hvm => .ok (Permitted.setTask hs ⟨ht, hvm⟩ pid)
  | call pid c =>
    refine forTask_ends hs fun t ht => ?_
    exact (h.run (s := s.running pid t) c (hs pid t ht)).bind fun r hr => .ok (Permitted.setTask hs hr pid)
  | fault pid va flags =>
    refine forTask_ends hs fun t ht => ?_
    exact (h.taskPageFaultHandler (s := s.running pid t) (hs pid t ht)).bind fun ⟨_, r⟩ hr =>
      .ok (Permitted.setTask hs hr pid)
  | store pid va b =>
    refine forTask_ends hs fun t ht => .ok ?_
    unfold store
    split
    · exact hs
    · next m pml4 he =>
      have hp : OpenLsd.Permitted L F t.vm pml4 := ⟨h.userStore (hs pid t ht).leaves he, (hs pid t ht).areas⟩
      exact Permitted.setTask hs hp pid
  | fork pid child =>
    refine .ite (fun _ => .ok hs) fun _ => forTask_ends hs fun t ht => ?_
    have ht := hs pid t ht
    refine (taskAlloc_leaves (L := L) _ _ _).bind fun ⟨m, pml4, root⟩ hpml4 => ?_
    refine (h.cloneAreas ht.areas _ ht.leaves ⟨hpml4, fun _ => h.zero⟩).bind fun c hc => .ok ?_
    have hp : OpenLsd.Permitted L F t.vm c.parent := ⟨hc.1, ht.areas⟩
    exact Permitted.setTask (t := { vm := c.childVm, pml4 := c.child, root := root })
      (Permitted.setTask (t := { t with pml4 := c.parent }) hs hp pid) hc.2 child
  | free cur pid =>
    refine forTask_ends hs fun t ht => ?_
    refine .skip fun _ => .skip fun ⟨m, _⟩ => .skip fun m => .ok ?_
    intro pid' t' hp
    rw [setTask_tasks] at hp
    split at hp
    · cases hp
    · exact hs pid' t' hp

end Tasks

end OpenLsd
