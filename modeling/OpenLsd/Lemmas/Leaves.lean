import OpenLsd.Lemmas.WalkRules
import OpenLsd.Sched.Memory

/-!
# What holds of every mapped page

A property of leaf entries that every page of the user half has. The entries that map pages are made in few ways: with the
flags that a walk is given, with the flags of another leaf (splitting and merging), and by clearing flags of a leaf. A
property that these keep holds of every leaf after any walk, whatever happens to the frames.
-/

namespace OpenLsd

open Outcome Function

/-! ## Properties of leaves -/

/-- The property holds of the leaves below an entry. What an entry that is not present refers to means nothing. -/
def Pde.All (L : Entry → Prop) (e : Pde) : Prop :=
  e.entry.present = true →
    (e.entry.huge = true → L e.entry) ∧
    (e.entry.huge = false → ∀ i < PAGE_TABLE_ENTRIES, (e.child i).present = true → L (e.child i))

def Pdpte.All (L : Entry → Prop) (e : Pdpte) : Prop :=
  e.entry.present = true → ∀ i < PAGE_TABLE_ENTRIES, Pde.All L (e.child i)

def Pml4e.All (L : Entry → Prop) (e : Pml4e) : Prop :=
  e.entry.present = true → ∀ i < PAGE_TABLE_ENTRIES, Pdpte.All L (e.child i)

/-- The property holds of every page that is mapped in the user half. -/
def UserAll (L : Entry → Prop) (t : Pml4) : Prop := ∀ i < KERNEL_INDEX, Pml4e.All L (t i)

/-- The addresses below `USER_LIM` belong to the entries of the user half. -/
theorem user_index {va : Nat} (h : va < USER_LIM) : signExtend va / PDPT_SPAN % PAGE_TABLE_ENTRIES < KERNEL_INDEX := by
  rw [signExtend, if_pos h]
  simp only [USER_LIM] at h
  simp only [PDPT_SPAN, PAGE_DIR_SPAN, PAGE_TABLE_SPAN, PAGE_SIZE, PAGE_TABLE_ENTRIES, KERNEL_INDEX]
  omega

theorem UserAll.pageLookup {L : Entry → Prop} {t : Pml4} {va : Nat} {e : Entry} (h : UserAll L t) (hva : va < USER_LIM)
    (he : OpenLsd.pageLookup t va = some e) : L e := by
  unfold OpenLsd.pageLookup at he
  obtain ⟨⟨pde, e'⟩, he, rfl⟩ := Option.map_eq_some_iff.1 he
  have hlt : ∀ n, n % PAGE_TABLE_ENTRIES < PAGE_TABLE_ENTRIES := fun n => Nat.mod_lt _ (by decide)
  unfold lookup at he
  simp only at he
  split at he
  · cases he
  · next hp =>
    simp only [not_or, Bool.not_eq_false] at hp
    have hpde := h _ (user_index hva) hp.1 _ (hlt _) hp.2.1 _ (hlt _) hp.2.2
    split at he
    · next hh =>
      cases he
      exact hpde.1 hh
    · next hh =>
      split at he
      · next hpte =>
        cases he
        exact hpde.2 (Bool.not_eq_true _ ▸ hh) _ (hlt _) hpte
      · cases he

section Walks

variable {L : Entry → Prop}

/-- A walker whose callbacks keep a property of the leaves. -/
structure Walker.KeepsLeaves (w : Walker Phys) (L : Entry → Prop) : Prop where
  pte : ∀ base last m e, (e.present = true → L e) →
    Yields (w.pteCallback base last m e) fun r => r.2.present = true → L r.2
  pde : ∀ base last m e, Pde.All L e → Yields (w.pdeCallback base last m e) fun r => Pde.All L r.2
  pdpte : ∀ base last m e, Pdpte.All L e → Yields (w.pdpteCallback base last m e) fun r => Pdpte.All L r.2
  pml4e : ∀ base last m e, Pml4e.All L e → Yields (w.pml4eCallback base last m e) fun r => Pml4e.All L r.2
  pdeUnmap : ∀ base last m e, Pde.All L e → Yields (w.pdeUnmap base last m e) fun r => Pde.All L r.2
  pdpteUnmap : ∀ base last m e, Pdpte.All L e → Yields (w.pdpteUnmap base last m e) fun r => Pdpte.All L r.2
  pml4eUnmap : ∀ base last m e, Pml4e.All L e → Yields (w.pml4eUnmap base last m e) fun r => Pml4e.All L r.2
  hole : w.ptHoleCallback = fun _ _ s => .ok s

namespace Walker.KeepsLeaves

variable {w : Walker Phys} {m : Phys}

section

variable (h : w.KeepsLeaves L) {base last : Nat}

include h

theorem holes {N : Type} {P : N → Prop} {span : Nat} {e : N} (he : P e) : Yields (w.hole span base m e) fun r => P r.2 := by
  rw [Walker.hole, h.hole]
  exact .ok he

theorem visitPte {e : Entry} (he : e.present = true → L e) :
    Yields (w.visitPte base last m e) fun r => r.2.present = true → L r.2 :=
  (h.pte _ _ m e he).bind fun ⟨_, _⟩ he => .ite (fun _ => .ok he) fun _ => h.holes (P := fun e => e.present = true → L e) he

theorem visitPde {e : Pde} (he : Pde.All L e) : Yields (w.visitPde base last m e) fun r => Pde.All L r.2 := by
  refine (h.pde _ _ m e he).bind fun ⟨m, e⟩ he => .ite (fun hp => .ite (fun _ => h.pdeUnmap _ _ m e he) fun hh => ?_) fun _ =>
    h.holes he
  refine (walkLoop_keeps (fun _ _ _ he => h.visitPte he) _ _ ((he hp).2 (by simpa using hh))).bind fun ⟨m, t⟩ ht => ?_
  exact h.pdeUnmap _ _ m _ fun _ => ⟨fun hh' => absurd hh' hh, fun _ => ht⟩

theorem visitPdpte {e : Pdpte} (he : Pdpte.All L e) : Yields (w.visitPdpte base last m e) fun r => Pdpte.All L r.2 := by
  refine (h.pdpte _ _ m e he).bind fun ⟨m, e⟩ he => .ite (fun hp => ?_) fun _ => h.holes he
  exact (walkLoop_keeps (fun _ _ _ he => h.visitPde he) _ _ (he hp)).bind fun ⟨m, t⟩ ht => h.pdpteUnmap _ _ m _ fun _ => ht

theorem visitPml4e {e : Pml4e} (he : Pml4e.All L e) : Yields (w.visitPml4e base last m e) fun r => Pml4e.All L r.2 := by
  refine (h.pml4e _ _ m e he).bind fun ⟨m, e⟩ he => .ite (fun hp => ?_) fun _ => h.holes he
  exact (walkLoop_keeps (fun _ _ _ he => h.visitPdpte he) _ _ (he hp)).bind fun ⟨m, t⟩ ht => h.pml4eUnmap _ _ m _ fun _ => ht

/-- A walk may go into the kernel half, which the property does not look at. -/
theorem walkPageRange {t : Pml4} {bound : Nat} (ht : UserAll L t) :
    Yields (w.walkPageRange base bound m t) fun r => UserAll L r.2 :=
  walkLoop_keeps (fun _ _ _ he => h.visitPml4e he) _ _ ht

end

end Walker.KeepsLeaves

end Walks

/-! ## The callbacks -/

/-- The property of a leaf depends on the flags that splitting and merging pass on, and nothing else. -/
def FlagProp (L : Entry → Prop) : Prop := ∀ e e' : Entry, e'.umask = e.umask → L e → L e'

section Callbacks

variable {L : Entry → Prop} {C : Type} {P : Branch C → Prop} {e : Branch C}

/-- A property of an entry that a new table has is kept when a table is allocated. -/
theorem ptblAlloc_keeps [Zero C] (hnew : ∀ page, P ⟨tableEntry page, fun _ => 0⟩) (m : Phys)
    (h : P e) : Yields (ptblAlloc m e) fun r => P r.2 := by
  refine .ite (fun _ => .ok h) fun _ => ?_
  exact .skip fun ⟨page, m⟩ => .skip fun m => .ok (hnew page)

theorem ptblAlloc_pde (m : Phys) {e : Pde} (h : Pde.All L e) : Yields (ptblAlloc m e) fun r => Pde.All L r.2 :=
  ptblAlloc_keeps (fun _ _ => ⟨nofun, fun _ _ _ => nofun⟩) m h

theorem splitEntry_flags (static : Bool) (hugePage : Nat) (flags : PageFlags) (i : Nat) (s : Phys × (Nat → Entry)) :
    Yields (splitEntry static hugePage flags i s) fun r =>
      ∃ page, r.2 = update s.2 i (PageFlags.entry { flags with present := true } page) := by
  refine .ite (fun _ => .ok ⟨_, rfl⟩) fun _ => ?_
  exact .skip fun ⟨page, m⟩ => .ok ⟨page, rfl⟩

theorem ptblSplit_pde (hL : FlagProp L) (m : Phys) {e : Pde} (h : Pde.All L e) :
    Yields (ptblSplit m e) fun r => Pde.All L r.2 := by
  refine .ite (fun _ => ptblAlloc_pde m h) fun hc => ?_
  obtain ⟨hp, hh⟩ : e.entry.present = true ∧ e.entry.huge = true := by simpa using hc
  have hleaf := (h hp).1 hh
  refine .skip fun ⟨page, m⟩ => .skip fun m => ?_
  refine Ends.bind (P := fun r => ∀ i < PAGE_TABLE_ENTRIES, (r.2 i).present = true → L (r.2 i)) ?_ fun ⟨m, t⟩ ht => ?_
  · refine (forRange_rule (I := fun _ r => ∀ i < PAGE_TABLE_ENTRIES, (r.2 i).present = true → L (r.2 i))
      (fun j s _ _ hs => ?_) fun _ _ hp' => Bool.noConfusion hp').mono fun _ hr => hr
    refine (splitEntry_flags _ _ _ j s).mono fun r ⟨p, hr⟩ i hi => ?_
    rw [hr]
    by_cases hij : i = j
    · rw [hij, update_self]
      refine fun _ => hL e.entry _ ?_ hleaf
      simp [PageFlags.entry, Entry.umask, hp]
    · rw [update_of_ne hij]
      exact hs i hi
  · refine .ite (fun _ => .ok fun _ => ⟨nofun, fun _ => ht⟩) fun _ => ?_
    exact .skip fun m => .ok fun _ => ⟨nofun, fun _ => ht⟩

theorem ptblMerge_pde (hL : FlagProp L) (base : Nat) (m : Phys) {e : Pde} (h : Pde.All L e) :
    Yields (ptblMerge base m e) fun r => Pde.All L r.2 := by
  refine .ite (fun _ => .ok h) fun hc => .ite (fun hm => ?_) fun _ => .ok h
  obtain ⟨hp, hh⟩ : e.entry.present = true ∧ e.entry.huge = false := by simpa using hc
  have hpos : 0 < PAGE_TABLE_ENTRIES := by decide
  have hleaf := (h hp).2 hh 0 hpos (hm 0 hpos).1
  refine .skip fun ⟨page, m⟩ => .skip fun m => .skip fun m =>
    .skip fun m => .skip fun m => .skip fun m => .ok fun _ => ⟨fun _ => ?_, nofun⟩
  refine hL _ _ ?_ hleaf
  simp [PageFlags.entry, Entry.umask, (hm 0 hpos).1]

theorem ptblFree_keeps [HasEntry C] (hgone : ∀ t, P ⟨0, t⟩) (m : Phys) (h : P e) : Yields (ptblFree m e) fun r => P r.2 := by
  refine .ite (fun _ => .ok h) fun _ => .ite (fun _ => .ok h) fun _ => ?_
  exact .skip fun m => .ok (hgone _)

theorem populate_keepsLeaves (hL : FlagProp L) {info : PopulateInfo}
    (hf : ∀ e : Entry, e.umask = { info.flags with present := true, huge := false } → L e) : info.walker.KeepsLeaves L where
  pte := fun base _ m e h => by
    have hnew : ∀ page, L (PageFlags.entry { info.flags with present := true } page) := fun page => hf _ rfl
    refine .ite (fun _ => ?_) fun _ => .ite (fun _ => .ok h) fun _ => ?_
    · exact .skip fun ⟨page, m⟩ => .skip fun m => .skip fun m =>
        .skip fun m => .ok fun _ => hnew page
    · exact .skip fun ⟨page, m⟩ => .skip fun m => .ok fun _ => hnew page
  pde := fun base last m e h => by
    have hnew : ∀ page, Pde.All L { e with entry := PageFlags.entry { info.flags with present := true, huge := true } page } :=
      fun page _ => ⟨fun _ => hf _ rfl, nofun⟩
    refine .ite (fun _ => ?_) fun _ => .ite (fun _ => .ok h) fun _ => .ite (fun _ => ?_) fun _ => ptblSplit_pde hL m h
    · exact .skip fun ⟨page, m⟩ => .skip fun m => .skip fun m =>
        .skip fun m => .ok (hnew page)
    · exact .skip fun ⟨page, m⟩ => .skip fun m => .ok (hnew page)
  pdpte := fun _ _ m _ h => ptblAlloc_keeps (fun _ _ _ _ => nofun) m h
  pml4e := fun _ _ m _ h => ptblAlloc_keeps (fun _ _ _ _ => nofun) m h
  pdeUnmap := fun base _ m _ h => ptblMerge_pde hL base m h
  pdpteUnmap := fun _ _ _ _ h => .ok h
  pml4eUnmap := fun _ _ _ _ h => .ok h
  hole := rfl

theorem protect_keepsLeaves (hL : FlagProp L) {info : ProtectInfo}
    (hf : info.flags.present = true → ∀ e : Entry, e.umask = { info.flags with huge := false } → L e) :
    info.walker.KeepsLeaves L where
  pte := fun base _ m e h => by
    refine .ite (fun _ => .ok fun hp => hf hp _ rfl) fun _ => .ok h
  pde := fun base last m e h => by
    refine .ite (fun _ => .ite (fun _ => .ite (fun _ => .ok h) fun _ => ?_) fun _ => ?_) fun _ => .ok h
    · refine .ok fun hp => ⟨fun _ => hf hp _ rfl, fun hh => ?_⟩
      rename_i hhuge _ _
      simp [Entry.protect, hhuge.1] at hh
    · exact (ptblSplit_pde hL m h).bind fun ⟨m, e⟩ he => .ok he
  pdpte := fun _ _ _ _ h => .ok h
  pml4e := fun _ _ _ _ h => .ok h
  pdeUnmap := fun _ _ _ _ h => .ok h
  pdpteUnmap := fun _ _ _ _ h => .ok h
  pml4eUnmap := fun _ _ _ _ h => .ok h
  hole := rfl

theorem remove_keepsLeaves (hL : FlagProp L) (info : RemoveInfo) : info.walker.KeepsLeaves L where
  pte := fun base _ m e h => by
    refine .ite (fun _ => ?_) fun _ => .ok h
    exact .skip fun m => .ok nofun
  pde := fun base last m e h => by
    refine .ite (fun _ => .ite (fun _ => ?_) fun _ => ?_) fun _ => .ok h
    · exact (ptblSplit_pde hL m h).bind fun ⟨m, e⟩ he => .ok he
    · exact .skip fun m => .ok nofun
  pdpte := fun _ _ _ _ h => .ok h
  pml4e := fun _ _ _ _ h => .ok h
  pdeUnmap := fun _ _ m _ h => ptblFree_keeps (fun _ => nofun) m h
  pdpteUnmap := fun _ _ m _ h => ptblFree_keeps (fun _ => nofun) m h
  pml4eUnmap := fun _ _ m _ h => ptblFree_keeps (fun _ => nofun) m h
  hole := rfl

theorem insert_keepsLeaves (hL : FlagProp L) {info : InsertInfo}
    (hf : ∀ e : Entry, e.umask = { info.flags with present := true, huge := false } → L e) : info.walker.KeepsLeaves L where
  pte := fun base _ m e h => by
    refine .ite (fun _ => .error id) fun _ => ?_
    refine .skip fun m => .ite (fun _ => ?_) fun _ => .ok fun _ => hf _ rfl
    exact .skip fun m => .ok fun _ => hf _ rfl
  pde := fun base _ m e h => by
    refine .ite (fun hh => ?_) fun _ => ptblAlloc_pde m h
    have hnew : Pde.All L { e with entry := info.flags.entry info.page } := by
      refine fun hp => ⟨fun _ => hf _ ?_, fun hh' => ?_⟩
      · have hp : info.flags.present = true := hp
        simp [PageFlags.entry, Entry.umask, hp]
      · rw [show (info.flags.entry info.page).huge = info.flags.huge from rfl, hh] at hh'
        cases hh'
    refine .skip fun m => .ite (fun _ => ?_) fun _ => .ok hnew
    exact .skip fun m => .ok hnew
  pdpte := fun _ _ m _ h => ptblAlloc_keeps (fun _ _ _ _ => nofun) m h
  pml4e := fun _ _ m _ h => ptblAlloc_keeps (fun _ _ _ _ => nofun) m h
  pdeUnmap := fun base _ m _ h => ptblMerge_pde hL base m h
  pdpteUnmap := fun _ _ _ _ h => .ok h
  pml4eUnmap := fun _ _ _ _ h => .ok h
  hole := rfl

end Callbacks

end OpenLsd
