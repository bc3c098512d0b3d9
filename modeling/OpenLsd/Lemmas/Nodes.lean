import OpenLsd.Lemmas.Leaves
import OpenLsd.Lemmas.Ledger
import OpenLsd.Lemmas.PageRules

/-!
# The frames below a node

What a node of a page table owns: the references to frames in its entries and in those below it, and the pages that it maps.
A node is counted in a ledger when the reference counts of the frames are its own references and those that others hold
(`Acc`), and the frames that it refers to are what it takes them for. An operation on a node that keeps it counted, spares
what others hold and treats the pages of a range in one way and those outside in another respects `nodeTrack`. What is done
to an entry is seen in its table: for the entry, the references of all other entries are held by others.
-/

namespace OpenLsd

open Outcome Function

variable {ext : Nat → Nat} {lent : Set Nat} {C : Type} {s s' s'' : Option PageState} {keep alloc alloc' : Orders}
  {lossy : Prop} {m : Phys}

variable {e : Entry} {f : Nat}

/-! ## Pages -/

/-- What a page that is mapped is to a task: its permissions, its bytes, and the number of references to it. -/
structure PageState where
  write : Bool
  user : Bool
  noExec : Bool
  bytes : Nat → UInt8
  ref : Nat

/-- The page in the frame `f` that the entry maps. -/
def Entry.state (m : Phys) (e : Entry) (f : Nat) : PageState where
  write := e.write
  user := e.user
  noExec := e.noExec
  bytes := m.bytes f
  ref := (m.pages e.frame).ppRef

/-- The page has the same permissions and bytes, and no new references unless frames are lent. -/
structure PageState.Le (lent : Set Nat) (s s' : PageState) : Prop where
  write : s'.write = s.write
  user : s'.user = s.user
  noExec : s'.noExec = s.noExec
  bytes : s'.bytes = s.bytes
  ref : lent = ∅ → s'.ref ≤ s.ref

/-- Nothing happens to the page, whether it is mapped or not. -/
def SamePage (lent : Set Nat) : Option PageState → Option PageState → Prop := Option.Rel (PageState.Le lent)

namespace SamePage

theorem refl (lent : Set Nat) (s : Option PageState) : SamePage lent s s := by
  cases s with
  | none => exact .none
  | some a => exact .some ⟨rfl, rfl, rfl, rfl, fun _ => le_rfl⟩

theorem trans (h : SamePage lent s s') (h' : SamePage lent s' s'') : SamePage lent s s'' := by
  cases h with
  | none => exact h'
  | some hab =>
    cases h' with
    | some hbc =>
      exact .some ⟨hbc.write.trans hab.write, hbc.user.trans hab.user, hbc.noExec.trans hab.noExec, hbc.bytes.trans hab.bytes,
        fun hl => le_trans (hbc.ref hl) (hab.ref hl)⟩

end SamePage

/-! ## Nodes -/

/-- The frame is a page table that nothing else refers to. -/
def TableFrame (keep alloc : Orders) (m : Phys) (f : Nat) : Prop :=
  alloc f = some BUDDY_4K_PAGE ∧ keep f = none ∧ (m.pages f).ppRef = 1

/-- A node of a page table: the number of pages that it spans, its references to frames, those that it takes for page tables,
whether the frames are what it takes them for, and the page with a given number that it maps. -/
class Node (N : Type) where
  pages : Nat
  refs : N → Nat → Nat
  Table : N → Nat → Prop
  Fits : Orders → Orders → Phys → N → Prop
  page : Phys → N → Nat → Option PageState
  table_refs : ∀ {e : N} {f : Nat}, Table e f → 0 < refs e f
  fits_table : ∀ {keep alloc : Orders} {m : Phys} {e : N} {f : Nat}, Fits keep alloc m e → Table e f →
    TableFrame keep alloc m f
  fits_spared : ∀ {keep alloc alloc' : Orders} {lent : Set Nat} {ext : Nat → Nat} {m m' : Phys} {e : N},
    Spares lent ext alloc m alloc' m' → (∀ f, 0 < refs e f → 0 < ext f) → (∀ f ∈ lent, ¬Table e f) →
    Fits keep alloc m e → Fits keep alloc' m' e
  page_spared : ∀ {keep alloc alloc' : Orders} {lent : Set Nat} {ext : Nat → Nat} {m m' : Phys} {e : N},
    Spares lent ext alloc m alloc' m' → (∀ f, 0 < refs e f → 0 < ext f) → Fits keep alloc m e →
    ∀ g, SamePage lent (page m e g) (page m' e g)

/-- The references in the first `n` entries of a table. -/
def tableRefs {C : Type} [Node C] (n : Nat) (t : Nat → C) : Nat → Nat := ∑ i ∈ Finset.range n, Node.refs (t i)

theorem le_tableRefs [Node C] {n i : Nat} (hi : i < n) (t : Nat → C) (f : Nat) : Node.refs (t i) f ≤ tableRefs n t f := by
  rw [tableRefs, Finset.sum_apply]
  exact Finset.single_le_sum (f := fun j => Node.refs (t j) f) (fun _ _ => Nat.zero_le _) (Finset.mem_range.2 hi)

theorem tableRefs_pos [Node C] {n i : Nat} {t : Nat → C} (hi : i < n) (hf : 0 < Node.refs (t i) f) : 0 < tableRefs n t f :=
  lt_of_lt_of_le hf (le_tableRefs hi t f)

theorem TableFrame.spared {m' : Phys} (h : TableFrame keep alloc m f)
    (hs : Spares lent ext alloc m alloc' m') (hf : 0 < ext f) (hl : f ∉ lent) : TableFrame keep alloc' m' f := by
  refine ⟨hs.stays f _ hf h.1, h.2.1, ?_⟩
  have hpos := hs.pos f hf
  have hle := hs.ppRef f hl hf
  have := h.2.2
  omega

/-- An entry for a page stays what it is when its block is spared. -/
theorem Entry.state_spared {m' : Phys}
    {k : Nat} (hs : Spares lent ext alloc m alloc' m') (hext : 0 < ext e.frame) (ha : alloc e.frame = some k)
    (hf : f ∈ blockSet e.frame k) : PageState.Le lent (e.state m f) (e.state m' f) := by
  refine ⟨rfl, rfl, rfl, hs.bytes e.frame k hext ha f hf, fun hl => ?_⟩
  subst hl
  exact hs.ppRef e.frame (Set.notMem_empty _) hext

instance nodeEntry : Node Entry where
  pages := 1
  refs := fun e => if e.present = true then Pi.single e.frame 1 else 0
  Table := fun _ _ => False
  Fits := fun keep alloc _ e => e.present = true → alloc e.frame = some BUDDY_4K_PAGE ∧ keep e.frame = none
  page := fun m e _ => if e.present = true then some (e.state m e.frame) else none
  table_refs := False.elim
  fits_table := fun _ => False.elim
  fits_spared := by
    intro keep alloc alloc' lent ext m m' e hs hext _ h hp
    refine ⟨hs.stays _ _ (hext _ ?_) (h hp).1, (h hp).2⟩
    simp [hp]
  page_spared := by
    intro keep alloc alloc' lent ext m m' e hs hext h g
    split
    · next hp =>
      refine .some (Entry.state_spared hs (hext _ ?_) (h hp).1 (head_mem_blockSet _ _))
      simp [hp]
    · exact .none

/-- A PDE maps a huge page, or refers to a table of entries. -/
instance nodePde : Node (Branch Entry) where
  pages := PAGE_TABLE_ENTRIES
  refs := fun e => if e.entry.present = true then
      Pi.single e.entry.frame 1 + if e.entry.huge = true then 0 else tableRefs PAGE_TABLE_ENTRIES e.child
    else 0
  Table := fun e f => e.entry.present = true ∧ e.entry.huge = false ∧ e.entry.frame = f
  Fits := fun keep alloc m e => e.entry.present = true →
    (e.entry.huge = true → alloc e.entry.frame = some BUDDY_2M_PAGE ∧ keep e.entry.frame = none) ∧
    (e.entry.huge = false → TableFrame keep alloc m e.entry.frame ∧
      ∀ i < PAGE_TABLE_ENTRIES, Node.Fits keep alloc m (e.child i))
  page := fun m e g => if e.entry.present = true then
      if e.entry.huge = true then some (e.entry.state m (e.entry.frame + g % PAGE_TABLE_ENTRIES))
      else Node.page m (e.child (g % PAGE_TABLE_ENTRIES)) g
    else none
  table_refs := by
    rintro e f ⟨hp, _, rfl⟩
    simp [hp]
  fits_table := by
    rintro keep alloc m e f h ⟨hp, hh, rfl⟩
    exact ((h hp).2 hh).1
  fits_spared := by
    intro keep alloc alloc' lent ext m m' e hs hext hl h hp
    obtain ⟨hhuge, htable⟩ := h hp
    simp only [hp, if_true] at hext
    have hself : 0 < ext e.entry.frame := hext _ (by simp)
    refine ⟨fun hh => ⟨hs.stays _ _ hself (hhuge hh).1, (hhuge hh).2⟩, fun hh => ?_⟩
    simp only [hh, Bool.false_eq_true, if_false, Pi.add_apply] at hext
    refine ⟨(htable hh).1.spared hs hself fun hfl => hl _ hfl ⟨hp, hh, rfl⟩, fun i hi => ?_⟩
    exact Node.fits_spared hs (fun f hf => hext f (Nat.add_pos_right _ (tableRefs_pos hi hf))) (fun _ _ => id) ((htable hh).2 i hi)
  page_spared := by
    intro keep alloc alloc' lent ext m m' e hs hext h g
    by_cases hp : e.entry.present = true
    · obtain ⟨hhuge, htable⟩ := h hp
      have hmod : g % PAGE_TABLE_ENTRIES < PAGE_TABLE_ENTRIES := Nat.mod_lt _ (by decide)
      simp only [hp, if_true] at hext ⊢
      by_cases hh : e.entry.huge = true
      · rw [if_pos hh, if_pos hh]
        refine .some (Entry.state_spared hs (hext _ (by simp)) (hhuge hh).1 ⟨Nat.le_add_right _ _, ?_⟩)
        exact Nat.add_lt_add_left hmod _
      · have hh' : e.entry.huge = false := by simpa using hh
        rw [if_neg hh, if_neg hh]
        refine Node.page_spared hs (fun f hf => hext f ?_) ((htable hh').2 _ hmod) g
        rw [if_neg hh, Pi.add_apply]
        exact Nat.add_pos_right _ (tableRefs_pos hmod hf)
    · rw [if_neg hp, if_neg hp]
      exact .none

/-- An entry further up refers to a table. -/
instance nodeBranch {C : Type} [Node (Branch C)] : Node (Branch (Branch C)) where
  pages := PAGE_TABLE_ENTRIES * Node.pages (Branch C)
  refs := fun e => if e.entry.present = true then Pi.single e.entry.frame 1 + tableRefs PAGE_TABLE_ENTRIES e.child else 0
  Table := fun e f => e.entry.present = true ∧ (e.entry.frame = f ∨ ∃ i < PAGE_TABLE_ENTRIES, Node.Table (e.child i) f)
  Fits := fun keep alloc m e => e.entry.present = true →
    TableFrame keep alloc m e.entry.frame ∧ ∀ i < PAGE_TABLE_ENTRIES, Node.Fits keep alloc m (e.child i)
  page := fun m e g => if e.entry.present = true then
      Node.page m (e.child (g / Node.pages (Branch C) % PAGE_TABLE_ENTRIES)) g
    else none
  table_refs := by
    rintro e f ⟨hp, rfl | ⟨i, hi, ht⟩⟩
    · simp [hp]
    · simp only [hp, if_true, Pi.add_apply]
      exact Nat.add_pos_right _ (tableRefs_pos hi (Node.table_refs ht))
  fits_table := by
    rintro keep alloc m e f h ⟨hp, rfl | ⟨i, hi, ht⟩⟩
    · exact (h hp).1
    · exact Node.fits_table ((h hp).2 i hi) ht
  fits_spared := by
    intro keep alloc alloc' lent ext m m' e hs hext hl h hp
    simp only [hp, if_true, Pi.add_apply] at hext
    refine ⟨(h hp).1.spared hs (hext _ (by simp)) fun hfl => hl _ hfl ⟨hp, .inl rfl⟩, fun i hi => ?_⟩
    exact Node.fits_spared hs (fun f hf => hext f (Nat.add_pos_right _ (tableRefs_pos hi hf)))
      (fun f hfl ht => hl f hfl ⟨hp, .inr ⟨i, hi, ht⟩⟩) ((h hp).2 i hi)
  page_spared := by
    intro keep alloc alloc' lent ext m m' e hs hext h g
    by_cases hp : e.entry.present = true
    · have hmod : g / Node.pages (Branch C) % PAGE_TABLE_ENTRIES < PAGE_TABLE_ENTRIES := Nat.mod_lt _ (by decide)
      simp only [hp, if_true, Pi.add_apply] at hext ⊢
      exact Node.page_spared hs (fun f hf => hext f (Nat.add_pos_right _ (tableRefs_pos hmod hf)))
        ((h hp).2 _ hmod) g
    · rw [if_neg hp, if_neg hp]
      exact .none

/-- The user half of a PML4. The frame of the PML4 itself is not one of its references. -/
instance : Node (Nat → Branch (Branch (Branch Entry))) where
  pages := PAGE_TABLE_ENTRIES * Node.pages Pml4e
  refs := fun t => tableRefs KERNEL_INDEX t
  Table := fun t f => ∃ i < KERNEL_INDEX, Node.Table (t i) f
  Fits := fun keep alloc m t => ∀ i < KERNEL_INDEX, Node.Fits keep alloc m (t i)
  page := fun m t g =>
    if g / Node.pages Pml4e % PAGE_TABLE_ENTRIES < KERNEL_INDEX then
      Node.page m (t (g / Node.pages Pml4e % PAGE_TABLE_ENTRIES)) g
    else none
  table_refs := fun ⟨_, hi, ht⟩ => tableRefs_pos hi (Node.table_refs ht)
  fits_table := fun h ⟨i, hi, ht⟩ => Node.fits_table (h i hi) ht
  fits_spared := by
    intro keep alloc alloc' lent ext m m' t hs hext hl h i hi
    exact Node.fits_spared hs (fun f hf => hext f (tableRefs_pos hi hf)) (fun f hfl ht => hl f hfl ⟨i, hi, ht⟩) (h i hi)
  page_spared := by
    intro keep alloc alloc' lent ext m m' t hs hext h g
    split
    · next hi =>
      exact Node.page_spared hs (fun f hf => hext f (tableRefs_pos hi hf)) (h _ hi) g
    · exact .none

/-! ## Counted nodes -/

/-- The reference counts are the references of the node and those that others hold. -/
structure Acc {N : Type} [Node N] (keep : Orders) (ext : Nat → Nat) (alloc : Orders) (m : Phys) (e : N) :
    Prop where
  ledger : Ledger keep (ext + Node.refs e) alloc m
  fits : Node.Fits keep alloc m e

/-- What may become of each page. -/
abbrev StateRel := Nat → Option PageState → Option PageState → Prop

/-- How the pages in a range and those outside are treated. To leave a page alone is one way to treat it. -/
structure PageRel (lent : Set Nat) where
  inside : StateRel
  outside : Option PageState → Option PageState → Prop
  same : ∀ {s s'}, SamePage lent s s' → outside s s'
  trans : ∀ {s s' s''}, outside s s' → outside s' s'' → outside s s''
  before : ∀ {g s s' s''}, outside s s' → inside g s' s'' → inside g s s''
  after : ∀ {g s s' s''}, inside g s s' → outside s' s'' → inside g s s''

/-- How the page with the number `g` is treated when those from `a` to before `b` are done. -/
def PageRel.at {lent : Set Nat} (R : PageRel lent) (a b g : Nat) (s s' : Option PageState) : Prop :=
  if a ≤ g ∧ g < b then R.inside g s s' else R.outside s s'

namespace PageRel

variable {R : PageRel lent} {a b c g : Nat}

theorem at_self (h : R.outside s s') : R.at a a g s s' := by
  rw [PageRel.at, if_neg]
  · exact h
  · omega

theorem at_trans (hab : a ≤ b) (hbc : b ≤ c) (h : R.at a b g s s') (h' : R.at b c g s' s'') : R.at a c g s s'' := by
  unfold PageRel.at at *
  by_cases h1 : a ≤ g ∧ g < b
  · rw [if_pos h1] at h
    rw [if_neg (by omega)] at h'
    rw [if_pos (by omega)]
    exact R.after h h'
  · rw [if_neg h1] at h
    by_cases h2 : b ≤ g ∧ g < c
    · rw [if_pos h2] at h'
      rw [if_pos (by omega)]
      exact R.before h h'
    · rw [if_neg h2] at h'
      rw [if_neg (by omega)]
      exact R.trans h h'

end PageRel

/-- Frames that others lend to a node: blocks of one order with given bytes. -/
structure Loan where
  frames : Set Nat
  order : Nat
  bytes : Nat → Nat → UInt8

def Loan.nothing : Loan := ⟨∅, 0, fun _ _ => 0⟩

/-- The frames of the loan are allocated, and others refer to them. -/
def Loan.Given (L : Loan) (keep : Orders) (ext : Nat → Nat) (alloc : Orders) (m : Phys) : Prop :=
  ∀ f ∈ L.frames, 0 < ext f ∧ alloc f = some L.order ∧ keep f = none ∧ ∀ x ∈ blockSet f L.order, m.bytes x = L.bytes x

section Track

variable {N : Type} [Node N] {R : PageRel lent} {ext' : Nat → Nat} {e : N}

/-- What an operation on the node of the block `c` does that has done the pages from `a` to before `b`. Frames that the node
loses without dropping its reference are never freed: the references are held by nobody from then on. -/
structure Done (keep : Orders) (lossy : Prop) (R : PageRel lent) (c a b : Nat) (ext : Nat → Nat)
    (alloc : Orders) (m : Phys) (e : N) (m' : Phys) (e' : N) (ext' : Nat → Nat) (alloc' : Orders) :
    Prop where
  acc : Acc keep ext' alloc' m' e'
  ext_le : ∀ f, ext f ≤ ext' f
  ext_eq : ¬lossy → ext' = ext
  spares : Spares lent ext alloc m alloc' m'
  page : ∀ g, g / Node.pages N = c → R.at a b g (Node.page m e g) (Node.page m' e' g)

theorem Loan.Given.spared {L : Loan} {m' : Phys} (h : L.Given keep ext alloc m)
    (hs : Spares lent ext alloc m alloc' m') (hle : ∀ f, ext f ≤ ext' f) : L.Given keep ext' alloc' m' := by
  intro f hf
  obtain ⟨hpos, ha, hk, hb⟩ := h f hf
  exact ⟨lt_of_lt_of_le hpos (hle f), hs.stays f _ hpos ha, hk, fun x hx => (hs.bytes f _ hpos ha x hx).trans (hb x hx)⟩

theorem Acc.spares_refl (h : Acc keep ext alloc m e) : Spares lent ext alloc m alloc m :=
  h.ledger.spares_refl pos_add

theorem Done.refl {c a : Nat} (h : Acc keep ext alloc m e) : Done keep lossy R c a a ext alloc m e m e ext alloc :=
  ⟨h, fun _ => le_rfl, fun _ => rfl, h.spares_refl, fun _ _ => PageRel.at_self (R.same (.refl _ _))⟩

theorem Done.trans {c a b b' : Nat} {m' m'' : Phys} {e' e'' : N} {ext'' : Nat → Nat}
    {alloc'' : Orders} (hab : a ≤ b) (hbb : b ≤ b')
    (h : Done keep lossy R c a b ext alloc m e m' e' ext' alloc')
    (h' : Done keep lossy R c b b' ext' alloc' m' e' m'' e'' ext'' alloc'') :
    Done keep lossy R c a b' ext alloc m e m'' e'' ext'' alloc'' where
  acc := h'.acc
  ext_le := fun f => le_trans (h.ext_le f) (h'.ext_le f)
  ext_eq := fun hl => (h'.ext_eq hl).trans (h.ext_eq hl)
  spares := h.spares.trans (h'.spares.mono fun f hf => lt_of_lt_of_le hf (h.ext_le f))
  page := fun g hg => PageRel.at_trans hab hbb (h.page g hg) (h'.page g hg)

/-- The track of the node of the block `c`. -/
def nodeTrack (N : Type) [Node N] (keep : Orders) (L : Loan) (lossy : Prop) (R : PageRel L.frames) (c : Nat) :
    PageTrack Phys N where
  inv := fun m e => ∃ ext alloc, Acc keep ext alloc m e ∧ L.Given keep ext alloc m
  rel := fun a b m e m' e' => ∀ ext alloc, Acc keep ext alloc m e → L.Given keep ext alloc m →
    ∃ ext' alloc', Done keep lossy R c a b ext alloc m e m' e' ext' alloc'
  refl := fun _ ext alloc h _ => ⟨ext, alloc, .refl h⟩
  trans := by
    intro a b b' m e m' e' m'' e'' hab hbb h h' ext alloc hacc hlent
    obtain ⟨ext1, alloc1, h1⟩ := h ext alloc hacc hlent
    obtain ⟨ext2, alloc2, h2⟩ := h' ext1 alloc1 h1.acc (hlent.spared h1.spares h1.ext_le)
    exact ⟨ext2, alloc2, h1.trans hab hbb h2⟩
  keeps := by
    rintro a b m e m' e' ⟨ext, alloc, hacc, hlent⟩ h
    obtain ⟨ext1, alloc1, h1⟩ := h ext alloc hacc hlent
    exact ⟨ext1, alloc1, h1.acc, hlent.spared h1.spares h1.ext_le⟩

end Track

/-! ## Tables -/

section Tables

variable {W : Type} [Node C] [Node W] {L : Loan} {R : PageRel L.frames}

/-- The references of the entries but one. -/
def otherRefs (n : Nat) (t : Nat → C) (i : Nat) : Nat → Nat := ∑ j ∈ (Finset.range n).erase i, Node.refs (t j)

theorem tableRefs_eq {n i : Nat} (hi : i < n) (t : Nat → C) : tableRefs n t = otherRefs n t i + Node.refs (t i) :=
  (Finset.sum_erase_add _ _ (Finset.mem_range.2 hi)).symm

theorem otherRefs_update (n : Nat) (t : Nat → C) (i : Nat) (c : C) : otherRefs n (update t i c) i = otherRefs n t i := by
  refine Finset.sum_congr rfl fun j hj => ?_
  rw [update_of_ne (Finset.ne_of_mem_erase hj)]

theorem le_otherRefs {n i j : Nat} (hj : j < n) (hne : j ≠ i) (t : Nat → C) (f : Nat) :
    Node.refs (t j) f ≤ otherRefs n t i f := by
  rw [otherRefs, Finset.sum_apply]
  exact Finset.single_le_sum (f := fun j => Node.refs (t j) f) (fun _ _ => Nat.zero_le _)
    (Finset.mem_erase.2 ⟨hne, Finset.mem_range.2 hj⟩)

/-- The node `mk t` refers to the frames that the first `n` entries of the table `t` refer to, and to one or no frame of its
own, which holds the table. -/
structure HoldsTable (mk : (Nat → C) → W) (n : Nat) (own : Option Nat) : Prop where
  pages : Node.pages W = 512 * Node.pages C
  pos : 0 < Node.pages C
  bound : n ≤ 512
  refs : ∀ t, Node.refs (mk t) = own.elim 0 (Pi.single · 1) + tableRefs n t
  table : ∀ t f, Node.Table (mk t) f ↔ own = some f ∨ ∃ i < n, Node.Table (t i) f
  fits : ∀ {keep alloc m t}, Node.Fits keep alloc m (mk t) ↔
    (∀ f, own = some f → TableFrame keep alloc m f) ∧ ∀ i < n, Node.Fits keep alloc m (t i)
  page : ∀ m t g, g / Node.pages C % 512 < n → Node.page m (mk t) g = Node.page m (t (g / Node.pages C % 512)) g
  none : ∀ m t g, ¬g / Node.pages C % 512 < n → Node.page m (mk t) g = none

namespace HoldsTable

variable {mk : (Nat → C) → W} {n : Nat} {own : Option Nat} {t : Nat → C} {i : Nat}

/-- What others hold, as seen from the entry `i`: the table and all other entries belong to others too. -/
def rest (n : Nat) (own : Option Nat) (t : Nat → C) (i : Nat) : Nat → Nat := own.elim 0 (Pi.single · 1) + otherRefs n t i

section

variable (h : HoldsTable mk n own) {m' : Phys} {e : C} {d : Nat}

include h

theorem refs_eq (hi : i < n) (t : Nat → C) : Node.refs (mk t) = rest n own t i + Node.refs (t i) := by
  rw [h.refs, tableRefs_eq hi, rest, add_assoc]

theorem child (hi : i < n) (hacc : Acc keep ext alloc m (mk t)) : Acc keep (ext + rest n own t i) alloc m (t i) := by
  refine ⟨?_, (h.fits.1 hacc.fits).2 i hi⟩
  rw [add_assoc, ← h.refs_eq hi]
  exact hacc.ledger

omit h in
theorem rest_update (n : Nat) (own : Option Nat) (t : Nat → C) (i : Nat) (c : C) :
    rest n own (update t i c) i = rest n own t i := by
  rw [rest, otherRefs_update, rest]

omit h in
theorem given_child (hl : L.Given keep ext alloc m) : L.Given keep (ext + rest n own t i) alloc m := fun f hf =>
  ⟨lt_of_lt_of_le (hl f hf).1 (Nat.le_add_right _ _), (hl f hf).2⟩

/-- A lent frame is no page table, and neither is it referred to by one entry only. -/
theorem lent_ne_one (hi : i < n) (hacc : Acc keep ext alloc m (mk t)) (hl : L.Given keep ext alloc m) {f : Nat}
    (hf : f ∈ L.frames) (hpos : 0 < rest n own t i f) : (m.pages f).ppRef ≠ 1 := by
  have hext := (hl f hf).1
  rw [hacc.ledger.counted, h.refs_eq hi, Pi.add_apply, Pi.add_apply]
  omega

section

variable (hi : i < n) {c a b : Nat} (hd : d % 512 = i) (hc : d / 512 = c) (ha : d * Node.pages C ≤ a)
    (hb : b ≤ d * Node.pages C + Node.pages C) (hacc : Acc keep ext alloc m (mk t)) (hl : L.Given keep ext alloc m)

include hi hd hc ha hb hacc hl

/-- What is done to an entry is done to the table. -/
theorem lift {ext1 : Nat → Nat} (hdone : Done keep lossy R d a b (ext + rest n own t i) alloc m (t i) m' e ext1 alloc') :
    Done keep lossy R c a b ext alloc m (mk t) m' (mk (update t i e)) (fun f => ext1 f - rest n own t i f) alloc' := by
  have hge : ∀ f, ext f + rest n own t i f ≤ ext1 f := hdone.ext_le
  have hone : ∀ f ∈ L.frames, 0 < rest n own t i f → (m.pages f).ppRef ≠ 1 := fun f hf => h.lent_ne_one hi hacc hl hf
  have hrest : ∀ f, 0 < rest n own t i f → 0 < (ext + rest n own t i) f := fun f hf =>
    lt_of_lt_of_le hf (Nat.le_add_left _ _)
  have hother : ∀ j < n, j ≠ i → ∀ f, 0 < Node.refs (t j) f → 0 < rest n own t i f := fun j hj hji f hf =>
    lt_of_lt_of_le hf (le_trans (le_otherRefs hj hji t f) (Nat.le_add_left _ _))
  refine ⟨⟨?_, ?_⟩, fun f => ?_, fun hlossy => ?_, ?_, fun g hg => ?_⟩
  · rw [h.refs_eq hi, rest_update, update_self, ← add_assoc]
    have : (fun f => ext1 f - rest n own t i f) + rest n own t i = ext1 := by
      funext f
      exact Nat.sub_add_cancel (le_trans (Nat.le_add_left _ _) (hge f))
    rw [this]
    exact hdone.acc.ledger
  · obtain ⟨htable, hfits⟩ := h.fits.1 hacc.fits
    refine h.fits.2 ⟨fun f hf => ?_, fun j hj => ?_⟩
    · have hpos : 0 < rest n own t i f := by
        rw [rest, hf, Pi.add_apply]
        simp
      exact (htable f hf).spared hdone.spares (hrest f hpos) fun hfl => hone f hfl hpos (htable f hf).2.2
    · by_cases hji : j = i
      · rw [hji, update_self]
        exact hdone.acc.fits
      · rw [update_of_ne hji]
        exact Node.fits_spared hdone.spares (fun f hf => hrest f (hother j hj hji f hf)) (fun f hfl ht =>
          hone f hfl (hother j hj hji f (Node.table_refs ht)) (Node.fits_table (hfits j hj) ht).2.2) (hfits j hj)
  · have := hge f
    omega
  · funext f
    rw [hdone.ext_eq hlossy, Pi.add_apply, Nat.add_sub_cancel]
  · exact hdone.spares.mono pos_add
  · -- the pages of the range are those of the one entry
    have hwithin : a ≤ g ∧ g < b → g / Node.pages C = d := by
      rintro ⟨hag, hgb⟩
      have hge' : d ≤ g / Node.pages C := (Nat.le_div_iff_mul_le h.pos).2 (le_trans ha hag)
      have hlt : g / Node.pages C < d + 1 := by
        rw [Nat.div_lt_iff_lt_mul h.pos, Nat.add_one_mul]
        omega
      omega
    by_cases hin : g / Node.pages C % 512 < n
    · rw [h.page m t g hin, h.page m' _ g hin]
      by_cases hgi : g / Node.pages C % 512 = i
      · rw [hgi, update_self]
        refine hdone.page g ?_
        rw [h.pages, Nat.mul_comm, ← Nat.div_div_eq_div_mul] at hg
        omega
      · rw [update_of_ne hgi, PageRel.at, if_neg fun hg' => hgi ((congrArg (· % 512) (hwithin hg')).trans hd)]
        exact R.same (Node.page_spared hdone.spares (fun f hf => hrest f (hother _ hin hgi f hf))
          ((h.fits.1 hacc.fits).2 _ hin) g)
    · have hout : ¬(a ≤ g ∧ g < b) := fun hg' => by
        rw [hwithin hg'] at hin
        omega
      rw [h.none m t g hin, h.none m' _ g hin, PageRel.at, if_neg hout]
      exact R.same (.refl _ _)

theorem lift_same (hdone : Done keep lossy R d a b (ext + rest n own t i) alloc m (t i) m' e (ext + rest n own t i) alloc') :
    Done keep lossy R c a b ext alloc m (mk t) m' (mk (update t i e)) ext alloc' := by
  have hlift := h.lift hi hd hc ha hb hacc hl hdone
  have hext : (fun f => (ext + rest n own t i) f - rest n own t i f) = ext := by
    funext f
    exact Nat.add_sub_cancel _ _
  rwa [hext] at hlift

end

theorem pageLifts {l : Level} (hl : l.pages = Node.pages C) (hd : d % 512 < n) :
    PageLifts l d (nodeTrack C keep L lossy R d) ((nodeTrack W keep L lossy R (d / 512)).comap mk) where
  child := by
    rintro m t ⟨ext, alloc, hacc, hlent⟩
    exact ⟨_, alloc, h.child hd hacc, given_child hlent⟩
  lift := by
    intro a b m t m' e ha _ hb _ hrel ext alloc hacc hlent
    obtain ⟨ext1, alloc', hdone⟩ := hrel _ alloc (h.child hd hacc) (given_child hlent)
    rw [hl] at ha hb
    exact ⟨_, alloc', h.lift hd rfl rfl ha hb hacc hlent hdone⟩

end

end HoldsTable

end Tables

/-! ## The levels -/

/-- A PDE that refers to a table. -/
theorem holds_pde (hp : e.present = true) (hh : e.huge = false) :
    HoldsTable (Branch.mk (C := Entry) e) PAGE_TABLE_ENTRIES (some e.frame) where
  pages := rfl
  pos := by decide
  bound := by decide
  refs := fun t => by
    show (if e.present = true then _ else _) = _
    rw [if_pos hp, if_neg (by simp [hh])]
    rfl
  table := fun t f => by
    constructor
    · rintro ⟨_, _, hf⟩
      exact .inl (congrArg some hf)
    · rintro (hf | ⟨_, _, ht⟩)
      · exact ⟨hp, hh, Option.some.inj hf⟩
      · exact ht.elim
  fits := by
    intro keep alloc m t
    constructor
    · intro h
      refine ⟨fun f hf => ?_, ((h hp).2 hh).2⟩
      cases hf
      exact ((h hp).2 hh).1
    · rintro ⟨hown, hfits⟩ _
      refine ⟨fun hh' => ?_, fun _ => ⟨hown _ rfl, hfits⟩⟩
      rw [hh] at hh'
      cases hh'
  page := fun m t g _ => by
    show (if e.present = true then _ else _) = _
    rw [if_pos hp, if_neg (by simp [hh])]
    show Node.page m (t (g % 512)) g = Node.page m (t (g / 1 % 512)) g
    rw [Nat.div_one]
  none := fun m t g hg => absurd (Nat.mod_lt _ (by decide)) hg

/-- Entries and PDEs as nodes, whichever of their frames are counted. -/
class PageNodes [Node Entry] [Node (Branch Entry)] : Prop where
  pages_entry : Node.pages Entry = Level.pages .pte
  pages_pde : Node.pages (Branch Entry) = Level.pages .pde
  table : ∀ {e : Entry}, e.present = true → e.huge = false →
    HoldsTable (Branch.mk (C := Entry) e) PAGE_TABLE_ENTRIES (some e.frame)

instance : PageNodes := ⟨rfl, rfl, holds_pde⟩

theorem holds_branch [Node (Branch C)] (hpos : 0 < Node.pages (Branch C)) (hp : e.present = true) :
    HoldsTable (Branch.mk (C := Branch C) e) PAGE_TABLE_ENTRIES (some e.frame) where
  pages := rfl
  pos := hpos
  bound := by decide
  refs := fun t => by
    show (if e.present = true then _ else _) = _
    rw [if_pos hp]
    rfl
  table := fun t f => ⟨fun h => h.2.imp_left (congrArg some), fun h => ⟨hp, h.imp_left Option.some.inj⟩⟩
  fits := by
    intro keep alloc m t
    constructor
    · intro h
      refine ⟨fun f hf => ?_, (h hp).2⟩
      cases hf
      exact (h hp).1
    · rintro ⟨hown, hfits⟩ _
      exact ⟨hown _ rfl, hfits⟩
  page := fun m t g _ => by
    show (if e.present = true then _ else _) = _
    rw [if_pos hp]
    rfl
  none := fun m t g hg => absurd (Nat.mod_lt _ (by decide)) hg

theorem holds_pml4 : HoldsTable (fun t : Pml4 => t) KERNEL_INDEX none where
  pages := rfl
  pos := by decide
  bound := by decide
  refs := fun t => (zero_add _).symm
  table := fun t f => ⟨.inr, fun h => h.resolve_left nofun⟩
  fits := ⟨fun h => ⟨nofun, h⟩, fun h => h.2⟩
  page := fun m t g hg => if_pos hg
  none := fun m t g hg => if_neg hg

/-! ## Both halves -/

/-- A PML4 with the entries of both halves, as it is to a walk that may go anywhere. -/
structure FullTable where
  pml4 : Pml4

/-- All entries of a PML4. The frame of the PML4 itself is not one of its references. -/
instance nodeFull [Node Pml4e] : Node FullTable where
  pages := PAGE_TABLE_ENTRIES * Node.pages Pml4e
  refs := fun t => tableRefs PAGE_TABLE_ENTRIES t.pml4
  Table := fun t f => ∃ i < PAGE_TABLE_ENTRIES, Node.Table (t.pml4 i) f
  Fits := fun keep alloc m t => ∀ i < PAGE_TABLE_ENTRIES, Node.Fits keep alloc m (t.pml4 i)
  page := fun m t g => Node.page m (t.pml4 (g / Node.pages Pml4e % PAGE_TABLE_ENTRIES)) g
  table_refs := fun ⟨_, hi, ht⟩ => tableRefs_pos hi (Node.table_refs ht)
  fits_table := fun h ⟨i, hi, ht⟩ => Node.fits_table (h i hi) ht
  fits_spared := by
    intro keep alloc alloc' lent ext m m' t hs hext hl h i hi
    exact Node.fits_spared hs (fun f hf => hext f (tableRefs_pos hi hf)) (fun f hfl ht => hl f hfl ⟨i, hi, ht⟩) (h i hi)
  page_spared := by
    intro keep alloc alloc' lent ext m m' t hs hext h g
    have hi : g / Node.pages Pml4e % PAGE_TABLE_ENTRIES < PAGE_TABLE_ENTRIES := Nat.mod_lt _ (by decide)
    exact Node.page_spared hs (fun f hf => hext f (tableRefs_pos hi hf)) (h _ hi) g

theorem holds_full [Node Pml4e] (hpos : 0 < Node.pages Pml4e) : HoldsTable FullTable.mk PAGE_TABLE_ENTRIES none where
  pages := rfl
  pos := hpos
  bound := by decide
  refs := fun t => (zero_add _).symm
  table := fun t f => ⟨.inr, fun h => h.resolve_left nofun⟩
  fits := ⟨fun h => ⟨nofun, h⟩, fun h => h.2⟩
  page := fun m t g _ => rfl
  none := fun m t g hg => absurd (Nat.mod_lt _ (by decide)) hg

end OpenLsd
