import OpenLsd.Lemmas.RegionSpecs

/-!
# Loads and stores

What a load finds at an address is what its page holds, and a write to the entry that maps an address is seen in the page
tables as a whole. A store to a page that nobody else refers to changes the byte there, and nothing else for anyone.
-/

namespace OpenLsd

open Outcome Function Node

variable {m : Phys} {t : Pml4} {va : Nat} {keep alloc : Orders} {ext : Nat → Nat} {f : Entry → Entry}

/-! ## The page at an address -/

section Lookup

theorem div_spans (va : Nat) : va / PDPT_SPAN = va / PAGE_SIZE / 2 ^ 27 ∧ va / PAGE_DIR_SPAN = va / PAGE_SIZE / 2 ^ 18 ∧
    va / PAGE_TABLE_SPAN = va / PAGE_SIZE / 512 := by
  refine ⟨?_, ?_, ?_⟩ <;> rw [Nat.div_div_eq_div_mul] <;> rfl

theorem lookup_user (hva : va < USER_LIM) : lookup t va =
    let pml4e := t (va / PAGE_SIZE / 2 ^ 27 % 512)
    let pdpte := pml4e.child (va / PAGE_SIZE / 2 ^ 18 % 512)
    let pde := pdpte.child (va / PAGE_SIZE / 512 % 512)
    let pte := pde.child (va / PAGE_SIZE % 512)
    if pml4e.entry.present = false ∨ pdpte.entry.present = false ∨ pde.entry.present = false then none
    else if pde.entry.huge = true then some (true, pde.entry)
    else if pte.present = true then some (false, pte)
    else none := by
  obtain ⟨h1, h2, h3⟩ := div_spans va
  simp only [lookup, signExtend_of_user hva, h1, h2, h3, PAGE_TABLE_ENTRIES]

/-- The page with the number `g` of an entry that was looked up. -/
def leafState (m : Phys) (g : Nat) (x : Bool × Entry) : PageState :=
  x.2.state m (if x.1 then x.2.frame + g % PAGE_TABLE_ENTRIES else x.2.frame)

theorem user_page_lt (hva : va < USER_LIM) : va / PAGE_SIZE < 2 ^ 35 := by
  simp only [USER_LIM, PAGE_SIZE] at *
  omega

/-- A page is mapped just if its address is looked up successfully. -/
theorem page_lookup (hva : va < USER_LIM) : page m t (va / PAGE_SIZE) = (lookup t va).map (leafState m (va / PAGE_SIZE)) := by
  have hg := user_page_lt hva
  rw [lookup_user hva]
  generalize va / PAGE_SIZE = g at *
  have hi : g / 2 ^ 27 % 512 < KERNEL_INDEX := by
    rw [show KERNEL_INDEX = 256 from rfl]
    omega
  show (if g / 2 ^ 27 % 512 < KERNEL_INDEX then page m (t (g / 2 ^ 27 % 512)) g else none) = _
  rw [if_pos hi]
  generalize t (g / 2 ^ 27 % 512) = pml4e
  dsimp only
  by_cases h4 : pml4e.entry.present = true
  · show (if pml4e.entry.present = true then page m (pml4e.child (g / 2 ^ 18 % 512)) g else none) = _
    rw [if_pos h4]
    generalize pml4e.child (g / 2 ^ 18 % 512) = pdpte
    by_cases h3 : pdpte.entry.present = true
    · show (if pdpte.entry.present = true then page m (pdpte.child (g / 512 % 512)) g else none) = _
      rw [if_pos h3]
      generalize pdpte.child (g / 512 % 512) = pde
      by_cases h2 : pde.entry.present = true
      · rw [if_neg (by simp [h2, h3, h4])]
        by_cases hh : pde.entry.huge = true
        · rw [page_huge h2 hh, if_pos hh]
          rfl
        · rw [page_table h2 (by simpa using hh), if_neg hh]
          show (if (pde.child (g % 512)).present = true then _ else _) = _
          split <;> rfl
      · rw [Sparse.page (N := Pde) (Bool.eq_false_of_not_eq_true h2), if_pos (by simp [h2])]
        rfl
    · rw [if_pos (by simp [h3])]
      show (if pdpte.entry.present = true then _ else _) = _
      rw [if_neg h3]
      rfl
  · rw [if_pos (by simp [h4])]
    show (if pml4e.entry.present = true then _ else _) = _
    rw [if_neg h4]
    rfl

/-- What a load returns is a byte of the page, if the page is there for the user. -/
theorem userLoad_eq (hva : va < USER_LIM) : userLoad m t va =
    (page m t (va / PAGE_SIZE)).bind fun s => if s.user = true then some (s.bytes (va % PAGE_SIZE)) else none := by
  rw [page_lookup hva, userLoad]
  cases lookup t va with
  | none => rfl
  | some x =>
    obtain ⟨pde, e⟩ := x
    rw [signExtend_of_user hva]
    cases pde <;> rfl

end Lookup

/-! ## Writing to an entry -/

section Modify

variable {R : PageRel Loan.nothing.frames} {alloc' : Orders} {m' : Phys}

theorem given_nothing : Loan.nothing.Given keep ext alloc m := fun _ hf => absurd hf (Set.notMem_empty _)

theorem modifyChild_done {C : Type} [Node C] [Node (Branch C)] {e : Branch C} {c d a b : Nat} {f : C → C}
    (hold : HoldsTable (Branch.mk (C := C) e.entry) PAGE_TABLE_ENTRIES (some e.entry.frame)) (hc : d / 512 = c)
    (ha : d * pages C ≤ a) (hb : b ≤ d * pages C + pages C) (hacc : Acc keep ext alloc m e)
    (hdone : ∀ ext, Acc keep ext alloc m (e.child (d % 512)) →
      Done keep False R d a b ext alloc m (e.child (d % 512)) m' (f (e.child (d % 512))) ext alloc') :
    Done keep False R c a b ext alloc m e m' (e.modifyChild (d % 512) f) ext alloc' := by
  have hlt : d % 512 < PAGE_TABLE_ENTRIES := Nat.mod_lt _ (by decide)
  exact hold.lift_same (t := e.child) hlt rfl hc ha hb hacc given_nothing (hdone _ (hold.child hlt hacc))

theorem pages_pdpte : pages Pdpte = 2 ^ 18 := by decide

theorem pages_pml4e : pages Pml4e = 2 ^ 27 := by decide

/-- The PDE of a page, with the entries on the way to it. -/
structure PathTo (t : Pml4) (g : Nat) (pde : Pde) : Prop where
  pml4e : (t (g / 2 ^ 27 % 512)).entry.present = true
  pdpte : ((t (g / 2 ^ 27 % 512)).child (g / 2 ^ 18 % 512)).entry.present = true
  pde : ((t (g / 2 ^ 27 % 512)).child (g / 2 ^ 18 % 512)).child (g / 512 % 512) = pde

/-- Writing to the PDE of a page is seen in the tables as a whole. -/
theorem modifyPde_done {g a b : Nat} {f : Pde → Pde} {pde : Pde} (hg : g < 2 ^ 35) (hacc : Acc keep ext alloc m t)
    (hpath : PathTo t g pde) (ha : g / 512 * 512 ≤ a) (hb : b ≤ g / 512 * 512 + 512)
    (hdone : ∀ ext, Acc keep ext alloc m pde → Done keep False R (g / 512) a b ext alloc m pde m' (f pde) ext alloc') :
    Done keep False R 0 a b ext alloc m t m' (update t (g / 2 ^ 27 % 512) ((t (g / 2 ^ 27 % 512)).modifyChild (g / 2 ^ 18 % 512)
      fun pdpte => pdpte.modifyChild (g / 512 % 512) f)) ext alloc' := by
  -- the blocks of the two levels above lie around the block of the PDE
  obtain ⟨ha3, hb3⟩ : g / 2 ^ 18 * 2 ^ 18 ≤ a ∧ b ≤ g / 2 ^ 18 * 2 ^ 18 + 2 ^ 18 := by omega
  obtain ⟨ha4, hb4⟩ : g / 2 ^ 27 * 2 ^ 27 ≤ a ∧ b ≤ g / 2 ^ 27 * 2 ^ 27 + 2 ^ 27 := by omega
  have hc4 : g / 2 ^ 27 / 512 = 0 := by omega
  have hc3 : g / 2 ^ 18 / 512 = g / 2 ^ 27 := by omega
  have hc2 : g / 512 / 512 = g / 2 ^ 18 := by omega
  have hi : g / 2 ^ 27 % 512 < KERNEL_INDEX := by
    rw [show KERNEL_INDEX = 256 from rfl]
    omega
  obtain ⟨h4, h3, rfl⟩ := hpath
  refine holds_pml4.lift_same (t := t) hi rfl hc4 (pages_pml4e ▸ ha4) (pages_pml4e ▸ hb4) hacc given_nothing ?_
  refine modifyChild_done (holds_branch (by decide) h4) hc3 (pages_pdpte ▸ ha3) (pages_pdpte ▸ hb3) (holds_pml4.child hi hacc)
    fun ext4 hacc4 => ?_
  exact modifyChild_done (holds_branch (by decide) h3) hc2 ha hb hacc4 hdone

/-- An address that is looked up successfully is mapped by its PDE or by an entry of the table there. -/
theorem lookup_path {x : Bool × Entry} (hva : va < USER_LIM) (hl : lookup t va = some x) :
    ∃ pde, PathTo t (va / PAGE_SIZE) pde ∧ pde.entry.present = true ∧ if x.1 = true then pde.entry.huge = true ∧ pde.entry = x.2
      else pde.entry.huge = false ∧ pde.child (va / PAGE_SIZE % 512) = x.2 ∧ x.2.present = true := by
  rw [lookup_user hva] at hl
  dsimp only at hl
  split at hl
  · cases hl
  · rename_i hpath
    simp only [not_or, Bool.not_eq_false] at hpath
    obtain ⟨h4, h3, h2⟩ := hpath
    refine ⟨_, ⟨h4, h3, rfl⟩, h2, ?_⟩
    split at hl
    · rename_i hh
      cases hl
      exact ⟨hh, rfl⟩
    · rename_i hh
      split at hl
      · rename_i hp
        cases hl
        exact ⟨by simpa using hh, rfl, hp⟩
      · cases hl

theorem modifyEntry_user (hva : va < USER_LIM) (f : Entry → Entry) : modifyEntry t va f =
    update t (va / PAGE_SIZE / 2 ^ 27 % 512) ((t (va / PAGE_SIZE / 2 ^ 27 % 512)).modifyChild (va / PAGE_SIZE / 2 ^ 18 % 512)
      fun pdpte => pdpte.modifyChild (va / PAGE_SIZE / 512 % 512) fun pde =>
        if pde.entry.huge = true then { pde with entry := f pde.entry } else pde.modifyChild (va / PAGE_SIZE % 512) f) := by
  obtain ⟨h1, h2, h3⟩ := div_spans va
  simp only [modifyEntry, signExtend_of_user hva, h1, h2, h3, PAGE_TABLE_ENTRIES]

variable {e : Entry}

/-- The entry of a huge page is written to: the pages of its block may change. -/
theorem modifyEntry_pde {a b : Nat} (hva : va < USER_LIM) (hl : lookup t va = some (true, e)) (hacc : Acc keep ext alloc m t)
    (ha : va / PAGE_SIZE / 512 * 512 ≤ a) (hb : b ≤ va / PAGE_SIZE / 512 * 512 + 512)
    (hdone : ∀ ext (pde : Pde), pde.entry = e → e.present = true → e.huge = true → Acc keep ext alloc m pde →
      Done keep False R (va / PAGE_SIZE / 512) a b ext alloc m pde m' ({ pde with entry := f e } : Pde) ext alloc') :
    Done keep False R 0 a b ext alloc m t m' (modifyEntry t va f) ext alloc' := by
  obtain ⟨pde, hpath, hp, hh, rfl⟩ := lookup_path hva hl
  rw [modifyEntry_user hva]
  refine modifyPde_done (user_page_lt hva) hacc hpath ha hb fun ext2 hacc2 => ?_
  rw [if_pos hh]
  exact hdone ext2 pde rfl hp hh hacc2

theorem modifyEntry_pte (hva : va < USER_LIM) (hl : lookup t va = some (false, e)) (hacc : Acc keep ext alloc m t)
    (hdone : ∀ ext, e.present = true → Acc keep ext alloc m e →
      Done keep False R (va / PAGE_SIZE) (va / PAGE_SIZE) (va / PAGE_SIZE + 1) ext alloc m e m' (f e) ext alloc') :
    Done keep False R 0 (va / PAGE_SIZE) (va / PAGE_SIZE + 1) ext alloc m t m' (modifyEntry t va f) ext alloc' := by
  obtain ⟨pde, hpath, hp, hh, he, hpe⟩ := lookup_path hva hl
  rw [modifyEntry_user hva]
  refine modifyPde_done (user_page_lt hva) hacc hpath (by omega) (by omega) fun ext2 hacc2 => ?_
  rw [if_neg (by simp [hh])]
  refine modifyChild_done (holds_pde hp hh) rfl (Nat.mul_one _).le (Nat.add_le_add_right (Nat.mul_one _).ge 1) hacc2
    fun ext1 hacc1 => ?_
  rw [he] at hacc1 ⊢
  exact hdone ext1 hpe hacc1

end Modify

/-! ## Writing flags -/

/-- A write to an entry that keeps what the entry maps. -/
structure KeepsFrame (f : Entry → Entry) : Prop where
  frame : ∀ e, (f e).frame = e.frame
  present : ∀ e, (f e).present = e.present
  huge : ∀ e, (f e).huge = e.huge

/-- Nothing is said about pages. -/
def PageRel.any : PageRel Loan.nothing.frames where
  inside := fun _ _ _ => True
  outside := fun _ _ => True
  same := fun _ => trivial
  trans := fun _ _ => trivial
  before := fun _ _ => trivial
  after := fun _ _ => trivial

section Flags

variable {va' : Nat} {x : Bool × Entry}

theorem PageRel.any_at (a b g : Nat) (s s' : Option PageState) : PageRel.any.at a b g s s' := by
  unfold PageRel.at
  split <;> trivial

/-- What a write to the entry of an address leaves of what is found at another address. -/
theorem lookup_modifyEntry (hf : KeepsFrame f) (hva : va < USER_LIM) (hva' : va' < USER_LIM) :
    lookup (modifyEntry t va f) va' = (lookup t va').map fun x =>
      if va' / PAGE_SIZE / 512 = va / PAGE_SIZE / 512 ∧ (x.1 = true ∨ va' / PAGE_SIZE = va / PAGE_SIZE) then (x.1, f x.2) else x := by
  have hg := user_page_lt hva
  have hg' := user_page_lt hva'
  rw [modifyEntry_user hva, lookup_user hva', lookup_user hva']
  generalize va / PAGE_SIZE = g at *
  generalize va' / PAGE_SIZE = g' at *
  dsimp only
  by_cases hblock : g' / 512 = g / 512
  · have h4 : g' / 2 ^ 27 = g / 2 ^ 27 := by omega
    have h3 : g' / 2 ^ 18 = g / 2 ^ 18 := by omega
    rw [h4, h3, hblock]
    simp only [Branch.modifyChild, update_self]
    by_cases hh : (((t (g / 2 ^ 27 % 512)).child (g / 2 ^ 18 % 512)).child (g / 512 % 512)).entry.huge = true
    · simp only [hh, if_true, hf.present, hf.huge]
      split <;> simp
    · simp only [hh]
      by_cases hgg : g' = g
      · subst hgg
        simp only [update_self, hf.present, Bool.false_eq_true, if_false]
        split
        · rfl
        · split <;> simp
      · have hmod : g' % 512 ≠ g % 512 := by omega
        simp only [update_of_ne hmod, Bool.false_eq_true, if_false]
        split
        · rfl
        · split <;> simp [hgg]
  · have hid : ∀ y : Option (Bool × Entry),
        y = y.map fun x => if g' / 512 = g / 512 ∧ (x.1 = true ∨ g' = g) then (x.1, f x.2) else x := by
      intro y
      simp [hblock]
    refine Eq.trans ?_ (hid _)
    by_cases h4 : g' / 2 ^ 27 % 512 = g / 2 ^ 27 % 512
    · simp only [h4, update_self, Branch.modifyChild]
      by_cases h3 : g' / 2 ^ 18 % 512 = g / 2 ^ 18 % 512
      · have h2 : g' / 512 % 512 ≠ g / 512 % 512 := by omega
        simp only [h3, update_self, update_of_ne h2]
      · simp only [update_of_ne h3]
    · simp only [update_of_ne h4]

/-- An entry with other flags is counted alike. -/
theorem Acc.modifyEntry (hf : KeepsFrame f) (hva : va < USER_LIM) (hl : lookup t va = some x) (h : Acc keep ext alloc m t) :
    Acc keep ext alloc m (modifyEntry t va f) := by
  obtain ⟨pde, e⟩ := x
  cases pde with
  | true =>
    refine (modifyEntry_pde (R := .any) (a := va / PAGE_SIZE) (b := va / PAGE_SIZE) hva hl h (by omega) (by omega)
      fun ext2 pde hpde hp hh hacc2 => ?_).acc
    subst hpde
    refine ⟨?_, fun _ => le_rfl, fun _ => rfl, hacc2.spares_refl, fun g _ => PageRel.any_at _ _ _ _ _⟩
    have hp' := (hf.present _).trans hp
    have hh' := (hf.huge _).trans hh
    refine ⟨?_, fun _ => ⟨fun _ => ?_, fun hno => ?_⟩⟩
    · rw [refs_huge (e := { pde with entry := f pde.entry }) hp' hh', hf.frame, ← refs_huge hp hh]
      exact hacc2.ledger
    · rw [hf.frame]
      exact (hacc2.fits hp).1 hh
    · rw [hh'] at hno
      cases hno
  | false =>
    refine (modifyEntry_pte (R := .any) hva hl h fun ext1 hp hacc1 => ?_).acc
    refine ⟨⟨?_, fun _ => ?_⟩, fun _ => le_rfl, fun _ => rfl, hacc1.spares_refl, fun g _ => PageRel.any_at _ _ _ _ _⟩
    · rw [refs_entry ((hf.present e).trans hp), hf.frame, ← refs_entry hp]
      exact hacc1.ledger
    · rw [hf.frame]
      exact hacc1.fits hp

end Flags

/-! ## Stores -/

/-- The page has other bytes. -/
structure PageState.Rewritten (f : (Nat → UInt8) → Nat → UInt8) (s s' : PageState) : Prop where
  write : s'.write = s.write
  user : s'.user = s.user
  noExec : s'.noExec = s.noExec
  bytes : s'.bytes = f s.bytes
  ref : s'.ref ≤ s.ref

/-- The bytes of a page are changed by the function. -/
def writeRel (f : (Nat → UInt8) → Nat → UInt8) : PageRel Loan.nothing.frames where
  inside := fun _ => Option.Rel (PageState.Rewritten f)
  outside := SamePage ∅
  same := removeRel.same
  trans := removeRel.trans
  before := by
    intro g s s' s'' h h'
    cases h with
    | none => exact h'
    | some h =>
      cases h' with
      | some h' =>
        exact .some ⟨h'.write.trans h.write, h'.user.trans h.user, h'.noExec.trans h.noExec, h'.bytes.trans (by rw [h.bytes]),
          le_trans h'.ref (h.ref rfl)⟩
  after := by
    intro g s s' s'' h h'
    cases h with
    | none => exact (by cases h'; exact .none)
    | some h =>
      cases h' with
      | some h' =>
        exact .some ⟨h'.write.trans h.write, h'.user.trans h.user, h'.noExec.trans h.noExec, h'.bytes.trans h.bytes,
          le_trans (h'.ref rfl) h.ref⟩

section Store

variable {o g : Nat} {b : UInt8}

/-- A byte of a frame is written. -/
def Phys.writeByte (m : Phys) (frame o : Nat) (b : UInt8) : Phys :=
  { m with bytes := update m.bytes frame (update (m.bytes frame) o b) }

theorem Phys.writeByte_same (m : Phys) (frame o : Nat) (b : UInt8) : SameFrames m (m.writeByte frame o b) :=
  .of_pages rfl rfl rfl

theorem Phys.writeByte_ne {frame x : Nat} (h : x ≠ frame) : (m.writeByte frame o b).bytes x = m.bytes x :=
  update_of_ne h _ _

theorem Phys.writeByte_self (frame : Nat) : (m.writeByte frame o b).bytes frame = update (m.bytes frame) o b :=
  update_self _ _ _

/-- The only reference to a page is the one of its entry. -/
theorem Ledger.alone {p : Nat} (h : Ledger keep (ext + Pi.single p 1) alloc m) (hone : (m.pages p).ppRef ≤ 1) : ext p = 0 := by
  have := h.counted p
  rw [Pi.add_apply, Pi.single_eq_same] at this
  omega

theorem writePte_done {e : Entry} (hp : e.present = true) (hone : (m.pages e.frame).ppRef ≤ 1)
    (h : Acc keep ext alloc m e) :
    Done keep False (writeRel (update · o b)) g g (g + 1) ext alloc m e (m.writeByte e.frame o b) { e with dirty := true } ext
      alloc := by
  have hs := m.writeByte_same e.frame o b
  have hl := h.ledger
  rw [refs_entry hp] at hl
  refine ⟨⟨h.ledger.congr hs, h.fits⟩, fun _ => le_rfl, fun _ => rfl, ?_, fun g' hg' => ?_⟩
  · refine hl.spares_write pos_add hs (h.fits hp).1 (hl.alone hone) fun x hx => ?_
    exact Phys.writeByte_ne fun hxe => hx (hxe ▸ head_mem_blockSet _ _)
  · have hg' : g' = g := by rwa [show pages Entry = 1 from rfl, Nat.div_one] at hg'
    rw [PageRel.at, if_pos (by omega), page_entry hp, page_entry (e := { e with dirty := true }) hp]
    exact .some ⟨rfl, rfl, rfl, Phys.writeByte_self _, le_rfl⟩

/-- A byte in a huge page. -/
theorem writePde_done {e : Pde} (hp : e.entry.present = true) (hh : e.entry.huge = true)
    (hone : (m.pages e.entry.frame).ppRef ≤ 1) (h : Acc keep ext alloc m e) :
    Done keep False (writeRel (update · o b)) (g / 512) g (g + 1) ext alloc m e
      (m.writeByte (e.entry.frame + g % PAGE_TABLE_ENTRIES) o b) ({ e with entry := { e.entry with dirty := true } } : Pde) ext
      alloc := by
  have hs := m.writeByte_same (e.entry.frame + g % PAGE_TABLE_ENTRIES) o b
  have hl := h.ledger
  rw [refs_huge hp hh] at hl
  have hin : e.entry.frame + g % PAGE_TABLE_ENTRIES ∈ blockSet e.entry.frame BUDDY_2M_PAGE :=
    ⟨Nat.le_add_right _ _, Nat.add_lt_add_left (Nat.mod_lt _ (by decide)) _⟩
  refine ⟨⟨?_, h.fits⟩, fun _ => le_rfl, fun _ => rfl, ?_, fun g' hg' => ?_⟩
  · rw [refs_huge (e := { e with entry := { e.entry with dirty := true } }) hp hh]
    exact hl.congr hs
  · refine hl.spares_write pos_add hs ((h.fits hp).1 hh).1 (hl.alone hone)
      fun x hx => ?_
    exact Phys.writeByte_ne fun hxe => hx (hxe ▸ hin)
  · have hg' : g' / 512 = g / 512 := hg'
    rw [PageRel.at, page_huge hp hh, page_huge (e := { e with entry := { e.entry with dirty := true } }) hp hh]
    by_cases hgg : g' = g
    · subst hgg
      rw [if_pos (by omega)]
      exact .some ⟨rfl, rfl, rfl, Phys.writeByte_self _, le_rfl⟩
    · rw [if_neg (by omega)]
      refine .some ⟨rfl, rfl, rfl, Phys.writeByte_ne fun he => hgg ?_, fun _ => le_rfl⟩
      simp only [PAGE_TABLE_ENTRIES] at he
      omega

/-- A store to a page that is mapped and that nobody else refers to. -/
theorem storeByte_done {s : PageState} (hva : va < USER_LIM)
    (hpage : page m t (va / PAGE_SIZE) = some s) (hone : s.ref ≤ 1) (h : Acc keep ext alloc m t) :
    ∃ m' t', storeByte va b (m, t) = .ok (m', t') ∧
      Done keep False (writeRel (update · (va % PAGE_SIZE) b)) 0 (va / PAGE_SIZE) (va / PAGE_SIZE + 1) ext alloc m t m' t' ext
        alloc := by
  rw [page_lookup hva] at hpage
  unfold storeByte
  cases hl : lookup t va with
  | none =>
    rw [hl] at hpage
    cases hpage
  | some x =>
    obtain ⟨pde, e⟩ := x
    rw [hl] at hpage
    cases hpage
    refine ⟨_, _, rfl, ?_⟩
    rw [signExtend_of_user hva]
    cases pde with
    | true =>
      refine modifyEntry_pde hva hl h (by omega) (by omega) fun ext2 pde hpde hp hh hacc2 => ?_
      subst hpde
      exact writePde_done hp hh hone hacc2
    | false => exact modifyEntry_pte hva hl h fun ext1 hp hacc1 => writePte_done hp hone hacc1

end Store

end OpenLsd
