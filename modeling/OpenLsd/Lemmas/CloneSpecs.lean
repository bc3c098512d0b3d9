import OpenLsd.Lemmas.CallRules
import OpenLsd.Lemmas.InsertSpecs
import OpenLsd.Lemmas.Sharing

/-!
# Cloning address spaces

What `task_clone` does to the page tables of the parent and of the child. Every page of the parent that lies in an area is
mapped by the child as well, so the frames of the parent's leaves are lent to the child: each of them gets at most one more
reference. The pages come in ascending order and a frame is mapped by one entry of the parent only, so no frame is inserted
twice.
-/

namespace OpenLsd

open Outcome Function VmSpace Node

variable {bad : Stop → Prop} {keep alloc alloc0 : Orders} {ext : Nat → Nat} {m m0 : Phys} {p va : Nat} {t0 : Pml4}

/-! ## Inserting one page -/

section Insert

variable {bytes : Nat → Nat → UInt8} {t : Pml4} {flags : PageFlags} {Q : Nat → Prop}

theorem pageInsert_4k (hbad : ∀ s, bad s → Panics s) (horder : ¬bad .order) (hva : va < USER_LIM) (hal : pageAligned va)
    (hh : flags.huge = false) (hQ : Q (va / PAGE_SIZE / 512)) (h : Acc keep ext alloc m t)
    (hg : (Loan.page p BUDDY_4K_PAGE bytes).Given keep ext alloc m) (hroom : bad .overflow → (m.pages p).ppRef + 1 < 2 ^ 16)
    (hJ : TablesAt Q t) :
    Ends bad (pageInsert m t p va flags) fun r => Inserted keep p BUDDY_4K_PAGE bytes { flags with huge := false, present := true }
      (TablesAt Q) 0 (va / PAGE_SIZE) (va / PAGE_SIZE + 1) ext alloc m t r.2 := by
  have hrange : UserRange va (va + PAGE_SIZE) := by
    refine ⟨hal, ?_, ?_, ?_⟩ <;> simp only [pageAligned, PAGE_SIZE, USER_LIM] at * <;> omega
  have hlast : (va + PAGE_SIZE) / PAGE_SIZE - 1 = va / PAGE_SIZE := by
    rw [Nat.add_div_right _ (by decide)]
    rfl
  have horder' : (m.pages p).ppOrder = BUDDY_4K_PAGE := (h.ledger.allocated p _ (hg p rfl).2.1).1
  have hsmall : (flags.huge || decide ((m.pages p).ppOrder = BUDDY_2M_PAGE)) = false := by
    rw [hh, horder']
    rfl
  unfold pageInsert
  rw [if_neg (not_not_intro hal)]
  simp only [hsmall, Bool.false_eq_true, false_and, if_false]
  rw [add64_of_le hrange.le, hrange.walk_eq, hlast]
  refine (pageWalk_inserts hbad le_rfl (user_page_lt hva) rfl rfl ?_ ext alloc m t h hg hroom hJ).bind fun r hr => .ok hr
  exact pdeTurn_inserts_4k hbad horder rfl rfl rfl hQ

/-- A 2M page is inserted at the first page of its block. -/
theorem pageInsert_2m (hbad : ∀ s, bad s → Panics s) (hva : va < USER_LIM) (hal : pageAligned va)
    (hQ : ¬Q (va / PAGE_SIZE / 512)) (h : Acc keep ext alloc m t)
    (hg : (Loan.page p BUDDY_2M_PAGE bytes).Given keep ext alloc m)
    (hroom : va % HPAGE_SIZE = 0 → bad .overflow → (m.pages p).ppRef + 1 < 2 ^ 16) (hJ : TablesAt Q t) :
    Ends bad (pageInsert m t p va flags) fun r => if va % HPAGE_SIZE = 0 then
        Inserted keep p BUDDY_2M_PAGE bytes { flags with huge := true, present := true } (TablesAt Q) 0 (va / PAGE_SIZE)
          (va / PAGE_SIZE + 512) ext alloc m t r.2
      else r.2 = (m, t) := by
  have horder' : (m.pages p).ppOrder = BUDDY_2M_PAGE := (h.ledger.allocated p _ (hg p rfl).2.1).1
  have hhuge : (flags.huge || decide ((m.pages p).ppOrder = BUDDY_2M_PAGE)) = true := by
    rw [horder']
    simp
  unfold pageInsert
  rw [if_neg (not_not_intro hal)]
  simp only [hhuge, true_and]
  refine .ite (fun hno => .ok ?_) fun hfirst => ?_
  · rw [if_neg hno]
  · have hfirst : va % HPAGE_SIZE = 0 := Decidable.not_not.1 hfirst
    have hsize : HPAGE_SIZE = 2097152 := by decide
    have hrange : UserRange va (va + HPAGE_SIZE) := by
      refine ⟨hal, ?_, ?_, ?_⟩ <;> simp only [pageAligned, hsize, PAGE_SIZE, USER_LIM] at * <;> omega
    have hlo : va / PAGE_SIZE = va / PAGE_SIZE / 512 * 512 := by
      simp only [hsize, PAGE_SIZE] at *
      omega
    have hlast : (va + HPAGE_SIZE) / PAGE_SIZE - 1 = va / PAGE_SIZE / 512 * 512 + 511 := by
      simp only [hsize, PAGE_SIZE] at *
      omega
    simp only [if_true, if_pos hfirst]
    rw [add64_of_le hrange.le, hrange.walk_eq, hlast]
    have hend : va / PAGE_SIZE / 512 * 512 + 511 < 2 ^ 35 := by
      have := user_page_lt hva
      omega
    rw [hlo, Nat.mul_div_cancel _ (show 0 < 512 by decide)]
    refine (pageWalk_inserts hbad (by omega) hend (Nat.mul_div_cancel _ (by decide)) (by omega) ?_ ext alloc m t h hg (hroom hfirst)
      hJ).bind
      fun r hr => .ok hr
    exact pdeTurn_inserts_2m hbad rfl rfl rfl hQ

end Insert

/-! ## The pages of the parent -/

/-- The frames that pages of the user half are mapped to. -/
def leafFrames (t : Pml4) : Set Nat := { f | ∃ va x, va < USER_LIM ∧ lookup t va = some x ∧ x.2.frame = f }

/-- The blocks in which 4K pages are mapped. -/
def SmallBlock (t : Pml4) (c : Nat) : Prop :=
  ∃ va x, va < USER_LIM ∧ va / PAGE_SIZE / 512 = c ∧ lookup t va = some x ∧ x.1 = false

/-- The frame that an entry maps, and whether the entry is a PDE. -/
def leafOf (x : Bool × Entry) : Bool × Nat := (x.1, x.2.frame)

/-- What is left of the page tables `t0` of the parent, which the frames `m0` belong to, and of those of the child, when the
pages below `n` have been cloned. -/
structure Cloned (keep : Orders) (ext : Nat → Nat) (alloc0 : Orders) (m0 : Phys) (t0 : Pml4) (n : Nat)
    (alloc : Orders) (m : Phys) (parent child : Pml4) : Prop where
  accParent : Acc keep ext alloc0 m0 parent
  leaves : ∀ va < USER_LIM, (lookup parent va).map leafOf = (lookup t0 va).map leafOf
  accChild : Acc keep (ext + Node.refs t0) alloc m child
  spares : Spares (leafFrames t0) (ext + Node.refs t0) alloc0 m0 alloc m
  tables : TablesAt (SmallBlock t0) child
  once : ∀ f, Node.refs child f ≤ 1
  /-- What the child shares with anyone is mapped by the parent at a page that has been cloned. -/
  seen : ∀ f, 0 < Node.refs child f → 0 < ext f + Node.refs t0 f →
    ∃ va x, va < USER_LIM ∧ va / PAGE_SIZE < n ∧ lookup t0 va = some x ∧ x.2.frame = f

namespace Cloned

variable {parent child : Pml4} {n n' : Nat} {x : Bool × Entry}

section

variable (h : Cloned keep ext alloc0 m0 t0 n alloc m parent child)

include h

theorem mono (hn : n ≤ n') : Cloned keep ext alloc0 m0 t0 n' alloc m parent child :=
  { h with
    seen := fun f hf hpos => by
      obtain ⟨va, x, hva, hlt, hx⟩ := h.seen f hf hpos
      exact ⟨va, x, hva, lt_of_lt_of_le hlt hn, hx⟩ }

/-- A page that is inserted at its first page is not in the child yet. -/
theorem not_yet (hone : ∀ f, refs t0 f ≤ 1) (hva : va < USER_LIM) (hl : lookup t0 va = some x) (hn : n ≤ va / PAGE_SIZE)
    (hfirst : x.1 = true → va % HPAGE_SIZE = 0) : refs child x.2.frame = 0 := by
  by_contra hne
  obtain ⟨va', x', hva', hlt, hl', hf⟩ := h.seen x.2.frame (Nat.pos_of_ne_zero hne)
    (Nat.add_pos_right _ (lookup_refs_pos hva hl))
  obtain ⟨hblock, hhuge, hpage⟩ := lookup_unique hva hva' hl hl' hf.symm (hone _)
  cases h1 : x.1
  · have := hpage h1
    omega
  · have := hfirst h1
    have hsize : HPAGE_SIZE = 2097152 := by decide
    simp only [hsize, PAGE_SIZE] at *
    omega

theorem leaf (hva : va < USER_LIM) (hl : lookup parent va = some x) :
    ∃ x0, lookup t0 va = some x0 ∧ x0.1 = x.1 ∧ x0.2.frame = x.2.frame := by
  have hleaf := h.leaves va hva
  rw [hl] at hleaf
  cases hl0 : lookup t0 va with
  | none =>
    rw [hl0] at hleaf
    cases hleaf
  | some x0 =>
    rw [hl0] at hleaf
    have hleaf : leafOf x = leafOf x0 := Option.some.inj hleaf
    exact ⟨x0, rfl, (congrArg Prod.fst hleaf).symm, (congrArg Prod.snd hleaf).symm⟩

/-- A frame of the parent is lent to the child. -/
theorem given (h0 : Acc keep ext alloc0 m0 t0) (hva : va < USER_LIM) (hl : lookup t0 va = some x) :
    (Loan.page x.2.frame (leafOrder x.1) m0.bytes).Given keep (ext + refs t0) alloc m := by
  rintro f rfl
  have hpos : 0 < (ext + refs t0) x.2.frame := Nat.add_pos_right _ (lookup_refs_pos hva hl)
  obtain ⟨ha, hk⟩ := lookup_fits h0.fits hva hl
  exact ⟨hpos, h.spares.stays _ _ hpos ha, hk, h.spares.bytes _ _ hpos ha⟩

theorem readOnly (hva : va < USER_LIM) (hl : lookup parent va = some x) :
    Cloned keep ext alloc0 m0 t0 n alloc m (modifyEntry parent va fun e => { e with write := false }) child := by
  have hf : KeepsFrame fun e => { e with write := false } := ⟨fun _ => rfl, fun _ => rfl, fun _ => rfl⟩
  refine { h with accParent := h.accParent.modifyEntry hf hva hl, leaves := fun va' hva' => ?_ }
  rw [lookup_modifyEntry hf hva hva', Option.map_map, ← h.leaves va' hva']
  refine congrArg (fun k => (lookup parent va').map k) (funext fun y => ?_)
  simp only [comp_apply]
  split <;> rfl

theorem inserted (hva : va < USER_LIM) (hl : lookup t0 va = some x) (hn : n ≤ va / PAGE_SIZE) (hzero : refs child x.2.frame = 0)
    {k a b : Nat} {bytes : Nat → Nat → UInt8} {flags : PageFlags} {r : Phys × Pml4}
    (hr : Inserted keep x.2.frame k bytes flags (TablesAt (SmallBlock t0)) 0 a b (ext + refs t0) alloc m child r) :
    ∃ alloc', Cloned keep ext alloc0 m0 t0 (va / PAGE_SIZE + 1) alloc' r.1 parent r.2 := by
  obtain ⟨alloc', hdone⟩ := hr.done
  have hcount : ∀ f, (m.pages f).ppRef = ext f + refs t0 f + refs child f := h.accChild.ledger.counted
  have hcount' : ∀ f, (r.1.pages f).ppRef = ext f + refs t0 f + refs r.2 f := hdone.acc.ledger.counted
  have hother : ∀ f, f ≠ x.2.frame → 0 < ext f + refs t0 f → refs r.2 f ≤ refs child f := by
    intro f hne hpos
    have hle := hdone.spares.ppRef f hne hpos
    rw [hcount, hcount'] at hle
    omega
  refine ⟨alloc', h.accParent, h.leaves, hdone.acc, h.spares.trans (hdone.spares.lend_more ?_), hr.tables, fun f => ?_, fun f hf hpos => ?_⟩
  · rintro f rfl
    exact ⟨va, x, hva, hl, rfl⟩
  · have honce := h.once f
    by_cases hfx : f = x.2.frame
    · have href := hr.ref
      rw [hcount, hcount', hzero] at href
      rw [hfx]
      omega
    · by_cases hpos : 0 < ext f + refs t0 f
      · exact le_trans (hother f hfx hpos) honce
      · have hle := hdone.spares.once f hfx
        rw [hcount, hcount'] at hle
        omega
  · by_cases hfx : f = x.2.frame
    · exact ⟨va, x, hva, Nat.lt_succ_self _, hl, hfx.symm⟩
    · obtain ⟨va', x', hva', hlt, hx'⟩ := h.seen f (lt_of_lt_of_le hf (hother f hfx hpos)) hpos
      exact ⟨va', x', hva', by omega, hx'⟩

omit h in
theorem start (h0 : Acc keep ext alloc0 m0 t0) (hempty : ∀ i < KERNEL_INDEX, (child i).entry.present = false) :
    Cloned keep ext alloc0 m0 t0 0 alloc0 m0 t0 child := by
  have hrefs : refs child = 0 := tableRefs_absent hempty
  refine ⟨h0, fun _ _ => rfl, ⟨?_, fun i hi => Sparse.fits (hempty i hi)⟩, h0.ledger.spares_refl fun _ => id, fun i hi hp => ?_,
    fun f => ?_, fun f hf => ?_⟩
  · rw [hrefs, add_zero]
    exact h0.ledger
  · rw [hempty i hi] at hp
    cases hp
  · rw [hrefs]
    exact Nat.zero_le 1
  · rw [hrefs] at hf
    cases hf

theorem refs_parent (h0 : Acc keep ext alloc0 m0 t0) : refs parent = refs t0 := by
  funext f
  have hc := h.accParent.ledger.counted f
  have hc0 := h0.ledger.counted f
  rw [Pi.add_apply] at hc hc0
  omega

theorem fits_parent (h0 : Acc keep ext alloc0 m0 t0) (hone : ∀ f, refs t0 f ≤ 1) : Fits keep alloc m parent := by
  have hrefs := h.refs_parent h0
  refine fits_spared h.spares (fun f hf => ?_) ?_ h.accParent.fits
  · rw [hrefs] at hf
    exact Nat.add_pos_right _ hf
  · rintro f ⟨va, x, hva, hl, rfl⟩
    cases hlp : lookup parent va with
    | none =>
      have hleaf := h.leaves va hva
      rw [hl, hlp] at hleaf
      cases hleaf
    | some y =>
      obtain ⟨x0, hl0, _, hf⟩ := h.leaf hva hlp
      rw [hl] at hl0
      cases hl0
      have hle := hone y.2.frame
      rw [← hrefs] at hle
      rw [hf]
      exact lookup_not_table hva hlp hle

end

/-- Cloning a page. -/
theorem clonePage {pml4 : Nat} {s : CloneState} (hbad : ∀ s, bad s → Panics s) (horder : ¬bad .order)
    (h0 : Acc keep ext alloc0 m0 t0) (hone : ∀ f, refs t0 f ≤ 1)
    (hroom : bad .overflow → ∀ f ∈ leafFrames t0, ext f + 2 < 2 ^ 16) (hva : va < USER_LIM) (hal : pageAligned va)
    (hn : n ≤ va / PAGE_SIZE) (h : Cloned keep ext alloc0 m0 t0 n alloc s.phys s.parent s.child) :
    Ends bad (clonePage pml4 va s) fun r => r.childVm = s.childVm ∧
      ∃ alloc', Cloned keep ext alloc0 m0 t0 (va / PAGE_SIZE + 1) alloc' r.phys r.parent r.child := by
  unfold OpenLsd.clonePage pageLookup
  cases hlp : lookup s.parent va with
  | none => exact .ok ⟨rfl, alloc, h.mono (by omega)⟩
  | some y =>
    obtain ⟨x, hl, hy1, hyf⟩ := h.leaf hva hlp
    have h1 := h.readOnly hva hlp
    -- What is flushed is nothing to the frames.
    have hk := h1.accChild.congr (.tlbInvalidate s.phys pml4 va) (s.phys.tlbInvalidate_bytes pml4 va)
    have h2 : Cloned keep ext alloc0 m0 t0 n alloc (s.phys.tlbInvalidate pml4 va)
        (modifyEntry s.parent va fun e => { e with write := false }) s.child :=
      { h1 with accChild := hk.acc, spares := h1.spares.trans (hk.spares.lend _) }
    have hg := h2.given h0 hva hl
    have hroom' : refs s.child x.2.frame = 0 → bad .overflow →
        ((s.phys.tlbInvalidate pml4 va).pages x.2.frame).ppRef + 1 < 2 ^ 16 := by
      intro hzero hb
      have hcount := h2.accChild.ledger.counted x.2.frame
      have hlt := hroom hb x.2.frame ⟨va, x, hva, hl, rfl⟩
      have hle := hone x.2.frame
      rw [hcount, Pi.add_apply, Pi.add_apply, hzero]
      omega
    dsimp only [Option.map_some]
    rw [← hyf]
    cases hx1 : x.1 with
    | false =>
      have hzero := h2.not_yet hone hva hl hn (by simp [hx1])
      rw [hx1] at hg
      refine (pageInsert_4k hbad horder hva hal rfl ⟨va, x, hva, rfl, hl, hx1⟩ h2.accChild hg (hroom' hzero) h2.tables).bind
        fun r hr => .ok ⟨rfl, ?_⟩
      exact h2.inserted hva hl hn hzero hr
    | true =>
      rw [hx1] at hg
      have hsmall : ¬SmallBlock t0 (va / PAGE_SIZE / 512) := by
        rintro ⟨va', x', hva', hblock, hl', hx'⟩
        have := lookup_same_block hva' hva hl' hl hblock
        simp [hx1, hx'] at this
      have hzero := h2.not_yet hone hva hl hn
      refine (pageInsert_2m hbad hva hal hsmall h2.accChild hg (fun hfirst => hroom' (hzero fun _ => hfirst)) h2.tables).bind
        fun ⟨ok, m', child'⟩ hr => .ok ⟨rfl, ?_⟩
      split at hr
      · next hfirst => exact h2.inserted hva hl hn (hzero fun _ => hfirst) hr
      · cases hr
        exact ⟨alloc, h2.mono (by omega)⟩

end Cloned

/-! ## The areas of the child -/

section Areas

variable {fuel : Nat} {s : VmSpace} {v : Vma}

/-- Where nothing is in the way an area is added just where it should be. -/
theorem addVma_free {name : String} {addr size flags : Nat} (htree : ¬bad .rbTree) (hlow : PAGE_SIZE ≤ addr) (hsize : 0 < size)
    (hal : pageAligned size) (hhigh : addr + size ≤ USER_LIM) (hfree : s.Free addr (addr + size)) (h : Agrees s) :
    Ends bad (addVma fuel s name addr size flags) fun r => ∃ p, r.1 = some p ∧ p ∈ r.2.taskMmap ∧ Agrees r.2 ∧
      (∀ va k, At r.2 va k ↔ At s va k ∨ (addr ≤ va ∧ va < addr + size ∧ ⟨name, flags, none⟩ = k)) ∧
      ∀ a, IsBound r.2 a → IsBound s a ∨ a = addr ∨ a = addr + size := by
  have hadd := add64_of_le hhigh
  have hpos : addr ≠ 0 := by
    rintro rfl
    cases hlow
  unfold addVma
  rw [roundUp_of_aligned hal (by simp only [USER_LIM] at hhigh; omega), if_pos hpos]
  cases he : s.addExecutableVma fuel true name addr size flags none 0 with
  | none => exact .error htree
  | some x =>
    obtain ⟨r, s'⟩ := x
    obtain ⟨hag, _, hbound, hmem, hnone, hat⟩ := addExecutableVma_spec h (by omega) he
    rw [hadd] at hbound hnone hat
    cases r with
    | none =>
      obtain ⟨va, k, hge, hlt, hat'⟩ := (hnone rfl).1 rfl
      exact absurd hat' (hfree va k hge hlt)
    | some p =>
      refine .ok ⟨p, rfl, (hmem p rfl).1, hag, fun va k => ?_, fun a ha => ?_⟩
      · rw [hat]
        simp
      · exact (hbound a ha).imp_right And.right

theorem setVma_bounds (hb : v.vmBase = (s.vma p).vmBase) (he : v.vmEnd = (s.vma p).vmEnd)
    (x : Nat) : ((s.setVma p v).vma x).vmBase = (s.vma x).vmBase ∧ ((s.setVma p v).vma x).vmEnd = (s.vma x).vmEnd := by
  simp only [VmSpace.setVma]
  split
  · next hx =>
    rw [hx]
    exact ⟨hb, he⟩
  · exact ⟨rfl, rfl⟩

theorem AreasOk.setVma (h : AreasOk s) (hb : v.vmBase = (s.vma p).vmBase)
    (he : v.vmEnd = (s.vma p).vmEnd) : AreasOk (s.setVma p v) := by
  have hv := setVma_bounds hb he
  refine ⟨h.agrees.congr rfl rfl le_rfl fun x _ => hv x, ?_⟩
  rintro a ⟨x, hx, ha⟩
  rw [(hv x).1, (hv x).2] at ha
  exact h.bounds a ⟨x, hx, ha⟩

/-- The areas of the child lie where areas may lie, and below the bound up to which the parent has been cloned. -/
structure ClonedAreas (s : VmSpace) (bound : Nat) : Prop where
  ok : AreasOk s
  below : ∀ va k, At s va k → va < bound

/-- The pages of an area. -/
theorem pageCount_area {base last : Nat} (hb : pageAligned base) (hl : pageAligned last) (hlt : base < last) :
    base / PAGE_SIZE + pageCount base last = last / PAGE_SIZE ∧
      ∀ i < pageCount base last, base + i * PAGE_SIZE < last ∧ (base + i * PAGE_SIZE) / PAGE_SIZE = base / PAGE_SIZE + i := by
  simp only [pageAligned, pageCount, PAGE_SIZE] at *
  refine ⟨by omega, fun i hi => ?_⟩
  omega

section Clone

variable {pml4 bound : Nat} (hbad : ∀ s, bad s → Panics s) (h0 : Acc keep ext alloc0 m0 t0) (hone : ∀ f, refs t0 f ≤ 1)
  (hroom : bad .overflow → ∀ f ∈ leafFrames t0, ext f + 2 < 2 ^ 16)

include hbad h0 hone hroom

/-- Cloning an area with its pages. -/
theorem cloneArea_spec {v : Vma} {s : CloneState} (hbase : UserBound v.vmBase) (hend : UserBound v.vmEnd)
    (hlt : v.vmBase < v.vmEnd) (hbound : bound ≤ v.vmBase) (hareas : ClonedAreas s.childVm bound)
    (h : Cloned keep ext alloc0 m0 t0 (bound / PAGE_SIZE) alloc s.phys s.parent s.child) :
    Ends bad (cloneArea fuel pml4 v s) fun r => ClonedAreas r.childVm v.vmEnd ∧
      ∃ alloc', Cloned keep ext alloc0 m0 t0 (v.vmEnd / PAGE_SIZE) alloc' r.phys r.parent r.child := by
  obtain ⟨halb, hlow, _⟩ := hbase
  obtain ⟨hale, _, hhigh⟩ := hend
  have hsub : sub64 v.vmEnd v.vmBase = v.vmEnd - v.vmBase := by
    refine sub64_of_le (le_of_lt hlt) ?_
    simp only [USER_LIM] at hhigh
    omega
  have hsum : v.vmBase + (v.vmEnd - v.vmBase) = v.vmEnd := by omega
  have hfree : s.childVm.Free v.vmBase (v.vmBase + (v.vmEnd - v.vmBase)) := fun va k hge _ hat =>
    absurd (hareas.below va k hat) (by omega)
  unfold cloneArea
  rw [hsub]
  refine (addVma_free (fun hb => by cases hbad _ hb <;> contradiction) hlow (by omega) (pageAligned_sub hale halb) (by omega) hfree
    hareas.ok.agrees).bind fun v hv => ?_
  obtain ⟨r, vm⟩ := v
  obtain ⟨p, hr, _, hag, hat, hbd⟩ := hv
  cases hr
  have hag : Agrees vm := hag
  have hok : AreasOk vm := by
    refine ⟨hag, fun a ha => ?_⟩
    rcases hbd a ha with ha | rfl | rfl
    · exact hareas.ok.bounds a ha
    · exact ⟨halb, hlow, by omega⟩
    · rw [hsum]
      exact ⟨hale, by omega, hhigh⟩
  have hcloned : ClonedAreas (vm.setVma p { vm.vma p with vmSrc := v.vmSrc, vmLen := v.vmLen }) v.vmEnd := by
    refine ⟨hok.setVma rfl rfl, ?_⟩
    rintro va k ⟨q, hq, hle, hva, _⟩
    obtain ⟨hqb, hqe⟩ := setVma_bounds (v := { vm.vma p with vmSrc := v.vmSrc, vmLen := v.vmLen }) rfl rfl q
    rcases (hat va _).1 ⟨q, hq, hqb ▸ hle, hqe ▸ hva, rfl⟩ with hold | ⟨_, hlt', _⟩
    · have := hareas.below va _ hold
      omega
    · omega
  obtain ⟨hcount, hpages⟩ := pageCount_area halb hale hlt
  refine Ends.mono (forRange_rule (I := fun i r =>
      r.childVm = vm.setVma p { vm.vma p with vmSrc := v.vmSrc, vmLen := v.vmLen } ∧
      ∃ alloc', Cloned keep ext alloc0 m0 t0 (v.vmBase / PAGE_SIZE + i) alloc' r.phys r.parent r.child)
    (fun i r _ hi hinv => ?_) ⟨rfl, alloc, h.mono (Nat.div_le_div_right hbound)⟩) fun r hr => ⟨?_, ?_⟩
  · obtain ⟨hvm, alloc', hr⟩ := hinv
    obtain ⟨hva, hpage⟩ := hpages i (by omega)
    have hal : pageAligned (v.vmBase + i * PAGE_SIZE) := by
      simp only [pageAligned, PAGE_SIZE] at *
      omega
    refine (hr.clonePage hbad (fun hb => by cases hbad _ hb <;> contradiction) h0 hone hroom (by omega) hal (by omega)).mono
      fun r' hr' => ?_
    obtain ⟨hvm', alloc'', hr'⟩ := hr'
    rw [hpage] at hr'
    exact ⟨hvm'.trans hvm, alloc'', hr'⟩
  · rw [hr.1]
    exact hcloned
  · rw [Nat.zero_add, hcount] at hr
    exact hr.2

/-- Cloning areas, one after the other. -/
theorem cloneAreas_spec {vm : VmSpace} (hvm : AreasOk vm)
    (l : List Nat) : ∀ (bound : Nat) (alloc : Orders) (s : CloneState), (∀ p ∈ l, p ∈ vm.taskMmap) →
      (l.Pairwise fun p q => (vm.vma p).vmEnd ≤ (vm.vma q).vmBase) → (∀ p ∈ l, bound ≤ (vm.vma p).vmBase) →
      ClonedAreas s.childVm bound → Cloned keep ext alloc0 m0 t0 (bound / PAGE_SIZE) alloc s.phys s.parent s.child →
      Ends bad (cloneAreas fuel pml4 vm l s) fun r => AreasOk r.childVm ∧
        ∃ n alloc', Cloned keep ext alloc0 m0 t0 n alloc' r.phys r.parent r.child := by
  induction l with
  | nil => exact fun bound alloc s _ _ _ hareas h => .ok ⟨hareas.ok, _, alloc, h⟩
  | cons p l ih =>
    intro bound alloc s hmem hsorted hbound hareas h
    have hp := hmem p List.mem_cons_self
    refine (cloneArea_spec hbad h0 hone hroom (hvm.vmBase hp) (hvm.vmEnd hp) (hvm.agrees.proper p hp)
      (hbound p List.mem_cons_self) hareas h).bind fun s' ⟨hareas', alloc', h'⟩ => ?_
    rw [List.pairwise_cons] at hsorted
    exact ih _ alloc' s' (fun q hq => hmem q (List.mem_cons_of_mem p hq)) hsorted.2 hsorted.1 hareas' h'

end Clone

end Areas

end OpenLsd
