import OpenLsd.Lemmas.Stores

/-!
# Inserting a page

What `page_insert` does to page tables that are counted, for a page that somebody else refers to: the page gets one more
reference, and is mapped where nothing was mapped. A 2M page that is inserted over a table would take the table away without
giving up its frames, so the blocks at which there may be tables are part of the invariant of the walk.
-/

namespace OpenLsd

open Outcome Function

variable {Q : Nat → Prop} {bad : Stop → Prop} {keep alloc : Orders} {bytes : Nat → Nat → UInt8} {ext : Nat → Nat}
  {m : Phys} {info : InsertInfo} {p k c : Nat} {flags : PageFlags}

/-! ## Where tables may be -/

/-- The block of a PDE that refers to a table satisfies the predicate. -/
def Pde.Tables (Q : Nat → Prop) (c : Nat) (e : Pde) : Prop := e.entry.present = true → e.entry.huge = false → Q c

def Pdpte.Tables (Q : Nat → Prop) (c : Nat) (e : Pdpte) : Prop :=
  e.entry.present = true → ∀ i < PAGE_TABLE_ENTRIES, Pde.Tables Q (c * PAGE_TABLE_ENTRIES + i) (e.child i)

def Pml4e.Tables (Q : Nat → Prop) (c : Nat) (e : Pml4e) : Prop :=
  e.entry.present = true → ∀ i < PAGE_TABLE_ENTRIES, Pdpte.Tables Q (c * PAGE_TABLE_ENTRIES + i) (e.child i)

/-- The blocks of the user half at which there are tables satisfy the predicate. -/
def TablesAt (Q : Nat → Prop) (t : Pml4) : Prop := ∀ i < KERNEL_INDEX, Pml4e.Tables Q i (t i)

section Tables

variable {C : Type} {P : Nat → C → Prop} {t : Nat → C}

/-- A property of all entries of a table, by their blocks, is kept when one of them changes. -/
theorem tables_update {n d : Nat} {e : C}
    (ht : ∀ i < n, P (d / 512 * 512 + i) (t i)) (he : P d e) : ∀ i < n, P (d / 512 * 512 + i) (update t (d % 512) e i) := by
  intro i hi
  by_cases hid : i = d % 512
  · rw [hid, update_self, Nat.div_add_mod']
    exact he
  · rw [update_of_ne hid]
    exact ht i hi

theorem tables_child {n d : Nat} (hd : d % 512 < n) (ht : ∀ i < n, P (d / 512 * 512 + i) (t i)) : P d (t (d % 512)) := by
  have := ht _ hd
  rwa [Nat.div_add_mod'] at this

end Tables

/-! ## A walk in one block -/

section Block

variable {l : Level} {N : Type}

/-- The pages of a range in one block are those of one entry. -/
theorem sweepPages_one {σ : Type} {lo hi : Nat} (h : hi / l.pages = lo / l.pages) (f : Nat → σ → N → Kernel (σ × N))
    (s : σ) (t : Nat → N) :
    sweepPages l f lo hi s t = f (lo / l.pages) s (t (lo / l.pages % 512)) >>= fun r =>
      .ok (r.1, update t (lo / l.pages % 512) r.2) := by
  rw [sweepPages, h, Nat.sub_self]
  rfl

/-- The part of a range in a block is the whole of it if the range lies in the block. -/
theorem Level.clip_self {lo hi : Nat} (hlo : lo / l.pages = c) (hhi : hi / l.pages = c) :
    l.clipLo lo c = lo ∧ l.clipHi hi c = hi := by
  have hpos := l.pages_pos
  have h1 := hlo ▸ Nat.div_mul_le_self lo l.pages
  have h2 := hhi ▸ Nat.lt_div_mul_add (a := hi) hpos
  simp only [clipLo, clipHi]
  omega

/-- The blocks of a page above its PDE. -/
theorem Level.div_pages {g : Nat} (h : g / 512 = c) : g / pages .pdpte = c / 512 ∧ g / pages .pml4e = c / 512 / 512 := by
  simp only [pages]
  omega

end Block

/-! ## The page that is inserted -/

/-- A page of order `k` with the given bytes. -/
def Loan.page (p k : Nat) (bytes : Nat → Nat → UInt8) : Loan := ⟨{p}, k, bytes⟩

/-- Where nothing was mapped the page is mapped now. -/
def insertRel (p k : Nat) (bytes : Nat → Nat → UInt8) (flags : PageFlags) : PageRel (Loan.page p k bytes).frames where
  inside := fun g s s' => s = none → ∃ b, s' = some b ∧ b.Has flags ∧ b.bytes = bytes (p + g % 2 ^ k)
  outside := SamePage {p}
  same := id
  trans := SamePage.trans
  before := by
    rintro g s s' s'' h h' rfl
    cases h
    exact h' rfl
  after := by
    intro g s s' s'' h h' hs
    obtain ⟨b, rfl, hb, hbytes⟩ := h hs
    cases h' with
    | some hle => exact ⟨_, rfl, hb.le hle, hle.bytes.trans hbytes⟩

section Insert

variable {a b base : Nat} {N : Type} {r : Phys × N}

/-- The page gets a reference, and what the entry mapped loses one. -/
theorem insert_refs (hbad : ∀ s, bad s → Panics s) {d : Prop} [Decidable d] {e : Entry} {B : Type} {cont : Phys → Kernel B}
    {post : B → Prop} (hl : Ledger keep (ext + if d then Pi.single e.frame 1 else 0) alloc m)
    (hg : (Loan.page p k bytes).Given keep ext alloc m) (hroom : bad .overflow → (m.pages p).ppRef + 1 < 2 ^ 16)
    (hold : d → (∃ j, alloc e.frame = some j) ∧ keep e.frame = none)
    (hk : ∀ alloc' m', Ledger keep (ext + Pi.single p 1) alloc' m' → Spares {p} ext alloc m alloc' m' → alloc' p = some k →
      (∀ i ∈ blockSet p k, m'.bytes i = bytes i) → (m'.pages p).ppRef ≤ (m.pages p).ppRef + 1 → Ends bad (cont m') post) :
    Ends bad (m.incRef p >>= fun m => if d then dropOld base m e >>= cont else .ok m >>= cont) post := by
  obtain ⟨hpos, ha, _, hb⟩ := hg p rfl
  have ha : alloc p = some k := ha
  have hb : ∀ i ∈ blockSet p k, m.bytes i = bytes i := hb
  have hcount := hl.counted p
  have hone : ∀ alloc' m', Ledger keep (ext + Pi.single p 1) alloc' m' → (m'.pages p).ppRef ≤ (m.pages p).ppRef + 1 := by
    intro alloc' m' hl'
    rw [hl'.counted, hcount, Pi.add_apply, Pi.add_apply, Pi.single_eq_same]
    omega
  rw [hcount] at hroom
  refine (hl.incRef ha hroom).bind fun m1 ⟨hl1, hb1, hs⟩ => ?_
  have hs1 : Spares {p} ext alloc m alloc m1 := hs pos_add (.inl rfl)
  by_cases hd : d
  · rw [if_pos hd] at hl1 ⊢
    obtain ⟨⟨j, hj⟩, hkf⟩ := hold hd
    rw [add_right_comm] at hl1
    simp only [dropOld, bind_assoc]
    refine ((hl1.decref hj hkf).weaken hbad).bind fun m2 ⟨alloc2, hl2, hs2, hb2⟩ => ?_
    have hl3 := hl2.congr (.tlbInvalidate m2 m2.cpu.cr3 base)
    refine hk alloc2 _ hl3 ?_ (hs2.stays p k (by simp) ha) (fun i hi => ?_) (hone _ _ hl3)
    · refine (hs1.trans ((hs2.mono pos_add).lend {p})).trans ?_
      exact hl2.spares_of_same pos_add (.tlbInvalidate _ _ _)
        (Phys.tlbInvalidate_bytes _ _ _)
    · rw [Phys.tlbInvalidate_bytes, hb2, hb1, hb i hi]
  · rw [if_neg hd] at hl1 ⊢
    rw [add_zero] at hl1
    exact hk alloc m1 hl1 hs1 ha (fun i hi => by rw [hb1, hb i hi]) (hone _ _ hl1)

theorem Ledger.setFree_self {count : Nat → Nat} (hl : Ledger keep count alloc m) (ha : alloc p = some k) :
    m.setFree p false = m := Phys.setFree_eq_self (hl.allocated p k ha).2

/-- What inserting the page leaves of a node: the page has one more reference, and the property that says where tables may be
holds again. -/
structure Inserted {N : Type} [Node N] (keep : Orders) (p k : Nat) (bytes : Nat → Nat → UInt8) (flags : PageFlags)
    (J : N → Prop) (c a b : Nat) (ext : Nat → Nat) (alloc : Orders) (m : Phys) (e : N) (r : Phys × N) : Prop where
  done : ∃ alloc', Done keep False (insertRel p k bytes flags) c a b ext alloc m e r.1 r.2 ext alloc'
  ref : (r.1.pages p).ppRef ≤ (m.pages p).ppRef + 1
  tables : J r.2

/-- A computation that inserts the page into a node, if there is room for one more reference to it. -/
def Inserts {N : Type} [Node N] (bad : Stop → Prop) (keep : Orders) (p k : Nat) (bytes : Nat → Nat → UInt8)
    (flags : PageFlags) (J : N → Prop) (c a b : Nat) (x : Phys → N → Kernel (Phys × N)) : Prop :=
  ∀ ext alloc m e, Acc keep ext alloc m e → (Loan.page p k bytes).Given keep ext alloc m →
    (bad .overflow → (m.pages p).ppRef + 1 < 2 ^ 16) → J e →
    Ends bad (x m e) (Inserted keep p k bytes flags J c a b ext alloc m e)

/-- What is done before the page is inserted leaves room for it. -/
theorem Kept.ref_le [Node N] {e e' : N} {alloc' : Orders} {m' : Phys}
    (h : Kept keep ext alloc m e alloc' m' e') (hg : (Loan.page p k bytes).Given keep ext alloc m) :
    (m'.pages p).ppRef ≤ (m.pages p).ppRef := h.spares.ppRef p (Set.notMem_empty p) (hg p rfl).1

theorem Inserted.after [Node N] {J : N → Prop} {alloc1 : Orders} {m1 : Phys} {e e1 : N}
    (hk : Kept keep ext alloc m e alloc1 m1 e1) (hg : (Loan.page p k bytes).Given keep ext alloc m) (hab : a ≤ b)
    (h : Inserted keep p k bytes flags J c a b ext alloc1 m1 e1 r) : Inserted keep p k bytes flags J c a b ext alloc m e r := by
  obtain ⟨alloc', hd⟩ := h.done
  exact ⟨⟨alloc', hk.done.trans le_rfl hab hd⟩, le_trans h.ref (Nat.add_le_add_right (hk.ref_le hg) 1), h.tables⟩

theorem Inserted.before [Node N] {J J' : N → Prop} {e : N} {x : Kernel (Phys × N)}
    (h : Inserted keep p k bytes flags J c a b ext alloc m e r) (hg : (Loan.page p k bytes).Given keep ext alloc m) (hab : a ≤ b)
    (hx : ∀ alloc1, Acc keep ext alloc1 r.1 r.2 → Ends bad x fun r' => (∃ alloc2, Kept keep ext alloc1 r.1 r.2 alloc2 r'.1 r'.2) ∧
      J' r'.2) :
    Ends bad x (Inserted keep p k bytes flags J' c a b ext alloc m e) := by
  obtain ⟨alloc1, hd⟩ := h.done
  have hg1 := hg.spared hd.spares hd.ext_le
  refine (hx alloc1 hd.acc).mono fun r' ⟨⟨alloc2, hk⟩, hJ⟩ => ?_
  exact ⟨⟨alloc2, hd.trans hab le_rfl hk.done⟩, le_trans (hk.ref_le hg1) h.ref, hJ⟩

/-- Inserting a page. -/
theorem insertPte_inserts (hbad : ∀ s, bad s → Panics s) (horder : ¬bad .order) (hpage : info.page = p) :
    Inserts bad keep p 0 bytes info.flags (fun _ : Entry => True) c c (c + 1) (insertPte info base) := by
  intro ext alloc m e h hg hroom _
  obtain ⟨_, ha, hk, _⟩ := hg p rfl
  refine .ite (fun _ => .error horder) fun _ => ?_
  rw [hpage]
  refine insert_refs hbad h.ledger hg hroom (fun hp => ⟨⟨_, (h.fits hp).1⟩, (h.fits hp).2⟩)
    fun alloc1 m1 hl1 hs1 ha1 hb1 href => ?_
  beta_reduce
  rw [hl1.setFree_self ha1]
  refine .ok ⟨⟨alloc1, ⟨⟨?_, fun _ => ⟨ha1, hk⟩⟩, fun _ => le_rfl, fun _ => rfl, hs1, fun g hg' => ?_⟩⟩, href, trivial⟩
  · rw [refs_entry rfl]
    exact hl1
  · have hg' : g = c := by
      rw [show Node.pages Entry = 1 from rfl, Nat.div_one] at hg'
      exact hg'
    rw [PageRel.at, if_pos (by omega), page_entry (e := PageFlags.entry { info.flags with present := true } p) rfl]
    refine fun _ => ⟨_, rfl, ⟨rfl, rfl, rfl⟩, ?_⟩
    rw [Nat.pow_zero, Nat.mod_one]
    exact hb1 p (head_mem_blockSet _ _)

/-- Inserting a huge page. -/
theorem insertPde_huge (hbad : ∀ s, bad s → Panics s) (hpage : info.page = p) (hh : info.flags.huge = true)
    (hpres : info.flags.present = true) (hcov : ∀ g, g / 512 = c → a ≤ g ∧ g < b) {e : Pde}
    (hno : e.entry.present = true → e.entry.huge = true) (h : Acc keep ext alloc m e)
    (hg : (Loan.page p BUDDY_2M_PAGE bytes).Given keep ext alloc m) (hroom : bad .overflow → (m.pages p).ppRef + 1 < 2 ^ 16) :
    Ends bad (insertPde info base m e) fun r => (r.2.entry.present = true ∧ r.2.entry.huge = true) ∧
      (∃ alloc', Done keep False (insertRel p BUDDY_2M_PAGE bytes info.flags) c a b ext alloc m e r.1 r.2 ext alloc') ∧
      (r.1.pages p).ppRef ≤ (m.pages p).ppRef + 1 := by
  obtain ⟨_, ha, hk, _⟩ := hg p rfl
  have hrefs : Node.refs e = if e.entry.present = true ∧ e.entry.huge = true then Pi.single e.entry.frame 1 else 0 := by
    by_cases hp : e.entry.present = true
    · rw [refs_huge hp (hno hp), if_pos ⟨hp, hno hp⟩]
    · rw [Sparse.refs (N := Pde) (Bool.eq_false_of_not_eq_true hp), if_neg fun hph => hp hph.1]
  unfold insertPde
  rw [if_pos hh, hpage]
  refine insert_refs hbad (hrefs ▸ h.ledger) hg hroom (fun hph => ?_) fun alloc1 m1 hl1 hs1 ha1 hb1 href => ?_
  · exact ⟨⟨_, ((h.fits hph.1).1 hph.2).1⟩, ((h.fits hph.1).1 hph.2).2⟩
  beta_reduce
  rw [hl1.setFree_self ha1]
  refine .ok ⟨⟨hpres, hh⟩, ⟨alloc1, ⟨Acc.huge e info.flags hpres hh hl1 ha1 hk, fun _ => le_rfl, fun _ => rfl, hs1,
    fun g hg' => ?_⟩⟩, href⟩
  rw [PageRel.at, if_pos (hcov g hg'), page_huge (e := { e with entry := info.flags.entry p }) hpres hh]
  exact fun _ => ⟨_, rfl, ⟨rfl, rfl, rfl⟩, hb1 _ ⟨Nat.le_add_right _ _, Nat.add_lt_add_left (Nat.mod_lt _ (by decide)) _⟩⟩

end Insert

/-! ## Turns of the walk -/

section Turns

variable {lo hi g : Nat}

section

variable (hbad : ∀ s, bad s → Panics s)

include hbad

theorem pteTurn_inserts (horder : ¬bad .order) (hpage : info.page = p) :
    Inserts bad keep p 0 bytes info.flags (fun _ : Entry => True) g g (g + 1) (info.walker.pteTurn g) :=
  fun ext alloc m e h hg hroom hJ => (insertPte_inserts hbad horder hpage ext alloc m e h hg hroom hJ).bind fun _ hr =>
    .ite (fun _ => .ok hr) fun _ => .ok hr

omit hbad in
theorem HoldsTable.inserted {C W : Type} [Node C] [Node W] {mk : (Nat → C) → W} {n i : Nat} {own : Option Nat} {t : Nat → C}
    (h : HoldsTable mk n own) (hi : i < n) {J' : C → Prop} {J : W → Prop} {d a b : Nat} (hd : d % 512 = i) (hc : d / 512 = c)
    (ha : d * Node.pages C ≤ a) (hb : b ≤ d * Node.pages C + Node.pages C) (hacc : Acc keep ext alloc m (mk t))
    (hg : (Loan.page p k bytes).Given keep ext alloc m) {r : Phys × C}
    (hr : Inserted keep p k bytes flags J' d a b (ext + rest n own t i) alloc m (t i) r) (hJ : J (mk (update t i r.2))) :
    Inserted keep p k bytes flags J c a b ext alloc m (mk t) (r.1, mk (update t i r.2)) := by
  obtain ⟨alloc', hdone⟩ := hr.done
  exact ⟨⟨alloc', h.lift_same hi hd hc ha hb hacc hg hdone⟩, hr.ref, hJ⟩

/-- The turn at the PDE of a 4K page: where there is a huge page nothing is done. -/
theorem pdeTurn_inserts_4k (horder : ¬bad .order) (hpage : info.page = p) (hh : info.flags.huge = false) (hc : g / 512 = c)
    (hQ : Q c) : Inserts bad keep p 0 bytes info.flags (Pde.Tables Q c) c g (g + 1) (info.walker.pdeTurn g g c) := by
  intro ext alloc m e h hg hroom _
  have hcall : info.walker.pdeCallback (Level.first .pde c) (Level.last .pde c) m e = ptblAlloc m e := if_neg (by simp [hh])
  unfold Walker.pdeTurn branchTurn
  rw [hcall]
  refine ((ptblAlloc_kept rfl (fun _ => holds_pde rfl rfl) h).weaken hbad).bind fun ⟨m1, e1⟩ ⟨⟨alloc1, hk⟩, hp1, hsame, htable⟩ => ?_
  refine .ite (fun _ => .ite (fun hh1 => ?_) fun hh1 => ?_) fun hno => absurd hp1 hno
  · have hp : e.entry.present = true := by
      by_contra hp
      exact absurd hh1 (by simp [show e1.entry.huge = false from htable (by simpa using hp)])
    have heq : e1 = e := hsame hp
    show Ends bad (ptblMerge (Level.first .pde c) m1 e1) _
    rw [ptblMerge_huge _ hh1]
    refine .ok ⟨⟨alloc1, ⟨hk.acc, fun _ => le_rfl, fun _ => rfl, hk.spares.lend _, fun g' _ => ?_⟩⟩,
      Nat.le_succ_of_le (hk.ref_le hg), fun _ _ => hQ⟩
    rw [PageRel.at]
    split
    · refine fun hnone => ?_
      rw [page_huge hp (heq ▸ hh1)] at hnone
      cases hnone
    · exact (hk.page g').lend
  · have hh1 : e1.entry.huge = false := by simpa using hh1
    obtain ⟨e1, t1⟩ := e1
    have hold := holds_pde hp1 hh1
    have hlt : g % 512 < PAGE_TABLE_ENTRIES := Nat.mod_lt _ (by decide)
    have hg1 := hg.spared hk.spares fun _ => le_rfl
    obtain ⟨hlo, hhi⟩ := Level.clip_self (l := .pde) hc hc
    have hpage1 : g * Node.pages Entry = g := Nat.mul_one g
    rw [hlo, hhi, sweepPages_one rfl, show g / Level.pages .pte = g from Nat.div_one g]
    simp only [bind_assoc]
    refine (pteTurn_inserts hbad horder hpage _ _ _ _ (hold.child hlt hk.acc) (HoldsTable.given_child hg1) (fun hb => ?_)
      trivial).bind fun r hr => ?_
    · exact lt_of_le_of_lt (Nat.add_le_add_right (hk.ref_le hg) 1) (hroom hb)
    have hins : Inserted keep p 0 bytes info.flags (fun _ => True) c g (g + 1) ext alloc m e (r.1, ⟨e1, update t1 (g % 512) r.2⟩) :=
      (hold.inserted hlt rfl hc (le_of_eq hpage1) (le_of_eq (by rw [hpage1]; rfl)) hk.acc hg1 hr trivial).after hk hg
        (Nat.le_succ g)
    exact hins.before hg (Nat.le_succ g) fun alloc2 hacc2 => ((ptblMerge_kept _ hacc2).weaken hbad).and
      ((Ends.trivial _).mono fun _ _ _ _ => hQ)

theorem pdeTurn_inserts_2m (hpage : info.page = p) (hh : info.flags.huge = true) (hpres : info.flags.present = true) (hQ : ¬Q c) :
    Inserts bad keep p BUDDY_2M_PAGE bytes info.flags (Pde.Tables Q c) c (c * 512) (c * 512 + 511 + 1)
      (info.walker.pdeTurn (c * 512) (c * 512 + 511) c) := by
  intro ext alloc m e h hg hroom hJ
  have hno : e.entry.present = true → e.entry.huge = true := by
    intro hp
    by_contra hh'
    exact hQ (hJ hp (by simpa using hh'))
  have hcov : ∀ g, g / 512 = c → c * 512 ≤ g ∧ g < c * 512 + 511 + 1 := fun g hg' => by omega
  refine (insertPde_huge hbad hpage hh hpres hcov hno h hg hroom).bind
    fun ⟨m1, e1⟩ ⟨⟨hp1, hh1⟩, hd, href⟩ => ?_
  refine .ite (fun _ => .ite (fun _ => ?_) fun hno' => absurd hh1 hno') fun hno' => absurd hp1 hno'
  show Ends bad (ptblMerge (Level.first .pde c) m1 e1) _
  rw [ptblMerge_huge _ hh1]
  refine .ok ⟨hd, href, fun _ hh' => ?_⟩
  rw [show e1.entry.huge = true from hh1] at hh'
  cases hh'

/-- A turn above the PDE: the table is made if there is none, and the page is inserted below one of its entries. -/
theorem branchTurn_inserts {C : Type} [Zero C] [Node C] [HasEntry C] [Sparse C] [Node (Branch C)] [Sparse (Branch C)]
    (hz : (HasEntry.entryOf (0 : C)).present = false)
    (hold : ∀ e : Entry, e.present = true → HoldsTable (Branch.mk (C := C) e) PAGE_TABLE_ENTRIES (some e.frame)) {l : Level}
    (hl : l.pages = Node.pages C) {J : Branch C → Prop} {J' : C → Prop} {d : Nat} (hle : lo ≤ hi) (hlo : lo / l.pages = d)
    (hhi : hi / l.pages = d) (hc : d / 512 = c) (hnew : ∀ p, J { entry := tableEntry p, child := fun _ => 0 })
    (hdown : ∀ e : Branch C, e.entry.present = true → J e → J' (e.child (d % 512)))
    (hup : ∀ (e : Branch C) x, e.entry.present = true → J e → J' x → J { e with child := update e.child (d % 512) x })
    {f : Nat → Phys → C → Kernel (Phys × C)} (hf : Inserts bad keep p k bytes flags J' d lo (hi + 1) (f d))
    {hole : Phys → Branch C → Kernel (Phys × Branch C)} :
    Inserts bad keep p k bytes flags J c lo (hi + 1)
      (branchTurn (fun _ => false) ptblAlloc (fun m e => .ok (m, e)) hole (sweepPages l f lo hi)) := by
  intro ext alloc m e h hg hroom hJ
  have hcall : Ends bad (ptblAlloc m e) fun r => ((∃ alloc', Kept keep ext alloc m e alloc' r.1 r.2) ∧
      r.2.entry.present = true) ∧ J r.2 := by
    refine (((ptblAlloc_kept hz (fun p => hold _ rfl) h).weaken hbad).and (Quiet.ptblAlloc m e)).mono fun r hr =>
      ⟨⟨hr.1.1, hr.1.2.1⟩, ?_⟩
    rcases hr.2.2.2 with ⟨_, he⟩ | ⟨_, q, he⟩
    · rwa [he]
    · rw [he]
      exact hnew q
  refine hcall.bind fun ⟨m1, e1⟩ ⟨⟨⟨alloc1, hk⟩, hp1⟩, hJ1⟩ => ?_
  refine .ite (fun _ => .ite (fun hno => nomatch hno) fun _ => ?_) fun hno => absurd hp1 hno
  obtain ⟨e1, t1⟩ := e1
  have hlt : d % 512 < PAGE_TABLE_ENTRIES := Nat.mod_lt _ (by decide)
  have hg1 := hg.spared hk.spares fun _ => le_rfl
  rw [sweepPages_one (hhi.trans hlo.symm), hlo]
  simp only [bind_assoc]
  refine (hf _ _ _ _ ((hold e1 hp1).child hlt hk.acc) (HoldsTable.given_child hg1) (fun hb => ?_) (hdown _ hp1 hJ1)).bind
    fun r hr => .ok ?_
  · exact lt_of_le_of_lt (Nat.add_le_add_right (hk.ref_le hg) 1) (hroom hb)
  have hpos : 0 < Node.pages C := (hold e1 hp1).pos
  rw [hl] at hlo hhi
  have ha : d * Node.pages C ≤ lo := hlo ▸ Nat.div_mul_le_self _ _
  have hb : hi + 1 ≤ d * Node.pages C + Node.pages C := hhi ▸ Nat.lt_div_mul_add hpos
  exact ((hold e1 hp1).inserted hlt rfl hc ha hb hk.acc hg1 hr (hup _ _ hp1 hJ1 hr.tables)).after hk hg (Nat.le_succ_of_le hle)

/-- The walk over the pages of one PDE. -/
theorem pageWalk_inserts (hle : lo ≤ hi) (hhi : hi < 2 ^ 35) (hloc : lo / 512 = c) (hhic : hi / 512 = c)
    (hpde : Inserts bad keep p k bytes flags (Pde.Tables Q c) c lo (hi + 1) (info.walker.pdeTurn lo hi c)) :
    Inserts bad keep p k bytes flags (TablesAt Q) 0 lo (hi + 1) (info.walker.pageWalk lo hi) := by
  obtain ⟨hlo3, hlo4⟩ := Level.div_pages hloc
  obtain ⟨hhi3, hhi4⟩ := Level.div_pages hhic
  have hpdpte : Inserts bad keep p k bytes flags (Pdpte.Tables Q (c / 512)) (c / 512) lo (hi + 1)
      (info.walker.pdpteTurn lo hi (c / 512)) := by
    unfold Walker.pdpteTurn
    rw [(Level.clip_self hlo3 hhi3).1, (Level.clip_self hlo3 hhi3).2]
    refine branchTurn_inserts (l := .pde) hbad rfl (fun e he => holds_branch (by decide) he) rfl hle hloc hhic rfl
      (fun q _ i _ hno => nomatch (show (0 : Pde).entry.present = true from hno)) (fun e hp hJ => ?_) (fun e x hp hJ hx _ => ?_) hpde
    · exact tables_child (P := Pde.Tables Q) (Nat.mod_lt _ (by decide)) (hJ hp)
    · exact tables_update (P := Pde.Tables Q) (hJ hp) hx
  have hpml4e : Inserts bad keep p k bytes flags (Pml4e.Tables Q (c / 512 / 512)) (c / 512 / 512) lo (hi + 1)
      (info.walker.pml4eTurn lo hi (c / 512 / 512)) := by
    unfold Walker.pml4eTurn
    rw [(Level.clip_self hlo4 hhi4).1, (Level.clip_self hlo4 hhi4).2]
    refine branchTurn_inserts (l := .pdpte) hbad rfl (fun e he => holds_branch (by decide) he) rfl hle hlo3 hhi3 rfl
      (fun q _ i _ hno => nomatch (show (0 : Pdpte).entry.present = true from hno)) (fun e hp hJ => ?_)
      (fun e x hp hJ hx _ => ?_) hpdpte
    · exact tables_child (P := Pdpte.Tables Q) (Nat.mod_lt _ (by decide)) (hJ hp)
    · exact tables_update (P := Pdpte.Tables Q) (hJ hp) hx
  intro ext alloc m t h hg hroom hJ
  have hd : c / 512 / 512 < 256 := by omega
  have hmod : c / 512 / 512 % 512 = c / 512 / 512 := Nat.mod_eq_of_lt (by omega)
  have hlt : c / 512 / 512 % 512 < KERNEL_INDEX := hmod.symm ▸ hd
  unfold Walker.pageWalk
  rw [sweepPages_one (hhi4.trans hlo4.symm), hlo4]
  have hJ' : Pml4e.Tables Q (c / 512 / 512) (t (c / 512 / 512 % 512)) := by
    rw [hmod]
    exact hJ _ hd
  refine (hpml4e _ _ _ _ (holds_pml4.child hlt h) (HoldsTable.given_child hg) hroom hJ').bind fun r hr => .ok ?_
  have ha : c / 512 / 512 * Node.pages Pml4e ≤ lo := by
    rw [pages_pml4e]
    omega
  have hb : hi + 1 ≤ c / 512 / 512 * Node.pages Pml4e + Node.pages Pml4e := by
    rw [pages_pml4e]
    omega
  refine holds_pml4.inserted hlt rfl (by omega) ha hb h hg hr fun i hi => ?_
  rw [hmod]
  by_cases hic : i = c / 512 / 512
  · rw [hic, update_self]
    exact hr.tables
  · rw [update_of_ne hic]
    exact hJ i hi

end

end Turns

end OpenLsd
