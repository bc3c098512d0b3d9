import OpenLsd.Lemmas.TableSpecs

/-!
# What the walks do to pages

`unmap_page_range`, `protect_region`, `populate_region` and the walk of `page_insert` on page tables that are counted: what
becomes of the pages in the range, and that the others are left alone. One walk may do a little more than it is told to:
`populate_region` copies a shared huge page as a whole, so that the pages of it that lie outside the range get the new flags
as well.
-/

namespace OpenLsd

open Outcome Function Level

variable {keep alloc : Orders} {L : Loan} {lossy : Prop} {R : PageRel L.frames} {N C : Type} {m : Phys}
  {ext : Nat → Nat} {c a b lo hi base : Nat} {flags : PageFlags}

variable {lent : Set Nat}

/-! ## Walks over the user half -/

section Treats

variable [Node N]

/-- The node is treated as `R` says, for some way to count it. -/
def Treated (keep : Orders) (lossy : Prop) (R : PageRel L.frames) (c : Nat) (ext : Nat → Nat) (alloc : Orders)
    (m : Phys) (e : N) (a b : Nat) (r : Phys × N) : Prop :=
  ∃ ext' alloc', Done keep lossy R c a b ext alloc m e r.1 r.2 ext' alloc'

/-- A computation on a node whose pages from `a` to before `b` are treated as `R` says. -/
def Treats (bad : Stop → Prop) (keep : Orders) (lossy : Prop) (R : PageRel L.frames) (c a b : Nat) (ext : Nat → Nat)
    (alloc : Orders) (m : Phys) (e : N) (x : Kernel (Phys × N)) : Prop :=
  Ends bad x (Treated keep lossy R c ext alloc m e a b)

/-- What holds for every way to count the node, when there is one. -/
theorem ends_counted {bad : Stop → Prop} {e : N} {B : Type} {x : Kernel B} {Q : (Nat → Nat) → Orders → B → Prop}
    (hinv : ∃ ext alloc, Acc keep ext alloc m e ∧ L.Given keep ext alloc m)
    (h : ∀ ext alloc, Acc keep ext alloc m e → L.Given keep ext alloc m → Ends bad x (Q ext alloc)) :
    Ends bad x fun r => ∀ ext alloc, Acc keep ext alloc m e → L.Given keep ext alloc m → Q ext alloc r := by
  obtain ⟨ext0, alloc0, h0, hg0⟩ := hinv
  exact ⟨fun r hr ext alloc hacc hg => (h ext alloc hacc hg).1 r hr, (h ext0 alloc0 h0 hg0).2⟩

/-- The blocks of the user half belong to the entries below the middle of the PML4. -/
theorem Meets.user_pml4e (h : Meets .pml4e lo hi c) (hhi : hi < 2 ^ 35) : c < 256 := by
  have := h.first
  simp only [pages] at this
  omega

theorem Meets.full_pml4e (h : Meets .pml4e lo hi c) : c < PAGE_TABLE_ENTRIES := by
  have hfirst := h.first
  have hlt := h.lt
  simp only [pages, NPAGES, PAGE_TABLE_ENTRIES] at *
  omega

/-- The callbacks at the entries of a level treat the pages as `R` says. -/
structure LevelTreats {C : Type} [Node (Branch C)] (isLeaf : Entry → Bool) (l : Level) (lo hi : Nat) (keep : Orders)
    (L : Loan) (lossy : Prop) (R : PageRel L.frames) (callback unmap : Nat → Nat → Phys → Branch C → Kernel (Phys × Branch C)) :
    Prop where
  call : ∀ {c ext alloc m e}, Meets l lo hi c → Acc keep ext alloc m e → L.Given keep ext alloc m →
    Ends Panics (callback (l.first c) (l.last c) m e) (Turned Panics isLeaf (l.clipLo lo c) (l.clipHi hi c + 1)
      (Treated keep lossy R c ext alloc m e) (unmap (l.first c)))
  unmap : ∀ {c ext alloc m e last}, Meets l lo hi c → e.entry.present = true → isLeaf e.entry = false → Acc keep ext alloc m e →
    L.Given keep ext alloc m →
    Treats Panics keep lossy R c (l.clipHi hi c + 1) (l.clipHi hi c + 1) ext alloc m e (unmap (l.first c) last m e)

theorem LevelTreats.tracked [Node C] [Node (Branch C)] {isLeaf : Entry → Bool} {l l' : Level}
    {callback unmap : Nat → Nat → Phys → Branch C → Kernel (Phys × Branch C)}
    (h : LevelTreats isLeaf l lo hi keep L lossy R callback unmap)
    (hlift : ∀ e d, e.present = true → isLeaf e = false →
      PageLifts l' d (nodeTrack C keep L lossy R d) ((nodeTrack (Branch C) keep L lossy R (d / 512)).comap (Branch.mk e))) :
    LevelTracked Panics isLeaf l l' lo hi callback unmap (nodeTrack C keep L lossy R) (nodeTrack (Branch C) keep L lossy R) where
  call := fun c hc m e hinv => by
    refine (ends_counted hinv fun ext alloc hacc hg => h.call hc hacc hg).mono fun r hr => ⟨fun hp hh last => ?_, fun hp hh => ?_,
      fun hp => ?_⟩
    · exact ends_counted hinv fun ext alloc hacc hg => (hr ext alloc hacc hg).leaf hp hh last
    · exact fun ext alloc hacc hg => (hr ext alloc hacc hg).table hp hh
    · exact fun ext alloc hacc hg => (hr ext alloc hacc hg).gone hp
  unmap := fun _ hc _ _ _ hp hh hinv => ends_counted hinv fun _ _ hacc hg => h.unmap hc hp hh hacc hg
  lift := fun e d _ hp hh => hlift e d hp hh

section Walks

variable [Node Entry] [Node (Branch Entry)]

/-- The callbacks of a walker over the pages from `lo` to `hi` treat the pages as `R` says. -/
structure Walker.TreatsPages (w : Walker Phys) (lo hi : Nat) (keep : Orders) (L : Loan) (lossy : Prop)
    (R : PageRel L.frames) : Prop where
  hole : w.ptHoleCallback = fun _ _ s => .ok s
  pte : ∀ {c ext alloc m e}, Meets .pte lo hi c → Acc keep ext alloc m e → L.Given keep ext alloc m →
    Treats Panics keep lossy R c c (c + 1) ext alloc m e (w.pteCallback (Level.first .pte c) (Level.last .pte c) m e)
  pde : LevelTreats (fun e => e.huge) .pde lo hi keep L lossy R w.pdeCallback w.pdeUnmap
  pdpte : LevelTreats (fun _ => false) .pdpte lo hi keep L lossy R w.pdpteCallback w.pdpteUnmap
  pml4e : LevelTreats (fun _ => false) .pml4e lo hi keep L lossy R w.pml4eCallback w.pml4eUnmap

variable [PageNodes] {w : Walker Phys} {W : Type} {t : Pml4} {mk : Pml4 → W}

theorem level_pages_pdpte : Node.pages Pdpte = pages .pdpte := congrArg (512 * ·) PageNodes.pages_pde

theorem level_pages_pml4e : Node.pages Pml4e = pages .pml4e := congrArg (512 * ·) level_pages_pdpte

section

variable (e : Entry) (d : Nat) (hp : e.present = true)

include e d hp

theorem node_lift2 (hh : e.huge = false) :
    PageLifts .pte d (nodeTrack Entry keep L lossy R d) ((nodeTrack Pde keep L lossy R (d / 512)).comap (Branch.mk e)) :=
  (PageNodes.table hp hh).pageLifts PageNodes.pages_entry.symm (Nat.mod_lt _ (by decide))

theorem node_lift3 :
    PageLifts .pde d (nodeTrack Pde keep L lossy R d) ((nodeTrack Pdpte keep L lossy R (d / 512)).comap (Branch.mk e)) :=
  (holds_branch (by rw [PageNodes.pages_pde]; decide) hp).pageLifts PageNodes.pages_pde.symm (Nat.mod_lt _ (by decide))

theorem node_lift4 :
    PageLifts .pdpte d (nodeTrack Pdpte keep L lossy R d) ((nodeTrack Pml4e keep L lossy R (d / 512)).comap (Branch.mk e)) :=
  (holds_branch (by rw [level_pages_pdpte]; decide) hp).pageLifts level_pages_pdpte.symm (Nat.mod_lt _ (by decide))

end

theorem node_lift5 [Node W] {n d : Nat} (h : HoldsTable mk n none) (hd : d < n) :
    PageLifts .pml4e d (nodeTrack Pml4e keep L lossy R d) ((nodeTrack W keep L lossy R 0).comap mk) := by
  have hlt : d < 512 := lt_of_lt_of_le hd h.bound
  have hlift : PageLifts .pml4e d (nodeTrack Pml4e keep L lossy R d) ((nodeTrack W keep L lossy R (d / 512)).comap mk) :=
    h.pageLifts level_pages_pml4e.symm (lt_of_le_of_lt (Nat.mod_le _ _) hd)
  rwa [Nat.div_eq_of_lt hlt] at hlift

theorem Walker.TreatsPages.pageTracked (h : w.TreatsPages lo hi keep L lossy R) :
    w.PageTracked Panics lo hi (nodeTrack Entry keep L lossy R) (nodeTrack Pde keep L lossy R)
      (nodeTrack Pdpte keep L lossy R) (nodeTrack Pml4e keep L lossy R) where
  hole := h.hole
  pte := fun _ hc _ _ hinv => ends_counted hinv fun _ _ hacc hg => h.pte hc hacc hg
  pde := h.pde.tracked node_lift2
  pdpte := h.pdpte.tracked fun e d hp _ => node_lift3 e d hp
  pml4e := h.pml4e.tracked fun e d hp _ => node_lift4 e d hp

/-- The walk over a PML4, for the entries of it that are counted. -/
theorem Walker.TreatsPages.pageWalk_counted [Node W] {n : Nat} (hold : HoldsTable mk n none)
    (h : w.TreatsPages lo hi keep L lossy R) (hle : lo ≤ hi) (hhi : hi < NPAGES) (hn : ∀ d, Meets .pml4e lo hi d → d < n)
    (hacc : Acc keep ext alloc m (mk t)) (hg : L.Given keep ext alloc m) :
    Ends Panics (w.pageWalk lo hi m t) fun r =>
      ∃ ext' alloc', Done keep lossy R 0 lo (hi + 1) ext alloc m (mk t) r.1 (mk r.2) ext' alloc' := by
  have hl : ∀ d, Meets .pml4e lo hi d →
      PageLifts .pml4e d (nodeTrack Pml4e keep L lossy R d) ((nodeTrack W keep L lossy R 0).comap mk) :=
    fun d hd => node_lift5 hold (hn d hd)
  have hinv : ((nodeTrack W keep L lossy R 0).comap mk).inv m t := ⟨ext, alloc, hacc, hg⟩
  exact (h.pageTracked.pageWalk hle hhi hl hinv).mono fun r hr => hr ext alloc hacc hg

/-- The walk over a PML4 that is counted as a whole. -/
theorem Walker.TreatsPages.pageWalk_full (h : w.TreatsPages lo hi keep L lossy R) (hle : lo ≤ hi)
    (hhi : hi < NPAGES) (hacc : Acc keep ext alloc m (FullTable.mk t)) (hg : L.Given keep ext alloc m) :
    Ends Panics (w.pageWalk lo hi m t) fun r =>
      ∃ ext' alloc', Done keep lossy R 0 lo (hi + 1) ext alloc m (FullTable.mk t) r.1 (FullTable.mk r.2) ext' alloc' :=
  h.pageWalk_counted (holds_full (by rw [level_pages_pml4e]; decide)) hle hhi (fun _ hd => hd.full_pml4e) hacc hg

end Walks

/-- The walk over the user half of a PML4. -/
theorem Walker.TreatsPages.pageWalk {w : Walker Phys} (h : w.TreatsPages lo hi keep L lossy R) (hle : lo ≤ hi)
    (hhi : hi < 2 ^ 35) {t : Pml4} (hacc : Acc keep ext alloc m t)
    (hg : L.Given keep ext alloc m) : Treats Panics keep lossy R 0 lo (hi + 1) ext alloc m t (w.pageWalk lo hi m t) :=
  h.pageWalk_counted holds_pml4 hle (lt_trans hhi (by decide)) (fun _ hd => hd.user_pml4e hhi) hacc hg

end Treats

/-! ## The parts that the walks share -/

section Parts

variable [Node N] {e : N} {g : Nat} {bad : Stop → Prop} {l : Level}
  {unmap : Nat → Nat → Phys → Branch C → Kernel (Phys × Branch C)}

/-- Doing nothing where nothing is mapped, if that is how pages that are not mapped are treated. -/
theorem Acc.done_absent [HasEntry N] [Sparse N] (h : Acc keep ext alloc m e) (hp : (HasEntry.entryOf e).present = false)
    (hR : ∀ g, R.inside g none none) : Done keep lossy R c a b ext alloc m e m e ext alloc := by
  refine ⟨h, fun _ => le_rfl, fun _ => rfl, h.spares_refl, fun g _ => ?_⟩
  rw [Sparse.page hp, PageRel.at]
  split
  · exact hR g
  · exact R.same (.refl _ _)

theorem Acc.treats_refl (h : Acc keep ext alloc m e) : Treats bad keep lossy R c a a ext alloc m e (.ok (m, e)) :=
  .ok ⟨ext, alloc, .refl h⟩

theorem kept_treats {x : Kernel (Phys × N)}
    (h : Ends bad x fun r => ∃ alloc', Kept keep ext alloc m e alloc' r.1 r.2) : Treats bad keep lossy R c a a ext alloc m e x :=
  h.mono fun _ ⟨alloc', hk⟩ => ⟨ext, alloc', hk.done⟩

section Turned

variable [Node (Branch C)] {isLeaf : Entry → Bool} {e : Branch C} {r : Phys × Branch C}
  {unmap : Nat → Phys → Branch C → Kernel (Phys × Branch C)}

theorem turned_table {alloc' : Orders} (hk : Kept keep ext alloc m e alloc' r.1 r.2) (hp : r.2.entry.present = true)
    (hh : isLeaf r.2.entry = false) : Turned Panics isLeaf a b (Treated keep lossy R c ext alloc m e) unmap r := by
  refine ⟨fun _ hh' => ?_, fun _ _ => ⟨ext, alloc', hk.done⟩, fun hp' => ?_⟩
  · rw [hh] at hh'
    cases hh'
  · rw [hp] at hp'
    cases hp'

/-- A leaf is there, its pages are done, and the callback at the end leaves it alone. -/
theorem turned_leaf (hh : isLeaf r.2.entry = true) (hu : ∀ last, unmap last r.1 r.2 = .ok r)
    (h : Treated keep lossy R c ext alloc m e a b r) :
    Turned Panics isLeaf a b (Treated keep lossy R c ext alloc m e) unmap r := by
  refine ⟨fun _ _ last => ?_, fun _ hh' => ?_, fun _ => h⟩
  · rw [hu last]
    exact .ok h
  · rw [hh] at hh'
    cases hh'

/-- Nothing is done where no leaf is, if that is how pages that are not mapped are treated. -/
theorem turned_same [Sparse (Branch C)] (h : Acc keep ext alloc m e) (hR : ∀ g, R.inside g none none)
    (hno : e.entry.present = true → isLeaf e.entry = false) :
    Turned Panics isLeaf a b (Treated keep lossy R c ext alloc m e) unmap (m, e) := by
  refine ⟨fun hp hh => ?_, fun _ _ => ⟨ext, alloc, .refl h⟩, fun hp => ⟨ext, alloc, h.done_absent hp hR⟩⟩
  rw [show isLeaf e.entry = false from hno hp] at hh
  cases hh

end Turned

theorem levelTreats_idle [Node (Branch C)] [Sparse (Branch C)]
    {callback : Nat → Nat → Phys → Branch C → Kernel (Phys × Branch C)} (hcall : ∀ a b m e, callback a b m e = .ok (m, e))
    (hR : ∀ g, R.inside g none none)
    (hunmap : ∀ {c ext alloc m e last}, e.entry.present = true → Acc keep ext alloc m e →
      Treats Panics keep lossy R c (l.clipHi hi c + 1) (l.clipHi hi c + 1) ext alloc m e (unmap (l.first c) last m e)) :
    LevelTreats (fun _ => false) l lo hi keep L lossy R callback unmap where
  call := fun _ h _ => by
    rw [hcall]
    exact .ok (turned_same h hR fun _ => rfl)
  unmap := fun _ hp _ h _ => hunmap hp h

theorem levelTreats_alloc [Zero C] [Node C] [HasEntry C] [Sparse C] [Node (Branch C)] [Sparse (Branch C)]
    (hz : (HasEntry.entryOf (0 : C)).present = false)
    (hold : ∀ p, HoldsTable (Branch.mk (C := C) (tableEntry p)) PAGE_TABLE_ENTRIES (some p))
    (hunmap : ∀ a b m e, unmap a b m e = .ok (m, e)) :
    LevelTreats (fun _ => false) l lo hi keep L lossy R (fun _ _ => ptblAlloc) unmap where
  call := fun _ h _ => (ptblAlloc_kept hz hold h).mono fun r ⟨⟨_, hk⟩, hp, _⟩ => turned_table hk hp rfl
  unmap := fun _ _ _ h _ => by
    rw [hunmap]
    exact h.treats_refl

/-- Where the pages of a block from `lo` to `hi` are. -/
theorem Meets.mem_clip (hg : g / 512 = c) : (clipLo .pde lo c ≤ g ∧ g < clipHi .pde hi c + 1) ↔ lo ≤ g ∧ g ≤ hi := by
  simp only [clipLo, clipHi, pages]
  omega

theorem page_of_entry [Node Entry] [Node (Branch Entry)] [PageNodes] (hg : g / Node.pages Entry = c) : c ≤ g ∧ g < c + 1 := by
  rw [PageNodes.pages_entry, show pages .pte = 1 from rfl, Nat.div_one] at hg
  omega

end Parts

/-! ## Removing -/

/-- Pages in the range are gone. -/
def removeRel : PageRel Loan.nothing.frames where
  inside := fun _ _ s' => s' = none
  outside := SamePage ∅
  same := id
  trans := SamePage.trans
  before := fun _ h => h
  after := by
    rintro g s s' s'' rfl h
    cases h
    rfl

section Remove

variable {info : RemoveInfo}

/-- An entry that maps a page is dropped. -/
theorem removePte_treats {e : Entry} (h : Acc keep ext alloc m e) :
    Treats Panics keep lossy removeRel c c (c + 1) ext alloc m e (removePte info base m e) := by
  refine .ite (fun hp => ?_) fun hp => .ok ⟨ext, alloc, h.done_absent (Bool.eq_false_of_not_eq_true hp) fun _ => rfl⟩
  obtain ⟨ha, hk⟩ := h.fits hp
  have hl := h.ledger
  rw [refs_entry hp] at hl
  refine (hl.decref ha hk).bind fun m1 ⟨alloc1, hl1, hs1, hb1⟩ => .ok ⟨ext, alloc1, ?_⟩
  have hacc1 : Acc keep ext alloc1 m1 (0 : Entry) := ⟨by rwa [Sparse.refs (N := Entry) rfl, add_zero], nofun⟩
  have hk1 := hacc1.congr (.tlbInvalidate m1 info.pml4 base) (Phys.tlbInvalidate_bytes m1 _ _)
  refine ⟨hk1.acc, fun _ => le_rfl, fun _ => rfl, hs1.trans hk1.spares, fun g hg => ?_⟩
  rw [PageRel.at, if_pos (page_of_entry hg)]
  rfl

/-- The range covers the block, or a huge page there has to be split. -/
theorem removes_iff (hhi : hi < 2 ^ 35) (hc : Meets .pde lo hi c) (hbase : info.baseRemove = pageAddr lo)
    (hend : info.endRemove = pageLast hi + 1) :
    ¬(info.baseRemove > first .pde c ∨ info.endRemove < last .pde c) ↔ lo ≤ c * 512 ∧ c * 512 + 511 ≤ hi := by
  obtain ⟨hle, _, hfirst, _⟩ := hc
  simp only [pages] at hfirst
  have hblock := block_user .pde (lt_of_le_of_lt hfirst hhi)
  simp only [pages, Nat.mul_div_cancel _ (show 0 < 512 by decide)] at hblock
  simp only [hbase, hend, first, last, pages, pageLast, PAGE_SIZE]
  rw [pageAddr_user (lt_of_le_of_lt hle hhi), pageAddr_user hhi, pageAddr_user (lt_of_le_of_lt hfirst hhi),
    pageAddr_user hblock]
  omega

/-- A huge page is dropped as a whole only where the range covers it. -/
def RemoveInfo.Covers (info : RemoveInfo) (lo hi : Nat) : Prop :=
  ∀ c, Meets .pde lo hi c → ¬(info.baseRemove > Level.first .pde c ∨ info.endRemove < Level.last .pde c) →
    lo ≤ c * 512 ∧ c * 512 + 511 ≤ hi

/-- Removing at a PDE. -/
theorem removePde_treats (hc : Meets .pde lo hi c) (hinfo : info.Covers lo hi) {e : Pde} (h : Acc keep ext alloc m e) :
    Ends Panics (removePde info (first .pde c) (last .pde c) m e) (Turned Panics (fun e => e.huge)
      (clipLo .pde lo c) (clipHi .pde hi c + 1) (Treated keep lossy removeRel c ext alloc m e) fun _ => ptblFree) := by
  refine .ite (fun ⟨hp, hh⟩ => .ite (fun _ => ?_) fun hcov => ?_) fun hno => .ok (turned_same h (fun _ => rfl) fun hp => ?_)
  · exact (ptblSplit_kept hp hh h).bind fun _ ⟨⟨_, hk⟩, hp1, hh1⟩ =>
      .ok (turned_table (hk.congr (.tlbInvalidate _ _ _) (Phys.tlbInvalidate_bytes _ _ _)) hp1 hh1)
  · obtain ⟨ha, hk⟩ := (h.fits hp).1 hh
    have hl := h.ledger
    rw [refs_huge hp hh] at hl
    refine (hl.decref ha hk).bind fun m1 ⟨alloc1, hl1, hs1, _⟩ => .ok ⟨(fun hp' => nomatch hp'), (fun hp' => nomatch hp'),
      fun _ => ⟨ext, alloc1, ?_⟩⟩
    have hacc1 : Acc keep ext alloc1 m1 ({ e with entry := 0 } : Pde) := ⟨by rwa [Sparse.refs (N := Pde) rfl, add_zero], nofun⟩
    have hk1 := hacc1.congr (.tlbInvalidate m1 info.pml4 (blockStart PAGE_TABLE_SPAN (first .pde c))) (Phys.tlbInvalidate_bytes m1 _ _)
    refine ⟨hk1.acc, fun _ => le_rfl, fun _ => rfl, hs1.trans hk1.spares, fun g hg => ?_⟩
    have hcov := hinfo c hc hcov
    have hg : g / 512 = c := hg
    rw [PageRel.at, if_pos ((Meets.mem_clip hg).2 (by omega))]
    rfl
  · exact Bool.eq_false_of_not_eq_true fun hh => hno ⟨hp, hh⟩

theorem remove_treatsPages (hinfo : info.Covers lo hi) : info.walker.TreatsPages lo hi keep .nothing lossy removeRel where
  hole := rfl
  pte := fun _ h _ => removePte_treats h
  pde := ⟨fun hc h _ => removePde_treats hc hinfo h, fun _ hp hh h _ => kept_treats (ptblFree_kept (holds_pde hp hh) hp h)⟩
  pdpte := levelTreats_idle (fun _ _ _ _ => rfl) (fun _ => rfl) fun hp h =>
    kept_treats (ptblFree_kept (holds_branch (by decide) hp) hp h)
  pml4e := levelTreats_idle (fun _ _ _ _ => rfl) (fun _ => rfl) fun hp h =>
    kept_treats (ptblFree_kept (holds_branch (by decide) hp) hp h)

end Remove

/-! ## Protecting -/

/-- The page with other permissions. -/
def PageState.protect (flags : PageFlags) (s : PageState) : PageState :=
  { s with write := flags.write, user := flags.user, noExec := flags.noExec }

theorem SamePage.protect {s s' : Option PageState} (h : SamePage lent s s') (flags : PageFlags) :
    SamePage lent (s.map (PageState.protect flags)) (s'.map (PageState.protect flags)) := by
  cases h with
  | none => exact .none
  | some h => exact .some ⟨rfl, rfl, rfl, h.bytes, h.ref⟩

/-- Pages in the range have the new permissions, or are no longer present. -/
def protectRel (flags : PageFlags) : PageRel Loan.nothing.frames where
  inside := fun _ s s' => if flags.present = true then SamePage ∅ (s.map (PageState.protect flags)) s' else s' = none
  outside := SamePage ∅
  same := id
  trans := SamePage.trans
  before := by
    intro g s s' s'' h h'
    split at h'
    · next hp =>
      rw [if_pos hp]
      exact (h.protect flags).trans h'
    · next hp => rwa [if_neg hp]
  after := by
    intro g s s' s'' h h'
    split at h
    · next hp =>
      rw [if_pos hp]
      exact h.trans h'
    · next hp =>
      subst h
      cases h'
      rw [if_neg hp]

theorem protectRel_none (flags : PageFlags) (g : Nat) : (protectRel flags).inside g none none := by
  show if _ then _ else _
  split
  · exact .none
  · rfl

/-- A leaf with other permissions: it is counted as before, and its pages have the permissions. -/
structure Relabels {N : Type} [Node N] (e e' : N) (flags : PageFlags) : Prop where
  refs : Node.refs e' = Node.refs e
  fits : ∀ {keep alloc m}, Node.Fits keep alloc m e → Node.Fits keep alloc m e'
  page : ∀ m g, Node.page m e' g = (Node.page m e g).map (PageState.protect flags)

/-- Entries and PDEs as nodes whose leaves can get other permissions, and whose huge pages can be split. -/
class ProtectNodes [Node Entry] [Node (Branch Entry)] : Prop extends PageNodes where
  entry : ∀ {e : Entry} {flags : PageFlags}, e.present = true → flags.present = true → Relabels e (e.protect flags) flags
  pde : ∀ {e : Pde} {flags : PageFlags}, e.entry.present = true → e.entry.huge = true → flags.present = true →
    Relabels e { e with entry := e.entry.protect flags } flags
  split : ∀ {keep ext alloc m} {e : Pde}, e.entry.present = true → e.entry.huge = true → Acc keep ext alloc m e →
    Ends Panics (ptblSplit m e) fun r => (∃ alloc', Kept keep ext alloc m e alloc' r.1 r.2) ∧ r.2.entry.present = true ∧
      r.2.entry.huge = false

theorem Entry.protect_umask (e : Entry) : e.protect e.umask = e := by
  simp [Entry.protect, Entry.umask]

section Protect

variable {info : ProtectInfo}

/-- A leaf that has the permissions already. -/
theorem relabelled_done [Node N] {e : N} (h : Acc keep ext alloc m e)
    (hr : Relabels e e flags) (hp : flags.present = true) (hpage : ∀ g, g / Node.pages N = c → a ≤ g ∧ g < b) :
    Done keep lossy (protectRel flags) c a b ext alloc m e m e ext alloc := by
  refine ⟨h, fun _ => le_rfl, fun _ => rfl, h.spares_refl, fun g hg => ?_⟩
  rw [PageRel.at, if_pos (hpage g hg)]
  show if _ then _ else _
  rw [if_pos hp, ← hr.page m g]
  exact .refl _ _

/-- Protecting a leaf, for what is counted: with `PROT_NONE` the reference of the entry is nobody's from then on. -/
theorem protect_done [Node N] [HasEntry N] [Sparse N] {e e' : N} {pml4 : Nat}
    (h : Acc keep ext alloc m e) (hpres : flags.present = true → Relabels e e' flags)
    (habs : flags.present = false → (HasEntry.entryOf e').present = false) (hpage : ∀ g, g / Node.pages N = c → a ≤ g ∧ g < b) :
    Treated keep (flags.present = false) (protectRel flags) c ext alloc m e a b (m.tlbInvalidate pml4 base, e') := by
  have hs : SameFrames m (m.tlbInvalidate pml4 base) := .tlbInvalidate m pml4 base
  have hb : (m.tlbInvalidate pml4 base).bytes = m.bytes := Phys.tlbInvalidate_bytes m pml4 base
  have hspares := (h.congr hs hb).spares
  by_cases hp : flags.present = true
  · have hr := hpres hp
    have hacc : Acc keep ext alloc m e' := ⟨hr.refs ▸ h.ledger, hr.fits h.fits⟩
    refine ⟨ext, alloc, ⟨(hacc.congr hs hb).acc, fun _ => le_rfl, fun _ => rfl, hspares, fun g hg => ?_⟩⟩
    rw [PageRel.at, if_pos (hpage g hg)]
    show if _ then _ else _
    rw [if_pos hp, ← hr.page m g]
    exact (hacc.congr hs hb).page g
  · have hp : flags.present = false := by simpa using hp
    have hp' := habs hp
    refine ⟨ext + Node.refs e, alloc, ⟨⟨?_, Sparse.fits hp'⟩, fun f => Nat.le_add_right _ _, fun hno => absurd hp hno, hspares,
      fun g hg => ?_⟩⟩
    · rw [Sparse.refs hp', add_zero]
      exact h.ledger.congr hs
    · rw [PageRel.at, if_pos (hpage g hg), Sparse.page hp']
      show if _ then _ else _
      rw [if_neg (by simp [hp])]

theorem exact_iff (hc : Meets .pde lo hi c) (hbase : info.base = pageAddr lo) (hlast : info.last = pageLast hi) :
    (first .pde c = info.base ∧ last .pde c = info.last) ↔ lo = c * 512 ∧ hi = c * 512 + 511 := by
  obtain ⟨hle, hlt, hfirst, _⟩ := hc
  simp only [pages] at hfirst
  have hblock := block_lt .pde (lt_of_le_of_lt hfirst hlt)
  simp only [pages, Nat.mul_div_cancel _ (show 0 < 512 by decide)] at hblock
  simp only [hbase, hlast, first, last, pages, pageLast, Nat.add_right_cancel_iff]
  rw [pageAddr_inj (lt_of_le_of_lt hfirst hlt) (lt_of_le_of_lt hle hlt), pageAddr_inj hblock hlt]
  omega

variable [Node Entry] [Node (Branch Entry)] [ProtectNodes]

theorem protectPte_treats [Sparse Entry] {e : Entry} (h : Acc keep ext alloc m e) :
    Treats Panics keep (info.flags.present = false) (protectRel info.flags) c c (c + 1) ext alloc m e (protectPte info base m e) := by
  refine .ite (fun ⟨hp, _⟩ => .ok ?_) fun hno => .ok ?_
  · exact protect_done h (ProtectNodes.entry hp) id fun _ => page_of_entry
  · by_cases hp : e.present = true
    · have hflags : e.umask = info.flags := by
        by_contra hne
        exact hno ⟨hp, hne⟩
      have hr : Relabels e (e.protect e.umask) e.umask := ProtectNodes.entry hp hp
      rw [Entry.protect_umask, hflags] at hr
      exact ⟨ext, alloc, relabelled_done h hr (by rw [← hflags]; exact hp) fun _ => page_of_entry⟩
    · exact ⟨ext, alloc, h.done_absent (Bool.eq_false_of_not_eq_true hp) (protectRel_none _)⟩

/-- Protecting at a PDE. -/
theorem protectPde_treats [Sparse (Branch Entry)] (hc : Meets .pde lo hi c) (hbase : info.base = pageAddr lo)
    (hlast : info.last = pageLast hi) {e : Pde} (h : Acc keep ext alloc m e) :
    Ends Panics (protectPde info (first .pde c) (last .pde c) m e) (Turned Panics (fun e => e.huge)
      (clipLo .pde lo c) (clipHi .pde hi c + 1)
      (Treated keep (info.flags.present = false) (protectRel info.flags) c ext alloc m e) fun _ m e => .ok (m, e)) := by
  refine .ite (fun hleaf => .ite (fun hex => ?_) fun _ => ?_) fun hno => .ok (turned_same h (protectRel_none _) fun hp => ?_)
  · obtain ⟨hh, hp⟩ := hleaf
    obtain ⟨hlo, hhi'⟩ := (exact_iff hc hbase hlast).1 hex
    have hin : ∀ g, g / Node.pages Pde = c → clipLo .pde lo c ≤ g ∧ g < clipHi .pde hi c + 1 := fun g hg => by
      rw [PageNodes.pages_pde] at hg
      have hg : g / 512 = c := hg
      exact (Meets.mem_clip hg).2 (by omega)
    refine .ite (fun hsame => .ok (turned_leaf hh (fun _ => rfl) ?_)) fun _ => .ok (turned_leaf ?_ (fun _ => rfl) ?_)
    · have hr : Relabels e { e with entry := e.entry.protect e.entry.umask } e.entry.umask := ProtectNodes.pde hp hh hp
      rw [Entry.protect_umask, hsame] at hr
      exact ⟨ext, alloc, relabelled_done h hr (by rw [← hsame]; exact hp) hin⟩
    · simp [Entry.protect, hh]
    · exact protect_done h (ProtectNodes.pde hp hh) id hin
  · refine (ProtectNodes.split hleaf.2 hleaf.1 h).bind fun _ hr => ?_
    obtain ⟨⟨_, hk⟩, hp1, hh1⟩ := hr
    exact .ok (turned_table (hk.congr (.tlbInvalidate _ _ _) (Phys.tlbInvalidate_bytes _ _ _)) hp1 hh1)
  · exact Bool.eq_false_of_not_eq_true fun hh => hno ⟨hh, hp⟩

theorem protect_treatsPages [Sparse Entry] [Sparse (Branch Entry)] (info : ProtectInfo) (hbase : info.base = pageAddr lo)
    (hlast : info.last = pageLast hi) :
    info.walker.TreatsPages lo hi keep .nothing (info.flags.present = false) (protectRel info.flags) where
  hole := rfl
  pte := fun _ h _ => protectPte_treats h
  pde := ⟨fun hc h _ => protectPde_treats hc hbase hlast h, fun _ _ _ h _ => h.treats_refl⟩
  pdpte := levelTreats_idle (fun _ _ _ _ => rfl) (protectRel_none _) fun _ h => h.treats_refl
  pml4e := levelTreats_idle (fun _ _ _ _ => rfl) (protectRel_none _) fun _ h => h.treats_refl

end Protect

instance : ProtectNodes where
  entry := fun {e flags} hp hpres => by
    refine ⟨?_, fun h _ => h hp, fun m g => ?_⟩
    · rw [refs_entry hp, refs_entry (e := e.protect flags) hpres]
      rfl
    · rw [page_entry hp, page_entry (e := e.protect flags) hpres]
      rfl
  pde := fun {e flags} hp hh hpres => by
    have hh1 : (e.entry.protect flags).huge = true := by simp [Entry.protect, hh]
    refine ⟨?_, fun h _ => ⟨fun _ => (h hp).1 hh, fun hh' => ?_⟩, fun m g => ?_⟩
    · rw [refs_huge hp hh, refs_huge (e := { e with entry := e.entry.protect flags }) hpres hh1]
      rfl
    · rw [hh1] at hh'
      cases hh'
    · rw [page_huge hp hh, page_huge (e := { e with entry := e.entry.protect flags }) hpres hh1]
      rfl
  split := ptblSplit_kept

/-! ## Populating -/

/-- The page has the permissions of the flags. -/
def PageState.Has (s : PageState) (flags : PageFlags) : Prop :=
  s.write = flags.write ∧ s.user = flags.user ∧ s.noExec = flags.noExec

/-- A shared page is replaced by a copy of its own, with new permissions. -/
structure PageState.Copied (flags : PageFlags) (s s' : PageState) : Prop where
  shared : 1 < s.ref
  ref : s'.ref ≤ 1
  bytes : s'.bytes = s.bytes
  has : s'.Has flags

/-- A page that is there and belongs to nobody else stays as it is. -/
structure PageState.Private (s s' : PageState) : Prop extends PageState.Le ∅ s s' where
  alone : s'.ref ≤ 1

/-- A page in the range: filled with zeros where there was none, copied where it was shared, and otherwise left alone. -/
inductive Populated (flags : PageFlags) : Option PageState → Option PageState → Prop
  | fresh {s' : PageState} (hf : s'.Has flags) (hz : s'.bytes = fun _ => 0) (hr : s'.ref ≤ 1) : Populated flags none (some s')
  | copied {s s' : PageState} (h : s.Copied flags s') : Populated flags (some s) (some s')
  | same {s s' : PageState} (h : s.Private s') : Populated flags (some s) (some s')

/-- A page outside the range: left alone, or copied with the huge page that it is a part of. -/
inductive PopulatedBeside (flags : PageFlags) : Option PageState → Option PageState → Prop
  | same {s s' : Option PageState} (h : SamePage ∅ s s') : PopulatedBeside flags s s'
  | copied {s s' : PageState} (h : s.Copied flags s') : PopulatedBeside flags (some s) (some s')

theorem PageState.Has.le {s s' : PageState} (h : s.Has flags) (hle : s.Le lent s') :
    s'.Has flags := ⟨hle.write.trans h.1, hle.user.trans h.2.1, hle.noExec.trans h.2.2⟩

namespace PageState.Copied

variable {s s' s'' : PageState}

theorem before (h : s.Le ∅ s') (h' : s'.Copied flags s'') : s.Copied flags s'' :=
  ⟨lt_of_lt_of_le h'.shared (h.ref rfl), h'.ref, h'.bytes.trans h.bytes, h'.has⟩

theorem after (h : s.Copied flags s') (h' : s'.Le ∅ s'') : s.Copied flags s'' :=
  ⟨h.shared, le_trans (h'.ref rfl) h.ref, h'.bytes.trans h.bytes, h.has.le h'⟩

/-- What is copied once belongs to nobody else, and is not copied again. -/
theorem not_again (h : s.Copied flags s') (h' : s'.Copied flags s'') : False :=
  absurd h'.shared (not_lt.2 h.ref)

end PageState.Copied

/-- What populating makes of the pages. -/
def populateRel (flags : PageFlags) : PageRel Loan.nothing.frames where
  inside := fun _ => Populated flags
  outside := PopulatedBeside flags
  same := .same
  trans := by
    intro s s' s'' h h'
    cases h with
    | same h =>
      cases h' with
      | same h' => exact .same (h.trans h')
      | copied h' =>
        cases h with
        | some h => exact .copied (.before h h')
    | copied h =>
      cases h' with
      | same h' =>
        cases h' with
        | some h' => exact .copied (h.after h')
      | copied h' => exact (h.not_again h').elim
  before := by
    intro g s s' s'' h h'
    cases h with
    | same h =>
      cases h with
      | none => exact h'
      | some h =>
        cases h' with
        | copied h' => exact .copied (.before h h')
        | same h' =>
          refine .same ⟨⟨h'.write.trans h.write, h'.user.trans h.user, h'.noExec.trans h.noExec, h'.bytes.trans h.bytes, ?_⟩,
            h'.alone⟩
          exact fun hl => le_trans (h'.ref hl) (h.ref hl)
    | copied h =>
      cases h' with
      | copied h' => exact (h.not_again h').elim
      | same h' => exact .copied (h.after h'.toLe)
  after := by
    intro g s s' s'' h h'
    cases h with
    | fresh hf hz hr =>
      cases h' with
      | same h' =>
        cases h' with
        | some h' => exact .fresh (hf.le h') (h'.bytes.trans hz) (le_trans (h'.ref rfl) hr)
      | copied h' => exact absurd h'.shared (not_lt.2 hr)
    | copied h =>
      cases h' with
      | same h' =>
        cases h' with
        | some h' => exact .copied (h.after h')
      | copied h' => exact (h.not_again h').elim
    | same h =>
      cases h' with
      | same h' =>
        cases h' with
        | some h' =>
          refine .same ⟨⟨h'.write.trans h.write, h'.user.trans h.user, h'.noExec.trans h.noExec, h'.bytes.trans h.bytes, ?_⟩,
            le_trans (h'.ref rfl) h.alone⟩
          exact fun hl => le_trans (h'.ref hl) (h.ref hl)
      | copied h' => exact absurd h'.shared (not_lt.2 h.alone)

section Populate

variable {info : PopulateInfo} {e : Entry}

theorem tlbInvalidateCur_same (m : Phys) (va : Nat) :
    Ends Panics (m.tlbInvalidateCur va) fun m' => SameFrames m m' ∧ m'.bytes = m.bytes := by
  unfold Phys.tlbInvalidateCur
  split
  · exact .error nofun
  · exact .ok ⟨.tlbInvalidate _ _ _, Phys.tlbInvalidate_bytes _ _ _⟩

/-- An entry that is present has a reference, so it is shared or it is alone. -/
theorem Acc.ref_pos (h : Acc keep ext alloc m e) (hp : e.present = true) : 0 < (m.pages e.frame).ppRef := by
  rw [h.ledger.counted, refs_entry hp]
  simp

/-- Populating at a PTE. -/
theorem populatePte_treats (h : Acc keep ext alloc m e) :
    Treats Panics keep lossy (populateRel info.flags) c c (c + 1) ext alloc m e (populatePte info base m e) := by
  refine .ite (fun ⟨hp, hshared⟩ => ?_) fun hns => .ite (fun ⟨hp, hone⟩ => .ok ?_) fun hno => ?_
  · obtain ⟨ha, hk⟩ := h.fits hp
    have hl := h.ledger
    rw [refs_entry hp] at hl
    refine hl.copyPage (by decide) ha hk (fun _ _ => rfl) fun p alloc1 m0 hc => ?_
    let m1 := m0.copyFrames p e.frame 1
    refine (tlbInvalidateCur_same (m1.track p base) base).bind fun m2 ⟨hs2, hb2⟩ => .ok ⟨ext, alloc1, ?_⟩
    have hacc1 : Acc keep ext alloc1 m1 (PageFlags.entry { info.flags with present := true } p) :=
      ⟨by rw [refs_entry rfl]; exact hc.ledger, fun _ => ⟨hc.taken, hc.keep_none⟩⟩
    have hk2 := hacc1.congr ((SameFrames.track m1 p base).trans hs2) hb2
    refine ⟨hk2.acc, fun _ => le_rfl, fun _ => rfl, hc.spares.trans hk2.spares, fun g hg => ?_⟩
    rw [PageRel.at, if_pos (page_of_entry hg), page_entry hp, page_entry rfl]
    refine .copied ⟨hshared, ?_, ?_, rfl, rfl, rfl⟩
    · exact le_of_eq (((hc.ledger.congr (.track m1 p base)).congr hs2).ref_one hc.idle)
    · exact (congrFun hb2 p).trans (hc.bytes 0 (Nat.two_pow_pos _))
  · refine ⟨ext, alloc, ⟨h, fun _ => le_rfl, fun _ => rfl, h.spares_refl, fun g hg => ?_⟩⟩
    rw [PageRel.at, if_pos (page_of_entry hg), page_entry hp]
    exact .same ⟨⟨rfl, rfl, rfl, rfl, fun _ => le_rfl⟩, le_of_eq hone⟩
  · have hp : e.present = false := by
      by_contra hp
      have hp : e.present = true := by simpa using hp
      have hpos := h.ref_pos hp
      have h1 : ¬(m.pages e.frame).ppRef > 1 := fun hr => hns ⟨hp, hr⟩
      exact hno ⟨hp, by omega⟩
    have hl := h.ledger
    rw [Sparse.refs (N := Entry) hp, add_zero] at hl
    refine hl.newPage (by decide) (fun _ _ => rfl) fun p m1 hn =>
      .ok ⟨ext, update alloc p (some BUDDY_4K_PAGE), ?_⟩
    have hacc1 : Acc keep ext (update alloc p (some BUDDY_4K_PAGE)) m1 (PageFlags.entry { info.flags with present := true } p) :=
      ⟨by rw [refs_entry rfl]; exact hn.ledger, fun _ => ⟨update_self _ _ _, hn.keep_none⟩⟩
    have hk2 := hacc1.congr (.track m1 p base) rfl
    refine ⟨hk2.acc, fun _ => le_rfl, fun _ => rfl, hn.spares.trans hk2.spares, fun g hg => ?_⟩
    rw [PageRel.at, if_pos (page_of_entry hg), Sparse.page (N := Entry) hp, page_entry rfl]
    refine .fresh ⟨rfl, rfl, rfl⟩ (hn.zero p (head_mem_blockSet _ _)) ?_
    exact le_of_eq ((hn.ledger.congr (.track m1 p base)).ref_one hn.idle)

theorem huge_post {e e1 : Pde} {m1 : Phys} (hh : e1.entry.huge = true)
    (h : Treated keep lossy R c ext alloc m e a b (m1, e1)) :
    Turned Panics (fun e => e.huge) a b (Treated keep lossy R c ext alloc m e) (fun _ => ptblMerge base) (m1, e1) :=
  turned_leaf hh (fun _ => ptblMerge_huge base hh) h

theorem Acc.huge (e : Pde) (flags : PageFlags) {p : Nat} (hp : flags.present = true) (hh : flags.huge = true)
    (hl : Ledger keep (ext + Pi.single p 1) alloc m) (ha : alloc p = some BUDDY_2M_PAGE) (hk : keep p = none) :
    Acc keep ext alloc m ({ e with entry := flags.entry p } : Pde) := by
  refine ⟨by rw [refs_huge hp hh]; exact hl, fun _ => ⟨fun _ => ⟨ha, hk⟩, fun hh' => ?_⟩⟩
  rw [show (flags.entry p).huge = true from hh] at hh'
  cases hh'

/-- Populating at a PDE. -/
theorem populatePde_treats (hc : Meets .pde lo hi c) (hbase : info.base = pageAddr lo) (hlast : info.last = pageLast hi)
    {e : Pde} (h : Acc keep ext alloc m e) :
    Ends Panics (populatePde info (first .pde c) (last .pde c) m e) (Turned Panics (fun e => e.huge)
      (clipLo .pde lo c) (clipHi .pde hi c + 1) (Treated keep lossy (populateRel info.flags) c ext alloc m e)
      fun _ => ptblMerge (first .pde c)) := by
  have hmod : ∀ g, g % PAGE_TABLE_ENTRIES < 2 ^ BUDDY_2M_PAGE := fun g => Nat.mod_lt _ (by decide)
  refine .ite (fun hcopied => ?_) fun hns => .ite (fun hown => ?_) fun hno => ?_
  · obtain ⟨hp, hh, hshared⟩ := hcopied
    obtain ⟨ha, hk⟩ := (h.fits hp).1 hh
    have hl := h.ledger
    rw [refs_huge hp hh] at hl
    refine hl.copyPage (by decide) ha hk (fun _ _ => rfl) fun p alloc1 m0 hcopy => ?_
    let m1 := m0.copyFrames p e.entry.frame PAGE_TABLE_ENTRIES
    refine (tlbInvalidateCur_same m1 _).bind fun m2 hm2 => .ok (huge_post rfl ⟨ext, alloc1, ?_⟩)
    obtain ⟨hs2, hb2⟩ := hm2
    have hk2 := (Acc.huge e { info.flags with present := true, huge := true } rfl rfl hcopy.ledger
      hcopy.taken hcopy.keep_none).congr hs2 hb2
    have hcopied : ∀ g, PageState.Copied info.flags (e.entry.state m (e.entry.frame + g % PAGE_TABLE_ENTRIES))
        (Entry.state m2 (PageFlags.entry { info.flags with present := true, huge := true } p) (p + g % PAGE_TABLE_ENTRIES)) := by
      refine fun g => ⟨hshared, ?_, ?_, rfl, rfl, rfl⟩
      · exact le_of_eq ((hcopy.ledger.congr hs2).ref_one hcopy.idle)
      · exact (congrFun hb2 _).trans (hcopy.bytes _ (hmod g))
    refine ⟨hk2.acc, fun _ => le_rfl, fun _ => rfl, hcopy.spares.trans hk2.spares, fun g hg => ?_⟩
    rw [page_huge hp hh, page_huge rfl rfl, PageRel.at]
    split
    · exact .copied (hcopied g)
    · exact .copied (hcopied g)
  · obtain ⟨hp, hone⟩ := hown
    refine .ok ?_
    by_cases hh : e.entry.huge = true
    · refine huge_post hh ⟨ext, alloc, ⟨h, fun _ => le_rfl, fun _ => rfl, h.spares_refl, fun g hg => ?_⟩⟩
      rw [page_huge hp hh, PageRel.at]
      split
      · exact .same ⟨⟨rfl, rfl, rfl, rfl, fun _ => le_rfl⟩, le_of_eq hone⟩
      · exact .same (.refl _ _)
    · exact turned_table (.refl h) hp (by simpa using hh)
  · have hp : e.entry.present = false := by
      by_contra hp
      have hp : e.entry.present = true := by simpa using hp
      have h1 : ¬(m.pages e.entry.frame).ppRef = 1 := fun hr => hno ⟨hp, hr⟩
      by_cases hh : e.entry.huge = true
      · have hpos : 0 < (m.pages e.entry.frame).ppRef := by
          rw [h.ledger.counted, refs_huge hp hh]
          simp
        exact hns ⟨hp, hh, by omega⟩
      · exact h1 ((h.fits hp).2 (by simpa using hh)).1.2.2
    refine .ite (fun hcov => ?_) fun _ => ?_
    · have hcov := (covers_iff hc).1 (by rwa [← hbase, ← hlast])
      have hl := h.ledger
      rw [Sparse.refs (N := Pde) hp, add_zero] at hl
      refine hl.newPage (by decide) (fun _ _ => rfl) fun p m1 hn =>
        .ok (huge_post rfl ⟨ext, update alloc p (some BUDDY_2M_PAGE), ?_⟩)
      have hacc1 := Acc.huge e { info.flags with present := true, huge := true } rfl rfl hn.ledger
        (update_self _ _ _) hn.keep_none
      refine ⟨hacc1, fun _ => le_rfl, fun _ => rfl, hn.spares, fun g hg => ?_⟩
      have hg : g / 512 = c := hg
      rw [PageRel.at, if_pos ((Meets.mem_clip hg).2 (by omega)), Sparse.page (N := Pde) hp, page_huge rfl rfl]
      refine .fresh ⟨rfl, rfl, rfl⟩ (hn.zero _ ⟨Nat.le_add_right _ _, Nat.add_lt_add_left (hmod g) _⟩) ?_
      exact le_of_eq (hn.ledger.ref_one hn.idle)
    · rw [ptblSplit, if_pos (.inl hp)]
      refine (ptblAlloc_kept rfl (fun _ => holds_pde rfl rfl) h).mono fun r hr => ?_
      obtain ⟨⟨_, hk⟩, hp1, _, hh1⟩ := hr
      exact turned_table hk hp1 (hh1 hp)

theorem populate_treatsPages (info : PopulateInfo) (hbase : info.base = pageAddr lo) (hlast : info.last = pageLast hi) :
    info.walker.TreatsPages lo hi keep .nothing lossy (populateRel info.flags) where
  hole := rfl
  pte := fun _ h _ => populatePte_treats h
  pde := ⟨fun hc h _ => populatePde_treats hc hbase hlast h, fun _ _ _ h _ => kept_treats (ptblMerge_kept _ h)⟩
  pdpte := levelTreats_alloc rfl (fun _ => holds_branch (by decide) rfl) fun _ _ _ _ => rfl
  pml4e := levelTreats_alloc rfl (fun _ => holds_branch (by decide) rfl) fun _ _ _ _ => rfl

end Populate

end OpenLsd
