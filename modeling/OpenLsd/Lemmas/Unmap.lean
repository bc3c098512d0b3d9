import OpenLsd.Lemmas.LeafCount
import OpenLsd.Lemmas.Moves

/-!
# Unmapping a range

What `unmap_page_range` does to a page table of which both halves are counted. The pages of the range are gone and the others
are as before, the walk stops only when there is no memory for a split, and it leaves no table without an entry behind.
-/

namespace OpenLsd

open Outcome Function Level

variable {bad : Stop → Prop} {σ : Type} {w : Walker σ}

/-! ## Pages of both halves -/

section Pages

variable {m : Phys} {t : Pml4} {g : Nat}

/-- The page by the entry that maps it. -/
theorem page_translate (m : Phys) (t : Pml4) (g : Nat) :
    Node.page m (FullTable.mk t) g = (translatePage t g).map fun x => leafState m g (x.1.pde, x.2) := by
  show Node.page m (t (g / 134217728 % 512)) g = _
  rw [translatePage]
  generalize t (g / 134217728 % 512) = pml4e
  show (if pml4e.entry.present = true then Node.page m (pml4e.child (g / 262144 % 512)) g else none) = _
  rw [pml4eView]
  split
  · generalize pml4e.child (g / 262144 % 512) = pdpte
    show (if pdpte.entry.present = true then Node.page m (pdpte.child (g / 512 % 512)) g else none) = _
    rw [pdpteView]
    split
    · generalize pdpte.child (g / 512 % 512) = pde
      show (if pde.entry.present = true then
          if pde.entry.huge = true then some (pde.entry.state m (pde.entry.frame + g % 512))
          else if (pde.child (g % 512)).present = true then some ((pde.child (g % 512)).state m (pde.child (g % 512)).frame)
            else none
        else none) = _
      rw [pdeView, pteView]
      split
      · split
        · rfl
        · split <;> rfl
      · rfl
    · rfl
  · rfl

end Pages

/-! ## The walk -/

section Range

variable {keep : Orders} {ext : Nat → Nat} {alloc : Orders} {m : Phys} {t : Pml4} {pml4 va size hi : Nat}

/-- The range has the pages from that of its address up to `hi`. -/
structure PageSpan (va size hi : Nat) : Prop where
  canonical : Canonical va
  aligned : pageAligned va
  pos : 0 < size
  last : hi = pageNo va + (size - 1) / PAGE_SIZE
  lt : hi < NPAGES

theorem PageSpan.le (h : PageSpan va size hi) : pageNo va ≤ hi := h.last ▸ Nat.le_add_right _ _

/-- Only blocks that lie in the range are taken for whole ones. At the top of the address space the end of the range wraps to
0, and no block is. -/
theorem covers_size (h : PageSpan va size hi) :
    RemoveInfo.Covers { pml4 := pml4, baseRemove := va, endRemove := add64 va size } (pageNo va) hi := by
  intro c hc hno
  have hfirst : c * 512 < NPAGES := lt_of_le_of_lt hc.first hc.lt
  have hend := block_lt .pde hfirst
  have hlast := hc.last
  simp only [pages, Nat.mul_div_cancel _ (show 0 < 512 by decide)] at hend hlast
  have haddr : pageAddr (pageNo va) = va := by
    rw [pageAddr_pageNo h.canonical]
    exact Nat.div_mul_cancel (Nat.dvd_of_mod_eq_zero h.aligned)
  have hle := h.le
  have hh := h.last
  simp only [first, last, pages, not_or, not_lt, Nat.add_one_sub_one] at hno
  have h1 := pageAddr_lt_iff hfirst (pageNo_lt va)
  rw [haddr] at h1
  refine ⟨by omega, not_lt.1 fun hlt => ?_⟩
  have hnext : hi + 1 < NPAGES := by omega
  have hmono := pageAddr_le (show hi + 1 ≤ c * 512 + 511 by omega) hend
  have hsum : va + size ≤ pageAddr (hi + 1) := by
    have hgo := haddr
    rcases lt_or_ge (pageNo va) (2 ^ 35) with hu | hk
    · rw [pageAddr_user hu] at hgo
      have hbase : (hi + 1) * 4096 ≤ pageAddr (hi + 1) := by
        rcases lt_or_ge (hi + 1) (2 ^ 35) with hu' | hk'
        · rw [pageAddr_user hu']
        · rw [pageAddr_kernel hk' hnext]
          exact Nat.le_add_right _ _
      simp only [PAGE_SIZE] at hh
      omega
    · rw [pageAddr_kernel hk (pageNo_lt va)] at hgo
      rw [pageAddr_kernel (by omega) hnext]
      simp only [PAGE_SIZE] at hh
      omega
  have hadd : add64 va size ≤ va + size := Nat.mod_le _ _
  rw [pageLast] at hno
  simp only [PAGE_SIZE] at hno
  omega

theorem PageSpan.walkPageRange {σ : Type} (w : Walker σ) (h : PageSpan va size hi) :
    w.walkPageRange va (add64 va size) = w.pageWalk (pageNo va) hi := by
  have hmod : va % PAGE_SIZE = 0 := h.aligned
  have hlast : hi = pageNo va + (va % PAGE_SIZE + size - 1) / PAGE_SIZE := by rw [hmod, Nat.zero_add, h.last]
  exact w.walkPageRange_size h.canonical h.pos hlast h.lt

theorem unmapPageRange_eq (h : PageSpan va size hi) : unmapPageRange pml4 m t va size =
      (RemoveInfo.walker { pml4 := pml4, baseRemove := va, endRemove := add64 va size }).pageWalk (pageNo va) hi m t := by
  rw [unmapPageRange, h.walkPageRange]

/-- Unmapping a range in a page table of which both halves are counted. -/
theorem unmapPageRange_done (pml4 : Nat) (hs : PageSpan va size hi) (h : Acc keep ext alloc m (FullTable.mk t)) :
    Ends Panics (unmapPageRange pml4 m t va size) fun r => ∃ alloc',
      Done keep False removeRel 0 (pageNo va) (hi + 1) ext alloc m (FullTable.mk t) r.1 (FullTable.mk r.2) ext alloc' := by
  rw [unmapPageRange_eq hs]
  have hw : (RemoveInfo.walker { pml4 := pml4, baseRemove := va, endRemove := add64 va size }).TreatsPages (pageNo va) hi keep
    .nothing False removeRel := remove_treatsPages (covers_size hs)
  refine (hw.pageWalk_full hs.le hs.lt h given_nothing).mono ?_
  rintro r ⟨ext', alloc', hdone⟩
  obtain rfl := hdone.ext_eq id
  exact ⟨alloc', hdone⟩

end Range

/-! ## Why the walk stops -/

/-- A reason that is not about memory: neither that there is none, nor a failed assertion or a count that runs over. -/
def Stray (s : Stop) : Prop := s ≠ .oom ∧ ¬Panics s

/-- The callbacks of a walker stop for no bad reason. -/
structure Walker.Stops {σ : Type} (w : Walker σ) (bad : Stop → Prop) : Prop where
  hole : w.ptHoleCallback = fun _ _ s => .ok s
  pte : ∀ a b s e, Ends bad (w.pteCallback a b s e) fun _ => True
  pde : ∀ a b s e, Ends bad (w.pdeCallback a b s e) fun _ => True
  pdeUnmap : ∀ a b s e, Ends bad (w.pdeUnmap a b s e) fun _ => True
  pdpte : ∀ a b s e, Ends bad (w.pdpteCallback a b s e) fun _ => True
  pdpteUnmap : ∀ a b s e, Ends bad (w.pdpteUnmap a b s e) fun _ => True
  pml4e : ∀ a b s e, Ends bad (w.pml4eCallback a b s e) fun _ => True
  pml4eUnmap : ∀ a b s e, Ends bad (w.pml4eUnmap a b s e) fun _ => True

/-- Nothing is said about the nodes. -/
def PageTrack.any (σ N : Type) : PageTrack σ N where
  inv := fun _ _ => True
  rel := fun _ _ _ _ _ _ => True
  refl := fun _ => trivial
  trans := fun _ _ _ _ => trivial
  keeps := fun _ _ => trivial

theorem PageTrack.any_lifts {N : Type} (l : Level) (d : Nat) : PageLifts l d (any σ N) (any σ (Nat → N)) :=
  ⟨fun _ => trivial, fun _ _ _ _ _ => trivial⟩

theorem Walker.Stops.tracked (h : w.Stops bad) (lo hi : Nat) :
    w.PageTracked bad lo hi (fun _ => .any σ Entry) (fun _ => .any σ Pde) (fun _ => .any σ Pdpte) (fun _ => .any σ Pml4e) where
  hole := h.hole
  pte := fun _ _ s e _ => h.pte _ _ s e
  pde := ⟨fun _ _ s e _ => (h.pde _ _ s e).mono fun r _ => ⟨fun _ _ _ => h.pdeUnmap _ _ r.1 r.2, fun _ _ => trivial, fun _ => trivial⟩,
    fun _ _ _ s e _ _ _ => h.pdeUnmap _ _ s e, fun _ _ _ _ _ => PageTrack.any_lifts _ _⟩
  pdpte := ⟨fun _ _ s e _ => (h.pdpte _ _ s e).mono fun _ _ => ⟨nofun, fun _ _ => trivial, fun _ => trivial⟩,
    fun _ _ _ s e _ _ _ => h.pdpteUnmap _ _ s e, fun _ _ _ _ _ => PageTrack.any_lifts _ _⟩
  pml4e := ⟨fun _ _ s e _ => (h.pml4e _ _ s e).mono fun _ _ => ⟨nofun, fun _ _ => trivial, fun _ => trivial⟩,
    fun _ _ _ s e _ _ _ => h.pml4eUnmap _ _ s e, fun _ _ _ _ _ => PageTrack.any_lifts _ _⟩

theorem Walker.Stops.pageWalk (h : w.Stops bad) {lo hi : Nat} (hle : lo ≤ hi)
    (hhi : hi < NPAGES) (s : σ) (t : Pml4) : Ends bad (w.pageWalk lo hi s t) fun _ => True :=
  (h.tracked lo hi).pageWalk hle hhi (fun _ _ => PageTrack.any_lifts _ _) trivial

section Stray

variable (m : Phys) (f : Nat) {C : Type}

theorem allocPage_stray : Ends Stray (m.allocPage f) fun _ => True := by
  unfold Phys.allocPage
  split
  · exact .ok trivial
  · exact .error fun h => h.1 rfl

theorem incRef_stray : Ends Stray (m.incRef f) fun _ => True := .ite (fun _ => .ok trivial) fun _ => .error fun h => h.2 (.inr rfl)

theorem decref_stray : Ends Stray (m.decref f) fun _ => True := by
  unfold Phys.decref
  split
  · exact .ok trivial
  · exact .error fun h => h.2 (.inl rfl)

theorem ptblAlloc_stray [Zero C] (e : Branch C) : Ends Stray (ptblAlloc m e) fun _ => True :=
  .ite (fun _ => .ok trivial) fun _ => (allocPage_stray _ _).bind fun _ _ => (incRef_stray _ _).bind fun _ _ => .ok trivial

theorem splitEntry_stray (static : Bool) (hugePage : Nat) (flags : PageFlags) (i : Nat) (s : Phys × (Nat → Entry)) :
    Ends Stray (splitEntry static hugePage flags i s) fun _ => True :=
  .ite (fun _ => .ok trivial) fun _ => (allocPage_stray _ _).bind fun _ _ => .ok trivial

theorem ptblSplit_stray (e : Pde) : Ends Stray (ptblSplit m e) fun _ => True := by
  refine .ite (fun _ => ptblAlloc_stray m e) fun _ => (allocPage_stray _ _).bind fun _ _ => (incRef_stray _ _).bind fun _ _ => ?_
  refine (forRange_rule (I := fun _ _ => True) (fun _ s _ _ _ => splitEntry_stray _ _ _ _ s) trivial).bind fun _ _ => ?_
  exact .ite (fun _ => .ok trivial) fun _ => (decref_stray _ _).bind fun _ _ => .ok trivial

theorem ptblFree_stray [HasEntry C] (e : Branch C) : Ends Stray (ptblFree m e) fun _ => True :=
  .ite (fun _ => .ok trivial) fun _ => .ite (fun _ => .ok trivial) fun _ => (decref_stray _ _).bind fun _ _ => .ok trivial

theorem remove_stops (info : RemoveInfo) : info.walker.Stops Stray where
  hole := rfl
  pte := fun _ _ _ _ => .ite (fun _ => (decref_stray _ _).bind fun _ _ => .ok trivial) fun _ => .ok trivial
  pde := fun _ _ m e => .ite
    (fun _ => .ite (fun _ => (ptblSplit_stray m e).bind fun _ _ => .ok trivial) fun _ =>
      (decref_stray _ _).bind fun _ _ => .ok trivial)
    fun _ => .ok trivial
  pdeUnmap := fun _ _ m e => ptblFree_stray m e
  pdpte := fun _ _ _ _ => .ok trivial
  pdpteUnmap := fun _ _ m e => ptblFree_stray m e
  pml4e := fun _ _ _ _ => .ok trivial
  pml4eUnmap := fun _ _ m e => ptblFree_stray m e

/-- What does not panic stops only when there is no memory. -/
theorem ends_oom {A : Type} {x : Kernel A} {post : A → Prop} (h : Ends Panics x post) (hs : Ends Stray x fun _ => True) :
    Ends (fun s => s ≠ .oom) x post := by
  refine ((h.or hs).mono fun _ hr => hr.1).weaken fun s hne => ?_
  by_cases hp : Panics s
  · exact .inl hp
  · exact .inr ⟨hne, hp⟩

end Stray

/-! ## Tables that are used -/

/-- A table that the entry refers to has an entry that is present. -/
def Branch.Used {C : Type} [HasEntry C] (e : Branch C) : Prop :=
  e.entry.present = true → ∃ i < PAGE_TABLE_ENTRIES, (HasEntry.entryOf (e.child i)).present = true

/-- The tables on the way to the page with the number `g` are used, from the entry on. -/
def pdeUsed (e : Pde) : Prop := e.entry.huge = false → e.Used
def pdpteUsed (g : Nat) (e : Pdpte) : Prop := e.Used ∧ (e.entry.present = true → pdeUsed (e.child (g / 512 % 512)))
def pml4eUsed (g : Nat) (e : Pml4e) : Prop := e.Used ∧ (e.entry.present = true → pdpteUsed g (e.child (g / 262144 % 512)))

/-- No table without a present entry is on the way to the page with the number `g`. -/
def TablesUsed (t : Pml4) (g : Nat) : Prop := pml4eUsed g (t (g / 134217728 % 512))

section Sweep

variable {σ N : Type} {f : Nat → σ → N → Kernel (σ × N)} {P : Nat → N → Prop}

/-- What each turn of a sweep leaves of its entry is left of the table. -/
theorem sweep_each (n : Nat) :
    ∀ (c : Nat) (s : σ) (t : Nat → N), n ≤ 512 →
      (∀ d, c ≤ d → d < c + n → ∀ s e, Yields (f d s e) fun r => P d r.2) →
      Yields (sweep f n c s t) fun r => (∀ d, c ≤ d → d < c + n → P d (r.2 (d % 512))) ∧
        ∀ i, (∀ d, c ≤ d → d < c + n → d % 512 ≠ i) → r.2 i = t i := by
  induction n with
  | zero => exact fun c s t _ _ => .ok ⟨fun d hge hlt => by omega, fun _ _ => rfl⟩
  | succ n ih =>
    intro c s t hn hf
    refine (hf c le_rfl (by omega) s (t (c % 512))).bind fun r hr => ?_
    refine (ih (c + 1) r.1 (update t (c % 512) r.2) (by omega) fun d hge hlt => hf d (by omega) (by omega)).mono
      fun r' ⟨hall, hrest⟩ => ⟨fun d hge hlt => ?_, fun i hi => ?_⟩
    · by_cases hd : d = c
      · rw [hd, hrest (c % 512) (fun d hge hlt => by omega), update_self]
        exact hr
      · exact hall d (by omega) (by omega)
    · rw [hrest i fun d hge hlt => hi d (by omega) (by omega), update_of_ne (hi c le_rfl (by omega)).symm]

theorem sweepPages_each {l : Level} {lo hi : Nat} (hn : hi / l.pages - lo / l.pages < 512)
    (hf : ∀ d, lo / l.pages ≤ d → d ≤ hi / l.pages → ∀ s e, Yields (f d s e) fun r => P d r.2) (s : σ) (t : Nat → N) :
    Yields (sweepPages l f lo hi s t) fun r =>
      ∀ d, lo / l.pages ≤ d → d ≤ hi / l.pages → P d (r.2 (d % 512)) := by
  unfold sweepPages
  by_cases hle : lo / l.pages ≤ hi / l.pages
  · exact (sweep_each _ _ s t (by omega) fun d hge hlt => hf d hge (by omega)).mono fun r hr d hge hle' => hr.1 d hge (by omega)
  · exact (Ends.trivial _).mono fun r _ d hge hle' => by omega

variable {C : Type} [HasEntry C] {leaf : Entry → Bool} {callback hole : Phys → Branch C → Kernel (Phys × Branch C)}
  {walk : Phys → (Nat → C) → Kernel (Phys × (Nat → C))} {m : Phys} {e : Branch C}
  (hcallback : Yields (callback m e) fun r => r.2.entry.present = true → leaf r.2.entry = false)
  (hhole : hole = fun m e => .ok (m, e))

include hcallback hhole

/-- After a turn a table that is left is used, and what the walk below left of it is there. -/
theorem branchTurn_used {P : (Nat → C) → Prop} (hwalk : ∀ m t, Yields (walk m t) fun r => P r.2) :
    Yields (branchTurn leaf callback ptblFree hole walk m e) fun r =>
      r.2.Used ∧ (r.2.entry.present = true → P r.2.child) := by
  refine hcallback.bind fun ⟨m1, e1⟩ hleaf => ?_
  refine .ite (fun hp => .ite (fun hl => ?_) fun _ => ?_) fun hp => ?_
  · exact absurd ((hleaf hp).symm.trans hl) Bool.false_ne_true
  · refine (hwalk m1 e1.child).bind fun ⟨m2, t⟩ ht => ?_
    refine .ite (fun hno => ?_) fun _ => .ite (fun hsome => .ok ⟨fun _ => hsome, fun _ => ht⟩) fun _ =>
      .skip fun _ => .ok ⟨nofun, nofun⟩
    exact absurd (hno.2.symm.trans hp) Bool.false_ne_true
  · rw [hhole]
    exact .ok ⟨fun h => absurd h hp, fun h => absurd h hp⟩

theorem branchTurn_clears (hwalk : ∀ m t, Yields (walk m t) fun r => ∀ i < 512, (HasEntry.entryOf (r.2 i)).present = false) :
    Yields (branchTurn leaf callback ptblFree hole walk m e) fun r => r.2.entry.present = false := by
  refine (branchTurn_used (P := fun t => ∀ i < 512, (HasEntry.entryOf (t i)).present = false) hcallback hhole hwalk).mono
    fun r ⟨hused, hbelow⟩ => Bool.eq_false_of_not_eq_true fun hp => ?_
  obtain ⟨i, hi, hpi⟩ := hused hp
  exact Bool.false_ne_true ((hbelow hp i hi).symm.trans hpi)

end Sweep

section Used

variable {info : RemoveInfo} {lo hi c : Nat} {m : Phys}

theorem ptblSplit_table {e : Pde} (hp : e.entry.present = true) (hh : e.entry.huge = true) :
    Yields (ptblSplit m e) fun r => r.2.entry.huge = false := by
  refine .ite (fun hno => ?_) fun _ => .skip fun _ => .skip fun _ => ?_
  · rcases hno with hno | hno
    · exact absurd (hno.symm.trans hp) Bool.false_ne_true
    · exact absurd (hno.symm.trans hh) Bool.false_ne_true
  · refine .skip fun _ => .ite (fun _ => .ok rfl) fun _ => .skip fun _ => .ok rfl

/-- No huge page is left when it is the turn of its table. -/
theorem removePde_table (base last : Nat) (e : Pde) :
    Yields (removePde info base last m e) fun r => r.2.entry.present = true → r.2.entry.huge = false := by
  refine .ite (fun h => .ite (fun _ => ?_) fun _ => .skip fun _ => .ok nofun) fun h => .ok fun hp => ?_
  · exact (ptblSplit_table h.1 h.2).bind fun _ hr => .ok fun _ => hr
  · exact Bool.eq_false_of_not_eq_true fun hh => h ⟨hp, hh⟩

theorem removePde_used (e : Pde) : Yields (info.walker.pdeTurn lo hi c m e) fun r => pdeUsed r.2 :=
  (branchTurn_used (P := fun _ => True) (removePde_table _ _ e) rfl fun _ _ => Ends.trivial _).mono fun _ hr _ => hr.1

/-- A clipped block has at most one table full of entries, and those of its pages are among them. -/
theorem clip_div (lo hi c : Nat) (l l' : Level) (hl : l.pages = 512 * l'.pages) :
    l.clipHi hi c / l'.pages - l.clipLo lo c / l'.pages < 512 ∧ ∀ g, lo ≤ g → g ≤ hi → g / l.pages = c →
      l.clipLo lo c / l'.pages ≤ g / l'.pages ∧ g / l'.pages ≤ l.clipHi hi c / l'.pages := by
  have hpos := l.pages_pos
  refine ⟨?_, fun g hg hgh hgc => ⟨Nat.div_le_div_right ?_, Nat.div_le_div_right ?_⟩⟩
  · cases l' <;> simp only [pages] at hl <;> simp only [clipHi, clipLo, hl, pages] <;> omega
  · subst hgc
    exact Nat.max_le.2 ⟨hg, Nat.div_mul_le_self _ _⟩
  · subst hgc
    refine Nat.le_min.2 ⟨hgh, ?_⟩
    have := Nat.lt_div_mul_add (a := g) hpos
    omega

/-- The tables below a block are used on the way to each page of the range. -/
theorem sweepPages_used {C : Type} {f : Nat → Phys → C → Kernel (Phys × C)} {l l' : Level} {P : Nat → C → Prop}
    (hl : l.pages = 512 * l'.pages)
    (hf : ∀ d m e, Yields (f d m e) fun r => ∀ g, lo ≤ g → g ≤ hi → g / l'.pages = d → P g r.2) (m : Phys) (t : Nat → C) :
    Yields (sweepPages l' f (l.clipLo lo c) (l.clipHi hi c) m t) fun r =>
      ∀ g, lo ≤ g → g ≤ hi → g / l.pages = c → P g (r.2 (g / l'.pages % 512)) := by
  obtain ⟨hn, hin⟩ := clip_div lo hi c l l' hl
  refine (sweepPages_each (P := fun d e => ∀ g, lo ≤ g → g ≤ hi → g / l'.pages = d → P g e) hn
    (fun d _ _ m e => hf d m e) m t).mono fun r hr g hg hgh hgc => ?_
  obtain ⟨h1, h2⟩ := hin g hg hgh hgc
  exact hr _ h1 h2 g hg hgh rfl

theorem removePdpte_used (e : Pdpte) : Yields (info.walker.pdpteTurn lo hi c m e) fun r =>
    ∀ g, lo ≤ g → g ≤ hi → g / 262144 = c → pdpteUsed g r.2 := by
  have hwalk : ∀ m t, Yields
      (sweepPages .pde (info.walker.pdeTurn lo hi) (clipLo .pdpte lo c) (clipHi .pdpte hi c) m t)
      fun r => ∀ g, lo ≤ g → g ≤ hi → g / 262144 = c → pdeUsed (r.2 (g / 512 % 512)) :=
    sweepPages_used rfl fun d m e => (removePde_used e).mono fun _ hr _ _ _ _ => hr
  refine (branchTurn_used (P := fun t => ∀ g, lo ≤ g → g ≤ hi → g / 262144 = c → pdeUsed (t (g / 512 % 512)))
    (.ok fun _ => rfl) rfl hwalk).mono fun r hr g hg hgh hgc => ⟨hr.1, fun hp => ?_⟩
  exact hr.2 hp g hg hgh hgc

theorem removePml4e_used (e : Pml4e) : Yields (info.walker.pml4eTurn lo hi c m e) fun r =>
    ∀ g, lo ≤ g → g ≤ hi → g / 134217728 = c → pml4eUsed g r.2 := by
  have hwalk : ∀ m t, Yields
      (sweepPages .pdpte (info.walker.pdpteTurn lo hi) (clipLo .pml4e lo c) (clipHi .pml4e hi c) m t)
      fun r => ∀ g, lo ≤ g → g ≤ hi → g / 134217728 = c → pdpteUsed g (r.2 (g / 262144 % 512)) :=
    sweepPages_used rfl fun d m e => removePdpte_used e
  refine (branchTurn_used (P := fun t => ∀ g, lo ≤ g → g ≤ hi → g / 134217728 = c → pdpteUsed g (t (g / 262144 % 512)))
    (.ok fun _ => rfl) rfl hwalk).mono fun r hr g hg hgh hgc => ⟨hr.1, fun hp => ?_⟩
  exact hr.2 hp g hg hgh hgc

theorem remove_used (hhi : hi < NPAGES) (t : Pml4) :
    Yields (info.walker.pageWalk lo hi m t) fun r => ∀ g, lo ≤ g → g ≤ hi → TablesUsed r.2 g := by
  have hn : hi / pages .pml4e - lo / pages .pml4e < 512 := by
    simp only [NPAGES, pages] at *
    omega
  refine (sweepPages_each (P := fun d e => ∀ g, lo ≤ g → g ≤ hi → g / pages .pml4e = d → pml4eUsed g e) hn
    (fun d _ _ m e => removePml4e_used e) m t).mono fun r hr g hg hgh => ?_
  exact hr _ (Nat.div_le_div_right hg) (Nat.div_le_div_right hgh) g hg hgh rfl

end Used

end OpenLsd
