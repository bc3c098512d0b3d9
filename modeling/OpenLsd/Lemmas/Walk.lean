import OpenLsd.Lib.Outcome
import OpenLsd.Mem.PageTable

/-!
# Walking over page numbers

The four loops of the page walker compute with addresses, across the hole between the two halves and up to the end of the
address space. Here the same walk is done over page numbers: the canonical pages are numbered without a gap, and a table at
each level is swept block by block.
-/

namespace OpenLsd

variable {g a : Nat}

/-! ## Page numbers -/

/-- The levels of a page table. -/
inductive Level where
  | pte
  | pde
  | pdpte
  | pml4e
  deriving DecidableEq, Repr

/-- The number of pages that one entry of the level maps. -/
def Level.pages : Level → Nat
  | .pte => 1
  | .pde => 512
  | .pdpte => 262144
  | .pml4e => 134217728

/-- The number of bytes that one entry of the level maps. -/
def Level.span : Level → Nat
  | .pte => PAGE_SIZE
  | .pde => PAGE_TABLE_SPAN
  | .pdpte => PAGE_DIR_SPAN
  | .pml4e => PDPT_SPAN

/-- The number of canonical pages. -/
def NPAGES : Nat := 2 ^ 36

/-- The first address of the page, and the last one. -/
def pageAddr (g : Nat) : Nat := signExtend (g * PAGE_SIZE)
def pageLast (g : Nat) : Nat := pageAddr g + (PAGE_SIZE - 1)

/-- The number of the page of an address. -/
def pageNo (a : Nat) : Nat := a / PAGE_SIZE % NPAGES

/-- An address that the upper bits do not matter for. -/
def Canonical (a : Nat) : Prop := a < USER_LIM ∨ KERNEL_VMA ≤ a ∧ a < 2 ^ 64

instance (a : Nat) : Decidable (Canonical a) := inferInstanceAs (Decidable (_ ∨ _ ∧ _))

theorem Level.pages_pos (l : Level) : 0 < l.pages := by cases l <;> decide

theorem Level.span_eq (l : Level) : l.span = l.pages * PAGE_SIZE := by cases l <;> rfl

theorem pageAddr_user (hg : g < 2 ^ 35) : pageAddr g = g * 4096 := by
  have hlt : g * PAGE_SIZE < USER_LIM := by
    simp only [PAGE_SIZE, USER_LIM]
    omega
  rw [pageAddr, signExtend, if_pos hlt, PAGE_SIZE]

theorem pageAddr_kernel (hlo : 2 ^ 35 ≤ g) (hg : g < NPAGES) : pageAddr g = g * 4096 + 0xFFFF000000000000 := by
  have hge : ¬g * PAGE_SIZE < USER_LIM := by
    simp only [PAGE_SIZE, USER_LIM]
    omega
  rw [pageAddr, signExtend, if_neg hge]
  simp only [PAGE_SIZE, NPAGES] at *
  omega

theorem pageNo_lt (a : Nat) : pageNo a < NPAGES := Nat.mod_lt _ (by decide)

theorem pageNo_pageAddr (hg : g < NPAGES) : pageNo (pageAddr g) = g := by
  rcases Nat.lt_or_ge g (2 ^ 35) with hu | hk
  · rw [pageAddr_user hu]
    simp only [pageNo, PAGE_SIZE, NPAGES] at *
    omega
  · rw [pageAddr_kernel hk hg]
    simp only [pageNo, PAGE_SIZE, NPAGES] at *
    omega

theorem pageAddr_inj {h : Nat} (hg : g < NPAGES) (hh : h < NPAGES) : pageAddr g = pageAddr h ↔ g = h :=
  ⟨fun heq => by rw [← pageNo_pageAddr hg, heq, pageNo_pageAddr hh], fun heq => by rw [heq]⟩

theorem pageAddr_pageNo (ha : Canonical a) : pageAddr (pageNo a) = roundDown a := by
  have hlt := pageNo_lt a
  rcases Nat.lt_or_ge (pageNo a) (2 ^ 35) with hu | hk
  · rw [pageAddr_user hu]
    simp only [pageNo, Canonical, roundDown, PAGE_SIZE, USER_LIM, KERNEL_VMA, NPAGES] at *
    omega
  · rw [pageAddr_kernel hk hlt]
    simp only [pageNo, Canonical, roundDown, PAGE_SIZE, USER_LIM, KERNEL_VMA, NPAGES] at *
    omega

theorem pageAddr_lt_iff {h : Nat} (hg : g < NPAGES) (hh : h < NPAGES) : pageAddr g < pageAddr h ↔ g < h := by
  rcases Nat.lt_or_ge g (2 ^ 35) with hgu | hgk
  · rcases Nat.lt_or_ge h (2 ^ 35) with hhu | hhk
    · rw [pageAddr_user hgu, pageAddr_user hhu]
      omega
    · rw [pageAddr_user hgu, pageAddr_kernel hhk hh]
      omega
  · rcases Nat.lt_or_ge h (2 ^ 35) with hhu | hhk
    · rw [pageAddr_kernel hgk hg, pageAddr_user hhu]
      omega
    · rw [pageAddr_kernel hgk hg, pageAddr_kernel hhk hh]
      omega

/-- Blocks do not cross the end of the address space. -/
theorem Level.block_lt (l : Level) (hg : g < NPAGES) : g / l.pages * l.pages + (l.pages - 1) < NPAGES := by
  cases l <;> simp only [Level.pages, NPAGES] at * <;> omega

theorem Level.block_user (l : Level) (hg : g < 2 ^ 35) : g / l.pages * l.pages + (l.pages - 1) < 2 ^ 35 := by
  cases l <;> simp only [Level.pages] <;> omega

theorem Level.block_kernel (l : Level) (hg : 2 ^ 35 ≤ g) : 2 ^ 35 ≤ g / l.pages * l.pages := by
  cases l with
  | pte => rwa [Level.pages, Nat.div_one, Nat.mul_one]
  | pde => simp only [Level.pages]; omega
  | pdpte => simp only [Level.pages]; omega
  | pml4e => simp only [Level.pages]; omega

/-- The boundaries of the block of a page, and the index of its entry. -/
theorem block_pageAddr (l : Level) (hg : g < NPAGES) :
    blockStart l.span (pageAddr g) = pageAddr (g / l.pages * l.pages) ∧
    blockEnd l.span (pageAddr g) = pageLast (g / l.pages * l.pages + (l.pages - 1)) ∧
    pageAddr g / l.span % PAGE_TABLE_ENTRIES = g / l.pages % 512 := by
  have hend := l.block_lt hg
  have hstart : g / l.pages * l.pages < NPAGES := Nat.lt_of_le_of_lt (Nat.le_add_right _ _) hend
  rcases Nat.lt_or_ge g (2 ^ 35) with hu | hk
  · have hend' := l.block_user hu
    rw [pageLast, pageAddr_user hu, pageAddr_user (Nat.lt_of_le_of_lt (Nat.le_add_right _ _) hend'), pageAddr_user hend']
    cases l <;> simp only [Level.pages, Level.span, blockStart, blockEnd, PAGE_SIZE, PAGE_TABLE_SPAN, PAGE_DIR_SPAN, PDPT_SPAN,
      PAGE_TABLE_ENTRIES] <;> refine ⟨?_, ?_, ?_⟩ <;> omega
  · have hstart' := l.block_kernel hk
    rw [pageLast, pageAddr_kernel hk hg, pageAddr_kernel hstart' hstart,
      pageAddr_kernel (Nat.le_trans hstart' (Nat.le_add_right _ _)) hend]
    cases l <;> simp only [Level.pages, Level.span, blockStart, blockEnd, PAGE_SIZE, PAGE_TABLE_SPAN, PAGE_DIR_SPAN, PDPT_SPAN,
      PAGE_TABLE_ENTRIES] <;> refine ⟨?_, ?_, ?_⟩ <;> omega

theorem pageAddr_le {h : Nat} (hgh : g ≤ h) (hh : h < NPAGES) : pageAddr g ≤ pageAddr h := by
  rcases Nat.lt_or_eq_of_le hgh with hlt | rfl
  · exact Nat.le_of_lt ((pageAddr_lt_iff (Nat.lt_trans hlt hh) hh).2 hlt)
  · exact Nat.le_refl _

theorem pageLast_le {h : Nat} (hgh : g ≤ h) (hh : h < NPAGES) : pageLast g ≤ pageLast h :=
  Nat.add_le_add_right (pageAddr_le hgh hh) _

theorem min_pageLast {h : Nat} (hg : g < NPAGES) (hh : h < NPAGES) : min (pageLast g) (pageLast h) = pageLast (min g h) := by
  rcases Nat.le_total g h with hgh | hgh
  · rw [Nat.min_eq_left hgh, Nat.min_eq_left (pageLast_le hgh hh)]
  · rw [Nat.min_eq_right hgh, Nat.min_eq_right (pageLast_le hgh hg)]

theorem signExtend_of_user (ha : a < USER_LIM) : signExtend a = a := by rw [signExtend, if_pos ha]

theorem signExtend_of_kernel (hlo : KERNEL_VMA ≤ a) (ha : a < 2 ^ 64) : signExtend a = a := by
  have hge : ¬a < USER_LIM := by
    simp only [KERNEL_VMA, USER_LIM] at *
    omega
  rw [signExtend, if_neg hge]
  simp only [KERNEL_VMA] at hlo
  omega

theorem signExtend_page {o : Nat} (hg : g < NPAGES) (ho : o < 4096) : signExtend (pageAddr g + o) = pageAddr g + o := by
  rcases Nat.lt_or_ge g (2 ^ 35) with hu | hk
  · rw [pageAddr_user hu]
    refine signExtend_of_user ?_
    simp only [USER_LIM]
    omega
  · rw [pageAddr_kernel hk hg]
    refine signExtend_of_kernel ?_ ?_ <;> simp only [KERNEL_VMA, NPAGES] at * <;> omega

/-- The address after a page: it may be in the hole between the halves, and then stands for the first page behind it. -/
theorem add64_pageLast {e : Nat} (he : e + 1 < NPAGES) :
    add64 (pageLast e) 1 = pageLast e + 1 ∧ pageLast e + 1 ≤ pageAddr (e + 1) ∧ signExtend (pageLast e + 1) = pageAddr (e + 1) := by
  rcases Nat.lt_or_ge e (2 ^ 35) with hu | hk
  · rw [pageLast, pageAddr_user hu]
    rcases Nat.lt_or_ge (e + 1) (2 ^ 35) with hu' | hk'
    · rw [pageAddr_user hu']
      simp only [add64, PAGE_SIZE]
      refine ⟨by omega, by omega, ?_⟩
      rw [signExtend_of_user (by simp only [USER_LIM]; omega)]
      omega
    · rw [pageAddr_kernel hk' he]
      have he' : e = 2 ^ 35 - 1 := by omega
      subst he'
      refine ⟨by decide, by decide, by decide⟩
  · rw [pageLast, pageAddr_kernel hk (by omega), pageAddr_kernel (by omega) he]
    simp only [add64, PAGE_SIZE, NPAGES] at *
    refine ⟨by omega, by omega, ?_⟩
    rw [signExtend_of_kernel (by simp only [KERNEL_VMA]; omega) (by omega)]
    omega

theorem add64_pageLast_top : add64 (pageLast (NPAGES - 1)) 1 = 0 := by decide

/-! ## Sweeping a table -/

section Sweep

variable {σ N : Type} {visit : Nat → Nat → σ → N → Kernel (σ × N)}

/-- The blocks `c`, `c + 1` and so on of a table, one after the other. -/
def sweep (f : Nat → σ → N → Kernel (σ × N)) : Nat → Nat → σ → (Nat → N) → Kernel (σ × (Nat → N))
  | 0, _, s, t => .ok (s, t)
  | n + 1, c, s, t => do
    let (s, e) ← f c s (t (c % 512))
    sweep f n (c + 1) s (Function.update t (c % 512) e)

theorem walkLoop_done {span : Nat} {base last : Nat} (h : last < base) (n : Nat)
    (s : σ) (t : Nat → N) : walkLoop span visit n base last s t = .ok (s, t) := by
  cases n <;> rw [walkLoop, if_neg (Nat.not_le_of_lt h)]

/-- One turn of the loop of a walk, at the block of `g`. -/
theorem walkLoop_turn (l : Level) {b hi fuel : Nat} (hgh : g ≤ hi) (hhi : hi < NPAGES)
    (hb : signExtend b = pageAddr g) (hbg : b ≤ pageAddr g) (s : σ) (t : Nat → N) :
    walkLoop l.span visit (fuel + 1) b (pageLast hi) s t =
      (visit (pageAddr g) (pageLast hi) s (t (g / l.pages % 512)) >>= fun r =>
        if add64 (pageLast (g / l.pages * l.pages + (l.pages - 1))) 1 = 0 then
          .ok (r.1, Function.update t (g / l.pages % 512) r.2)
        else walkLoop l.span visit fuel (add64 (pageLast (g / l.pages * l.pages + (l.pages - 1))) 1) (pageLast hi) r.1
          (Function.update t (g / l.pages % 512) r.2)) := by
  obtain ⟨_, hend, hidx⟩ := block_pageAddr l (Nat.lt_of_le_of_lt hgh hhi)
  have hble : b ≤ pageLast hi := Nat.le_trans hbg (Nat.le_trans (pageAddr_le hgh hhi) (Nat.le_add_right _ _))
  rw [walkLoop, if_pos hble]
  dsimp only
  rw [hb, hend, hidx]

/-- The loop of a walk that has come to the block of `g`. The address `b` is that of `g`, or lies in the hole before it. -/
theorem walkLoop_sweep (l : Level) {lo hi : Nat} (hhi : hi < NPAGES) (n : Nat) :
    ∀ fuel g b s t, signExtend b = pageAddr g → b ≤ pageAddr g → max lo (g / l.pages * l.pages) = g → g ≤ hi →
      hi / l.pages = g / l.pages + n → n < fuel →
      walkLoop l.span visit fuel b (pageLast hi) s t =
        sweep (fun c => visit (pageAddr (max lo (c * l.pages))) (pageLast hi)) (n + 1) (g / l.pages) s t := by
  have hpos := l.pages_pos
  induction n with
  | zero =>
    intro fuel g b s t hb hbg hg hgh hn hfuel
    obtain ⟨fuel, rfl⟩ := Nat.exists_eq_add_of_lt hfuel
    rw [walkLoop_turn l hgh hhi hb hbg, sweep, hg]
    refine congrArg _ (funext fun r => ?_)
    -- The block of `g` is the last one: either the address space ends with it, or the range does.
    rcases Nat.lt_or_ge (g / l.pages * l.pages + (l.pages - 1) + 1) NPAGES with hlt | hge
    · obtain ⟨hnext, _, _⟩ := add64_pageLast hlt
      have hle : hi ≤ g / l.pages * l.pages + (l.pages - 1) := by
        have := Nat.lt_div_mul_add (a := hi) hpos
        rw [hn, Nat.add_zero] at this
        omega
      rw [hnext, if_neg (Nat.succ_ne_zero _)]
      exact walkLoop_done (Nat.lt_succ_of_le (pageLast_le hle (Nat.lt_of_succ_lt hlt))) _ _ _
    · have hlast : g / l.pages * l.pages + (l.pages - 1) = NPAGES - 1 := by
        have := l.block_lt (Nat.lt_of_le_of_lt hgh hhi)
        omega
      rw [hlast, add64_pageLast_top, if_pos rfl]
      rfl
  | succ n ih =>
    intro fuel g b s t hb hbg hg hgh hn hfuel
    obtain ⟨fuel, rfl⟩ := Nat.exists_eq_add_of_lt hfuel
    have hblock := Nat.lt_div_mul_add (a := g) hpos
    have hnextg : g / l.pages * l.pages + (l.pages - 1) + 1 = (g / l.pages + 1) * l.pages := by
      rw [Nat.add_one_mul]
      omega
    have hle : (g / l.pages + 1) * l.pages ≤ hi := by
      refine Nat.le_trans (Nat.mul_le_mul_right _ ?_) (Nat.div_mul_le_self hi l.pages)
      omega
    have hdiv : (g / l.pages + 1) * l.pages / l.pages = g / l.pages + 1 := Nat.mul_div_cancel _ hpos
    have hlt : g / l.pages * l.pages + (l.pages - 1) + 1 < NPAGES := by
      rw [hnextg]
      exact Nat.lt_of_le_of_lt hle hhi
    obtain ⟨hnext, hnb, hns⟩ := add64_pageLast hlt
    rw [walkLoop_turn l hgh hhi hb hbg, sweep, hg]
    refine congrArg _ (funext fun r => ?_)
    rw [hnext, if_neg (Nat.succ_ne_zero _)]
    rw [hnextg] at hnb hns
    have hrest := ih (n + 1 + fuel) _ _ r.1 (Function.update t (g / l.pages % 512) r.2) hns hnb
      (by rw [hdiv]; omega) hle (by rw [hdiv]; omega) (by omega)
    rw [hdiv] at hrest
    exact hrest

theorem walkRange_sweep (l : Level) {lo hi : Nat} (hle : lo ≤ hi)
    (hhi : hi < NPAGES) (hone : hi / l.pages < lo / l.pages + 512) (s : σ) (t : Nat → N) :
    walkRange l.span visit (pageAddr lo) (pageLast hi) s t =
      sweep (fun c => visit (pageAddr (max lo (c * l.pages))) (pageLast hi)) (hi / l.pages - lo / l.pages + 1) (lo / l.pages) s t := by
  have hlo := Nat.lt_of_le_of_lt hle hhi
  have hdiv : lo / l.pages ≤ hi / l.pages := Nat.div_le_div_right hle
  have hext : signExtend (pageAddr lo) = pageAddr lo := signExtend_page (o := 0) hlo (by decide)
  have hext' : signExtend (pageLast hi) = pageLast hi := signExtend_page hhi (by decide)
  rw [walkRange, hext, hext']
  refine walkLoop_sweep l hhi _ _ lo _ s t hext (Nat.le_refl _) ?_ hle (by omega) ?_
  · have := Nat.div_mul_le_self lo l.pages
    omega
  · simp only [PAGE_TABLE_ENTRIES]
    omega

theorem sweep_congr {f f' : Nat → σ → N → Kernel (σ × N)} (n c : Nat) (h : ∀ d, c ≤ d → d < c + n → f d = f' d) (s : σ)
    (t : Nat → N) : sweep f n c s t = sweep f' n c s t := by
  induction n generalizing c s t with
  | zero => rfl
  | succ n ih =>
    rw [sweep, sweep, h c (Nat.le_refl c) (by omega)]
    refine congrArg _ (funext fun r => ?_)
    exact ih (c + 1) (fun d hd hdn => h d (by omega) (by omega)) _ _

/-- The blocks of the level that meet the pages from `lo` to `hi`. -/
def sweepPages (l : Level) (f : Nat → σ → N → Kernel (σ × N)) (lo hi : Nat) (s : σ) (t : Nat → N) : Kernel (σ × (Nat → N)) :=
  sweep f (hi / l.pages - lo / l.pages + 1) (lo / l.pages) s t

/-- A turn of a walk at an entry that may refer to a table. -/
def branchTurn {C : Type} (leaf : Entry → Bool) (callback unmap hole : σ → Branch C → Kernel (σ × Branch C))
    (walk : σ → (Nat → C) → Kernel (σ × (Nat → C))) (s : σ) (e : Branch C) : Kernel (σ × Branch C) := do
  let (s, e) ← callback s e
  if e.entry.present then
    if leaf e.entry then unmap s e
    else
      let (s, t) ← walk s e.child
      unmap s { e with child := t }
  else hole s e

end Sweep

/-! ## The walk -/

/-- The boundaries of the block `c` of a level. -/
def Level.first (l : Level) (c : Nat) : Nat := pageAddr (c * l.pages)
def Level.last (l : Level) (c : Nat) : Nat := pageLast (c * l.pages + (l.pages - 1))

/-- The entry of the block `c` at each level. -/
def pml4eAt (t : Pml4) (c : Nat) : Pml4e := t (c % 512)
def pdpteAt (t : Pml4) (c : Nat) : Pdpte := (pml4eAt t (c / 512)).child (c % 512)
def pdeAt (t : Pml4) (c : Nat) : Pde := (pdpteAt t (c / 512)).child (c % 512)
def pteAt (t : Pml4) (c : Nat) : Entry := (pdeAt t (c / 512)).child (c % 512)

/-- The pages of the block `c` from `lo` on, and those up to `hi`. -/
def Level.clipLo (l : Level) (lo c : Nat) : Nat := max lo (c * l.pages)
def Level.clipHi (l : Level) (hi c : Nat) : Nat := min hi (c * l.pages + (l.pages - 1))

namespace Walker

variable {σ : Type}

/-- The call of `pt_hole_callback` for the block `c`. -/
def holeTurn {N : Type} (w : Walker σ) (l : Level) (c : Nat) (s : σ) (e : N) : Kernel (σ × N) := do
  let s ← w.ptHoleCallback (l.first c) (l.last c) s
  .ok (s, e)

def pteTurn (w : Walker σ) (c : Nat) (s : σ) (e : Entry) : Kernel (σ × Entry) := do
  let (s, e) ← w.pteCallback (Level.first .pte c) (Level.last .pte c) s e
  if e.present then .ok (s, e) else w.holeTurn .pte c s e

def pdeTurn (w : Walker σ) (lo hi c : Nat) : σ → Pde → Kernel (σ × Pde) :=
  branchTurn (fun e => e.huge) (w.pdeCallback (Level.first .pde c) (Level.last .pde c))
    (w.pdeUnmap (Level.first .pde c) (Level.last .pde c)) (w.holeTurn .pde c)
    (sweepPages .pte w.pteTurn (Level.clipLo .pde lo c) (Level.clipHi .pde hi c))

def pdpteTurn (w : Walker σ) (lo hi c : Nat) : σ → Pdpte → Kernel (σ × Pdpte) :=
  branchTurn (fun _ => false) (w.pdpteCallback (Level.first .pdpte c) (Level.last .pdpte c))
    (w.pdpteUnmap (Level.first .pdpte c) (pageLast (Level.clipHi .pdpte hi c))) (w.holeTurn .pdpte c)
    (sweepPages .pde (w.pdeTurn lo hi) (Level.clipLo .pdpte lo c) (Level.clipHi .pdpte hi c))

def pml4eTurn (w : Walker σ) (lo hi c : Nat) : σ → Pml4e → Kernel (σ × Pml4e) :=
  branchTurn (fun _ => false) (w.pml4eCallback (Level.first .pml4e c) (Level.last .pml4e c))
    (w.pml4eUnmap (Level.first .pml4e c) (Level.last .pml4e c)) (w.holeTurn .pml4e c)
    (sweepPages .pdpte (w.pdpteTurn lo hi) (Level.clipLo .pml4e lo c) (Level.clipHi .pml4e hi c))

/-- The walk over the pages from `lo` to `hi`. -/
def pageWalk (w : Walker σ) (lo hi : Nat) : σ → Pml4 → Kernel (σ × Pml4) := sweepPages .pml4e (w.pml4eTurn lo hi) lo hi

end Walker

/-- The block `c` of the level has pages from `lo` to `hi`, and they are canonical. -/
structure Meets (l : Level) (lo hi c : Nat) : Prop where
  le : lo ≤ hi
  lt : hi < NPAGES
  first : c * l.pages ≤ hi
  last : lo < c * l.pages + l.pages

namespace Meets

variable {l : Level} {lo hi c : Nat}

/-- The blocks that a sweep over the pages comes to. -/
theorem of_sweep (hle : lo ≤ hi) (hhi : hi < NPAGES) (hc : lo / l.pages ≤ c) (hn : c < lo / l.pages + (hi / l.pages - lo / l.pages + 1)) :
    Meets l lo hi c := by
  have hpos := l.pages_pos
  have hdiv : lo / l.pages ≤ hi / l.pages := Nat.div_le_div_right hle
  refine ⟨hle, hhi, (Nat.le_div_iff_mul_le hpos).1 (by omega), ?_⟩
  have hlt := Nat.lt_div_mul_add (a := lo) hpos
  exact Nat.lt_of_lt_of_le hlt (Nat.add_le_add_right (Nat.mul_le_mul_right _ hc) _)

section

variable (h : Meets l lo hi c)

include h

theorem clip_le : l.clipLo lo c ≤ l.clipHi hi c := by
  have hpos := l.pages_pos
  obtain ⟨h1, h2, h3, h4⟩ := h
  simp only [Level.clipLo, Level.clipHi]
  omega

omit h in
/-- The blocks of the level below that have pages in the clipped part of a block. -/
theorem clip_iff {l' : Level} {d : Nat} (hl : l.pages = 512 * l'.pages) (h : Meets l lo hi c) :
    Meets l' (l.clipLo lo c) (l.clipHi hi c) d ↔ Meets l' lo hi d ∧ d / 512 = c := by
  have hle := h.clip_le
  obtain ⟨h1, h2, h3, h4⟩ := h
  constructor
  · rintro ⟨_, _, h7, h8⟩
    have hpages := l'.pages_pos
    simp only [Level.clipLo, Level.clipHi] at *
    refine ⟨⟨h1, h2, by omega, by omega⟩, ?_⟩
    cases l' <;> simp only [Level.pages] at hl h7 h8 <;> simp only [hl] at h7 h8 <;> omega
  · rintro ⟨⟨_, _, h7, h8⟩, rfl⟩
    simp only [Level.clipLo, Level.clipHi] at *
    refine ⟨hle, Nat.lt_of_le_of_lt (Nat.min_le_left _ _) h2, ?_, ?_⟩
    · cases l' <;> simp only [Level.pages] at hl h7 h8 ⊢ <;> simp only [hl] <;> omega
    · cases l' <;> simp only [Level.pages] at hl h7 h8 ⊢ <;> simp only [hl] <;> omega

theorem clipHi_lt : l.clipHi hi c < NPAGES := Nat.lt_of_le_of_lt (Nat.min_le_left _ _) h.lt

theorem clipLo_lt : l.clipLo lo c < NPAGES := Nat.lt_of_le_of_lt h.clip_le h.clipHi_lt

theorem clipLo_div : l.clipLo lo c / l.pages = c := by
  have hpos := l.pages_pos
  refine (Nat.div_eq_iff hpos).2 ?_
  have := h.last
  simp only [Level.clipLo]
  omega

theorem blockStart_eq : blockStart l.span (pageAddr (l.clipLo lo c)) = l.first c := by
  rw [(block_pageAddr l h.clipLo_lt).1, h.clipLo_div, Level.first]

theorem blockEnd_eq : blockEnd l.span (pageAddr (l.clipLo lo c)) = l.last c := by
  rw [(block_pageAddr l h.clipLo_lt).2.1, h.clipLo_div, Level.last]

theorem min_blockEnd_eq : min (blockEnd l.span (pageAddr (l.clipLo lo c))) (pageLast hi) = pageLast (l.clipHi hi c) := by
  have hend := l.block_lt h.clipLo_lt
  rw [h.clipLo_div] at hend
  rw [h.blockEnd_eq, Level.last, min_pageLast hend h.lt, Level.clipHi, Nat.min_comm]

end

end Meets

namespace Walker

variable {σ : Type} {lo hi c : Nat}

section

variable (w : Walker σ) {l : Level} {bound base d size n h : Nat}

include w

theorem hole_eq {N : Type} (h : Meets l lo hi c) : w.hole (N := N) l.span (pageAddr (l.clipLo lo c)) = w.holeTurn l c := by
  funext s e
  rw [hole, holeTurn, h.blockStart_eq, h.blockEnd_eq]

theorem visitPte_eq (h : Meets .pte lo hi c) (last : Nat) :
    w.visitPte (pageAddr (Level.clipLo .pte lo c)) last = w.pteTurn c := by
  funext s e
  have h0 : w.hole (N := Entry) PAGE_SIZE _ = _ := w.hole_eq h
  have h1 : blockStart PAGE_SIZE _ = _ := h.blockStart_eq
  have h2 : blockEnd PAGE_SIZE _ = _ := h.blockEnd_eq
  rw [visitPte, pteTurn, h0, h1, h2]

theorem ptblWalkRange_eq (hle : lo ≤ hi) (hhi : hi < NPAGES) (hone : hi < lo + 512) :
    w.ptblWalkRange (pageAddr lo) (pageLast hi) = sweepPages .pte w.pteTurn lo hi := by
  funext s t
  refine (walkRange_sweep .pte hle hhi (by simpa [Level.pages] using hone) s t).trans ?_
  exact sweep_congr _ _ (fun d hd hdn => w.visitPte_eq (Meets.of_sweep hle hhi hd hdn) _) s t

omit w in
/-- Clipping to a block, and then to a block of a level below in it. -/
theorem clip_clip (l l' : Level) (lo hi : Nat) (hl : l.pages = n * l'.pages) (hd : d / n = c) (hn : 0 < n) :
    l'.clipLo (l.clipLo lo c) d = l'.clipLo lo d ∧ l'.clipHi (l.clipHi hi c) d = l'.clipHi hi d := by
  obtain ⟨h1, h2⟩ := (Nat.div_eq_iff hn).1 hd
  have hfirst : c * l.pages ≤ d * l'.pages := by
    rw [hl, ← Nat.mul_assoc]
    exact Nat.mul_le_mul_right _ h1
  have hlast : d * l'.pages + l'.pages ≤ c * l.pages + l.pages := by
    rw [hl, ← Nat.mul_assoc, ← Nat.add_one_mul, ← Nat.add_mul]
    exact Nat.mul_le_mul_right _ (by omega)
  have hpos := l'.pages_pos
  simp only [Level.clipLo, Level.clipHi]
  omega

theorem pdeTurn_clip (hl : l.pages = n * 512) (hd : d / n = c) (hn : 0 < n) :
    w.pdeTurn (l.clipLo lo c) (l.clipHi hi c) d = w.pdeTurn lo hi d := by
  obtain ⟨h1, h2⟩ := clip_clip l .pde lo hi hl hd hn
  rw [pdeTurn, h1, h2, pdeTurn]

omit w in
/-- Sweeping the clipped range with turns that come from the clipped range. -/
theorem sweepPages_clip {C : Type} {l' : Level} {f f' : Nat → σ → C → Kernel (σ × C)} (h : Meets l lo hi c)
    (hl : l.pages = 512 * l'.pages) (hf : ∀ d, Meets l' lo hi d → d / 512 = c → f d = f' d) :
    sweepPages l' f (l.clipLo lo c) (l.clipHi hi c) = sweepPages l' f' (l.clipLo lo c) (l.clipHi hi c) := by
  funext s t
  refine sweep_congr _ _ (fun d hd hdn => ?_) s t
  obtain ⟨hm, hdc⟩ := (Meets.clip_iff hl h).1 (Meets.of_sweep h.clip_le h.clipHi_lt hd hdn)
  exact hf d hm hdc

theorem pdpteTurn_clip (h : Meets .pdpte lo hi d) (hd : d / 512 = c) :
    w.pdpteTurn (Level.clipLo .pml4e lo c) (Level.clipHi .pml4e hi c) d = w.pdpteTurn lo hi d := by
  obtain ⟨h1, h2⟩ := clip_clip .pml4e .pdpte lo hi rfl hd (by decide)
  rw [pdpteTurn, h1, h2, pdpteTurn]
  refine congrArg _ (sweepPages_clip h rfl fun d' _ hd' => ?_)
  refine w.pdeTurn_clip (l := .pml4e) (n := 262144) rfl ?_ (by decide)
  omega

omit w in
theorem clip_one (l l' : Level) (lo hi c : Nat) (hl : l.pages = 512 * l'.pages) :
    l.clipHi hi c / l'.pages < l.clipLo lo c / l'.pages + 512 := by
  have hpos := l'.pages_pos
  have hlo : c * 512 ≤ l.clipLo lo c / l'.pages := by
    refine (Nat.le_div_iff_mul_le hpos).2 ?_
    rw [Nat.mul_assoc, ← hl]
    exact Nat.le_max_right _ _
  have hhi : l.clipHi hi c / l'.pages < c * 512 + 512 := by
    refine (Nat.div_lt_iff_lt_mul hpos).2 ?_
    rw [Nat.add_mul, Nat.mul_assoc, ← hl]
    have := l.pages_pos
    simp only [Level.clipHi]
    omega
  omega

theorem visitPde_eq (h : Meets .pde lo hi c) :
    w.visitPde (pageAddr (Level.clipLo .pde lo c)) (pageLast hi) = w.pdeTurn lo hi c := by
  funext s e
  have h0 : w.hole (N := Pde) PAGE_TABLE_SPAN _ = _ := w.hole_eq h
  have h1 : blockStart PAGE_TABLE_SPAN _ = _ := h.blockStart_eq
  have h2 : blockEnd PAGE_TABLE_SPAN _ = _ := h.blockEnd_eq
  have h3 : min (blockEnd PAGE_TABLE_SPAN _) _ = _ := h.min_blockEnd_eq
  have h4 := w.ptblWalkRange_eq h.clip_le h.clipHi_lt (by simpa [Level.pages] using clip_one .pde .pte lo hi c rfl)
  rw [visitPde, pdeTurn, branchTurn, h0, h3, h1, h2, h4]

theorem pdirWalkRange_eq (hle : lo ≤ hi) (hhi : hi < NPAGES) (hone : hi / Level.pages .pde < lo / Level.pages .pde + 512) :
    w.pdirWalkRange (pageAddr lo) (pageLast hi) = sweepPages .pde (w.pdeTurn lo hi) lo hi := by
  funext s t
  refine (walkRange_sweep .pde hle hhi hone s t).trans ?_
  exact sweep_congr _ _ (fun d hd hdn => w.visitPde_eq (Meets.of_sweep hle hhi hd hdn)) s t

theorem visitPdpte_eq (h : Meets .pdpte lo hi c) :
    w.visitPdpte (pageAddr (Level.clipLo .pdpte lo c)) (pageLast hi) = w.pdpteTurn lo hi c := by
  funext s e
  have h0 : w.hole (N := Pdpte) PAGE_DIR_SPAN _ = _ := w.hole_eq h
  have h1 : blockStart PAGE_DIR_SPAN _ = _ := h.blockStart_eq
  have h2 : blockEnd PAGE_DIR_SPAN _ = _ := h.blockEnd_eq
  have h3 : min (blockEnd PAGE_DIR_SPAN _) _ = _ := h.min_blockEnd_eq
  have h4 := w.pdirWalkRange_eq h.clip_le h.clipHi_lt (clip_one .pdpte .pde lo hi c rfl)
  rw [sweepPages_clip h rfl fun d _ hd => w.pdeTurn_clip (l := .pdpte) rfl hd (by decide)] at h4
  rw [visitPdpte, pdpteTurn, branchTurn, h0, h3, h1, h2, h4]
  rfl

theorem pdptWalkRange_eq (hle : lo ≤ hi) (hhi : hi < NPAGES) (hone : hi / Level.pages .pdpte < lo / Level.pages .pdpte + 512) :
    w.pdptWalkRange (pageAddr lo) (pageLast hi) = sweepPages .pdpte (w.pdpteTurn lo hi) lo hi := by
  funext s t
  refine (walkRange_sweep .pdpte hle hhi hone s t).trans ?_
  exact sweep_congr _ _ (fun d hd hdn => w.visitPdpte_eq (Meets.of_sweep hle hhi hd hdn)) s t

theorem visitPml4e_eq (h : Meets .pml4e lo hi c) :
    w.visitPml4e (pageAddr (Level.clipLo .pml4e lo c)) (pageLast hi) = w.pml4eTurn lo hi c := by
  funext s e
  have h0 : w.hole (N := Pml4e) PDPT_SPAN _ = _ := w.hole_eq h
  have h1 : blockStart PDPT_SPAN _ = _ := h.blockStart_eq
  have h2 : blockEnd PDPT_SPAN _ = _ := h.blockEnd_eq
  have h3 : min (blockEnd PDPT_SPAN _) _ = _ := h.min_blockEnd_eq
  have h4 := w.pdptWalkRange_eq h.clip_le h.clipHi_lt (clip_one .pml4e .pdpte lo hi c rfl)
  rw [sweepPages_clip h rfl fun d hm hd => w.pdpteTurn_clip hm hd] at h4
  rw [visitPml4e, pml4eTurn, branchTurn, h0, h3, h1, h2, h4]
  rfl

/-- The walk of the source over a range of addresses is the walk over its pages. -/
theorem pml4WalkRange_eq (hle : lo ≤ hi) (hhi : hi < NPAGES) :
    w.pml4WalkRange (pageAddr lo) (pageLast hi) = w.pageWalk lo hi := by
  funext s t
  have hone : hi / Level.pages .pml4e < lo / Level.pages .pml4e + 512 := by
    simp only [Level.pages, NPAGES] at *
    omega
  refine (walkRange_sweep .pml4e hle hhi hone s t).trans ?_
  exact sweep_congr _ _ (fun d hd hdn => w.visitPml4e_eq (Meets.of_sweep hle hhi hd hdn)) s t

omit w in
/-- The last byte of the range as `walk_page_range` computes it, also when the end of the range wraps to zero. -/
theorem sub64_roundUp (hpos : 0 < bound) (hlt : bound < 2 ^ 64) (hc : Canonical (bound - 1)) :
    sub64 (roundUp bound) 1 = pageLast (pageNo (bound - 1)) := by
  rw [pageLast, pageAddr_pageNo hc]
  simp only [sub64, roundUp, roundDown, add64, PAGE_SIZE]
  omega

omit w in
theorem pageNo_le {b : Nat} (ha : Canonical a) (hb : Canonical b) (hab : a ≤ b) : pageNo a ≤ pageNo b := by
  simp only [pageNo, Canonical, PAGE_SIZE, USER_LIM, KERNEL_VMA, NPAGES] at *
  omega

/-- `walk_page_range` walks over the pages that the range has a byte in. -/
theorem walkPageRange_eq (hlt : base < bound) (hbound : bound < 2 ^ 64) (hbase : Canonical base)
    (hlast : Canonical (bound - 1)) : w.walkPageRange base bound = w.pageWalk (pageNo base) (pageNo (bound - 1)) := by
  funext s t
  rw [walkPageRange, ← pageAddr_pageNo hbase, sub64_roundUp (by omega) hbound hlast,
    w.pml4WalkRange_eq (pageNo_le hbase hlast (by omega)) (pageNo_lt _)]

omit w in
/-- The last byte before `base + size`, rounded up, by the number of its page. The numbers go on over the hole between the
halves, as the sign extension does, and up to the last page, where the end wraps to zero. -/
theorem signExtend_roundUp (hbase : Canonical base) (hsize : 0 < size)
    (hh : h = pageNo base + (base % PAGE_SIZE + size - 1) / PAGE_SIZE) (hlt : h < NPAGES) :
    signExtend (sub64 (roundUp (add64 base size)) 1) = pageLast h := by
  simp only [pageNo, PAGE_SIZE, NPAGES] at hh hlt
  by_cases hu : base < USER_LIM
  · have hval : sub64 (roundUp (add64 base size)) 1 = h * 4096 + 4095 := by
      simp only [sub64, roundUp, roundDown, add64, PAGE_SIZE, USER_LIM] at *
      omega
    rw [hval, pageLast, signExtend, PAGE_SIZE]
    by_cases hlow : h < 2 ^ 35
    · rw [pageAddr_user hlow, if_pos (by simp only [USER_LIM]; omega)]
    · rw [pageAddr_kernel (by omega) hlt, if_neg (by simp only [USER_LIM]; omega)]
      omega
  · have hk : KERNEL_VMA ≤ base ∧ base < 2 ^ 64 := hbase.resolve_left hu
    have hval : sub64 (roundUp (add64 base size)) 1 = h * 4096 + 4095 + 0xFFFF000000000000 := by
      simp only [sub64, roundUp, roundDown, add64, PAGE_SIZE, KERNEL_VMA] at *
      omega
    simp only [KERNEL_VMA] at hk
    rw [hval, pageLast, pageAddr_kernel (by omega) hlt, signExtend, if_neg (by simp only [USER_LIM]; omega), PAGE_SIZE]
    omega

/-- The walk over the `size` bytes from `base` on, by the numbers of the pages. -/
theorem walkPageRange_size (hbase : Canonical base) (hsize : 0 < size)
    (hh : h = pageNo base + (base % PAGE_SIZE + size - 1) / PAGE_SIZE) (hlt : h < NPAGES) :
    w.walkPageRange base (add64 base size) = w.pageWalk (pageNo base) h := by
  funext s t
  have hself : signExtend (pageLast h) = pageLast h := signExtend_page hlt (by decide)
  rw [← w.pml4WalkRange_eq (hh ▸ Nat.le_add_right _ _) hlt, walkPageRange, ← pageAddr_pageNo hbase, pml4WalkRange,
    pml4WalkRange, walkRange, walkRange, signExtend_roundUp hbase hsize hh hlt, hself]

end

end Walker

end OpenLsd
