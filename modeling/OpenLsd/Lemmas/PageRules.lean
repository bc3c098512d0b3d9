import OpenLsd.Lemmas.Walk
import OpenLsd.Lemmas.WalkRules

/-!
# Rules for walks over pages

Rules for properties of walks that depend on where a node is, and on how far the walk has come. A `PageTrack` says what is done to
a node when the pages from `a` to before `b` are done, and the nodes of each level have one track for each
block. Nothing is done yet when `a` and `b` are the same: what a walk does to an entry before it goes to the table below, and
after it comes back, has to be of that kind.
-/

namespace OpenLsd

open Outcome Function Level

variable {σ N : Type} {bad : Stop → Prop} {lo hi c : Nat} {s : σ}

/-- An invariant of the state and a node, and what is done to it with the pages from `a` to before `b`. -/
structure PageTrack (σ N : Type) where
  inv : σ → N → Prop
  rel : Nat → Nat → σ → N → σ → N → Prop
  refl : ∀ {a s e}, inv s e → rel a a s e s e
  trans : ∀ {a b c s e s' e' s'' e''}, a ≤ b → b ≤ c → rel a b s e s' e' → rel b c s' e' s'' e'' → rel a c s e s'' e''
  keeps : ∀ {a b s e s' e'}, inv s e → rel a b s e s' e' → inv s' e'

namespace PageTrack

variable {M : Type}

/-- What is done to the node `e` of the state `s`. -/
def after (T : PageTrack σ N) (s : σ) (e : N) (a b : Nat) (r : σ × N) : Prop := T.rel a b s e r.1 r.2

/-- A track on what a node is part of. -/
def comap (T : PageTrack σ N) (g : M → N) : PageTrack σ M where
  inv := fun s x => T.inv s (g x)
  rel := fun a b s x s' x' => T.rel a b s (g x) s' (g x')
  refl := T.refl
  trans := T.trans
  keeps := T.keeps

end PageTrack

/-- What is done to the entry of the block `d` is seen in the table. -/
structure PageLifts {σ N : Type} (l : Level) (d : Nat) (T : PageTrack σ N) (U : PageTrack σ (Nat → N)) : Prop where
  child : ∀ {s t}, U.inv s t → T.inv s (t (d % 512))
  lift : ∀ {a b s t s' e}, d * l.pages ≤ a → a ≤ b → b ≤ d * l.pages + l.pages → U.inv s t →
    T.rel a b s (t (d % 512)) s' e → U.rel a b s t s' (update t (d % 512) e)

section Sweep

variable {l : Level} {d : Nat} {f : Nat → σ → N → Kernel (σ × N)} {U : PageTrack σ (Nat → N)} {T : Nat → PageTrack σ N}

/-- The clipped part of the block `d` lies in the block, and the one of the next block follows on it. -/
theorem Meets.clip_bounds (h : Meets l lo hi d) :
    d * l.pages ≤ l.clipLo lo d ∧ l.clipLo lo d ≤ l.clipHi hi d + 1 ∧ l.clipHi hi d + 1 ≤ d * l.pages + l.pages := by
  have hpos := l.pages_pos
  have hle := h.clip_le
  simp only [clipLo, clipHi] at *
  omega

theorem Level.clipHi_mono (l : Level) (hi : Nat) (h : c ≤ d) : l.clipHi hi c ≤ l.clipHi hi d := by
  have := Nat.mul_le_mul_right l.pages h
  simp only [clipHi]
  omega

section

variable (hl : ∀ d, Meets l lo hi d → PageLifts l d (T d) U) (hf : ∀ d, Meets l lo hi d → ∀ s e, (T d).inv s e →
    Ends bad (f d s e) fun r => (T d).rel (l.clipLo lo d) (l.clipHi hi d + 1) s e r.1 r.2)

include hl hf

/-- A loop over blocks respects the track. -/
theorem sweep_pages (n : Nat) :
    ∀ c s t, (∀ d, c ≤ d → d ≤ c + n → Meets l lo hi d) → U.inv s t →
      Ends bad (sweep f (n + 1) c s t) fun r => U.rel (l.clipLo lo c) (l.clipHi hi (c + n) + 1) s t r.1 r.2 := by
  induction n with
  | zero =>
    intro c s t hm hinv
    have hc := hm c (Nat.le_refl c) (Nat.le_refl c)
    obtain ⟨h1, h2, h3⟩ := hc.clip_bounds
    refine (hf c hc s _ ((hl c hc).child hinv)).bind fun ⟨s', e⟩ hr => .ok ?_
    exact (hl c hc).lift h1 h2 h3 hinv hr
  | succ n ih =>
    intro c s t hm hinv
    have hc := hm c (Nat.le_refl c) (by omega)
    obtain ⟨h1, h2, h3⟩ := hc.clip_bounds
    refine (hf c hc s _ ((hl c hc).child hinv)).bind fun ⟨s', e⟩ hr => ?_
    have hrel := (hl c hc).lift h1 h2 h3 hinv hr
    have hnext : l.clipHi hi c + 1 = l.clipLo lo (c + 1) := by
      have hm' := hm (c + 1) (by omega) (by omega)
      have hpos := l.pages_pos
      have hfirst := hm'.first
      have hlast := hc.last
      simp only [clipLo, clipHi]
      rw [Nat.add_one_mul] at hfirst ⊢
      omega
    have hrest := ih (c + 1) s' (update t (c % 512) e) (fun d hd hdn => hm d (by omega) (by omega)) (U.keeps hinv hrel)
    rw [show c + 1 + n = c + (n + 1) by omega, ← hnext] at hrest
    exact hrest.mono fun r hr' => U.trans h2 (Nat.add_le_add_right (l.clipHi_mono hi (by omega)) 1) hrel hr'

theorem sweepPages_track (hle : lo ≤ hi) (hhi : hi < NPAGES) {t : Nat → N} (hinv : U.inv s t) :
    Ends bad (sweepPages l f lo hi s t) fun r => U.rel lo (hi + 1) s t r.1 r.2 := by
  have hpos := l.pages_pos
  have hdiv : lo / l.pages ≤ hi / l.pages := Nat.div_le_div_right hle
  have hlo : l.clipLo lo (lo / l.pages) = lo := Nat.max_eq_left (Nat.div_mul_le_self _ _)
  have hhi' : l.clipHi hi (lo / l.pages + (hi / l.pages - lo / l.pages)) = hi := by
    rw [Nat.add_sub_of_le hdiv]
    have := Nat.lt_div_mul_add (a := hi) hpos
    simp only [clipHi]
    omega
  have h := sweep_pages hl hf (hi / l.pages - lo / l.pages) (lo / l.pages) s t
    (fun d hd hdn => Meets.of_sweep hle hhi hd (by omega)) hinv
  rwa [hlo, hhi'] at h

end

/-- What the callback at an entry leaves to do: for a leaf the callback at the end, for a table the walk below, and nothing where
nothing is present. -/
structure Turned {C : Type} (bad : Stop → Prop) (isLeaf : Entry → Bool) (a b : Nat) (done : Nat → Nat → σ × Branch C → Prop)
    (unmap : Nat → σ → Branch C → Kernel (σ × Branch C)) (r : σ × Branch C) : Prop where
  leaf : r.2.entry.present = true → isLeaf r.2.entry = true → ∀ last, Ends bad (unmap last r.1 r.2) (done a b)
  table : r.2.entry.present = true → isLeaf r.2.entry = false → done a a r
  gone : r.2.entry.present = false → done a b r

/-- A turn at a branch respects the track. -/
theorem branchTurn_track {C : Type} {T : PageTrack σ (Branch C)} {isLeaf : Entry → Bool}
    {callback hole : σ → Branch C → Kernel (σ × Branch C)} {unmap : Nat → σ → Branch C → Kernel (σ × Branch C)}
    {walk : σ → (Nat → C) → Kernel (σ × (Nat → C))} {a b last : Nat} (hab : a ≤ b) {e : Branch C} (hinv : T.inv s e)
    (hcallback : Ends bad (callback s e) (Turned bad isLeaf a b (T.after s e) unmap))
    (hunmap : ∀ s e, e.entry.present = true → isLeaf e.entry = false → T.inv s e → Ends bad (unmap last s e) (T.after s e b b))
    (hhole : hole = fun s e => .ok (s, e))
    (hwalk : ∀ s e, e.entry.present = true → isLeaf e.entry = false → T.inv s e →
      Ends bad (walk s e.child) ((T.comap (Branch.mk e.entry)).after s e.child a b)) :
    Ends bad (branchTurn isLeaf callback (unmap last) hole walk s e) (T.after s e a b) := by
  refine hcallback.bind fun ⟨s1, e1⟩ ht => ?_
  refine .ite (fun hp => .ite (fun hl => ht.leaf hp hl last) fun hl => ?_) fun hp => ?_
  · have hl : isLeaf e1.entry = false := by simpa using hl
    have h1 := ht.table hp hl
    refine (hwalk s1 e1 hp hl (T.keeps hinv h1)).bind fun ⟨s2, t⟩ hr => ?_
    have h2 : T.rel a b s e s2 { e1 with child := t } := T.trans (Nat.le_refl a) hab h1 hr
    exact (hunmap s2 { e1 with child := t } hp hl (T.keeps hinv h2)).mono fun _ hr =>
      T.trans hab (Nat.le_refl b) h2 hr
  · rw [hhole]
    exact .ok (ht.gone (by simpa using hp))

end Sweep

/-- The range covers the block in pages as it does in addresses. -/
theorem covers_iff (h : Meets .pde lo hi c) :
    (pageAddr lo ≤ first .pde c ∧ pageLast hi ≥ last .pde c) ↔ lo ≤ c * 512 ∧ c * 512 + 511 ≤ hi := by
  have hfirst : c * 512 < NPAGES := Nat.lt_of_le_of_lt h.first h.lt
  have hlo : lo < NPAGES := Nat.lt_of_le_of_lt h.le h.lt
  have hend := block_lt .pde hfirst
  simp only [pages, Nat.mul_div_cancel _ (show 0 < 512 by decide)] at hend
  simp only [first, last, pages, pageLast, ge_iff_le, Nat.add_le_add_iff_right]
  have h1 := pageAddr_lt_iff hfirst hlo
  have h2 := pageAddr_lt_iff h.lt hend
  omega

/-! ## The walk -/

/-- The callbacks at the entries of a level respect the tracks of its blocks, which are lifted from those of the level below. -/
structure LevelTracked {σ C : Type} (bad : Stop → Prop) (isLeaf : Entry → Bool) (l l' : Level) (lo hi : Nat)
    (callback unmap : Nat → Nat → σ → Branch C → Kernel (σ × Branch C)) (T' : Nat → PageTrack σ C)
    (T : Nat → PageTrack σ (Branch C)) : Prop where
  call : ∀ c, Meets l lo hi c → ∀ s e, (T c).inv s e → Ends bad (callback (l.first c) (l.last c) s e)
    (Turned bad isLeaf (l.clipLo lo c) (l.clipHi hi c + 1) ((T c).after s e) (unmap (l.first c)))
  unmap : ∀ c, Meets l lo hi c → ∀ last s e, e.entry.present = true → isLeaf e.entry = false → (T c).inv s e →
    Ends bad (unmap (l.first c) last s e) ((T c).after s e (l.clipHi hi c + 1) (l.clipHi hi c + 1))
  lift : ∀ e d, Meets l' lo hi d → e.present = true → isLeaf e = false →
    PageLifts l' d (T' d) ((T (d / 512)).comap (Branch.mk e))

/-- The callbacks of a walker over the pages from `lo` to `hi` respect tracks for the blocks of each level. -/
structure Walker.PageTracked {σ : Type} (w : Walker σ) (bad : Stop → Prop) (lo hi : Nat) (T1 : Nat → PageTrack σ Entry)
    (T2 : Nat → PageTrack σ Pde) (T3 : Nat → PageTrack σ Pdpte) (T4 : Nat → PageTrack σ Pml4e) : Prop where
  hole : w.ptHoleCallback = fun _ _ s => .ok s
  pte : ∀ c, Meets .pte lo hi c → ∀ s e, (T1 c).inv s e →
    Ends bad (w.pteCallback (Level.first .pte c) (Level.last .pte c) s e) ((T1 c).after s e c (c + 1))
  pde : LevelTracked bad (fun e => e.huge) .pde .pte lo hi w.pdeCallback w.pdeUnmap T1 T2
  pdpte : LevelTracked bad (fun _ => false) .pdpte .pde lo hi w.pdpteCallback w.pdpteUnmap T2 T3
  pml4e : LevelTracked bad (fun _ => false) .pml4e .pdpte lo hi w.pml4eCallback w.pml4eUnmap T3 T4

section Turns

variable {C : Type} {f : Nat → σ → C → Kernel (σ × C)}

/-- Sweeping the clipped part of a block, with the tracks of the level below. -/
theorem sweep_below {l l' : Level} {T : Nat → PageTrack σ C}
    {U : PageTrack σ (Nat → C)} (hc : Meets l lo hi c) (hl : l.pages = 512 * l'.pages)
    (hlift : ∀ d, Meets l' lo hi d → d / 512 = c → PageLifts l' d (T d) U)
    (hf : ∀ d, Meets l' lo hi d → ∀ s e, (T d).inv s e → Ends bad (f d s e) ((T d).after s e (l'.clipLo lo d) (l'.clipHi hi d + 1)))
    {t : Nat → C} (hinv : U.inv s t) :
    Ends bad (sweepPages l' f (l.clipLo lo c) (l.clipHi hi c) s t) (U.after s t (l.clipLo lo c) (l.clipHi hi c + 1)) := by
  refine sweepPages_track (T := T) (fun d hd => ?_) (fun d hd s e hi' => ?_) hc.clip_le hc.clipHi_lt hinv
  · obtain ⟨hm, hdc⟩ := (Meets.clip_iff hl hc).1 hd
    exact hlift d hm hdc
  · obtain ⟨hm, hdc⟩ := (Meets.clip_iff hl hc).1 hd
    obtain ⟨h1, h2⟩ := Walker.clip_clip l l' lo hi hl hdc (by decide)
    rw [h1, h2]
    exact hf d hm s e hi'

/-- A turn at an entry of the level, with the turns of the level below. -/
theorem LevelTracked.turn {isLeaf : Entry → Bool} {l l' : Level}
    {callback unmap : Nat → Nat → σ → Branch C → Kernel (σ × Branch C)} {T' : Nat → PageTrack σ C} {T : Nat → PageTrack σ (Branch C)}
    {hole : σ → Branch C → Kernel (σ × Branch C)} {last : Nat}
    (h : LevelTracked bad isLeaf l l' lo hi callback unmap T' T) (hl : l.pages = 512 * l'.pages)
    (hhole : hole = fun s e => .ok (s, e))
    (hf : ∀ d, Meets l' lo hi d → ∀ s e, (T' d).inv s e → Ends bad (f d s e) ((T' d).after s e (l'.clipLo lo d) (l'.clipHi hi d + 1)))
    (hc : Meets l lo hi c) {e : Branch C} (hi' : (T c).inv s e) :
    Ends bad (branchTurn isLeaf (callback (l.first c) (l.last c)) (unmap (l.first c) last) hole
      (sweepPages l' f (l.clipLo lo c) (l.clipHi hi c)) s e) ((T c).after s e (l.clipLo lo c) (l.clipHi hi c + 1)) :=
  branchTurn_track hc.clip_bounds.2.1 hi' (h.call c hc s e hi') (h.unmap c hc last) hhole fun _ e hp hh hinv =>
    sweep_below (T := T') hc hl (fun d hd hdc => hdc ▸ h.lift e.entry d hd hp hh) hf hinv

end Turns

namespace Walker.PageTracked

variable {w : Walker σ} {T1 : Nat → PageTrack σ Entry} {T2 : Nat → PageTrack σ Pde} {T3 : Nat → PageTrack σ Pdpte}
  {T4 : Nat → PageTrack σ Pml4e}

theorem holeTurn (h : w.PageTracked bad lo hi T1 T2 T3 T4) (l : Level) (c : Nat) :
    w.holeTurn (N := N) l c = fun s e => .ok (s, e) := by
  funext s e
  rw [Walker.holeTurn, h.hole]
  rfl

theorem pteTurn (h : w.PageTracked bad lo hi T1 T2 T3 T4) (hc : Meets .pte lo hi c) {e : Entry} (hi' : (T1 c).inv s e) :
    Ends bad (w.pteTurn c s e) ((T1 c).after s e (clipLo .pte lo c) (clipHi .pte hi c + 1)) := by
  have hclip : clipLo .pte lo c = c ∧ clipHi .pte hi c = c := by
    have h1 := hc.first
    have h2 := hc.last
    simp only [clipLo, clipHi, pages] at *
    omega
  rw [hclip.1, hclip.2]
  refine (h.pte c hc s e hi').bind fun _ hr => ?_
  refine .ite (fun _ => .ok hr) fun _ => ?_
  rw [h.holeTurn]
  exact .ok hr

/-- The walk does to the PML4 what its callbacks do to the entries. -/
theorem pageWalk (h : w.PageTracked bad lo hi T1 T2 T3 T4) (hle : lo ≤ hi) (hhi : hi < NPAGES) {T5 : PageTrack σ Pml4}
    (hl : ∀ d, Meets .pml4e lo hi d → PageLifts .pml4e d (T4 d) T5) {t : Pml4} (hinv : T5.inv s t) :
    Ends bad (w.pageWalk lo hi s t) fun r => T5.rel lo (hi + 1) s t r.1 r.2 :=
  sweepPages_track hl (fun _ hd _ _ hi' => h.pml4e.turn rfl (h.holeTurn _ _) (fun _ hd _ _ hi' =>
    h.pdpte.turn rfl (h.holeTurn _ _) (fun _ hd _ _ hi' =>
      h.pde.turn rfl (h.holeTurn _ _) (fun _ hd _ _ hi' => h.pteTurn hd hi') hd hi') hd hi') hd hi') hle hhi hinv

end Walker.PageTracked

end OpenLsd
