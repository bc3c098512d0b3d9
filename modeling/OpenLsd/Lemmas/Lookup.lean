import OpenLsd.Mem.Lookup
import OpenLsd.Lemmas.PageRules

/-!
# The walk of a lookup

A walk whose callbacks store what they find in a slot leaves there what the last page has that has anything (`scan`). The
entry that maps a page is what the walk finds for it (`translatePage`), and this is the entry that the four levels lead to.
-/

namespace OpenLsd

open Outcome Function

variable {x : EntryPtr × Entry} {g : Nat} {t : Pml4}

/-! ## A slot that is overwritten -/

section Scan

variable {α : Type} {view view' : Nat → Option α} {a b c : Nat} {s : Option α}

/-- What is in the slot after the pages from `a` to before `b`. -/
def scan (view : Nat → Option α) (a b : Nat) (s : Option α) : Option α :=
  (List.range' a (b - a)).foldl (fun s g => (view g).or s) s

theorem scan_self : scan view a a s = s := by
  rw [scan, Nat.sub_self]
  rfl

theorem scan_one : scan view a (a + 1) s = (view a).or s := by
  rw [scan, Nat.add_sub_cancel_left]
  rfl

theorem scan_trans (hab : a ≤ b) (hbc : b ≤ c) : scan view b c (scan view a b s) = scan view a c s := by
  have hcat : List.range' a (c - a) = List.range' a (b - a) ++ List.range' b (c - b) := by
    have happ := List.range'_append_1 (s := a) (m := b - a) (n := c - b)
    rw [show a + (b - a) = b by omega, show b - a + (c - b) = c - a by omega] at happ
    exact happ.symm
  rw [scan, scan, scan, hcat, List.foldl_append]

theorem scan_congr (h : ∀ g, a ≤ g → g < b → view g = view' g) : scan view a b s = scan view' a b s := by
  refine List.foldl_ext _ _ _ fun s g hg => ?_
  obtain ⟨hle, hlt⟩ := List.mem_range'_1.1 hg
  rw [h g hle (by omega)]

theorem scan_none (h : ∀ g, a ≤ g → g < b → view g = none) : scan view a b s = s := by
  rw [scan_congr h, scan]
  exact List.foldl_fixed' (fun _ => rfl) _

theorem scan_some {x : α} (hab : a < b) (h : ∀ g, a ≤ g → g < b → view g = some x) : scan view a b s = some x := by
  rw [← scan_trans (b := b - 1) (by omega) (by omega), show b = b - 1 + 1 by omega, Nat.add_sub_cancel, scan_one,
    h (b - 1) (by omega) (by omega), Option.some_or]

end Scan

/-- A walk that changes no entry and stores in its slot what it finds for each page. -/
def scanTrack {N α : Type} (view : Nat → N → Option α) : PageTrack (Option α) N where
  inv := fun _ _ => True
  rel := fun a b s e s' e' => e' = e ∧ s' = scan (view · e) a b s
  refl := fun _ => ⟨rfl, scan_self.symm⟩
  trans := by
    rintro a b c s e s' _ s'' _ hab hbc ⟨rfl, rfl⟩ ⟨rfl, rfl⟩
    exact ⟨rfl, scan_trans hab hbc⟩
  keeps := fun _ _ => trivial

/-- The view of a table is that of its entries. -/
theorem scanTrack_lifts {N W α : Type} {l : Level} {d : Nat} {view : Nat → N → Option α} {view' : Nat → W → Option α}
    {mk : (Nat → N) → W} (h : ∀ t g, g / l.pages = d → view' g (mk t) = view g (t (d % 512))) :
    PageLifts l d (scanTrack view) ((scanTrack view').comap mk) where
  child := fun _ => trivial
  lift := by
    rintro a b s t s' _ ha hab hb - ⟨rfl, rfl⟩
    have hself : update t (d % 512) (t (d % 512)) = t := update_eq_self _ _
    refine ⟨by rw [hself], scan_congr fun g hg hgb => (h t g ?_).symm⟩
    exact Nat.div_eq_of_lt_le (by omega) (by rw [Nat.add_mul, Nat.one_mul]; omega)

/-! ## The entry that maps a page -/

def pteView (g : Nat) (e : Entry) : LookupInfo := if e.present = true then some (⟨false, Level.first .pte g⟩, e) else none

def pdeView (g : Nat) (e : Pde) : LookupInfo :=
  if e.entry.present = true then
    if e.entry.huge = true then some (⟨true, Level.first .pde (g / 512)⟩, e.entry) else pteView g (e.child (g % 512))
  else none

def pdpteView (g : Nat) (e : Pdpte) : LookupInfo :=
  if e.entry.present = true then pdeView g (e.child (g / 512 % 512)) else none

def pml4eView (g : Nat) (e : Pml4e) : LookupInfo :=
  if e.entry.present = true then pdpteView g (e.child (g / 262144 % 512)) else none

/-- The entry that maps the page with the number `g`, with the pointer to it. -/
def translatePage (t : Pml4) (g : Nat) : LookupInfo := pml4eView g (t (g / 134217728 % 512))

/-- What a PDE finds is a huge page, or an entry of its table. -/
theorem pdeView_cases {e : Pde} (h : pdeView g e = some x) : e.entry.present = true ∧
    (e.entry.huge = true ∧ x = (⟨true, Level.first .pde (g / 512)⟩, e.entry) ∨
      e.entry.huge = false ∧ (e.child (g % 512)).present = true ∧ x = (⟨false, Level.first .pte g⟩, e.child (g % 512))) := by
  unfold pdeView pteView at h
  split at h
  · next hp =>
    refine ⟨hp, ?_⟩
    split at h
    · next hh => exact .inl ⟨hh, (Option.some.inj h).symm⟩
    · next hh =>
      split at h
      · next hpte => exact .inr ⟨by simpa using hh, hpte, (Option.some.inj h).symm⟩
      · cases h
  · cases h

/-- What is found at a page is found by the PDE of its block, with tables on the way to it. -/
theorem translatePage_some : translatePage t g = some x ↔
    (pml4eAt t (g / 134217728)).entry.present = true ∧ (pdpteAt t (g / 262144)).entry.present = true ∧
      pdeView g (pdeAt t (g / 512)) = some x := by
  have h3 : pdpteAt t (g / 262144) = (pml4eAt t (g / 134217728)).child (g / 262144 % 512) := by
    rw [pdpteAt, Nat.div_div_eq_div_mul]
  have h2 : pdeAt t (g / 512) = (pdpteAt t (g / 262144)).child (g / 512 % 512) := by
    rw [pdeAt, Nat.div_div_eq_div_mul]
  rw [h2, h3, translatePage, pml4eView, pdpteView, pml4eAt]
  by_cases hp4 : (t (g / 134217728 % 512)).entry.present = true
  · by_cases hp3 : ((t (g / 134217728 % 512)).child (g / 262144 % 512)).entry.present = true
    · simp only [hp4, hp3, if_true, true_and]
    · simp only [hp4, if_true, true_and, if_neg hp3, reduceCtorEq, false_iff]
      exact fun h => hp3 h.1
  · simp only [if_neg hp4, reduceCtorEq, false_iff]
    exact fun h => hp4 h.1

theorem translatePage_block {g' : Nat} (hx : translatePage t g = some x) (hh : x.1.pde = true)
    (hg : g' / 512 = g / 512) : translatePage t g' = some x := by
  obtain ⟨h4, h3, h2⟩ := translatePage_some.1 hx
  have h4' : g' / 134217728 = g / 134217728 := by omega
  have h3' : g' / 262144 = g / 262144 := by omega
  rw [translatePage_some, h4', h3', hg]
  refine ⟨h4, h3, ?_⟩
  obtain ⟨hp, ⟨hhuge, rfl⟩ | ⟨-, -, rfl⟩⟩ := pdeView_cases h2
  · rw [pdeView, if_pos hp, if_pos hhuge, hg]
  · cases hh

/-- The callbacks of `page_lookup`. -/
theorem lookup_tracked (lo hi : Nat) :
    lookupWalker.PageTracked (fun _ => True) lo hi (fun _ => scanTrack pteView) (fun _ => scanTrack pdeView)
      (fun _ => scanTrack pdpteView) (fun _ => scanTrack pml4eView) where
  hole := rfl
  pte := by
    intro c hc s e _
    refine .ok ⟨rfl, ?_⟩
    rw [scan_one, lookupPte, pteView]
    split <;> rfl
  pde := by
    refine ⟨fun c hc s e _ => ?_, fun _ _ _ _ _ _ _ _ => .ok ⟨rfl, scan_self.symm⟩, fun e d _ hp hh => ?_⟩
    · have hview : ∀ g, Level.clipLo .pde lo c ≤ g → g < Level.clipHi .pde hi c + 1 → g / 512 = c := by
        intro g hg hgb
        obtain ⟨h1, -, h3⟩ := hc.clip_bounds
        simp only [Level.pages] at h1 h3
        omega
      refine .ok ⟨fun hp hh _ => .ok ⟨rfl, ?_⟩, fun hp hh => ⟨rfl, ?_⟩, fun hp => ⟨rfl, ?_⟩⟩
      · have hlt : Level.clipLo .pde lo c < Level.clipHi .pde hi c + 1 := Nat.lt_succ_of_le hc.clip_le
        refine (if_pos ⟨hp, hh⟩).trans (scan_some hlt fun g hg hgb => ?_).symm
        rw [pdeView, if_pos hp, if_pos hh, hview g hg hgb]
      · exact (if_neg fun h => Bool.false_ne_true (hh.symm.trans h.2)).trans scan_self.symm
      · refine (if_neg fun h => Bool.false_ne_true (hp.symm.trans h.1)).trans (scan_none fun g _ _ => ?_).symm
        exact if_neg fun h => Bool.false_ne_true (hp.symm.trans h)
    · refine scanTrack_lifts fun t g hg => ?_
      rw [Level.pages, Nat.div_one] at hg
      rw [pdeView, if_pos hp, if_neg (by simp [show e.huge = false from hh]), hg]
  pdpte := ⟨fun c _ s e _ => .ok ⟨nofun, fun _ _ => ⟨rfl, scan_self.symm⟩, fun hp => ⟨rfl, (scan_none fun g _ _ =>
    if_neg fun h => Bool.false_ne_true (hp.symm.trans h)).symm⟩⟩, fun _ _ _ _ _ _ _ _ => .ok ⟨rfl, scan_self.symm⟩,
    fun e d _ hp _ => scanTrack_lifts fun t g hg => by
      rw [Level.pages] at hg
      rw [pdpteView, if_pos hp, hg]⟩
  pml4e := ⟨fun c _ s e _ => .ok ⟨nofun, fun _ _ => ⟨rfl, scan_self.symm⟩, fun hp => ⟨rfl, (scan_none fun g _ _ =>
    if_neg fun h => Bool.false_ne_true (hp.symm.trans h)).symm⟩⟩, fun _ _ _ _ _ _ _ _ => .ok ⟨rfl, scan_self.symm⟩,
    fun e d _ hp _ => scanTrack_lifts fun t g hg => by
      rw [Level.pages] at hg
      rw [pml4eView, if_pos hp, hg]⟩

/-- The walk leaves in the slot what the last page has that is mapped. -/
theorem lookup_pageWalk {lo hi : Nat} (hle : lo ≤ hi) (hhi : hi < NPAGES) (t : Pml4) :
    lookupWalker.pageWalk lo hi none t = .ok (scan (translatePage t) lo (hi + 1) none, t) := by
  have hview : ∀ d (t : Pml4) g, g / Level.pages .pml4e = d → translatePage t g = pml4eView g (t (d % 512)) := by
    rintro _ t g rfl
    rfl
  have hlift : ∀ d, Meets .pml4e lo hi d →
      PageLifts .pml4e d (scanTrack pml4eView) ((scanTrack fun g t => translatePage t g).comap id) :=
    fun d _ => scanTrack_lifts (hview d)
  have hinv : ((scanTrack fun g t => translatePage t g).comap id).inv none t := trivial
  obtain ⟨r, hr, ht, hs⟩ := ((lookup_tracked lo hi).pageWalk hle hhi hlift hinv).total
  exact hr.trans (congrArg Except.ok (Prod.ext hs ht))

end OpenLsd
