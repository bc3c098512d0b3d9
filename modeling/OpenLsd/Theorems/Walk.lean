import OpenLsd.Lemmas.Walk

/-!
# What the page walker visits

A walk whose callbacks leave the entries alone is a list of calls, made one after the other until one of them fails. The list
has a call for every entry that meets the range and that the tables above lead to, once and in ascending order.
-/

namespace OpenLsd

variable {σ : Type} {t : Pml4} {lo hi c base : Nat} {x : Call} {g : Nat → List Call} {l : Level}

/-- A call of a callback, for the block `c` of a level: of the one for entries, of the one after the walk over the table below,
or of the one for holes. -/
inductive Call where
  | entry (l : Level) (c : Nat)
  | unmap (l : Level) (c : Nat)
  | hole (l : Level) (c : Nat)
  deriving DecidableEq, Repr

/-- The entry of the block `c` of a level. -/
def entryAt (t : Pml4) : Level → Nat → Entry
  | .pte, c => pteAt t c
  | .pde, c => (pdeAt t c).entry
  | .pdpte, c => (pdpteAt t c).entry
  | .pml4e, c => (pml4eAt t c).entry

/-- The entries above the block `c` of a level are present, and no huge page is above it. -/
def ParentsPresent (t : Pml4) : Level → Nat → Prop
  | .pml4e, _ => True
  | .pdpte, c => (pml4eAt t (c / 512)).entry.present = true
  | .pde, c => (pml4eAt t (c / 512 / 512)).entry.present = true ∧ (pdpteAt t (c / 512)).entry.present = true
  | .pte, c => (pml4eAt t (c / 512 / 512 / 512)).entry.present = true ∧ (pdpteAt t (c / 512 / 512)).entry.present = true ∧
      (pdeAt t (c / 512)).entry.present = true ∧ (pdeAt t (c / 512)).entry.huge = false

instance (t : Pml4) (l : Level) (c : Nat) : Decidable (ParentsPresent t l c) :=
  match l with
  | .pml4e => inferInstanceAs (Decidable True)
  | .pdpte => inferInstanceAs (Decidable (_ = true))
  | .pde => inferInstanceAs (Decidable (_ ∧ _))
  | .pte => inferInstanceAs (Decidable (_ ∧ _ ∧ _ ∧ _))

/-- The block `c` has a page from `lo` to `hi`, and the tables above lead to its entry. -/
def Visited (t : Pml4) (lo hi : Nat) (l : Level) (c : Nat) : Prop :=
  c * l.pages ≤ hi ∧ lo < c * l.pages + l.pages ∧ ParentsPresent t l c

instance (t : Pml4) (lo hi : Nat) (l : Level) (c : Nat) : Decidable (Visited t lo hi l c) := inferInstanceAs (Decidable (_ ∧ _ ∧ _))

/-- A visited entry with nothing below it: a hole, a page or a huge page. -/
def Tile (t : Pml4) (lo hi : Nat) (l : Level) (c : Nat) : Prop :=
  Visited t lo hi l c ∧
    ((entryAt t l c).present = false ∨ l = .pte ∨ (l = .pde ∧ (entryAt t l c).huge = true))

/-! ## The list of calls -/

/-- The numbers of the blocks that a sweep comes to. -/
def blocks (l : Level) (lo hi : Nat) : List Nat := List.range' (lo / l.pages) (hi / l.pages - lo / l.pages + 1)

/-- The calls for an entry with a table below it. -/
def branchCalls (l : Level) (c : Nat) (e : Entry) (leaf : Bool) (below : List Call) : List Call :=
  .entry l c :: if e.present then (if leaf then [] else below) ++ [.unmap l c] else [.hole l c]

def pteCalls (t : Pml4) (c : Nat) : List Call := .entry .pte c :: if (pteAt t c).present then [] else [.hole .pte c]

def pdeCalls (t : Pml4) (lo hi c : Nat) : List Call :=
  branchCalls .pde c (pdeAt t c).entry (pdeAt t c).entry.huge
    ((blocks .pte (Level.clipLo .pde lo c) (Level.clipHi .pde hi c)).flatMap (pteCalls t))

def pdpteCalls (t : Pml4) (lo hi c : Nat) : List Call :=
  branchCalls .pdpte c (pdpteAt t c).entry false
    ((blocks .pde (Level.clipLo .pdpte lo c) (Level.clipHi .pdpte hi c)).flatMap (pdeCalls t lo hi))

def pml4eCalls (t : Pml4) (lo hi c : Nat) : List Call :=
  branchCalls .pml4e c (pml4eAt t c).entry false
    ((blocks .pdpte (Level.clipLo .pml4e lo c) (Level.clipHi .pml4e hi c)).flatMap (pdpteCalls t lo hi))

/-- The calls of a walk over the pages from `lo` to `hi`. -/
def calls (t : Pml4) (lo hi : Nat) : List Call := (blocks .pml4e lo hi).flatMap (pml4eCalls t lo hi)

/-- One call, with the boundaries and the entry that it gets. The boundary that is passed to `pdpte_unmap` is clipped. -/
def Walker.exec {σ : Type} (w : Walker σ) (t : Pml4) (hi : Nat) (s : σ) : Call → Kernel σ
  | .entry .pte c => do let r ← w.pteCallback (Level.first .pte c) (Level.last .pte c) s (pteAt t c); .ok r.1
  | .entry .pde c => do let r ← w.pdeCallback (Level.first .pde c) (Level.last .pde c) s (pdeAt t c); .ok r.1
  | .entry .pdpte c => do let r ← w.pdpteCallback (Level.first .pdpte c) (Level.last .pdpte c) s (pdpteAt t c); .ok r.1
  | .entry .pml4e c => do let r ← w.pml4eCallback (Level.first .pml4e c) (Level.last .pml4e c) s (pml4eAt t c); .ok r.1
  | .unmap .pte _ => .ok s
  | .unmap .pde c => do let r ← w.pdeUnmap (Level.first .pde c) (Level.last .pde c) s (pdeAt t c); .ok r.1
  | .unmap .pdpte c => do
    let r ← w.pdpteUnmap (Level.first .pdpte c) (pageLast (Level.clipHi .pdpte hi c)) s (pdpteAt t c); .ok r.1
  | .unmap .pml4e c => do let r ← w.pml4eUnmap (Level.first .pml4e c) (Level.last .pml4e c) s (pml4eAt t c); .ok r.1
  | .hole l c => w.ptHoleCallback (l.first c) (l.last c) s

/-- The callback leaves the entry that it is called for as it is. -/
def KeepsEntry {σ N : Type} (callback : Nat → Nat → σ → N → Kernel (σ × N)) : Prop :=
  ∀ first last s e r, callback first last s e = .ok r → r.2 = e

/-- No callback modifies an entry. -/
structure Walker.Keeps {σ : Type} (w : Walker σ) : Prop where
  pte : KeepsEntry w.pteCallback
  pde : KeepsEntry w.pdeCallback
  pdpte : KeepsEntry w.pdpteCallback
  pml4e : KeepsEntry w.pml4eCallback
  pdeUnmap : KeepsEntry w.pdeUnmap
  pdpteUnmap : KeepsEntry w.pdpteUnmap
  pml4eUnmap : KeepsEntry w.pml4eUnmap

/-! ## The walk makes the calls -/

section Exec

variable {N : Type} {exec : σ → Call → Kernel σ}

/-- The calls one after the other, with the node that stays as it is. -/
def runCalls (exec : σ → Call → Kernel σ) (l : List Call) (s : σ) (e : N) : Kernel (σ × N) := do
  let s ← l.foldlM exec s
  .ok (s, e)

theorem runCalls_cons (x : Call) (l : List Call) (s : σ) (e : N) :
    runCalls exec (x :: l) s e = exec s x >>= fun s => runCalls exec l s e := by
  rw [runCalls, List.foldlM_cons]
  cases exec s x <;> rfl

theorem runCalls_append (l l' : List Call) (s : σ) (e : N) :
    runCalls exec (l ++ l') s e = runCalls exec l s e >>= fun r => runCalls exec l' r.1 e := by
  rw [runCalls, runCalls, List.foldlM_append]
  cases l.foldlM exec s <;> rfl

theorem KeepsEntry.eq {callback : Nat → Nat → σ → N → Kernel (σ × N)} (h : KeepsEntry callback) (first last : Nat) (s : σ)
    (e : N) : callback first last s e = (callback first last s e >>= fun r => .ok r.1) >>= fun s => .ok (s, e) := by
  cases hc : callback first last s e with
  | error => rfl
  | ok r =>
    rw [← h first last s e r hc]
    rfl

/-- A sweep of turns that are lists of calls. -/
theorem sweep_runCalls {f : Nat → σ → N → Kernel (σ × N)} {t : Nat → N}
    (n c : Nat) (h : ∀ d, c ≤ d → d < c + n → ∀ s, f d s (t (d % 512)) = runCalls exec (g d) s (t (d % 512))) (s : σ) :
    sweep f n c s t = runCalls exec ((List.range' c n).flatMap g) s t := by
  induction n generalizing c s with
  | zero => rfl
  | succ n ih =>
    rw [sweep, h c (Nat.le_refl c) (by omega), List.range'_succ, List.flatMap_cons, runCalls_append, runCalls, runCalls]
    cases (g c).foldlM exec s with
    | error => rfl
    | ok s =>
      show sweep f n (c + 1) s (Function.update t (c % 512) (t (c % 512))) = _
      rw [Function.update_eq_self]
      exact ih (c + 1) (fun d hd hdn => h d (by omega) (by omega)) s

theorem branchTurn_runCalls {C : Type} {leaf : Entry → Bool}
    {callback unmap hole : σ → Branch C → Kernel (σ × Branch C)} {walk : σ → (Nat → C) → Kernel (σ × (Nat → C))}
    {l : Level} {e : Branch C} {below : List Call} (hc : ∀ s, callback s e = exec s (.entry l c) >>= fun s => .ok (s, e))
    (hu : ∀ s, unmap s e = exec s (.unmap l c) >>= fun s => .ok (s, e))
    (hh : ∀ s, hole s e = exec s (.hole l c) >>= fun s => .ok (s, e)) (hw : ∀ s, walk s e.child = runCalls exec below s e.child)
    (s : σ) :
    branchTurn leaf callback unmap hole walk s e = runCalls exec (branchCalls l c e.entry (leaf e.entry) below) s e := by
  have hone : ∀ s x, runCalls exec [x] s e = exec s x >>= fun s => .ok (s, e) := by
    intro s x
    rw [runCalls_cons]
    rfl
  rw [branchTurn, hc, branchCalls, runCalls_cons]
  cases exec s (.entry l c) with
  | error => rfl
  | ok s =>
    show (if _ then _ else _) = runCalls exec (if _ then _ else _) s e
    by_cases hp : e.entry.present = true
    · rw [if_pos hp, if_pos hp]
      by_cases hl : leaf e.entry = true
      · rw [if_pos hl, if_pos hl, List.nil_append, hone, hu]
      · rw [if_neg hl, if_neg hl, hw, runCalls_append, runCalls, runCalls]
        cases below.foldlM exec s with
        | error => rfl
        | ok s =>
          show unmap s e = runCalls exec [.unmap l c] s e
          rw [hone, hu]
    · rw [if_neg hp, if_neg hp, hh, hone]

end Exec

namespace Walker

variable {w : Walker σ}

theorem Keeps.pteTurn (hw : w.Keeps) (s : σ) : w.pteTurn c s (pteAt t c) = runCalls (w.exec t hi) (pteCalls t c) s (pteAt t c) := by
  rw [Walker.pteTurn, hw.pte.eq, pteCalls, runCalls_cons, exec]
  cases w.pteCallback (Level.first .pte c) (Level.last .pte c) s (pteAt t c) with
  | error => rfl
  | ok r =>
    show (if _ then _ else _) = runCalls (w.exec t hi) (if _ then _ else _) r.1 _
    by_cases hp : (pteAt t c).present = true
    · rw [if_pos hp, if_pos hp]
      rfl
    · rw [if_neg hp, if_neg hp, runCalls_cons]
      rfl

/-- The table below the block `c`, swept over the clipped range. -/
theorem sweepPages_runCalls {C : Type} {l l' : Level} {exec : σ → Call → Kernel σ} {f : Nat → σ → C → Kernel (σ × C)}
    {at' : Nat → C} {child : Nat → C} (h : Meets l lo hi c) (hl : l.pages = 512 * l'.pages)
    (hchild : ∀ d, d / 512 = c → child (d % 512) = at' d)
    (hf : ∀ d s, Meets l' lo hi d → f d s (at' d) = runCalls exec (g d) s (at' d)) (s : σ) :
    sweepPages l' f (l.clipLo lo c) (l.clipHi hi c) s child =
      runCalls exec ((blocks l' (l.clipLo lo c) (l.clipHi hi c)).flatMap g) s child := by
  refine sweep_runCalls _ _ (fun d hd hdn s => ?_) s
  obtain ⟨hm, hdc⟩ := (Meets.clip_iff hl h).1 (Meets.of_sweep h.clip_le h.clipHi_lt hd hdn)
  rw [hchild d hdc]
  exact hf d s hm

theorem Keeps.pdeTurn (hw : w.Keeps) (h : Meets .pde lo hi c) (s : σ) :
    w.pdeTurn lo hi c s (pdeAt t c) = runCalls (w.exec t hi) (pdeCalls t lo hi c) s (pdeAt t c) := by
  refine branchTurn_runCalls (fun s => hw.pde.eq _ _ s _) (fun s => hw.pdeUnmap.eq _ _ s _) (fun s => rfl) (fun s => ?_) s
  refine sweepPages_runCalls h rfl (fun d hd => ?_) (fun d s _ => hw.pteTurn s) s
  rw [pteAt, hd]

theorem Keeps.pdpteTurn (hw : w.Keeps) (h : Meets .pdpte lo hi c) (s : σ) :
    w.pdpteTurn lo hi c s (pdpteAt t c) = runCalls (w.exec t hi) (pdpteCalls t lo hi c) s (pdpteAt t c) := by
  refine branchTurn_runCalls (fun s => hw.pdpte.eq _ _ s _) (fun s => hw.pdpteUnmap.eq _ _ s _) (fun s => rfl) (fun s => ?_) s
  refine sweepPages_runCalls h rfl (fun d hd => ?_) (fun d s hm => hw.pdeTurn hm s) s
  rw [pdeAt, hd]

theorem Keeps.pml4eTurn (hw : w.Keeps) (h : Meets .pml4e lo hi c) (s : σ) :
    w.pml4eTurn lo hi c s (pml4eAt t c) = runCalls (w.exec t hi) (pml4eCalls t lo hi c) s (pml4eAt t c) := by
  refine branchTurn_runCalls (fun s => hw.pml4e.eq _ _ s _) (fun s => hw.pml4eUnmap.eq _ _ s _) (fun s => rfl) (fun s => ?_) s
  refine sweepPages_runCalls h rfl (fun d hd => ?_) (fun d s hm => hw.pdpteTurn hm s) s
  rw [pdpteAt, hd]

/-- The walk is its list of calls. -/
theorem Keeps.pageWalk (hw : w.Keeps) (hle : lo ≤ hi) (hhi : hi < NPAGES) (s : σ) :
    w.pageWalk lo hi s t = runCalls (w.exec t hi) (calls t lo hi) s t :=
  sweep_runCalls _ _ (fun _ hd hdn s => hw.pml4eTurn (Meets.of_sweep hle hhi hd hdn) s) s

end Walker

/-! ## Which calls there are -/

theorem mem_blocks (hle : lo ≤ hi) (hhi : hi < NPAGES) : c ∈ blocks l lo hi ↔ Meets l lo hi c := by
  rw [blocks, List.mem_range'_1]
  refine ⟨fun h => Meets.of_sweep hle hhi h.1 h.2, fun h => ?_⟩
  have h1 := (Nat.le_div_iff_mul_le l.pages_pos).2 h.first
  have h2 : lo / l.pages < c + 1 := (Nat.div_lt_iff_lt_mul l.pages_pos).2 (by rw [Nat.add_one_mul]; exact h.last)
  omega

theorem mem_branchCalls {e : Entry} {leaf : Bool} {below : List Call} :
    x ∈ branchCalls l c e leaf below ↔ x = .entry l c ∨ (e.present = true ∧ leaf = false ∧ x ∈ below) ∨
      (e.present = true ∧ x = .unmap l c) ∨ (e.present = false ∧ x = .hole l c) := by
  rw [branchCalls, List.mem_cons]
  refine or_congr Iff.rfl ?_
  cases hp : e.present <;> cases hl : leaf <;> simp

section Members

/-- A call for the entry of the block `c` itself. -/
def OwnCall (t : Pml4) (l : Level) (c : Nat) (x : Call) : Prop :=
  x = .entry l c ∨ (l ≠ .pte ∧ (entryAt t l c).present = true ∧ x = .unmap l c) ∨ ((entryAt t l c).present = false ∧ x = .hole l c)

theorem mem_pteCalls : x ∈ pteCalls t c ↔ OwnCall t .pte c x := by
  rw [pteCalls, List.mem_cons, OwnCall, entryAt]
  refine or_congr Iff.rfl ?_
  cases hp : (pteAt t c).present <;> simp

/-- The calls of the table below the block `c`. -/
theorem mem_below {l l' : Level} (hl : l.pages = 512 * l'.pages) (h : Meets l lo hi c) :
    x ∈ (blocks l' (l.clipLo lo c) (l.clipHi hi c)).flatMap g ↔ ∃ d, Meets l' lo hi d ∧ d / 512 = c ∧ x ∈ g d := by
  simp only [List.mem_flatMap, mem_blocks h.clip_le h.clipHi_lt, Meets.clip_iff hl h, and_assoc]

/-- A block above one that has a page in the range has one as well. -/
theorem Meets.up {l l' : Level} {d : Nat} (hl : l.pages = 512 * l'.pages) (h : Meets l' lo hi d) : Meets l lo hi (d / 512) := by
  obtain ⟨h1, h2, h3, h4⟩ := h
  refine ⟨h1, h2, ?_, ?_⟩
  · rw [hl, ← Nat.mul_assoc]
    exact Nat.le_trans (Nat.mul_le_mul_right _ (Nat.div_mul_le_self d 512)) h3
  · refine Nat.lt_of_lt_of_le h4 ?_
    rw [hl, ← Nat.mul_assoc, ← Nat.add_one_mul, ← Nat.add_mul]
    exact Nat.mul_le_mul_right _ (by omega)

/-- The calls for the block `c` are its own and, below an entry that is present and no leaf, those of the table. -/
theorem mem_branch {l l' : Level} {e : Entry} {leaf : Bool} (hl : l.pages = 512 * l'.pages) (hn : l ≠ .pte)
    (he : entryAt t l c = e) (h : Meets l lo hi c) :
    x ∈ branchCalls l c e leaf ((blocks l' (l.clipLo lo c) (l.clipHi hi c)).flatMap g) ↔
      OwnCall t l c x ∨ (e.present = true ∧ leaf = false ∧ ∃ d, Meets l' lo hi d ∧ d / 512 = c ∧ x ∈ g d) := by
  rw [mem_branchCalls, mem_below hl h, OwnCall, he]
  simp only [ne_eq, hn, not_false_eq_true, true_and, or_assoc, or_comm]

theorem mem_calls (hle : lo ≤ hi) (hhi : hi < NPAGES) :
    x ∈ calls t lo hi ↔ ∃ c, Meets .pml4e lo hi c ∧ x ∈ pml4eCalls t lo hi c := by
  simp only [calls, List.mem_flatMap, mem_blocks hle hhi]

/-- Whether a call is for an entry that is visited, and for a hole whether nothing is there. -/
def Call.Due (t : Pml4) (lo hi : Nat) : Call → Prop
  | .entry l c => Meets l lo hi c ∧ ParentsPresent t l c
  | .unmap l c => Meets l lo hi c ∧ ParentsPresent t l c ∧ l ≠ .pte ∧ (entryAt t l c).present = true
  | .hole l c => Meets l lo hi c ∧ ParentsPresent t l c ∧ (entryAt t l c).present = false

theorem Call.due_iff : x.Due t lo hi ↔ ∃ l c, Meets l lo hi c ∧ ParentsPresent t l c ∧ OwnCall t l c x := by
  constructor
  · intro h
    cases x with
    | entry l c => exact ⟨l, c, h.1, h.2, .inl rfl⟩
    | unmap l c => exact ⟨l, c, h.1, h.2.1, .inr (.inl ⟨h.2.2.1, h.2.2.2, rfl⟩)⟩
    | hole l c => exact ⟨l, c, h.1, h.2.1, .inr (.inr ⟨h.2.2, rfl⟩)⟩
  · rintro ⟨l, c, hm, hp, rfl | ⟨hl, he, rfl⟩ | ⟨he, rfl⟩⟩
    · exact ⟨hm, hp⟩
    · exact ⟨hm, hp, hl, he⟩
    · exact ⟨hm, hp, he⟩

/-- The calls at a level are among those of the entry above, if that is present. -/
theorem mem_calls_of_pdpte (h : Meets .pdpte lo hi c) (hp : ParentsPresent t .pdpte c) (hx : x ∈ pdpteCalls t lo hi c) :
    ∃ c, Meets .pml4e lo hi c ∧ x ∈ pml4eCalls t lo hi c :=
  ⟨c / 512, h.up rfl, (mem_branch rfl (by decide) rfl (h.up rfl)).2 (.inr ⟨hp, rfl, c, h, rfl, hx⟩)⟩

theorem mem_calls_of_pde (h : Meets .pde lo hi c) (hp : ParentsPresent t .pde c) (hx : x ∈ pdeCalls t lo hi c) :
    ∃ c, Meets .pml4e lo hi c ∧ x ∈ pml4eCalls t lo hi c :=
  mem_calls_of_pdpte (h.up rfl) hp.1 ((mem_branch rfl (by decide) rfl (h.up rfl)).2 (.inr ⟨hp.2, rfl, c, h, rfl, hx⟩))

theorem mem_calls_of_pte (h : Meets .pte lo hi c) (hp : ParentsPresent t .pte c) (hx : x ∈ pteCalls t c) :
    ∃ c, Meets .pml4e lo hi c ∧ x ∈ pml4eCalls t lo hi c :=
  mem_calls_of_pde (h.up rfl) ⟨hp.1, hp.2.1⟩
    ((mem_branch rfl (by decide) rfl (h.up rfl)).2 (.inr ⟨hp.2.2.1, hp.2.2.2, c, h, rfl, hx⟩))

/-- The calls that are made are those that are due. -/
theorem mem_calls_iff (hle : lo ≤ hi) (hhi : hi < NPAGES) : x ∈ calls t lo hi ↔ x.Due t lo hi := by
  rw [mem_calls hle hhi, Call.due_iff]
  constructor
  · rintro ⟨c, hc, hx⟩
    rcases (mem_branch rfl (by decide) rfl hc).1 hx with hx | ⟨hp, _, d, hd, rfl, hx1⟩
    · exact ⟨_, c, hc, trivial, hx⟩
    rcases (mem_branch rfl (by decide) rfl hd).1 hx1 with hx | ⟨hp1, _, d1, hd1, rfl, hx2⟩
    · exact ⟨_, d, hd, hp, hx⟩
    rcases (mem_branch rfl (by decide) rfl hd1).1 hx2 with hx | ⟨hp2, hh, d2, hd2, rfl, hx3⟩
    · exact ⟨_, d1, hd1, ⟨hp, hp1⟩, hx⟩
    · exact ⟨_, d2, hd2, ⟨hp, hp1, hp2, hh⟩, mem_pteCalls.1 hx3⟩
  · rintro ⟨l, c, hm, hp, hx⟩
    cases l with
    | pte => exact mem_calls_of_pte hm hp (mem_pteCalls.2 hx)
    | pde => exact mem_calls_of_pde hm hp ((mem_branch rfl (by decide) rfl hm).2 (.inl hx))
    | pdpte => exact mem_calls_of_pdpte hm hp ((mem_branch rfl (by decide) rfl hm).2 (.inl hx))
    | pml4e => exact ⟨c, hm, (mem_branch rfl (by decide) rfl hm).2 (.inl hx)⟩

end Members

/-! ## The order of the calls -/

/-- The first page and the number of pages of the block that a call is for. -/
def Call.start : Call → Nat
  | .entry l c => c * l.pages
  | .unmap l c => c * l.pages
  | .hole l c => c * l.pages

def Call.pages : Call → Nat
  | .entry l _ => l.pages
  | .unmap l _ => l.pages
  | .hole l _ => l.pages

/-- The order of the visits: by page number, and so by address, an entry before those below it, and no hole twice. -/
def Call.Before : Call → Call → Prop
  | .entry l c, .entry l' c' => c * l.pages < c' * l'.pages ∨ (c * l.pages = c' * l'.pages ∧ l'.pages < l.pages)
  | .hole l c, .hole l' c' => c * l.pages < c' * l'.pages
  | _, _ => True

/-- The calls are ordered, and are for the block `c` or for blocks in it. -/
structure Ordered (l : Level) (c : Nat) (xs : List Call) : Prop where
  before : xs.Pairwise Call.Before
  bounds : ∀ x ∈ xs, c * l.pages ≤ x.start ∧ x.start + x.pages ≤ c * l.pages + l.pages

theorem Call.Before.of_start {y : Call} (h : x.start < y.start) : x.Before y := by
  cases x with
  | entry l c =>
    cases y with
    | entry l' c' => exact .inl h
    | unmap => trivial
    | hole => trivial
  | unmap => trivial
  | hole l c =>
    cases y with
    | entry => trivial
    | unmap => trivial
    | hole l' c' => exact h

section Order

variable {l l' : Level} {leaf : Bool} {e : Entry}

theorem Call.pages_pos (x : Call) : 0 < x.pages := by
  cases x with
  | entry l => exact l.pages_pos
  | unmap l => exact l.pages_pos
  | hole l => exact l.pages_pos

theorem Ordered.flatMap (hg : ∀ d ∈ blocks l lo hi, Ordered l d (g d)) : ((blocks l lo hi).flatMap g).Pairwise Call.Before := by
  rw [List.pairwise_flatMap]
  refine ⟨fun d hd => (hg d hd).before, ?_⟩
  have hlt : (blocks l lo hi).Pairwise (· < ·) := List.pairwise_lt_range'
  refine hlt.imp_of_mem fun {a b} ha hb hab x hx y hy => ?_
  have h1 := ((hg a ha).bounds x hx).2
  have h2 := ((hg b hb).bounds y hy).1
  have h3 : a * l.pages + l.pages ≤ b * l.pages := by
    rw [← Nat.add_one_mul]
    exact Nat.mul_le_mul_right _ hab
  have h4 := x.pages_pos
  exact Call.Before.of_start (by omega)

/-- The calls of an entry and of what is below it. -/
theorem Ordered.branch {below : List Call} (hb : below.Pairwise Call.Before)
    (hin : ∀ x ∈ below, c * l.pages ≤ x.start ∧ x.start + x.pages ≤ c * l.pages + l.pages ∧ x.pages < l.pages) :
    Ordered l c (branchCalls l c e leaf below) := by
  have hhead : ∀ x ∈ below, Call.Before (.entry l c) x := by
    intro x hx
    have h := hin x hx
    cases x with
    | entry l' c' =>
      rcases Nat.lt_or_eq_of_le h.1 with hlt | heq
      · exact .inl hlt
      · exact .inr ⟨heq, h.2.2⟩
    | unmap => trivial
    | hole => trivial
  have hlast : ∀ x : Call, x.Before (.unmap l c) := fun x => by cases x <;> trivial
  refine ⟨?_, fun x hx => ?_⟩
  · rw [branchCalls, List.pairwise_cons]
    by_cases hp : e.present = true
    · have hrest : (if leaf = true then [] else below).Pairwise Call.Before ∧
          ∀ x ∈ (if leaf = true then [] else below), x ∈ below := by
        cases leaf <;> simp [hb]
      rw [if_pos hp]
      refine ⟨fun x hx => ?_, List.pairwise_append.2 ⟨hrest.1, List.pairwise_singleton _ _, fun x _ y hy => ?_⟩⟩
      · rcases List.mem_append.1 hx with hx | hx
        · exact hhead x (hrest.2 x hx)
        · rw [List.mem_singleton.1 hx]
          trivial
      · rw [List.mem_singleton.1 hy]
        exact hlast x
    · rw [if_neg hp]
      refine ⟨fun x hx => ?_, List.pairwise_singleton _ _⟩
      rw [List.mem_singleton.1 hx]
      trivial
  · rcases mem_branchCalls.1 hx with rfl | ⟨_, _, hx⟩ | ⟨_, rfl⟩ | ⟨_, rfl⟩
    · exact ⟨Nat.le_refl _, Nat.le_refl _⟩
    · exact ⟨(hin x hx).1, (hin x hx).2.1⟩
    · exact ⟨Nat.le_refl _, Nat.le_refl _⟩
    · exact ⟨Nat.le_refl _, Nat.le_refl _⟩

/-- The calls of an entry, given those of the entries in the table below. -/
theorem Ordered.up (h : Meets l lo hi c) (hl : l.pages = 512 * l'.pages) (hg : ∀ d, Meets l' lo hi d → Ordered l' d (g d)) :
    Ordered l c (branchCalls l c e leaf ((blocks l' (l.clipLo lo c) (l.clipHi hi c)).flatMap g)) := by
  refine .branch (Ordered.flatMap fun d hd => ?_) fun x hx => ?_
  · rw [mem_blocks h.clip_le h.clipHi_lt, Meets.clip_iff hl h] at hd
    exact hg d hd.1
  · obtain ⟨d, hd, rfl, hxd⟩ := (mem_below hl h).1 hx
    obtain ⟨h1, h2⟩ := (hg d hd).bounds x hxd
    have h3 : d / 512 * l.pages ≤ d * l'.pages := by
      rw [hl, ← Nat.mul_assoc]
      exact Nat.mul_le_mul_right _ (Nat.div_mul_le_self d 512)
    have h4 : d * l'.pages + l'.pages ≤ d / 512 * l.pages + l.pages := by
      rw [hl, ← Nat.mul_assoc, ← Nat.add_one_mul, ← Nat.add_mul]
      exact Nat.mul_le_mul_right _ (by omega)
    have h5 := l'.pages_pos
    omega

theorem pteCalls_ordered (c : Nat) : Ordered .pte c (pteCalls t c) := by
  refine ⟨?_, fun x hx => ?_⟩
  · cases hp : (pteAt t c).present <;> simp [pteCalls, hp, Call.Before]
  · rcases mem_pteCalls.1 hx with rfl | ⟨_, _, rfl⟩ | ⟨_, rfl⟩ <;> exact ⟨Nat.le_refl _, Nat.le_refl _⟩

theorem calls_before (hle : lo ≤ hi) (hhi : hi < NPAGES) : (calls t lo hi).Pairwise Call.Before := by
  refine Ordered.flatMap fun c hc => ?_
  refine Ordered.up ((mem_blocks hle hhi).1 hc) rfl fun d hd => ?_
  refine Ordered.up hd rfl fun d1 hd1 => ?_
  exact Ordered.up hd1 rfl fun d2 _ => pteCalls_ordered d2

/-- A call that does not come before itself is made once at most. -/
theorem count_le_one (hx : ¬x.Before x) {xs : List Call} (h : xs.Pairwise Call.Before) : xs.count x ≤ 1 := by
  induction h with
  | nil => simp
  | @cons y ys hy _ ih =>
    rw [List.count_cons]
    split
    · rename_i he
      have hnot : x ∉ ys := fun hm => hx (by simpa [eq_of_beq he] using hy x hm)
      exact Nat.le_of_eq (by rw [List.count_eq_zero_of_not_mem hnot])
    · exact ih

theorem count_calls (hle : lo ≤ hi) (hhi : hi < NPAGES) (hx : ¬x.Before x) {p : Prop} [Decidable p]
    (hp : x.Due t lo hi ↔ p) : (calls t lo hi).count x = if p then 1 else 0 := by
  have hle1 := count_le_one hx (calls_before (t := t) hle hhi)
  by_cases h : p
  · rw [if_pos h]
    have := List.count_pos_iff.2 ((mem_calls_iff hle hhi).2 (hp.2 h))
    omega
  · rw [if_neg h]
    exact List.count_eq_zero_of_not_mem fun hm => h (hp.1 ((mem_calls_iff hle hhi).1 hm))

end Order

/-! ## The tiles -/

/-- The level of the entry that decides about the page `g`. -/
def leafLevel (t : Pml4) (g : Nat) : Level :=
  if (pml4eAt t (g / 512 / 512 / 512)).entry.present = false then .pml4e
  else if (pdpteAt t (g / 512 / 512)).entry.present = false then .pdpte
  else if (pdeAt t (g / 512)).entry.present = false ∨ (pdeAt t (g / 512)).entry.huge = true then .pde
  else .pte

theorem tile_iff {g : Nat} (hlo : lo ≤ g) (hhi : g ≤ hi) (l : Level) :
    Tile t lo hi l (g / l.pages) ↔ l = leafLevel t g := by
  have hfirst : g / l.pages * l.pages ≤ hi := Nat.le_trans (Nat.div_mul_le_self _ _) hhi
  have hlast : lo < g / l.pages * l.pages + l.pages := Nat.lt_of_le_of_lt hlo (Nat.lt_div_mul_add l.pages_pos)
  have h2 : g / 262144 = g / 512 / 512 := by omega
  have h3 : g / 134217728 = g / 512 / 512 / 512 := by omega
  simp only [Tile, Visited, hfirst, hlast, true_and, leafLevel]
  cases l <;> simp only [Level.pages, ParentsPresent, entryAt, h2, h3, Nat.div_one] <;>
    cases (pml4eAt t (g / 512 / 512 / 512)).entry.present <;> cases (pdpteAt t (g / 512 / 512)).entry.present <;>
    cases (pdeAt t (g / 512)).entry.present <;> cases (pdeAt t (g / 512)).entry.huge <;> simp

/-- Every page of the range is in exactly one tile. -/
theorem tile_unique {g : Nat} (hlo : lo ≤ g) (hhi : g ≤ hi) :
    ∃! x : Level × Nat, Tile t lo hi x.1 x.2 ∧ x.2 * x.1.pages ≤ g ∧ g < x.2 * x.1.pages + x.1.pages := by
  refine ⟨(leafLevel t g, g / (leafLevel t g).pages), ⟨(tile_iff hlo hhi _).2 rfl, Nat.div_mul_le_self _ _,
    Nat.lt_div_mul_add (leafLevel t g).pages_pos⟩, ?_⟩
  rintro ⟨l, c⟩ ⟨htile, hc, hc'⟩
  have hblock : g / l.pages = c := (Nat.div_eq_iff l.pages_pos).2 ⟨hc, Nat.le_sub_one_of_lt hc'⟩
  rw [← hblock] at htile ⊢
  rw [(tile_iff hlo hhi l).1 htile]

/-! ## Coverage -/

/-- Page-walker coverage. A walk over `[base, bound)` whose callbacks leave the entries alone
1. makes the calls of a list, each with the boundaries and the entry of its block, until one fails;
2. visits entries in strictly ascending order of address, an entry before those below it;
3. visits each entry of the range that the tables above lead to exactly once, and no other entry;
4. calls `pt_hole_callback` exactly once for each of them that is not present, and for no other;
5. so covers every page of the range by exactly one page, huge page or hole;
6. returns the negative value of the first callback that returns one. -/
theorem walk_page_range_covers {σ : Type} {w : Walker σ} {base bound : Nat} (t : Pml4) (s : σ) (hw : w.Keeps) (hlt : base < bound)
    (hbound : bound < 2 ^ 64) (hbase : Canonical base) (hlast : Canonical (bound - 1)) :
    w.walkPageRange base bound s t = runCalls (w.exec t (pageNo (bound - 1))) (calls t (pageNo base) (pageNo (bound - 1))) s t ∧
    (calls t (pageNo base) (pageNo (bound - 1))).Pairwise Call.Before ∧
    (∀ l c, (calls t (pageNo base) (pageNo (bound - 1))).count (.entry l c) =
      if Visited t (pageNo base) (pageNo (bound - 1)) l c then 1 else 0) ∧
    (∀ l c, (calls t (pageNo base) (pageNo (bound - 1))).count (.hole l c) =
      if Visited t (pageNo base) (pageNo (bound - 1)) l c ∧ (entryAt t l c).present = false then 1 else 0) ∧
    (∀ g, pageNo base ≤ g → g ≤ pageNo (bound - 1) →
      ∃! x : Level × Nat, Tile t (pageNo base) (pageNo (bound - 1)) x.1 x.2 ∧ x.2 * x.1.pages ≤ g ∧
        g < x.2 * x.1.pages + x.1.pages) ∧
    (∀ pre x post s' r, calls t (pageNo base) (pageNo (bound - 1)) = pre ++ x :: post →
      pre.foldlM (w.exec t (pageNo (bound - 1))) s = .ok s' → w.exec t (pageNo (bound - 1)) s' x = .error (.code r) →
      w.walkPageRange base bound s t = .error (.code r)) := by
  have hle : pageNo base ≤ pageNo (bound - 1) := Walker.pageNo_le hbase hlast (by omega)
  have hhi := pageNo_lt (bound - 1)
  have hwalk : w.walkPageRange base bound s t =
      runCalls (w.exec t (pageNo (bound - 1))) (calls t (pageNo base) (pageNo (bound - 1))) s t := by
    rw [w.walkPageRange_eq hlt hbound hbase hlast]
    exact hw.pageWalk hle hhi s
  have hmeets : ∀ l c, Meets l (pageNo base) (pageNo (bound - 1)) c ↔
      c * l.pages ≤ pageNo (bound - 1) ∧ pageNo base < c * l.pages + l.pages :=
    fun l c => ⟨fun h => ⟨h.first, h.last⟩, fun h => ⟨hle, hhi, h.1, h.2⟩⟩
  refine ⟨hwalk, calls_before hle hhi, fun l c => ?_, fun l c => ?_, fun g => tile_unique, fun pre x post s' r heq hpre hx => ?_⟩
  · refine count_calls hle hhi (fun h => ?_) ?_
    · rcases h with h | ⟨_, h⟩
      · exact Nat.lt_irrefl _ h
      · exact Nat.lt_irrefl _ h
    · rw [Call.Due, hmeets, Visited, and_assoc]
  · refine count_calls hle hhi (fun h => Nat.lt_irrefl _ h) ?_
    rw [Call.Due, hmeets, Visited, and_assoc, and_assoc, and_assoc]
  · rw [hwalk, heq, runCalls_append, runCalls, hpre]
    show runCalls _ (x :: post) s' t = _
    rw [runCalls_cons, hx]
    rfl

/-- The walker that notes the blocks it is called for. -/
def noting : Walker (List (Nat × Nat)) where
  pteCallback := fun first last s e => .ok (s ++ [(first, last)], e)
  ptHoleCallback := fun first last s => .ok (s ++ [(first, last)])

/-- An empty table, from the last page of the user half to the first page of the kernel half. -/
theorem walk_page_range_covers_halves :
    noting.walkPageRange 0x7FFFFFFFF000 0xFFFF800000001000 [] (fun _ => 0) =
      .ok ([(0x7F8000000000, 0x7FFFFFFFFFFF), (0xFFFF800000000000, 0xFFFF807FFFFFFFFF)], fun _ => 0) := by
  have hw : noting.Keeps := by
    refine ⟨?_, ?_, ?_, ?_, ?_, ?_, ?_⟩ <;> rintro first last s e r ⟨⟩ <;> rfl
  have hlt : 0x7FFFFFFFF000 < 0xFFFF800000001000 := by decide
  rw [(walk_page_range_covers (fun _ => 0) [] hw hlt (by decide) (by decide) (by decide)).1]
  rfl

/-! ## The helpers for user pages and for empty ranges -/

/-- The two walkers do the same for every entry whose block begins below `lim`. -/
structure Walker.AgreeBelow {σ : Type} (lim : Nat) (w w' : Walker σ) : Prop where
  pte : ∀ first < lim, w.pteCallback first = w'.pteCallback first
  pde : ∀ first < lim, w.pdeCallback first = w'.pdeCallback first
  pdpte : ∀ first < lim, w.pdpteCallback first = w'.pdpteCallback first
  pml4e : ∀ first < lim, w.pml4eCallback first = w'.pml4eCallback first
  pdeUnmap : ∀ first < lim, w.pdeUnmap first = w'.pdeUnmap first
  pdpteUnmap : ∀ first < lim, w.pdpteUnmap first = w'.pdpteUnmap first
  pml4eUnmap : ∀ first < lim, w.pml4eUnmap first = w'.pml4eUnmap first
  hole : ∀ first < lim, w.ptHoleCallback first = w'.ptHoleCallback first

/-- `walk_user_pages` calls back only for blocks with an address below `USER_LIM`: what a walker does for other blocks makes no
difference. -/
def UserOnly (t : Pml4) : Prop :=
  ∀ (σ : Type) (w w' : Walker σ) (s : σ), w.AgreeBelow USER_LIM w' → w.walkUserPages s t = w'.walkUserPages s t

/-- `walk_page_range` calls nothing back for the range: no walker makes a difference. -/
def CallsNothing (t : Pml4) (base bound : Nat) : Prop :=
  ∀ (σ : Type) (w : Walker σ) (s : σ), w.walkPageRange base bound s t = .ok (s, t)

/-- The walker that clears the entries of the PML4 below `lim`, and fails at the first one behind it. -/
def clearing (lim : Nat) : Walker Unit where
  pml4eCallback := fun first _ s _ => if first < lim then .ok (s, 0) else .error (.code 1)

theorem clearing_visit (lim base last : Nat) (e : Pml4e) : (clearing lim).visitPml4e base last () e =
    if blockStart PDPT_SPAN base < lim then .ok ((), 0) else .error (.code 1) := by
  unfold Walker.visitPml4e
  by_cases hlt : blockStart PDPT_SPAN base < lim
  · rw [show (clearing lim).pml4eCallback _ _ () e = .ok ((), 0) from if_pos hlt, if_pos hlt]
    rfl
  · rw [show (clearing lim).pml4eCallback _ _ () e = .error (.code 1) from if_neg hlt, if_neg hlt]
    rfl

/-- A turn of a walk that does not fail and does not come to the last entry. -/
theorem walkLoop_next {N : Type} {span last : Nat} {visit : Nat → Nat → σ → N → Kernel (σ × N)} {s s' : σ} {t : Nat → N} {e : N}
    (n : Nat) (h : base ≤ last) (hv : visit (signExtend base) last s (t (signExtend base / span % PAGE_TABLE_ENTRIES)) = .ok (s', e))
    (hnext : add64 (blockEnd span (signExtend base)) 1 ≠ 0) : walkLoop span visit (n + 1) base last s t =
      walkLoop span visit n (add64 (blockEnd span (signExtend base)) 1) last s'
        (Function.update t (signExtend base / span % PAGE_TABLE_ENTRIES) e) := by
  rw [walkLoop, if_pos h]
  simp only [hv]
  exact if_neg hnext

/-- The walk comes to the first entry of the kernel half, since `sign_extend` makes of `USER_LIM` the first address behind it. -/
theorem clearing_walk {lim : Nat} (hlim : USER_LIM ≤ lim) (t : Pml4) (j : Nat) (hj : j ≤ 256) : ∃ t',
    (clearing lim).walkUserPages () t =
      walkLoop PDPT_SPAN (clearing lim).visitPml4e (512 - j) (j * 2 ^ 39) 0xFFFF800000000000 () t' := by
  induction j with
  | zero => exact ⟨t, by rw [Walker.walkUserPages, Walker.pml4WalkRange, walkRange, Nat.zero_mul]; rfl⟩
  | succ j ih =>
    obtain ⟨t', h⟩ := ih (by omega)
    have hspan : PDPT_SPAN = 2 ^ 39 := by decide
    have hlim' : 0x800000000000 ≤ lim := hlim
    have hext : signExtend (j * 2 ^ 39) = j * 2 ^ 39 := if_pos (by simp only [USER_LIM]; omega)
    have hnext : add64 (blockEnd PDPT_SPAN (signExtend (j * 2 ^ 39))) 1 = (j + 1) * 2 ^ 39 := by
      simp only [hext, add64, blockEnd, hspan]
      omega
    have hv : (clearing lim).visitPml4e (signExtend (j * 2 ^ 39)) 0xFFFF800000000000 ()
        (t' (signExtend (j * 2 ^ 39) / PDPT_SPAN % PAGE_TABLE_ENTRIES)) = .ok ((), 0) := by
      rw [clearing_visit, if_pos (by simp only [hext, blockStart, hspan]; omega)]
    have h' := walkLoop_next (512 - (j + 1)) (by omega) hv (by omega)
    rw [hnext, show 512 - (j + 1) + 1 = 512 - j by omega] at h'
    exact ⟨_, h.trans h'⟩

theorem not_userOnly (t : Pml4) : ¬UserOnly t := by
  intro h
  have hagree : (clearing (2 ^ 64)).AgreeBelow USER_LIM (clearing USER_LIM) := by
    refine ⟨fun _ _ => rfl, fun _ _ => rfl, fun _ _ => rfl, fun first hlt => ?_, fun _ _ => rfl, fun _ _ => rfl, fun _ _ => rfl,
      fun _ _ => rfl⟩
    funext last s e
    exact (if_pos (Nat.lt_trans hlt (by decide))).trans (if_pos hlt).symm
  have heq := h Unit _ _ () hagree
  obtain ⟨t1, h1⟩ := clearing_walk (show USER_LIM ≤ 2 ^ 64 by decide) t 256 (Nat.le_refl _)
  obtain ⟨t2, h2⟩ := clearing_walk (Nat.le_refl _) t 256 (Nat.le_refl _)
  have hv : (clearing (2 ^ 64)).visitPml4e (signExtend (256 * 2 ^ 39)) 0xFFFF800000000000 ()
      (t1 (signExtend (256 * 2 ^ 39) / PDPT_SPAN % PAGE_TABLE_ENTRIES)) = .ok ((), 0) := by
    rw [clearing_visit, if_pos (by decide)]
  have hok := (h1.trans (walkLoop_next 255 (by decide) hv (by decide))).trans (walkLoop_done (by decide) _ _ _)
  have herror : (clearing USER_LIM).walkUserPages () t = .error (.code 1) := by
    rw [h2, show 512 - 256 = 255 + 1 from rfl, walkLoop, if_pos (by decide)]
    simp only [clearing_visit]
    rw [if_neg (by decide)]
    rfl
  rw [hok, herror] at heq
  cases heq

/-! ### Empty ranges -/

theorem callsNothing_iff (t : Pml4) (hal : pageAligned base) (hb : base < 2 ^ 64) :
    CallsNothing t base base ↔ base % 2 ^ 48 ≠ 0 := by
  have hdown : roundDown base = base := by
    simp only [pageAligned, roundDown, PAGE_SIZE] at *
    omega
  have hup : sub64 (roundUp base) 1 = (base + (2 ^ 64 - 1)) % 2 ^ 64 := by
    simp only [pageAligned, sub64, roundUp, roundDown, add64, PAGE_SIZE] at *
    omega
  have hle : signExtend base ≤ signExtend ((base + (2 ^ 64 - 1)) % 2 ^ 64) ↔ base % 2 ^ 48 = 0 := by
    by_cases h1 : base < USER_LIM <;> by_cases h2 : (base + (2 ^ 64 - 1)) % 2 ^ 64 < USER_LIM <;>
      simp only [signExtend, h1, h2, if_true, if_false] <;> simp only [USER_LIM] at h1 h2 <;> omega
  constructor
  · intro h h0
    have := h Unit (clearing 0) ()
    rw [Walker.walkPageRange, hdown, hup, Walker.pml4WalkRange, walkRange, show PAGE_TABLE_ENTRIES = 511 + 1 from rfl, walkLoop,
      if_pos (hle.2 h0)] at this
    simp only [clearing_visit, Nat.not_lt_zero, if_false] at this
    cases this
  · intro h0 σ w s
    rw [Walker.walkPageRange, hdown, hup, Walker.pml4WalkRange, walkRange, show PAGE_TABLE_ENTRIES = 511 + 1 from rfl, walkLoop,
      if_neg (fun h => h0 (hle.1 h))]

/-- The ranges of the helpers. `walk_user_pages` leaves the user half, whatever the page table is: its end is taken to be in the
range. `walk_page_range` over an empty range calls nothing back except at a multiple of `2 ^ 48`, where the address before the
range is made the last one of the address space. -/
theorem walk_helpers_inside_iff (t : Pml4) {base : Nat} (hal : pageAligned base) (hb : base < 2 ^ 64) :
    ¬UserOnly t ∧ (CallsNothing t base base ↔ base % 2 ^ 48 ≠ 0) :=
  ⟨not_userOnly t, callsNothing_iff t hal hb⟩

theorem walk_helpers_inside_page : CallsNothing (fun _ => 0) 0x1000 0x1000 :=
  (walk_helpers_inside_iff (fun _ => 0) (by decide) (by decide)).2.2 (by decide)

theorem walk_helpers_outside : ¬UserOnly (fun _ => 0) ∧ ¬CallsNothing (fun _ => 0) 0 0 :=
  ⟨not_userOnly _, fun h => (callsNothing_iff _ (by decide) (by decide)).1 h rfl⟩

end OpenLsd
