import OpenLsd.Lemmas.Nodes

/-!
# Making, splitting, merging and freeing tables

What `ptbl_alloc`, `ptbl_split`, `ptbl_merge` and `ptbl_free` do to a node that is counted: it stays counted, what others
hold is spared, and every page below it stays as it is.
-/

namespace OpenLsd

open Outcome Function Node Phys

variable {keep alloc alloc' : Orders} {count ext : Nat → Nat} {m m' : Phys} {C : Type}

/-! ## New pages -/

namespace Ledger

variable {p k allocFlags n : Nat} {B : Type} {post : B → Prop} {cont : Nat → Phys → Kernel B} {f : Nat × Phys → Kernel B}

theorem ref_one (h : Ledger keep (count + Pi.single p 1) alloc m) (hp : count p = 0) : (m.pages p).ppRef = 1 := by
  rw [h.counted, Pi.add_apply, hp, Pi.single_eq_same]

/-- A page that was just taken, with one reference and filled with zeros. -/
structure NewPage (keep : Orders) (count : Nat → Nat) (alloc : Orders) (m : Phys) (k p : Nat) (m' : Phys) :
    Prop where
  head : alloc p = none
  idle : count p = 0
  keep_none : keep p = none
  ledger : Ledger keep (count + Pi.single p 1) (update alloc p (some k)) m'
  spares : Spares ∅ count alloc m (update alloc p (some k)) m'
  zero : ∀ x ∈ blockSet p k, m'.bytes x = fun _ => 0

theorem Taken.congr {m'' : Phys} (h : Taken keep count alloc m k p m') (hs : SameFrames m' m'')
    (hb : m''.bytes = m'.bytes) : Taken keep count alloc m k p m'' where
  head := h.head
  idle := h.idle
  ledger := h.ledger.congr hs
  spares := h.spares.trans (h.ledger.spares_of_same (fun _ hf => hf) hs hb)
  zero := fun x hx => by rw [hb, h.zero x hx]

/-- The reference to a page that was taken. -/
theorem Taken.incRef (h : Ledger keep count alloc m) (ht : Taken keep count alloc m k p m') :
    Ends Panics (m'.incRef p) fun m'' => NewPage keep count alloc m k p m'' := by
  have hk := ht.keep_none h
  have hroom : count p + 1 < 2 ^ 16 := by
    rw [ht.idle]
    decide
  refine (ht.ledger.incRef (update_self p _ alloc) fun _ => hroom).mono fun m'' ⟨hl, hb, hs⟩ => ?_
  refine ⟨ht.head, ht.idle, hk, hl.unkeep hk (by simp), ht.spares.trans (hs (fun _ hf => hf) (.inr ht.idle)), fun x hx => ?_⟩
  rw [hb, ht.zero x hx]

theorem newPage (h : Ledger keep count alloc m)
    (hz : allocFlags &&& ALLOC_ZERO ≠ 0) (hf : ∀ p m', f (p, m') = (m'.charge n).incRef p >>= cont p)
    (hk : ∀ p m', NewPage keep count alloc m (reqOrder allocFlags) p m' → Ends Panics (cont p m') post) :
    Ends Panics (m.allocPage allocFlags >>= f) post := by
  refine (h.allocPage hz).bind fun ⟨p, m1⟩ ht => ?_
  rw [hf]
  exact ((ht.congr (.charge m1 n) (charge_bytes m1 n)).incRef h).bind fun m2 h2 => hk p m2 h2

/-- A page that was just taken, with one reference and the bytes of another one, which has lost one. -/
structure CopiedPage (keep : Orders) (ext : Nat → Nat) (alloc : Orders) (m : Phys) (k src p : Nat)
    (alloc' : Orders) (m' : Phys) : Prop where
  idle : ext p = 0
  keep_none : keep p = none
  taken : alloc' p = some k
  ledger : Ledger keep (ext + Pi.single p 1) alloc' m'
  spares : Spares ∅ ext alloc m alloc' m'
  bytes : ∀ i < 2 ^ k, m'.bytes (p + i) = m.bytes (src + i)

/-- Taking a page in exchange for another. -/
theorem copyPage {src : Nat}
    (h : Ledger keep (ext + Pi.single src 1) alloc m) (hz : allocFlags &&& ALLOC_ZERO ≠ 0)
    (hsrc : alloc src = some (reqOrder allocFlags)) (hks : keep src = none)
    (hf : ∀ p m', f (p, m') = (m'.charge n).decref src >>= fun m' => m'.incRef p >>= cont p)
    (hk : ∀ p alloc' m', CopiedPage keep ext alloc m (reqOrder allocFlags) src p alloc'
      (m'.copyFrames p src (2 ^ reqOrder allocFlags)) → Ends Panics (cont p m') post) : Ends Panics (m.allocPage allocFlags >>= f) post := by
  refine (h.allocPage hz).bind fun ⟨p, m1⟩ ht => ?_
  rw [hf]
  let k := reqOrder allocFlags
  have hkp := ht.keep_none h
  have ht := ht.congr (.charge m1 n) (charge_bytes m1 n)
  have hne : src ≠ p := by
    rintro rfl
    rw [ht.head] at hsrc
    cases hsrc
  have hext : ext p = 0 := Nat.eq_zero_of_add_eq_zero_right ht.idle
  refine (ht.ledger.decref ((update_of_ne hne _ _).trans hsrc) ((update_of_ne hne _ _).trans hks)).bind
    fun m2 ⟨alloc2, hl2, hs2, hb2⟩ => ?_
  have hap : alloc2 p = some k := hl2.kept p k (update_self _ _ _)
  have hroom : ext p + 1 < 2 ^ 16 := by
    rw [hext]
    decide
  refine (hl2.incRef hap fun _ => hroom).bind fun m3 ⟨hl3, hb3, hs3⟩ => ?_
  have hl3 : Ledger keep (ext + Pi.single p 1) alloc2 m3 := hl3.unkeep hkp (by simp)
  have hcopy : SameFrames m3 (m3.copyFrames p src (2 ^ k)) := .copyFrames _ _ _ _
  have hout : ∀ x, x ∉ blockSet p k → (m3.copyFrames p src (2 ^ k)).bytes x = m3.bytes x := by
    intro x hx
    funext o
    simp only [copyFrames]
    exact if_neg hx
  have hs1 : Spares ∅ ext alloc m (update alloc p (some k)) (m1.charge n) :=
    ht.spares.mono pos_add
  refine hk p alloc2 m3 ⟨hext, hkp, hap, hl3.congr hcopy, ?_, fun i hi => ?_⟩
  · exact ((hs1.trans hs2).trans (hs3 (fun _ hf => hf) (.inr hext))).trans (hl3.spares_write
      pos_add hcopy hap hext hout)
  · have hsrci : src + i ∈ blockSet src k := ⟨Nat.le_add_right _ _, Nat.add_lt_add_left hi _⟩
    rw [← ht.spares.bytes src k (by simp) hsrc _ hsrci, ← hb2, ← hb3]
    funext o
    have hin : p ≤ p + i ∧ p + i < p + 2 ^ k := ⟨Nat.le_add_right _ _, Nat.add_lt_add_left hi _⟩
    simp only [copyFrames]
    rw [if_pos hin, Nat.add_sub_cancel_left]

end Ledger

/-! ## Operations that keep every page -/

section Kept

variable {N : Type} [Node N] {alloc'' : Orders} {m'' : Phys} {e e' e'' : N} {lent : Set Nat}

/-- The node stays counted, and nothing happens to its pages or to what others hold. -/
structure Kept (keep : Orders) (ext : Nat → Nat) (alloc : Orders) (m : Phys) (e : N)
    (alloc' : Orders) (m' : Phys) (e' : N) : Prop where
  acc : Acc keep ext alloc' m' e'
  spares : Spares ∅ ext alloc m alloc' m'
  page : ∀ g, SamePage ∅ (Node.page m e g) (Node.page m' e' g)

theorem Kept.refl (h : Acc keep ext alloc m e) : Kept keep ext alloc m e alloc m e :=
  ⟨h, h.spares_refl, fun _ => .refl _ _⟩

theorem Kept.trans (h : Kept keep ext alloc m e alloc' m' e') (h' : Kept keep ext alloc' m' e' alloc'' m'' e'') :
    Kept keep ext alloc m e alloc'' m'' e'' :=
  ⟨h'.acc, h.spares.trans h'.spares, fun g => (h.page g).trans (h'.page g)⟩

theorem SamePage.lend {s s' : Option PageState} (h : SamePage ∅ s s') : SamePage lent s s' := by
  cases h with
  | none => exact .none
  | some h => exact .some ⟨h.write, h.user, h.noExec, h.bytes, fun _ => h.ref rfl⟩

theorem Kept.done {lossy : Prop} {R : PageRel lent} {c a : Nat}
    (h : Kept keep ext alloc m e alloc' m' e') : Done keep lossy R c a a ext alloc m e m' e' ext alloc' where
  acc := h.acc
  ext_le := fun _ => le_rfl
  ext_eq := fun _ => rfl
  spares := h.spares.lend lent
  page := fun g _ => PageRel.at_self (R.same (h.page g).lend)

/-- A change that the frames do not take part in. -/
theorem Acc.congr (h : Acc keep ext alloc m e) (hs : SameFrames m m') (hb : m'.bytes = m.bytes) :
    Kept keep ext alloc m e alloc m' e := by
  have hspares : Spares ∅ (ext + refs e) alloc m alloc m' :=
    h.ledger.spares_of_same (fun _ hf => hf) hs hb
  have hpos : ∀ f, 0 < refs e f → 0 < (ext + refs e) f := fun f hf => lt_of_lt_of_le hf (Nat.le_add_left _ _)
  exact ⟨⟨h.ledger.congr hs, fits_spared hspares hpos nofun h.fits⟩,
    hspares.mono pos_add, page_spared hspares hpos h.fits⟩

theorem Kept.congr (h : Kept keep ext alloc m e alloc' m' e') (hs : SameFrames m' m'') (hb : m''.bytes = m'.bytes) :
    Kept keep ext alloc m e alloc' m'' e' := h.trans (h.acc.congr hs hb)

end Kept

/-! ## Nodes that are not present -/

/-- An entry that is not present refers to nothing and maps nothing. -/
class Sparse (N : Type) [Node N] [HasEntry N] : Prop where
  refs : ∀ {e : N}, (HasEntry.entryOf e).present = false → Node.refs e = 0
  fits : ∀ {keep alloc : Orders} {m : Phys} {e : N}, (HasEntry.entryOf e).present = false → Node.Fits keep alloc m e
  page : ∀ {m : Phys} {e : N} {g : Nat}, (HasEntry.entryOf e).present = false → Node.page m e g = none

instance : Sparse Entry where
  refs := fun {e} (h : e.present = false) => if_neg (by simp [h])
  fits := fun {_ _ _ e} (h : e.present = false) hp => by
    rw [h] at hp
    cases hp
  page := fun {_ e _} (h : e.present = false) => if_neg (by simp [h])

instance : Sparse (Branch Entry) where
  refs := fun {e} (h : e.entry.present = false) => if_neg (by simp [h])
  fits := fun {_ _ _ e} (h : e.entry.present = false) hp => by
    rw [h] at hp
    cases hp
  page := fun {_ e _} (h : e.entry.present = false) => if_neg (by simp [h])

instance {C : Type} [Node (Branch C)] : Sparse (Branch (Branch C)) where
  refs := fun {e} (h : e.entry.present = false) => if_neg (by simp [h])
  fits := fun {_ _ _ e} (h : e.entry.present = false) hp => by
    rw [h] at hp
    cases hp
  page := fun {_ e _} (h : e.entry.present = false) => if_neg (by simp [h])

section Empty

variable [Node C] [HasEntry C] [Sparse C] {t : Nat → C}

theorem tableRefs_absent {n : Nat} (h : ∀ i < n, (HasEntry.entryOf (t i)).present = false) : tableRefs n t = 0 :=
  Finset.sum_eq_zero fun i hi => Sparse.refs (h i (Finset.mem_range.1 hi))

variable {W : Type} [Node W] {mk : (Nat → C) → W} {n : Nat} {own : Option Nat}

theorem HoldsTable.page_absent (h : HoldsTable mk n own) (ht : ∀ i < n, (HasEntry.entryOf (t i)).present = false)
    (m : Phys) (g : Nat) : Node.page m (mk t) g = Option.none := by
  by_cases hg : g / Node.pages C % 512 < n
  · rw [h.page m t g hg, Sparse.page (ht _ hg)]
  · exact h.none m t g hg

theorem HoldsTable.refs_absent (h : HoldsTable mk n own) (ht : ∀ i < n, (HasEntry.entryOf (t i)).present = false) :
    Node.refs (mk t) = own.elim 0 (Pi.single · 1) := by
  rw [h.refs, tableRefs_absent ht, add_zero]

end Empty

/-! ## Making and freeing a table -/

section Tables

variable [Node C] [HasEntry C] [Sparse C] [Node (Branch C)] [Sparse (Branch C)] {e : Branch C}

/-- Making a table keeps what is counted. -/
theorem ptblAlloc_kept [Zero C] (hz : (HasEntry.entryOf (0 : C)).present = false)
    (hold : ∀ p, HoldsTable (Branch.mk (C := C) (tableEntry p)) PAGE_TABLE_ENTRIES (some p)) (h : Acc keep ext alloc m e) :
    Ends Panics (ptblAlloc m e) fun r => (∃ alloc', Kept keep ext alloc m e alloc' r.1 r.2) ∧ r.2.entry.present = true ∧
      (e.entry.present = true → r.2 = e) ∧ (e.entry.present = false → r.2.entry.huge = false) := by
  refine .ite (fun hp => .ok ⟨⟨alloc, .refl h⟩, hp, fun _ => rfl, fun hno => ?_⟩) fun hp => ?_
  · rw [hp] at hno
    cases hno
  have hp : e.entry.present = false := by simpa using hp
  have hrefs : Node.refs e = 0 := Sparse.refs (N := Branch C) hp
  have hledger := h.ledger
  rw [hrefs, add_zero] at hledger
  refine hledger.newPage (by decide) (fun _ _ => rfl) fun p m1 hnew => .ok ⟨⟨_, ⟨⟨?_, ?_⟩, hnew.spares, fun g => ?_⟩⟩, rfl,
    fun hyes => ?_, fun _ => rfl⟩
  · rw [(hold p).refs_absent fun _ _ => hz]
    exact hnew.ledger
  · refine (hold p).fits.2 ⟨fun f hf => ?_, fun _ _ => Sparse.fits hz⟩
    cases hf
    exact ⟨update_self _ _ _, hnew.keep_none, hnew.ledger.ref_one hnew.idle⟩
  · rw [(hold p).page_absent fun _ _ => hz, Sparse.page (N := Branch C) hp]
    exact .none
  · rw [hp] at hyes
    cases hyes

/-- A table in which nothing is present is freed, and only such a table. -/
theorem ptblFree_kept (hold : HoldsTable (Branch.mk (C := C) e.entry) PAGE_TABLE_ENTRIES (some e.entry.frame))
    (hp : e.entry.present = true) (h : Acc keep ext alloc m e) :
    Ends Panics (ptblFree m e) fun r => ∃ alloc', Kept keep ext alloc m e alloc' r.1 r.2 := by
  refine .ite (fun hno => ?_) fun _ => .ite (fun _ => .ok ⟨alloc, .refl h⟩) fun hnone => ?_
  · rw [hp] at hno
    cases hno.2
  have habs : ∀ i < PAGE_TABLE_ENTRIES, (HasEntry.entryOf (e.child i)).present = false := by
    simpa only [not_exists, not_and, Bool.not_eq_true] using hnone
  have hrefs : Node.refs e = Pi.single e.entry.frame 1 := hold.refs_absent (t := e.child) habs
  have htable := (hold.fits (t := e.child)).1 h.fits |>.1 _ rfl
  have hledger := h.ledger.congr (.uncharge m 1)
  rw [hrefs] at hledger
  refine (hledger.decref htable.1 htable.2.1).bind fun m1 ⟨alloc1, hl, hs, _⟩ => .ok ⟨alloc1, ⟨⟨?_, ?_⟩, ?_, fun g => ?_⟩⟩
  · rw [Sparse.refs (N := Branch C) (e := { e with entry := 0 }) rfl, add_zero]
    exact hl
  · exact Sparse.fits (N := Branch C) rfl
  · exact (h.congr (.uncharge m 1) (uncharge_bytes m 1)).spares.trans hs
  · rw [hold.page_absent (t := e.child) habs, Sparse.page (N := Branch C) rfl]
    exact .none

end Tables

/-! ## Splitting a huge page -/

section Split

variable {e : Pde}

theorem page_entry {e : Entry} (hp : e.present = true) (m : Phys) (g : Nat) : page m e g = some (e.state m e.frame) :=
  if_pos hp

theorem refs_entry {e : Entry} (hp : e.present = true) : refs e = Pi.single e.frame 1 := if_pos hp

theorem tableRefs_succ [Node C] (n : Nat) (t : Nat → C) : tableRefs (n + 1) t = tableRefs n t + refs (t n) :=
  Finset.sum_range_succ _ _

theorem tableRefs_update [Node C] {n i : Nat} (hi : n ≤ i) (t : Nat → C) (c : C) :
    tableRefs n (update t i c) = tableRefs n t := by
  refine Finset.sum_congr rfl fun j hj => ?_
  rw [update_of_ne (ne_of_lt (lt_of_lt_of_le (Finset.mem_range.1 hj) hi))]

/-- The part `i` of the huge page as a page of its own. -/
def splitState (flags : PageFlags) (bytes : Nat → UInt8) : PageState where
  write := flags.write
  user := flags.user
  noExec := flags.noExec
  bytes := bytes
  ref := 1

/-- What holds of the new table when its first `i` entries are made. -/
structure SplitTo (keep : Orders) (count : Nat → Nat) (alloc : Orders) (m : Phys) (flags : PageFlags)
    (hugePage i : Nat) (alloc' : Orders) (m' : Phys) (t : Nat → Entry) : Prop where
  ledger : Ledger keep (count + tableRefs i t) alloc' m'
  spares : Spares ∅ count alloc m alloc' m'
  fits : ∀ j < i, Node.Fits keep alloc' m' (t j)
  page : ∀ j < i, ∀ g, SamePage ∅ (some (splitState flags (m.bytes (hugePage + j)))) (Node.page m' (t j) g)

/-- A turn of the loop of `ptbl_split`. -/
theorem SplitTo.step {flags : PageFlags} {hugePage i : Nat} {s : Phys × (Nat → Entry)}
    (ha : alloc hugePage = some BUDDY_2M_PAGE) (hpos : 0 < count hugePage) (hi : i < PAGE_TABLE_ENTRIES)
    (h : SplitTo keep count alloc m flags hugePage i alloc' s.1 s.2) :
    Ends Panics (splitEntry false hugePage flags i s) fun r =>
      ∃ alloc'', SplitTo keep count alloc m flags hugePage (i + 1) alloc'' r.1 r.2 := by
  rw [splitEntry, if_neg Bool.false_ne_true]
  refine (h.ledger.allocPage (by decide)).bind fun ⟨p, m1⟩ ht => ?_
  let k := reqOrder ALLOC_ZERO
  let alloc1 := update alloc' p (some k)
  let m2 := (m1.charge 1).copyFrames p (hugePage + i) 1
  have hblock : ∀ x, x ∈ blockSet p k ↔ x = p := fun x => by rw [show blockSet p k = {p} from blockSet_zero p, Set.mem_singleton_iff]
  have hs2 : SameFrames m1 m2 := (SameFrames.charge m1 1).trans (.copyFrames _ _ _ _)
  have hout : ∀ x, x ∉ blockSet p k → m2.bytes x = m1.bytes x := by
    intro x hx
    rw [hblock] at hx
    funext o
    simp only [m2, copyFrames, charge_bytes]
    rw [if_neg (by omega)]
  have hw : Spares ∅ (count + tableRefs i s.2) alloc1 m1 alloc1 m2 :=
    ht.ledger.spares_write (fun _ hf => hf) hs2 (update_self p _ _) ht.idle hout
  have hnew : m2.bytes p = m.bytes (hugePage + i) := by
    have hhuge : hugePage + i ∈ blockSet hugePage BUDDY_2M_PAGE := ⟨Nat.le_add_right _ _, Nat.add_lt_add_left hi _⟩
    have h1 := h.spares.bytes hugePage _ hpos ha _ hhuge
    have h2 := ht.spares.bytes hugePage _ (lt_of_lt_of_le hpos (Nat.le_add_right _ _)) (h.spares.stays _ _ hpos ha) _ hhuge
    rw [← h1, ← h2]
    funext o
    simp [m2, copyFrames]
  have hl2 := ht.ledger.congr hs2
  have hzero : (m2.pages p).ppRef = 0 := (hl2.counted p).trans ht.idle
  obtain ⟨hl3, hb3, hs3⟩ := hl2.setRef_referred (update_self p _ _)
  rw [hzero] at hl3 hb3 hs3
  have hkeep := ht.keep_none h.ledger
  have hspares : Spares ∅ (count + tableRefs i s.2) alloc' s.1 alloc1 (m2.setRef p 1) :=
    (ht.spares.trans hw).trans (hs3 (fun _ hf => hf) (.inr ht.idle))
  refine .ok ⟨alloc1, ?_⟩
  dsimp only
  refine ⟨?_, h.spares.trans (hspares.mono pos_add), ?_, ?_⟩
  · rw [tableRefs_succ, tableRefs_update le_rfl, update_self, ← add_assoc, refs_entry rfl]
    exact hl3.unkeep hkeep (by simp)
  · intro j hj
    by_cases hji : j = i
    · rw [hji, update_self]
      exact fun _ => ⟨update_self p _ _, hkeep⟩
    · rw [update_of_ne hji]
      have hj : j < i := by omega
      exact fits_spared hspares (fun f hf => lt_of_lt_of_le hf
        (le_trans (le_tableRefs hj s.2 f) (Nat.le_add_left _ _))) nofun (h.fits j hj)
  · intro j hj g
    by_cases hji : j = i
    · rw [hji, update_self]
      rw [page_entry rfl]
      refine .some ⟨rfl, rfl, rfl, hnew, fun _ => le_of_eq ?_⟩
      exact (congrArg PageInfo.ppRef (setRef_pages _ _ _ _)).trans (if_pos rfl)
    · rw [update_of_ne hji]
      have hj : j < i := by omega
      exact (h.page j hj g).trans (page_spared hspares (fun f hf => lt_of_lt_of_le hf
        (le_trans (le_tableRefs hj s.2 f) (Nat.le_add_left _ _))) (h.fits j hj) g)

section

variable (hp : e.entry.present = true)

include hp

/-- The page below a huge page. -/
theorem page_huge (hh : e.entry.huge = true) (m : Phys) (g : Nat) :
    page m e g = some (e.entry.state m (e.entry.frame + g % PAGE_TABLE_ENTRIES)) := by
  show (if _ then _ else _) = _
  rw [if_pos hp, if_pos hh]

theorem page_table (hh : e.entry.huge = false) (m : Phys) (g : Nat) :
    page m e g = page m (e.child (g % PAGE_TABLE_ENTRIES)) g := by
  show (if _ then _ else _) = _
  rw [if_pos hp, if_neg (by simp [hh])]

theorem refs_huge (hh : e.entry.huge = true) : refs e = Pi.single e.entry.frame 1 := by
  show (if _ then _ else _) = _
  rw [if_pos hp, if_pos hh, add_zero]

/-- Splitting a huge page that is counted: each of its pages is copied, and nothing of the table is the huge page itself. -/
theorem ptblSplit_copies (hh : e.entry.huge = true) (h : Acc keep ext alloc m e) :
    Ends Panics (ptblSplit m e) fun r => (∃ alloc', Kept keep ext alloc m e alloc' r.1 r.2) ∧ r.2.entry.present = true ∧
      r.2.entry.huge = false ∧ refs r.2 e.entry.frame = 0 := by
  refine .ite (fun hno => ?_) fun _ => ?_
  · simp [hp, hh] at hno
  obtain ⟨hhuge, hkeep⟩ := (h.fits hp).1 hh
  have hledger := h.ledger
  rw [refs_huge hp hh] at hledger
  refine hledger.newPage (by decide) (fun _ _ => rfl) fun p m1 hnew => ?_
  have hpos : 0 < (ext + Pi.single e.entry.frame 1 : Nat → Nat) e.entry.frame := by simp
  have hstatic : decide ((m1.pages e.entry.frame).ppFree = false ∧ (m1.pages e.entry.frame).ppRef = 0) = false := by
    have := hnew.spares.pos _ hpos
    simp only [decide_eq_false_iff_not, not_and]
    omega
  have hpos1 : 0 < (ext + Pi.single e.entry.frame 1 + Pi.single p 1 : Nat → Nat) e.entry.frame :=
    lt_of_lt_of_le hpos (Nat.le_add_right _ _)
  have ha1 := hnew.spares.stays _ _ hpos hhuge
  have hloop : Ends Panics (forRange (splitEntry false e.entry.frame e.entry.umask) PAGE_TABLE_ENTRIES 0 (m1, fun _ => 0)) fun r =>
      ∃ alloc2, SplitTo keep (ext + Pi.single e.entry.frame 1 + Pi.single p 1) (update alloc p (some (reqOrder ALLOC_ZERO)))
        m1 e.entry.umask e.entry.frame PAGE_TABLE_ENTRIES alloc2 r.1 r.2 := by
    have hzero : SplitTo keep (ext + Pi.single e.entry.frame 1 + Pi.single p 1) (update alloc p (some (reqOrder ALLOC_ZERO)))
        m1 e.entry.umask e.entry.frame 0 (update alloc p (some (reqOrder ALLOC_ZERO))) m1 fun _ => 0 :=
      ⟨hnew.ledger, hnew.ledger.spares_refl fun _ hf => hf, fun _ hj => absurd hj (Nat.not_lt_zero _),
        fun _ hj => absurd hj (Nat.not_lt_zero _)⟩
    refine (forRange_rule (I := fun i (s : Phys × (Nat → Entry)) => ∃ alloc2,
      SplitTo keep (ext + Pi.single e.entry.frame 1 + Pi.single p 1) (update alloc p (some (reqOrder ALLOC_ZERO))) m1
        e.entry.umask e.entry.frame i alloc2 s.1 s.2) (fun i s _ hi ⟨alloc2, hs⟩ => ?_) ⟨_, hzero⟩).mono fun r hr => ?_
    · exact hs.step ha1 hpos1 (by omega)
    · rwa [Nat.zero_add] at hr
  simp only [hstatic]
  refine hloop.bind fun ⟨m2, t⟩ ⟨alloc2, hsplit⟩ => ?_
  refine .ite (fun hno => absurd hno (by simpa using hstatic)) fun _ => ?_
  have hhold := holds_pde (e := tableEntry p) rfl rfl
  have hrefs : refs ({ entry := tableEntry p, child := t } : Pde) = Pi.single p 1 + tableRefs PAGE_TABLE_ENTRIES t :=
    hhold.refs t
  have hcount : ext + Pi.single e.entry.frame 1 + Pi.single p 1 + tableRefs PAGE_TABLE_ENTRIES t =
      ext + refs ({ entry := tableEntry p, child := t } : Pde) + Pi.single e.entry.frame 1 := by
    rw [hrefs]
    abel
  have hl2 := hsplit.ledger
  rw [hcount] at hl2
  refine (hl2.decref (hsplit.spares.stays _ _ hpos1 ha1) hkeep).bind fun m3 ⟨alloc3, hl3, hs3, hb3⟩ => .ok ?_
  have hchild : ∀ j < PAGE_TABLE_ENTRIES, ∀ f, 0 < refs (t j) f →
      0 < (ext + refs ({ entry := tableEntry p, child := t } : Pde)) f := by
    intro j hj f hf
    have := le_tableRefs hj t f
    rw [Pi.add_apply, hrefs, Pi.add_apply]
    omega
  have hfits3 : ∀ j < PAGE_TABLE_ENTRIES, Fits keep alloc3 m3 (t j) := fun j hj =>
    fits_spared hs3 (hchild j hj) nofun (hsplit.fits j hj)
  have hpage3 : ∀ j < PAGE_TABLE_ENTRIES, ∀ g,
      SamePage ∅ (some (splitState e.entry.umask (m1.bytes (e.entry.frame + j)))) (page m3 (t j) g) := fun j hj g =>
    (hsplit.page j hj g).trans (page_spared hs3 (hchild j hj) (hsplit.fits j hj) g)
  have hext : ∀ f, 0 < ext f → 0 < (ext + Pi.single e.entry.frame 1 : Nat → Nat) f := pos_add
  have hspares : Spares ∅ ext alloc m alloc3 m3 :=
    ((hnew.spares.mono hext).trans (hsplit.spares.mono fun f hf => lt_of_lt_of_le (hext f hf) (Nat.le_add_right _ _))).trans
      (hs3.mono pos_add)
  have htable : TableFrame keep alloc3 m3 p := by
    have hposp : 0 < (ext + Pi.single e.entry.frame 1 + Pi.single p 1 : Nat → Nat) p := by simp
    have hposp' : 0 < (ext + refs ({ entry := tableEntry p, child := t } : Pde)) p := by
      rw [Pi.add_apply, hrefs, Pi.add_apply]
      simp
    have ht1 : TableFrame keep _ m1 p := ⟨update_self p _ alloc, hnew.keep_none, hnew.ledger.ref_one hnew.idle⟩
    exact (ht1.spared hsplit.spares hposp nofun).spared hs3 hposp' nofun
  have hother : refs ({ entry := tableEntry p, child := t } : Pde) e.entry.frame = 0 := by
    have hpne : e.entry.frame ≠ p := fun heq => by
      have hidle := hnew.idle
      rw [← heq] at hidle
      omega
    have hchildren : ∀ j ∈ Finset.range PAGE_TABLE_ENTRIES, refs (t j) e.entry.frame = 0 := by
      intro j hj
      by_cases hpj : (t j).present = true
      · rw [refs_entry hpj]
        refine Pi.single_eq_of_ne (fun heq => ?_) _
        have h4k := (hsplit.fits j (Finset.mem_range.1 hj) hpj).1
        rw [← heq, hsplit.spares.stays _ _ hpos1 ha1] at h4k
        cases h4k
      · exact congrFun (Sparse.refs (Bool.eq_false_of_not_eq_true hpj)) _
    rw [hrefs, Pi.add_apply, Pi.single_eq_of_ne hpne, tableRefs, Finset.sum_apply, Finset.sum_eq_zero hchildren,
      Nat.add_zero]
  refine ⟨⟨alloc3, ?_⟩, rfl, rfl, hother⟩
  refine Kept.congr ⟨⟨hl3, ?_⟩, hspares, fun g => ?_⟩ (.uncharge m3 _) (uncharge_bytes m3 _)
  · refine hhold.fits.2 ⟨fun f hf => ?_, hfits3⟩
    cases hf
    exact htable
  · have hmod : g % PAGE_TABLE_ENTRIES < PAGE_TABLE_ENTRIES := Nat.mod_lt _ (by decide)
    rw [page_huge hp hh, page_table rfl rfl]
    refine SamePage.trans ?_ (hpage3 _ hmod g)
    refine .some ⟨rfl, rfl, rfl, ?_, fun _ => ?_⟩
    · exact hnew.spares.bytes _ _ hpos hhuge _ ⟨Nat.le_add_right _ _, Nat.add_lt_add_left hmod _⟩
    · show 1 ≤ (m.pages e.entry.frame).ppRef
      rw [h.ledger.counted, refs_huge hp hh]
      exact hpos

theorem ptblSplit_kept (hh : e.entry.huge = true) (h : Acc keep ext alloc m e) :
    Ends Panics (ptblSplit m e) fun r => (∃ alloc', Kept keep ext alloc m e alloc' r.1 r.2) ∧ r.2.entry.present = true ∧
      r.2.entry.huge = false :=
  (ptblSplit_copies hp hh h).mono fun _ ⟨hk, hp', hh', _⟩ => ⟨hk, hp', hh'⟩

end

end Split

/-! ## Merging a table into a huge page -/

section Merge

variable {t : Nat → Entry}

/-- The loop that copies the pages. -/
theorem mergeCopy {p : Nat} (hout : ∀ j < PAGE_TABLE_ENTRIES, (t j).frame ∉ blockSet p BUDDY_2M_PAGE) :
    Ends Panics (forRange (fun i m => .ok (m.copyFrames (p + i) (t i).frame 1)) PAGE_TABLE_ENTRIES 0 m) fun m' =>
      SameFrames m m' ∧ (∀ x, x ∉ blockSet p BUDDY_2M_PAGE → m'.bytes x = m.bytes x) ∧
        ∀ j < PAGE_TABLE_ENTRIES, m'.bytes (p + j) = m.bytes (t j).frame := by
  refine (forRange_rule (I := fun i m' => SameFrames m m' ∧ (∀ x, x ∉ blockSet p BUDDY_2M_PAGE → m'.bytes x = m.bytes x) ∧
    ∀ j < i, m'.bytes (p + j) = m.bytes (t j).frame) (fun i m' _ hi hI => ?_) ?_).mono fun m' hm' => ?_
  · obtain ⟨hs, hx, hj⟩ := hI
    have hi : i < PAGE_TABLE_ENTRIES := by omega
    have hnew : ∀ x, x ≠ p + i → (m'.copyFrames (p + i) (t i).frame 1).bytes x = m'.bytes x := by
      intro x hne
      funext o
      simp only [copyFrames]
      rw [if_neg (by omega)]
    refine .ok ⟨hs.trans (.copyFrames _ _ _ _), fun x hxp => ?_, fun j hji => ?_⟩
    · rw [hnew x, hx x hxp]
      rintro rfl
      exact hxp ⟨Nat.le_add_right _ _, Nat.add_lt_add_left hi _⟩
    · by_cases hji' : j = i
      · subst hji'
        rw [← hx _ (hout j hi)]
        funext o
        simp [copyFrames]
      · rw [hnew _ (by omega), hj j (by omega)]
  · exact ⟨.refl m, fun _ _ => rfl, fun _ hj => absurd hj (Nat.not_lt_zero _)⟩
  · rwa [Nat.zero_add] at hm'

theorem mergeFlush {base : Nat} :
    Ends Panics (forRange (fun i m => .ok (m.tlbInvalidate m.cpu.cr3 (base + i * PAGE_SIZE))) PAGE_TABLE_ENTRIES 0 m) fun m' =>
      SameFrames m m' ∧ m'.bytes = m.bytes := by
  refine forRange_rule (I := fun _ m' => SameFrames m m' ∧ m'.bytes = m.bytes) (fun i m' _ _ hI => .ok ?_) ⟨.refl m, rfl⟩
  exact ⟨hI.1.trans (.tlbInvalidate _ _ _), (tlbInvalidate_bytes _ _ _).trans hI.2⟩

/-- The references in the entries from `i` on. -/
def tailRefs (n : Nat) (t : Nat → Entry) (i : Nat) : Nat → Nat := ∑ j ∈ Finset.Ico i n, Node.refs (t j)

theorem le_tailRefs {n i j : Nat} (hj : i ≤ j) (hn : j < n) (t : Nat → Entry) (f : Nat) : refs (t j) f ≤ tailRefs n t i f := by
  rw [tailRefs, Finset.sum_apply]
  exact Finset.single_le_sum (f := fun j => refs (t j) f) (fun _ _ => Nat.zero_le _) (Finset.mem_Ico.2 ⟨hj, hn⟩)

/-- The loop that gives up the old pages. -/
theorem mergeDrop (hp : ∀ j < PAGE_TABLE_ENTRIES, (t j).present = true)
    (hl : Ledger keep (count + tableRefs PAGE_TABLE_ENTRIES t) alloc m)
    (hfits : ∀ j < PAGE_TABLE_ENTRIES, Fits keep alloc m (t j)) :
    Ends Panics (forRange (mergeEntry t) PAGE_TABLE_ENTRIES 0 m) fun m' => ∃ alloc', Ledger keep count alloc' m' ∧
      Spares ∅ count alloc m alloc' m' := by
  refine (forRange_rule (I := fun i m' => ∃ alloc', Ledger keep (count + tailRefs PAGE_TABLE_ENTRIES t i) alloc' m' ∧
    Spares ∅ count alloc m alloc' m' ∧ ∀ j, i ≤ j → j < PAGE_TABLE_ENTRIES → Fits keep alloc' m' (t j))
    (fun i m' _ hi hI => ?_) ⟨alloc, ?_, ?_, fun j _ => hfits j⟩).mono fun m' hm' => ?_
  · obtain ⟨alloc', hl', hs', hfits'⟩ := hI
    have hi : i < PAGE_TABLE_ENTRIES := by omega
    have hsplit : count + tailRefs PAGE_TABLE_ENTRIES t i =
        count + tailRefs PAGE_TABLE_ENTRIES t (i + 1) + Pi.single (t i).frame 1 := by
      rw [tailRefs, Finset.sum_eq_sum_Ico_succ_bot hi, refs_entry (hp i hi), tailRefs]
      abel
    rw [hsplit] at hl'
    obtain ⟨ha, hk⟩ := hfits' i le_rfl hi (hp i hi)
    refine (hl'.decref ha hk).bind fun m1 ⟨alloc1, hl1, hs1, _⟩ => .ok ⟨alloc1, hl1.congr (.uncharge m1 1), ?_, ?_⟩
    · refine (hs'.trans (hs1.mono pos_add)).trans ?_
      exact hl1.spares_of_same pos_add (.uncharge m1 1)
        (uncharge_bytes _ _)
    · intro j hj hjn hpj
      obtain ⟨haj, hkj⟩ := hfits' j (by omega) hjn hpj
      refine ⟨hs1.stays _ _ (lt_of_lt_of_le ?_ (Nat.le_add_left _ _)) haj, hkj⟩
      refine lt_of_lt_of_le ?_ (le_tailRefs hj hjn t _)
      rw [refs_entry hpj]
      simp
  · rwa [tailRefs, Nat.Ico_zero_eq_range]
  · exact hl.spares_refl pos_add
  · obtain ⟨alloc', hl', hs', _⟩ := hm'
    refine ⟨alloc', ?_, hs'⟩
    rwa [tailRefs, Nat.zero_add, Finset.Ico_self, Finset.sum_empty, add_zero] at hl'

/-- Merging keeps what is mapped and counted. -/
theorem ptblMerge_kept {e : Pde} (base : Nat) (h : Acc keep ext alloc m e) :
    Ends Panics (ptblMerge base m e) fun r => ∃ alloc', Kept keep ext alloc m e alloc' r.1 r.2 := by
  refine .ite (fun _ => .ok ⟨alloc, .refl h⟩) fun hno => .ite (fun hm => ?_) fun _ => .ok ⟨alloc, .refl h⟩
  obtain ⟨hp, hh⟩ : e.entry.present = true ∧ e.entry.huge = false := by simpa using hno
  have hhold := holds_pde hp hh
  obtain ⟨htable, hfits⟩ := (hhold.fits (t := e.child)).1 h.fits
  obtain ⟨htf, htk, _⟩ := htable _ rfl
  have hrefs : refs e = Pi.single e.entry.frame 1 + tableRefs PAGE_TABLE_ENTRIES e.child := hhold.refs e.child
  have hself : ∀ j < PAGE_TABLE_ENTRIES, 0 < refs (e.child j) (e.child j).frame := fun j hj => by
    rw [refs_entry (hm j hj).1]
    simp
  have hcount : ∀ j < PAGE_TABLE_ENTRIES, ∀ f, 0 < refs (e.child j) f → 0 < (ext + refs e) f := by
    intro j hj f hf
    have := le_tableRefs hj e.child f
    rw [Pi.add_apply, hrefs, Pi.add_apply]
    omega
  refine h.ledger.newPage (by decide) (fun _ _ => rfl) fun p m1 hnew => ?_
  have hk : reqOrder (ALLOC_HUGE ||| ALLOC_ZERO) = BUDDY_2M_PAGE := by decide
  rw [hk] at hnew
  have hout : ∀ j < PAGE_TABLE_ENTRIES, (e.child j).frame ∉ blockSet p BUDDY_2M_PAGE := by
    intro j hj hmem
    have hne : (e.child j).frame ≠ p := fun he => by
      have := hcount j hj _ (hself j hj)
      rw [he, hnew.idle] at this
      omega
    have ha : update alloc p (some BUDDY_2M_PAGE) (e.child j).frame = some BUDDY_4K_PAGE := by
      rw [update_of_ne hne]
      exact (hfits j hj (hm j hj).1).1
    exact hne (hnew.ledger.disjoint_blocks (update_self p _ _) ha hmem (head_mem_blockSet _ _)).symm
  refine (mergeCopy hout).bind fun m2 ⟨hs2, hb2, hc2⟩ => mergeFlush.bind fun m3 ⟨hs3, hb3⟩ => ?_
  have hs13 := hs2.trans hs3
  have hl3 := hnew.ledger.congr hs13
  -- Everything but the new huge page is spared up to here.
  have hspares3 : Spares ∅ (ext + refs e) alloc m (update alloc p (some BUDDY_2M_PAGE)) m3 := by
    refine hnew.spares.trans (hnew.ledger.spares_write pos_add hs13
      (update_self p _ _) hnew.idle fun x hx => ?_)
    rw [hb3, hb2 x hx]
  have hfits3 : ∀ j < PAGE_TABLE_ENTRIES, Fits keep (update alloc p (some BUDDY_2M_PAGE)) m3 (e.child j) := fun j hj =>
    fits_spared hspares3 (hcount j hj) nofun (hfits j hj)
  have hposp : 0 < (ext + Pi.single p 1 : Nat → Nat) p := by simp
  have hl3' : Ledger keep (ext + Pi.single p 1 + Pi.single e.entry.frame 1 + tableRefs PAGE_TABLE_ENTRIES e.child)
      (update alloc p (some BUDDY_2M_PAGE)) m3 := by
    have : ext + refs e + Pi.single p 1 =
        ext + Pi.single p 1 + Pi.single e.entry.frame 1 + tableRefs PAGE_TABLE_ENTRIES e.child := by
      rw [hrefs]
      abel
    rwa [this] at hl3
  refine (mergeDrop (fun j hj => (hm j hj).1) hl3' hfits3).bind fun m4 ⟨alloc4, hl4, hs4⟩ => ?_
  have htf4 : alloc4 e.entry.frame = some BUDDY_4K_PAGE := by
    refine hs4.stays _ _ (by simp) (hspares3.stays _ _ ?_ htf)
    rw [Pi.add_apply, hrefs, Pi.add_apply]
    simp
  refine (hl4.decref htf4 htk).bind fun m5 ⟨alloc5, hl5, hs5, _⟩ => .ok ⟨alloc5, ?_⟩
  dsimp only
  have hs35 : Spares ∅ (ext + Pi.single p 1) (update alloc p (some BUDDY_2M_PAGE)) m3 alloc5 m5 :=
    (hs4.mono pos_add).trans hs5
  have hap : alloc5 p = some BUDDY_2M_PAGE := hs35.stays p _ hposp (update_self p _ _)
  refine ⟨⟨?_, fun _ => ⟨fun _ => ⟨hap, hnew.keep_none⟩, nofun⟩⟩, ?_, fun g => ?_⟩
  · rw [refs_huge rfl rfl]
    exact hl5
  · exact (hspares3.mono pos_add).trans
      (hs35.mono pos_add)
  · have hmod : g % PAGE_TABLE_ENTRIES < PAGE_TABLE_ENTRIES := Nat.mod_lt _ (by decide)
    rw [page_table hp hh, page_entry (hm _ hmod).1, page_huge rfl rfl]
    have humask := (hm _ hmod).2
    simp only [Entry.umask, PageFlags.mk.injEq] at humask
    refine .some ⟨humask.2.1.symm, humask.2.2.1.symm, humask.2.2.2.1.symm, ?_, fun _ => ?_⟩
    · have hin : p + g % PAGE_TABLE_ENTRIES ∈ blockSet p BUDDY_2M_PAGE := ⟨Nat.le_add_right _ _, Nat.add_lt_add_left hmod _⟩
      have h1 := hs35.bytes p _ hposp (update_self p _ _) _ hin
      have h2 := hnew.spares.bytes _ _ (hcount _ hmod _ (hself _ hmod)) (hfits _ hmod (hm _ hmod).1).1 _ (head_mem_blockSet _ _)
      exact (h1.trans ((congrFun hb3 _).trans (hc2 _ hmod))).trans h2
    · have h1 := hs35.ppRef p (Set.notMem_empty p) hposp
      have h2 := hl3.ref_one hnew.idle
      have h3 := hcount _ hmod _ (hself _ hmod)
      rw [← h.ledger.counted] at h3
      rw [h2] at h1
      exact le_trans h1 h3

end Merge

end OpenLsd
