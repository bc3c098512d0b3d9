import OpenLsd.Lemmas.AreaBounds

/-!
# The search for a place

`add_vma` tries places one size apart, downward from where it begins, and takes the first one that is free. What is known of one
attempt gives what the search comes to.

A search that passes below zero wraps, and then it succeeds at once: the area lies behind all others and ends before it begins.
-/

namespace OpenLsd

open Outcome

namespace VmSpace

variable {s s' s1 : VmSpace} {name : String} {p q r fuel addr size flags b L start lo c k : Nat} {M : VmSpace → VmSpace → Nat → Nat → Prop}
  {bad : Stop → Prop}

/-! ## Areas that are out of order

Nothing is known here of the order of the areas, only of where they end. -/

theorem mergeVma_vmEnd_le {merged : Bool} (hL : ∀ x ∈ s.taskMmap, (s.vma x).vmEnd ≤ L) (hq : q ∈ s.taskMmap)
    (he : s.mergeVma fuel p q = some (merged, s')) : ∀ x ∈ s'.taskMmap, (s'.vma x).vmEnd ≤ L := by
  unfold mergeVma at he
  split at he
  · obtain ⟨s1, hs1, he⟩ := Option.bind_eq_some_iff.1 he
    obtain ⟨rb, -, hs1⟩ := Option.bind_eq_some_iff.1 hs1
    cases hs1
    cases he
    intro x hx
    have hx : x ∈ s.taskMmap := List.mem_of_mem_erase hx
    show (if x = q then Vma.zero else if x = p then _ else s.vma x).vmEnd ≤ L
    split
    · exact Nat.zero_le _
    · split
      · exact hL q hq
      · exact hL x hx
  · cases he
    exact hL

theorem mergeVmas_vmEnd_le (hL : ∀ x ∈ s.taskMmap, (s.vma x).vmEnd ≤ L) (hp : p ∈ s.taskMmap)
    (he : s.mergeVmas fuel p = some (r, s')) : ∀ x ∈ s'.taskMmap, (s'.vma x).vmEnd ≤ L := by
  simp only [mergeVmas, Option.bind_eq_bind] at he
  obtain ⟨⟨t, s1⟩, hprev, hnext⟩ := Option.bind_eq_some_iff.1 he
  have hL1 : ∀ x ∈ s1.taskMmap, (s1.vma x).vmEnd ≤ L := by
    unfold mergePrev at hprev
    split at hprev
    · cases hprev
      exact hL
    · obtain ⟨⟨merged, s2⟩, hm, hprev⟩ := Option.bind_eq_some_iff.1 hprev
      cases hprev
      exact mergeVma_vmEnd_le hL hp hm
  have hnext : s1.mergeNext fuel t = some (r, s') := hnext
  unfold mergeNext at hnext
  split at hnext
  · cases hnext
    exact hL1
  · rename_i x hx
    obtain ⟨a, l, hl⟩ := listNext_some hx
    obtain ⟨⟨merged, s2⟩, hm, hnext⟩ := Option.bind_eq_some_iff.1 hnext
    cases hnext
    exact mergeVma_vmEnd_le hL1 (by simp [hl]) hm

/-- An area that no other one ends at begins where it did. -/
theorem mergeVmas_alone (hno : ∀ q ∈ s.taskMmap, ¬mergeable (s.vma q) (s.vma p)) (hp : p ∈ s.taskMmap)
    (he : s.mergeVmas fuel p = some (r, s')) : (s'.vma r).vmBase = (s.vma p).vmBase := by
  simp only [mergeVmas, Option.bind_eq_bind] at he
  obtain ⟨⟨t, s1⟩, hprev, hnext⟩ := Option.bind_eq_some_iff.1 he
  obtain ⟨rfl, rfl⟩ : p = t ∧ s = s1 := by
    unfold mergePrev at hprev
    split at hprev
    · cases hprev
      exact ⟨rfl, rfl⟩
    · rename_i x hx
      obtain ⟨a, l, hl⟩ := listPrev_some hx
      rw [mergeVma, if_neg (hno x (by simp [hl]))] at hprev
      cases hprev
      exact ⟨rfl, rfl⟩
  have hnext : s.mergeNext fuel p = some (r, s') := hnext
  unfold mergeNext at hnext
  split at hnext
  · cases hnext
    rfl
  · rename_i x hx
    obtain ⟨⟨merged, s2⟩, hm, hnext⟩ := Option.bind_eq_some_iff.1 hnext
    cases hnext
    unfold mergeVma at hm
    split at hm
    · rename_i hmerge
      have hne : p ≠ x := by
        rintro rfl
        exact hno _ hp hmerge
      obtain ⟨s2, hs2, hm⟩ := Option.bind_eq_some_iff.1 hm
      obtain ⟨rb, -, hs2⟩ := Option.bind_eq_some_iff.1 hs2
      cases hs2
      cases hm
      simp [kfree, setVma, hne]
    · cases hm
      rfl

/-! ## One place -/

/-- The areas are as they were. Records may have been given out. -/
structure SameAreas (s s' : VmSpace) : Prop where
  agrees : Agrees s'
  list : s'.taskMmap = s.taskMmap
  vma : ∀ x ∈ s.taskMmap, s'.vma x = s.vma x

namespace SameAreas

variable {s2 : VmSpace}

theorem refl (h : Agrees s) : SameAreas s s := ⟨h, rfl, fun _ _ => rfl⟩

theorem trans (h : SameAreas s s1) (h' : SameAreas s1 s2) : SameAreas s s2 :=
  ⟨h'.agrees, h'.list.trans h.list, fun x hx => (h'.vma x (by rwa [h.list])).trans (h.vma x hx)⟩

theorem area_iff (h : SameAreas s s1) (P : Vma → Prop) : (∃ x ∈ s1.taskMmap, P (s1.vma x)) ↔ ∃ x ∈ s.taskMmap, P (s.vma x) := by
  rw [h.list]
  exact exists_congr fun x => and_congr_right fun hx => by rw [h.vma x hx]

theorem at_iff (h : SameAreas s s1) (va : Nat) (k : Kind) : At s1 va k ↔ At s va k :=
  h.area_iff fun v => v.vmBase ≤ va ∧ va < v.vmEnd ∧ kind v = k

theorem free_iff (h : SameAreas s s1) (a b : Nat) : s1.Free a b ↔ s.Free a b := by
  simp only [Free, h.at_iff]

theorem ok (h : SameAreas s s1) (hok : AreasOk s) : AreasOk s1 :=
  ⟨h.agrees, fun a ha => hok.bounds a ((h.area_iff fun v => a = v.vmBase ∨ a = v.vmEnd).1 ha)⟩

end SameAreas

/-- An area has been put at `b`, and `p` is what it has become. -/
structure Placed (s s' : VmSpace) (name : String) (size flags b p : Nat) : Prop where
  agrees : Agrees s'
  free : s.Free b (b + size)
  mem : p ∈ s'.taskMmap
  covers : Covers ⟨name, b, b + size, none, 0, flags⟩ (s'.vma p)
  at_iff : ∀ va k, At s' va k ↔ At s va k ∨ (b ≤ va ∧ va < b + size ∧ ⟨name, flags, none⟩ = k)
  bound : ∀ a, IsBound s' a → IsBound s a ∨ a = b ∨ a = b + size

theorem Placed.of_same (h : SameAreas s s1) (hp : Placed s1 s' name size flags b p) : Placed s s' name size flags b p := by
  refine ⟨hp.agrees, (h.free_iff _ _).1 hp.free, hp.mem, hp.covers, fun va k => ?_, fun a ha => (hp.bound a ha).imp_left ?_⟩
  · rw [hp.at_iff, h.at_iff]
  · exact (h.area_iff fun v => a = v.vmBase ∨ a = v.vmEnd).1

theorem Placed.ok (hp : Placed s s' name size flags b p) (h : AreasOk s) (hb : UserBound b) (hl : UserBound (b + size)) :
    AreasOk s' := by
  refine ⟨hp.agrees, fun a ha => ?_⟩
  rcases hp.bound a ha with hold | rfl | rfl
  · exact h.bounds a hold
  · exact hb
  · exact hl

/-- Trying one place. -/
theorem addExecutableVma_placed {r : Option Nat} (h : AreasOk s) (hsize : 0 < size) (hhigh : b + size ≤ USER_LIM)
    (he : s.addExecutableVma fuel true name b size flags none 0 = some (r, s')) :
    (r = none ∧ SameAreas s s' ∧ ¬s.Free b (b + size)) ∨ ∃ p, r = some p ∧ Placed s s' name size flags b p := by
  have hadd := add64_of_le hhigh
  obtain ⟨hag, -, hbound, hp, hnone, hat⟩ := addExecutableVma_spec h.agrees (by omega) he
  have hfull := hnone rfl
  rw [hadd] at hbound hp hfull hat
  rcases addExecutableVma_cases h.agrees he with ⟨rfl, rfl, -⟩ | ⟨p, s1, rfl, -, -⟩
  · obtain ⟨-, -, -, -, -, hold⟩ := newVma_agrees h.agrees ⟨name, b, add64 b size, none, 0, flags⟩
    obtain ⟨va, k, h1, h2, hin⟩ := hfull.1 rfl
    exact .inl ⟨rfl, ⟨hag, rfl, hold⟩, fun hfree => hfree va k h1 h2 hin⟩
  · refine .inr ⟨p, rfl, hag, fun va k h1 h2 hin => (nomatch hfull.2 ⟨va, k, h1, h2, hin⟩), (hp p rfl).1, (hp p rfl).2,
      fun va k => ?_, fun a ha => (hbound a ha).imp_right And.right⟩
    rw [hat]
    simp

/-- Whatever becomes of a new area, the areas end where they may. -/
theorem addExecutableVma_vmEnd_le {r : Option Nat} (h : Agrees s) (hL : ∀ x ∈ s.taskMmap, (s.vma x).vmEnd ≤ L)
    (hlast : add64 b size ≤ L) (he : s.addExecutableVma fuel true name b size flags none 0 = some (r, s')) :
    ∀ x ∈ s'.taskMmap, (s'.vma x).vmEnd ≤ L := by
  rcases addExecutableVma_cases h he with ⟨rfl, rfl, -⟩ | ⟨p, s1, rfl, hi, hm⟩
  · obtain ⟨-, -, -, -, -, hold⟩ := newVma_agrees h ⟨name, b, add64 b size, none, 0, flags⟩
    intro x hx
    rw [hold x hx]
    exact hL x hx
  · refine mergeVmas_vmEnd_le (fun x hx => ?_) (hi.perm.mem_iff.2 (by simp)) hm
    rcases List.mem_cons.1 (hi.perm.mem_iff.1 hx) with rfl | hx
    · rwa [hi.new]
    · rw [hi.old x hx]
      exact hL x hx

/-- An area that begins behind all others is never refused, nor is one that ends at zero. -/
theorem addExecutableVma_wrapped {r : Option Nat} (h : AreasOk s) (hb : USER_LIM < b ∨ add64 b size = 0)
    (he : s.addExecutableVma fuel true name b size flags none 0 = some (r, s')) :
    ∃ p, r = some p ∧ (USER_LIM < b → add64 b size ≠ b → (s'.vma p).vmBase = b) := by
  rcases addExecutableVma_cases h.agrees he with ⟨-, -, x, hx, hov⟩ | ⟨p, s1, rfl, hi, hm⟩
  · have := (h.vmEnd hx).2.2
    refine absurd ?_ hov
    simp only [Apart]
    omega
  refine ⟨p, rfl, fun hlt hne => ?_⟩
  rw [mergeVmas_alone (fun q hq hmerge => ?_) (hi.perm.mem_iff.2 (by simp)) hm, hi.new]
  have hadj : (s1.vma q).vmEnd = (s1.vma s.next).vmBase := hmerge.2.2.2.2.1
  rcases List.mem_cons.1 (hi.perm.mem_iff.1 hq) with rfl | hq
  · rw [hi.new] at hadj
    exact hne hadj
  · have := (h.vmEnd hq).2.2
    rw [hi.new, hi.old q hq] at hadj
    simp only at hadj
    omega

/-! ## The search -/

/-- The first free place of the size on the way down from `start`, of those that begin at `lo` or above. -/
def Scan (s : VmSpace) (start size lo b : Nat) : Prop :=
  ∃ k, k * size ≤ start ∧ b = start - k * size ∧ lo ≤ b ∧ s.Free b (b + size) ∧
    ∀ j < k, ¬s.Free (start - j * size) (start - j * size + size)

theorem Scan.unique (h : s.Scan start size lo b) (h' : s.Scan start size lo c) : b = c := by
  obtain ⟨k, -, rfl, -, hfree, hbefore⟩ := h
  obtain ⟨k', -, rfl, -, hfree', hbefore'⟩ := h'
  rcases Nat.lt_trichotomy k k' with hlt | rfl | hlt
  · exact absurd hfree (hbefore' k hlt)
  · rfl
  · exact absurd hfree' (hbefore k' hlt)

theorem Scan.next (hle : size ≤ start) (hfull : ¬s.Free start (start + size)) :
    s.Scan (start - size) size lo b ↔ s.Scan start size lo b := by
  constructor
  · rintro ⟨k, hk, rfl, hlo, hfree, hbefore⟩
    have hsucc : (k + 1) * size = k * size + size := Nat.succ_mul k size
    refine ⟨k + 1, by omega, by omega, hlo, hfree, fun j hj => ?_⟩
    cases j with
    | zero => simpa using hfull
    | succ j =>
      have := hbefore j (by omega)
      rwa [Nat.succ_mul, Nat.add_comm, ← Nat.sub_sub]
  · rintro ⟨k, hk, rfl, hlo, hfree, hbefore⟩
    cases k with
    | zero =>
      rw [Nat.zero_mul, Nat.sub_zero] at hfree
      exact absurd hfree hfull
    | succ k =>
      have hsucc : (k + 1) * size = k * size + size := Nat.succ_mul k size
      refine ⟨k, by omega, by omega, hlo, hfree, fun j hj => ?_⟩
      have := hbefore (j + 1) (by omega)
      rwa [Nat.succ_mul, Nat.add_comm, ← Nat.sub_sub] at this

theorem SameAreas.scan_iff (h : SameAreas s s1) : s1.Scan start size lo b ↔ s.Scan start size lo b := by
  simp only [Scan, h.free_iff]

/-- The search has gone below zero: the area that was made begins behind all addresses of areas. -/
structure Lost (s : VmSpace) (p : Nat) : Prop where
  base : USER_LIM < (s.vma p).vmBase
  vmEnd : ∀ x ∈ s.taskMmap, (s.vma x).vmEnd ≤ USER_LIM

/-- What is known of an attempt: a place that is not free leaves the areas as they are, and at a free one there is an area
afterwards for which `M` holds. -/
structure PlaceRule (fuel : Nat) (name : String) (size flags : Nat) (M : VmSpace → VmSpace → Nat → Nat → Prop) : Prop where
  attempt : ∀ {s s' r b}, AreasOk s → b + size ≤ USER_LIM → pageAligned b →
    s.addExecutableVma fuel true name b size flags none 0 = some (r, s') →
      (r = none ∧ SameAreas s s' ∧ ¬s.Free b (b + size)) ∨ ∃ p, r = some p ∧ s.Free b (b + size) ∧ M s s' b p
  of_same : ∀ {s s1 s' b p}, SameAreas s s1 → M s1 s' b p → M s s' b p

/-- The search ends at the first free place, or without one when it comes to the bound, or behind all areas when it passes below
zero. -/
theorem scanDown_rule {goOn : Nat → Prop} [DecidablePred goOn] {n : Nat} (hloop : ¬bad .loop)
    (htree : ¬bad .rbTree) (hgo : ∀ c, goOn c ↔ lo ≤ c) (hsize : 0 < size) (hal : pageAligned size)
    (hM : PlaceRule fuel name size flags M) (h : AreasOk s) (hb : pageAligned b) (hhigh : b + size ≤ USER_LIM) :
    Ends bad (scanDown fuel name size flags goOn n b s) fun r =>
      (r.1 = none ∧ SameAreas s r.2 ∧ (∀ c, ¬s.Scan b size lo c) ∧ ∃ k, k * size ≤ b ∧ b - k * size < lo) ∨
      ∃ p, r.1 = some p ∧ ((∃ c, s.Scan b size lo c ∧ c + size ≤ USER_LIM ∧ pageAligned c ∧ M s r.2 c p) ∨
        (Lost r.2 p ∧ (∀ c, ¬s.Scan b size lo c) ∧ ∃ k, k * size ≤ b ∧ lo ≤ b - k * size ∧ b - k * size < size)) := by
  induction n generalizing b s with
  | zero => exact .error hloop
  | succ n ih =>
    refine .ite (fun hgob => ?_) fun hstop => ?_
    case refine_2 =>
      have hlt : ¬lo ≤ b := mt (hgo b).2 hstop
      refine .ok (.inl ⟨rfl, .refl h.agrees, fun c hc => ?_, 0, by omega, by omega⟩)
      obtain ⟨k, -, rfl, hle, -⟩ := hc
      omega
    have hlob := (hgo b).1 hgob
    cases he : s.addExecutableVma fuel true name b size flags none 0 with
    | none => exact .error htree
    | some v =>
      obtain ⟨r, s1⟩ := v
      rcases hM.attempt h hhigh hb he with ⟨rfl, hsame, hfull⟩ | ⟨p, rfl, hfree, hm⟩
      case inr =>
        refine .ok (.inr ⟨p, rfl, .inl ⟨b, ⟨0, by omega, by omega, hlob, hfree, fun j hj => ?_⟩, hhigh, hb, hm⟩⟩)
        exact absurd hj (Nat.not_lt_zero j)
      show Ends bad (scanDown fuel name size flags goOn n (sub64 b size) s1) _
      by_cases hle : size ≤ b
      · have hb64 : b < 2 ^ 64 := lt_of_le_of_lt (show b ≤ USER_LIM by omega) (by decide)
        rw [sub64_of_le hle hb64]
        refine (ih (hsame.ok h) (pageAligned_sub hb hal) (by omega)).mono fun r hr => ?_
        simp only [hsame.scan_iff, Scan.next hle hfull] at hr
        rcases hr with ⟨hr, hsame', hno, k, hk, hend⟩ | ⟨p, hr, ⟨c, hc, hch, hca, hm⟩ | ⟨hlost, hno, k, hk, hlow, hend⟩⟩
        · have hsucc : (k + 1) * size = k * size + size := Nat.succ_mul k size
          exact .inl ⟨hr, hsame.trans hsame', hno, k + 1, by omega, by omega⟩
        · exact .inr ⟨p, hr, .inl ⟨c, hc, hch, hca, hM.of_same hsame hm⟩⟩
        · have hsucc : (k + 1) * size = k * size + size := Nat.succ_mul k size
          exact .inr ⟨p, hr, .inr ⟨hlost, hno, k + 1, by omega, by omega, by omega⟩⟩
      · -- the next place is behind all areas, and the search ends there
        have hlim : USER_LIM = 140737488355328 := by decide
        have hwrap : sub64 b size = 2 ^ 64 + b - size := by
          simp only [sub64]
          omega
        have hend : add64 (sub64 b size) size = b := by
          simp only [add64, sub64]
          omega
        cases n with
        | zero => exact .error hloop
        | succ n =>
          refine .ite (fun _ => ?_) fun hstop => absurd ((hgo _).2 (by omega)) hstop
          cases he1 : s1.addExecutableVma fuel true name (sub64 b size) size flags none 0 with
          | none => exact .error htree
          | some v =>
            obtain ⟨r, s2⟩ := v
            have hok1 := hsame.ok h
            obtain ⟨p, rfl, hbase⟩ := addExecutableVma_wrapped hok1 (.inl (by omega)) he1
            refine .ok (.inr ⟨p, rfl, .inr ⟨⟨?_, addExecutableVma_vmEnd_le hok1.agrees (fun x hx => (hok1.vmEnd hx).2.2)
              (by omega) he1⟩, ?_, 0, by omega, by omega, by omega⟩⟩)
            · rw [hbase (by omega) (by omega)]
              omega
            · rintro c ⟨k, hk, rfl, -, hfree, -⟩
              obtain rfl : k = 0 := by
                by_contra hk0
                have := Nat.le_mul_of_pos_left size (Nat.pos_of_ne_zero hk0)
                omega
              rw [Nat.zero_mul, Nat.sub_zero] at hfree
              exact hfull hfree

theorem placeRule_placed (hsize : 0 < size) : PlaceRule fuel name size flags fun s s' b p => Placed s s' name size flags b p where
  attempt := fun h hhigh _ he => (addExecutableVma_placed h hsize hhigh he).imp_right fun ⟨p, hr, hp⟩ => ⟨p, hr, hp.free, hp⟩
  of_same := Placed.of_same

/-! ## Both searches -/

theorem scan_iff :
    (∃ c, s.Scan start size lo c) ↔ ∃ k, lo + k * size ≤ start ∧ s.Free (start - k * size) (start - k * size + size) := by
  classical
  constructor
  · rintro ⟨c, k, hk, rfl, hlo, hfree, -⟩
    exact ⟨k, by omega, hfree⟩
  · intro hex
    obtain ⟨k, ⟨hk, hfree⟩, hfirst⟩ := Nat.findX hex
    refine ⟨_, k, by omega, rfl, by omega, hfree, fun j hj hfree' => hfirst j hj ⟨?_, hfree'⟩⟩
    have : j * size ≤ k * size := Nat.mul_le_mul_right size (le_of_lt hj)
    omega

theorem not_scanFits (hno : ∀ c, ¬s.Scan start size PAGE_SIZE c)
    (hlow : PAGE_SIZE ≤ start - k * size) (hend : start - k * size < size) : ¬s.ScanFits start size := by
  rintro (hdvd | hex)
  · have hpos : 0 < PAGE_SIZE := by decide
    have := Nat.le_of_dvd (by omega) (Nat.dvd_sub hdvd (Nat.dvd_mul_left size k))
    omega
  · obtain ⟨c, hc⟩ := scan_iff.2 hex
    exact hno c hc

/-- The place that `add_vma` finds: the first free one below the address, or else the first free one above it. -/
def FirstFree (s : VmSpace) (addr size b : Nat) : Prop :=
  s.Scan (scanStart addr size) size PAGE_SIZE b ∨
    (addr ≠ 0 ∧ size ∣ addr ∧ (∀ c, ¬s.Scan addr size PAGE_SIZE c) ∧ s.Scan (USER_LIM - size) size (addr + 1) b)

theorem FirstFree.unique (h : s.FirstFree addr size b) (h' : s.FirstFree addr size c) : b = c := by
  rcases h with h | ⟨hne, -, hno, h⟩
  · rcases h' with h' | ⟨hne, -, hno, -⟩
    · exact h.unique h'
    · rw [scanStart, if_neg hne] at h
      exact absurd h (hno b)
  · rcases h' with h' | ⟨-, -, -, h'⟩
    · rw [scanStart, if_neg hne] at h'
      exact absurd h' (hno c)
    · exact h.unique h'

/-- A search that has come to the first page began at a multiple of the size. -/
theorem dvd_of_scan_end (hal : pageAligned size) (hb : pageAligned b) (hk : k * size ≤ b) (hend : b - k * size < PAGE_SIZE) :
    size ∣ b := by
  have hmul : pageAligned (k * size) := Nat.mod_eq_zero_of_dvd (Nat.dvd_mul_left_of_dvd (Nat.dvd_of_mod_eq_zero hal) k)
  have hzero := Nat.eq_zero_of_dvd_of_lt (Nat.dvd_of_mod_eq_zero (pageAligned_sub hb hmul)) hend
  exact ⟨k, by rw [Nat.mul_comm]; omega⟩

/-- What `add_vma` does to the areas. -/
theorem addVma_rule (hloop : ¬bad .loop) (htree : ¬bad .rbTree)
    (hsize : 0 < size) (hal : pageAligned size) (haddr : pageAligned addr) (hhigh : addr + size ≤ USER_LIM)
    (hM : PlaceRule fuel name size flags M) (h : AreasOk s) : Ends bad (addVma fuel s name addr size flags) fun r =>
      (r.1 = none ∧ SameAreas s r.2) ∨ ∃ p, r.1 = some p ∧
        ((∃ b, s.FirstFree addr size b ∧ PAGE_SIZE ≤ b ∧ b + size ≤ USER_LIM ∧ pageAligned b ∧ M s r.2 b p) ∨
          (Lost r.2 p ∧ ¬s.ScanFits (scanStart addr size) size)) := by
  have hlim : pageAligned USER_LIM := by decide
  have htop : sub64 USER_LIM size = USER_LIM - size := sub64_of_le (by omega) (by decide)
  have hsize64 : size < 2 ^ 64 := lt_of_le_of_lt (show size ≤ USER_LIM by omega) (by decide)
  simp only [addVma, roundUp_of_aligned hal hsize64, htop]
  refine .ite (fun hne => ?_) fun heq => ?_
  · have hlow : PAGE_SIZE ≤ addr := by
      simp only [pageAligned, PAGE_SIZE] at haddr ⊢
      omega
    simp only [FirstFree, scanStart, if_neg hne]
    cases he : s.addExecutableVma fuel true name addr size flags none 0 with
    | none => exact .error htree
    | some v =>
      obtain ⟨r, s1⟩ := v
      rcases hM.attempt h hhigh haddr he with ⟨rfl, hsame, hfull⟩ | ⟨p, rfl, hfree, hm⟩
      case inr =>
        refine .ok (.inr ⟨p, rfl, .inl ⟨addr, .inl ⟨0, by omega, by omega, hlow, hfree, fun j hj => ?_⟩, hlow, hhigh, haddr, hm⟩⟩)
        exact absurd hj (Nat.not_lt_zero j)
      refine (scanDown_rule hloop htree (fun c => Iff.rfl) hsize hal hM (hsame.ok h) haddr hhigh).bind
        fun v hr => ?_
      obtain ⟨r, s2⟩ := v
      simp only [hsame.scan_iff] at hr
      rcases hr with ⟨rfl, hsame2, hno, k, hk, hend⟩ | ⟨p, rfl, ⟨c, hc, hch, hca, hm⟩ | ⟨hlost, hno, k, hk, hlow', hend⟩⟩
      · -- the first search came to zero, so the second one does not pass below it
        have hdvd := dvd_of_scan_end hal haddr hk hend
        have hle := Nat.le_of_dvd (by omega) hdvd
        have hsame2 := hsame.trans hsame2
        refine (scanDown_rule hloop htree (fun c => Iff.rfl) hsize hal hM (hsame2.ok h)
          (pageAligned_sub hlim hal) (by omega)).mono fun r hr => ?_
        simp only [hsame2.scan_iff] at hr
        rcases hr with ⟨hr, hsame', -⟩ | ⟨p, hr, ⟨c, hc, hch, hca, hm⟩ | ⟨-, -, k', -, hlow', hend'⟩⟩
        · exact .inl ⟨hr, hsame2.trans hsame'⟩
        · have hclow : addr + 1 ≤ c := by
            obtain ⟨_, _, _, hc, _⟩ := hc
            exact hc
          exact .inr ⟨p, hr, .inl ⟨c, .inr ⟨hne, hdvd, hno, hc⟩, by omega, hch, hca, hM.of_same hsame2 hm⟩⟩
        · omega
      · have hclow : PAGE_SIZE ≤ c := by
          obtain ⟨_, _, _, hc, _⟩ := hc
          exact hc
        exact .ok (.inr ⟨p, rfl, .inl ⟨c, .inl hc, hclow, hch, hca, hM.of_same hsame hm⟩⟩)
      · exact .ok (.inr ⟨p, rfl, .inr ⟨hlost, not_scanFits hno hlow' hend⟩⟩)
  · have hzero : addr = 0 := by simpa using heq
    simp only [FirstFree, scanStart, if_pos hzero]
    refine (scanDown_rule hloop htree (fun c => Iff.rfl) hsize hal hM h (pageAligned_sub hlim hal)
      (by omega)).mono fun r hr => ?_
    rcases hr with ⟨hr, hsame, -⟩ | ⟨p, hr, ⟨c, hc, hch, hca, hm⟩ | ⟨hlost, hno, k, hk, hlow, hend⟩⟩
    · exact .inl ⟨hr, hsame⟩
    · have hclow : PAGE_SIZE ≤ c := by
        obtain ⟨_, _, _, hc, _⟩ := hc
        exact hc
      exact .inr ⟨p, hr, .inl ⟨c, .inl hc, hclow, hch, hca, hm⟩⟩
    · exact .inr ⟨p, hr, .inr ⟨hlost, not_scanFits hno hlow hend⟩⟩

end VmSpace

end OpenLsd
