import OpenLsd.Lemmas.AreaProtect
import OpenLsd.Lemmas.Search

/-!
# Where `add_vma` puts an area

What `add_vma` returns is the area that the new one has become a part of, which may begin at an area before and end with an area
behind.
-/

namespace OpenLsd

open Outcome

namespace VmSpace

variable {s s' s1 : VmSpace} {p q r fuel addr size prot b : Nat}

/-- Where the merged area lies. -/
theorem mergeVmas_place (h : Agrees s) (hp : p ∈ s.taskMmap) (he : s.mergeVmas fuel p = some (r, s')) :
    (∀ q ∈ s.taskMmap, mergeable (s.vma q) (s.vma p) → (s'.vma r).vmBase = (s.vma q).vmBase) ∧
    ((∀ q ∈ s.taskMmap, ¬mergeable (s.vma q) (s.vma p)) → (s'.vma r).vmBase = (s.vma p).vmBase ∧
      (∀ q ∈ s.taskMmap, mergeable (s.vma p) (s.vma q) → (s'.vma r).vmEnd = (s.vma q).vmEnd) ∧
      ((∀ q ∈ s.taskMmap, ¬mergeable (s.vma p) (s.vma q)) → (s'.vma r).vmEnd = (s.vma p).vmEnd)) := by
  obtain ⟨s1, -, -, hprev, hnext⟩ := mergeVmas_cases h hp he
  have hbase : (s'.vma r).vmBase = (s1.vma r).vmBase := by
    rcases hnext with ⟨rfl, -⟩ | ⟨x, hj⟩
    · rfl
    · rw [hj.vmaLhs]
  rcases hprev with ⟨rfl, rfl, hno⟩ | hj
  · refine ⟨fun q hq hm => absurd hm (hno q hq), fun _ => ⟨hbase, ?_⟩⟩
    rcases hnext with ⟨rfl, hno'⟩ | ⟨x, hj⟩
    · exact ⟨fun q hq hm => absurd hm (hno' q hq), fun _ => rfl⟩
    · refine ⟨fun q hq hm => ?_, fun hno' => absurd hj.mergeable (hno' x hj.right)⟩
      rw [hj.vmaLhs, h.eq_of_base hq hj.right (hm.2.2.2.2.1.symm.trans hj.mergeable.2.2.2.2.1)]
  · refine ⟨fun q hq hm => ?_, fun hno => absurd hj.mergeable (hno r hj.left)⟩
    cases (h.listPrev_adjacent hq hp hm.2.2.2.2.1).symm.trans (h.listPrev_adjacent hj.left hp hj.mergeable.2.2.2.2.1)
    rw [hbase, hj.vmaLhs]

/-! ## One place -/

/-- The area is like those that `sys_mmap` makes with these flags. -/
def Mapped (prot : Nat) (v : Vma) : Prop := v.vmFlags = prot ∧ v.vmName = "user" ∧ v.vmSrc = none ∧ v.vmLen = 0

/-- An area that is mapped at `b` becomes a part of an area that ends there. -/
def JoinsBefore (s : VmSpace) (prot b : Nat) : Prop := ∃ q ∈ s.taskMmap, (s.vma q).vmEnd = b ∧ Mapped prot (s.vma q)

/-- An area that is mapped up to `e` takes in one that begins there, and then goes on to `a` at least. -/
def JoinsBehind (s : VmSpace) (prot e a : Nat) : Prop :=
  ∃ q ∈ s.taskMmap, (s.vma q).vmBase = e ∧ Mapped prot (s.vma q) ∧ a ≤ (s.vma q).vmEnd

/-- An area has been mapped at `b`, and `p` is what it has become. -/
structure MappedAt (s s' : VmSpace) (prot size b p : Nat) : Prop extends Placed s s' "user" size prot b p where
  joined : s.JoinsBefore prot b → ∃ q ∈ s.taskMmap, (s.vma q).vmEnd = b ∧ (s'.vma p).vmBase = (s.vma q).vmBase
  alone : ¬s.JoinsBefore prot b → (s'.vma p).vmBase = b ∧ ∀ a, a ≤ (s'.vma p).vmEnd ↔ a ≤ b + size ∨ s.JoinsBehind prot (b + size) a

theorem MappedAt.of_same (h : SameAreas s s1) (hm : MappedAt s1 s' prot size b p) : MappedAt s s' prot size b p := by
  have hbefore : s1.JoinsBefore prot b ↔ s.JoinsBefore prot b := h.area_iff fun v => v.vmEnd = b ∧ Mapped prot v
  have hbehind : ∀ a, s1.JoinsBehind prot (b + size) a ↔ s.JoinsBehind prot (b + size) a := fun a =>
    h.area_iff fun v => v.vmBase = b + size ∧ Mapped prot v ∧ a ≤ v.vmEnd
  refine ⟨hm.toPlaced.of_same h, fun hj => ?_, fun hno => ?_⟩
  · exact (h.area_iff fun v => v.vmEnd = b ∧ (s'.vma p).vmBase = v.vmBase).1 (hm.joined (hbefore.2 hj))
  · obtain ⟨hbase, hend⟩ := hm.alone (mt hbefore.1 hno)
    exact ⟨hbase, fun a => by rw [hend, hbehind]⟩

/-- Trying one place. -/
theorem addExecutableVma_mapped {r : Option Nat} (h : AreasOk s) (hsize : 0 < size) (hal : pageAligned size)
    (hhigh : b + size ≤ USER_LIM) (hb : pageAligned b)
    (he : s.addExecutableVma fuel true "user" b size prot none 0 = some (r, s')) :
    (r = none ∧ SameAreas s s' ∧ ¬s.Free b (b + size)) ∨ ∃ p, r = some p ∧ MappedAt s s' prot size b p := by
  have hag := h.agrees
  refine (addExecutableVma_placed h hsize hhigh he).imp_right fun hp => ?_
  obtain ⟨p, hr, hput⟩ := hp
  refine ⟨p, hr, ?_⟩
  rcases addExecutableVma_cases hag he with ⟨hnone, -, -⟩ | ⟨p', s1, hr', hi, hm⟩
  · cases hnone.symm.trans hr
  cases hr.symm.trans hr'
  rw [add64_of_le hhigh] at hi
  have hag1 := hi.agrees hag (show b < b + size by omega)
  obtain ⟨hjoined, halone⟩ := mergeVmas_place hag1 (hi.mem_iff.2 (.inl rfl)) hm
  rw [hi.new] at hjoined halone
  have hend : pageAligned (b + size) := by
    simp only [pageAligned, PAGE_SIZE] at *
    omega
  -- the neighbours that the new area is merged with are areas of before
  have hself : ¬mergeable ⟨"user", b, b + size, none, 0, prot⟩ ⟨"user", b, b + size, none, 0, prot⟩ := fun hm => by
    have hadj : b + size = b := hm.2.2.2.2.1
    omega
  have hold : ∀ {P Q : Vma → Prop}, ¬P ⟨"user", b, b + size, none, 0, prot⟩ → (∀ x ∈ s.taskMmap, P (s.vma x) ↔ Q (s.vma x)) →
      ∀ x ∈ s1.taskMmap, P (s1.vma x) ↔ x ∈ s.taskMmap ∧ Q (s.vma x) := by
    intro P Q hnew hPQ x hx
    rcases hi.mem_iff.1 hx with rfl | hx
    · rw [hi.new]
      exact iff_of_false hnew fun hx => absurd (hag.below _ hx.1) (lt_irrefl _)
    · rw [hi.old x hx, hPQ x hx, and_iff_right hx]
  have hbefore := @hold (mergeable · _) (fun v => v.vmEnd = b ∧ Mapped prot v) hself fun x hx => by
    simp only [mergeable, Mapped, (h.vmBase hx).1, (h.vmEnd hx).1, hb, hend, true_and]
  have hbehind := @hold (mergeable _) (fun v => v.vmBase = b + size ∧ Mapped prot v) hself fun x hx => by
    simp only [mergeable, Mapped, (h.vmBase hx).1, (h.vmEnd hx).1, hb, hend, true_and, @eq_comm _ (b + size), @eq_comm _ prot,
      @eq_comm _ "user", @eq_comm _ none, @eq_comm _ 0]
  refine ⟨hput, ?_, fun hno => ?_⟩
  · rintro ⟨q, hq, hqe, hqm⟩
    have hq1 := hi.mem_iff.2 (.inr hq)
    refine ⟨q, hq, hqe, ?_⟩
    rw [hjoined q hq1 ((hbefore q hq1).2 ⟨hq, hqe, hqm⟩), hi.old q hq]
  · obtain ⟨hbase, hyes, hnot⟩ := halone fun q hq hm => hno ⟨q, (hbefore q hq).1 hm⟩
    refine ⟨hbase, fun a => ?_⟩
    by_cases hj : ∃ q ∈ s.taskMmap, (s.vma q).vmBase = b + size ∧ Mapped prot (s.vma q)
    · obtain ⟨q, hq, hqb, hqm⟩ := hj
      have hq1 := hi.mem_iff.2 (.inr hq)
      have hproper := hag.proper q hq
      rw [hyes q hq1 ((hbehind q hq1).2 ⟨hq, hqb, hqm⟩), hi.old q hq]
      refine ⟨fun ha => .inr ⟨q, hq, hqb, hqm, ha⟩, ?_⟩
      rintro (ha | ⟨x, hx, hxb, -, ha⟩)
      · omega
      · rwa [hag.eq_of_base hq hx (hqb.trans hxb.symm)]
    · rw [hnot fun q hq hm => hj ⟨q, (hbehind q hq).1 hm⟩]
      exact ⟨.inl, fun ha => ha.resolve_right fun hx => hj (hx.imp fun q hq => ⟨hq.1, hq.2.1, hq.2.2.1⟩)⟩

theorem placeRule_mapped (hsize : 0 < size) (hal : pageAligned size) :
    PlaceRule fuel "user" size prot fun s s' b p => MappedAt s s' prot size b p where
  attempt := fun h hhigh hb he => by
    rcases addExecutableVma_mapped h hsize hal hhigh hb he with hfull | ⟨p, hr, hm⟩
    · exact .inl hfull
    · exact .inr ⟨p, hr, hm.free, hm⟩
  of_same := MappedAt.of_same

theorem scanDown_empty {goOn : Nat → Prop} [DecidablePred goOn] {n : Nat} (h : Agrees s)
    (hL : ∀ x ∈ s.taskMmap, (s.vma x).vmEnd ≤ USER_LIM) : Yields (scanDown fuel "user" 0 prot goOn n USER_LIM s) fun r =>
      ∀ x ∈ r.2.taskMmap, (r.2.vma x).vmEnd ≤ USER_LIM := by
  induction n generalizing s with
  | zero => exact .error id
  | succ n ih =>
    refine .ite (fun _ => ?_) fun _ => .ok hL
    cases he : s.addExecutableVma fuel true "user" USER_LIM 0 prot none 0 with
    | none => exact .error id
    | some v =>
      obtain ⟨r, s1⟩ := v
      have hL1 := addExecutableVma_vmEnd_le h hL (by decide) he
      cases r with
      | some p => exact .ok hL1
      | none =>
        rcases addExecutableVma_cases h he with ⟨-, rfl, -⟩ | ⟨p, s2, hp, -⟩
        · exact ih (newVma_agrees h _).1 hL1
        · cases hp

theorem addVma_wrapped (h : AreasOk s) (haddr : pageAligned addr) (hlt : addr < 2 ^ 64) :
    Yields (addVma fuel s "user" addr (sub64 0 addr) prot) fun r => (∀ x ∈ r.2.taskMmap, (r.2.vma x).vmEnd ≤ USER_LIM) ∧
      ∀ p, r.1 = some p → USER_LIM < addr → (r.2.vma p).vmBase = addr := by
  have hL : ∀ x ∈ s.taskMmap, (s.vma x).vmEnd ≤ USER_LIM := fun x hx => (h.vmEnd hx).2.2
  have hsize : roundUp (sub64 0 addr) = sub64 0 addr := by
    simp only [pageAligned, roundUp, roundDown, add64, sub64, PAGE_SIZE] at *
    omega
  have hend : add64 addr (sub64 0 addr) = 0 := by
    simp only [add64, sub64]
    omega
  simp only [addVma, hsize]
  refine .ite (fun hne => ?_) fun heq => ?_
  · cases he : s.addExecutableVma fuel true "user" addr (sub64 0 addr) prot none 0 with
    | none => exact .error id
    | some v =>
      obtain ⟨r, s1⟩ := v
      obtain ⟨p, rfl, hbase⟩ := addExecutableVma_wrapped h (.inr hend) he
      refine .ok ⟨addExecutableVma_vmEnd_le h.agrees hL (by omega) he, fun q hq hgt => ?_⟩
      cases hq
      exact hbase hgt (by omega)
  · obtain rfl : addr = 0 := by simpa using heq
    exact (scanDown_empty h.agrees hL).mono fun r hr => ⟨hr, fun p _ hgt => absurd hgt (Nat.not_lt_zero _)⟩

/-! ## Emptying a range -/

/-- All areas that have changed are parts of areas that were split. -/
def OnlyCut (s s' : VmSpace) : Prop :=
  ∀ x ∈ s'.taskMmap, (x ∈ s.taskMmap ∧ s'.vma x = s.vma x) ∨ (s'.vma x).vmLen ≠ 0

theorem OnlyCut.refl (s : VmSpace) : OnlyCut s s := fun _ hx => .inl ⟨hx, rfl⟩

theorem OnlyCut.trans (h : OnlyCut s s1) (h' : OnlyCut s1 s') : OnlyCut s s' := by
  intro x hx
  rcases h' x hx with ⟨hx1, hv⟩ | hlen
  · rw [hv]
    exact h x hx1
  · exact .inr hlen

/-- The areas outside the range are as they were, and what else there is are parts of areas that were split. -/
structure Outside (s s' : VmSpace) (base last : Nat) : Prop where
  keep : ∀ x ∈ s.taskMmap, (s.vma x).vmEnd ≤ base ∨ last ≤ (s.vma x).vmBase → x ∈ s'.taskMmap ∧ s'.vma x = s.vma x
  onlyCut : OnlyCut s s'

theorem Outside.refl (s : VmSpace) (base last : Nat) : Outside s s base last := ⟨fun _ hx _ => ⟨hx, rfl⟩, .refl s⟩

variable {base last : Nat}

theorem Outside.joinsBefore_iff (h : Outside s s' base last) : s'.JoinsBefore prot base ↔ s.JoinsBefore prot base := by
  constructor
  · rintro ⟨q, hq, hqe, hqm⟩
    rcases h.onlyCut q hq with ⟨hq', hv⟩ | hlen
    · rw [hv] at hqe hqm
      exact ⟨q, hq', hqe, hqm⟩
    · exact absurd hqm.2.2.2 hlen
  · rintro ⟨q, hq, hqe, hqm⟩
    obtain ⟨hq', hv⟩ := h.keep q hq (.inl (le_of_eq hqe))
    exact ⟨q, hq', by rwa [hv], by rwa [hv]⟩

theorem Outside.joinsBehind_iff {a : Nat} (h : Outside s s' base last) :
    s'.JoinsBehind prot last a ↔ s.JoinsBehind prot last a := by
  constructor
  · rintro ⟨q, hq, hqb, hqm, ha⟩
    rcases h.onlyCut q hq with ⟨hq', hv⟩ | hlen
    · rw [hv] at hqb hqm ha
      exact ⟨q, hq', hqb, hqm, ha⟩
    · exact absurd hqm.2.2.2 hlen
  · rintro ⟨q, hq, hqb, hqm, ha⟩
    obtain ⟨hq', hv⟩ := h.keep q hq (.inr (le_of_eq hqb.symm))
    exact ⟨q, hq', by rwa [hv], by rwa [hv], by rwa [hv]⟩

end VmSpace

section Remove

open VmSpace

variable {fuel base size : Nat} {t : TaskMem}

/-- Nothing is removed where there is no area. -/
theorem removeVmaRange_free (h : Agrees t.vm) (hlt : base < add64 base size) (hfree : t.vm.Free base (add64 base size)) :
    removeVmaRange fuel t base size = .ok (false, t) := by
  unfold removeVmaRange walkVmaRange
  split
  · rfl
  · rename_i p hp
    obtain ⟨hpm, hpe, -⟩ := findVma_some h hp
    have hproper := h.proper p hpm
    rw [if_pos]
    by_contra hge
    exact hfree (max base (t.vm.vma p).vmBase) _ (by omega) (by omega) ⟨p, hpm, by omega, by omega, rfl⟩

theorem removeVmaRange_zero (hzero : add64 base size = 0) : removeVmaRange fuel t base size = .ok (false, t) := by
  unfold removeVmaRange walkVmaRange
  split
  · rfl
  · rw [hzero, if_pos (Nat.zero_le _)]

/-- Outside the range nothing changes. -/
theorem removeVmaRange_outside (h : Agrees t.vm) :
    Yields (removeVmaRange fuel t base size) fun r => Outside t.vm r.2.vm base (add64 base size) := by
  refine walkVmaRange_rule (I := fun s next => Agrees s.vm ∧ (∀ p, next = some p → p ∈ s.vm.taskMmap ∧ base < (s.vm.vma p).vmEnd) ∧
    Outside t.vm s.vm base (add64 base size)) id (.refl _ _ _) (fun p hp _ => ⟨h, fun q hq => ?_, .refl _ _ _⟩) (fun s p hi hpb => ?_)
    fun s next hi _ => hi.2.2
  · cases hq
    obtain ⟨hpm, hpe, -⟩ := findVma_some h hp
    exact ⟨hpm, hpe⟩
  · obtain ⟨hag, hnext, hout⟩ := hi
    obtain ⟨hpm, hpe⟩ := hnext p rfl
    refine (doRemoveVma_spec id hag hpm (Ends.trivial _)).mono fun r ⟨hok, _, _, hr⟩ => ?_
    rw [if_pos hok]
    refine ⟨hr.agrees, fun q hq => ?_, fun x hx hxo => ?_, hout.onlyCut.trans fun x hx => (hr.pieces x hx).imp_right Piece.len⟩
    · obtain ⟨hqm, hqb, -⟩ := hag.listNext_first hpm hq
      have hproper := hag.proper q hqm
      obtain ⟨hqm', hv⟩ := hr.other q hqm (by rintro rfl; omega)
      exact ⟨hqm', by rw [hv]; omega⟩
    · obtain ⟨hxm, hv⟩ := hout.keep x hx hxo
      rw [← hv] at hxo ⊢
      exact hr.other x hxm (by rintro rfl; omega)

end Remove

end OpenLsd
