import OpenLsd.Lemmas.CallRules

/-!
# Areas in merged form

No two anonymous areas of a task that touch are alike. `merge_vma` wants the two areas to have the same `vm_len`, and
`split_vma` is what gives an anonymous area another length than zero. As long as no anonymous area is cut, merging around the
area that was touched last is therefore enough.
-/

namespace OpenLsd

open Outcome

namespace VmSpace

variable {s s' s1 : VmSpace} {p q r x fuel base last size flags : Nat} {skip : Nat → Nat → Prop}

/-- The one area ends where the other begins, they are alike, and neither has data behind it. -/
def Joinable (v w : Vma) : Prop :=
  v.vmSrc = none ∧ w.vmSrc = none ∧ v.vmEnd = w.vmBase ∧ v.vmName = w.vmName ∧ v.vmFlags = w.vmFlags

instance (v w : Vma) : Decidable (Joinable v w) := inferInstanceAs (Decidable (_ ∧ _ ∧ _ ∧ _ ∧ _))

/-- Merged form, but for the pairs in `skip`: an anonymous area has length zero, and no two can be joined. -/
structure TidyBut (s : VmSpace) (skip : Nat → Nat → Prop) : Prop where
  ok : AreasOk s
  plain : ∀ p ∈ s.taskMmap, (s.vma p).vmSrc = none → (s.vma p).vmLen = 0
  merged : ∀ p ∈ s.taskMmap, ∀ q ∈ s.taskMmap, ¬skip p q → ¬Joinable (s.vma p) (s.vma q)

/-- Merged form. -/
def Tidy (s : VmSpace) : Prop := TidyBut s fun _ _ => False

theorem tidy_empty : Tidy VmSpace.empty :=
  ⟨areasOk_empty, fun p hp => (by cases hp), fun p hp => (by cases hp)⟩

/-! ## Merging -/

/-- Areas that can be joined are merged when `merge_vma` comes to them. -/
theorem TidyBut.mergeable (h : TidyBut s skip) (hp : p ∈ s.taskMmap) (hq : q ∈ s.taskMmap)
    (hj : Joinable (s.vma p) (s.vma q)) : mergeable (s.vma p) (s.vma q) := by
  obtain ⟨hps, hqs, hadj, hname, hflags⟩ := hj
  refine ⟨(h.ok.vmBase hp).1, (h.ok.vmEnd hp).1, (h.ok.vmBase hq).1, (h.ok.vmEnd hq).1, hadj, hflags, hname, ?_, ?_⟩
  · rw [hps, hqs]
  · rw [h.plain p hp hps, h.plain q hq hqs]

/-- Merging leaves merged form where it was: an area that is not the one that grew can be joined with no more than before. -/
theorem Joined.tidyBut (hj : Joined s s' p q) (ht : TidyBut s skip)
    (hskip : ∀ a b, a ≠ p → a ≠ q → b ≠ q → ¬skip a b) : TidyBut s' fun a _ => a = p := by
  have h := ht.ok.agrees
  refine ⟨ht.ok.rearranged (hj.merged h rfl).rearranged fun _ => False.elim, fun x hx hsrc => ?_, fun a ha b hb hne hjoin => ?_⟩
  · obtain ⟨hxq, hx⟩ := (hj.mem_iff h).1 hx
    rw [hj.vma_eq hxq] at hsrc ⊢
    exact ht.plain x hx hsrc
  · obtain ⟨haq, ha⟩ := (hj.mem_iff h).1 ha
    obtain ⟨hbq, hb⟩ := (hj.mem_iff h).1 hb
    rw [hj.other a hne haq, hj.vma_eq hbq] at hjoin
    exact ht.merged a ha b hb (hskip a b hne haq hbq) hjoin

/-- Merging restores merged form. -/
theorem mergeVmas_tidy (h : TidyBut s fun a b => a = q ∨ b = q) (hq : q ∈ s.taskMmap)
    (he : s.mergeVmas fuel q = some (r, s')) : Tidy s' := by
  obtain ⟨s1, hag, -, hprev, hnext⟩ := mergeVmas_cases h.ok.agrees hq he
  -- the area is merged with what it can be joined with before it
  have h₁ : TidyBut s1 fun a _ => a = r := by
    rcases hprev with ⟨rfl, rfl, hno⟩ | hj
    · refine ⟨h.ok, h.plain, fun a ha b hb hne hjoin => ?_⟩
      by_cases hbq : b = r
      · subst hbq
        exact hno a ha (h.mergeable ha hb hjoin)
      · exact h.merged a ha b hb (not_or.2 ⟨hne, hbq⟩) hjoin
    · exact hj.tidyBut h fun a b _ haq hbq => not_or.2 ⟨haq, hbq⟩
  rcases hnext with ⟨rfl, hno⟩ | ⟨n, hj⟩
  · refine ⟨h₁.ok, h₁.plain, fun a ha b hb _ hjoin => ?_⟩
    by_cases har : a = r
    · subst har
      exact hno b hb (h₁.mergeable ha hb hjoin)
    · exact h₁.merged a ha b hb har hjoin
  · have ht := hj.tidyBut h₁ fun a _ hap _ _ => hap
    refine ⟨ht.ok, ht.plain, fun a ha b hb _ hjoin => ?_⟩
    by_cases har : a = r
    · -- the area that grew ends where the one behind it did, which could not be joined
      obtain ⟨hbn, hb⟩ := (hj.mem_iff hag).1 hb
      obtain ⟨-, -, -, -, -, hflags, hname, hsrc, -⟩ := hj.mergeable
      rw [har, hj.vmaLhs, hj.vma_eq hbn] at hjoin
      obtain ⟨h1, h2, h3, h4, h5⟩ := hjoin
      exact h₁.merged n hj.right b hb (hj.ne hag).symm
        ⟨hsrc.symm.trans h1, h2, h3, hname.symm.trans h4, hflags.symm.trans h5⟩
    · exact ht.merged a ha b hb har hjoin

/-! ## Areas that go away -/

/-- The anonymous areas of the one are among those of the other. -/
def Fewer (s s' : VmSpace) : Prop := ∀ x ∈ s'.taskMmap, (s'.vma x).vmSrc = none → x ∈ s.taskMmap ∧ s'.vma x = s.vma x

theorem Fewer.refl (s : VmSpace) : Fewer s s := fun _ hx _ => ⟨hx, rfl⟩

theorem Fewer.trans (h : Fewer s s1) (h' : Fewer s1 s') : Fewer s s' := by
  intro x hx hsrc
  obtain ⟨hx1, hv⟩ := h' x hx hsrc
  rw [hv] at hsrc ⊢
  exact h x hx1 hsrc

theorem Tidy.fewer (h : Tidy s) (hok : AreasOk s') (hf : Fewer s s') : Tidy s' := by
  refine ⟨hok, fun p hp hsrc => ?_, fun p hp q hq _ hj => ?_⟩
  · obtain ⟨hp', hv⟩ := hf p hp hsrc
    rw [hv] at hsrc ⊢
    exact TidyBut.plain h p hp' hsrc
  · obtain ⟨hp', hpv⟩ := hf p hp hj.1
    obtain ⟨hq', hqv⟩ := hf q hq hj.2.1
    rw [hpv, hqv] at hj
    exact TidyBut.merged h p hp' q hq' id hj

theorem TakenOut.fewer (h : TakenOut s s' p) : Fewer s s' := fun x hx _ => by
  obtain ⟨hne, hx⟩ := (h.mem x).1 hx
  exact ⟨hx, h.vma x hne⟩

/-! ## Ranges that cut no anonymous area -/

/-- Neither end of the range lies within the area. -/
def Uncut (base last : Nat) (v : Vma) : Prop :=
  ¬(v.vmBase < base ∧ base < v.vmEnd) ∧ ¬(v.vmBase < last ∧ last < v.vmEnd)

instance (v : Vma) : Decidable (Uncut base last v) := inferInstanceAs (Decidable (¬_ ∧ ¬_))

/-- An anonymous area is not cut by the range. -/
def AnonUncut (base last : Nat) (v : Vma) : Prop := v.vmSrc = none → Uncut base last v

/-- The pieces of an area that is not cut unless there is data behind it are not anonymous. -/
theorem fewer_of_pieces (hcut : AnonUncut base last (s.vma p))
    (h : ∀ x ∈ s'.taskMmap, (x ∈ s.taskMmap ∧ s'.vma x = s.vma x) ∨ Piece (EndOf base last) (s.vma p) (s'.vma x)) : Fewer s s' := by
  intro x hx hsrc
  refine (h x hx).resolve_right fun ⟨_, hcov, a, ha, hlt⟩ => ?_
  obtain ⟨h1, h2⟩ := hcut ((congrArg Kind.src hcov.2.2).trans hsrc)
  rcases ha with rfl | rfl
  · exact h1 hlt
  · exact h2 hlt

/-- The flags of one area are changed, which only the pairs with it can tell. -/
theorem Tidy.withFlags (h : Tidy s) (q flags : Nat) : TidyBut (s.withFlags q flags) fun a b => a = q ∨ b = q := by
  refine ⟨⟨h.ok.agrees.withFlags q flags, fun a ⟨x, hx, hb⟩ => ?_⟩, fun p hp hsrc => ?_, fun a ha b hb hne => ?_⟩
  · rw [withFlags_vma] at hb
    exact h.ok.bounds a ⟨x, hx, hb⟩
  · rw [withFlags_vma] at hsrc ⊢
    exact TidyBut.plain h p hp hsrc
  · rw [not_or] at hne
    rw [withFlags_other flags hne.1, withFlags_other flags hne.2]
    exact TidyBut.merged h a ha b hb id

/-! ## Areas with data behind them -/

/-- One of the areas is `v`. -/
def Has (s : VmSpace) (v : Vma) : Prop := ∃ x ∈ s.taskMmap, s.vma x = v

/-- The areas with data behind them are the same. -/
def SameBacked (s s' : VmSpace) : Prop := ∀ v, v.vmSrc ≠ none → (Has s' v ↔ Has s v)

theorem SameBacked.trans (h : SameBacked s s1) (h' : SameBacked s1 s') : SameBacked s s' :=
  fun v hv => (h' v hv).trans (h v hv)

theorem Joined.sameBacked (hj : Joined s s' p q) (h : Agrees s) (hp : (s.vma p).vmSrc = none) (hq : (s.vma q).vmSrc = none) :
    SameBacked s s' := by
  intro v hv
  constructor
  · rintro ⟨x, hx, rfl⟩
    obtain ⟨hxq, hxs⟩ := (hj.mem_iff h).1 hx
    have hxp : x ≠ p := by
      rintro rfl
      rw [hj.vmaLhs] at hv
      exact hv hp
    exact ⟨x, hxs, (hj.other x hxp hxq).symm⟩
  · rintro ⟨x, hx, rfl⟩
    have hxp : x ≠ p := fun e => hv (e ▸ hp)
    have hxq : x ≠ q := fun e => hv (e ▸ hq)
    exact ⟨x, (hj.mem_iff h).2 ⟨hxq, hx⟩, hj.other x hxp hxq⟩

/-- Merging around an anonymous area. -/
theorem mergeVmas_sameBacked (h : Agrees s) (hq : q ∈ s.taskMmap) (hsrc : (s.vma q).vmSrc = none)
    (he : s.mergeVmas fuel q = some (r, s')) : SameBacked s s' := by
  obtain ⟨s1, hag, -, hprev, hnext⟩ := mergeVmas_cases h hq he
  have h1 : SameBacked s s1 ∧ (s1.vma r).vmSrc = none := by
    rcases hprev with ⟨rfl, rfl, -⟩ | hj
    · exact ⟨fun _ _ => Iff.rfl, hsrc⟩
    · have hr : (s.vma r).vmSrc = none := hj.mergeable.2.2.2.2.2.2.2.1.trans hsrc
      refine ⟨hj.sameBacked h hr hsrc, ?_⟩
      rw [hj.vmaLhs]
      exact hr
  rcases hnext with ⟨rfl, -⟩ | ⟨n, hj⟩
  · exact h1.1
  · exact h1.1.trans (hj.sameBacked hag h1.2 (hj.mergeable.2.2.2.2.2.2.2.1.symm.trans h1.2))

theorem Split.sameBacked {cut : Nat → Prop} (h : Split s s' p cut) (hsrc : (s.vma p).vmSrc = none) : SameBacked s s' := by
  intro v hv
  constructor
  · rintro ⟨x, hx, rfl⟩
    obtain ⟨hx, e⟩ := (h.pieces x hx).resolve_right fun hw => hv ((congrArg Kind.src hw.covers.2.2).symm.trans hsrc)
    exact ⟨x, hx, e.symm⟩
  · rintro ⟨x, hx, rfl⟩
    exact ⟨x, h.keep x hx, h.other x hx fun e => hv (e ▸ hsrc)⟩

theorem withFlags_sameBacked (hsrc : (s.vma q).vmSrc = none) : SameBacked s (s.withFlags q flags) := by
  refine fun v hv => exists_congr fun x => and_congr_right fun _ => ?_
  by_cases hx : x = q
  · rw [hx, withFlags_self]
    refine iff_of_false ?_ ?_ <;> rintro rfl <;> exact hv hsrc
  · rw [withFlags_other flags hx]

/-- Changing the flags of an area that is not cut, unless there is data behind it. -/
theorem ProtectSteps.tidy (hs : ProtectSteps fuel s s' p base last flags) (h : Tidy s) (hbase : pageAligned base)
    (hlast : pageAligned last) (hcut : AnonUncut base last (s.vma p)) : Tidy s' := by
  obtain ⟨q, s1, r, hsplit, hq, hr⟩ := hs
  have hok := h.ok.rearranged hsplit.rearranged fun _ => EndOf.aligned hbase hlast
  exact mergeVmas_tidy ((h.fewer hok (fewer_of_pieces hcut hsplit.pieces)).withFlags q flags) hq.mem hr

theorem ProtectSteps.sameBacked (hs : ProtectSteps fuel s s' p base last flags) (hsrc : (s.vma p).vmSrc = none) :
    SameBacked s s' := by
  obtain ⟨q, s1, r, hsplit, hq, hr⟩ := hs
  have hqs : (s1.vma q).vmSrc = none := by
    rw [hq.vma]
    exact (congrArg Kind.src (kind_cutOut _ _ _)).trans hsrc
  refine ((hsplit.sameBacked hsrc).trans (withFlags_sameBacked hqs)).trans
    (mergeVmas_sameBacked (hsplit.rearranged.agrees.withFlags q flags) hq.mem ?_ hr)
  rw [withFlags_self]
  exact hqs

/-! ## Adding an area -/

theorem SameAreas.tidy (hs : SameAreas s s') (h : Tidy s) : Tidy s' :=
  h.fewer (hs.ok h.ok) fun x hx _ => by
    rw [hs.list] at hx
    exact ⟨hx, hs.vma x hx⟩

/-- Adding an area keeps merged form. -/
theorem addExecutableVma_tidy {name : String} {addr l : Nat} {src : Option Nat} {r : Option Nat} (h : Tidy s)
    (hb : UserBound addr) (hl : UserBound (add64 addr size)) (hlt : addr < add64 addr size) (hlen : src = none → l = 0)
    (he : s.addExecutableVma fuel true name addr size flags src l = some (r, s')) : Tidy s' := by
  have hag := h.ok.agrees
  rcases addExecutableVma_cases hag he with ⟨rfl, rfl, -⟩ | ⟨p, s1, rfl, hi, hm⟩
  · obtain ⟨hag', -, -, -, -, hold⟩ := newVma_agrees hag ⟨name, addr, add64 addr size, src, l, flags⟩
    exact SameAreas.tidy (s := s) ⟨hag', rfl, hold⟩ h
  have hold : ∀ x ∈ s1.taskMmap, x ≠ s.next → x ∈ s.taskMmap ∧ s1.vma x = s.vma x := by
    intro x hx hne
    have hx := (hi.mem_iff.1 hx).resolve_left hne
    exact ⟨hx, hi.old x hx⟩
  refine mergeVmas_tidy ⟨⟨hi.agrees hag hlt, fun a ha => ?_⟩, fun x hx hsrc => ?_, fun a ha b hb hskip => ?_⟩
    (hi.mem_iff.2 (.inl rfl)) hm
  · rcases (hi.area_iff fun v => a = v.vmBase ∨ a = v.vmEnd).1 ha with ha | rfl | rfl
    · exact h.ok.bounds a ha
    · exact hb
    · exact hl
  · by_cases hne : x = s.next
    · rw [hne, hi.new] at hsrc ⊢
      exact hlen hsrc
    · obtain ⟨hxs, hxv⟩ := hold x hx hne
      rw [hxv] at hsrc ⊢
      exact TidyBut.plain h x hxs hsrc
  · rw [not_or] at hskip
    obtain ⟨has, hav⟩ := hold a ha hskip.1
    obtain ⟨hbs, hbv⟩ := hold b hb hskip.2
    rw [hav, hbv]
    exact TidyBut.merged h a has b hbs id

theorem Tidy.addKeeps : AddKeeps fuel Tidy := by
  intro s s' name base last flags src l r h he hb hl hlt hlen
  have hadd : add64 base (sub64 last base) = last := add64_sub64 (lt_of_le_of_lt hl.2.2 (by decide))
  exact addExecutableVma_tidy h hb (by rwa [hadd]) (by rwa [hadd]) hlen he

theorem Tidy.areaRule : AreaRule fuel Tidy where
  same hs _ h := hs.tidy h
  add _ h hb hl hpos he := by
    have hadd := add64_of_le hl.2.2
    exact addExecutableVma_tidy h hb (by rwa [hadd]) (by omega) (fun _ => rfl) he
  takeOut hok h ht := h.fewer (hok.takenOut ht) ht.fewer

end VmSpace

open VmSpace

/-! ## The walks -/

section Walks

variable {fuel base size : Nat} {t : TaskMem}

/-- In merged form, with no other anonymous areas than before. -/
def TidyWithin (s0 s : VmSpace) : Prop := Tidy s ∧ Fewer s0 s

theorem TidyWithin.step {s0 s s' : VmSpace} {p last : Nat} (h : TidyWithin s0 s)
    (hcut : ∀ p ∈ s0.taskMmap, AnonUncut base last (s0.vma p)) (hok : AreasOk s') (hp : p ∈ s.taskMmap)
    (hpieces : ∀ x ∈ s'.taskMmap, (x ∈ s.taskMmap ∧ s'.vma x = s.vma x) ∨ Piece (EndOf base last) (s.vma p) (s'.vma x)) :
    TidyWithin s0 s' := by
  have hfewer : Fewer s s' := by
    refine fewer_of_pieces (fun hsrc => ?_) hpieces
    obtain ⟨hp0, hv⟩ := h.2 p hp hsrc
    rw [hv] at hsrc ⊢
    exact hcut p hp0 hsrc
  exact ⟨h.1.fewer hok hfewer, h.2.trans hfewer⟩

theorem removeVmaRange_tidy (h : Tidy t.vm) (hbase : pageAligned base) (hlast : pageAligned (add64 base size))
    (hcut : ∀ p ∈ t.vm.taskMmap, AnonUncut base (add64 base size) (t.vm.vma p)) :
    Yields (removeVmaRange fuel t base size) fun r => Tidy r.2.vm :=
  (removeVmaRange_keeps (T := TidyWithin t.vm) (K := fun _ => True) id id ⟨h.ok, ⟨h, .refl _⟩, rfl, trivial⟩ hbase hlast
    (fun _ _ _ _ hok hs hp hr => hs.step hcut hok hp hr.pieces) fun _ _ _ _ _ => Ends.trivial _).mono fun _ hr => hr.own.1

end Walks

/-! ## The calls -/

/-- No anonymous area has an end of the range of the call within it, if the call splits areas there. -/
def MemCall.Uncut (s : VmSpace) : MemCall → Prop
  | mmap addr len _ flags => hasFlag flags MAP_FIXED = true →
    ∀ p ∈ s.taskMmap, AnonUncut (roundDown addr) (roundUp (add64 addr len)) (s.vma p)
  | munmap addr len => ∀ p ∈ s.taskMmap, AnonUncut (roundDown addr) (roundDown (add64 addr len)) (s.vma p)
  | mprotect addr len _ => ∀ p ∈ s.taskMmap, AnonUncut (roundDown addr) (roundUp (add64 addr len)) (s.vma p)
  | madvise addr len advise => advise = MADV_DONTNEED →
    ∀ p ∈ s.taskMmap, AnonUncut (roundDown addr) (roundUp (add64 addr len)) (s.vma p)

instance (base last : Nat) (v : Vma) : Decidable (AnonUncut base last v) := inferInstanceAs (Decidable (_ → _))

instance (s : VmSpace) : (c : MemCall) → Decidable (c.Uncut s)
  | .mmap .. => inferInstanceAs (Decidable (_ → ∀ _ ∈ _, _))
  | .munmap .. => inferInstanceAs (Decidable (∀ _ ∈ _, _))
  | .mprotect .. => inferInstanceAs (Decidable (∀ _ ∈ _, _))
  | .madvise .. => inferInstanceAs (Decidable (_ → ∀ _ ∈ _, _))

section Calls

variable {fuel addr len prot flags : Nat} {t : TaskMem} {image : Nat → UInt8}

theorem sysMprotect_tidy (h : Tidy t.vm) (hcut : (MemCall.mprotect addr len prot).Uncut t.vm) :
    Yields (sysMprotect fuel t addr len prot) fun r => Tidy r.2.vm :=
  (sysMprotect_kept (K := fun _ => True) id id ⟨h.ok, h, rfl, trivial⟩ hcut (fun _ _ _ _ hs _ hq hsteps =>
    hsteps.tidy hs (pageAligned_roundDown _) (pageAligned_roundUp _) hq) fun _ _ _ _ => Ends.trivial _).mono fun _ hr => hr.own

theorem sysMadvise_tidy {advise : Nat} (h : Tidy t.vm) (hcut : (MemCall.madvise addr len advise).Uncut t.vm) :
    Yields (sysMadvise image t addr len advise) fun r => Tidy r.2.vm :=
  (sysMadvise_kept (T := TidyWithin t.vm) (K := fun _ => True) id id ⟨h.ok, ⟨h, .refl _⟩, rfl, trivial⟩
    (fun hadv _ _ _ _ hok hs hp hr => hs.step (hcut hadv) hok hp hr.pieces) (fun _ _ _ => Ends.trivial _)
    fun _ _ _ _ _ _ => Ends.trivial _).mono fun _ hr => hr.own.1

theorem sysMmap_tidy (h : Tidy t.vm) (hfit : (MemCall.mmap addr len prot flags).AreasFit t.vm)
    (hcut : (MemCall.mmap addr len prot flags).Uncut t.vm) :
    Yields (sysMmap fuel image t addr len prot flags) fun r => Tidy r.2.vm := by
  refine (sysMmap_kept (K := fun _ => True) id id ⟨h.ok, h, rfl, trivial⟩ Tidy.areaRule hfit (fun hfixed => ?_)
    (fun _ _ _ _ _ _ _ _ => Ends.trivial _) fun _ _ _ _ _ _ _ _ => Ends.trivial _).mono fun _ hr => hr.own
  have hend := range_end addr len
  refine removeVmaRange_tidy h (pageAligned_roundDown addr) ?_ ?_
  · rw [hend]
    exact pageAligned_roundUp _
  · rw [hend]
    exact hcut hfixed

theorem sysMunmap_tidy (h : Tidy t.vm) (hcut : (MemCall.munmap addr len).Uncut t.vm) :
    Yields (sysMunmap fuel t addr len) fun r => Tidy r.vm := by
  have hend := add64_sub64 (a := roundDown addr) (roundDown_add64_lt addr len)
  refine (removeVmaRange_tidy h (pageAligned_roundDown addr) ?_ ?_).bind fun r hr => .ok hr
  · rw [hend]
    exact pageAligned_roundDown _
  · rw [hend]
    exact hcut

end Calls

/-- A call that cuts no anonymous area keeps merged form. -/
theorem MemCall.run_tidy {fuel : Nat} {image : Nat → UInt8} {cur : Option Nat} {t : TaskMem} {c : MemCall} (h : Tidy t.vm)
    (hfit : c.AreasFit t.vm) (hcut : c.Uncut t.vm) : Yields (c.run fuel image cur t) fun r => Tidy r.vm := by
  cases c with
  | mmap addr len prot flags => exact (sysMmap_tidy (t := t.runs cur) h hfit hcut).bind fun r hr => .ok hr
  | munmap addr len => exact sysMunmap_tidy (t := t.runs cur) h hcut
  | mprotect addr len prot => exact (sysMprotect_tidy (t := t.runs cur) h hcut).bind fun r hr => .ok hr
  | madvise addr len advise => exact (sysMadvise_tidy (t := t.runs cur) h hcut).bind fun r hr => .ok hr

end OpenLsd
