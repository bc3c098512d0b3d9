import OpenLsd.Lemmas.AreaCalls

/-!
# What changing the protection does to the areas behind

`do_protect_vma` may merge the part that it has changed with the area behind it, and that area is the one that the walk goes on
with. Here is which areas are freed and which stay as they are, record by record.
-/

namespace OpenLsd

open Outcome

namespace VmSpace

variable {s s' : VmSpace} {p q n r x : Nat} {fuel : Nat}

/-! ## The order of areas -/

theorem Agrees.eq_of_base (h : Agrees s) (hp : p ∈ s.taskMmap) (hq : q ∈ s.taskMmap)
    (e : (s.vma p).vmBase = (s.vma q).vmBase) : p = q := by
  by_contra hne
  have := h.apart hp hq hne
  have := h.proper p hp
  have := h.proper q hq
  simp only [Apart] at *
  omega

theorem Agrees.listNext_first (h : Agrees s) (hp : p ∈ s.taskMmap) (hn : listNext p s.taskMmap = some n) :
    n ∈ s.taskMmap ∧ (s.vma p).vmEnd ≤ (s.vma n).vmBase ∧
      ∀ x ∈ s.taskMmap, (s.vma p).vmEnd ≤ (s.vma x).vmBase → (s.vma n).vmBase ≤ (s.vma x).vmBase := by
  obtain ⟨a, b, hl⟩ := listNext_some hn
  refine ⟨by simp [hl], (h.around hl).2.1 n (by simp), fun x hx hle => ?_⟩
  by_contra hlt
  refine not_at_between h hp hn hle (fun q hq => ?_) ⟨x, hx, le_rfl, h.proper x hx, rfl⟩
  cases hq
  omega

theorem Agrees.listNext_none (h : Agrees s) (hp : p ∈ s.taskMmap) (hn : listNext p s.taskMmap = none) (hx : x ∈ s.taskMmap) :
    (s.vma x).vmBase < (s.vma p).vmEnd := by
  by_contra hle
  exact not_at_between h hp hn (not_lt.1 hle) (fun q hq => by cases hq) ⟨x, hx, le_rfl, h.proper x hx, rfl⟩

/-! ## Merging and splitting, record by record -/

/-- An area that was joined with the one before it is merged with the one behind as it would have been by itself. -/
theorem mergeable_joined {u v w : Vma} (h : mergeable u v) : mergeable { u with vmEnd := v.vmEnd } w ↔ mergeable v w := by
  obtain ⟨h1, -, h3, h4, -, hflags, hname, hsrc, hlen⟩ := h
  simp only [mergeable, hflags, hname, hsrc, hlen, h1, h3]

/-- An area behind the one that is merged with its neighbours is freed if it is one that can be merged, and stays as it is
otherwise. -/
theorem mergeVmas_behind (h : Agrees s) (hq : q ∈ s.taskMmap) (he : s.mergeVmas fuel q = some (r, s')) (hx : x ∈ s.taskMmap)
    (hbehind : (s.vma q).vmEnd ≤ (s.vma x).vmBase) :
    (mergeable (s.vma q) (s.vma x) → Freed s' x) ∧
      (¬mergeable (s.vma q) (s.vma x) → x ∈ s'.taskMmap ∧ s'.vma x = s.vma x) := by
  have hqp := h.proper q hq
  have hxp := h.proper x hx
  have hxq : x ≠ q := by
    rintro rfl
    omega
  obtain ⟨s1, hag, -, hprev, hnext⟩ := mergeVmas_cases h hq he
  -- merging with the area before changes nothing behind
  obtain ⟨hx1, hv, hxr, hm⟩ : x ∈ s1.taskMmap ∧ s1.vma x = s.vma x ∧ x ≠ r ∧
      ∀ w, mergeable (s1.vma r) w ↔ mergeable (s.vma q) w := by
    rcases hprev with ⟨rfl, rfl, -⟩ | hj
    · exact ⟨hx, rfl, hxq, fun _ => Iff.rfl⟩
    · have hxr : x ≠ r := by
        rintro rfl
        have := hj.mergeable.2.2.2.2.1
        omega
      refine ⟨(hj.mem_iff h).2 ⟨hxq, hx⟩, hj.other x hxr hxq, hxr, fun w => ?_⟩
      rw [hj.vmaLhs]
      exact mergeable_joined hj.mergeable
  rw [← hm, ← hv]
  rcases hnext with ⟨rfl, hno⟩ | ⟨y, hj⟩
  · exact ⟨fun hmx => absurd hmx (hno x hx1), fun _ => ⟨hx1, rfl⟩⟩
  · constructor
    · intro hmx
      -- only one area is adjacent
      rw [hag.eq_of_base hx1 hj.right (hmx.2.2.2.2.1.symm.trans hj.mergeable.2.2.2.2.1)]
      exact ⟨fun hy => ((hj.mem_iff hag).1 hy).1 rfl, hj.vmaRhs⟩
    · intro hmx
      have hxy : x ≠ y := by
        rintro rfl
        exact hmx hj.mergeable
      exact ⟨(hj.mem_iff hag).2 ⟨hxy, hx1⟩, hj.other x hxr hxy⟩

theorem cutOut_vmEnd_le (v : Vma) (base last : Nat) : (cutOut v base last).vmEnd ≤ v.vmEnd := by
  rw [cutOut_vmEnd]
  split <;> omega

/-- The part of an area within the range, with the flags that it gets. -/
def protectedPart (v : Vma) (base last flags : Nat) : Vma := { cutOut v base last with vmFlags := flags }

/-- What `do_protect_vma` does to the areas behind the one that it changes. -/
def Behind (s s' : VmSpace) (p base last flags : Nat) : Prop :=
  ∀ x ∈ s.taskMmap, (s.vma p).vmEnd ≤ (s.vma x).vmBase →
    (mergeable (protectedPart (s.vma p) base last flags) (s.vma x) → Freed s' x) ∧
      (¬mergeable (protectedPart (s.vma p) base last flags) (s.vma x) → x ∈ s'.taskMmap ∧ s'.vma x = s.vma x)

theorem ProtectSteps.behind {base last flags : Nat} (h : Agrees s) (hs : ProtectSteps fuel s s' p base last flags) :
    Behind s s' p base last flags := by
  obtain ⟨q, s1, r, hsplit, hq, hr⟩ := hs
  intro x hx hbehind
  have hxp : x ≠ p := by
    rintro rfl
    have := h.proper x hx
    omega
  have hpart : (s1.withFlags q flags).vma q = protectedPart (s.vma p) base last flags := by rw [withFlags_self, hq.vma]; rfl
  have hxv : (s1.withFlags q flags).vma x = s.vma x := by rw [withFlags_other flags (hq.ne hx hxp), hsplit.other x hx hxp]
  have hend : (protectedPart (s.vma p) base last flags).vmEnd ≤ (s.vma x).vmBase := le_trans (cutOut_vmEnd_le _ _ _) hbehind
  have hb := mergeVmas_behind (hsplit.rearranged.agrees.withFlags q flags) hq.mem hr (hsplit.keep x hx) (by rw [hpart, hxv]; exact hend)
  rwa [hpart, hxv] at hb

/-- When the area that comes next was not merged away, the areas from it on are as they were. -/
theorem Behind.old {n : Nat} (h : Agrees s) (hprot : Protected s s' p base last flags)
    (hb : Behind s s' p base last flags) (hn : n ∈ s.taskMmap) (hnb : (s.vma p).vmEnd ≤ (s.vma n).vmBase)
    (hm : ¬mergeable (protectedPart (s.vma p) base last flags) (s.vma n)) (hx : x ∈ s'.taskMmap)
    (hle : (s.vma n).vmBase ≤ (s'.vma x).vmBase) : x ∈ s.taskMmap ∧ s'.vma x = s.vma x := by
  have hxp := hprot.agrees.proper x hx
  have hhi := cutOut_vmEnd_le (s.vma p) base last
  -- the area that the address was in lies behind, and was not merged
  have hx' := (hprot.at_iff (s'.vma x).vmBase _).1 ⟨x, hx, le_rfl, hxp, rfl⟩
  rw [if_neg (by omega)] at hx'
  obtain ⟨y, hy, hyb, hye, -⟩ := hx'
  have hyn : (s.vma n).vmBase ≤ (s.vma y).vmBase := by
    by_cases e : y = n
    · rw [e]
    · have := h.apart hy hn e
      have := h.proper n hn
      simp only [Apart] at *
      omega
  have hno : ¬mergeable (protectedPart (s.vma p) base last flags) (s.vma y) := by
    intro hmy
    have hadj : (protectedPart (s.vma p) base last flags).vmEnd = (s.vma y).vmBase := hmy.2.2.2.2.1
    have hcut : (protectedPart (s.vma p) base last flags).vmEnd ≤ (s.vma p).vmEnd := cutOut_vmEnd_le _ _ _
    have hyn : y = n := h.eq_of_base hy hn (by omega)
    exact hm (hyn ▸ hmy)
  obtain ⟨hyr, hyv⟩ := (hb y hy (by omega)).2 hno
  have hxy : x = y := by
    by_contra hne
    have := hprot.agrees.apart hx hyr hne
    simp only [Apart, hyv] at this
    omega
  rw [hxy]
  exact ⟨hy, hyv⟩

end VmSpace

end OpenLsd
