import OpenLsd.Lemmas.AreaCalls

/-!
# What backs the addresses of a task

An address of an area is backed by the byte of the executable that the area has there, or by zero, and by the access that the
area allows. For splitting an area in two and for joining two areas it is said exactly what backs each address afterwards.
-/

namespace OpenLsd

/-- What backs an address of the area: the access that is allowed, and the byte that is there when the page is populated. -/
def Vma.backing (image : Nat → UInt8) (v : Vma) (a : Nat) : Nat × UInt8 :=
  (v.vmFlags,
    match v.vmSrc with
    | some src => if a - v.vmBase < v.vmLen then image (src + (a - v.vmBase)) else 0
    | none => 0)

theorem Vma.backing_zero {image : Nat → UInt8} {v : Vma} (h : v.vmSrc = none ∨ v.vmLen = 0) (a : Nat) :
    v.backing image a = (v.vmFlags, 0) := by
  unfold Vma.backing
  rcases h with h | h
  · rw [h]
  · rw [h]
    split <;> rfl

namespace VmSpace

/-- What backs an address of the task, `none` when it is in no area. -/
def backing (image : Nat → UInt8) (s : VmSpace) (a : Nat) : Option (Nat × UInt8) :=
  (s.taskMmap.find? fun p => (s.vma p).vmBase ≤ a ∧ a < (s.vma p).vmEnd).map fun p => (s.vma p).backing image a

variable {s s' : VmSpace} {image : Nat → UInt8} {p a : Nat}

theorem backing_of_mem (h : Agrees s) (hp : p ∈ s.taskMmap) (hb : (s.vma p).vmBase ≤ a) (he : a < (s.vma p).vmEnd) :
    s.backing image a = some ((s.vma p).backing image a) := by
  cases hf : s.taskMmap.find? fun p => decide ((s.vma p).vmBase ≤ a ∧ a < (s.vma p).vmEnd) with
  | none => exact absurd (decide_eq_true ⟨hb, he⟩) (List.find?_eq_none.1 hf p hp)
  | some q =>
    have hq : (s.vma q).vmBase ≤ a ∧ a < (s.vma q).vmEnd := by simpa using List.find?_some hf
    have heq : q = p := by
      by_contra hne
      have := h.apart (List.mem_of_find?_eq_some hf) hp hne
      simp only [Apart] at this
      omega
    rw [backing, hf, heq]
    rfl

theorem backing_none (hno : ∀ k, ¬At s a k) : s.backing image a = none := by
  cases hf : s.taskMmap.find? fun p => decide ((s.vma p).vmBase ≤ a ∧ a < (s.vma p).vmEnd) with
  | none =>
    rw [backing, hf]
    rfl
  | some q =>
    have hq : (s.vma q).vmBase ≤ a ∧ a < (s.vma q).vmEnd := by simpa using List.find?_some hf
    exact absurd ⟨q, List.mem_of_find?_eq_some hf, hq.1, hq.2, rfl⟩ (hno _)

/-- An address is backed as before if its area is as it was, or if it was in no area. -/
theorem backing_of_other (h : Agrees s) (h' : Agrees s') (hat : ∀ k, At s' a k ↔ At s a k)
    (hother : ∀ x ∈ s.taskMmap, (s.vma x).vmBase ≤ a → a < (s.vma x).vmEnd → x ∈ s'.taskMmap ∧ s'.vma x = s.vma x) :
    s'.backing image a = s.backing image a := by
  by_cases hex : ∃ k, At s a k
  · obtain ⟨_, x, hx, hb, he, -⟩ := hex
    obtain ⟨hx', hv⟩ := hother x hx hb he
    rw [backing_of_mem h hx hb he, backing_of_mem h' hx' (by rwa [hv]) (by rwa [hv]), hv]
  · have hno := not_exists.1 hex
    rw [backing_none hno, backing_none fun k hk => hno k ((hat k).1 hk)]

/-! ## An image that tells areas apart -/

/-- The image whose only byte that is not zero is the first one of the data. -/
def firstByte (src : Option Nat) (a : Nat) : UInt8 := if src = some a then 1 else 0

theorem firstByte_backing {v : Vma} (hsrc : v.vmSrc ≠ none) (hb : v.vmBase ≤ a) :
    (v.backing (firstByte v.vmSrc) a).2 = if a = v.vmBase ∧ 0 < v.vmLen then 1 else 0 := by
  obtain ⟨src, hs⟩ := Option.ne_none_iff_exists'.1 hsrc
  simp only [Vma.backing, hs, firstByte, Option.some.injEq]
  grind

/-- Where one area starts and another one with the same data goes on, they do not back the same byte. -/
theorem firstByte_backing_ne {v w : Vma} (hsrc : v.vmSrc ≠ none) (hw : w.vmSrc = v.vmSrc) (hb : v.vmBase < a) (hwb : w.vmBase = a)
    (hlen : 0 < w.vmLen) : w.backing (firstByte v.vmSrc) a ≠ v.backing (firstByte v.vmSrc) a := by
  intro heq
  have hstart := firstByte_backing (a := a) (hw ▸ hsrc) (le_of_eq hwb)
  have hgoes := firstByte_backing (a := a) hsrc (le_of_lt hb)
  rw [if_pos ⟨hwb.symm, hlen⟩, hw, heq] at hstart
  rw [if_neg (by omega), hstart] at hgoes
  cases hgoes

/-! ## Splitting -/

section Splitting

variable {lhs addr : Nat} {r : Option Nat}

section

variable (h : Agrees s) (hp : lhs ∈ s.taskMmap) (h1 : (s.vma lhs).vmBase < addr) (h2 : addr < (s.vma lhs).vmEnd) (he : s.splitVma true lhs addr = some (r, s'))

include h hp h1 h2 he

/-- After a split the part behind the address is backed from the start of the executable's data again. -/
theorem splitVma_backing (image : Nat → UInt8) (a : Nat) : s'.backing image a =
      if (s.vma lhs).vmBase ≤ a ∧ a < (s.vma lhs).vmEnd then
        some (if a < addr then { s.vma lhs with vmLen := addr - (s.vma lhs).vmBase : Vma }.backing image a
          else { s.vma lhs with vmBase := addr, vmLen := (s.vma lhs).vmEnd - addr : Vma }.backing image a)
      else s.backing image a := by
  obtain ⟨s1, he1, hsplit, hperm, hrhs, hlhs⟩ := splitVma_cut h hp h1 h2
  have hmem : s.next ∈ s1.taskMmap := hperm.mem_iff.2 (by simp)
  cases he1.symm.trans he
  have h' := hsplit.rearranged.agrees
  split
  case isTrue hin =>
    split
    case isTrue hlt =>
      rw [backing_of_mem h' (hsplit.keep _ hp) (by rw [hlhs]; exact hin.1) (by rw [hlhs]; exact hlt), hlhs]
      rfl
    case isFalse hge => rw [backing_of_mem h' hmem (by rw [hrhs]; exact not_lt.1 hge) (by rw [hrhs]; exact hin.2), hrhs]
  case isFalse hout =>
    refine backing_of_other h h' (hsplit.rearranged.at_iff a) fun x hx hb hend => ⟨hsplit.keep x hx, hsplit.other x hx ?_⟩
    rintro rfl
    exact hout ⟨hb, hend⟩

/-- A split keeps what backs every address if and only if the area has no data of the executable. -/
theorem splitVma_backing_iff : (∀ image a, s'.backing image a = s.backing image a) ↔ (s.vma lhs).vmSrc = none := by
  constructor
  · intro hall
    by_contra hsrc
    have hcut := hall (firstByte (s.vma lhs).vmSrc) addr
    rw [splitVma_backing h hp h1 h2 he, if_pos ⟨le_of_lt h1, h2⟩, if_neg (lt_irrefl _),
      backing_of_mem h hp (le_of_lt h1) h2, Option.some.injEq] at hcut
    exact absurd hcut (firstByte_backing_ne hsrc rfl h1 rfl (Nat.sub_pos_of_lt h2))
  · intro hsrc image a
    rw [splitVma_backing h hp h1 h2 he]
    split
    case isTrue hin =>
      rw [backing_of_mem h hp hin.1 hin.2, Vma.backing_zero (.inl hsrc)]
      split <;> simp only [Vma.backing, hsrc]
    case isFalse => rfl

end

end Splitting

/-! ## Joining -/

section Joining

variable {lhs rhs : Nat}

/-- What has become a part of the area before is backed by the data from that area's start on. -/
theorem Joined.backing (hj : Joined s s' lhs rhs) (h : Agrees s) (image : Nat → UInt8) (a : Nat) :
    s'.backing image a =
      if (s.vma rhs).vmBase ≤ a ∧ a < (s.vma rhs).vmEnd then some ((s.vma lhs).backing image a) else s.backing image a := by
  have hadj := hj.mergeable.2.2.2.2.1
  have h' := hj.agrees h
  have hlm := hj.left_mem h
  have hl := h.proper lhs hj.left
  have hr := h.proper rhs hj.right
  split
  case isTrue hin =>
    rw [backing_of_mem h' hlm (by rw [hj.vmaLhs]; simp only; omega) (by rw [hj.vmaLhs]; exact hin.2), hj.vmaLhs]
    rfl
  case isFalse hout =>
    by_cases hin : (s.vma lhs).vmBase ≤ a ∧ a < (s.vma lhs).vmEnd
    · rw [backing_of_mem h hj.left hin.1 hin.2,
        backing_of_mem h' hlm (by rw [hj.vmaLhs]; exact hin.1) (by rw [hj.vmaLhs]; simp only; omega), hj.vmaLhs]
      rfl
    · refine backing_of_other h h' (hj.at_iff h a) fun x hx hb hend => ?_
      have hxr : x ≠ rhs := fun e => hout (e ▸ ⟨hb, hend⟩)
      exact ⟨(hj.mem_iff h).2 ⟨hxr, hx⟩, hj.other x (fun e => hin (e ▸ ⟨hb, hend⟩)) hxr⟩

/-- Two areas that are joined have the same data and the same length of it. -/
theorem Joined.backing_zero (hj : Joined s s' lhs rhs) (h : Agrees s) (hz : (s.vma lhs).vmSrc = none ∨ (s.vma lhs).vmLen = 0)
    (image : Nat → UInt8) (a : Nat) : s'.backing image a = s.backing image a := by
  obtain ⟨_, _, _, _, -, hflags, _, hsrc, hlen⟩ := hj.mergeable
  rw [hj.backing h]
  split
  case isTrue hin =>
    rw [backing_of_mem h hj.right hin.1 hin.2, Vma.backing_zero hz, Vma.backing_zero (by rwa [← hsrc, ← hlen]), hflags]
  case isFalse => rfl

/-- The first byte of an area with data is lost when the area becomes part of the one before. -/
theorem Joined.backing_ne (hj : Joined s s' lhs rhs) (h : Agrees s) (hd : ¬((s.vma lhs).vmSrc = none ∨ (s.vma lhs).vmLen = 0)) :
    s'.backing (firstByte (s.vma lhs).vmSrc) (s.vma rhs).vmBase ≠ s.backing (firstByte (s.vma lhs).vmSrc) (s.vma rhs).vmBase := by
  obtain ⟨_, _, _, _, hadj, _, _, hsrc, hlen⟩ := hj.mergeable
  have hl := h.proper lhs hj.left
  have hr := h.proper rhs hj.right
  rw [not_or] at hd
  rw [hj.backing h, if_pos ⟨le_rfl, hr⟩, backing_of_mem h hj.right le_rfl hr]
  intro heq
  exact firstByte_backing_ne hd.1 hsrc.symm (by omega) rfl (by omega) (Option.some.inj heq).symm

end Joining

end VmSpace

end OpenLsd
