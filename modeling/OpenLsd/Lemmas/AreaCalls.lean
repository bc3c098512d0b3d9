import OpenLsd.Lemmas.VmSpace
import OpenLsd.Lib.Outcome
import OpenLsd.Vma.Calls

/-!
# What the memory calls do to the areas

The callbacks of `walk_vma_range` change the areas and the page tables independently of each other. Here is what they do to
the areas, whatever the page tables are.
-/

namespace OpenLsd

open Outcome

namespace VmSpace

variable {s s' s1 : VmSpace} {p q : Nat} {fuel addr x : Nat}

/-! ## Finding areas -/

/-- The loop of `find_vma` finds the first area of its subtree that ends above the address. -/
theorem findLoop_spec {n : Nat} {par ptr found : Option Nat} {t : PtrTree.Shape Nat}
    (h : PtrTree.Repr s.taskRb.links par ptr t) (hs : t.toList.Pairwise fun a b => (s.vma a).vmEnd ≤ (s.vma b).vmBase)
    (hp : ∀ p ∈ t.toList, (s.vma p).vmBase < (s.vma p).vmEnd) (hn : t.toList.length ≤ n) :
    s.findLoop addr n ptr found = (t.toList.find? fun p => addr < (s.vma p).vmEnd).or found := by
  induction t generalizing par ptr n found with
  | leaf =>
    rw [show ptr = none from h]
    cases n <;> rfl
  | node l p r ihl ihr =>
    obtain ⟨rfl, _, hl, hr⟩ := h
    simp only [PtrTree.Shape.toList, List.length_append, List.length_cons, List.pairwise_append, List.pairwise_cons,
      List.mem_append, List.mem_cons] at hn hs hp ⊢
    obtain ⟨hsl, ⟨hpr, hsr⟩, hlr⟩ := hs
    have hpp := hp p (by simp)
    cases n with
    | zero => omega
    | succ n =>
      have hleft : (s.vma p).vmBase ≤ addr → l.toList.find? (fun p => addr < (s.vma p).vmEnd) = none := by
        intro hle
        rw [List.find?_eq_none]
        intro x hx
        have := hlr x hx p (.inl rfl)
        simp only [decide_eq_true_eq]
        omega
      rw [findLoop, List.find?_append, List.find?_cons]
      by_cases hge : addr ≥ (s.vma p).vmEnd
      · rw [if_pos hge, hleft (by omega), show decide (addr < (s.vma p).vmEnd) = false by simpa using hge]
        exact ihr hr hsr (fun x hx => hp x (.inr (.inr hx))) (by omega)
      · have hlt : decide (addr < (s.vma p).vmEnd) = true := by simpa using hge
        rw [if_neg hge, hlt]
        by_cases hbase : (s.vma p).vmBase ≤ addr
        · rw [if_pos hbase, hleft hbase]
          rfl
        · rw [if_neg hbase]
          refine (ihl hl hsl (fun x hx => hp x (.inl hx)) (by omega)).trans ?_
          cases l.toList.find? fun p => addr < (s.vma p).vmEnd <;> rfl

/-- The tree is a search tree by `vm_base` of areas that are not empty and do not overlap. The loop has a turn for every node. -/
structure Searchable (s : VmSpace) (t : PtrTree.Shape Nat) : Prop where
  repr : PtrTree.Repr s.taskRb.links none s.taskRb.root t
  ordered : t.toList.Pairwise fun a b => (s.vma a).vmBase < (s.vma b).vmBase
  apart : t.toList.Pairwise fun a b => Apart (s.vma a) (s.vma b)
  proper : ∀ p ∈ t.toList, (s.vma p).vmBase < (s.vma p).vmEnd
  turns : t.toList.length ≤ s.taskMmap.length

namespace Searchable

variable {t : PtrTree.Shape Nat} {addr : Nat}

/-- An area ends before the next one begins. -/
theorem sorted (h : Searchable s t) : t.toList.Pairwise fun a b => (s.vma a).vmEnd ≤ (s.vma b).vmBase := by
  refine (List.Pairwise.and_mem.1 (h.ordered.and h.apart)).imp fun {a b} ⟨ha, hb, hlt, hap⟩ => ?_
  have := h.proper b hb
  simp only [Apart] at hap
  omega

theorem findVma_eq (h : Searchable s t) (addr : Nat) : s.findVma addr = t.toList.find? fun p => addr < (s.vma p).vmEnd := by
  refine (findLoop_spec h.repr h.sorted h.proper h.turns).trans ?_
  cases t.toList.find? fun p => addr < (s.vma p).vmEnd <;> rfl

theorem findVma_none (h : Searchable s t) : s.findVma addr = none ↔ ∀ p ∈ t.toList, (s.vma p).vmEnd ≤ addr := by
  simp [h.findVma_eq]

/-- All that is to the left of the area that is found ends at the address or before, and what is to the right begins above it. -/
theorem findVma_some (h : Searchable s t) (hf : s.findVma addr = some p) : p ∈ t.toList ∧ addr < (s.vma p).vmEnd ∧
    ∀ q ∈ t.toList, q ≠ p → addr < (s.vma q).vmEnd → (s.vma p).vmEnd ≤ (s.vma q).vmBase := by
  rw [h.findVma_eq, List.find?_eq_some_iff_append] at hf
  obtain ⟨hend, a, b, hl, ha⟩ := hf
  have hsort := h.sorted
  rw [hl, List.pairwise_append, List.pairwise_cons] at hsort
  refine ⟨by simp [hl], by simpa using hend, fun q hq hqp hlt => ?_⟩
  rw [hl, List.mem_append, List.mem_cons] at hq
  rcases hq with hq | rfl | hq
  · have := ha q hq
    simp only [Bool.not_eq_true', decide_eq_false_iff_not] at this
    omega
  · exact absurd rfl hqp
  · exact hsort.2.1.1 q hq

theorem taskFindVma_eq_some (h : Searchable s t) : s.taskFindVma addr = some p ↔
    p ∈ t.toList ∧ (s.vma p).vmBase ≤ addr ∧ addr < (s.vma p).vmEnd := by
  unfold taskFindVma
  cases hf : s.findVma addr with
  | none =>
    refine iff_of_false (by simp) fun hp => ?_
    have := h.findVma_none.1 hf p hp.1
    omega
  | some q =>
    obtain ⟨hq, hend, hleast⟩ := h.findVma_some hf
    simp only [Option.ite_none_left_eq_some, Option.some.injEq, not_lt]
    constructor
    · rintro ⟨hb, rfl⟩
      exact ⟨hq, hb, hend⟩
    · rintro ⟨hp, hb, hlt⟩
      -- another area that has the address would end above it, and so begin above the area that was found
      have hpq : q = p := by
        by_contra hne
        have := hleast p hp (Ne.symm hne) hlt
        omega
      subst hpq
      exact ⟨hb, rfl⟩

end Searchable

theorem Agrees.searchable (h : Agrees s) : ∃ t, Searchable s t ∧ t.toList = s.taskMmap := by
  obtain ⟨-, t, ht, hl⟩ := h.tree.tree
  have hsort := h.sorted
  refine ⟨t, ⟨ht, ?_, ?_, hl ▸ h.proper, le_of_eq (congrArg List.length hl)⟩, hl⟩
  · rw [hl]
    exact hsort.imp_of_mem fun ha _ hab => lt_of_lt_of_le (h.proper _ ha) hab
  · rw [hl]
    exact hsort.imp fun hab => .inl hab

theorem findVma_eq (h : Agrees s) (addr : Nat) : s.findVma addr = s.taskMmap.find? fun p => addr < (s.vma p).vmEnd := by
  obtain ⟨t, ht, hl⟩ := h.searchable
  rw [ht.findVma_eq, hl]

theorem findVma_split {addr : Nat} (h : Agrees s) (hf : s.findVma addr = some p) : ∃ a b, s.taskMmap = a ++ p :: b ∧
    (∀ x ∈ a, (s.vma x).vmEnd ≤ addr) ∧ ∀ x ∈ p :: b, addr < (s.vma x).vmEnd := by
  rw [findVma_eq h, List.find?_eq_some_iff_append] at hf
  obtain ⟨hend, a, b, hl, ha⟩ := hf
  obtain ⟨_, hafter, hproper, _⟩ := h.around hl
  simp only [decide_eq_true_eq, Bool.not_eq_true', decide_eq_false_iff_not, not_lt] at hend ha
  refine ⟨a, b, hl, ha, fun x hx => ?_⟩
  rcases List.mem_cons.1 hx with rfl | hx'
  · exact hend
  · have := hafter x hx'
    have := hproper x hx
    omega

/-- The area that `find_vma` finds, and what is not found below it. -/
theorem findVma_some (h : Agrees s) (hf : s.findVma addr = some p) :
    p ∈ s.taskMmap ∧ addr < (s.vma p).vmEnd ∧ ∀ va k, addr ≤ va → va < (s.vma p).vmBase → ¬At s va k := by
  obtain ⟨t, ht, hl⟩ := h.searchable
  obtain ⟨hp, hend, hnext⟩ := ht.findVma_some hf
  have := ht.proper p hp
  rw [hl] at hp hnext
  refine ⟨hp, hend, ?_⟩
  rintro va k hva hlt ⟨x, hx, hb, he, _⟩
  have := hnext x hx (fun hxp => by rw [hxp] at hb; omega) (by omega)
  omega

theorem taskFindVma_some (h : Agrees s) (hf : s.taskFindVma addr = some p) :
    p ∈ s.taskMmap ∧ (s.vma p).vmBase ≤ addr ∧ addr < (s.vma p).vmEnd := by
  obtain ⟨t, ht, hl⟩ := h.searchable
  exact hl ▸ ht.taskFindVma_eq_some.1 hf

/-! ## Removing areas -/

theorem TakenOut.at_iff (ht : TakenOut s s' q) (h : Agrees s) (hq : q ∈ s.taskMmap) (va : Nat) (k : Kind) :
    At s' va k ↔ At s va k ∧ ¬((s.vma q).vmBase ≤ va ∧ va < (s.vma q).vmEnd) := by
  constructor
  · rintro ⟨x, hx, hb, hend, hk⟩
    obtain ⟨hxq, hx⟩ := (ht.mem x).1 hx
    rw [ht.vma x hxq] at hb hend hk
    refine ⟨⟨x, hx, hb, hend, hk⟩, fun hin => ?_⟩
    have := h.apart hx hq hxq
    simp only [Apart] at this
    omega
  · rintro ⟨⟨x, hx, hb, hend, hk⟩, hout⟩
    have hxq : x ≠ q := fun e => hout (e ▸ ⟨hb, hend⟩)
    refine ⟨x, (ht.mem x).2 ⟨hxq, hx⟩, ?_⟩
    rw [ht.vma x hxq]
    exact ⟨hb, hend, hk⟩

/-- The ends of a range. -/
abbrev EndOf (base last : Nat) (a : Nat) : Prop := a = base ∨ a = last

/-- What `do_remove_vma` does to the areas. -/
structure Removed (s s' : VmSpace) (p base last : Nat) : Prop where
  agrees : Agrees s'
  bound : ∀ a, IsBound s' a → IsBound s a ∨ EndOf base last a
  other : ∀ x ∈ s.taskMmap, x ≠ p → x ∈ s'.taskMmap ∧ s'.vma x = s.vma x
  pieces : ∀ x ∈ s'.taskMmap, (x ∈ s.taskMmap ∧ s'.vma x = s.vma x) ∨ Piece (EndOf base last) (s.vma p) (s'.vma x)
  at_iff : ∀ va k, At s' va k ↔
    At s va k ∧ ¬((cutOut (s.vma p) base last).vmBase ≤ va ∧ va < (cutOut (s.vma p) base last).vmEnd)
  next : s.next ≤ s'.next

theorem IsPart.ne {base last : Nat} (hq : IsPart s p base last s1 q) (hx : x ∈ s.taskMmap) (hxp : x ≠ p) : x ≠ q := by
  rcases hq.fresh with rfl | hfresh
  · exact hxp
  · exact ne_of_mem_of_not_mem hx hfresh

theorem IsPart.remove {base last : Nat} (h : Split s s1 p (EndOf base last)) (hq : IsPart s p base last s1 q)
    (ht : TakenOut s1 s' q) : Removed s s' p base last := by
  refine ⟨ht.agrees, fun a ⟨x, hx, hb⟩ => ?_, fun x hx hxp => ?_, fun x hx => ?_, fun va k => ?_, ?_⟩
  · obtain ⟨hxq, hx⟩ := (ht.mem x).1 hx
    rw [ht.vma x hxq] at hb
    exact h.rearranged.bound a ⟨x, hx, hb⟩
  · have hxq := hq.ne hx hxp
    exact ⟨(ht.mem x).2 ⟨hxq, h.keep x hx⟩, by rw [ht.vma x hxq, h.other x hx hxp]⟩
  · obtain ⟨hxq, hx⟩ := (ht.mem x).1 hx
    rw [ht.vma x hxq]
    exact h.pieces x hx
  · rw [ht.at_iff h.rearranged.agrees hq.mem, h.rearranged.at_iff, hq.vma]
  · rw [ht.next]
    exact h.rearranged.next

/-! ## Changing the flags of areas -/

/-- An address is in one area only. -/
theorem At.unique {va : Nat} {k : Kind} (h : Agrees s) (hat : At s va k) (hq : q ∈ s.taskMmap) (hb : (s.vma q).vmBase ≤ va)
    (he : va < (s.vma q).vmEnd) : k = kind (s.vma q) := by
  obtain ⟨x, hx, hxb, hxe, rfl⟩ := hat
  by_cases hxq : x = q
  · rw [hxq]
  · have := h.apart hx hq hxq
    simp only [Apart] at this
    omega

/-- The areas with other flags for `q`. -/
def withFlags (s : VmSpace) (q flags : Nat) : VmSpace := s.setVma q { s.vma q with vmFlags := flags }

theorem withFlags_self (flags : Nat) : (s.withFlags q flags).vma q = { s.vma q with vmFlags := flags } := if_pos rfl

theorem withFlags_other (flags : Nat) (hx : x ≠ q) : (s.withFlags q flags).vma x = s.vma x := if_neg hx

theorem withFlags_vma (x flags : Nat) :
    (s.withFlags q flags).vma x = { s.vma x with vmFlags := if x = q then flags else (s.vma x).vmFlags } := by
  by_cases hx : x = q
  · rw [hx, withFlags_self, if_pos rfl]
  · rw [withFlags_other flags hx, if_neg hx]

theorem Agrees.withFlags (h : Agrees s) (q flags : Nat) : Agrees (s.withFlags q flags) :=
  h.congr rfl rfl le_rfl fun x _ => by simp only [withFlags_vma, and_self]

/-- What `do_protect_vma` does to the areas when it changes the flags. -/
structure Protected (s s' : VmSpace) (p base last flags : Nat) : Prop where
  agrees : Agrees s'
  bound : ∀ a, IsBound s' a → IsBound s a ∨ EndOf base last a
  areas : ∀ x ∈ s.taskMmap, x ≠ p → Stays s s' x ∨ (Freed s' x ∧ (s.vma x).vmFlags = flags)
  at_iff : ∀ va k, At s' va k ↔
    if (cutOut (s.vma p) base last).vmBase ≤ va ∧ va < (cutOut (s.vma p) base last).vmEnd then
      ∃ k', At s va k' ∧ k = { k' with flags := flags }
    else At s va k

/-- The part in the range gets its flags. -/
theorem IsPart.protect {base last flags r : Nat} (h : Split s s1 p (EndOf base last)) (hq : IsPart s p base last s1 q)
    (he : (s1.withFlags q flags).mergeVmas fuel q = some (r, s')) : Protected s s' p base last flags := by
  have hag := h.rearranged.agrees
  have hag2 := hag.withFlags q flags
  have hqm : q ∈ (s1.withFlags q flags).taskMmap := hq.mem
  obtain ⟨hm, _⟩ := mergeVmas_spec hag2 hqm he
  refine ⟨hm.rearranged.agrees, fun a ha => ?_, fun x hx hxp => ?_, fun va k => ?_⟩
  · obtain ⟨x, hx, hb⟩ := (hm.rearranged.bound a ha).resolve_right id
    rw [withFlags_vma] at hb
    exact h.rearranged.bound a ⟨x, hx, hb⟩
  · have hx2 : (s1.withFlags q flags).vma x = s.vma x := by rw [withFlags_other flags (hq.ne hx hxp), h.other x hx hxp]
    rcases hm.areas x (h.keep x hx) with ⟨hx', hb, hk⟩ | ⟨hf, hk⟩
    · exact .inl ⟨hx', hx2 ▸ hb, hx2 ▸ hk⟩
    · rw [hx2, withFlags_self] at hk
      exact .inr ⟨hf, congrArg Kind.flags hk⟩
  · rw [hm.rearranged.at_iff, ← hq.vma]
    split
    · rename_i hin
      constructor
      · intro hat
        have := At.unique hag2 hat hqm (by rw [withFlags_self]; exact hin.1) (by rw [withFlags_self]; exact hin.2)
        refine ⟨VmSpace.kind (s1.vma q), (h.rearranged.at_iff va _).1 ⟨q, hq.mem, hin.1, hin.2, rfl⟩, ?_⟩
        rw [this, withFlags_self]
        rfl
      · rintro ⟨k', hk', rfl⟩
        have := At.unique hag ((h.rearranged.at_iff va k').2 hk') hq.mem hin.1 hin.2
        refine ⟨q, hqm, ?_⟩
        rw [withFlags_self, this]
        exact ⟨hin.1, hin.2, rfl⟩
    · rename_i hout
      rw [← h.rearranged.at_iff]
      refine exists_congr fun x => and_congr_right fun _ => ?_
      by_cases hx : x = q
      · rw [hx, withFlags_self]
        exact iff_of_false (fun hx => hout ⟨hx.1, hx.2.1⟩) fun hx => hout ⟨hx.1, hx.2.1⟩
      · rw [withFlags_other flags hx]

theorem listNext_none {l : List Nat} (h : p ∉ l) : listNext p l = none := by
  cases hn : listNext p l with
  | none => rfl
  | some q =>
    obtain ⟨a, b, rfl⟩ := listNext_some hn
    exact absurd (by simp) h

end VmSpace

/-! ## Walking over areas -/

open VmSpace

variable {bad : Stop → Prop} {fuel base size last p flags a b : Nat} {s : TaskMem} {post : Phys × Pml4 → Prop}
  {I : TaskMem → Option Nat → Prop}

/-- The rule for the loop of `walk_vma_range`: an invariant of the state and of the area that comes next. -/
theorem walkAreas_rule {getVma : TaskMem → Nat → Kernel (Bool × TaskMem)}
    {post : Bool × TaskMem → Prop} (hbad : ¬bad .loop)
    (hstep : ∀ s p, I s (some p) → (s.vm.vma p).vmBase < last →
      Ends bad (getVma s p) fun r => if r.1 = true then I r.2 (listNext p s.vm.taskMmap) else post r)
    (hdone : ∀ s next, I s next → (∀ p, next = some p → last ≤ (s.vm.vma p).vmBase) → post (true, s))
    (n : Nat) (next : Option Nat) (s : TaskMem) (h : I s next) : Ends bad (walkAreas getVma last n next s) post := by
  induction n generalizing next s with
  | zero => exact .error hbad
  | succ n ih =>
    cases next with
    | none => exact .ok (hdone s none h fun p hp => by cases hp)
    | some p =>
      refine .ite (fun hlt => ?_) fun hge => ?_
      · refine (hstep s p h hlt).bind fun ⟨ok, s'⟩ hr => ?_
        cases ok with
        | true => exact ih _ s' hr
        | false => exact .ok hr
      · refine .ok (hdone s _ h fun q hq => ?_)
        cases hq
        omega

theorem walkVmaRange_rule {getVma : Nat → Nat → TaskMem → Nat → Kernel (Bool × TaskMem)}
    {post : Bool × TaskMem → Prop} (hbad : ¬bad .loop) (hnone : post (false, s))
    (hfirst : ∀ p, s.vm.findVma base = some p → (s.vm.vma p).vmBase < add64 base size → I s (some p))
    (hstep : ∀ s p, I s (some p) → (s.vm.vma p).vmBase < add64 base size →
      Ends bad (getVma base size s p) fun r => if r.1 = true then I r.2 (listNext p s.vm.taskMmap) else post r)
    (hdone : ∀ s next, I s next → (∀ p, next = some p → add64 base size ≤ (s.vm.vma p).vmBase) → post (true, s)) :
    Ends bad (walkVmaRange getVma s base size) post := by
  unfold walkVmaRange
  split
  · exact .ok hnone
  · rename_i p hp
    refine .ite (fun _ => .ok hnone) fun hlt => ?_
    exact walkAreas_rule hbad hstep hdone _ _ _ (hfirst p hp (by omega))

/-- What `split_vmas` makes of the area for the callbacks. -/
theorem splitVmas_part (base size : Nat) (h : Agrees s.vm) (hp : p ∈ s.vm.taskMmap) :
    ∃ q vm, s.vm.splitVmas (true, true) p base size = some (some q, vm) ∧ Split s.vm vm p (EndOf base (add64 base size)) ∧
      IsPart s.vm p base (add64 base size) vm q := by
  obtain ⟨r, vm, he, hs, hsome, hq⟩ := splitVmas_spec base size (true, true) h hp
  obtain ⟨q, rfl⟩ := Option.isSome_iff_exists.1 (hsome rfl)
  exact ⟨q, vm, he, hs, hq q rfl⟩

theorem doRemoveVma_spec (hbad : ¬bad .rbTree) (h : Agrees s.vm) (hp : p ∈ s.vm.taskMmap)
    (hu : Ends bad (unmapPageRange s.taskPml4 s.phys s.pml4 base size) post) :
    Ends bad (doRemoveVma fuel base size s p) fun r =>
      r.1 = true ∧ r.2.root = s.root ∧ post (r.2.phys, r.2.pml4) ∧ Removed s.vm r.2.vm p base (add64 base size) := by
  obtain ⟨q, vm, he, hs, hq⟩ := splitVmas_part base size h hp
  unfold doRemoveVma
  rw [he]
  refine hu.bind fun ⟨m, t⟩ hpost => ?_
  cases hr : vm.removeVma fuel q with
  | none => exact .error hbad
  | some vm' => exact .ok ⟨rfl, rfl, hpost, hq.remove hs (removeVma_takenOut hs.rearranged.agrees hq.mem hr)⟩

theorem doUnmapVma_spec (h : Agrees s.vm) (hp : p ∈ s.vm.taskMmap)
    (hu : Ends bad (forRange (fun i => unmapClean s.taskPml4 (base + i * PAGE_SIZE)) (pageCount base (add64 base size)) 0
      (s.phys, s.pml4)) post) :
    Ends bad (doUnmapVma base size s p) fun r =>
      r.1 = true ∧ r.2.root = s.root ∧ post (r.2.phys, r.2.pml4) ∧ Split s.vm r.2.vm p (EndOf base (add64 base size)) := by
  obtain ⟨q, vm, he, hs, -⟩ := splitVmas_part base size h hp
  unfold doUnmapVma
  rw [he]
  exact hu.bind fun ⟨m, t⟩ hpost => .ok ⟨rfl, rfl, hpost, hs⟩

/-- The steps of `do_protect_vma` on the areas. -/
def VmSpace.ProtectSteps (fuel : Nat) (s s' : VmSpace) (p base last flags : Nat) : Prop :=
  ∃ q s1 r, Split s s1 p (EndOf base last) ∧ IsPart s p base last s1 q ∧
    (s1.withFlags q flags).mergeVmas fuel q = some (r, s')

theorem VmSpace.ProtectSteps.protected {s s' : VmSpace} (h : ProtectSteps fuel s s' p base last flags) :
    Protected s s' p base last flags := by
  obtain ⟨q, s1, r, hs, hq, hr⟩ := h
  exact hq.protect hs hr

/-- What `do_protect_vma` does, given what changing the protection of the range does. -/
theorem doProtectVma_steps (hbad : ¬bad .rbTree) (h : Agrees s.vm)
    (hp : p ∈ s.vm.taskMmap) (hu : Ends bad (protectRegion s.taskPml4 s.phys s.pml4 base size (protectFlags flags)) post) :
    Ends bad (doProtectVma fuel flags base size s p) fun r => r.1 = true ∧
      if flags = (s.vm.vma p).vmFlags then r.2 = s
      else r.2.root = s.root ∧ post (r.2.phys, r.2.pml4) ∧ ProtectSteps fuel s.vm r.2.vm p base (add64 base size) flags := by
  have hne := ne_of_lt (h.proper p hp)
  refine .ite (fun hsame => ?_) fun hdiff => ?_
  · exact .ok ⟨rfl, by rw [if_pos (hsame.resolve_right hne)]⟩
  · obtain ⟨q, vm, he, hs, hq⟩ := splitVmas_part base size h hp
    simp only [he, if_neg fun e => hdiff (.inl e)]
    refine hu.bind fun ⟨m, t⟩ hpost => ?_
    cases hr : (vm.withFlags q flags).mergeVmas fuel q with
    | none =>
      have hr : (vm.setVma q { vm.vma q with vmFlags := flags }).mergeVmas fuel q = none := hr
      rw [hr]
      exact .error hbad
    | some v =>
      have hr' : (vm.setVma q { vm.vma q with vmFlags := flags }).mergeVmas fuel q = some v := hr
      rw [hr']
      exact .ok ⟨rfl, rfl, hpost, q, vm, v.1, hs, hq, hr⟩

theorem doProtectVma_freed (h : Freed s.vm p) : doProtectVma fuel flags base size s p = .ok (true, s) := by
  unfold doProtectVma
  rw [if_pos (.inr (by rw [h.2]; rfl))]

/-! ## Places for areas -/

/-- No address from `a` to before `b` is in an area. -/
def VmSpace.Free (s : VmSpace) (a b : Nat) : Prop := ∀ va k, a ≤ va → va < b → ¬At s va k

theorem add64_of_le (h : a + b ≤ USER_LIM) : add64 a b = a + b := by
  simp only [USER_LIM] at h
  exact Nat.mod_eq_of_lt (by omega)

theorem sub64_of_le (h : b ≤ a) (ha : a < 2 ^ 64) : sub64 a b = a - b := by
  simp only [sub64]
  omega

theorem roundUp_of_aligned (h : pageAligned a) (ha : a < 2 ^ 64) : roundUp a = a := by
  simp only [pageAligned, roundUp, roundDown, add64, PAGE_SIZE] at *
  omega

theorem pageAligned_sub (ha : pageAligned a) (hb : pageAligned b) : pageAligned (a - b) := by
  simp only [pageAligned, PAGE_SIZE] at *
  omega

/-- A search downward from `start` finds a free place before it passes below zero, or comes to zero exactly. -/
def VmSpace.ScanFits (s : VmSpace) (start size : Nat) : Prop :=
  size ∣ start ∨ ∃ k, PAGE_SIZE + k * size ≤ start ∧ s.Free (start - k * size) (start - k * size + size)

/-- Where the search of `add_vma` begins. -/
def scanStart (addr size : Nat) : Nat := if addr = 0 then USER_LIM - size else addr

/-! ## Emptying a range -/

namespace VmSpace

variable {s s' s0 : VmSpace} {q : Nat} {next : Option Nat}

/-- There is nothing between an area and the next one, and nothing behind the last. -/
theorem not_at_between {va : Nat} {k : Kind} (h : Agrees s) (hp : p ∈ s.taskMmap) (hn : listNext p s.taskMmap = next)
    (hva : (s.vma p).vmEnd ≤ va) (hlt : ∀ q, next = some q → va < (s.vma q).vmBase) : ¬At s va k := by
  rintro ⟨x, hx, hb, he, _⟩
  obtain ⟨a, b, hl⟩ := List.append_of_mem hp
  obtain ⟨hbefore, _, hproper, hnext⟩ := h.around hl
  have hpp := hproper p (by simp)
  rw [hl, List.mem_append, List.mem_cons] at hx
  rcases hx with hx | rfl | hx
  · have := hbefore x hx
    omega
  · omega
  · cases b with
    | nil => cases hx
    | cons q b =>
      have hq := hlt q (hn.symm.trans hnext)
      have hqq := hproper q (by simp)
      rcases List.mem_cons.1 hx with rfl | hx
      · omega
      · have := (h.around (a := a ++ [p]) (by simpa using hl)).2.1 x hx
        omega

/-- The areas within a range are gone as far as the walk has come. -/
structure ClearedUpTo (s0 s : VmSpace) (base last : Nat) (next : Option Nat) : Prop where
  agrees : Agrees s
  mem : ∀ p, next = some p → p ∈ s.taskMmap ∧ base < (s.vma p).vmEnd
  bound : ∀ a, IsBound s a → IsBound s0 a ∨ a = base ∨ a = last
  at_iff : ∀ va k, At s va k ↔ At s0 va k ∧ ¬(base ≤ va ∧ va < last ∧ ∀ p, next = some p → va < (s.vma p).vmBase)

/-- An area is taken out of the range. -/
theorem ClearedUpTo.step (h : ClearedUpTo s0 s base last (some p)) (hlt : base < last) (hp : (s.vma p).vmBase < last)
    (hr : Removed s s' p base last) : ClearedUpTo s0 s' base last (listNext p s.taskMmap) := by
  obtain ⟨hpm, hpe⟩ := h.mem p rfl
  have hpp := h.agrees.proper p hpm
  have hlo : (cutOut (s.vma p) base last).vmBase = max base (s.vma p).vmBase := by
    rw [cutOut_vmBase]
    split <;> omega
  have hhi : (cutOut (s.vma p) base last).vmEnd = min last (s.vma p).vmEnd := by
    rw [cutOut_vmEnd]
    split <;> omega
  have hnext : ∀ q, listNext p s.taskMmap = some q →
      (q ∈ s'.taskMmap ∧ s'.vma q = s.vma q) ∧ (s.vma p).vmEnd ≤ (s.vma q).vmBase ∧ q ∈ s.taskMmap := by
    intro q hq
    obtain ⟨a, b, hl⟩ := listNext_some hq
    have hqm : q ∈ s.taskMmap := by simp [hl]
    have hqb := (h.agrees.around hl).2.1 q (by simp)
    refine ⟨hr.other q hqm ?_, hqb, hqm⟩
    rintro rfl
    omega
  refine ⟨hr.agrees, fun q hq => ?_, fun a ha => ?_, fun va k => ?_⟩
  · obtain ⟨⟨hq', hv⟩, hb, hqm⟩ := hnext q hq
    have := h.agrees.proper q hqm
    rw [hv]
    exact ⟨hq', by omega⟩
  · rcases hr.bound a ha with ha | ha
    · exact h.bound a ha
    · exact .inr ha
  · rw [hr.at_iff, h.at_iff, hlo, hhi]
    have hlow : (∀ p', some p = some p' → va < (s.vma p').vmBase) ↔ va < (s.vma p).vmBase :=
      ⟨fun hv => hv p rfl, fun hv p' e => by cases e; exact hv⟩
    rw [hlow]
    constructor
    · rintro ⟨⟨hat0, hout⟩, hpart⟩
      refine ⟨hat0, fun ⟨h1, h2, h3⟩ => ?_⟩
      have hats : At s va k := (h.at_iff va k).2 ⟨hat0, by rwa [hlow]⟩
      refine not_at_between h.agrees hpm rfl (by omega) (fun q hq => ?_) hats
      have := h3 q hq
      rwa [(hnext q hq).1.2] at this
    · rintro ⟨hat0, hout⟩
      refine ⟨⟨hat0, fun ⟨h1, h2, h3⟩ => hout ⟨h1, h2, fun q hq => ?_⟩⟩, fun ⟨h1, h2⟩ => hout ⟨by omega, by omega, fun q hq => ?_⟩⟩
      · obtain ⟨⟨_, hv⟩, hb, _⟩ := hnext q hq
        rw [hv]
        omega
      · obtain ⟨⟨_, hv⟩, hb, _⟩ := hnext q hq
        rw [hv]
        omega

/-- The areas within the range are gone. -/
structure Cleared (s s' : VmSpace) (base last : Nat) : Prop where
  agrees : Agrees s'
  bound : ∀ a, IsBound s' a → IsBound s a ∨ a = base ∨ a = last
  at_iff : ∀ va k, At s' va k ↔ At s va k ∧ ¬(base ≤ va ∧ va < last)

theorem ClearedUpTo.done (h : ClearedUpTo s0 s base last next) (hn : ∀ p, next = some p → last ≤ (s.vma p).vmBase) :
    Cleared s0 s base last := by
  refine ⟨h.agrees, h.bound, fun va k => ?_⟩
  rw [h.at_iff]
  refine and_congr_right fun _ => not_congr ⟨fun hv => ⟨hv.1, hv.2.1⟩, fun hv => ⟨hv.1, hv.2, fun p hp => ?_⟩⟩
  have := hn p hp
  omega

end VmSpace

/-- `remove_vma_range` on a range that is not empty. `K` holds before the range is unmapped, and `K'` from then on. -/
theorem removeVmaRange_spec {K K' : Phys × Pml4 → Prop} (hloop : ¬bad .loop) (htree : ¬bad .rbTree) (h : Agrees s.vm)
    (hlt : base < add64 base size) (hK : K (s.phys, s.pml4))
    (hu : ∀ m t, K (m, t) ∨ K' (m, t) → Ends bad (unmapPageRange s.taskPml4 m t base size) K') :
    Ends bad (removeVmaRange fuel s base size) fun r =>
      (r = (false, s) ∧ s.vm.Free base (add64 base size)) ∨
      (r.2.root = s.root ∧ K' (r.2.phys, r.2.pml4) ∧ Cleared s.vm r.2.vm base (add64 base size)) := by
  unfold removeVmaRange walkVmaRange
  split
  · rename_i hf
    refine .ok (.inl ⟨rfl, ?_⟩)
    rintro va k hva hvb ⟨x, hx, hb, he, _⟩
    rw [findVma_eq h, List.find?_eq_none] at hf
    have := hf x hx
    simp only [decide_eq_true_eq] at this
    omega
  · rename_i p hp
    obtain ⟨hpm, hpe, hbefore⟩ := findVma_some h hp
    refine .ite (fun hge => .ok (.inl ⟨rfl, fun va k hva hvb => hbefore va k hva (by omega)⟩)) fun hnge => ?_
    have hstart : ClearedUpTo s.vm s.vm base (add64 base size) (some p) := by
      refine ⟨h, fun q hq => ?_, fun a ha => .inl ha, fun va k => ⟨fun hat => ⟨hat, fun ⟨h1, _, h3⟩ => ?_⟩, And.left⟩⟩
      · cases hq
        exact ⟨hpm, hpe⟩
      · exact hbefore va k h1 (h3 p rfl) hat
    -- The first turn has an area to remove, so the range is unmapped at least once.
    have hturn : ∀ (s' : TaskMem) (q : Nat), s'.root = s.root → ClearedUpTo s.vm s'.vm base (add64 base size) (some q) →
        (K (s'.phys, s'.pml4) ∨ K' (s'.phys, s'.pml4)) → (s'.vm.vma q).vmBase < add64 base size →
        Ends bad (doRemoveVma fuel base size s' q) fun r => r.1 = true ∧ r.2.root = s.root ∧ K' (r.2.phys, r.2.pml4) ∧
          ClearedUpTo s.vm r.2.vm base (add64 base size) (listNext q s'.vm.taskMmap) := by
      intro s' q hroot hc hk hq
      have hpml4 : s'.taskPml4 = s.taskPml4 := congrArg (fun root => KADDR (root * PAGE_SIZE)) hroot
      have hu' := hu s'.phys s'.pml4 hk
      rw [← hpml4] at hu'
      refine (doRemoveVma_spec htree hc.agrees (hc.mem q rfl).1 hu').mono fun r hr => ?_
      exact ⟨hr.1, hr.2.1.trans hroot, hr.2.2.1, hc.step hlt hq hr.2.2.2⟩
    rw [walkAreas]
    refine .ite (fun hplt => ?_) fun hpge => absurd (Nat.lt_of_not_le hnge) hpge
    refine (hturn s p rfl hstart (.inl hK) hplt).bind fun ⟨ok, s1⟩ ⟨hok, hroot1, hk1, hc1⟩ => ?_
    subst hok
    refine walkAreas_rule (I := fun s' next => s'.root = s.root ∧ K' (s'.phys, s'.pml4) ∧
      ClearedUpTo s.vm s'.vm base (add64 base size) next) hloop (fun s' q hi hq => ?_)
      (fun s' next hi hn => .inr ⟨hi.1, hi.2.1, hi.2.2.done hn⟩) _ _ _ ⟨hroot1, hk1, hc1⟩
    refine (hturn s' q hi.1 hi.2.2 (.inr hi.2.1) hq).mono fun r hr => ?_
    rw [if_pos hr.1]
    exact hr.2

end OpenLsd
