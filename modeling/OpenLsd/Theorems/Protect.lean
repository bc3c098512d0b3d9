import OpenLsd.Theorems.AreaBounds

/-!
# Which areas `mprotect` reaches

`walk_vma_range` reads the next area before it calls `do_protect_vma` for the present one. When the changed part is merged with
that next area, the next area is freed, and what is left of it has no successor: the walk ends there and reports success. So
the areas of the range behind a merge keep their flags.
-/

namespace OpenLsd

open Outcome VmSpace

variable {t t' : TaskMem} {fuel flags base size : Nat}

namespace VmSpace

variable {s0 s s' : VmSpace} {base last stop stop' flags p n x : Nat}

/-! ## The pairs that are merged -/

/-- The area `p` of the range gets new flags, and is merged with the area `n` behind it. -/
structure Merges (s : VmSpace) (base last flags p n : Nat) : Prop where
  mem : p ∈ s.taskMmap
  below : (s.vma p).vmBase < last
  above : base < (s.vma p).vmEnd
  changes : flags ≠ (s.vma p).vmFlags
  mem_next : n ∈ s.taskMmap
  behind : (s.vma p).vmEnd ≤ (s.vma n).vmBase
  mergeable : mergeable (protectedPart (s.vma p) base last flags) (s.vma n)

theorem Merges.adjacent (h : Merges s base last flags p n) : (s.vma n).vmBase = (s.vma p).vmEnd := by
  refine le_antisymm ?_ h.behind
  rw [← h.mergeable.2.2.2.2.1]
  exact cutOut_vmEnd_le _ _ _

theorem Merges.flags_eq (h : Merges s base last flags p n) : (s.vma n).vmFlags = flags := h.mergeable.2.2.2.2.2.1.symm

/-! ## What the walk has changed -/

/-- The addresses from `base` to before `stop` are in areas with the flags, and nothing else has changed. -/
structure Changed (s0 s : VmSpace) (base stop flags : Nat) : Prop where
  agrees : Agrees s
  at_iff : ∀ va k, At s va k ↔
    if base ≤ va ∧ va < stop then ∃ k', At s0 va k' ∧ k = { k' with flags := flags } else At s0 va k

/-- Areas that have the flags already may be passed over. -/
theorem Changed.extend (h : Changed s0 s base stop flags) (hle : stop ≤ stop')
    (hsame : ∀ va k, stop ≤ va → va < stop' → At s0 va k → k.flags = flags) : Changed s0 s base stop' flags := by
  refine ⟨h.agrees, fun va k => ?_⟩
  rw [h.at_iff]
  by_cases hold : base ≤ va ∧ va < stop
  · rw [if_pos hold, if_pos ⟨hold.1, by omega⟩]
  · rw [if_neg hold]
    split
    · rename_i hnew
      have hf : ∀ k, At s0 va k → k.flags = flags := fun k hat => hsame va k (by omega) hnew.2 hat
      constructor
      · intro hat
        refine ⟨k, hat, ?_⟩
        rw [← hf k hat]
      · rintro ⟨k', hat, rfl⟩
        rw [← hf k' hat]
        exact hat
    · exact Iff.rfl

theorem Changed.protect (h : Changed s0 s base (min (s.vma p).vmBase last) flags) (hlt : base < last)
    (hb : (s.vma p).vmBase < last) (he : base < (s.vma p).vmEnd) (hp : p ∈ s.taskMmap)
    (hr : Protected s s' p base last flags) : Changed s0 s' base (min (s.vma p).vmEnd last) flags := by
  refine ⟨hr.agrees, fun va k => ?_⟩
  have hpp := h.agrees.proper p hp
  have hlo : (cutOut (s.vma p) base last).vmBase = max base (s.vma p).vmBase := by
    rw [cutOut_vmBase]
    split <;> omega
  have hhi : (cutOut (s.vma p) base last).vmEnd = min last (s.vma p).vmEnd := by
    rw [cutOut_vmEnd]
    split <;> omega
  rw [hr.at_iff, hlo, hhi]
  by_cases hin : max base (s.vma p).vmBase ≤ va ∧ va < min last (s.vma p).vmEnd
  · rw [if_pos hin, if_pos (by omega)]
    refine exists_congr fun k' => and_congr_left fun _ => ?_
    rw [h.at_iff, if_neg (by omega)]
  · rw [if_neg hin, h.at_iff]
    by_cases hold : base ≤ va ∧ va < min (s.vma p).vmBase last
    · rw [if_pos hold, if_pos (by omega)]
    · rw [if_neg hold, if_neg (by omega)]

/-! ## The walk -/

/-- The walk is at `stop`: the areas from there on are as they were, and none before was merged with the one behind it. -/
structure Going (s0 s : VmSpace) (base last flags : Nat) (next : Option Nat) (stop : Nat) : Prop where
  changed : Changed s0 s base (min stop last) flags
  mem : ∀ p, next = some p → p ∈ s0.taskMmap ∧ base < (s0.vma p).vmEnd ∧ (s0.vma p).vmBase = stop
  atEnd : next = none → last ≤ stop
  same : ∀ x ∈ s0.taskMmap, stop ≤ (s0.vma x).vmBase → x ∈ s.taskMmap ∧ s.vma x = s0.vma x
  merges : ∀ p n, Merges s0 base last flags p n → stop ≤ (s0.vma p).vmBase

/-- The walk has lost its way: the area that comes next was merged with the one before it. -/
structure Stalled (s0 s : VmSpace) (base last flags n : Nat) : Prop where
  changed : Changed s0 s base (min (s0.vma n).vmEnd last) flags
  freed : Freed s n
  pair : ∃ p, Merges s0 base last flags p n ∧
    ∀ p' n', Merges s0 base last flags p' n' → (s0.vma p).vmBase ≤ (s0.vma p').vmBase

/-- An area that the walk has not reached yet is an old one. -/
theorem Going.old (h0 : Agrees s0) (h : Going s0 s base last flags (some p) stop) (hx : x ∈ s.taskMmap)
    (hle : stop ≤ (s.vma x).vmBase) : x ∈ s0.taskMmap ∧ s.vma x = s0.vma x := by
  obtain ⟨hp, -, hstop⟩ := h.mem p rfl
  have hpp := h0.proper p hp
  have hxp := h.changed.agrees.proper x hx
  have hat := (h.changed.at_iff (s.vma x).vmBase _).1 ⟨x, hx, le_rfl, hxp, rfl⟩
  rw [if_neg (by omega)] at hat
  obtain ⟨y, hy, hyb, hye, -⟩ := hat
  have hys : stop ≤ (s0.vma y).vmBase := by
    by_cases e : y = p
    · rw [e, hstop]
    · have := h0.apart hy hp e
      simp only [Apart] at this
      omega
  obtain ⟨hys', hyv⟩ := h.same y hy hys
  have hxy : x = y := by
    by_contra e
    have := h.changed.agrees.apart hx hys' e
    simp only [Apart, hyv] at this
    omega
  rw [hxy]
  exact ⟨hy, hyv⟩

/-- Behind an area there is nothing up to the one that the walk has as the next. -/
theorem Going.gap (h0 : Agrees s0) (h : Going s0 s base last flags (some p) stop) {va : Nat} {k : Kind}
    (hva : (s0.vma p).vmEnd ≤ va) (hlt : ∀ q, listNext p s.taskMmap = some q → va < (s0.vma q).vmBase) : ¬At s0 va k := by
  obtain ⟨hp, -, hstop⟩ := h.mem p rfl
  obtain ⟨hps, hpv⟩ := h.same p hp (le_of_eq hstop.symm)
  have hpp := h0.proper p hp
  intro hat
  refine not_at_between h.changed.agrees hps rfl (by rw [hpv]; exact hva) (fun q hq => ?_)
    ((h.changed.at_iff va k).2 (by rw [if_neg (by omega)]; exact hat))
  obtain ⟨hqs, hqb, -⟩ := h.changed.agrees.listNext_first hps hq
  rw [hpv] at hqb
  rw [(h.old h0 hqs (by omega)).2]
  exact hlt q hq

/-- Where the walk is once the area `p` is done. -/
def stopAfter (s0 : VmSpace) (last : Nat) : Option Nat → Nat
  | some q => (s0.vma q).vmBase
  | none => last

section

variable (h0 : Agrees s0) (h : Going s0 s base last flags (some p) stop)

include h0 h

/-- The areas that the walk has not reached yet are those behind the present one. -/
theorem Going.behind (hx : x ∈ s0.taskMmap)
    (hle : stop ≤ (s0.vma x).vmBase) (hne : x ≠ p) : (s0.vma p).vmEnd ≤ (s0.vma x).vmBase := by
  obtain ⟨hp, -, hstop⟩ := h.mem p rfl
  have hxp := h0.proper x hx
  have := h0.apart hx hp hne
  simp only [Apart] at this
  omega

/-- The present area is done, and was not merged with the one behind it. -/
theorem Going.advance (hb : (s0.vma p).vmBase < last) (hc : Changed s0 s' base (min (s0.vma p).vmEnd last) flags)
    (hsame : ∀ x ∈ s0.taskMmap, (s0.vma p).vmEnd ≤ (s0.vma x).vmBase → x ∈ s'.taskMmap ∧ s'.vma x = s0.vma x)
    (hm : ∀ n, ¬Merges s0 base last flags p n) :
    Going s0 s' base last flags (listNext p s.taskMmap) (stopAfter s0 last (listNext p s.taskMmap)) := by
  obtain ⟨hp, hpe, hstop⟩ := h.mem p rfl
  obtain ⟨hps, hpv⟩ := h.same p hp (le_of_eq hstop.symm)
  have hpp := h0.proper p hp
  have hgap : ∀ va k, _ → _ → ¬At s0 va k := fun va k => h.gap h0
  cases hn : listNext p s.taskMmap with
  | none =>
    rw [hn] at hgap
    refine ⟨?_, fun q hq => (by cases hq), fun _ => le_rfl, fun x hx hle => ?_, fun p' n hm' => ?_⟩
    · refine hc.extend (by simp only [stopAfter]; omega) fun va k hva hlt hat => ?_
      simp only [stopAfter] at hlt
      exact absurd hat (hgap va k (by omega) fun q hq => by cases hq)
    · simp only [stopAfter] at hle
      refine hsame x hx (h.behind h0 hx (by omega) ?_)
      rintro rfl
      omega
    · have hle := h.merges p' n hm'
      have hne : p' ≠ p := fun e => hm n (e ▸ hm')
      obtain ⟨hp's, hp'v⟩ := h.same p' hm'.mem hle
      have := h.changed.agrees.listNext_none hps hn hp's
      have := h.behind h0 hm'.mem hle hne
      rw [hpv, hp'v] at *
      omega
  | some q =>
    rw [hn] at hgap
    obtain ⟨hqs, hqb, hfirst⟩ := h.changed.agrees.listNext_first hps hn
    rw [hpv] at hqb hfirst
    obtain ⟨hq, hqv⟩ := h.old h0 hqs (by omega)
    rw [hqv] at hqb hfirst
    have hqp := h0.proper q hq
    refine ⟨?_, fun r hr => ?_, fun e => (by cases e), fun x hx hle => ?_, fun p' n hm' => ?_⟩
    · refine hc.extend (by simp only [stopAfter]; omega) fun va k hva hlt hat => ?_
      simp only [stopAfter] at hlt
      refine absurd hat (hgap va k (by omega) fun r hr => ?_)
      cases hr
      omega
    · cases hr
      exact ⟨hq, by omega, rfl⟩
    · simp only [stopAfter] at hle
      exact hsame x hx (by omega)
    · have hle := h.merges p' n hm'
      have hne : p' ≠ p := fun e => hm n (e ▸ hm')
      obtain ⟨hp's, hp'v⟩ := h.same p' hm'.mem hle
      have hb' := h.behind h0 hm'.mem hle hne
      have := hfirst p' hp's (by rw [hp'v]; exact hb')
      rw [hp'v] at this
      exact this

/-- The present area is done, and was merged with the one behind it. -/
theorem Going.stall
    (hc : Changed s0 s' base (min (s0.vma p).vmEnd last) flags) (hm : Merges s0 base last flags p n) (hf : Freed s' n) :
    listNext p s.taskMmap = some n ∧ Stalled s0 s' base last flags n := by
  obtain ⟨hp, hpe, hstop⟩ := h.mem p rfl
  obtain ⟨hps, hpv⟩ := h.same p hp (le_of_eq hstop.symm)
  have hpp := h0.proper p hp
  have hadj := hm.adjacent
  obtain ⟨hns, hnv⟩ := h.same n hm.mem_next (by omega)
  constructor
  · cases hn : listNext p s.taskMmap with
    | none =>
      have := h.changed.agrees.listNext_none hps hn hns
      rw [hpv, hnv] at this
      omega
    | some q =>
      obtain ⟨hqs, hqb, hfirst⟩ := h.changed.agrees.listNext_first hps hn
      have hqn := hfirst n hns (by rw [hpv, hnv]; exact hm.behind)
      rw [h.changed.agrees.eq_of_base hqs hns]
      rw [hpv] at hqb
      rw [hnv] at hqn ⊢
      omega
  · have hnp := h0.proper n hm.mem_next
    refine ⟨hc.extend (by omega) fun va k hva hlt hat => ?_, hf, p, hm, fun p' n' hm' => ?_⟩
    · rw [At.unique h0 hat hm.mem_next (by omega) (by omega)]
      exact hm.flags_eq
    · rw [hstop]
      exact h.merges p' n' hm'

end

/-- What the walk leaves: the whole range is changed and no area was merged with one behind it, or it has stalled. -/
def Walked (s0 s : VmSpace) (base last flags : Nat) : Prop :=
  (Changed s0 s base last flags ∧ ∀ p n, ¬Merges s0 base last flags p n) ∨ ∃ n, Stalled s0 s base last flags n

theorem Going.start (h : Agrees s0) (hf : s0.findVma base = some p) : Going s0 s0 base last flags (some p) (s0.vma p).vmBase := by
  obtain ⟨hp, hpe, hbefore⟩ := findVma_some h hf
  refine ⟨⟨h, fun va k => ?_⟩, fun q hq => ?_, fun e => (by cases e), fun x hx _ => ⟨hx, rfl⟩, fun p' n hm => ?_⟩
  · split
    · rename_i hin
      have hno : ∀ k, ¬At s0 va k := fun k => hbefore va k hin.1 (by omega)
      exact iff_of_false (hno k) fun ⟨k', hat, _⟩ => hno k' hat
    · exact Iff.rfl
  · cases hq
    exact ⟨hp, hpe, rfl⟩
  · by_contra hlt
    have hp'e := hm.above
    have hp'p := h.proper p' hm.mem
    have hne : p' ≠ p := by
      rintro rfl
      omega
    have := h.apart hm.mem hp hne
    simp only [Apart] at this
    exact hbefore (max base (s0.vma p').vmBase) _ (by omega) (by omega) ⟨p', hm.mem, by omega, by omega, rfl⟩

theorem Going.done {next : Option Nat} (h : Going s0 s base last flags next stop)
    (hn : ∀ p, next = some p → last ≤ (s.vma p).vmBase) : Walked s0 s base last flags := by
  have hstop : last ≤ stop := by
    cases next with
    | none => exact h.atEnd rfl
    | some p =>
      obtain ⟨hp, -, hstop⟩ := h.mem p rfl
      have hlast := hn p rfl
      rw [(h.same p hp (le_of_eq hstop.symm)).2] at hlast
      omega
  have hc := h.changed
  rw [Nat.min_eq_right hstop] at hc
  refine .inl ⟨hc, fun p n hm => ?_⟩
  have := h.merges p n hm
  have := hm.below
  omega

end VmSpace

/-- What `protect_vma_range` does to the areas when it succeeds. -/
theorem protectVmaRange_walked (h0 : Agrees t.vm) (hlt : base < add64 base size) :
    Yields (protectVmaRange fuel t base size flags) fun r =>
      r.1 = true → Walked t.vm r.2.vm base (add64 base size) flags := by
  refine walkVmaRange_rule (I := fun s next =>
    (∃ stop, Going t.vm s.vm base (add64 base size) flags next stop) ∨
      ∃ n, Stalled t.vm s.vm base (add64 base size) flags n ∧ (next = some n ∨ next = none))
    not_false (fun e => nomatch e) (fun p hp _ => .inl ⟨_, .start h0 hp⟩) (fun s p hi hb => ?_) (fun s next hi hn _ => ?_)
  · rcases hi with ⟨stop, hg⟩ | ⟨n, hs, hn⟩
    · obtain ⟨hp, hpe, hstop⟩ := hg.mem p rfl
      obtain ⟨hps, hpv⟩ := hg.same p hp (le_of_eq hstop.symm)
      rw [hpv] at hb
      have hpp := h0.proper p hp
      refine (doProtectVma_steps not_false hg.changed.agrees hps (.trivial _)).mono fun r ⟨hok, hr⟩ => ?_
      rw [if_pos hok]
      rw [hpv] at hr
      split at hr
      · rename_i hsame
        rw [hr]
        refine .inl ⟨_, hg.advance h0 hb (hg.changed.extend (by omega) fun va k hva hlt' hat => ?_)
          (fun x hx hle => hg.same x hx (by omega)) fun n hm => hm.changes hsame⟩
        rw [At.unique h0 hat hp (by omega) (by omega)]
        exact hsame.symm
      · rename_i hdiff
        obtain ⟨-, -, hsteps⟩ := hr
        have hbehind := hsteps.behind hg.changed.agrees
        have hc : Changed t.vm r.2.vm base (min (t.vm.vma p).vmEnd (add64 base size)) flags := by
          have hc0 := hg.changed
          rw [← hstop, ← hpv] at hc0
          have hc1 := hc0.protect hlt (by rw [hpv]; exact hb) (by rw [hpv]; exact hpe) hps hsteps.protected
          rwa [hpv] at hc1
        by_cases hm : ∃ n, Merges t.vm base (add64 base size) flags p n
        · obtain ⟨n, hm⟩ := hm
          obtain ⟨hns, hnv⟩ := hg.same n hm.mem_next (by have := hm.behind; omega)
          have hfreed := (hbehind n hns (by rw [hpv, hnv]; exact hm.behind)).1 (by rw [hpv, hnv]; exact hm.mergeable)
          obtain ⟨hnext, hstall⟩ := hg.stall h0 hc hm hfreed
          exact .inr ⟨n, hstall, .inl hnext⟩
        · refine .inl ⟨_, hg.advance h0 hb hc (fun x hx hle => ?_) fun n hn => hm ⟨n, hn⟩⟩
          obtain ⟨hxs, hxv⟩ := hg.same x hx (by omega)
          have hno : ¬mergeable (protectedPart (s.vm.vma p) base (add64 base size) flags) (s.vm.vma x) := by
            rw [hpv, hxv]
            exact fun hmx => hm ⟨x, hp, hb, hpe, hdiff, hx, hle, hmx⟩
          rw [← hxv]
          exact (hbehind x hxs (by rw [hpv, hxv]; exact hle)).2 hno
    · -- the record is a freed one, and has no successor
      have hpn : p = n := by
        rcases hn with e | e
        · exact Option.some.inj e
        · cases e
      subst hpn
      rw [doProtectVma_freed hs.freed]
      refine .ok ?_
      rw [if_pos rfl, VmSpace.listNext_none hs.freed.1]
      exact .inr ⟨p, hs, .inr rfl⟩
  · rcases hi with ⟨stop, hg⟩ | ⟨n, hs, -⟩
    · exact hg.done hn
    · exact .inr ⟨n, hs⟩

/-! ## The range that is covered -/

namespace VmSpace

/-- The address is in an area with the flags. -/
def FlagsAt (s : VmSpace) (va flags : Nat) : Prop := ∃ k, At s va k ∧ k.flags = flags

/-- What `mprotect` is for: the addresses of the range that are in an area are in one with the flags, and all others have the
flags that they had. -/
structure ProtectsRange (s s' : VmSpace) (base last flags : Nat) : Prop where
  inside : ∀ va, base ≤ va → va < last → ∀ f, FlagsAt s' va f ↔ f = flags ∧ ∃ g, FlagsAt s va g
  outside : ∀ va, ¬(base ≤ va ∧ va < last) → ∀ f, FlagsAt s' va f ↔ FlagsAt s va f

theorem Changed.protectsRange (h : Changed s0 s base last flags) : ProtectsRange s0 s base last flags := by
  refine ⟨fun va h1 h2 f => ?_, fun va hout f => ?_⟩
  · constructor
    · rintro ⟨k, hat, rfl⟩
      rw [h.at_iff, if_pos ⟨h1, h2⟩] at hat
      obtain ⟨k', hat', rfl⟩ := hat
      exact ⟨rfl, k'.flags, k', hat', rfl⟩
    · rintro ⟨rfl, g, k', hat', -⟩
      refine ⟨{ k' with flags := f }, ?_, rfl⟩
      rw [h.at_iff, if_pos ⟨h1, h2⟩]
      exact ⟨k', hat', rfl⟩
  · refine exists_congr fun k => and_congr_left fun _ => ?_
    rw [h.at_iff, if_neg hout]

/-- Where the walk has come to its end too early, the areas that it has not reached must have the flags already. -/
theorem Changed.protectsRange_iff (h : Changed s0 s base (min stop last) flags) (hb : base ≤ stop) :
    ProtectsRange s0 s base last flags ↔ ∀ va k, stop ≤ va → va < last → At s0 va k → k.flags = flags := by
  constructor
  · intro hr va k h1 h2 hat
    have hat' : At s va k := by
      rw [h.at_iff, if_neg (by omega)]
      exact hat
    exact ((hr.inside va (by omega) h2 k.flags).1 ⟨k, hat', rfl⟩).1
  · intro hall
    by_cases hle : last ≤ stop
    · rw [Nat.min_eq_right hle] at h
      exact h.protectsRange
    · exact (h.extend (by omega) fun va k h1 h2 hat => hall va k (by omega) h2 hat).protectsRange

/-- No area of the range that gets new flags is merged with the one behind it while a later area of the range has other
flags. -/
def Reaches (s : VmSpace) (base last flags : Nat) : Prop :=
  ∀ p n x, Merges s base last flags p n → x ∈ s.taskMmap → (s.vma n).vmEnd ≤ (s.vma x).vmBase → (s.vma x).vmBase < last →
    (s.vma x).vmFlags = flags

instance {p n : Nat} : Decidable (Merges s base last flags p n) :=
  decidable_of_iff (p ∈ s.taskMmap ∧ (s.vma p).vmBase < last ∧ base < (s.vma p).vmEnd ∧ flags ≠ (s.vma p).vmFlags ∧
      n ∈ s.taskMmap ∧ (s.vma p).vmEnd ≤ (s.vma n).vmBase ∧ mergeable (protectedPart (s.vma p) base last flags) (s.vma n))
    ⟨fun ⟨h1, h2, h3, h4, h5, h6, h7⟩ => ⟨h1, h2, h3, h4, h5, h6, h7⟩,
      fun h => ⟨h.mem, h.below, h.above, h.changes, h.mem_next, h.behind, h.mergeable⟩⟩

instance : Decidable (Reaches s base last flags) :=
  decidable_of_iff (∀ p ∈ s.taskMmap, ∀ n ∈ s.taskMmap, ∀ x ∈ s.taskMmap, Merges s base last flags p n →
      (s.vma n).vmEnd ≤ (s.vma x).vmBase → (s.vma x).vmBase < last → (s.vma x).vmFlags = flags)
    ⟨fun h p n x hm hx => h p hm.mem n hm.mem_next x hx hm, fun h p _ n _ x hx hm => h p n x hm hx⟩

/-- The area that is merged with the one before it is the first of its kind. -/
theorem Stalled.reaches_iff (h0 : Agrees s0) (h : Stalled s0 s base last flags n) : Reaches s0 base last flags ↔
    ∀ x ∈ s0.taskMmap, (s0.vma n).vmEnd ≤ (s0.vma x).vmBase → (s0.vma x).vmBase < last → (s0.vma x).vmFlags = flags := by
  obtain ⟨p, hm, hfirst⟩ := h.pair
  have hadj := hm.adjacent
  constructor
  · exact fun hr x hx h1 h2 => hr p n x hm hx h1 h2
  · intro hall p' n' x hm' hx h1 h2
    refine hall x hx ?_ h2
    have hle := hfirst p' n' hm'
    have hadj' := hm'.adjacent
    have hn'p := h0.proper n' hm'.mem_next
    have hp'p := h0.proper p' hm'.mem
    by_cases e : p' = p
    · rw [e] at hadj'
      rw [h0.eq_of_base hm'.mem_next hm.mem_next (by omega)] at h1
      exact h1
    · have hne : p' ≠ n := fun e' => hm'.changes (by rw [e', hm.flags_eq])
      have h3 := h0.apart hm'.mem hm.mem e
      have h4 := h0.apart hm'.mem hm.mem_next hne
      simp only [Apart] at h3 h4
      omega

theorem Walked.protectsRange_iff (h0 : Agrees s0) (h : Walked s0 s base last flags) :
    ProtectsRange s0 s base last flags ↔ Reaches s0 base last flags := by
  rcases h with ⟨hc, hno⟩ | ⟨n, hs⟩
  · exact iff_of_true hc.protectsRange fun p n x hm => absurd hm (hno p n)
  · obtain ⟨p, hm, -⟩ := hs.pair
    have hadj := hm.adjacent
    have habove := hm.above
    have hnp := h0.proper n hm.mem_next
    rw [hs.changed.protectsRange_iff (by omega), hs.reaches_iff h0]
    constructor
    · exact fun hall x hx h1 h2 => hall _ _ h1 h2 ⟨x, hx, le_rfl, h0.proper x hx, rfl⟩
    · rintro hall va k h1 h2 ⟨x, hx, hb, he, rfl⟩
      have hne : x ≠ n := by
        rintro rfl
        omega
      have := h0.apart hx hm.mem_next hne
      simp only [Apart] at this
      exact hall x hx (by omega) (by omega)

end VmSpace

/-! ## Ranges that wrap around -/

/-- If the end of the range is below its start, the area at the start is changed from there to its end. -/
theorem protectVmaRange_wrapped (h0 : Agrees t.vm) (hge : add64 base size ≤ base) :
    Yields (protectVmaRange fuel t base size flags) fun r => r.1 = true →
      ∃ p ∈ t.vm.taskMmap, (t.vm.vma p).vmBase < add64 base size ∧ base < (t.vm.vma p).vmEnd ∧
        if flags = (t.vm.vma p).vmFlags then r.2.vm = t.vm else FlagsAt r.2.vm base flags := by
  unfold protectVmaRange walkVmaRange
  split
  · exact .ok fun e => nomatch e
  · rename_i p hp
    obtain ⟨hpm, hpe, -⟩ := findVma_some h0 hp
    refine .ite (fun _ => .ok fun e => nomatch e) fun hlt => ?_
    have hpp := h0.proper p hpm
    refine walkAreas_rule (I := fun s next => (s = t ∧ next = some p) ∨
        ((if flags = (t.vm.vma p).vmFlags then s.vm = t.vm else FlagsAt s.vm base flags) ∧
          ∀ n, next = some n → Freed s.vm n ∨ add64 base size ≤ (s.vm.vma n).vmBase))
      not_false (fun s q hi hb => ?_) (fun s next hi hn _ => ⟨p, hpm, by omega, hpe, ?_⟩) _ _ _ (.inl ⟨rfl, rfl⟩)
    · rcases hi with ⟨rfl, hq⟩ | ⟨hdone, hn⟩
      · cases hq
        refine (doProtectVma_steps not_false h0 hpm (.trivial _)).mono fun r ⟨hok, hr⟩ => ?_
        rw [if_pos hok]
        have hbehind : ∀ n, listNext p s.vm.taskMmap = some n → n ∈ s.vm.taskMmap ∧ (s.vm.vma p).vmEnd ≤ (s.vm.vma n).vmBase :=
          fun n hn => ⟨(h0.listNext_first hpm hn).1, (h0.listNext_first hpm hn).2.1⟩
        refine .inr ?_
        split at hr
        · rename_i hsame
          rw [if_pos hsame, hr]
          exact ⟨rfl, fun n hn => .inr (by have := (hbehind n hn).2; omega)⟩
        · rename_i hdiff
          rw [if_neg hdiff]
          obtain ⟨-, -, hsteps⟩ := hr
          refine ⟨?_, fun n hn => ?_⟩
          · have hlo := cutOut_vmBase (s.vm.vma p) base (add64 base size)
            have hhi := cutOut_vmEnd (s.vm.vma p) base (add64 base size)
            have hle : (cutOut (s.vm.vma p) base (add64 base size)).vmBase ≤ base := by
              rw [hlo]
              split <;> omega
            rw [if_neg (by split at hlo <;> omega)] at hhi
            refine ⟨{ kind (s.vm.vma p) with flags := flags }, (hsteps.protected.at_iff _ _).2 ?_, rfl⟩
            rw [if_pos (by omega)]
            exact ⟨_, ⟨p, hpm, by omega, hpe, rfl⟩, rfl⟩
          · obtain ⟨hnm, hnb⟩ := hbehind n hn
            obtain ⟨hyes, hno⟩ := hsteps.behind h0 n hnm hnb
            by_cases hm : mergeable (protectedPart (s.vm.vma p) base (add64 base size) flags) (s.vm.vma n)
            · exact .inl (hyes hm)
            · rw [(hno hm).2]
              exact .inr (by omega)
      · have hfreed : Freed s.vm q := (hn q rfl).resolve_right (by omega)
        rw [doProtectVma_freed hfreed]
        refine .ok ?_
        rw [if_pos rfl, VmSpace.listNext_none hfreed.1]
        exact .inr ⟨hdone, fun n hn => (by cases hn)⟩
    · rcases hi with ⟨rfl, rfl⟩ | ⟨hdone, -⟩
      · have := hn p rfl
        omega
      · exact hdone

/-! ## The call -/

/-- The areas for which `mprotect` does what it is for: for a range that wraps around, the area at its start must have the flags
already. -/
def MprotectReaches (s : VmSpace) (base last flags : Nat) : Prop :=
  if base < last then Reaches s base last flags
  else ∀ p ∈ s.taskMmap, (s.vma p).vmBase < last → base < (s.vma p).vmEnd → (s.vma p).vmFlags = flags

instance {s : VmSpace} {base last flags : Nat} : Decidable (MprotectReaches s base last flags) := by
  unfold MprotectReaches
  infer_instance

theorem protectVmaRange_protects_iff (h0 : Agrees t.vm)
    (he : protectVmaRange fuel t base size flags = .ok (true, t')) :
    ProtectsRange t.vm t'.vm base (add64 base size) flags ↔ MprotectReaches t.vm base (add64 base size) flags := by
  unfold MprotectReaches
  split
  · rename_i hlt
    exact ((protectVmaRange_walked h0 hlt).1 _ he rfl).protectsRange_iff h0
  · rename_i hge
    obtain ⟨p, hp, hb, hpe, hr⟩ := (protectVmaRange_wrapped h0 (by omega)).1 _ he rfl
    have honly : ∀ q ∈ t.vm.taskMmap, (t.vm.vma q).vmBase < add64 base size → base < (t.vm.vma q).vmEnd → q = p := by
      intro q hq hqb hqe
      by_contra hne
      have := h0.apart hq hp hne
      simp only [Apart] at this
      omega
    split at hr
    · rename_i hsame
      refine iff_of_true ⟨fun va h1 h2 => by omega, fun va _ f => by rw [hr]⟩ fun q hq hqb hqe => ?_
      rw [honly q hq hqb hqe, hsame]
    · rename_i hdiff
      refine iff_of_false (fun hpr => ?_) fun hall => hdiff (hall p hp hb hpe).symm
      obtain ⟨k, hk, hf⟩ := (hpr.outside base (by omega) flags).1 hr
      rw [At.unique h0 hk hp (by omega) hpe] at hf
      exact hdiff hf.symm

/-- `sys_mprotect` returns 0 only after a walk over the whole range. -/
theorem sysMprotect_returns {addr len prot : Nat} (he : sysMprotect fuel t addr len prot = .ok (0, t')) :
    protectVmaRange fuel t (roundDown addr) (sub64 (roundUp (add64 addr len)) (roundDown addr)) prot = .ok (true, t') := by
  have hinval : -EINVAL ≠ 0 := by decide
  have hfault : -EFAULT ≠ 0 := by decide
  have hother : (-1 : Int) ≠ 0 := by decide
  have hends : Yields (sysMprotect fuel t addr len prot) fun r => r.1 = 0 →
      protectVmaRange fuel t (roundDown addr) (sub64 (roundUp (add64 addr len)) (roundDown addr)) prot = .ok (true, r.2) := by
    refine .ite (fun _ => .ok fun e => absurd e hinval) fun _ => .ite (fun _ => .ok fun e => absurd e hinval) fun _ =>
      .ite (fun _ => .ok fun e => absurd e hfault) fun _ => .ite (fun _ => .ok fun e => absurd e hfault) fun _ =>
      .ite (fun _ => .ok fun e => absurd e hinval) fun _ => .ite (fun _ => .ok fun e => absurd e hinval) fun _ => ?_
    refine (Ends.self (protectVmaRange _ _ _ _ _)).bind fun ⟨ok, t'⟩ hr => .ok fun e => ?_
    cases ok with
    | true => exact hr
    | false => exact absurd e hother
  exact hends.1 _ he rfl

/-- `mprotect` returns 0 with the flags in the whole range, and no others changed, just if it reaches all areas of the range. -/
theorem mprotect_covers_range_iff {t t' : TaskMem} {fuel addr len prot : Nat} (h : Agrees t.vm)
    (he : sysMprotect fuel t addr len prot = .ok (0, t')) :
    ProtectsRange t.vm t'.vm (roundDown addr) (roundUp (add64 addr len)) prot ↔
      MprotectReaches t.vm (roundDown addr) (roundUp (add64 addr len)) prot := by
  have hiff := protectVmaRange_protects_iff h (sysMprotect_returns he)
  rw [add64_sub64 (roundUp_lt _)] at hiff
  exact hiff

/-- The areas after a program without segments has mapped three pages and write protected the second of them. -/
def secondProtected : Kernel TaskMem := do
  let vm ← taskLoadElf 20 0 []
  let (_, t) ← sysMmap 20 (fun _ => 0) (bareTask vm) 0x10000 0x3000 (PROT_READ ||| PROT_WRITE)
    (MAP_PRIVATE ||| MAP_ANONYMOUS ||| MAP_FIXED)
  let (_, t) ← sysMprotect 20 t 0x11000 0x1000 PROT_READ
  .ok t

theorem secondProtected_agrees : Yields secondProtected fun t => Agrees t.vm := by
  refine (taskLoadElf_ok id id (by simp)).bind fun vm hvm => ?_
  have hfit : MmapFits vm 0x10000 0x3000 (MAP_PRIVATE ||| MAP_ANONYMOUS ||| MAP_FIXED) := ⟨by decide, .inl (by decide)⟩
  refine (sysMmap_keeps (t := bareTask vm) (K := fun _ => True) id id hvm trivial (fun _ => hfit)
    (fun _ _ _ _ _ _ _ _ => Ends.trivial _) fun _ _ _ _ _ _ _ _ => Ends.trivial _).bind fun r hr => ?_
  exact (sysMprotect_keeps (K := fun _ => True) id id hr.areas trivial fun _ _ _ _ => Ends.trivial _).bind fun r hr =>
    .ok hr.areas.agrees

/-- Write protecting the third page joins it to the second. -/
theorem mprotect_covers_range_behind : ∃ t t', secondProtected = .ok t ∧
    sysMprotect 20 t 0x12000 0x1000 PROT_READ = .ok (0, t') ∧
    ProtectsRange t.vm t'.vm (roundDown 0x12000) (roundUp (add64 0x12000 0x1000)) PROT_READ := by
  have hrun : ∃ t, secondProtected = .ok t ∧ ∃ t', sysMprotect 20 t 0x12000 0x1000 PROT_READ = .ok (0, t') ∧
      MprotectReaches t.vm (roundDown 0x12000) (roundUp (add64 0x12000 0x1000)) PROT_READ := by
    decide +kernel
  obtain ⟨t, ht, t', hr, hreach⟩ := hrun
  exact ⟨t, t', ht, hr, (mprotect_covers_range_iff (secondProtected_agrees.1 _ ht) hr).2 hreach⟩

/-- Write protecting all three pages merges the first with the second, and leaves the third writable. -/
theorem mprotect_stops_at_merge : ∃ t t', secondProtected = .ok t ∧ Agrees t.vm ∧
    sysMprotect 20 t 0x10000 0x3000 PROT_READ = .ok (0, t') ∧
    FlagsAt t'.vm 0x12000 (PROT_READ ||| PROT_WRITE) ∧
    ¬ProtectsRange t.vm t'.vm (roundDown 0x10000) (roundUp (add64 0x10000 0x3000)) PROT_READ := by
  have hrun : ∃ t, secondProtected = .ok t ∧ ∃ t', sysMprotect 20 t 0x10000 0x3000 PROT_READ = .ok (0, t') ∧
      ∃ p ∈ t'.vm.taskMmap, (t'.vm.vma p).vmBase ≤ 0x12000 ∧ 0x12000 < (t'.vm.vma p).vmEnd ∧
        (t'.vm.vma p).vmFlags = PROT_READ ||| PROT_WRITE := by
    decide +kernel
  obtain ⟨t, ht, t', hr, p, hp, hb, he, hf⟩ := hrun
  have hflags : FlagsAt t'.vm 0x12000 (PROT_READ ||| PROT_WRITE) := ⟨_, ⟨p, hp, hb, he, rfl⟩, hf⟩
  refine ⟨t, t', ht, secondProtected_agrees.1 _ ht, hr, hflags, fun hpr => ?_⟩
  have := ((hpr.inside _ (by decide) (by decide) _).1 hflags).1
  exact absurd this (by decide)

end OpenLsd
