import OpenLsd.Lib.BitWord
import OpenLsd.Sync.Spinlock

/-!
# Spinlocks exclude, and ranked ones do not deadlock

A lock excludes, whatever its rank: that is an invariant of the locks. With ranks other than zero `spinlock_rank` is a set of
bits, one for each lock that a CPU holds, and a lock is only taken above all of them: that is an invariant of the CPUs. Every
step changes the data of one CPU and one lock, so that a step has to be looked at for these two only.
-/

namespace OpenLsd

open Function

/-- The CPU has won the lock, and the lock does not yet name it or does no longer. -/
def LockPc.Unnamed {L : Type} (pc : LockPc L) (l : L) : Prop := pc = .won l ∨ pc = .ranked l ∨ pc = .releasing l

/-- The CPU has the lock in hand: it has just won it, or is about to let it go. -/
def LockPc.InHand {L : Type} (pc : LockPc L) (l : L) : Prop :=
  pc = .won l ∨ pc = .ranked l ∨ pc = .clearing l ∨ pc = .releasing l

/-- The locks whose ranks a CPU counts, of those that it has won: from the update of `spinlock_rank` in `__spin_lock` or
`__spin_trylock` on, up to the one in `__spin_unlock`. -/
def LockPc.counted {L : Type} (acquired : List L) : LockPc L → List L
  | .won _ => acquired.tail
  | .dropping l => l :: acquired
  | _ => acquired

namespace LockState

variable {C L : Type} {s s' : LockState C L} {c : C} {l : L}

/-- The locks that a CPU holds. -/
def held (s : LockState C L) (c : C) : List L := (s.pc c).counted (s.acquired c)

/-- The OR of the ranks of locks. -/
def orRanks (s : LockState C L) (ls : List L) : BitVec 64 := BitWord.orAll (ls.map fun l => (s.lock l).rank)

/-- The rank of the first lock is below that of the second. -/
def RankLt (s : LockState C L) (a b : L) : Prop := (s.lock a).rank < (s.lock b).rank

/-- What holds of the locks that a CPU has won in the place where it is: a lock that it is after, or has just let go, has a
greater rank, and the one it has in hand is the last. -/
def PcInv (s : LockState C L) (acquired : List L) : LockPc L → Prop
  | .idle => True
  | .spinning l | .trying l | .dropping l => ∀ a ∈ acquired, s.RankLt a l
  | .won l | .ranked l | .clearing l | .releasing l => ∃ rest, acquired = l :: rest

/-- The invariant of a CPU: the ranks of its locks fall from the last one to the first, and `spinlock_rank` counts them. -/
structure CpuInv (s : LockState C L) (acquired : List L) (word : BitVec 64) (pc : LockPc L) : Prop where
  sorted : acquired.Pairwise fun a b => s.RankLt b a
  word : word = s.orRanks (pc.counted acquired)
  pc : s.PcInv acquired pc

/-- The invariant of the ranks. -/
structure Ranks (s : LockState C L) : Prop where
  bit : ∀ l, BitWord.IsBit (s.lock l).rank
  cpu : ∀ c, s.CpuInv (s.acquired c) (s.spinlockRank c) (s.pc c)

/-- The invariant of a lock: it is locked when a CPU has won it, by one CPU only, and it names that CPU. -/
structure LockInv (s : LockState C L) (l : L) (lock : Spinlock C) : Prop where
  alone : ∀ c d, l ∈ s.acquired c → l ∈ s.acquired d → c = d
  locked : lock.locked = true ↔ ∃ c, l ∈ s.acquired c
  cpu : ∀ c, lock.cpu = some c ↔ l ∈ s.acquired c ∧ ¬(s.pc c).Unnamed l

/-- The invariant of the locks, whatever their ranks are. -/
structure Excl (s : LockState C L) : Prop where
  nodup : ∀ c, (s.acquired c).Nodup
  hand : ∀ c l, (s.pc c).InHand l → l ∈ s.acquired c
  lock : ∀ l, s.LockInv l (s.lock l)

/-- No other CPU has won a lock that this one has. -/
theorem Excl.not_mem_of_ne (h : s.Excl) (hmem : l ∈ s.acquired c) {d : C} (hd : d ≠ c) : l ∉ s.acquired d := fun hd' =>
  hd ((h.lock l).alone d c hd' hmem)

/-! ## The beginning -/

/-- Nobody has a lock at first. -/
theorem Fresh.excl (h : Fresh s) : s.Excl := by
  have hlock : ∀ l, (s.lock l).locked = false ∧ (s.lock l).cpu = none := by
    intro l
    obtain ⟨rank, hinit⟩ := h.lock l
    unfold Spinlock.spinInit at hinit
    split at hinit
    · cases hinit
    · rw [← Option.some.inj hinit]
      exact ⟨rfl, rfl⟩
  refine ⟨fun c => by simp [h.acquired], fun c l hl => by simp [LockPc.InHand, h.pc] at hl, fun l => ?_⟩
  obtain ⟨hl, hc⟩ := hlock l
  refine ⟨fun c d hc' => ?_, ?_, fun c => ?_⟩
  · rw [h.acquired] at hc'
    cases hc'
  · simp [hl, h.acquired]
  · simp [hc, h.acquired]

/-- Locks with ranks are locks. -/
theorem Init.fresh (h : Init s) : Fresh s :=
  ⟨fun l => (h.lock l).imp fun _ hr => hr.2, h.pc, h.acquired⟩

/-- The ranks that `spin_init` accepts are bits, and no CPU counts any at first. -/
theorem Init.ranks (h : Init s) : s.Ranks := by
  refine ⟨fun l => ?_, fun c => ?_⟩
  · obtain ⟨rank, hne, hinit⟩ := h.lock l
    unfold Spinlock.spinInit at hinit
    split at hinit
    · cases hinit
    · rename_i hand
      rw [← Option.some.inj hinit]
      exact BitWord.isBit_of_and_sub_one hne (not_not.1 hand)
  · rw [h.acquired, h.spinlockRank, h.pc]
    exact ⟨List.Pairwise.nil, rfl, trivial⟩

/-! ## The checks -/

namespace Ranks

variable (h : s.Ranks)

include h

/-- Ranks are not zero. -/
theorem rank_ne_zero (l : L) : (s.lock l).rank ≠ 0 := by
  obtain ⟨i, hi⟩ := h.bit l
  intro e
  have := Nat.two_pow_pos i
  rw [e] at hi
  simp at hi
  omega

/-- A lock whose check passes has a rank above those that the CPU counts. -/
theorem rankLt_of_lockCheck (hpc : s.pc c = .idle)
    (hck : (s.lock l).lockCheck c (s.spinlockRank c)) : ∀ a ∈ s.acquired c, s.RankLt a l := by
  intro a ha
  have hw := (h.cpu c).word
  rw [hpc] at hw
  have hlt : s.spinlockRank c < (s.lock l).rank := BitVec.not_le.1 (not_and.1 hck.2 (h.rank_ne_zero l))
  rw [hw] at hlt
  exact BitVec.lt_def.2 ((BitWord.le_orAll (List.mem_map_of_mem ha)).trans_lt (BitVec.lt_def.1 hlt))

/-- A lock whose check for the release passes is the last one that the CPU has taken: the ranks below the greatest one are at
most half of it, and doubling them does not overflow. -/
theorem head_of_unlockCheck (hx : s.Excl) (hpc : s.pc c = .idle)
    (hck : (s.lock l).unlockCheck c (s.spinlockRank c)) : ∃ rest, s.acquired c = l :: rest := by
  obtain ⟨_, hhold, hrank⟩ := hck
  have hmem := (((hx.lock l).cpu c).1 hhold.2).1
  have hw := (h.cpu c).word
  rw [hpc] at hw
  have hsort := (h.cpu c).sorted
  cases hacq : s.acquired c with
  | nil =>
    rw [hacq] at hmem
    cases hmem
  | cons b rest =>
    by_cases hb : l = b
    · exact ⟨rest, by rw [hb]⟩
    · exfalso
      rw [hacq] at hmem hsort hw
      have hlt : s.RankLt l b := (List.pairwise_cons.1 hsort).1 l ((List.mem_cons.1 hmem).resolve_left hb)
      have htwo := (h.bit l).two_mul_le (h.bit b) (BitVec.lt_def.1 hlt)
      have hle : (s.lock b).rank.toNat ≤ (s.spinlockRank c).toNat := by
        rw [hw]
        exact BitWord.le_orAll (List.mem_map_of_mem List.mem_cons_self)
      have hshift : ((s.lock l).rank <<< 1).toNat = 2 * (s.lock l).rank.toNat := by
        rw [BitVec.toNat_shiftLeft, Nat.shiftLeft_eq, Nat.pow_one, Nat.mul_comm]
        exact Nat.mod_eq_of_lt (by omega)
      refine (hrank (h.rank_ne_zero l)).1 ?_
      rw [BitVec.le_def, hshift]
      omega

/-- A CPU that waits in a cycle would wait for a rank greater than itself: along a cycle the ranks grow for ever. -/
theorem no_cycle (n : Nat) (c : Fin (n + 1) → C) (l : Fin (n + 1) → L) :
    ¬∀ i, s.pc (c i) = .spinning (l i) ∧ l i ∈ s.held (c (i + 1)) := by
  intro hcycle
  have hlt : ∀ i, s.RankLt (l i) (l (i + 1)) := by
    intro i
    have hpc := (hcycle (i + 1)).1
    have hinv := (h.cpu (c (i + 1))).pc
    have hmem := (hcycle i).2
    rw [held, hpc] at hmem
    rw [hpc] at hinv
    exact hinv (l i) hmem
  obtain ⟨i, hi⟩ := Finite.exists_max fun i => (s.lock (l i)).rank.toNat
  exact absurd (BitVec.lt_def.1 (hlt i)) (not_lt.2 (hi (i + 1)))

/-- The rank is the greatest one of `spinlock_rank`, which loses it. -/
theorem dropRank (hpc : s.pc c = .dropping l) : s.CpuInv (s.acquired c) (s.spinlockRank c ^^^ (s.lock l).rank) .idle := by
  have hc := h.cpu c
  rw [hpc] at hc
  refine ⟨hc.sorted, ?_, trivial⟩
  rw [hc.word]
  refine BitWord.orAll_cons_xor (h.bit l) fun y hy => ?_
  obtain ⟨a, ha, rfl⟩ := List.mem_map.1 hy
  exact BitVec.lt_def.1 (hc.pc a ha)

end Ranks

section Step

variable [DecidableEq C] [DecidableEq L] {pc : LockPc L} {lock : Spinlock C} {word : BitVec 64}

/-- What every step is: the data of one CPU and one lock is replaced. -/
def replace (s : LockState C L) (c : C) (l : L) (lock : Spinlock C) (pc : LockPc L) (word : BitVec 64)
    (acquired : List L) : LockState C L where
  lock := update s.lock l lock
  spinlockRank := update s.spinlockRank c word
  pc := update s.pc c pc
  acquired := update s.acquired c acquired

/-! ## One step and the locks -/

namespace Excl

variable (h : s.Excl)

include h

/-- Data that keeps the invariants of its CPU and of its lock keeps the invariant. -/
theorem replace {acquired : List L} (hnodup : acquired.Nodup) (hhand : ∀ a, pc.InHand a → a ∈ acquired)
    (hlock : (s.replace c l lock pc word acquired).LockInv l lock) (hown : ∀ a, a ≠ l → (a ∈ acquired ↔ a ∈ s.acquired c))
    (hun : ∀ a, a ≠ l → ¬(s.pc c).Unnamed a ∧ ¬pc.Unnamed a) : (s.replace c l lock pc word acquired).Excl := by
  refine ⟨fun d => ?_, fun d a ha => ?_, fun a => ?_⟩
  · by_cases hd : d = c
    · simpa [LockState.replace, hd] using hnodup
    · simpa [LockState.replace, hd] using h.nodup d
  · by_cases hd : d = c
    · subst hd
      simp only [LockState.replace, update_self] at ha ⊢
      exact hhand a ha
    · simp only [LockState.replace, update_of_ne hd] at ha ⊢
      exact h.hand d a ha
  · by_cases ha : a = l
    · subst ha
      simpa [LockState.replace] using hlock
    · have hmem : ∀ d, a ∈ update s.acquired c acquired d ↔ a ∈ s.acquired d := by
        intro d
        by_cases hd : d = c
        · subst hd
          rw [update_self, hown a ha]
        · rw [update_of_ne hd]
      have hname : ∀ d, (update s.pc c pc d).Unnamed a ↔ (s.pc d).Unnamed a := by
        intro d
        by_cases hd : d = c
        · subst hd
          rw [update_self]
          exact iff_of_false (hun a ha).2 (hun a ha).1
        · rw [update_of_ne hd]
      have h' := h.lock a
      have hsame : (s.replace c l lock pc word acquired).lock a = s.lock a := update_of_ne ha _ _
      rw [hsame]
      refine ⟨fun d e hd he => h'.alone d e ((hmem d).1 hd) ((hmem e).1 he), ?_, fun d => ?_⟩
      · exact h'.locked.trans (exists_congr fun d => (hmem d).symm)
      · exact (h'.cpu d).trans (and_congr (hmem d).symm (not_congr (hname d).symm))

/-- A step that neither wins nor releases the lock. -/
theorem keep (hlocked : lock.locked = (s.lock l).locked) (hhand : ∀ a, pc.InHand a → a ∈ s.acquired c)
    (hself : lock.cpu = some c ↔ l ∈ s.acquired c ∧ ¬pc.Unnamed l)
    (hother : ∀ d, d ≠ c → (lock.cpu = some d ↔ l ∈ s.acquired d ∧ ¬(s.pc d).Unnamed l))
    (hun : ∀ a, a ≠ l → ¬(s.pc c).Unnamed a ∧ ¬pc.Unnamed a) : (s.replace c l lock pc word (s.acquired c)).Excl := by
  refine h.replace (h.nodup c) hhand ⟨?_, ?_, fun d => ?_⟩ (fun a _ => Iff.rfl) hun
  · simpa [LockState.replace] using (h.lock l).alone
  · simpa [LockState.replace, hlocked] using (h.lock l).locked
  · by_cases hd : d = c
    · subst hd
      simpa [LockState.replace] using hself
    · simpa [LockState.replace, hd] using hother d hd

/-- A step to a place that is no different for the locks. -/
theorem goto (hhand : ∀ a, pc.InHand a → a ∈ s.acquired c) (hself : pc.Unnamed l ↔ (s.pc c).Unnamed l)
    (hun : ∀ a, a ≠ l → ¬(s.pc c).Unnamed a ∧ ¬pc.Unnamed a) : (s.replace c l (s.lock l) pc word (s.acquired c)).Excl :=
  h.keep rfl hhand (((h.lock l).cpu c).trans (and_congr Iff.rfl (not_congr hself.symm))) (fun d _ => (h.lock l).cpu d) hun

/-- A lock that is free is won. -/
theorem win (hpc : s.pc c = .spinning l ∨ s.pc c = .trying l) (hl : (s.lock l).locked = false) :
    (s.replace c l { s.lock l with locked := true } (.won l) (s.spinlockRank c) (l :: s.acquired c)).Excl := by
  have hout : ∀ d, l ∉ s.acquired d := by
    intro d hd
    rw [(h.lock l).locked.2 ⟨d, hd⟩] at hl
    cases hl
  have hno : ∀ d, (s.lock l).cpu ≠ some d := fun d e => hout d (((h.lock l).cpu d).1 e).1
  refine h.replace (List.nodup_cons.2 ⟨hout c, h.nodup c⟩) (by simp [LockPc.InHand]) ⟨?_, ?_, ?_⟩ ?_ ?_
  · intro d e hd he
    by_cases hdc : d = c <;> by_cases hec : e = c <;> simp_all [LockState.replace]
  · exact iff_of_true rfl ⟨c, by simp [LockState.replace]⟩
  · intro d
    by_cases hd : d = c
    · simp [LockState.replace, LockPc.Unnamed, hd, hno]
    · simp [LockState.replace, hd, hno, hout]
  · intro a ha
    simp [ha]
  · intro a ha
    rcases hpc with e | e <;> simp [LockPc.Unnamed, e, Ne.symm ha]

/-- The lock gets the name of the CPU that has won it. -/
theorem setCpu (hpc : s.pc c = .ranked l) :
    (s.replace c l { s.lock l with cpu := some c } .idle (s.spinlockRank c) (s.acquired c)).Excl := by
  have hmem := h.hand c l (by simp [LockPc.InHand, hpc])
  refine h.keep rfl (by simp [LockPc.InHand]) (by simp [LockPc.Unnamed, hmem]) (fun d hd => ?_) fun a ha => ?_
  · simp [Ne.symm hd, h.not_mem_of_ne hmem hd]
  · simp [LockPc.Unnamed, hpc, Ne.symm ha]

/-- The lock loses the name again. -/
theorem clearCpu (hpc : s.pc c = .clearing l) :
    (s.replace c l { s.lock l with cpu := none } (.releasing l) (s.spinlockRank c) (s.acquired c)).Excl := by
  have hmem := h.hand c l (by simp [LockPc.InHand, hpc])
  refine h.keep rfl (by simpa [LockPc.InHand] using hmem) (by simp [LockPc.Unnamed]) (fun d hd => ?_) fun a ha => ?_
  · simp [h.not_mem_of_ne hmem hd]
  · simp [LockPc.Unnamed, hpc, Ne.symm ha]

/-- The lock is let go. -/
theorem release (hpc : s.pc c = .releasing l) :
    (s.replace c l { s.lock l with locked := false } (.dropping l) (s.spinlockRank c) ((s.acquired c).erase l)).Excl := by
  have hmem := h.hand c l (by simp [LockPc.InHand, hpc])
  have hall : ∀ d, l ∉ update s.acquired c ((s.acquired c).erase l) d := by
    intro d
    by_cases hd : d = c
    · subst hd
      rw [update_self]
      exact (h.nodup d).not_mem_erase
    · rw [update_of_ne hd]
      exact h.not_mem_of_ne hmem hd
  have hno : ∀ d, (s.lock l).cpu ≠ some d := by
    intro d e
    obtain ⟨hd, hun⟩ := ((h.lock l).cpu d).1 e
    have hdc := (h.lock l).alone d c hd hmem
    exact hun (by rw [hdc, hpc]; exact .inr (.inr rfl))
  refine h.replace ((h.nodup c).erase l) (by simp [LockPc.InHand]) ⟨?_, ?_, ?_⟩ ?_ ?_
  · exact fun d e hd => absurd hd (hall d)
  · exact iff_of_false Bool.false_ne_true fun ⟨d, hd⟩ => hall d hd
  · exact fun d => iff_of_false (hno d) fun hd => hall d hd.1
  · exact fun a ha => List.mem_erase_of_ne ha
  · intro a ha
    simp [LockPc.Unnamed, hpc, Ne.symm ha]

/-- A step of any CPU keeps the invariant of the locks. -/
theorem step (hs : Step s s') : s'.Excl := by
  have hgo : ∀ {c pc}, (∀ a, ¬(s.pc c).Unnamed a ∧ ¬pc.Unnamed a) → (∀ a, pc.InHand a → a ∈ s.acquired c) →
      ∀ l : L, (s.setPc c pc).Excl := by
    intro c pc hun hhand l
    have hk : (s.replace c l (s.lock l) pc (s.spinlockRank c) (s.acquired c)).Excl :=
      h.goto hhand (iff_of_false (hun l).2 (hun l).1) fun a _ => hun a
    simpa [LockState.replace, LockState.setPc] using hk
  cases hs with
  | lock c l hpc _ => exact hgo (by simp [LockPc.Unnamed, hpc]) (by simp [LockPc.InHand]) l
  | trylock c l hpc _ => exact hgo (by simp [LockPc.Unnamed, hpc]) (by simp [LockPc.InHand]) l
  | spin c l hpc hl => exact h
  | fail c l hpc hl => exact hgo (by simp [LockPc.Unnamed, hpc]) (by simp [LockPc.InHand]) l
  | win c l hpc hl => simpa [LockState.replace, LockState.setPc, setLock, LockState.win] using h.win hpc hl
  | addRank c l hpc =>
    have hmem := h.hand c l (by simp [LockPc.InHand, hpc])
    have hk : (s.replace c l (s.lock l) (.ranked l) (s.spinlockRank c ||| (s.lock l).rank) (s.acquired c)).Excl :=
      h.goto (by simpa [LockPc.InHand] using hmem) (by simp [LockPc.Unnamed, hpc]) fun a ha => by
        simp [LockPc.Unnamed, hpc, Ne.symm ha]
    simpa [LockState.replace, LockState.setPc] using hk
  | setCpu c l hpc => simpa [LockState.replace, LockState.setPc, setLock] using h.setCpu hpc
  | unlock c l hpc hck =>
    exact hgo (by simp [LockPc.Unnamed, hpc]) (by simpa [LockPc.InHand] using (((h.lock l).cpu c).1 hck.2.1.2).1) l
  | clearCpu c l hpc => simpa [LockState.replace, LockState.setPc, setLock] using h.clearCpu hpc
  | release c l hpc => simpa [LockState.replace, LockState.setPc, setLock] using h.release hpc
  | dropRank c l hpc =>
    have hk : (s.replace c l (s.lock l) .idle (s.spinlockRank c ^^^ (s.lock l).rank) (s.acquired c)).Excl :=
      h.goto (by simp [LockPc.InHand]) (by simp [LockPc.Unnamed, hpc]) fun a ha => by simp [LockPc.Unnamed, hpc]
    simpa [LockState.replace, LockState.setPc] using hk

end Excl

/-! ## One step and the ranks -/

namespace Ranks

variable (h : s.Ranks)

include h

/-- Data of a CPU that keeps its invariant keeps that of the ranks. -/
theorem replace {acquired : List L} (hcpu : s.CpuInv acquired word pc) (l : L) (lock : Spinlock C)
    (hrank : lock.rank = (s.lock l).rank) : (s.replace c l lock pc word acquired).Ranks := by
  have hr : ∀ a, ((s.replace c l lock pc word acquired).lock a).rank = (s.lock a).rank := by
    intro a
    by_cases ha : a = l <;> simp [LockState.replace, ha, hrank]
  have hcong : ∀ {acquired' word' pc'}, s.CpuInv acquired' word' pc' →
      (s.replace c l lock pc word acquired).CpuInv acquired' word' pc' := by
    intro acquired' word' pc' h'
    have hlt : (s.replace c l lock pc word acquired).RankLt = s.RankLt := by
      funext a b
      simp only [RankLt, hr]
    refine ⟨by rw [hlt]; exact h'.sorted, by simp only [orRanks, hr]; exact h'.word, ?_⟩
    have := h'.pc
    cases pc' <;> simp only [PcInv, hlt] at this ⊢ <;> exact this
  refine ⟨fun a => hr a ▸ h.bit a, fun d => ?_⟩
  by_cases hd : d = c
  · subst hd
    simpa [LockState.replace] using hcong hcpu
  · simpa [LockState.replace, hd] using hcong (h.cpu d)

omit [DecidableEq C] in
/-- The lock that is let go is the last one that was taken. -/
theorem release (hpc : s.pc c = .releasing l) : s.CpuInv ((s.acquired c).erase l) (s.spinlockRank c) (.dropping l) := by
  have hc := h.cpu c
  rw [hpc] at hc
  obtain ⟨rest, hrest⟩ := hc.pc
  have hsort := hc.sorted
  rw [hrest, List.pairwise_cons] at hsort
  rw [hrest, List.erase_cons_head]
  refine ⟨hsort.2, ?_, hsort.1⟩
  rw [hc.word, hrest]
  rfl

/-- A step of any CPU keeps the invariant of the ranks. -/
theorem step (hx : s.Excl) (hs : Step s s') : s'.Ranks := by
  have hgo : ∀ {c pc}, pc.counted (s.acquired c) = s.held c → s.PcInv (s.acquired c) pc → ∀ l : L, (s.setPc c pc).Ranks := by
    intro c pc hcount hpc l
    have hcpu : s.CpuInv (s.acquired c) (s.spinlockRank c) pc := by
      refine ⟨(h.cpu c).sorted, ?_, hpc⟩
      rw [hcount]
      exact (h.cpu c).word
    simpa [LockState.replace, LockState.setPc] using h.replace (c := c) hcpu l (s.lock l) rfl
  cases hs with
  | lock c l hpc hck => exact hgo (by rw [held, hpc]; rfl) (h.rankLt_of_lockCheck hpc hck) l
  | trylock c l hpc hck => exact hgo (by rw [held, hpc]; rfl) (h.rankLt_of_lockCheck hpc hck) l
  | spin c l hpc hl => exact h
  | fail c l hpc hl => exact hgo (by rw [held, hpc]; rfl) trivial l
  | win c l hpc hl =>
    have hcpu : s.CpuInv (l :: s.acquired c) (s.spinlockRank c) (.won l) := by
      have hc := h.cpu c
      rcases hpc with e | e <;> rw [e] at hc <;> exact ⟨List.pairwise_cons.2 ⟨hc.pc, hc.sorted⟩, hc.word, ⟨_, rfl⟩⟩
    simpa [LockState.replace, LockState.setPc, setLock, LockState.win] using
      h.replace (c := c) hcpu l { s.lock l with locked := true } rfl
  | addRank c l hpc =>
    have hc := h.cpu c
    rw [hpc] at hc
    obtain ⟨rest, hrest⟩ := hc.pc
    have hcpu : s.CpuInv (s.acquired c) (s.spinlockRank c ||| (s.lock l).rank) (.ranked l) := by
      refine ⟨hc.sorted, ?_, hc.pc⟩
      rw [hc.word, hrest, BitVec.or_comm]
      rfl
    simpa [LockState.replace, LockState.setPc] using h.replace (c := c) hcpu l (s.lock l) rfl
  | setCpu c l hpc =>
    have hc := h.cpu c
    rw [hpc] at hc
    have hcpu : s.CpuInv (s.acquired c) (s.spinlockRank c) .idle := ⟨hc.sorted, hc.word, trivial⟩
    simpa [LockState.replace, LockState.setPc, setLock] using h.replace (c := c) hcpu l { s.lock l with cpu := some c } rfl
  | unlock c l hpc hck => exact hgo (by rw [held, hpc]; rfl) (h.head_of_unlockCheck hx hpc hck) l
  | clearCpu c l hpc =>
    have hc := h.cpu c
    rw [hpc] at hc
    have hcpu : s.CpuInv (s.acquired c) (s.spinlockRank c) (.releasing l) := ⟨hc.sorted, hc.word, hc.pc⟩
    simpa [LockState.replace, LockState.setPc, setLock] using h.replace (c := c) hcpu l { s.lock l with cpu := none } rfl
  | release c l hpc =>
    simpa [LockState.replace, LockState.setPc, setLock] using
      h.replace (c := c) (h.release hpc) l { s.lock l with locked := false } rfl
  | dropRank c l hpc =>
    simpa [LockState.replace, LockState.setPc] using h.replace (c := c) (h.dropRank hpc) l (s.lock l) rfl

end Ranks

/-! ## Runs -/

theorem Excl.run (h : s.Excl) (hr : Relation.ReflTransGen Step s s') : s'.Excl := by
  induction hr with
  | refl => exact h
  | tail _ hs ih => exact ih.step hs

theorem Reachable.excl (hr : Reachable s) : s.Excl := by
  induction hr with
  | init h => exact h.fresh.excl
  | step _ hs ih => exact ih.step hs

theorem Reachable.ranks (hr : Reachable s) : s.Ranks := by
  induction hr with
  | init h => exact h.ranks
  | step hr hs ih => exact ih.step hr.excl hs

end Step

end LockState

/-! ## Deadlock freedom -/

/-- For any CPUs and any locks that `spin_init` has given a rank, in every state that any interleaving of their steps reaches:
1. `spinlock_rank` of a CPU is the OR of the ranks of the locks that it holds.
2. Between two calls, and while it waits, these are the locks for which `spin_haslock` holds.
3. A CPU that spins waits for a rank greater than every rank that it holds.
4. The lock that a CPU releases is the last one that it has taken.
5. There is no cycle of CPUs each of which waits for a lock that the next one holds. -/
theorem ranked_spinlocks_deadlock_free {C L : Type} [DecidableEq C] [DecidableEq L] {s : LockState C L}
    (hr : LockState.Reachable s) :
    (∀ c, s.spinlockRank c = s.orRanks (s.held c)) ∧
    (∀ c, (s.pc c = .idle ∨ ∃ a, s.pc c = .spinning a ∨ s.pc c = .trying a) →
      ∀ l, l ∈ s.held c ↔ (s.lock l).holding c) ∧
    (∀ c l, s.pc c = .spinning l → ∀ a ∈ s.held c, (s.lock a).rank < (s.lock l).rank) ∧
    (∀ c l, s.pc c = .clearing l ∨ s.pc c = .releasing l → (s.held c).head? = some l) ∧
    ¬∃ (n : Nat) (c : Fin (n + 1) → C) (l : Fin (n + 1) → L),
      ∀ i, s.pc (c i) = .spinning (l i) ∧ l i ∈ s.held (c (i + 1)) := by
  have h := hr.ranks
  have hx := hr.excl
  refine ⟨fun c => (h.cpu c).word, ?_, ?_, ?_, ?_⟩
  · intro c hpc l
    have hheld : s.held c = s.acquired c := by
      rcases hpc with e | ⟨a, e | e⟩ <;> rw [LockState.held, e] <;> rfl
    have hname : ¬(s.pc c).Unnamed l := by
      rcases hpc with e | ⟨a, e | e⟩ <;> simp [LockPc.Unnamed, e]
    rw [hheld]
    constructor
    · intro hmem
      exact ⟨(hx.lock l).locked.2 ⟨c, hmem⟩, ((hx.lock l).cpu c).2 ⟨hmem, hname⟩⟩
    · exact fun hhold => (((hx.lock l).cpu c).1 hhold.2).1
  · intro c l hpc a ha
    have hinv := (h.cpu c).pc
    rw [hpc] at hinv
    rw [LockState.held, hpc] at ha
    exact hinv a ha
  · intro c l hpc
    have hinv := (h.cpu c).pc
    rcases hpc with e | e <;> rw [e] at hinv <;> obtain ⟨rest, hrest⟩ := hinv <;> rw [LockState.held, e, hrest] <;> rfl
  · rintro ⟨n, c, l, hcycle⟩
    exact h.no_cycle n c l hcycle

/-- Two CPUs and two locks of ranks 1 and 2, before the first call. -/
def twoLocks : LockState (Fin 2) (Fin 2) where
  lock := fun l => { locked := false, rank := if l = 0 then 1 else 2, cpu := none }
  spinlockRank := fun _ => 0
  pc := fun _ => .idle
  acquired := fun _ => []

theorem twoLocks_reachable : LockState.Reachable twoLocks := by
  refine .init ⟨fun l => ?_, fun _ => rfl, fun _ => rfl, fun _ => rfl⟩
  by_cases hl : l = 0
  · exact ⟨1, by decide, by simp [Spinlock.spinInit, twoLocks, hl]⟩
  · exact ⟨2, by decide, by simp [Spinlock.spinInit, twoLocks, hl]⟩

/-- The first CPU takes the lock of rank 1, and the second one spins on it. -/
theorem ranked_spinlocks_deadlock_free_twoLocks :
    ∃ s : LockState (Fin 2) (Fin 2), s.pc 1 = .spinning 0 ∧ (s.lock 0).holding 0 ∧ s.spinlockRank 0 = s.orRanks (s.held 0) := by
  have hr := (((twoLocks_reachable.step (.lock _ 0 0 rfl (by decide))).step (.win _ 0 0 (.inl (by decide)) (by decide))).step
    (.addRank _ 0 0 (by decide))).step (.setCpu _ 0 0 (by decide))
  have hr' := hr.step (.lock _ 1 0 (by decide) (by decide))
  exact ⟨_, by decide, by decide, (ranked_spinlocks_deadlock_free hr').1 0⟩

/-! ## Mutual exclusion, and what the checks accept -/

section

variable {C L : Type} [DecidableEq C] [DecidableEq L] {s : LockState C L}

/-- For locks of any ranks, those of rank zero included: in every state that any interleaving reaches a lock is taken by one CPU at
most, `locked` says whether it is, between two calls `spin_haslock` says whether the CPU has it, and a CPU that has it keeps it,
whatever the others do, until its own `__spin_unlock` clears `locked`. -/
theorem spinlock_mutual_exclusion {s0 : LockState C L} (h0 : s0.Fresh) (hr : Relation.ReflTransGen LockState.Step s0 s) (l : L) :
    (∀ c d, l ∈ s.acquired c → l ∈ s.acquired d → c = d) ∧ ((s.lock l).locked = true ↔ ∃ c, l ∈ s.acquired c) ∧
    (∀ c, s.pc c = .idle → ((s.lock l).holding c ↔ l ∈ s.acquired c)) ∧
    ∀ s', LockState.Step s s' → ∀ c, l ∈ s.acquired c → l ∈ s'.acquired c ∨ s.pc c = .releasing l := by
  have hl := (h0.excl.run hr).lock l
  refine ⟨hl.alone, hl.locked, fun c hpc => ⟨fun hold => ((hl.cpu c).1 hold.2).1, fun hmem => ?_⟩, fun s' hs c hc => ?_⟩
  · exact ⟨hl.locked.2 ⟨c, hmem⟩, (hl.cpu c).2 ⟨hmem, by simp [LockPc.Unnamed, hpc]⟩⟩
  cases hs with
  | win d a _ _ =>
    by_cases hcd : c = d
    · subst hcd
      exact .inl (by simp [LockState.win, hc])
    · exact .inl (by simpa [LockState.win, hcd] using hc)
  | release d a hpc =>
    by_cases hcd : c = d
    · subst hcd
      by_cases hla : l = a
      · exact .inr (hla ▸ hpc)
      · exact .inl (by simpa [hla] using hc)
    · exact .inl (by simpa [hcd] using hc)
  | _ => exact .inl hc

/-- Two CPUs and a lock of rank zero, which is what the kernel's own locks have. -/
def kernelLock : LockState (Fin 2) Unit where
  lock := fun _ => { locked := false, rank := 0, cpu := none }
  spinlockRank := fun _ => 0
  pc := fun _ => .idle
  acquired := fun _ => []

/-- The first CPU has the lock, and the second one spins on it. -/
theorem spinlock_mutual_exclusion_kernelLock : ∃ s : LockState (Fin 2) Unit, s.pc 1 = .spinning () ∧
    Relation.ReflTransGen LockState.Step kernelLock s ∧ (s.lock ()).holding 0 ∧ () ∉ s.acquired 1 := by
  have h0 : kernelLock.Fresh := ⟨fun _ => ⟨0, by simp [Spinlock.spinInit, kernelLock]⟩, fun _ => rfl, fun _ => rfl⟩
  have hr : Relation.ReflTransGen LockState.Step kernelLock _ :=
    ((((Relation.ReflTransGen.refl.tail (.lock _ 0 () rfl (by decide))).tail (.win _ 0 () (.inl (by decide)) (by decide))).tail
      (.addRank _ 0 () (by decide))).tail (.setCpu _ 0 () (by decide))).tail (.lock _ 1 () (by decide) (by decide))
  obtain ⟨halone, _, hhold, _⟩ := spinlock_mutual_exclusion h0 hr ()
  exact ⟨_, by decide, hr, (hhold 0 (by decide)).2 (by decide), fun h1 => absurd (halone 0 1 (by decide) h1) (by decide)⟩

/-- If all locks have ranks other than zero: between two calls of a CPU the checks accept exactly what the order of the ranks allows.
1. `__spin_lock` and `__spin_trylock` those locks that rank above all locks that the CPU holds.
2. `__spin_unlock` the lock that it has taken last, unless that has the rank `1 << 63`, which shifts out of the word. -/
theorem lock_checks_exact {c : C} (hr : LockState.Reachable s) (hpc : s.pc c = .idle) (l : L) :
    ((s.lock l).lockCheck c (s.spinlockRank c) ↔ ∀ a ∈ s.held c, (s.lock a).rank < (s.lock l).rank) ∧
    ((s.lock l).unlockCheck c (s.spinlockRank c) ↔ (s.held c).head? = some l ∧ (s.lock l).rank.toNat < 2 ^ 63) := by
  have h := hr.ranks
  have hx := hr.excl
  obtain ⟨i, hi⟩ := h.bit l
  have hword := (h.cpu c).word
  have hheld : s.held c = s.acquired c := by
    rw [LockState.held, hpc]
    rfl
  rw [hheld]
  rw [← LockState.held, hheld] at hword
  have hshift : ((s.lock l).rank <<< 1).toNat = 2 * 2 ^ i % 2 ^ 64 := by
    rw [BitVec.toNat_shiftLeft, Nat.shiftLeft_eq, hi, Nat.pow_one, Nat.mul_comm]
  refine ⟨⟨h.rankLt_of_lockCheck hpc, fun hlt => ⟨fun hold => ?_, fun hle => ?_⟩⟩, fun hck => ?_, fun hlast => ?_⟩
  · exact absurd (BitVec.lt_def.1 (hlt l (((hx.lock l).cpu c).1 hold.2).1)) (lt_irrefl _)
  · refine absurd (BitVec.le_def.1 hle.2) (not_le.2 ?_)
    rw [hword, hi]
    refine BitWord.orAll_lt fun y hy => ?_
    obtain ⟨a, ha, rfl⟩ := List.mem_map.1 hy
    exact hi ▸ BitVec.lt_def.1 (hlt a ha)
  · obtain ⟨rest, hrest⟩ := h.head_of_unlockCheck hx hpc hck
    refine ⟨by rw [hrest]; rfl, not_le.1 fun hle => (hck.2.2 (h.rank_ne_zero l)).1 ?_⟩
    -- The only bit that is not below is the last one of the word.
    have hlt := (s.lock l).rank.isLt
    rw [hi] at hle hlt
    have h1 := (Nat.pow_le_pow_iff_right (by decide)).1 hle
    have h2 := (Nat.pow_lt_pow_iff_right (by decide)).1 hlt
    rw [BitVec.le_def, hshift, show i = 63 by omega]
    exact Nat.zero_le _
  · obtain ⟨hhead, hlt⟩ := hlast
    obtain ⟨rest, hrest⟩ := List.head?_eq_some_iff.1 hhead
    have hmem : l ∈ s.acquired c := by simp [hrest]
    have hname : ¬(s.pc c).Unnamed l := by simp [LockPc.Unnamed, hpc]
    have hlock : (s.lock l).locked = true := (hx.lock l).locked.2 ⟨c, hmem⟩
    refine ⟨hlock, ⟨hlock, ((hx.lock l).cpu c).2 ⟨hmem, hname⟩⟩, fun _ => ⟨fun hle => ?_, fun hgt => ?_⟩⟩
    · have hsort := (h.cpu c).sorted
      rw [hrest, List.pairwise_cons] at hsort
      refine absurd (BitVec.le_def.1 hle) (not_le.2 ?_)
      rw [hi] at hlt
      rw [hshift, Nat.mod_eq_of_lt (by omega), hword, Nat.mul_comm, ← Nat.pow_succ]
      refine BitWord.orAll_lt fun y hy => ?_
      obtain ⟨a, ha, rfl⟩ := List.mem_map.1 hy
      have hle : (s.lock a).rank.toNat ≤ (s.lock l).rank.toNat := by
        rw [hrest, List.mem_cons] at ha
        rcases ha with rfl | ha
        · exact le_rfl
        · exact (BitVec.lt_def.1 (hsort.1 a ha)).le
      have hpos := Nat.two_pow_pos i
      rw [Nat.pow_succ]
      omega
    · refine absurd (BitVec.lt_def.1 hgt) (not_lt.2 ?_)
      rw [hword]
      exact BitWord.le_orAll (List.mem_map_of_mem hmem)

/-- A CPU that holds the lock of rank 1 may take the one of rank 2, and must not take its own once more. -/
theorem lock_checks_exact_twoLocks : ∃ s : LockState (Fin 2) (Fin 2), s.held 0 = [0] ∧
    (s.lock 1).lockCheck 0 (s.spinlockRank 0) ∧ ¬(s.lock 0).lockCheck 0 (s.spinlockRank 0) ∧
    (s.lock 0).unlockCheck 0 (s.spinlockRank 0) := by
  have hr := (((twoLocks_reachable.step (.lock _ 0 0 rfl (by decide))).step (.win _ 0 0 (.inl (by decide)) (by decide))).step
    (.addRank _ 0 0 (by decide))).step (.setCpu _ 0 0 (by decide))
  have hpc := lock_checks_exact (c := 0) hr (by decide)
  exact ⟨_, by decide, (hpc 1).1.2 (by decide), fun hck => absurd ((hpc 0).1.1 hck) (by decide), (hpc 0).2.2 (by decide)⟩

end

end OpenLsd
