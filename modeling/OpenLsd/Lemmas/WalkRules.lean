import OpenLsd.Lib.Outcome
import OpenLsd.Mem.PageTable

/-!
# Rules for loops

Rules of postconditions for counting loops, and for the loops of the page walker: a walk over a table keeps a property of its
entries that a visit keeps.
-/

namespace OpenLsd

open Outcome Function

/-- The rule for counting loops: an invariant of the counter and the state. -/
theorem forRange_rule {S : Type} {bad : Stop → Prop} {f : Nat → S → Kernel S} {I : Nat → S → Prop} {n i : Nat} {s : S}
    (hstep : ∀ j s, i ≤ j → j < i + n → I j s → Ends bad (f j s) (I (j + 1))) (h : I i s) :
    Ends bad (forRange f n i s) (I (i + n)) := by
  induction n generalizing i s with
  | zero => exact .ok h
  | succ n ih =>
    refine (hstep i s (Nat.le_refl i) (by omega) h).bind fun s' hs' => ?_
    have := ih (fun j s hj hn => hstep j s (by omega) (by omega)) hs'
    rwa [Nat.add_right_comm, Nat.add_assoc] at this

/-- The rule for walks over a table: a property of the entries that `J` picks out. -/
theorem walkLoop_keeps {σ N : Type} {P : N → Prop} {J : Nat → Prop} {span last : Nat} {visit : Nat → Nat → σ → N → Kernel (σ × N)}
    (hvisit : ∀ base s e, P e → Yields (visit base last s e) fun r => P r.2) (n base : Nat) {s : σ} {t : Nat → N}
    (ht : ∀ i, J i → P (t i)) : Yields (walkLoop span visit n base last s t) fun r => ∀ i, J i → P (r.2 i) := by
  induction n generalizing base s t with
  | zero => exact .ite (fun _ => .error id) fun _ => .ok ht
  | succ n ih =>
    refine .ite (fun _ => ?_) fun _ => .ok ht
    -- The walk may come to an entry that the property does not look at.
    refine Ends.bind (P := fun r => J (signExtend base / span % PAGE_TABLE_ENTRIES) → P r.2) ?_ fun ⟨s', c⟩ hc => ?_
    · by_cases hj : J (signExtend base / span % PAGE_TABLE_ENTRIES)
      · exact (hvisit _ s _ (ht _ hj)).mono fun _ hr _ => hr
      · exact (Ends.trivial _).mono fun _ _ hj' => absurd hj' hj
    · have ht' : ∀ i, J i → P (update t (signExtend base / span % PAGE_TABLE_ENTRIES) c i) := by
        intro i hi
        by_cases hij : i = signExtend base / span % PAGE_TABLE_ENTRIES
        · subst hij
          rw [update_self]
          exact hc hi
        · rw [update_of_ne hij]
          exact ht i hi
      exact .ite (fun _ => .ok ht') fun _ => ih _ ht'

end OpenLsd
