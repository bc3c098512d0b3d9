import Mathlib

/-!
# Computations that may stop

Rules of postconditions for computations in `Except`. `Ends bad x post` says what is wanted of a computation that may stop
before its end: it does not stop for a bad reason, and what it returns satisfies the postcondition. With no bad reasons this
is partial correctness.
-/

namespace Outcome

variable {E A B : Type} {bad : E → Prop}

/-- The computation does not stop for a bad reason, and what it returns satisfies the postcondition. -/
def Ends (bad : E → Prop) (x : Except E A) (post : A → Prop) : Prop :=
  (∀ a, x = .ok a → post a) ∧ ∀ e, x = .error e → ¬bad e

/-- What the computation returns, if it returns, satisfies the postcondition. -/
abbrev Yields (x : Except E A) (post : A → Prop) : Prop := Ends (fun _ => False) x post

namespace Ends

variable {x : Except E A} {post post' : A → Prop} {f : A → Except E B} {bad' : E → Prop}

theorem ok {a : A} (h : post a) : Ends bad (.ok a) post := by
  refine ⟨fun b hb => ?_, fun e he => ?_⟩
  · cases hb
    exact h
  · cases he

theorem error {e : E} (h : ¬bad e) : Ends bad (.error e : Except E A) post := by
  refine ⟨fun b hb => ?_, fun e he => ?_⟩
  · cases hb
  · cases he
    exact h

theorem mono (h : Ends bad x post) (hp : ∀ a, post a → post' a) : Ends bad x post' := ⟨fun a ha => hp a (h.1 a ha), h.2⟩

/-- Fewer reasons are bad. -/
theorem weaken (h : Ends bad x post) (hb : ∀ e, bad' e → bad e) : Ends bad' x post :=
  ⟨h.1, fun e he hbe => h.2 e he (hb e hbe)⟩

/-- Running one computation after the other. -/
theorem bind {post : B → Prop} {P : A → Prop} (h : Ends bad x P)
    (hf : ∀ a, P a → Ends bad (f a) post) : Ends bad (x >>= f) post := by
  cases x with
  | ok a => exact hf a (h.1 a rfl)
  | error e => exact error (h.2 e rfl)

/-- What is known of the result in any case may be added. -/
theorem and (h : Ends bad x post) (h' : Yields x post') : Ends bad x fun a => post a ∧ post' a :=
  ⟨fun a ha => ⟨h.1 a ha, h'.1 a ha⟩, h.2⟩

theorem ite {c : Prop} [Decidable c] {y : Except E A} (ht : c → Ends bad x post) (he : ¬c → Ends bad y post) :
    Ends bad (if c then x else y) post := by
  split
  · exact ht ‹_›
  · exact he ‹_›

/-- Any computation ends without a bad reason when no reason is bad. -/
theorem trivial (x : Except E A) : Yields x fun _ => True := ⟨fun _ _ => True.intro, fun _ _ h => h⟩

/-- A first computation of which nothing is needed. -/
theorem skip {post : B → Prop} (hf : ∀ a, Yields (f a) post) : Yields (x >>= f) post :=
  (trivial x).bind fun a _ => hf a

/-- Partial correctness keeps what the computation returns. -/
theorem self (x : Except E A) : Yields x fun a => x = .ok a := ⟨fun _ h => h, fun _ _ h => h⟩

/-- A computation for which every reason is bad returns. -/
theorem total (h : Ends (fun _ => True) x post) : ∃ a, x = .ok a ∧ post a := by
  cases x with
  | ok a => exact ⟨a, rfl, h.1 a rfl⟩
  | error e => exact (h.2 e rfl True.intro).elim

/-- The reasons that two proofs rule out are ruled out together. -/
theorem or (h : Ends bad x post) (h' : Ends bad' x post') : Ends (fun e => bad e ∨ bad' e) x fun a => post a ∧ post' a :=
  ⟨fun a ha => ⟨h.1 a ha, h'.1 a ha⟩, fun e he => not_or.2 ⟨h.2 e he, h'.2 e he⟩⟩

/-- A computation that may stop for one reason only. -/
theorem cases {e0 : E} (h : Ends (fun e => e ≠ e0) x post) : x = .error e0 ∨ ∃ a, x = .ok a ∧ post a := by
  cases x with
  | ok a => exact .inr ⟨a, rfl, h.1 a rfl⟩
  | error e => exact .inl (congrArg _ (not_not.1 (h.2 e rfl)))

end Ends

/-- A sequence of computations that returns has run both. -/
theorem bind_ok {x : Except E A} {f : A → Except E B} {b : B} (h : x >>= f = .ok b) : ∃ a, x = .ok a ∧ f a = .ok b := by
  cases x with
  | ok a => exact ⟨a, rfl, h⟩
  | error e => cases h

/-- Whether a computation returns, and with a value as `P` says, is decided by running it. -/
instance decidableOk (x : Except E A) : Decidable (∃ a, x = .ok a) :=
  match x with
  | .ok a => isTrue ⟨a, rfl⟩
  | .error _ => isFalse (by simp)

instance decidableReturns (x : Except E A) (P : A → Prop) [DecidablePred P] : Decidable (∃ a, x = .ok a ∧ P a) :=
  match x with
  | .ok a => decidable_of_iff (P a) (by simp)
  | .error _ => isFalse (by simp)

instance decidableOkPair [DecidableEq A] (x : Except E (A × B)) (v : A) : Decidable (∃ b, x = .ok (v, b)) :=
  match x with
  | .ok (a, _) => decidable_of_iff (a = v) (by simp)
  | .error _ => isFalse (by simp)

instance decidableReturnsPair [DecidableEq A] (x : Except E (A × B)) (v : A) (P : B → Prop) [DecidablePred P] :
    Decidable (∃ b, x = .ok (v, b) ∧ P b) :=
  match x with
  | .ok (a, b) => decidable_of_iff (a = v ∧ P b) (by simp [and_assoc])
  | .error _ => isFalse (by simp)

instance decidableFinds (x : Option A) (P : A → Prop) [DecidablePred P] : Decidable (∃ a, x = some a ∧ P a) :=
  match x with
  | some a => decidable_of_iff (P a) (by simp)
  | none => isFalse (by simp)

end Outcome
