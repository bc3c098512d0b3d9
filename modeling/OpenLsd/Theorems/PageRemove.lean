import OpenLsd.Lemmas.Drop
import OpenLsd.Lemmas.TaskSpecs
import OpenLsd.Theorems.Unmap

/-!
# Removing a page

`page_remove` unmaps as many bytes from the address on as the page has that is mapped there. In the middle of a huge page this
is not the huge page: the range ends in the next 2M, and what is mapped there up to its end is unmapped as well. At the top of
the address space the range wraps, and nothing is unmapped.

The page tables of a task share their kernel half, and nobody counts what is mapped there. So it is the user half that is
counted, and the kernel half is left out of the walk.
-/

namespace OpenLsd

open Outcome

section UserHalf

variable {keep alloc : Orders} {ext : Nat → Nat} {m : Phys} {t u v : Pml4} {a : Nat}

end UserHalf

section Addresses

variable {t : Pml4} {va a : Nat}

end Addresses


section Remove

variable {keep alloc : Orders} {ext : Nat → Nat} {m : Phys} {t : Pml4} {pml4 va size hi : Nat} {e : Entry}

section

variable (h : Acc keep ext alloc m t) (hal : pageAligned va) (hva : va + HPAGE_SIZE ≤ USER_LIM)

include h hal hva

end

section

variable (h : Acc keep ext alloc m t) (hal : pageAligned va) (hva : va + HPAGE_SIZE ≤ USER_LIM)

include h hal hva

end

end Remove

/-! ## Pages that are removed and pages that are not -/

end OpenLsd
