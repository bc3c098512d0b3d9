import OpenLsd.Mem.Buddy

/-!
# Free-misuse detection

The model of `kernel/mem/buddy.c` with `DOUBLE_FREE_DETECTION` and `INVALID_FREE_DETECTION` compiled in: `page_alloc` marks the
interior pages of what it hands out, and `page_free` panics when the page it is given is marked or free.
-/

namespace OpenLsd

/-- An order that no block has. -/
def ORDER_SENTINEL : Nat := 0x3F

/-- Why `page_free` panics. -/
inductive FreePanic where
  /-- `assert(pp->pp_avail == 1)` fails. -/
  | avail
  /-- `assert(pp->pp_ref == 0)` fails. -/
  | ref
  /-- "Double free detected". -/
  | doubleFree
  /-- "invalid free: interior (non-head) page". -/
  | interior
  deriving DecidableEq, Repr

def PageInfo.markInterior (i : PageInfo) : PageInfo := { i with ppOrder := ORDER_SENTINEL, ppFree := false }

namespace Phys

/-- `mark_interior_on_alloc`. -/
def markInteriorOnAlloc (m : Phys) (head order : Nat) : Phys :=
  if order = 0 then m
  else (List.range' 1 ((1 <<< order) - 1)).foldl (fun m i => m.modifyPage (head + i) PageInfo.markInterior) m

/-- `page_alloc` with `INVALID_FREE_DETECTION`. -/
def pageAllocMarked (m : Phys) (allocFlags : Nat) : Option Nat × Phys :=
  let req := reqOrder allocFlags
  if req ≥ BUDDY_MAX_ORDER then (none, m) else
  match m.buddyFind req with
  | (none, m) => (none, m)
  | (some page, m) => (some page, (m.markInteriorOnAlloc page req).initPage allocFlags page)

/-- `page_free` with both kinds of detection. -/
def pageFreeChecked (m : Phys) (pp : Nat) : Except FreePanic Phys :=
  if (m.pages pp).ppAvail = false then .error .avail
  else if (m.pages pp).ppRef ≠ 0 then .error .ref
  else if (m.pages pp).ppFree = true then .error .doubleFree
  else
    let m := m.setFree pp false
    if (m.pages pp).ppOrder = ORDER_SENTINEL then .error .interior else .ok (m.pageFree pp)

end Phys

end OpenLsd
