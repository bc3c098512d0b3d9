import Mathlib

/-!
# Error numbers

The numbers of `include/error.h` that the modelled code returns. A failing call returns the negated number.
-/

namespace OpenLsd

/-- Resources temporarily unavailable. -/
def EAGAIN : Int := 1

/-- No child process. -/
def ECHILD : Int := 2

/-- Bad address. -/
def EFAULT : Int := 4

/-- Invalid argument. -/
def EINVAL : Int := 5

/-- Not enough space. -/
def ENOMEM : Int := 6

end OpenLsd
