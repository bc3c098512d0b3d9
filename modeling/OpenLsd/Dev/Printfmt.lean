import OpenLsd.Sched.Interrupt

/-!
# Printing strings

The model of the string conversion of `vprintfmt` in `lib/printfmt.c`, with `strnlen`, on memory of which every byte may be read.
What is of interest beside the characters that are put out is which bytes are read, and in which order. The arguments are
64-bit values: an `int` is what their lower half says. The loops over a string may have no end, so they get a number of turns,
and have read so much when the turns are used up. `OpenLsd.Sched.Interrupt` has the same loop on user memory that is not there
yet, where what is read is not told.
-/

namespace OpenLsd

/-- The value of an `int` argument. -/
def toInt32 (v : Nat) : Int := if v % 2 ^ 32 < 2 ^ 31 then (v % 2 ^ 32 : Nat) else (v % 2 ^ 32 : Nat) - 2 ^ 32

/-- What is set by the part of a conversion before its letter. -/
structure FmtSpec where
  padc : UInt8
  width : Int
  precision : Int
  altflag : Bool
  deriving DecidableEq, Repr

namespace FmtSpec

/-- What a conversion starts from. -/
def start : FmtSpec where
  padc := 32
  width := -1
  precision := -1
  altflag := false

/-- The label `process_precision`. -/
def processPrecision (f : FmtSpec) (precision : Int) : FmtSpec :=
  if f.width < 0 then { f with width := precision, precision := -1 } else { f with precision := precision }

end FmtSpec

/-- The number at the front of a format, and the rest. -/
def fmtNumber : Int → List Char → Int × List Char
  | n, [] => (n, [])
  | n, c :: fmt => if c.isDigit then fmtNumber (n * 10 + (c.toNat - '0'.toNat : Nat)) fmt else (n, c :: fmt)

/-- The switch of `vprintfmt` up to the letter `s`: what is set then, the arguments and the format that are left. It is `none`
for the letters that print a number or a character. -/
def fmtSwitch : Nat → FmtSpec → List Nat → List Char → Option (FmtSpec × List Nat × List Char)
  | n + 1, f, args, '-' :: fmt => fmtSwitch n { f with padc := 45 } args fmt
  | n + 1, f, args, '0' :: fmt => fmtSwitch n { f with padc := 48 } args fmt
  | n + 1, f, a :: args, '*' :: fmt => fmtSwitch n (f.processPrecision (toInt32 a)) args fmt
  | n + 1, f, args, '.' :: fmt => fmtSwitch n (if f.width < 0 then { f with width := 0 } else f) args fmt
  | n + 1, f, args, '#' :: fmt => fmtSwitch n { f with altflag := true } args fmt
  | n + 1, f, args, 'l' :: fmt => fmtSwitch n f args fmt
  | _ + 1, f, args, 's' :: fmt => some (f, args, fmt)
  | n + 1, f, args, c :: fmt =>
    if c.isDigit then fmtSwitch n (f.processPrecision (fmtNumber 0 (c :: fmt)).1) args (fmtNumber 0 (c :: fmt)).2 else none
  | _, _, _, _ => none

/-- The bytes that are read through the string pointers, in order, and the characters that are put out. -/
structure Printed where
  reads : List Nat
  out : List UInt8
  deriving DecidableEq, Repr

/-- `strnlen`: the bytes that are read, and the result. -/
def strnlen (mem : Nat → UInt8) : Nat → Nat → Nat → List Nat × Nat
  | 0, _, _ => ([], 0)
  | turns + 1, s, size =>
    if size = 0 then ([], 0)
    else if mem s = 0 then ([s], 0)
    else
      let (reads, n) := strnlen mem turns (add64 s 1) (size - 1)
      (s :: reads, n + 1)

/-- The character that is put out for one of the string. -/
def shownAs (altflag : Bool) (ch : UInt8) : UInt8 := if altflag && (ch < 32 || ch > 126) then 63 else ch

/-- The loop over the characters. A character is read before the precision is looked at. -/
def putChars (mem : Nat → UInt8) (altflag : Bool) : Nat → Nat → Int → Printed
  | 0, _, _ => ⟨[], []⟩
  | turns + 1, p, precision =>
    let ch := mem p
    if ch = 0 then ⟨[p], []⟩
    else if precision < 0 then
      let r := putChars mem altflag turns (add64 p 1) precision
      ⟨p :: r.reads, shownAs altflag ch :: r.out⟩
    else if precision - 1 ≥ 0 then
      let r := putChars mem altflag turns (add64 p 1) (precision - 1)
      ⟨p :: r.reads, shownAs altflag ch :: r.out⟩
    else ⟨[p], []⟩

/-- The case `s` of the switch, for a pointer that is not `NULL`. -/
def putString (mem : Nat → UInt8) (turns : Nat) (f : FmtSpec) (p : Nat) : Printed :=
  let r := putChars mem f.altflag turns p f.precision
  if f.width > 0 ∧ f.padc ≠ 45 then
    -- no width is left after this, so that nothing is put out behind the string
    let (reads, n) := strnlen mem turns p (f.precision % 2 ^ 64).toNat
    ⟨reads ++ r.reads, List.replicate (f.width - n).toNat f.padc ++ r.out⟩
  else ⟨r.reads, r.out ++ List.replicate (f.width - r.out.length).toNat 32⟩

/-- The string that is printed for `NULL`, as memory of its own from address 1 on. -/
def nullMemory (a : Nat) : UInt8 := (IntState.nullString[a - 1]?).getD 0

/-- `vprintfmt`, on formats of text and string conversions. -/
def vprintfmt (mem : Nat → UInt8) (turns : Nat) : Nat → List Char → List Nat → Option Printed
  | 0, _, _ => none
  | _ + 1, [], _ => some ⟨[], []⟩
  | n + 1, '%' :: fmt, args => do
    let (f, args, fmt) ← fmtSwitch (fmt.length + 1) .start args fmt
    let p ← args.head?
    let r := if p = 0 then ⟨[], (putString nullMemory 7 f 1).out⟩ else putString mem turns f p
    let rest ← vprintfmt mem turns n fmt args.tail
    return ⟨r.reads ++ rest.reads, r.out ++ rest.out⟩
  | n + 1, c :: fmt, args => do
    let rest ← vprintfmt mem turns n fmt args
    return ⟨rest.reads, c.val.toUInt8 :: rest.out⟩

/-- `sys_cputs` of a task with the areas `vm`, in memory that is all there: `none` when the task is destroyed for it. -/
def cputs (vm : VmSpace) (mem : Nat → UInt8) (turns s len : Nat) : Option Printed :=
  if IntState.checkUserVmaRange vm s len PROT_READ = true then vprintfmt mem turns 5 ['%', '.', '*', 's'] [len, s] else none

end OpenLsd
