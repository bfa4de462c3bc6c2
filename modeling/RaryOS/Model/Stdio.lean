import RaryOS.Model.Stdlib

/-! # Formatted output in the two C libraries

`printf` of the kernel and of the programs walk over the format in the same way and differ in their directives.
The arguments are the 64-bit slots that `va_arg` steps through. The format is read from memory, and these reads
are recorded; the local buffer for numbers is an object apart, so that what is written to it does not change the
format. The index is an `int`: an overflow is undefined and gives no result.
-/

namespace RaryOS.Model

open RaryOS.Core

/-- A character as a byte. -/
def ch (c : Char) : BitVec 8 := BitVec.ofNat 8 c.toNat

/-- The text at `s` up to its terminator, as `terminal_write_string` and `strlen` go through it. -/
def cString (s : ℕ) : ℕ → ℕ → Prog (List (BitVec 8))
  | 0, _ => Prog.stuck
  | fuel + 1, i => do
    let c ← Prog.read (s + i)
    if c ≠ 0 then return c :: (← cString s fuel (i + 1)) else return []

/-- The type that `va_arg` is given, for a number. -/
inductive ArgType where
  | int
  | unsignedInt
  | long
deriving DecidableEq, Repr

/-- The argument, converted to `long`. -/
def ArgType.toLong : ArgType → BitVec 64 → BitVec 64
  | .int, slot => (slot.setWidth 32).signExtend 64
  | .unsignedInt, slot => (slot.setWidth 32).setWidth 64
  | .long, slot => slot

/-- What a directive writes: a text of its own, or its argument as a string, as a character or as a number. -/
inductive Directive where
  | text (bytes : List (BitVec 8))
  | string
  | char
  | number (type : ArgType) (base : BitVec 32) (lead : List (BitVec 8))
deriving DecidableEq, Repr

/-- How many arguments a directive takes. -/
def Directive.arity : Directive → ℕ
  | .text _ => 0
  | _ => 1

/-- What the two libraries do differently. -/
structure PrintfLibrary where
  directive : BitVec 8 → Directive
  longDirective : BitVec 8 → Directive
  itoa : BitVec 64 → ℕ → BitVec 32 → ℕ → Prog Unit
  writeChar : BitVec 8 → List (BitVec 8)

section Printf

variable (lib : PrintfLibrary) (m : Memory) (buffer : ℕ) (args : ℕ → BitVec 64) (format : ℕ)

/-- The text that a directive writes for its argument. -/
def Directive.write (d : Directive) (slot : BitVec 64) (fuel : ℕ) : Prog (List (BitVec 8)) :=
  match d with
  | .text bytes => return bytes
  | .string => cString slot.toNat fuel 0
  | .char => return lib.writeChar (slot.setWidth 8)
  | .number type base lead => do
    lib.itoa (type.toLong slot) buffer base fuel
    return lead ++ (← cString buffer fuel 0)

/-- The state of the loop of `printf`: the index, the next argument, and what was written. -/
structure PrintfState where
  i : ℕ
  arg : ℕ
  out : List (BitVec 8)

/-- A directive whose last character is at `i`. -/
def printfDirective (d : Directive) (fuel : ℕ) (s : PrintfState) : Option PrintfState :=
  ((d.write lib buffer (args s.arg) fuel).run m).value.map fun text =>
    { i := s.i, arg := s.arg + d.arity, out := s.out ++ text }

/-- `i++`. -/
def printfNext (s : PrintfState) : Option PrintfState :=
  if s.i + 1 < 2 ^ 31 then some { s with i := s.i + 1 } else none

/-- The body of the loop of `printf` for the character `c` at the index. -/
def printfBody (c : BitVec 8) (fuel : ℕ) (s : PrintfState) : Reading (Option PrintfState) :=
  if c ≠ ch '%' then return some { s with out := s.out ++ [c] }
  else
    match printfNext s with
    | none => return none
    | some s => do
      let c ← m.readByte (format + s.i)
      if c = ch 'l' then
        match printfNext s with
        | none => return none
        | some s => do
          let c ← m.readByte (format + s.i)
          return printfDirective lib m buffer args (lib.longDirective c) fuel s
      else return printfDirective lib m buffer args (lib.directive c) fuel s

/-- The loop of `printf`, with the fuel of the directives. -/
def printfFrom (fuel : ℕ) : ℕ → PrintfState → Reading (Option (List (BitVec 8)))
  | 0, _ => return none
  | rounds + 1, s => do
    let c ← m.readByte (format + s.i)
    if c ≠ 0 then
      match (← printfBody lib m buffer args format c fuel s).bind printfNext with
      | none => return none
      | some s => printfFrom fuel rounds s
    else return some s.out

/-- `printf`: what it writes. -/
def printf (fuel : ℕ) : Reading (Option (List (BitVec 8))) :=
  printfFrom lib m buffer args format fuel fuel ⟨0, 0, []⟩

end Printf

/-! ## `lib/stdio.c` -/

namespace Lib

/-- `sys_write` writes up to the first terminator. -/
def sysWrite (bytes : List (BitVec 8)) : List (BitVec 8) := bytes.takeWhile (· ≠ 0)

def hexLead : List (BitVec 8) := [ch '0', ch 'x']

def directive (c : BitVec 8) : Directive :=
  if c = ch 's' then .string
  else if c = ch 'd' then .number .int 10 []
  else if c = ch 'x' then .number .unsignedInt 16 hexLead
  else if c = ch 'u' then .number .unsignedInt 10 []
  else if c = ch 'p' then .number .long 16 hexLead
  else if c = ch 'c' then .char
  else if c = ch '%' then .text [ch '%']
  else .text (sysWrite [ch '%', c])

def longDirective (c : BitVec 8) : Directive :=
  if c = ch 'd' then .number .long 10 []
  else if c = ch 'x' then .number .long 16 hexLead
  else if c = ch 'u' then .number .long 10 []
  else .text (sysWrite [ch '%', ch 'l', c])

def printfLibrary : PrintfLibrary where
  directive := directive
  longDirective := longDirective
  itoa value buffer base fuel := do
    let _ ← itoa value buffer base fuel
    return ()
  writeChar c := sysWrite [c]

end Lib

/-! ## `user_libc/stdio.c` -/

namespace UserLibc

def directive (c : BitVec 8) : Directive :=
  if c = ch 's' then .string
  else if c = ch 'c' then .char
  else if c = ch 'd' then .number .int 10 []
  else if c = ch 'u' then .number .unsignedInt 10 []
  else if c = ch 'x' then .number .unsignedInt 16 []
  else if c = ch '%' then .text [ch '%']
  else .text [ch '%', c]

def longDirective (c : BitVec 8) : Directive :=
  if c = ch 'd' then .number .long 10 []
  else if c = ch 'x' then .number .long 16 []
  else if c = ch 'u' then .number .long 10 []
  else .text []

def printfLibrary : PrintfLibrary where
  directive := directive
  longDirective := longDirective
  itoa := itoa
  writeChar c := [c]

/-- What `sys_read(&c, 1)` returns, and the character that it stores. -/
structure ReadAnswer where
  n : BitVec 64
  c : BitVec 8

/-- `getchar`, for the answer of the system call. -/
def getchar (answer : ReadAnswer) : ℤ := if answer.n.sle 0 = true then -1 else answer.c.toNat

end UserLibc

end RaryOS.Model
