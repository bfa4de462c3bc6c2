import Mathlib.Algebra.Group.Int.Defs
import Mathlib.Algebra.Group.Nat.Defs
import Mathlib.Data.Int.Notation
import Mathlib.Logic.Function.Basic
import Mathlib.Tactic.Common

/-! # The keyboard input buffer

A ring of 256 characters between the interrupt handlers, which push, and the readers, which pop.
Pushing to a full buffer drops the character. An interrupt may come between any two accesses of a
reader, so `readerStep` splits its functions into single loads and stores. A character is its byte
value.
-/

namespace RaryOS.Model

def inputBufferSize : ℕ := 256

/-- `buffer`, `head` and `tail`. -/
structure InputBuffer where
  buffer : ℕ → ℕ := fun _ => 0
  head : ℕ := 0
  tail : ℕ := 0

def inputInit (b : InputBuffer) : InputBuffer := { b with head := 0, tail := 0 }

def inputPush (b : InputBuffer) (c : ℕ) : InputBuffer :=
  let next := (b.head + 1) % inputBufferSize
  if next = b.tail then b
  else { b with buffer := Function.update b.buffer b.head c, head := next }

/-- `input_pop`, when no interrupt comes. -/
def inputPop (b : InputBuffer) : InputBuffer × ℤ :=
  if b.head = b.tail then (b, -1)
  else ({ b with tail := (b.tail + 1) % inputBufferSize }, (b.buffer b.tail % 2 ^ 8 : ℕ))

def inputAvailable (b : InputBuffer) : Bool := b.head ≠ b.tail

/-! ## The readers, access by access -/

/-- Who called `input_available` or `input_pop`: the system call `EFF_READ`, which waits for input and
then fills its buffer, or another caller. -/
inductive InputUse where
  | caller
  | wait (len : ℕ)
  | read (len : ℕ) (buf : List ℕ)

/-- Where a reader is, with the values it has loaded. The two operands of a comparison may be loaded
in either order. -/
inductive ReaderPc where
  | available (use : InputUse)
  | availableHead (use : InputUse) (head : ℕ)
  | availableTail (use : InputUse) (tail : ℕ)
  | pop (use : InputUse)
  | popHead (use : InputUse) (head : ℕ)
  | popTail (use : InputUse) (tail : ℕ)
  | popIndex (use : InputUse)
  | popLoad (use : InputUse) (tail : ℕ)
  | popNext (use : InputUse) (c : ℕ)
  | popStore (use : InputUse) (c tail : ℕ)
  | popDone (use : InputUse) (r : ℤ)

/-- What a call returns. -/
inductive InputResult where
  | available (yes : Bool)
  | popped (r : ℤ)
  | read (buf : List ℕ)

/-- `got < len`, in the loop of `EFF_READ`. -/
def readTest (len : ℕ) (buf : List ℕ) : ReaderPc ⊕ InputResult :=
  if buf.length < len then .inl (.available (.read len buf)) else .inr (.read buf)

/-- `input_available` returns. `EFF_READ` waits with `sti; hlt; cli` while there is no input. -/
def availableReturns : InputUse → (yes : Bool) → ReaderPc ⊕ InputResult
  | .caller, yes => .inr (.available yes)
  | .wait len, false => .inl (.available (.wait len))
  | .wait len, true => readTest len []
  | .read _ buf, false => .inr (.read buf)
  | .read len buf, true => .inl (.pop (.read len buf))

/-- `input_pop` returns. `EFF_READ` stores the character and goes on. -/
def popReturns : InputUse → (r : ℤ) → ReaderPc ⊕ InputResult
  | .caller, r => .inr (.popped r)
  | .wait _, r => .inr (.popped r)
  | .read len buf, r => readTest len (buf ++ [(r % 2 ^ 8).toNat])

/-- `input_pop` after its comparison. -/
def popTest (use : InputUse) (head tail : ℕ) : ReaderPc :=
  if head = tail then .popDone use (-1) else .popIndex use

/-- One access of a reader. -/
def readerStep (tailFirst : Bool) (b : InputBuffer) : ReaderPc → InputBuffer × (ReaderPc ⊕ InputResult)
  | .available use => (b, .inl (if tailFirst then .availableTail use b.tail else .availableHead use b.head))
  | .availableHead use head => (b, availableReturns use (head ≠ b.tail))
  | .availableTail use tail => (b, availableReturns use (b.head ≠ tail))
  | .pop use => (b, .inl (if tailFirst then .popTail use b.tail else .popHead use b.head))
  | .popHead use head => (b, .inl (popTest use head b.tail))
  | .popTail use tail => (b, .inl (popTest use b.head tail))
  | .popIndex use => (b, .inl (.popLoad use b.tail))
  | .popLoad use tail => (b, .inl (.popNext use (b.buffer tail)))
  | .popNext use c => (b, .inl (.popStore use c b.tail))
  | .popStore use c tail =>
    ({ b with tail := (tail + 1) % inputBufferSize }, .inl (.popDone use (c % 2 ^ 8 : ℕ)))
  | .popDone use r => (b, popReturns use r)

end RaryOS.Model
