import RaryOS.Core.Program

/-! # Strings and numbers in the two C libraries

`lib` is linked into the kernel and `user_libc` into the programs. Their `strlen`, `reverse` and `itoa` are the
same but for the digits, and for the case of no buffer, which only the kernel has. The loops run on fuel.
-/

namespace RaryOS.Model

open RaryOS.Core

/-- `while (s[i] != '\0') i++;` -/
def strlenFrom (s : ℕ) : ℕ → ℕ → Prog ℕ
  | 0, _ => Prog.stuck
  | fuel + 1, i => do
    if (← Prog.read (s + i)) ≠ 0 then strlenFrom s fuel (i + 1) else return i

def strlen (s fuel : ℕ) : Prog ℕ := strlenFrom s fuel 0

/-- The loop of `reverse`, with the number of rounds left. -/
def reverseFrom (s size : ℕ) : ℕ → ℕ → Prog Unit
  | 0, _ => return ()
  | left + 1, i => do
    let temp ← Prog.read (s + i)
    let last ← Prog.read (s + (size - i - 1))
    Prog.write (s + i) last
    Prog.write (s + (size - i - 1)) temp
    reverseFrom s size left (i + 1)

def reverse (s fuel : ℕ) : Prog Unit := do
  let size ← strlen s fuel
  reverseFrom s size (size / 2) 0

/-- The digits of a number, the lowest first, into the buffer; returns how many there are. -/
def itoaDigits (digits : List (BitVec 8)) (buffer : ℕ) (base : BitVec 64) : ℕ → ℕ → BitVec 64 → Prog ℕ
  | 0, _, _ => Prog.stuck
  | fuel + 1, i, uvalue =>
    if uvalue ≠ 0 then do
      Prog.write (buffer + i) (digits.getD (uvalue % base).toNat 0)
      itoaDigits digits buffer base fuel (i + 1) (uvalue / base)
    else return i

/-- `itoa` from the test of `uvalue` on. -/
def itoaUnsigned (digits : List (BitVec 8)) (isNegative : Bool) (uvalue : BitVec 64) (buffer : ℕ) (base : BitVec 32)
    (fuel : ℕ) : Prog Unit :=
  if uvalue = 0 then do
    Prog.write buffer 0x30
    Prog.write (buffer + 1) 0
  else do
    let i ← itoaDigits digits buffer (base.signExtend 64) fuel 0 uvalue
    if isNegative then do
      Prog.write (buffer + i) 0x2D
      Prog.write (buffer + (i + 1)) 0
      reverse buffer fuel
    else do
      Prog.write (buffer + i) 0
      reverse buffer fuel

/-- `itoa` with a buffer: `digits` is the array of each library. -/
def itoaWith (digits : List (BitVec 8)) (value : BitVec 64) (buffer : ℕ) (base : BitVec 32) (fuel : ℕ) : Prog Unit :=
  if base = 10 ∧ value.slt 0 = true then itoaUnsigned digits true (-value) buffer base fuel
  else itoaUnsigned digits false value buffer base fuel

/-! ## `lib/stdlib.c` -/

namespace Lib

/-- `"0123456789ABCDEF"`. -/
def digits : List (BitVec 8) :=
  [0x30, 0x31, 0x32, 0x33, 0x34, 0x35, 0x36, 0x37, 0x38, 0x39, 0x41, 0x42, 0x43, 0x44, 0x45, 0x46]

/-- `while (value > 0) { c++; value /= 10; }` -/
def countDigits : ℕ → ℕ → BitVec 64 → Prog ℕ
  | 0, _, _ => Prog.stuck
  | fuel + 1, c, value => if (0 : BitVec 64).slt value then countDigits fuel (c + 1) (value.sdiv 10) else return c

/-- `itoa`: without a buffer it only counts. -/
def itoa (value : BitVec 64) (buffer : ℕ) (base : BitVec 32) (fuel : ℕ) : Prog ℕ := do
  if buffer = 0 then countDigits fuel 0 value
  else
    itoaWith digits value buffer base fuel
    return 0

end Lib

/-! ## `user_libc/stdlib.c` -/

namespace UserLibc

/-- `"0123456789abcdef"`. -/
def digits : List (BitVec 8) :=
  [0x30, 0x31, 0x32, 0x33, 0x34, 0x35, 0x36, 0x37, 0x38, 0x39, 0x61, 0x62, 0x63, 0x64, 0x65, 0x66]

def itoa (value : BitVec 64) (buffer : ℕ) (base : BitVec 32) (fuel : ℕ) : Prog Unit :=
  itoaWith digits value buffer base fuel

end UserLibc

end RaryOS.Model
