import RaryOS.Model.Stdio

/-! # The shell's command line

`readline` edits a line in the buffer, and `tokenize` cuts it into arguments in place. The buffer is memory; the
array of arguments is an object apart, which records what is written to it. The loops run on fuel.
-/

namespace RaryOS.Model.Shell

open RaryOS.Core

/-- What `readline` leaves besides the line: its length, how many results of `getchar` it took, and its echo. -/
structure LineRead where
  n : ℕ
  taken : ℕ
  echo : List (BitVec 8)

/-- The loop of `readline`, where the results of `getchar` from the `k`-th on are to come. -/
def readlineFrom (stream : ℕ → UserLibc.ReadAnswer) (buf : ℕ) (max : ℤ) :
    ℕ → ℕ → ℕ → List (BitVec 8) → Prog LineRead
  | 0, _, _, _ => Prog.stuck
  | fuel + 1, k, i, echo =>
    let c := UserLibc.getchar (stream k)
    if c < 0 then readlineFrom stream buf max fuel (k + 1) i echo
    else if c = '\r'.toNat then readlineFrom stream buf max fuel (k + 1) i echo
    else if c = '\n'.toNat then do
      Prog.write (buf + i) 0
      return ⟨i, k + 1, echo ++ [ch '\n']⟩
    else if c = 8 ∨ c = 127 then
      if i > 0 then readlineFrom stream buf max fuel (k + 1) (i - 1) (echo ++ [8, ch ' ', 8])
      else readlineFrom stream buf max fuel (k + 1) i echo
    else if i < max - 1 then do
      Prog.write (buf + i) (BitVec.ofInt 8 c)
      readlineFrom stream buf max fuel (k + 1) (i + 1) (echo ++ [BitVec.ofInt 8 c])
    else readlineFrom stream buf max fuel (k + 1) i echo

/-- `readline`. -/
def readline (stream : ℕ → UserLibc.ReadAnswer) (buf : ℕ) (max : ℤ) (fuel : ℕ) : Prog LineRead :=
  readlineFrom stream buf max fuel 0 0 []

/-- A space or a tab. -/
def isBlank (c : BitVec 8) : Bool := c == ch ' ' || c == ch '\t'

/-- `while (*p == ' ' || *p == '\t') p++;` -/
def skipBlanks (fuel p : ℕ) : Prog ℕ := Prog.skipWhile isBlank fuel p

/-- `while (*p && *p != ' ' && *p != '\t') p++;` -/
def skipWord (fuel p : ℕ) : Prog ℕ := Prog.skipWhile (fun c => c != 0 && !isBlank c) fuel p

/-- The array of arguments, and the slots that were written. -/
structure Argv where
  slot : ℕ → ℕ
  writes : List ℕ := []

/-- `argv[j] = p;` -/
def Argv.set (argv : Argv) (j p : ℕ) : Argv :=
  { slot := fun k => if k = j then p else argv.slot k, writes := argv.writes ++ [j] }

/-- The loop of `tokenize`, and the terminating null pointer behind it. -/
def tokenizeFrom (max : ℤ) (fuel : ℕ) : ℕ → Argv → ℕ → ℕ → Prog (ℕ × Argv)
  | 0, _, _, _ => Prog.stuck
  | rounds + 1, argv, argc, p => do
    let c ← Prog.read p
    if c ≠ 0 then
      let p ← skipBlanks fuel p
      let c ← Prog.read p
      if c = 0 then return (argc, argv.set argc 0)
      else if argc ≥ max - 1 then return (argc, argv.set argc 0)
      else
        let argv := argv.set argc p
        let p ← skipWord fuel p
        let c ← Prog.read p
        if c ≠ 0 then
          Prog.write p 0
          tokenizeFrom max fuel rounds argv (argc + 1) (p + 1)
        else tokenizeFrom max fuel rounds argv (argc + 1) p
    else return (argc, argv.set argc 0)

/-- `tokenize`: how many arguments there are, and the array. -/
def tokenize (buf : ℕ) (slot : ℕ → ℕ) (max : ℤ) (fuel : ℕ) : Prog (ℕ × Argv) :=
  tokenizeFrom max fuel fuel { slot := slot } 0 buf

end RaryOS.Model.Shell
