import RaryOS.Model.Effect
import RaryOS.Model.Smbios
import RaryOS.Model.Stdio

/-! # The system information

`IOCTL_GET_INFO` fills the `struct sys_info` of the program: texts that it copies from firmware, from the processor
and from the kernel, and numbers. The structure lies in the same memory as the strings that are copied; string
literals are objects apart. The loops run on fuel.
-/

namespace RaryOS.Model

open RaryOS.Core

/-- The registers that `cpuid` leaves. -/
structure CpuidRegs where
  a : BitVec 32
  b : BitVec 32
  c : BitVec 32
  d : BitVec 32

/-- The low `n` bytes of a number, the lowest first. -/
def leBytes (n value : ℕ) : List (BitVec 8) := (List.range n).map fun k => BitVec.ofNat 8 (value >>> (8 * k))

/-- The registers in the order in which they are stored. -/
def CpuidRegs.bytes (r : CpuidRegs) : List (BitVec 8) :=
  leBytes 4 r.a.toNat ++ leBytes 4 r.b.toNat ++ leBytes 4 r.c.toNat ++ leBytes 4 r.d.toNat

/-! ## `smbios/cpuinfo.c` -/

/-- `while (out[i]) out[j++] = out[i++];` -/
def shiftText (out : ℕ) : ℕ → ℕ → ℕ → Prog ℕ
  | 0, _, _ => Prog.stuck
  | fuel + 1, j, i => do
    let c ← Prog.read (out + i)
    if c ≠ 0 then
      Prog.write (out + j) c
      shiftText out fuel (j + 1) (i + 1)
    else return j

/-- `cpu_get_brand`. -/
def cpuGetBrand (cpuid : BitVec 32 → CpuidRegs) (out max fuel : ℕ) : Prog Unit :=
  if max < 49 then
    if max ≠ 0 then Prog.write out 0 else return ()
  else if (cpuid 0x80000000).a < 0x80000004 then Prog.write out 0
  else do
    Prog.writeBytes out
      ((cpuid 0x80000002).bytes ++ (cpuid 0x80000003).bytes ++ (cpuid 0x80000004).bytes)
    Prog.write (out + 48) 0
    let p ← Prog.skipWhile (· == ch ' ') fuel out
    let i := p - out
    if i > 0 then
      let j ← shiftText out fuel 0 i
      Prog.write (out + j) 0
    else return ()

/-! ## `effect.c` -/

/-- A string: a literal, or one in memory. -/
inductive SourceText where
  | literal (bytes : List (BitVec 8))
  | at (address : ℕ)

/-- `s[i]`. -/
def SourceText.char : SourceText → ℕ → Prog (BitVec 8)
  | .literal bytes, i => return bytes.getD i 0
  | .at address, i => Prog.read (address + i)

/-- `while (s[i] && pos < limit) dst[pos++] = s[i++];`, or without a limit; returns `pos`. -/
def copyText (s : SourceText) (dst : ℕ) (limit : Option ℕ) : ℕ → ℕ → ℕ → Prog ℕ
  | 0, _, _ => Prog.stuck
  | fuel + 1, i, pos => do
    let c ← s.char i
    if c ≠ 0 ∧ limit.all (pos < ·) then
      Prog.write (dst + pos) c
      copyText s dst limit fuel (i + 1) (pos + 1)
    else return pos

/-- The copy and the terminator behind it. -/
def copyTerminated (s : SourceText) (dst : ℕ) (limit : Option ℕ) (fuel pos : ℕ) : Prog Unit := do
  let pos ← copyText s dst limit fuel 0 pos
  Prog.write (dst + pos) 0

/-- `"Unknown"`. -/
def unknown : List (BitVec 8) := [ch 'U', ch 'n', ch 'k', ch 'n', ch 'o', ch 'w', ch 'n']

/-- `"Unknown CPU"`. -/
def unknownCpu : List (BitVec 8) := unknown ++ [ch ' ', ch 'C', ch 'P', ch 'U']

/-- `"UNKNOWN"`. -/
def unknownGpu : List (BitVec 8) := [ch 'U', ch 'N', ch 'K', ch 'N', ch 'O', ch 'W', ch 'N']

/-- What the structure is filled from. `version` is the address of the string. -/
structure InfoSources where
  smbios : SmbiosState
  cpuid : BitVec 32 → CpuidRegs
  version : ℕ
  fbWidth : BitVec 32
  fbHeight : BitVec 32
  pitTicks : BitVec 64
  ramMb : BitVec 64

/-- The offsets of the fields of `struct sys_info`, and its size. -/
def offHost : ℕ := 0
def offCpu : ℕ := 64
def offGpu : ℕ := 128
def offKernel : ℕ := 192
def offResW : ℕ := 224
def offResH : ℕ := 228
def offUptimeTicks : ℕ := 240
def offRamMb : ℕ := 248
def sizeofSysInfo : ℕ := 256

/-- `if (!s) s = "Unknown";` -/
def orUnknown (s : ℕ) : SourceText := if s = 0 then .literal unknown else .at s

/-- The part of `IOCTL_GET_INFO` that fills `info->host`. -/
def fillHost (vendor board : SourceText) (host fuel : ℕ) : Prog Unit := do
  let pos ← copyText vendor host (some 30) fuel 0 0
  Prog.write (host + pos) (ch ' ')
  copyTerminated board host (some 63) fuel (pos + 1)

/-- The part that fills `info->cpu`. -/
def fillCpu (cpuid : BitVec 32 → CpuidRegs) (cpu fuel : ℕ) : Prog Unit := do
  cpuGetBrand cpuid cpu 64 fuel
  let c ← Prog.read cpu
  if c = 0 then copyTerminated (.literal unknownCpu) cpu none fuel 0 else return ()

/-- `IOCTL_GET_INFO` for a pointer that is not null. -/
def fillSysInfo (w : InfoSources) (info fuel : ℕ) : Prog Unit := do
  let vendor ← Prog.ofReading fun m => smbiosGetBoardVendor m w.smbios fuel
  let board ← Prog.ofReading fun m => smbiosGetBoardName m w.smbios fuel
  fillHost (orUnknown vendor) (orUnknown board) (info + offHost) fuel
  fillCpu w.cpuid (info + offCpu) fuel
  copyTerminated (.literal unknownGpu) (info + offGpu) none fuel 0
  copyTerminated (.at w.version) (info + offKernel) (some 31) fuel 0
  Prog.writeBytes (info + offResW) (leBytes 4 w.fbWidth.toNat)
  Prog.writeBytes (info + offResH) (leBytes 4 w.fbHeight.toNat)
  Prog.writeBytes (info + offUptimeTicks) (leBytes 8 w.pitTicks.toNat)
  Prog.writeBytes (info + offRamMb) (leBytes 8 w.ramMb.toNat)

/-- What the handlers of system calls work on. -/
structure InfoWorld where
  mem : Memory
  sources : InfoSources

/-- The kernel's services with this one. -/
def infoServices (rest : CoreServices InfoWorld) (fuel : ℕ) : CoreServices InfoWorld :=
  { rest with
    pitTicks := fun w => w.sources.pitTicks
    fillSysInfo := fun w info => { w with mem := ((fillSysInfo w.sources info.toNat fuel).run w.mem).mem } }

end RaryOS.Model
