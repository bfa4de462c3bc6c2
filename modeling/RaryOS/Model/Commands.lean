import RaryOS.Model.Shell
import RaryOS.Model.SysInfo

/-! # The shell's commands

The main loop reads a line, cuts it into arguments and looks the first one up in the table of commands. The string
literals of the shell lie in memory where the linker has put them. What the shell writes and the other requests that
it makes are recorded in their order. A text that one `printf` writes is one entry of this record, although it takes a
system call for each character and each argument. The answer to the request for the system information is the one of
the kernel.
-/

namespace RaryOS.Model

open RaryOS.Core

/-- A text of the source. -/
def str (s : String) : List (BitVec 8) := s.toList.map ch

/-- `strcmp`. -/
def UserLibc.strcmp : ℕ → ℕ → ℕ → Prog ℤ
  | 0, _, _ => Prog.stuck
  | fuel + 1, a, b => do
    let c ← Prog.read a
    let d ← Prog.read b
    if c ≠ 0 ∧ c = d then strcmp fuel (a + 1) (b + 1) else return (c.toNat : ℤ) - d.toNat

/-- A number of `n` bytes, the lowest first. -/
def loadNumber : ℕ → ℕ → Prog ℕ
  | 0, _ => return 0
  | n + 1, place => do
    let byte ← Prog.read place
    let higher ← loadNumber n (place + 1)
    return byte.toNat + 256 * higher

namespace Shell

def lineMax : ℕ := 128
def argvMax : ℕ := 16

/-- Where the shell's objects are: the line, the string literals, the structure for the system information, the
buffer of `printf`, and what the array of arguments holds before it is set. -/
structure Image where
  line : ℕ
  literal : String → ℕ
  si : ℕ
  buffer : ℕ
  slot : ℕ → ℕ

/-- What the shell asks of the kernel: to write a text, in one or more system calls, or a request. -/
inductive Call where
  | write (bytes : List (BitVec 8))
  | ioctl (cmd : BitVec 64)
deriving DecidableEq

section Commands

variable (img : Image) (fuel : ℕ)

/-- `printf` with a literal format, and the text that it writes. -/
def print (format : String) (args : List (BitVec 64)) : Prog (List Call) :=
  Prog.ofReading fun m => do
    let out ← printf UserLibc.printfLibrary m img.buffer (fun k => args.getD k 0) (img.literal format) fuel
    return out.map fun bytes => [Call.write bytes]

/-- A pointer as an argument. -/
def pointer (address : ℕ) : BitVec 64 := BitVec.ofNat 64 address

/-- `get_sys_info`: what it returns, and its request. The kernel's error for a null pointer does not reach the
program, which gets 0. -/
def getSysInfo (w : InfoSources) : Prog (ℤ × List Call) :=
  if img.si = 0 then return (0, [.ioctl ioctlGetInfo])
  else do
    fillSysInfo w img.si fuel
    return (0, [.ioctl ioctlGetInfo])

/-- `print_info`. -/
def printInfo (w : InfoSources) : Prog (List Call) := do
  let (ret, asked) ← getSysInfo img fuel w
  if ret ≠ 0 then return asked ++ (← print img fuel "Failed to get system info\n" [])
  else
    let ticks ← loadNumber 8 (img.si + offUptimeTicks)
    let totalSec := ticks / 100
    let mins := totalSec / 60
    let secs := totalSec % 60
    let os ← print img fuel "OS:         RaryOS\n" []
    let host ← print img fuel "Host:       %s\n" [pointer (img.si + offHost)]
    let kernel ← print img fuel "Kernel:     RaryOS v%s\n" [pointer (img.si + offKernel)]
    let uptime ← print img fuel "Uptime:     %lu min %lu sec\n" [BitVec.ofNat 64 mins, BitVec.ofNat 64 secs]
    let shell ← print img fuel "Shell:      RaryTerminal v1.0\n" []
    let resW ← loadNumber 4 (img.si + offResW)
    let resH ← loadNumber 4 (img.si + offResH)
    let resolution ← print img fuel "Resolution: %ux%u\n" [BitVec.ofNat 64 resW, BitVec.ofNat 64 resH]
    let cpu ← print img fuel "CPU:        %s\n" [pointer (img.si + offCpu)]
    let gpu ← print img fuel "GPU:        %s\n" [pointer (img.si + offGpu)]
    let ramMb ← loadNumber 8 (img.si + offRamMb)
    let ram ← print img fuel "RAM:        %lu MB\n" [BitVec.ofNat 64 ramMb]
    let last ← print img fuel "\n" []
    return asked ++ os ++ host ++ kernel ++ uptime ++ shell ++ resolution ++ cpu ++ gpu ++ ram ++ last

/-- The functions of the commands. -/
inductive CommandFn where
  | help
  | clear
  | echo
  | info
  | shutdown
  | reboot
deriving DecidableEq

/-- `struct cmd`. -/
structure Cmd where
  name : String
  help : String
  fn : CommandFn

/-- `cmds`, without the entry that ends it. -/
def cmds : List Cmd :=
  [⟨"help", "show this help", .help⟩,
    ⟨"clear", "clear the screen", .clear⟩,
    ⟨"echo", "print arguments", .echo⟩,
    ⟨"info", "show system information", .info⟩,
    ⟨"shutdown", "power off the machine", .shutdown⟩,
    ⟨"reboot", "restart the machine", .reboot⟩]

/-- The loop of `cmd_help`. -/
def helpLines : List Cmd → Prog (List Call)
  | [] => return []
  | c :: rest => do
    let line ← print img fuel "  %s - %s\n" [pointer (img.literal c.name), pointer (img.literal c.help)]
    return line ++ (← helpLines rest)

/-- `cmd_help`. -/
def cmdHelp : Prog (List Call) := do
  let first ← print img fuel "Commands:\n" []
  return first ++ (← helpLines img fuel cmds)

/-- The loop of `cmd_echo`, with `n` arguments left. -/
def echoArgs (argv : Argv) : ℕ → ℕ → Prog (List Call)
  | 0, _ => return []
  | n + 1, i => do
    let arg ← cString (argv.slot i) fuel 0
    let rest ← echoArgs argv n (i + 1)
    return (if i > 1 then [.write [ch ' ']] else []) ++ .write arg :: rest

/-- `cmd_echo`. -/
def cmdEcho (argc : ℕ) (argv : Argv) : Prog (List Call) := do
  return (← echoArgs fuel argv (argc - 1) 1) ++ [.write [ch '\n']]

/-- `cmd_shutdown`. -/
def cmdShutdown : Prog (List Call) := do
  return (← print img fuel "Shutting down...\n" []) ++ [.ioctl ioctlShutdown]

/-- `cmd_reboot`. -/
def cmdReboot : Prog (List Call) := do
  return (← print img fuel "Rebooting...\n" []) ++ [.ioctl ioctlReboot]

/-- `c->fn(argc, argv)`. -/
def CommandFn.run (w : InfoSources) (argc : ℕ) (argv : Argv) : CommandFn → Prog (List Call)
  | .help => cmdHelp img fuel
  | .clear => return [.ioctl ioctlClear]
  | .echo => cmdEcho fuel argc argv
  | .info => printInfo img fuel w
  | .shutdown => cmdShutdown img fuel
  | .reboot => cmdReboot img fuel

/-- The loop over the table: the first command with this name. -/
def findCmd (name : ℕ) : List Cmd → Prog (Option CommandFn)
  | [] => return none
  | c :: rest => do
    let order ← UserLibc.strcmp fuel (img.literal c.name) name
    if order = 0 then return some c.fn else findCmd name rest

/-- What `main` does with its arguments. -/
def dispatch (w : InfoSources) (argc : ℕ) (argv : Argv) : Prog (List Call) := do
  let found ← findCmd img fuel (argv.slot 0) cmds
  match found with
  | some fn => fn.run img fuel w argc argv
  | none => print img fuel "Unknown command: %s\n" [pointer (argv.slot 0)]

/-- A round of the loop of `main`, where the results of `getchar` are to come: how many of them it took, and its
calls. -/
def mainRound (w : InfoSources) (stream : ℕ → UserLibc.ReadAnswer) : Prog (ℕ × List Call) := do
  let prompt ← print img fuel "> " []
  let r ← readline stream img.line lineMax fuel
  let calls := prompt ++ r.echo.map fun c => Call.write [c]
  if r.n = 0 then return (r.taken, calls)
  else do
    let (argc, argv) ← tokenize img.line img.slot argvMax fuel
    if argc = 0 then return (r.taken, calls)
    else do
      let more ← dispatch img fuel w argc argv
      return (r.taken, calls ++ more)

/-- The given number of rounds, from the `k`-th result of `getchar` on. The system information is that of the time
when the round begins. -/
def mainRounds (sources : ℕ → InfoSources) (stream : ℕ → UserLibc.ReadAnswer) : ℕ → ℕ → Prog (List Call)
  | 0, _ => return []
  | rounds + 1, k => do
    let (taken, calls) ← mainRound img fuel (sources k) fun j => stream (k + j)
    return calls ++ (← mainRounds sources stream rounds (k + taken))

/-- `main`, for the given number of rounds. -/
def main (start : InfoSources) (sources : ℕ → InfoSources) (stream : ℕ → UserLibc.ReadAnswer) (rounds : ℕ) :
    Prog (List Call) := do
  let info ← printInfo img fuel start
  return .ioctl ioctlClear :: info ++ (← mainRounds img fuel sources stream rounds 0)

end Commands

end Shell

end RaryOS.Model
