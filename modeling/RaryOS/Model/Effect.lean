import Mathlib.Data.Int.Notation
import Mathlib.Tactic.Common

/-! # System calls

`int 0x80` makes an effect of the registers and offers it to the registered handlers in turn. A handler
handles the effect, fails, or passes it on; it may write to the effect in each case, and it may not
return. What the handlers do to the rest of the machine is a parameter.
-/

namespace RaryOS.Model

def effWrite : BitVec 32 := 1
def effRead : BitVec 32 := 2
def effExit : BitVec 32 := 3
def effIoctl : BitVec 32 := 4

def ioctlClear : BitVec 64 := 1
def ioctlGetTicks : BitVec 64 := 2
def ioctlShutdown : BitVec 64 := 3
def ioctlReboot : BitVec 64 := 4
def ioctlGetInfo : BitVec 64 := 10

def effectPass : ℤ := 0
def effectHandled : ℤ := 1
def effectError : ℤ := -1

/-- `struct effect`. -/
structure Effect where
  op : BitVec 32
  flags : BitVec 32 := 0
  arg0 : BitVec 64
  arg1 : BitVec 64
  arg2 : BitVec 64
  arg3 : BitVec 64
  result : BitVec 64 := 0
  error : BitVec 32 := 0
deriving DecidableEq, Repr

/-- A handler with its `user` argument: `none` if it does not return. -/
def EffectHandler (σ : Type*) := σ → Effect → Option (σ × Effect × ℤ)

def maxHandlers : ℕ := 16

/-- `effect_register`. The names of the handlers are left out. -/
def effectRegister {σ : Type*} (handlers : List (EffectHandler σ)) (fn : EffectHandler σ) :
    List (EffectHandler σ) × ℤ :=
  if maxHandlers ≤ handlers.length then (handlers, -1) else (handlers ++ [fn], 0)

/-- The loop of `effect_perform`, and its end. -/
def performWith {σ : Type*} : List (EffectHandler σ) → σ → Effect → Option (σ × Effect)
  | [], w, e => some (w, { e with error := -38 })
  | fn :: rest, w, e =>
    match fn w e with
    | none => none
    | some (w, e, r) =>
      if r = effectHandled then some (w, e)
      else if r = effectError then some (w, e)
      else performWith rest w e

/-- `effect_perform`. -/
def effectPerform {σ : Type*} (handlers : List (EffectHandler σ)) (w : σ) (e : Effect) :
    Option (σ × Effect) :=
  performWith handlers w { e with result := 0, error := 0 }

/-- The registers that matter here. -/
structure Regs where
  rax : BitVec 64
  rdi : BitVec 64
  rsi : BitVec 64
  rdx : BitVec 64
  rcx : BitVec 64
  vector : BitVec 64
deriving DecidableEq, Repr

/-- The effect that `exception_handler` makes of the registers. -/
def Regs.effect (r : Regs) : Effect where
  op := r.rax.setWidth 32
  arg0 := r.rdi
  arg1 := r.rsi
  arg2 := r.rdx
  arg3 := r.rcx

/-- `exception_handler`. It halts for any other vector than that of system calls. -/
def exceptionHandler {σ : Type*} (handlers : List (EffectHandler σ)) (w : σ) (r : Regs) :
    Option (σ × Regs) :=
  if r.vector = 0x80 then
    match effectPerform handlers w r.effect with
    | none => none
    | some (w, e) => some (w, { r with rax := e.result })
  else none

/-! ## The default handlers -/

/-- What `effect_core_handler` uses of the rest of the kernel. `read` is the loop of `EFF_READ`, with
the number of characters it got. -/
structure CoreServices (σ : Type*) where
  terminalWrite : σ → (addr len : BitVec 64) → σ
  read : σ → (addr len : BitVec 64) → Option (σ × BitVec 64)
  clearTerminal : σ → σ
  pitTicks : σ → BitVec 64
  acpiShutdown : σ → Option σ
  acpiReboot : σ → Option σ
  fillSysInfo : σ → (info : BitVec 64) → σ

section Default

variable {σ : Type*} (core : CoreServices σ)

def traceHandler : EffectHandler σ := fun w e => some (w, e, effectPass)

def sandboxHandler : EffectHandler σ := fun w e => some (w, e, effectPass)

/-- `EFF_IOCTL` of `effect_core_handler`. -/
def coreIoctl : EffectHandler σ := fun w e =>
  if e.arg0 = ioctlClear then some (core.clearTerminal w, { e with result := 0 }, effectHandled)
  else if e.arg0 = ioctlGetTicks then some (w, { e with result := core.pitTicks w }, effectHandled)
  else if e.arg0 = ioctlShutdown then (core.acpiShutdown w).map fun w => (w, e, effectHandled)
  else if e.arg0 = ioctlReboot then (core.acpiReboot w).map fun w => (w, e, effectHandled)
  else if e.arg0 = ioctlGetInfo then
    if e.arg1 = 0 then some (w, { e with error := -14 }, effectHandled)
    else some (core.fillSysInfo w e.arg1, { e with result := 0 }, effectHandled)
  else some (w, { e with error := -22 }, effectHandled)

/-- `effect_core_handler`. -/
def effectCoreHandler : EffectHandler σ := fun w e =>
  if e.op = effWrite then
    some (core.terminalWrite w e.arg0 e.arg1, { e with result := e.arg1 }, effectHandled)
  else if e.op = effRead then
    (core.read w e.arg0 e.arg1).map fun (w, got) => (w, { e with result := got }, effectHandled)
  else if e.op = effIoctl then coreIoctl core w e
  else if e.op = effExit then none
  else some (w, e, effectPass)

/-- `effect_init_default_handlers`, after `effect_init`. -/
def defaultHandlers : List (EffectHandler σ) :=
  let handlers := (effectRegister [] traceHandler).1
  let handlers := (effectRegister handlers sandboxHandler).1
  (effectRegister handlers (effectCoreHandler core)).1

end Default

end RaryOS.Model
