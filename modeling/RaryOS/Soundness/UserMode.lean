import RaryOS.Model.Segments
import RaryOS.Soundness.IdtGates

/-! # Into user mode

The descriptors that `boot_main` leaves are those that the selectors of the kernel and of `jump_to_user` stand for,
the task state segment gives interrupts of user programs the kernel's stack, and no port is open to them.
-/

namespace RaryOS.Soundness

open RaryOS.Core RaryOS.Model

section Tss

variable {m : Memory} {gdt tss : ℕ} {stackKernelTop : BitVec 32}

theorem tssClear_other {place : ℕ} {count : ℕ} (outside : place < tss ∨ tss + 4 * count ≤ place) :
    tssClear tss count m place = m place := by
  induction count with
  | zero => rfl
  | succ ecx ih =>
    rw [tssClear, Memory.store32, Memory.store_apply_of_outside _ _ (by omega)]
    exact ih (by omega)

/-- `boot_main` writes to the task state segment and to its descriptor only. -/
theorem bootMainTss_other {place : ℕ} (segment : place < tss ∨ tss + 104 ≤ place)
    (descriptor : place < gdt + 24 ∨ gdt + 40 ≤ place) : bootMainTss m gdt tss stackKernelTop place = m place := by
  rw [bootMainTss]
  simp only [Memory.store32]
  simp (disch := omega) only [Memory.store_apply_of_outside, Memory.store8_apply_of_ne]
  exact tssClear_other (by omega)

theorem word_parts (word : BitVec 32) :
    (word >>> 24).setWidth 8 ++ ((word >>> 16).setWidth 8 ++ word.setWidth 16) = word := by
  ext i bound
  grind

/-- The segment whose descriptor is one of `gdt64`. -/
theorem read_gdt64 (linked : ∀ k < 56, m (gdt + k) = (gdt64.getD (k / 8) 0 >>> (8 * (k % 8))).setWidth 8)
    (apart : gdt + 56 ≤ tss ∨ tss + 104 ≤ gdt) {selector : BitVec 16} (inside : selector.toNat / 8 < 7)
    (other : selector.toNat / 8 ≠ 3 ∧ selector.toNat / 8 ≠ 4) :
    Segment.read (bootMainTss m gdt tss stackKernelTop) gdt selector =
      let high := gdt64.getD (selector.toNat / 8) 0 >>> 40
      { type := high.extractLsb' 0 4
        codeOrData := high.getLsbD 4
        dpl := high.extractLsb' 5 2
        present := high.getLsbD 7
        long := high.getLsbD 13 } := by
  generalize index : selector.toNat / 8 = n at inside other
  have byte (k : ℕ) (small : k < 8) : bootMainTss m gdt tss stackKernelTop (gdt + 8 * n + k) =
      (gdt64.getD n 0 >>> (8 * k)).setWidth 8 := by
    rw [bootMainTss_other (by omega) (by omega), Nat.add_assoc, linked _ (by omega)]
    have quotient : (8 * n + k) / 8 = n := by omega
    have rest : (8 * n + k) % 8 = k := by omega
    rw [quotient, rest]
  rw [Segment.read, index]
  dsimp only
  rw [byte 5 (by decide), byte 6 (by decide)]
  generalize gdt64.getD n 0 = descriptor
  rw [Segment.mk.injEq]
  refine ⟨?_, ?_, ?_, ?_, ?_⟩
  · ext i bound
    grind
  · grind
  · ext i bound
    grind
  · grind
  · grind

/-- `iretq` takes the five words that were pushed. -/
theorem enterUser_eq {c : Cpu} (room : 40 ≤ c.stack.sp.toNat) (stackTop entry : Reg) :
    ∃ mem, enterUser c stackTop entry =
      { c.setAx 0x2B with
        rip := (c.setAx 0x2B).regs entry
        cs := 0x33
        rflags := 0x202
        ss := 0x2B
        stack := ⟨mem, (c.setAx 0x2B).regs stackTop⟩ } := by
  have unfolded : enterUser c stackTop entry = ({ c.setAx 0x2B with
      rflags := c.rflags &&& ~~~(1#64 <<< 9)
      stack := c.stack.pushAll [0x2B, (c.setAx 0x2B).regs stackTop, 0x202, 0x33, (c.setAx 0x2B).regs entry] } :
      Cpu).iretq := rfl
  rw [unfolded]
  generalize (c.setAx 0x2B).regs stackTop = top
  generalize (c.setAx 0x2B).regs entry = start
  have room' : 8 * [0x2B, top, 0x202, 0x33, start].length ≤ c.stack.sp.toNat := room
  have words : wordsFrom (c.stack.pushAll [0x2B, top, 0x202, 0x33, start]).mem
      (c.stack.pushAll [0x2B, top, 0x202, 0x33, start]).sp.toNat 5 = [start, 0x33, 0x202, top, 0x2B] :=
    CallStack.wordsFrom_pushAll room'
  have word (k : ℕ) (inside : k < 5) := (CallStack.getElem?_wordsFrom
    (c.stack.pushAll [0x2B, top, 0x202, 0x33, start]).mem
    (c.stack.pushAll [0x2B, top, 0x202, 0x33, start]).sp.toNat inside).symm.trans (congrArg (·[k]?) words)
  refine ⟨(c.stack.pushAll [0x2B, top, 0x202, 0x33, start]).mem, ?_⟩
  rw [Cpu.iretq]
  dsimp only
  rw [Option.some.inj (word 0 (by decide)), Option.some.inj (word 1 (by decide)), Option.some.inj (word 2 (by decide)),
    Option.some.inj (word 3 (by decide)), Option.some.inj (word 4 (by decide))]
  rfl

/-- What `jump_to_user` pushes from a register: the write to `ax` replaces the low bits of one that is `rax`. -/
def pushedOperand (c : Cpu) (r : Reg) : BitVec 64 :=
  if r = .rax then (c.regs .rax).extractLsb' 16 48 ++ (0x2B : BitVec 16) else c.regs r

theorem setAx_regs (c : Cpu) (r : Reg) : (c.setAx 0x2B).regs r = pushedOperand c r := by
  rw [Cpu.setAx, Cpu.setReg, pushedOperand]
  dsimp only
  rw [Function.update_apply]

/-- The address of a page is pushed as it is unless it was in `rax`. -/
theorem pushedOperand_eq_iff {c : Cpu} {r : Reg} (page : (c.regs r).toNat % 4096 = 0) :
    pushedOperand c r = c.regs r ↔ r ≠ .rax := by
  constructor
  · rintro same rfl
    rw [pushedOperand, if_pos rfl] at same
    have low := congrArg (fun word => word.toNat % 4096) same
    have selector : (0x2B : BitVec 16).toNat = 43 := rfl
    rw [page, BitVec.toNat_append, selector, ← Nat.shiftLeft_add_eq_or_of_lt (by decide), Nat.shiftLeft_eq] at low
    omega
  · exact fun other => if_neg other

/-- After `boot_main` the descriptors stand for what the kernel uses their selectors for, the task register's segment
is the task state segment with the kernel's stack, no port is open to user mode, and `jump_to_user` gets there with
interrupts enabled. It gets to the entry point and onto the program's stack as far as the compiler has not put these
operands into `rax`; a stack pointer that was there is off by the selector. -/
theorem user_mode_entered (linked : ∀ k < 56, m (gdt + k) = (gdt64.getD (k / 8) 0 >>> (8 * (k % 8))).setWidth 8)
    (apart : gdt + 56 ≤ tss ∨ tss + 104 ≤ gdt) (low : tss < 2 ^ 32) :
    Segment.read (bootMainTss m gdt tss stackKernelTop) gdt 0x08 = ⟨0xA, true, 0, true, true⟩ ∧
    Segment.read (bootMainTss m gdt tss stackKernelTop) gdt 0x10 = ⟨2, true, 0, true, false⟩ ∧
    Segment.read (bootMainTss m gdt tss stackKernelTop) gdt 0x2B = ⟨2, true, 3, true, true⟩ ∧
    Segment.read (bootMainTss m gdt tss stackKernelTop) gdt 0x33 = ⟨0xA, true, 3, true, true⟩ ∧
    Segment.read (bootMainTss m gdt tss stackKernelTop) gdt 0x18 = ⟨9, false, 0, true, false⟩ ∧
    systemBase (bootMainTss m gdt tss stackKernelTop) (gdt + 24) = BitVec.ofNat 64 tss ∧
    systemLimit (bootMainTss m gdt tss stackKernelTop) (gdt + 24) = 103 ∧
    tssRsp0 (bootMainTss m gdt tss stackKernelTop) tss = stackKernelTop.setWidth 64 ∧
    (∀ rflags port, rflags.extractLsb' 12 2 ≠ (3 : BitVec 2) →
      portAllowed (bootMainTss m gdt tss stackKernelTop) tss
        (systemLimit (bootMainTss m gdt tss stackKernelTop) (gdt + 24)) rflags port = false) ∧
    ∀ (c : Cpu) (stackTop entry : Reg), 40 ≤ c.stack.sp.toNat →
      (enterUser c stackTop entry).cpl = 3 ∧
      (enterUser c stackTop entry).rip = pushedOperand c entry ∧
      (enterUser c stackTop entry).stack.sp = pushedOperand c stackTop ∧
      ((c.regs stackTop).toNat % 4096 = 0 →
        ((enterUser c stackTop entry).stack.sp = c.regs stackTop ↔ stackTop ≠ .rax)) ∧
      (enterUser c stackTop entry).rflags.getLsbD 9 = true ∧
      (enterUser c stackTop entry).rflags.extractLsb' 12 2 = 0 ∧
      (enterUser c stackTop entry).interruptStack (tssRsp0 (bootMainTss m gdt tss stackKernelTop) tss) =
        stackKernelTop.setWidth 64 &&& ~~~0xF := by
  have code := @read_gdt64 m gdt tss stackKernelTop linked apart 0x08 (by decide) (by decide)
  have data := @read_gdt64 m gdt tss stackKernelTop linked apart 0x10 (by decide) (by decide)
  have userData := @read_gdt64 m gdt tss stackKernelTop linked apart 0x2B (by decide) (by decide)
  have userCode := @read_gdt64 m gdt tss stackKernelTop linked apart 0x33 (by decide) (by decide)
  have bytes : bootMainTss m gdt tss stackKernelTop (gdt + 24 + 5) = 0x89 ∧
      bootMainTss m gdt tss stackKernelTop (gdt + 24 + 6) = 0 ∧
      bootMainTss m gdt tss stackKernelTop (gdt + 24 + 4) = (BitVec.ofNat 32 tss >>> 16).setWidth 8 ∧
      bootMainTss m gdt tss stackKernelTop (gdt + 24 + 7) = (BitVec.ofNat 32 tss >>> 24).setWidth 8 := by
    rw [bootMainTss]
    simp only [Memory.store32]
    simp (disch := omega) only [Memory.store_apply_of_outside, Memory.store8_apply_of_ne, Memory.store8_apply_same,
      and_self]
  obtain ⟨access, flags, base16, base24⟩ := bytes
  have words : (bootMainTss m gdt tss stackKernelTop).load (gdt + 24) 2 = 103 ∧
      (bootMainTss m gdt tss stackKernelTop).load (gdt + 24 + 2) 2 =
        ((BitVec.ofNat 32 tss).setWidth 16).toNat % 256 ^ 2 ∧
      (bootMainTss m gdt tss stackKernelTop).load (gdt + 24 + 8) 4 = 0 ∧
      (bootMainTss m gdt tss stackKernelTop).load (tss + 102) 2 = 104 ∧
      (bootMainTss m gdt tss stackKernelTop).load (tss + 4) 4 = stackKernelTop.toNat % 256 ^ 4 ∧
      (bootMainTss m gdt tss stackKernelTop).load (tss + 4 + 4) 4 = 0 := by
    rw [bootMainTss]
    simp only [Memory.store32]
    simp (disch := omega) only [Memory.load_store_of_disjoint, Memory.load_store8_of_disjoint, Memory.load_store_same]
    decide
  obtain ⟨limit, base0, base32, ioMap, stack, stackHigh⟩ := words
  have task : (0x18 : BitVec 16).toNat / 8 = 3 := by decide
  have base : systemBase (bootMainTss m gdt tss stackKernelTop) (gdt + 24) = BitVec.ofNat 64 tss := by
    have half : ((BitVec.ofNat 32 tss).setWidth 16).toNat < 256 ^ 2 := ((BitVec.ofNat 32 tss).setWidth 16).isLt
    rw [systemBase, base24, base16, base0, Memory.load32, base32, Nat.mod_eq_of_lt half, BitVec.ofNat_toNat,
      BitVec.setWidth_eq, word_parts]
    apply BitVec.eq_of_toNat_eq
    rw [BitVec.toNat_append, BitVec.toNat_ofNat, BitVec.toNat_ofNat, BitVec.toNat_ofNat, Nat.zero_mod,
      Nat.zero_shiftLeft, Nat.zero_or, Nat.mod_eq_of_lt low, Nat.mod_eq_of_lt (by omega)]
  have whole : systemLimit (bootMainTss m gdt tss stackKernelTop) (gdt + 24) = 103 := by
    rw [systemLimit, flags, limit]
    rfl
  have rsp0 : tssRsp0 (bootMainTss m gdt tss stackKernelTop) tss = stackKernelTop.setWidth 64 := by
    have pointer : stackKernelTop.toNat < 256 ^ 4 := stackKernelTop.isLt
    rw [tssRsp0, Memory.load64_eq_load32, Memory.load32, Memory.load32, stack, stackHigh, Nat.mod_eq_of_lt pointer]
    exact BitVec.ofNat_toNat ..
  refine ⟨code.trans (by decide), data.trans (by decide), userData.trans (by decide), userCode.trans (by decide), ?_,
    base, whole, rsp0, fun rflags port level => ?_, fun c stackTop entry room => ?_⟩
  · rw [Segment.read, task, access, flags]
    decide
  · rw [whole, portAllowed, ioMap, decide_eq_false level, Bool.false_or]
    have beyond : ¬(104 + port.toNat / 8 + 1 ≤ (103 : BitVec 20).toNat) := by
      change ¬(104 + port.toNat / 8 + 1 ≤ 103)
      omega
    rw [decide_eq_false beyond, Bool.false_and]
  · have user : BitVec.setWidth 2 (0x33 : BitVec 16) = 3 := by decide
    have flags : (0x202 : BitVec 64).getLsbD 9 = true ∧ (0x202 : BitVec 64).extractLsb' 12 2 = 0 := by decide
    have outer : ¬(3 : BitVec 2) = 0 := by decide
    obtain ⟨mem, entered⟩ := enterUser_eq room stackTop entry
    rw [entered, Cpu.interruptStack, Cpu.cpl, rsp0, user, if_neg outer]
    have pushed := setAx_regs c stackTop
    exact ⟨rfl, setAx_regs c entry, pushed, fun page => pushed ▸ pushedOperand_eq_iff page, flags.1, flags.2, rfl⟩

end Tss

/-- A memory with `gdt64` at 0x1000. -/
def sampleGdt (place : ℕ) : BitVec 8 :=
  (gdt64.getD ((place - 0x1000) / 8) 0 >>> (8 * ((place - 0x1000) % 8))).setWidth 8

/-- The kernel with `stack_top` = 0x120000 in `rax` and the entry point in `rdx`. -/
def sampleKernel : Cpu where
  regs := Function.update (Function.update (fun _ => 0) .rax 0x120000) .rdx 0x400000
  rip := 0x100000
  cs := 0x08
  rflags := 0x202
  ss := 0x10
  stack := ⟨sampleGdt, 0x9000⟩

/-- The program starts 43 bytes above the top of its stack. -/
theorem user_mode_entered_sample :
    systemBase (bootMainTss sampleGdt 0x1000 0x2000 0x9000) (0x1000 + 24) = 0x2000 ∧
      tssRsp0 (bootMainTss sampleGdt 0x1000 0x2000 0x9000) 0x2000 = 0x9000 ∧
      (enterUser sampleKernel .rax .rdx).rip = 0x400000 ∧
      (enterUser sampleKernel .rax .rdx).stack.sp = 0x12002B := by
  have linked : ∀ k < 56, sampleGdt (0x1000 + k) = (gdt64.getD (k / 8) 0 >>> (8 * (k % 8))).setWidth 8 := by
    intro k _
    rw [sampleGdt, Nat.add_sub_cancel_left]
  have entered := @user_mode_entered sampleGdt 0x1000 0x2000 0x9000 linked (by decide) (by decide)
  obtain ⟨_, _, _, _, _, base, _, rsp0, _, user⟩ := entered
  obtain ⟨_, start, top, _⟩ := user sampleKernel .rax .rdx (by decide)
  exact ⟨base, rsp0, start.trans (by decide), top.trans (by decide)⟩

end RaryOS.Soundness
