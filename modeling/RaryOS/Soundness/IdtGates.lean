import RaryOS.Model.Idt

/-! # The gates after `init_idt`

The processor finds for every vector the stub of that vector, or no gate.
-/

namespace RaryOS.Soundness

open RaryOS.Core RaryOS.Model

variable {symbol : Stub → BitVec 64} {idt : ℕ} {m : Memory}

/-- The gate of some fields. -/
def gateOf (base : BitVec 64) (sel : BitVec 16) (flags : BitVec 8) : Gate where
  offset := base
  selector := sel
  ist := 0
  type := flags.extractLsb' 0 4
  dpl := flags.extractLsb' 5 2
  present := flags.getLsbD 7

theorem base_parts (base : BitVec 64) :
    ((base >>> 32) &&& 0xFFFFFFFF).setWidth 32 ++ (((base >>> 16) &&& 0xFFFF).setWidth 16 ++
      (base &&& 0xFFFF).setWidth 16) = base := by
  have mid : ((base >>> 16) &&& 0xFFFF).setWidth 16 = (base >>> 16).setWidth 16 :=
    (BitVec.setWidth_and ..).trans BitVec.and_allOnes
  have low : (base &&& 0xFFFF).setWidth 16 = base.setWidth 16 := (BitVec.setWidth_and ..).trans BitVec.and_allOnes
  have high : ((base >>> 32) &&& 0xFFFFFFFF).setWidth 32 = (base >>> 32).setWidth 32 :=
    (BitVec.setWidth_and ..).trans BitVec.and_allOnes
  rw [high, mid, low]
  ext i bound
  grind

theorem ofNat_load_store {w n : ℕ} (m : Memory) (address : ℕ) (value : BitVec w) (width : 256 ^ n = 2 ^ w) :
    BitVec.ofNat w ((m.store address n value.toNat).load address n) = value := by
  rw [Memory.load_store_same, width, Nat.mod_eq_of_lt value.isLt, BitVec.ofNat_toNat, BitVec.setWidth_eq]

/-- The processor reads the fields that were set. -/
theorem read_idtSetGate (num : BitVec 8) (base : BitVec 64) (sel : BitVec 16) (flags : BitVec 8) :
    Gate.read (idtSetGate idt m num base sel flags) (idt + 16 * num.toNat) = gateOf base sel flags := by
  generalize here : idt + 16 * num.toNat = entry
  have bytes : idtSetGate idt m num base sel flags (entry + 4) = 0 ∧
      idtSetGate idt m num base sel flags (entry + 5) = flags := by
    rw [idtSetGate, here]
    constructor
    · rw [Memory.store_apply_of_outside _ _ (by omega), Memory.store8_apply_of_ne _ _ (by omega)]
      exact Memory.store8_apply_same _ _ _
    · rw [Memory.store_apply_of_outside _ _ (by omega)]
      exact Memory.store8_apply_same _ _ _
  rw [Gate.read, gateOf, bytes.1, bytes.2, idtSetGate, here]
  simp (disch := omega) only [Memory.load_store_of_disjoint, Memory.load_store8_of_disjoint]
  rw [ofNat_load_store _ _ _ rfl, ofNat_load_store _ _ _ rfl, ofNat_load_store _ _ _ rfl, ofNat_load_store _ _ _ rfl,
    base_parts]
  rfl

/-- A gate depends on its 16 bytes. -/
theorem Gate.read_congr {m m' : Memory} {entry : ℕ} (same : ∀ k < 16, m' (entry + k) = m (entry + k)) :
    Gate.read m' entry = Gate.read m entry := by
  have word (k n : ℕ) (inside : k + n ≤ 16) : m'.load (entry + k) n = m.load (entry + k) n :=
    Memory.load_eq_of_bytes fun i bound => by
      rw [Nat.add_assoc]
      exact same (k + i) (by omega)
  have first := word 0 2 (by decide)
  rw [Nat.add_zero] at first
  rw [Gate.read, Gate.read, same 4 (by decide), same 5 (by decide), word 2 2 (by decide), word 6 2 (by decide),
    word 8 4 (by decide), first]

/-- The other entries stay. -/
theorem read_idtSetGate_other {num v : BitVec 8} (other : v ≠ num) (base : BitVec 64) (sel : BitVec 16)
    (flags : BitVec 8) :
    Gate.read (idtSetGate idt m num base sel flags) (idt + 16 * v.toNat) = Gate.read m (idt + 16 * v.toNat) := by
  have apart : v.toNat < num.toNat ∨ num.toNat < v.toNat :=
    Nat.lt_or_gt_of_ne fun same => other (BitVec.eq_of_toNat_eq same)
  apply Gate.read_congr
  intro k inside
  rw [idtSetGate]
  simp (disch := omega) only [Memory.store_apply_of_outside, Memory.store8_apply_of_ne]

/-- Gates that are set for vectors in a row. -/
theorem read_foldl_idtSetGate {c n : ℕ} (fits : c + n ≤ 256) (base : ℕ → BitVec 64) (sel : BitVec 16)
    (flags v : BitVec 8) :
    Gate.read ((List.range n).foldl (fun m i => idtSetGate idt m (BitVec.ofNat 8 (c + i)) (base i) sel flags) m)
        (idt + 16 * v.toNat) =
      if c ≤ v.toNat ∧ v.toNat < c + n then gateOf (base (v.toNat - c)) sel flags
      else Gate.read m (idt + 16 * v.toNat) := by
  induction n with
  | zero => rw [if_neg (by omega), List.range_zero, List.foldl_nil]
  | succ n ih =>
    have last : (BitVec.ofNat 8 (c + n)).toNat = c + n := by
      rw [BitVec.toNat_ofNat]
      omega
    rw [List.range_succ, List.foldl_append, List.foldl_cons, List.foldl_nil]
    rcases em (v = BitVec.ofNat 8 (c + n)) with rfl | other
    · rw [read_idtSetGate, last, if_pos (by omega), Nat.add_sub_cancel_left]
    · have apart : v.toNat ≠ c + n := fun same => other (BitVec.eq_of_toNat_eq (same.trans last.symm))
      have before : (c ≤ v.toNat ∧ v.toNat < c + n) ↔ (c ≤ v.toNat ∧ v.toNat < c + (n + 1)) := by omega
      rw [read_idtSetGate_other other, ih (by omega), if_congr before rfl rfl]

theorem initIdt_gate (symbol : Stub → BitVec 64) (idtPtr idt : ℕ) (m : Memory) (v : BitVec 8) :
    Gate.read (initIdt symbol idtPtr idt m).1 (idt + 16 * v.toNat) = kernelGate symbol v := by
  have bound := v.isLt
  have blank (m : Memory) := @read_foldl_idtSetGate idt m 0 idtEntries (by decide) (fun _ => 0) 0 0 v
  have isrs (m : Memory) := @read_foldl_idtSetGate idt m 0 32 (by decide) (fun i => symbol (.isr (BitVec.ofNat 8 i)))
    0x08 0x8E v
  have irqs (m : Memory) :=
    @read_foldl_idtSetGate idt m 32 irqStubCount (by decide) (fun i => symbol (.irq (BitVec.ofNat 8 (32 + i))))
      0x08 0x8E v
  simp only [Nat.zero_add, Nat.zero_le, true_and, Nat.sub_zero] at blank isrs
  rw [initIdt, kernelGate]
  rcases em (v = 0x80) with rfl | notCall
  · exact read_idtSetGate _ _ _ _
  have number : BitVec.ofNat 8 v.toNat = v := by rw [BitVec.ofNat_toNat, BitVec.setWidth_eq]
  rw [read_idtSetGate_other notCall, irqs, isrs, blank, if_pos (show v.toNat < idtEntries from bound), if_neg notCall,
    stubOf, if_neg notCall, irqStubCount]
  rcases Nat.lt_or_ge v.toNat 32 with exception | above
  · rw [if_neg (by omega), if_pos exception, if_pos exception, number]
    rfl
  rcases Nat.lt_or_ge v.toNat 80 with irq | beyond
  · rw [if_pos ⟨above, irq⟩, if_neg (Nat.not_lt.mpr above), if_pos irq, Nat.add_sub_cancel' above, number]
    rfl
  · rw [if_neg (by omega), if_neg (Nat.not_lt.mpr above), if_neg (Nat.not_lt.mpr above), if_neg (Nat.not_lt.mpr beyond)]
    rfl

theorem idtSetGate_other {num : BitVec 8} {base : BitVec 64} {sel : BitVec 16} {flags : BitVec 8} {place : ℕ}
    (outside : place < idt ∨ idt + 4096 ≤ place) : idtSetGate idt m num base sel flags place = m place := by
  have bound := num.isLt
  rw [idtSetGate]
  simp (disch := omega) only [Memory.store_apply_of_outside, Memory.store8_apply_of_ne]

theorem foldl_idtSetGate_other (num : ℕ → BitVec 8) (base : ℕ → BitVec 64) (sel : BitVec 16) (flags : BitVec 8)
    {place : ℕ} (outside : place < idt ∨ idt + 4096 ≤ place) (indices : List ℕ) :
    indices.foldl (fun m i => idtSetGate idt m (num i) (base i) sel flags) m place = m place := by
  induction indices generalizing m with
  | nil => rfl
  | cons i rest ih => rw [List.foldl_cons, ih, idtSetGate_other outside]

theorem initIdt_other {idtPtr place : ℕ} (outside : place < idt ∨ idt + 4096 ≤ place) :
    (initIdt symbol idtPtr idt m).1 place =
      (m.store idtPtr 2 (16 * idtEntries - 1)).store (idtPtr + 2) 8 idt place := by
  rw [initIdt]
  refine (idtSetGate_other outside).trans ?_
  exact (foldl_idtSetGate_other _ _ _ _ outside _).trans ((foldl_idtSetGate_other _ _ _ _ outside _).trans
    (foldl_idtSetGate_other _ _ _ _ outside _))

/-- `lidt` finds what was stored in front of the gates. -/
theorem initIdt_flush {idtPtr : ℕ} (apart : idtPtr + 10 ≤ idt ∨ idt + 4096 ≤ idtPtr) :
    (initIdt symbol idtPtr idt m).2 = ⟨4095, BitVec.ofNat 64 idt⟩ := by
  have stays {address n : ℕ} (inside : idtPtr ≤ address ∧ address + n ≤ idtPtr + 10) :
      (initIdt symbol idtPtr idt m).1.load address n =
        ((m.store idtPtr 2 (16 * idtEntries - 1)).store (idtPtr + 2) 8 idt).load address n :=
    Memory.load_congr fun place _ _ => initIdt_other (by omega)
  have limit : BitVec.ofNat 16 ((initIdt symbol idtPtr idt m).1.load idtPtr 2) = 4095 := by
    rw [stays (by omega), Memory.load_store_of_disjoint _ _ (by omega), Memory.load_store_same]
    rfl
  have base : BitVec.ofNat 64 ((initIdt symbol idtPtr idt m).1.load (idtPtr + 2) 8) = BitVec.ofNat 64 idt := by
    rw [stays (by omega), Memory.load_store_same]
    apply BitVec.eq_of_toNat_eq
    rw [BitVec.toNat_ofNat, BitVec.toNat_ofNat]
    exact Nat.mod_mod _ _
  exact congr (congrArg Idtr.mk limit) base

/-- `init_idt` writes the table and `idt_ptr` only. Afterwards the processor finds for every vector the gate that
leads to its stub: an interrupt gate of the kernel's code segment, which only for system calls is open to user
programs. Where the two objects lie apart, its register holds the table's address, and a limit that takes in all
256 gates. -/
theorem idt_leads_to_stubs (symbol : Stub → BitVec 64) (idtPtr idt : ℕ) (m : Memory) :
    (∀ v : BitVec 8, Gate.read (initIdt symbol idtPtr idt m).1 (idt + 16 * v.toNat) = kernelGate symbol v) ∧
      (idtPtr + 10 ≤ idt ∨ idt + 4096 ≤ idtPtr →
        (initIdt symbol idtPtr idt m).2 = ⟨4095, BitVec.ofNat 64 idt⟩) ∧
      ∀ place, place < idt ∨ idt + 4096 ≤ place → place < idtPtr ∨ idtPtr + 10 ≤ place →
        (initIdt symbol idtPtr idt m).1 place = m place := by
  refine ⟨initIdt_gate symbol idtPtr idt m, initIdt_flush, fun place table pointer => ?_⟩
  rw [initIdt_other table, Memory.store_apply_of_outside _ _ (by omega), Memory.store_apply_of_outside _ _ (by omega)]

end RaryOS.Soundness
