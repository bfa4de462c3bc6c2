import RaryOS.Model.HidKeyboard

/-! # The walk of `find_hid_keyboard`

For a total length that is not close to 2^32 the offsets do not wrap around, and an iteration is described
in exact arithmetic. Where the walk goes is decided by the bytes: `HidReaches` follows the lengths of the
descriptors and keeps the flag for the last interface.
-/

namespace RaryOS.Model

open RaryOS.Core

/-- Byte `k` of the descriptor at `off`. -/
def descByte (cfg : Memory) (off k : ℕ) : ℕ := (cfg (off + k)).toNat

/-- The descriptor at `off` is an interface, as far as `total` goes. -/
def InterfaceAt (cfg : Memory) (total off : ℕ) : Prop := descByte cfg off 1 = usbDescInterface ∧ off + 9 ≤ total

/-- An interface with the class, subclass and protocol of a boot keyboard. -/
def BootKeyboardAt (cfg : Memory) (off : ℕ) : Prop :=
  descByte cfg off 5 = 3 ∧ descByte cfg off 6 = 1 ∧ descByte cfg off 7 = 1

/-- The descriptor at `off` is an endpoint of type interrupt and direction IN. -/
def InterruptInAt (cfg : Memory) (total off : ℕ) : Prop :=
  descByte cfg off 1 = usbDescEndpoint ∧ off + 7 ≤ total ∧ descByte cfg off 3 % 4 = 3 ∧ 128 ≤ descByte cfg off 2

instance (cfg : Memory) (total off : ℕ) : Decidable (InterfaceAt cfg total off) :=
  inferInstanceAs (Decidable (_ ∧ _))

instance (cfg : Memory) (off : ℕ) : Decidable (BootKeyboardAt cfg off) := inferInstanceAs (Decidable (_ ∧ _))

instance (cfg : Memory) (total off : ℕ) : Decidable (InterruptInAt cfg total off) :=
  inferInstanceAs (Decidable (_ ∧ _))

/-- The values at the endpoint at `off`. -/
def endpointOut (cfg : Memory) (off : ℕ) (out : HidKeyboard) : HidKeyboard :=
  { out with
    epAddr := descByte cfg off 2
    mps := descByte cfg off 4 + 256 * descByte cfg off 5
    interval := descByte cfg off 6 }

/-! ## Exact arithmetic -/

section Exact

variable {cfg : Memory} {total off k : ℕ}

theorem cfgByte_eq (cfg : Memory) (small : off + k < 2 ^ 32) : cfgByte cfg off k = descByte cfg off k := by
  rw [cfgByte, descByte, Nat.mod_eq_of_lt small]

theorem cfgHas_iff (total : ℕ) (small : off + k < 2 ^ 32) : cfgHas total off k = true ↔ off + k ≤ total := by
  rw [cfgHas, Nat.mod_eq_of_lt small, decide_eq_true_eq]

theorem descByte_lt (cfg : Memory) (off k : ℕ) : descByte cfg off k < 256 := (cfg (off + k)).isLt

theorem and_three_eq (n : ℕ) : n &&& 0x03 = n % 4 := Nat.and_two_pow_sub_one_eq_mod n 2

theorem and_high_bit_ne_zero_iff {n : ℕ} (byte : n < 256) : n &&& 0x80 ≠ 0 ↔ 128 ≤ n := by
  rw [show n &&& 0x80 = (n.testBit 7).toNat * 2 ^ 7 from Nat.and_two_pow n 7,
    Nat.testBit_eq_decide_div_mod_eq]
  by_cases high : n / 2 ^ 7 % 2 = 1
  · rw [decide_eq_true high]
    simp only [Bool.toNat_true]
    omega
  · rw [decide_eq_false high]
    simp only [Bool.toNat_false]
    omega

theorem or_shiftLeft_eight {low : ℕ} (byte : low < 256) (high : ℕ) : low ||| high <<< 8 = low + 256 * high := by
  rw [Nat.or_comm, Nat.shiftLeft_eq, Nat.mul_comm high, ← Nat.two_pow_add_eq_or_of_lt byte]
  omega

theorem isBootKeyboard_iff (small : off + 9 < 2 ^ 32) : isBootKeyboard cfg off = true ↔ BootKeyboardAt cfg off := by
  rw [isBootKeyboard, cfgByte_eq cfg (by omega), cfgByte_eq cfg (by omega), cfgByte_eq cfg (by omega),
    decide_eq_true_eq, BootKeyboardAt]

theorem isInterruptIn_iff (small : off + 9 < 2 ^ 32) :
    isInterruptIn cfg off = true ↔ descByte cfg off 3 % 4 = 3 ∧ 128 ≤ descByte cfg off 2 := by
  rw [isInterruptIn, cfgByte_eq cfg (by omega), cfgByte_eq cfg (by omega), decide_eq_true_eq, and_three_eq,
    and_high_bit_ne_zero_iff (descByte_lt cfg off 2)]

theorem withEndpoint_eq (small : off + 9 < 2 ^ 32) (out : HidKeyboard) :
    out.withEndpoint cfg off = endpointOut cfg off out := by
  rw [HidKeyboard.withEndpoint, cfgByte_eq cfg (by omega), cfgByte_eq cfg (by omega), cfgByte_eq cfg (by omega),
    cfgByte_eq cfg (by omega), or_shiftLeft_eight (descByte_lt cfg off 4), endpointOut]

/-- An iteration without wrapping around. -/
theorem findHidKeyboardBody_eq {s : HidScan} (small : s.off + 512 ≤ 2 ^ 32) :
    findHidKeyboardBody cfg total s =
      if s.off + 2 ≤ total then
        if descByte cfg s.off 0 = 0 then .inr (-1, s.out)
        else if InterfaceAt cfg total s.off then
          .inl
            { off := s.off + descByte cfg s.off 0
              inHidIface := decide (BootKeyboardAt cfg s.off)
              out := if BootKeyboardAt cfg s.off then { s.out with iface := descByte cfg s.off 2 } else s.out }
        else if s.inHidIface = true ∧ InterruptInAt cfg total s.off then .inr (0, endpointOut cfg s.off s.out)
        else .inl { s with off := s.off + descByte cfg s.off 0 }
      else .inr (-1, s.out) := by
  have length := descByte_lt cfg s.off 0
  have next : (s.off + descByte cfg s.off 0) % 2 ^ 32 = s.off + descByte cfg s.off 0 :=
    Nat.mod_eq_of_lt (by omega)
  simp only [findHidKeyboardBody, cfgHas_iff total (show s.off + 2 < 2 ^ 32 by omega),
    cfgHas_iff total (show s.off + 9 < 2 ^ 32 by omega), cfgHas_iff total (show s.off + 7 < 2 ^ 32 by omega),
    cfgByte_eq cfg (show s.off + 0 < 2 ^ 32 by omega), cfgByte_eq cfg (show s.off + 1 < 2 ^ 32 by omega),
    cfgByte_eq cfg (show s.off + 2 < 2 ^ 32 by omega), withEndpoint_eq (show s.off + 9 < 2 ^ 32 by omega),
    isBootKeyboard_iff (show s.off + 9 < 2 ^ 32 by omega), isInterruptIn_iff (show s.off + 9 < 2 ^ 32 by omega),
    HidScan.advance, InterfaceAt, InterruptInAt, next]
  refine if_congr Iff.rfl (if_congr Iff.rfl rfl (if_congr Iff.rfl ?_ (if_congr (by tauto) rfl rfl))) rfl
  by_cases boot : BootKeyboardAt cfg s.off
  · simp only [if_pos boot, decide_eq_true boot, next]
  · simp only [if_neg boot, decide_eq_false boot, next]

end Exact

/-! ## Where the walk goes -/

/-- The flag after the descriptor at `off`. -/
def hidFlag (cfg : Memory) (total off : ℕ) (inHidIface : Bool) : Bool :=
  if InterfaceAt cfg total off then decide (BootKeyboardAt cfg off) else inHidIface

/-- The walk stops at `off` with the endpoint of the keyboard. -/
structure KeyboardEndpointAt (cfg : Memory) (total off : ℕ) (inHidIface : Bool) : Prop where
  inHid : inHidIface = true
  length : descByte cfg off 0 ≠ 0
  endpoint : InterruptInAt cfg total off

/-- The walk goes on after the descriptor at `off`. -/
structure HidContinues (cfg : Memory) (total off : ℕ) (inHidIface : Bool) : Prop where
  inside : off + 2 ≤ total
  length : descByte cfg off 0 ≠ 0
  other : ¬KeyboardEndpointAt cfg total off inHidIface

/-- The walk comes to `off` with this flag. -/
inductive HidReaches (cfg : Memory) (total : ℕ) : ℕ → Bool → Prop
  | start : HidReaches cfg total 0 false
  | next {off : ℕ} {inHidIface : Bool} : HidReaches cfg total off inHidIface →
      HidContinues cfg total off inHidIface →
        HidReaches cfg total (off + descByte cfg off 0) (hidFlag cfg total off inHidIface)

section Walk

variable {cfg : Memory} {total off : ℕ} {inHidIface : Bool} {s : HidScan}

theorem HidReaches.le (reaches : HidReaches cfg total off inHidIface) : off ≤ total + 255 := by
  cases reaches with
  | start => exact Nat.zero_le _
  | @next off _ _ continues =>
    have length := descByte_lt cfg off 0
    have inside := continues.inside
    omega

/-- An interface is not an endpoint. -/
theorem InterfaceAt.not_interruptIn (interface : InterfaceAt cfg total off) : ¬InterruptInAt cfg total off := by
  intro endpoint
  have types := interface.1.symm.trans endpoint.1
  exact absurd types (by decide)

/-- An iteration after which the loop goes on. -/
theorem findHidKeyboardBody_continues (small : s.off + 512 ≤ 2 ^ 32)
    (continues : HidContinues cfg total s.off s.inHidIface) :
    ∃ out, findHidKeyboardBody cfg total s =
      .inl ⟨s.off + descByte cfg s.off 0, hidFlag cfg total s.off s.inHidIface, out⟩ ∧
      (InterfaceAt cfg total s.off → BootKeyboardAt cfg s.off → out.iface = descByte cfg s.off 2) ∧
      (¬InterfaceAt cfg total s.off → out = s.out) := by
  obtain ⟨inside, length, other⟩ := continues
  rw [findHidKeyboardBody_eq small, if_pos inside, if_neg length]
  by_cases interface : InterfaceAt cfg total s.off
  · rw [if_pos interface, hidFlag, if_pos interface]
    refine ⟨_, rfl, fun _ boot => ?_, fun absent => absurd interface absent⟩
    rw [if_pos boot]
  · rw [if_neg interface, hidFlag, if_neg interface,
      if_neg fun found => other ⟨found.1, length, found.2⟩]
    exact ⟨_, rfl, fun present => absurd present interface, fun _ => rfl⟩

/-- An iteration after which it does not. -/
theorem findHidKeyboardBody_stops (small : s.off + 512 ≤ 2 ^ 32)
    (stops : ¬HidContinues cfg total s.off s.inHidIface) :
    (KeyboardEndpointAt cfg total s.off s.inHidIface ∧
        findHidKeyboardBody cfg total s = .inr (0, endpointOut cfg s.off s.out)) ∨
      (¬KeyboardEndpointAt cfg total s.off s.inHidIface ∧
        findHidKeyboardBody cfg total s = .inr (-1, s.out)) := by
  rw [findHidKeyboardBody_eq small]
  by_cases found : KeyboardEndpointAt cfg total s.off s.inHidIface
  · obtain ⟨inHid, length, endpoint⟩ := found
    have inside := endpoint.2.1
    rw [if_pos (by omega), if_neg length, if_neg fun interface => interface.not_interruptIn endpoint,
      if_pos ⟨inHid, endpoint⟩]
    exact Or.inl ⟨⟨inHid, length, endpoint⟩, rfl⟩
  · refine Or.inr ⟨found, ?_⟩
    by_cases inside : s.off + 2 ≤ total
    · by_cases length : descByte cfg s.off 0 = 0
      · rw [if_pos inside, if_pos length]
      · exact absurd ⟨inside, length, found⟩ stops
    · rw [if_neg inside]

/-- The loop goes on only as the walk does. -/
theorem continues_of_inl (small : s.off + 512 ≤ 2 ^ 32) {next : HidScan}
    (step : findHidKeyboardBody cfg total s = .inl next) :
    HidContinues cfg total s.off s.inHidIface ∧ next.off = s.off + descByte cfg s.off 0 ∧
      next.inHidIface = hidFlag cfg total s.off s.inHidIface := by
  by_cases continues : HidContinues cfg total s.off s.inHidIface
  · obtain ⟨out, goes, _⟩ := findHidKeyboardBody_continues small continues
    rw [goes] at step
    cases step
    exact ⟨continues, rfl, rfl⟩
  · rcases findHidKeyboardBody_stops small continues with ⟨_, stops⟩ | ⟨_, stops⟩ <;>
      rw [stops] at step <;> cases step

/-- The loop comes to exactly the descriptors of the walk. -/
theorem hidReaches_of_reaches (small : total + 1024 ≤ 2 ^ 32)
    (reaches : Reaches (findHidKeyboardBody cfg total) {} s) : HidReaches cfg total s.off s.inHidIface := by
  refine reaches.invariant (fun s => HidReaches cfg total s.off s.inHidIface) .start fun s next here step => ?_
  have near := here.le
  obtain ⟨continues, off, flag⟩ := continues_of_inl (by omega) step
  rw [off, flag]
  exact .next here continues

theorem reaches_of_hidReaches (small : total + 1024 ≤ 2 ^ 32) (walk : HidReaches cfg total off inHidIface) :
    ∃ out, Reaches (findHidKeyboardBody cfg total) {} ⟨off, inHidIface, out⟩ := by
  induction walk with
  | start => exact ⟨{}, .refl⟩
  | @next off inHidIface here continues ih =>
    obtain ⟨out, reaches⟩ := ih
    have near := here.le
    obtain ⟨out', goes, _⟩ := findHidKeyboardBody_continues (s := ⟨off, inHidIface, out⟩)
      (by simp only; omega) continues
    exact ⟨out', reaches.tail goes⟩

/-- `find_hid_keyboard` always returns. -/
theorem findHidKeyboard_eq_some_iff (small : total + 1024 ≤ 2 ^ 32) {result : ℤ × HidKeyboard} :
    findHidKeyboard cfg total = some result ↔ Returns (findHidKeyboardBody cfg total) {} result := by
  obtain ⟨value, done⟩ : ∃ value, findHidKeyboard cfg total = some value := by
    refine loop_of_measure (Reaches (findHidKeyboardBody cfg total) {}) (fun s => total - s.off) ?_ .refl
      (Nat.sub_le _ _)
    intro s next reaches step
    have here := hidReaches_of_reaches small reaches
    have near := here.le
    refine ⟨reaches.tail step, ?_⟩
    obtain ⟨continues, off, _⟩ := continues_of_inl (by omega) step
    have inside := continues.inside
    have length := continues.length
    omega
  constructor
  · exact fun found => ⟨_, found⟩
  · intro returns
    rw [done, Returns.unique ⟨_, done⟩ returns]

/-- The values are those of the endpoint that the walk comes to. -/
theorem findHidKeyboard_values (small : total + 1024 ≤ 2 ^ 32) (walk : HidReaches cfg total off true)
    (here : KeyboardEndpointAt cfg total off true) {result : ℤ × HidKeyboard}
    (found : findHidKeyboard cfg total = some result) : ∃ out, result = (0, endpointOut cfg off out) := by
  have near := walk.le
  obtain ⟨out, reaches⟩ := reaches_of_hidReaches small walk
  have returns := reaches.returns_iff.mp ((findHidKeyboard_eq_some_iff small).mp found)
  have ends : ¬HidContinues cfg total off true := fun continues => continues.other here
  rcases findHidKeyboardBody_stops (s := ⟨off, true, out⟩) (by simp only; omega) ends with ⟨_, stops⟩ | ⟨absent, _⟩
  · exact ⟨out, ((Returns.stop_iff stops).mp returns).symm⟩
  · exact absurd here absent

/-- With the result 0 the walk came to an endpoint of a keyboard. -/
theorem findHidKeyboard_endpoint (small : total + 1024 ≤ 2 ^ 32) {k : HidKeyboard}
    (found : findHidKeyboard cfg total = some (0, k)) :
    ∃ off, HidReaches cfg total off true ∧ KeyboardEndpointAt cfg total off true := by
  have returns := (findHidKeyboard_eq_some_iff small).mp found
  refine returns.invariant (Reaches (findHidKeyboardBody cfg total) {})
    (fun result => result.1 = 0 → ∃ off, HidReaches cfg total off true ∧ KeyboardEndpointAt cfg total off true) .refl
    (fun s next reaches step => reaches.tail step) (fun s result reaches step zero => ?_) rfl
  have walk := hidReaches_of_reaches small reaches
  have near := walk.le
  have stops : ¬HidContinues cfg total s.off s.inHidIface := by
    intro continues
    obtain ⟨out, goes, _⟩ := findHidKeyboardBody_continues (by omega) continues
    rw [goes] at step
    cases step
  rcases findHidKeyboardBody_stops (by omega) stops with ⟨here, _⟩ | ⟨_, absent⟩
  · have flag := here.inHid
    rw [flag] at walk here
    exact ⟨s.off, walk, here⟩
  · rw [absent] at step
    cases step
    exact absurd zero (show ¬(-1 : ℤ) = 0 by decide)

end Walk

end RaryOS.Model
