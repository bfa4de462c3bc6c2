import RaryOS.Core.Words
import RaryOS.Model.SysInfo

/-! # How the texts of the system information are copied

The copy loops write the part of their string that fits, and `cpu_get_brand` moves the brand over its own leading
spaces: it reads ahead of where it writes. Each field is written by itself, so what is in the fields before it stays.
-/

namespace RaryOS.Model

open RaryOS.Core

section Copy

variable {m : Memory} {s : SourceText} {area : ℕ → Prop} {text : List (BitVec 8)} {limit : Option ℕ}
  {dst i pos fuel : ℕ}

/-- The string is this text, and lies outside the area. -/
def SourceText.Is (s : SourceText) (m : Memory) (area : ℕ → Prop) (text : List (BitVec 8)) : Prop :=
  match s with
  | .literal bytes => bytes = text
  | .at address => m.Holds address (text ++ [0]) ∧ ∀ k ≤ text.length, ¬area (address + k)

theorem SourceText.Is.kept {m' : Memory} (is : s.Is m area text)
    (unchanged : ∀ place, ¬area place → m' place = m place) : s.Is m' area text := by
  cases s with
  | literal bytes => exact is
  | «at» address =>
    refine ⟨is.1.congr ?_, is.2⟩
    intro k inside
    rw [List.length_append, List.length_singleton] at inside
    exact unchanged _ (is.2 k (by omega))

theorem SourceText.Is.char_bind {α : Type} {f : BitVec 8 → Prog α} {canWrite : ℕ → Prop} {post : α → Memory → Prop}
    (is : s.Is m area text) (inside : i ≤ text.length)
    (rest : (f (text.getD i 0)).Ensures m (fun _ => True) canWrite post) :
    (s.char i >>= f).Ensures m (fun _ => True) canWrite post := by
  cases s with
  | literal bytes =>
    obtain rfl : bytes = text := is
    exact .pure_bind rest
  | «at» address =>
    apply Prog.Ensures.read_bind trivial
    have byte : m (address + i) = text.getD i 0 := by
      rw [(Memory.holds_iff _).mp is.1 i (by rw [List.length_append, List.length_singleton]; omega)]
      rcases Nat.lt_or_eq_of_le inside with before | rfl
      · rw [List.getElem_append_left before, List.getD_eq_getElem _ _ before]
      · rw [List.getElem_concat_length rfl, List.getD_eq_default _ _ le_rfl]
    rw [byte]
    exact rest

/-- The part of a text that is copied to `pos` and behind. -/
def fitting (limit : Option ℕ) (pos : ℕ) (text : List (BitVec 8)) : List (BitVec 8) :=
  match limit with
  | none => text
  | some limit => text.take (limit - pos)

theorem fitting_nil (limit : Option ℕ) (pos : ℕ) : fitting limit pos [] = [] := by
  cases limit with
  | none => rfl
  | some limit => exact List.take_nil

theorem fitting_cons (room : limit.all (pos < ·) = true) (c : BitVec 8) (rest : List (BitVec 8)) :
    fitting limit pos (c :: rest) = c :: fitting limit (pos + 1) rest := by
  cases limit with
  | none => rfl
  | some limit =>
    have below : pos < limit := of_decide_eq_true room
    rw [fitting, show limit - pos = limit - (pos + 1) + 1 by omega, List.take_succ_cons]
    rfl

theorem fitting_full (full : limit.all (pos < ·) ≠ true) (text : List (BitVec 8)) : fitting limit pos text = [] := by
  cases limit with
  | none => exact absurd rfl full
  | some limit =>
    have reached : ¬pos < limit := fun below => full (decide_eq_true below)
    rw [fitting, Nat.sub_eq_zero_of_le (Nat.le_of_not_lt reached), List.take_zero]

/-- The loop copies what fits of the text. -/
theorem copyText_ensures (is : s.Is m area text) (nonzero : 0 ∉ text) (inside : i ≤ text.length)
    (enough : (fitting limit pos (text.drop i)).length < fuel)
    (inArea : ∀ place, Span (dst + pos) (fitting limit pos (text.drop i)).length place → area place) :
    (copyText s dst limit fuel i pos).Ensures m (fun _ => True)
      (Span (dst + pos) (fitting limit pos (text.drop i)).length) fun n m' =>
        n = pos + (fitting limit pos (text.drop i)).length ∧
          m'.Holds (dst + pos) (fitting limit pos (text.drop i)) := by
  induction fuel generalizing m i pos with
  | zero => exact absurd enough (Nat.not_lt_zero _)
  | succ fuel ih =>
    rw [copyText]
    apply is.char_bind inside
    rcases Nat.lt_or_eq_of_le inside with before | rfl
    · rw [List.getD_eq_getElem _ _ before]
      rw [List.drop_eq_getElem_cons before] at enough inArea ⊢
      split
      · next more =>
        rw [fitting_cons more.2] at enough inArea ⊢
        rw [List.length_cons] at enough inArea ⊢
        have kept : s.Is (m.store8 (dst + pos) text[i]) area text := by
          apply is.kept
          intro place outside
          apply m.store8_apply_of_ne
          rintro rfl
          exact outside (inArea _ ⟨le_rfl, by omega⟩)
        have next : i + 1 ≤ text.length := before
        have rest : (copyText s dst limit fuel (i + 1) (pos + 1)).Ensures _ _ (Span (dst + pos + 1) _) _ :=
          ih kept next (by omega) fun place span => inArea place (span.widen (by omega) (by omega))
        apply (Prog.Ensures.write_cons rest).mono (fun _ good => good) (fun _ good => good)
        rintro n m' ⟨count, holds⟩
        exact ⟨by omega, holds⟩
      · next stop =>
        have full : limit.all (pos < ·) ≠ true := by
          intro room
          exact stop ⟨ne_of_mem_of_not_mem (List.getElem_mem before) nonzero, room⟩
        rw [fitting_full full]
        exact .pure ⟨rfl, trivial⟩
    · rw [List.getD_eq_default _ _ le_rfl, if_neg (fun more => more.1 rfl), List.drop_length, fitting_nil]
      exact .pure ⟨rfl, trivial⟩

/-- The copy from the beginning of the text. -/
theorem copyText_start_ensures (is : s.Is m area text) (nonzero : 0 ∉ text)
    (enough : (fitting limit pos text).length < fuel)
    (inArea : ∀ place, Span (dst + pos) (fitting limit pos text).length place → area place) :
    (copyText s dst limit fuel 0 pos).Ensures m (fun _ => True) (Span (dst + pos) (fitting limit pos text).length)
      fun n m' => n = pos + (fitting limit pos text).length ∧ m'.Holds (dst + pos) (fitting limit pos text) := by
  rw [← List.drop_zero (l := text)] at enough inArea ⊢
  exact copyText_ensures is nonzero (Nat.zero_le _) enough inArea

theorem copyTerminated_ensures (is : s.Is m area text) (nonzero : 0 ∉ text)
    (enough : (fitting limit pos text).length < fuel)
    (inArea : ∀ place, Span (dst + pos) (fitting limit pos text).length place → area place) :
    (copyTerminated s dst limit fuel pos).Ensures m (fun _ => True)
      (Span (dst + pos) ((fitting limit pos text).length + 1))
      fun _ m' => m'.Holds (dst + pos) (fitting limit pos text ++ [0]) := by
  apply Prog.Ensures.bind _ ((copyText_start_ensures is nonzero enough inArea).mono (fun _ good => good)
    (fun _ => Span.widen le_rfl (by omega)) fun _ _ post => post)
  rintro _ m' ⟨rfl, holds⟩
  rw [← Nat.add_assoc]
  exact .write ⟨by omega, by omega⟩ (holds.store8_snoc 0)

end Copy

section Brand

variable {m : Memory} {out : ℕ} {text : List (BitVec 8)}

/-- The text is moved down; what is read lies ahead of what is written. -/
theorem shiftText_ensures {i j fuel : ℕ} (holds : m.Holds (out + i) (text ++ [0])) (nonzero : 0 ∉ text) (ahead : j < i)
    (enough : text.length < fuel) :
    (shiftText out fuel j i).Ensures m (fun _ => True) (Span (out + j) text.length)
      fun n m' => n = j + text.length ∧ m'.Holds (out + j) text := by
  induction text generalizing m i j fuel with
  | nil =>
    obtain ⟨fuel, rfl⟩ := Nat.exists_eq_add_one_of_ne_zero (Nat.ne_zero_of_lt enough)
    have ended : m (out + i) = 0 := holds.1
    rw [shiftText]
    apply Prog.Ensures.read_bind trivial
    rw [if_neg (not_not.mpr ended)]
    exact .pure ⟨rfl, trivial⟩
  | cons c rest ih =>
    obtain ⟨fuel, rfl⟩ := Nat.exists_eq_add_one_of_ne_zero (Nat.ne_zero_of_lt enough)
    obtain ⟨here, further⟩ := holds
    rw [List.mem_cons, not_or] at nonzero
    rw [List.length_cons] at enough ⊢
    rw [shiftText]
    apply Prog.Ensures.read_bind trivial
    rw [here, if_pos (Ne.symm nonzero.1)]
    have kept : (m.store8 (out + j) c).Holds (out + (i + 1)) (rest ++ [0]) := by
      apply further.congr
      intro k _
      exact m.store8_apply_of_ne c (by omega)
    have behind : (shiftText out fuel (j + 1) (i + 1)).Ensures _ _ (Span (out + j + 1) _) _ :=
      ih kept nonzero.2 (by omega) (by omega)
    apply (Prog.Ensures.write_cons behind).mono (fun _ good => good) (fun _ good => good)
    rintro n m' ⟨count, moved⟩
    exact ⟨by omega, moved⟩

/-- The 48 bytes of the brand. -/
def brandBytes (cpuid : BitVec 32 → CpuidRegs) : List (BitVec 8) :=
  (cpuid 0x80000002).bytes ++ (cpuid 0x80000003).bytes ++ (cpuid 0x80000004).bytes

/-- The brand up to its terminator and without leading spaces; empty if the processor has none. -/
def brandText (cpuid : BitVec 32 → CpuidRegs) : List (BitVec 8) :=
  if (cpuid 0x80000000).a < 0x80000004 then []
  else ((brandBytes cpuid).takeWhile (· != 0)).dropWhile (· == ch ' ')

theorem length_brandBytes (cpuid : BitVec 32 → CpuidRegs) : (brandBytes cpuid).length = 48 := by
  have word : ∀ value, (leBytes 4 value).length = 4 := fun _ => List.length_map _
  have regs : ∀ r : CpuidRegs, r.bytes.length = 16 := by
    intro r
    rw [CpuidRegs.bytes, List.length_append, List.length_append, List.length_append, word, word, word, word]
  rw [brandBytes, List.length_append, List.length_append, regs, regs, regs]

theorem length_brandText (cpuid : BitVec 32 → CpuidRegs) : (brandText cpuid).length ≤ 48 := by
  rw [brandText]
  split
  · exact Nat.zero_le _
  · rw [← length_brandBytes cpuid]
    exact (List.dropWhile_suffix _).length_le.trans (List.takeWhile_prefix _).length_le

theorem brandText_nonzero (cpuid : BitVec 32 → CpuidRegs) : 0 ∉ brandText cpuid := by
  rw [brandText]
  split
  · exact List.not_mem_nil
  · intro member
    have kept := List.mem_takeWhile_imp ((List.dropWhile_suffix _).mem member)
    exact absurd kept (by decide)

/-- A string with a terminator behind it is one up to its first terminator. -/
theorem holds_upTo {bytes : List (BitVec 8)} (holds : m.Holds out (bytes ++ [0])) :
    m.Holds out (bytes.takeWhile (· != 0) ++ [0]) := by
  rw [← List.takeWhile_append_dropWhile (p := (· != 0)) (l := bytes), List.append_assoc, Memory.holds_append] at holds
  rw [Memory.holds_append]
  refine ⟨holds.1, ?_, trivial⟩
  cases stopped : bytes.dropWhile (· != 0) with
  | nil =>
    rw [stopped] at holds
    exact holds.2.1
  | cons c rest =>
    have zero := stops_at stopped
    rw [bne_eq_false_iff_eq] at zero
    rw [stopped, zero] at holds
    exact holds.2.1

/-- A string is moved over the spaces in front of it. -/
theorem trim_ensures {fuel : ℕ} (holds : m.Holds out (text ++ [0])) (nonzero : 0 ∉ text.dropWhile (· == ch ' '))
    (enough : text.length < fuel) :
    (Prog.skipWhile (· == ch ' ') fuel out >>= fun p =>
      if p - out > 0 then shiftText out fuel 0 (p - out) >>= fun j => Prog.write (out + j) 0
      else pure ()).Ensures m (fun _ => True) (Span out (text.length + 1))
        fun _ m' => m'.Holds out (text.dropWhile (· == ch ' ') ++ [0]) := by
  have solid : ∀ d ∈ text.takeWhile (· == ch ' '), (d == ch ' ') = true := by
    intro d member
    have space := List.mem_takeWhile_imp member
    exact space
  have split : text.takeWhile (· == ch ' ') ++ text.dropWhile (· == ch ' ') = text := List.takeWhile_append_dropWhile
  have first : ∀ c tail, text.dropWhile (· == ch ' ') = c :: tail → (c == ch ' ') = false := by
    intro c tail stopped
    have other := stops_at stopped
    exact other
  generalize text.takeWhile (· == ch ' ') = spaces at *
  generalize text.dropWhile (· == ch ' ') = rest at *
  obtain rfl := split
  rw [List.append_assoc] at holds
  rw [List.length_append] at enough ⊢
  apply Prog.Ensures.bind _ ((Prog.Ensures.skipWhile_string holds solid first (by decide) (by omega)).mono
    (fun _ _ => trivial) (fun _ never => never.elim) fun _ _ post => post)
  rintro _ m ⟨rfl, rfl⟩
  have behind := ((Memory.holds_append _ _).mp holds).2
  rw [Nat.add_sub_cancel_left]
  split
  · next moved =>
    apply Prog.Ensures.bind _ ((shiftText_ensures behind nonzero moved (show rest.length < fuel by omega)).mono
      (fun _ good => good) (fun _ => Span.widen le_rfl (by omega)) fun _ _ post => post)
    rintro _ m' ⟨rfl, moved'⟩
    rw [Nat.zero_add]
    exact .write ⟨by omega, by omega⟩ (moved'.store8_snoc 0)
  · next still =>
    rw [Nat.eq_zero_of_not_pos still] at behind
    exact .pure behind

/-- `cpu_get_brand` leaves the text of the brand with its terminator. -/
theorem cpuGetBrand_ensures (m : Memory) (cpuid : BitVec 32 → CpuidRegs) (out : ℕ) {fuel : ℕ} (enough : 49 ≤ fuel) :
    (cpuGetBrand cpuid out 64 fuel).Ensures m (fun _ => True) (Span out 49)
      fun _ m' => m'.Holds out (brandText cpuid ++ [0]) := by
  have clear := brandText_nonzero cpuid
  rw [cpuGetBrand, if_neg (by decide)]
  rw [brandText] at clear ⊢
  split
  · exact .write ⟨le_rfl, by omega⟩ ⟨m.store8_apply_same out 0, trivial⟩
  · next provided =>
    rw [if_neg provided] at clear
    have count := length_brandBytes cpuid
    rw [← brandBytes]
    generalize brandBytes cpuid = bytes at *
    apply Prog.Ensures.bind _ ((Prog.Ensures.writeBytes m _ out bytes).mono (fun _ good => good)
      (fun _ => Span.widen le_rfl (by omega)) fun _ _ post => post)
    rintro _ m holds
    apply Prog.Ensures.write_bind ⟨by omega, by omega⟩
    have string := holds_upTo (holds.store8_snoc 0)
    rw [count] at string
    have shorter : (bytes.takeWhile (· != 0)).length ≤ 48 := count ▸ (List.takeWhile_prefix _).length_le
    apply (trim_ensures string clear (by omega)).mono (fun _ good => good)
    · exact fun _ => Span.widen le_rfl (by omega)
    · exact fun _ _ trimmed => trimmed

end Brand

section Fields

variable {m : Memory} {area : ℕ → Prop} {fuel : ℕ}

/-- The first 30 characters of the vendor, a space, and as much of the board as fits in 63 characters. -/
def hostText (vendor board : List (BitVec 8)) : List (BitVec 8) := (vendor.take 30 ++ [ch ' '] ++ board).take 63

theorem length_hostText (vendor board : List (BitVec 8)) : (hostText vendor board).length ≤ 63 :=
  List.length_take_le _ _

theorem fillHost_ensures {vendor board : SourceText} {vendorText boardText : List (BitVec 8)} {host : ℕ}
    (isVendor : vendor.Is m area vendorText) (isBoard : board.Is m area boardText) (vendorNonzero : 0 ∉ vendorText)
    (boardNonzero : 0 ∉ boardText) (inArea : ∀ place, Span host 64 place → area place) (enough : 64 ≤ fuel) :
    (fillHost vendor board host fuel).Ensures m (fun _ => True) (Span host 64)
      fun _ m' => m'.Holds host (hostText vendorText boardText ++ [0]) := by
  have most : (vendorText.take 30).length ≤ 30 := List.length_take_le _ _
  have parts : hostText vendorText boardText =
      vendorText.take 30 ++ ([ch ' '] ++ boardText.take (63 - ((vendorText.take 30).length + 1))) := by
    have front : (vendorText.take 30 ++ [ch ' ']).length = (vendorText.take 30).length + 1 := List.length_append
    rw [hostText, List.take_append, front, List.take_of_length_le (by omega), List.append_assoc]
  have copied : fitting (some 30) 0 vendorText = vendorText.take 30 := rfl
  have short : (fitting (some 30) 0 vendorText).length ≤ 30 := most
  have first : (copyText vendor host (some 30) fuel 0 0).Ensures m _ _ _ :=
    copyText_start_ensures isVendor vendorNonzero (by omega) fun place span =>
      inArea place (span.widen (by omega) (by omega))
  rw [parts]
  rw [copied, Nat.add_zero, Nat.zero_add] at first
  generalize vendorText.take 30 = front at *
  rw [fillHost]
  apply Prog.Ensures.bind _ (first.framed.mono (fun _ good => good) (fun _ => Span.widen le_rfl (by omega))
    fun _ _ post => post)
  rintro _ m₁ ⟨⟨rfl, holds⟩, unchanged⟩
  apply Prog.Ensures.write_bind ⟨by omega, by omega⟩
  have isBoard' : board.Is (m₁.store8 (host + front.length) (ch ' ')) area boardText := by
    apply isBoard.kept
    intro place outside
    rw [Memory.store8_apply_of_ne, unchanged place]
    · exact fun span => outside (inArea place (span.widen le_rfl (by omega)))
    · rintro rfl
      exact outside (inArea _ ⟨by omega, by omega⟩)
  have taken : fitting (some 63) (front.length + 1) boardText = boardText.take (63 - (front.length + 1)) := rfl
  have rest : (fitting (some 63) (front.length + 1) boardText).length ≤ 63 - (front.length + 1) :=
    List.length_take_le _ _
  have second : (copyTerminated board host (some 63) fuel (front.length + 1)).Ensures _ _ _ _ :=
    copyTerminated_ensures isBoard' boardNonzero (by omega) fun place span =>
      inArea place (span.widen (by omega) (by omega))
  rw [taken] at rest second
  apply second.framed.mono (fun _ good => good) (fun _ => Span.widen (by omega) (by omega))
  rintro _ m' ⟨last, before⟩
  rw [List.append_assoc, List.append_assoc, Memory.holds_append, Memory.holds_append, List.length_singleton,
    Nat.add_assoc]
  refine ⟨holds.congr fun k inside => ?_, ⟨?_, trivial⟩, last⟩
  · rw [before _ (by rintro ⟨lower, -⟩; omega), Memory.store8_apply_of_ne _ _ (by omega)]
  · rw [before _ (by rintro ⟨lower, -⟩; omega), Memory.store8_apply_same]

/-- The brand, or `Unknown CPU` if there is none. -/
def cpuText (cpuid : BitVec 32 → CpuidRegs) : List (BitVec 8) :=
  if brandText cpuid = [] then unknownCpu else brandText cpuid

theorem length_cpuText (cpuid : BitVec 32 → CpuidRegs) : (cpuText cpuid).length ≤ 63 := by
  rw [cpuText]
  split
  · decide
  · exact (length_brandText cpuid).trans (by decide)

theorem literal_is (m : Memory) (area : ℕ → Prop) (text : List (BitVec 8)) :
    (SourceText.literal text).Is m area text := rfl

/-- A literal that is copied whole. -/
theorem copyLiteral_ensures (m : Memory) {text : List (BitVec 8)} (dst : ℕ) (nonzero : 0 ∉ text)
    (enough : text.length < fuel) :
    (copyTerminated (.literal text) dst none fuel 0).Ensures m (fun _ => True) (Span dst (text.length + 1))
      fun _ m' => m'.Holds dst (text ++ [0]) := by
  have copied : (copyTerminated (.literal text) dst none fuel 0).Ensures m _ _ _ :=
    copyTerminated_ensures (literal_is m (fun _ => True) text) nonzero enough fun _ _ => trivial
  rw [Nat.add_zero] at copied
  exact copied

theorem fillCpu_ensures (m : Memory) (cpuid : BitVec 32 → CpuidRegs) (cpu : ℕ) (enough : 64 ≤ fuel) :
    (fillCpu cpuid cpu fuel).Ensures m (fun _ => True) (Span cpu 64)
      fun _ m' => m'.Holds cpu (cpuText cpuid ++ [0]) := by
  have clear := brandText_nonzero cpuid
  apply Prog.Ensures.bind _ ((cpuGetBrand_ensures m cpuid cpu (by omega)).mono (fun _ good => good)
    (fun _ => Span.widen le_rfl (by omega)) fun _ _ post => post)
  rintro _ m' holds
  apply Prog.Ensures.read_bind trivial
  rw [cpuText]
  cases brand : brandText cpuid with
  | nil =>
    rw [brand] at holds
    rw [if_pos rfl, if_pos holds.1]
    apply (copyLiteral_ensures m' cpu (show 0 ∉ unknownCpu by decide) (show unknownCpu.length < fuel from ?_)).mono
      (fun _ good => good)
    · exact fun _ => Span.widen le_rfl (Nat.add_le_add_left (by decide) cpu)
    · exact fun _ _ post => post
    · exact Nat.lt_of_lt_of_le (by decide) enough
  | cons c rest =>
    rw [brand] at holds clear
    rw [List.mem_cons, not_or] at clear
    rw [if_neg (List.cons_ne_nil _ _), if_neg (holds.1 ▸ Ne.symm clear.1)]
    exact .pure holds

end Fields

end RaryOS.Model
