import RaryOS.Model.Commands
import RaryOS.Soundness.PrintfText
import RaryOS.Soundness.SysInfo
import RaryOS.Soundness.UnsignedDirectives

/-! # What the commands write

Each command as a function of its arguments and of the system information, on texts and not on memory. The names of
the commands are compared in the lexicographic order of bytes.
-/

namespace RaryOS.Soundness

open RaryOS.Core RaryOS.Model RaryOS.Model.Shell

section Strcmp

variable {m : Memory} {fuel : ℕ} {a b : ℕ} {s t : List (BitVec 8)}

/-- For all strings: `strcmp` reads them up to their terminators at most, and its result is zero for equal strings and
negative if and only if the first is before the second in lexicographic order. -/
theorem strcmp_orders (left : m.Holds a (s ++ [0])) (right : m.Holds b (t ++ [0])) (leftNonzero : 0 ∉ s)
    (rightNonzero : 0 ∉ t) (enough : s.length < fuel) :
    (UserLibc.strcmp fuel a b).Ensures m
      (fun place => Span a (s.length + 1) place ∨ Span b (t.length + 1) place) (fun _ => False)
      fun order m' => (order = 0 ↔ s = t) ∧ (order < 0 ↔ s < t) ∧ m' = m := by
  have none : (0 : BitVec 8).toNat = 0 := rfl
  induction s generalizing a b t fuel with
  | nil =>
    obtain ⟨fuel, rfl⟩ := Nat.exists_eq_add_one_of_ne_zero (Nat.ne_zero_of_lt enough)
    rw [UserLibc.strcmp]
    apply Prog.Ensures.read_bind (Or.inl ⟨le_rfl, by omega⟩)
    apply Prog.Ensures.read_bind (Or.inr ⟨le_rfl, by omega⟩)
    have ended : m a = 0 := left.1
    rw [ended, if_neg fun both => both.1 rfl]
    rcases t with _ | ⟨d, t⟩
    · have ended' : m b = 0 := right.1
      rw [ended']
      exact .pure ⟨by decide, by decide, rfl⟩
    · have here : m b = d := right.1
      have positive : 0 < d.toNat := by
        rw [List.mem_cons, not_or] at rightNonzero
        exact Nat.pos_of_ne_zero fun zero => rightNonzero.1 (BitVec.eq_of_toNat_eq zero.symm)
      rw [here]
      refine .pure ⟨iff_of_false ?_ (List.cons_ne_nil _ _).symm, iff_of_true ?_ (List.nil_lt_cons _ _), rfl⟩
      · rw [none]
        omega
      · rw [none]
        omega
  | cons c s ih =>
    obtain ⟨fuel, rfl⟩ := Nat.exists_eq_add_one_of_ne_zero (Nat.ne_zero_of_lt enough)
    rw [List.mem_cons, not_or] at leftNonzero
    rw [List.length_cons] at enough ⊢
    have here : m a = c := left.1
    have positive : 0 < c.toNat := Nat.pos_of_ne_zero fun zero => leftNonzero.1 (BitVec.eq_of_toNat_eq zero.symm)
    rw [UserLibc.strcmp]
    apply Prog.Ensures.read_bind (Or.inl ⟨le_rfl, by omega⟩)
    apply Prog.Ensures.read_bind (Or.inr ⟨le_rfl, by omega⟩)
    rcases t with _ | ⟨d, t⟩
    · have ended : m b = 0 := right.1
      rw [here, ended, if_neg fun both => both.1 both.2]
      refine .pure ⟨iff_of_false ?_ (List.cons_ne_nil _ _), iff_of_false ?_ (List.not_lt_nil _), rfl⟩
      · rw [none]
        omega
      · rw [none]
        omega
    · have here' : m b = d := right.1
      rw [List.mem_cons, not_or] at rightNonzero
      rw [here, here']
      by_cases same : c = d
      · rw [if_pos ⟨fun zero => leftNonzero.1 zero.symm, same⟩]
        apply (ih left.2 right.2 leftNonzero.2 rightNonzero.2 (by omega)).mono
        · rintro place (inside | inside)
          · exact Or.inl (inside.widen (by omega) (by omega))
          · exact Or.inr (inside.widen (by omega) (by rw [List.length_cons]; omega))
        · exact fun _ never => never
        · rintro order m' ⟨equal, less, kept⟩
          refine ⟨equal.trans ?_, less.trans ?_, kept⟩
          · rw [same, List.cons_inj_right]
          · rw [same, List.cons_lt_cons_iff]
            exact ⟨fun further => Or.inr ⟨rfl, further⟩, fun either =>
              either.elim (fun less => absurd less (BitVec.lt_irrefl d)) fun rest => rest.2⟩
      · rw [if_neg fun both => same both.2]
        have differ : c.toNat ≠ d.toNat := fun equal => same (BitVec.eq_of_toNat_eq equal)
        refine .pure ⟨iff_of_false (by omega) fun equal => same (List.cons.inj equal).1, ?_, rfl⟩
        rw [List.cons_lt_cons_iff, BitVec.lt_def]
        exact ⟨fun less => Or.inl (by omega), fun either =>
          either.elim (fun less => by omega) fun rest => absurd rest.1 same⟩

end Strcmp

/-! ## The literals -/

/-- The string literals of the shell. -/
def literals : List String :=
  ["> ", "Commands:\n", "  %s - %s\n", "Unknown command: %s\n", "Shutting down...\n", "Rebooting...\n",
    "Failed to get system info\n", "OS:         RaryOS\n", "Host:       %s\n", "Kernel:     RaryOS v%s\n",
    "Uptime:     %lu min %lu sec\n", "Shell:      RaryTerminal v1.0\n", "Resolution: %ux%u\n", "CPU:        %s\n",
    "GPU:        %s\n", "RAM:        %lu MB\n", "\n"] ++ cmds.flatMap fun c => [c.name, c.help]

theorem literals_nonzero : ∀ t ∈ literals, 0 ∉ str t := by decide

theorem literals_short : ∀ t ∈ literals, (str t).length < 32 := by decide

/-- The places that the shell writes: the line and the structure for the system information. -/
def Own (img : Image) (place : ℕ) : Prop := Span img.line lineMax place ∨ Span img.si sizeofSysInfo place

/-- The objects of the shell have addresses, and the literals are apart from what is written. -/
structure Placed (img : Image) : Prop where
  si : img.si ≠ 0
  buffer : img.buffer ≠ 0
  siTop : img.si + sizeofSysInfo ≤ 2 ^ 64
  lineTop : img.line + lineMax ≤ 2 ^ 64
  literalTop : ∀ t ∈ literals, img.literal t < 2 ^ 64
  apart : ∀ t ∈ literals, ∀ k ≤ (str t).length, ¬Own img (img.literal t + k)

/-- The literals are in memory. -/
def Loaded (img : Image) (m : Memory) : Prop := ∀ t ∈ literals, m.Holds (img.literal t) (str t ++ [0])

/-- They stay there. -/
theorem Loaded.kept {img : Image} {m m' : Memory} (placed : Placed img) (loaded : Loaded img m)
    (unchanged : ∀ place, ¬Own img place → m' place = m place) : Loaded img m' := by
  intro t member
  apply (loaded t member).congr
  intro k inside
  rw [List.length_append, List.length_singleton] at inside
  exact unchanged _ (placed.apart t member k (by omega))

section Printing

variable {img : Image} {m : Memory} {fuel : ℕ} {canRead canWrite : ℕ → Prop}

theorem toNat_pointer {address : ℕ} (small : address < 2 ^ 64) : (pointer address).toNat = address := by
  rw [pointer, BitVec.toNat_ofNat, Nat.mod_eq_of_lt small]

/-- A pointer to a string is an argument for a string. -/
theorem pointer_is {address : ℕ} {text : List (BitVec 8)} (small : address < 2 ^ 64) (nonzero : 0 ∉ text)
    (holds : m.Holds address (text ++ [0])) : (Argument.text text).Is m (pointer address) := by
  refine ⟨nonzero, ?_⟩
  rw [toNat_pointer small]
  exact holds

theorem print_ensures (placed : Placed img) (loaded : Loaded img m) {format : String} (member : format ∈ literals)
    {slots : List (BitVec 64)} (args : List Argument) {out : List (BitVec 8)}
    (made : formatText UserLibc.printfLibrary UserLibc.digits (str format) args = some out)
    (are : ∀ j (a : Argument), args[j]? = some a → a.Is m (slots.getD j 0)) (long : ∀ a ∈ args, a.length < fuel)
    (enough : 64 ≤ fuel) :
    (print img fuel format slots).Ensures m (fun _ => True) canWrite
      fun calls m' => calls = [.write out] ∧ m' = m := by
  have short := literals_short format member
  have written := printf_value userLibc_libraryOf placed.buffer (loaded format member)
    (literals_nonzero format member) (by omega) are (by omega) long made
  refine ⟨[.write out], ?_, ⟨rfl, rfl⟩, fun _ _ => trivial, List.forall_mem_nil _⟩
  change ((printf UserLibc.printfLibrary m img.buffer (fun k => slots.getD k 0) (img.literal format) fuel).value).map
    (fun bytes => [Call.write bytes]) = _
  rw [written]
  rfl

/-- A format without directives is written as it is. -/
theorem print_plain_ensures (placed : Placed img) (loaded : Loaded img m) {format : String}
    (member : format ∈ literals) (clear : ch '%' ∉ str format) (enough : 64 ≤ fuel) :
    (print img fuel format []).Ensures m (fun _ => True) canWrite
      fun calls m' => calls = [.write (str format)] ∧ m' = m :=
  print_ensures placed loaded member [] (formatText_plain_only clear) (fun _ _ none => by cases none)
    (List.forall_mem_nil _) enough

end Printing

/-! ## Formats with directives -/

section Formats

variable {before after out : List (BitVec 8)} {args : List Argument}

/-- A directive with an argument behind text without one. -/
theorem format_argument {p : Piece} {a : Argument} {t : List (BitVec 8)} (clear : ch '%' ∉ before)
    (takes : (p.conversion UserLibc.printfLibrary).arity = 1)
    (made : convert UserLibc.printfLibrary UserLibc.digits (p.conversion UserLibc.printfLibrary) (some a) = some t)
    (rest : formatText UserLibc.printfLibrary UserLibc.digits after args = some out) :
    formatText UserLibc.printfLibrary UserLibc.digits (before ++ (p.bytes ++ after)) (a :: args) =
      some (before ++ (t ++ out)) := by
  rw [formatText_plain clear, formatText_piece, takes, List.head?_cons, made, Option.bind_some, List.drop_one,
    List.tail_cons, rest]
  rfl

/-- `%s`. -/
def stringPiece : Piece := .directive (ch 's') (by decide)

theorem format_string (clear : ch '%' ∉ before) (text : List (BitVec 8)) (args : List Argument)
    (rest : formatText UserLibc.printfLibrary UserLibc.digits after args = some out) :
    formatText UserLibc.printfLibrary UserLibc.digits (before ++ (stringPiece.bytes ++ after)) (.text text :: args) =
      some (before ++ (text ++ out)) :=
  format_argument clear rfl rfl rest

/-- `%lu` or `%u` for a number that is not negative as a `long`. -/
theorem format_number (clear : ch '%' ∉ before) (long : Bool) {value : BitVec 64}
    (small : long = true → value.toNat < 2 ^ 63) (args : List Argument)
    (rest : formatText UserLibc.printfLibrary UserLibc.digits after args = some out) :
    formatText UserLibc.printfLibrary UserLibc.digits (before ++ ((unsignedPiece long).bytes ++ after))
      (.word value :: args) = some (before ++ (decimal (unsignedArgument long value) ++ out)) := by
  have conversion := @unsigned_conversion UserLibc.printfLibrary (Or.inr rfl) long
  apply format_argument clear
  · rw [conversion]
    rfl
  · rw [conversion, ← (itoaText_unsigned_iff userLibc_digits long value).mpr small]
    rfl
  · exact rest

end Formats

/-! ## The system information -/

/-- What `info` asks for, and what it writes for the texts and the numbers of the structure. -/
def infoCalls (w : InfoSources) (host cpu gpu kernel : List (BitVec 8)) : List Call :=
  let totalSec := w.pitTicks.toNat / 100
  .ioctl ioctlGetInfo :: [str "OS:         RaryOS\n",
    str "Host:       " ++ (host ++ str "\n"),
    str "Kernel:     RaryOS v" ++ (kernel ++ str "\n"),
    str "Uptime:     " ++ (decimal (totalSec / 60) ++ (str " min " ++ (decimal (totalSec % 60) ++ str " sec\n"))),
    str "Shell:      RaryTerminal v1.0\n",
    str "Resolution: " ++ (decimal w.fbWidth.toNat ++ (str "x" ++ (decimal w.fbHeight.toNat ++ str "\n"))),
    str "CPU:        " ++ (cpu ++ str "\n"),
    str "GPU:        " ++ (gpu ++ str "\n"),
    str "RAM:        " ++ (decimal w.ramMb.toNat ++ str " MB\n"),
    str "\n"].map Call.write

theorem leBytes_succ (n value : ℕ) : leBytes (n + 1) value = BitVec.ofNat 8 value :: leBytes n (value / 256) := by
  rw [leBytes, List.range_succ_eq_map, List.map_cons, List.map_map, leBytes]
  congr 1
  apply List.map_congr_left
  intro k _
  rw [Function.comp_apply, Nat.shiftRight_eq_div_pow, Nat.shiftRight_eq_div_pow, Nat.div_div_eq_div_mul, Nat.mul_succ,
    Nat.pow_add, Nat.mul_comm]

theorem loadNumber_ensures {m : Memory} {n place value : ℕ} (holds : m.Holds place (leBytes n value)) :
    (loadNumber n place).Ensures m (fun _ => True) (fun _ => False) fun v m' => v = value % 256 ^ n ∧ m' = m := by
  induction n generalizing place value with
  | zero => exact .pure ⟨(Nat.mod_one value).symm, rfl⟩
  | succ n ih =>
    rw [leBytes_succ] at holds
    rw [loadNumber]
    apply Prog.Ensures.read_bind trivial
    apply Prog.Ensures.bind _ (ih holds.2)
    rintro _ _ ⟨rfl, rfl⟩
    have digits : value % 256 ^ (n + 1) = value % 256 + 256 * (value / 256 % 256 ^ n) := by
      rw [Nat.pow_succ', Nat.mod_mul]
    refine .pure ⟨?_, rfl⟩
    rw [holds.1, BitVec.toNat_ofNat, digits]

/-- A text that fits its array. -/
def FieldText (text : List (BitVec 8)) : Prop := 0 ∉ text ∧ text.length < 64

/-- The structure is in memory, with texts that are strings. -/
structure InfoReady (m : Memory) (si : ℕ) (w : InfoSources) (hostName cpuName gpuName version : List (BitVec 8)) : Prop
    extends InfoFields m si w hostName cpuName gpuName version where
  hostText : FieldText hostName
  cpuText : FieldText cpuName
  gpuText : FieldText gpuName
  kernelText : FieldText version
  ramSmall : w.ramMb.toNat < 2 ^ 63

section Info

variable {img : Image} {m : Memory} {fuel : ℕ} {w : InfoSources} {host cpu gpu kernel : List (BitVec 8)}

/-- A line with a string of the structure. -/
theorem print_field_ensures (placed : Placed img) (loaded : Loaded img m) {format : String} (member : format ∈ literals)
    {before after : List (BitVec 8)} (split : str format = before ++ (stringPiece.bytes ++ after))
    (clear : ch '%' ∉ before ∧ ch '%' ∉ after) {o : ℕ} (inside : o < sizeofSysInfo) {text : List (BitVec 8)}
    (isText : FieldText text) (holds : m.Holds (img.si + o) (text ++ [0])) (enough : 64 ≤ fuel) :
    (print img fuel format [pointer (img.si + o)]).Ensures m (fun _ => True) (Span img.si sizeofSysInfo)
      fun calls m' => calls = [.write (before ++ (text ++ after))] ∧ m' = m := by
  have top := placed.siTop
  have made := format_string clear.1 text [] (formatText_plain_only clear.2)
  rw [← split] at made
  apply print_ensures placed loaded member _ made
  · intro j a found
    rcases j with _ | j
    · cases found
      exact pointer_is (by omega) isText.1 holds
    · cases found
  · exact List.forall_mem_singleton.mpr (Nat.lt_of_lt_of_le isText.2 enough)
  · exact enough

/-- A line with a number at its end. -/
theorem print_number_ensures (placed : Placed img) (loaded : Loaded img m) {format : String}
    (member : format ∈ literals) (long : Bool) {before after : List (BitVec 8)}
    (split : str format = before ++ ((unsignedPiece long).bytes ++ after)) (clear : ch '%' ∉ before ∧ ch '%' ∉ after)
    {value : BitVec 64} (small : long = true → value.toNat < 2 ^ 63) (enough : 64 ≤ fuel) :
    (print img fuel format [value]).Ensures m (fun _ => True) (Span img.si sizeofSysInfo)
      fun calls m' => calls = [.write (before ++ (decimal (unsignedArgument long value) ++ after))] ∧ m' = m := by
  have made := format_number clear.1 long small [] (formatText_plain_only clear.2)
  rw [← split] at made
  apply print_ensures placed loaded member _ made
  · intro j a found
    rcases j with _ | j
    · cases found
      rfl
    · cases found
  · exact List.forall_mem_singleton.mpr (Nat.lt_of_lt_of_le (Nat.zero_lt_succ 63) enough)
  · exact enough

/-- A line with two numbers. -/
theorem print_numbers_ensures (placed : Placed img) (loaded : Loaded img m) {format : String}
    (member : format ∈ literals) (long : Bool) {before middle after : List (BitVec 8)}
    (split : str format = before ++ ((unsignedPiece long).bytes ++ (middle ++ ((unsignedPiece long).bytes ++ after))))
    (clear : ch '%' ∉ before ∧ ch '%' ∉ middle ∧ ch '%' ∉ after) {value value' : BitVec 64}
    (small : long = true → value.toNat < 2 ^ 63) (small' : long = true → value'.toNat < 2 ^ 63) (enough : 64 ≤ fuel) :
    (print img fuel format [value, value']).Ensures m (fun _ => True) (Span img.si sizeofSysInfo)
      fun calls m' => calls = [.write (before ++ (decimal (unsignedArgument long value) ++
        (middle ++ (decimal (unsignedArgument long value') ++ after))))] ∧ m' = m := by
  have made := format_number clear.1 long small [.word value']
    (format_number clear.2.1 long small' [] (formatText_plain_only clear.2.2))
  rw [← split] at made
  apply print_ensures placed loaded member _ made
  · intro j a found
    rcases j with _ | _ | j
    · cases found
      rfl
    · cases found
      rfl
    · cases found
  · exact List.forall_mem_cons.mpr ⟨Nat.lt_of_lt_of_le (Nat.zero_lt_succ 63) enough,
      List.forall_mem_singleton.mpr (Nat.lt_of_lt_of_le (Nat.zero_lt_succ 63) enough)⟩
  · exact enough

/-- A number of the structure. -/
theorem unsignedArgument_long {n : ℕ} (small : n < 2 ^ 64) : unsignedArgument true (BitVec.ofNat 64 n) = n := by
  rw [unsignedArgument, BitVec.toNat_ofNat, Nat.mod_eq_of_lt small]

theorem unsignedArgument_int (n : BitVec 32) : unsignedArgument false (BitVec.ofNat 64 n.toNat) = n.toNat := by
  have small := n.isLt
  rw [unsignedArgument, BitVec.toNat_setWidth, BitVec.toNat_ofNat]
  omega

/-- A field of the structure is loaded as it was stored. -/
theorem load_field_ensures {n place value : ℕ} {canWrite : ℕ → Prop} (holds : m.Holds place (leBytes n value))
    (small : value < 256 ^ n) :
    (loadNumber n place).Ensures m (fun _ => True) canWrite fun v m' => v = value ∧ m' = m := by
  apply (loadNumber_ensures holds).mono (fun _ good => good) (fun _ never => never.elim)
  rintro v m' ⟨rfl, same⟩
  exact ⟨Nat.mod_eq_of_lt small, same⟩

/-- `print_info` asks for the system information and writes its ten lines, if the kernel fills the structure. -/
theorem printInfo_ensures (placed : Placed img) (loaded : Loaded img m) (enough : 64 ≤ fuel)
    (fills : (fillSysInfo w img.si fuel).Ensures m (fun _ => True) (Span img.si sizeofSysInfo)
      fun _ m' => InfoReady m' img.si w host cpu gpu kernel) :
    (printInfo img fuel w).Ensures m (fun _ => True) (Span img.si sizeofSysInfo)
      fun calls _ => calls = infoCalls w host cpu gpu kernel := by
  rw [printInfo, getSysInfo, if_neg placed.si]
  apply Prog.Ensures.bind fun r m' =>
    r = (0, [.ioctl ioctlGetInfo]) ∧ InfoReady m' img.si w host cpu gpu kernel ∧ Loaded img m'
  · apply Prog.Ensures.bind _ fills.framed
    rintro _ m' ⟨ready, unchanged⟩
    have kept : Loaded img m' :=
      loaded.kept placed fun place outside => unchanged place fun inside => outside (Or.inr inside)
    exact .pure ⟨rfl, ready, kept⟩
  rintro _ m ⟨rfl, ready, loaded⟩
  have ticksLt := w.pitTicks.isLt
  have ramLt := w.ramMb.isLt
  have ramSmall := ready.ramSmall
  dsimp only
  rw [if_neg (not_not.mpr rfl)]
  apply Prog.Ensures.bind_value (load_field_ensures ready.uptimeTicks ticksLt)
  have line (format : String) (member : format ∈ literals) (clear : ch '%' ∉ str format) :
      (print img fuel format []).Ensures m (fun _ => True) (Span img.si sizeofSysInfo) _ :=
    print_plain_ensures placed loaded member clear enough
  have field {format : String} (member : format ∈ literals) {before after : List (BitVec 8)}
      (split : str format = before ++ (stringPiece.bytes ++ after)) (clear : ch '%' ∉ before ∧ ch '%' ∉ after) {o : ℕ}
      (inside : o < sizeofSysInfo) {text : List (BitVec 8)} (isText : FieldText text)
      (holds : m.Holds (img.si + o) (text ++ [0])) :=
    print_field_ensures placed loaded member split clear inside isText holds enough
  apply Prog.Ensures.bind_value (line _ (by decide) (by decide))
  apply Prog.Ensures.bind_value (field (by decide)
    (show _ = str "Host:       " ++ (stringPiece.bytes ++ str "\n") by decide) (by decide) (by decide) ready.hostText
    ready.host)
  apply Prog.Ensures.bind_value (field (by decide)
    (show _ = str "Kernel:     RaryOS v" ++ (stringPiece.bytes ++ str "\n") by decide) (by decide) (by decide)
    ready.kernelText ready.kernel)
  apply Prog.Ensures.bind_value (print_numbers_ensures placed loaded (by decide) true
    (show _ = str "Uptime:     " ++ ((unsignedPiece true).bytes ++ (str " min " ++ ((unsignedPiece true).bytes ++
      str " sec\n"))) by decide) (by decide) (fun _ => by rw [BitVec.toNat_ofNat]; omega)
    (fun _ => by rw [BitVec.toNat_ofNat]; omega) enough)
  apply Prog.Ensures.bind_value (line _ (by decide) (by decide))
  apply Prog.Ensures.bind_value (load_field_ensures ready.resW w.fbWidth.isLt)
  apply Prog.Ensures.bind_value (load_field_ensures ready.resH w.fbHeight.isLt)
  apply Prog.Ensures.bind_value (print_numbers_ensures placed loaded (by decide) false
    (show _ = str "Resolution: " ++ ((unsignedPiece false).bytes ++ (str "x" ++ ((unsignedPiece false).bytes ++
      str "\n"))) by decide) (by decide) (fun never => absurd never Bool.false_ne_true)
    (fun never => absurd never Bool.false_ne_true) enough)
  apply Prog.Ensures.bind_value (field (by decide)
    (show _ = str "CPU:        " ++ (stringPiece.bytes ++ str "\n") by decide) (by decide) (by decide) ready.cpuText
    ready.cpu)
  apply Prog.Ensures.bind_value (field (by decide)
    (show _ = str "GPU:        " ++ (stringPiece.bytes ++ str "\n") by decide) (by decide) (by decide) ready.gpuText
    ready.gpu)
  apply Prog.Ensures.bind_value (load_field_ensures ready.ramMb ramLt)
  apply Prog.Ensures.bind_value (print_number_ensures placed loaded (by decide) true
    (show _ = str "RAM:        " ++ ((unsignedPiece true).bytes ++ str " MB\n") by decide) (by decide)
    (fun _ => by rw [BitVec.toNat_ofNat]; omega) enough)
  apply Prog.Ensures.bind_value (line _ (by decide) (by decide))
  rw [unsignedArgument_long (by omega), unsignedArgument_long (by omega), unsignedArgument_long ramLt,
    unsignedArgument_int, unsignedArgument_int]
  exact .pure rfl

end Info

/-! ## The commands -/

/-- What `help` writes. -/
def helpCalls : List Call :=
  .write (str "Commands:\n") ::
    cmds.map fun c => .write (str "  " ++ (str c.name ++ (str " - " ++ (str c.help ++ str "\n"))))

/-- What `echo` writes: its arguments with a space between each two of them. -/
def echoCalls (args : List (List (BitVec 8))) : List Call :=
  (args.map Call.write).intersperse (.write [ch ' ']) ++ [.write [ch '\n']]

/-- What a command writes and asks for, when the system information is `info`. -/
def commandCalls (info : List Call) (args : List (List (BitVec 8))) : CommandFn → List Call
  | .help => helpCalls
  | .clear => [.ioctl ioctlClear]
  | .echo => echoCalls args
  | .info => info
  | .shutdown => [.write (str "Shutting down...\n"), .ioctl ioctlShutdown]
  | .reboot => [.write (str "Rebooting...\n"), .ioctl ioctlReboot]

/-- The answer to the words of a line. -/
def respond (info : List Call) : List (List (BitVec 8)) → List Call
  | [] => []
  | name :: args =>
    match cmds.find? fun c => str c.name = name with
    | some c => commandCalls info args c.fn
    | none => [.write (str "Unknown command: " ++ (name ++ str "\n"))]

section Dispatch

variable {img : Image} {m : Memory} {fuel : ℕ} {w : InfoSources} {info : List Call} {canWrite : ℕ → Prop}

/-- The names and the help texts are literals. -/
theorem cmds_literals : ∀ c ∈ cmds, c.name ∈ literals ∧ c.help ∈ literals := by decide

theorem helpLines_ensures (placed : Placed img) (loaded : Loaded img m) (enough : 64 ≤ fuel) {table : List Cmd}
    (known : ∀ c ∈ table, c.name ∈ literals ∧ c.help ∈ literals) :
    (helpLines img fuel table).Ensures m (fun _ => True) canWrite fun calls m' =>
      (calls = table.map fun c =>
        .write (str "  " ++ (str c.name ++ (str " - " ++ (str c.help ++ str "\n"))))) ∧ m' = m := by
  induction table with
  | nil => exact .pure ⟨rfl, rfl⟩
  | cons c rest ih =>
    rw [List.forall_mem_cons] at known
    obtain ⟨⟨name, help⟩, others⟩ := known
    have split : str "  %s - %s\n" =
        str "  " ++ (stringPiece.bytes ++ (str " - " ++ (stringPiece.bytes ++ str "\n"))) := by
      decide
    have made : formatText UserLibc.printfLibrary UserLibc.digits (str "  %s - %s\n")
        [.text (str c.name), .text (str c.help)] =
        some (str "  " ++ (str c.name ++ (str " - " ++ (str c.help ++ str "\n")))) := by
      rw [split]
      exact format_string (by decide) _ _ (format_string (by decide) _ _ (formatText_plain_only (by decide)))
    have are : ∀ j (a : Argument), [Argument.text (str c.name), .text (str c.help)][j]? = some a →
        a.Is m ([pointer (img.literal c.name), pointer (img.literal c.help)].getD j 0) := by
      intro j a found
      rcases j with _ | _ | j
      · cases found
        exact pointer_is (placed.literalTop _ name) (literals_nonzero _ name) (loaded _ name)
      · cases found
        exact pointer_is (placed.literalTop _ help) (literals_nonzero _ help) (loaded _ help)
      · cases found
    have short : ∀ t ∈ literals, (Argument.text (str t)).length < fuel := by
      intro t member
      exact (literals_short t member).trans_le ((by decide : 32 ≤ 64).trans enough)
    rw [helpLines]
    apply Prog.Ensures.bind_value (print_ensures placed loaded (by decide) _ made are
      (List.forall_mem_cons.mpr ⟨short _ name, List.forall_mem_singleton.mpr (short _ help)⟩) enough)
    apply Prog.Ensures.bind_value (ih others)
    exact .pure ⟨rfl, rfl⟩

theorem cmdHelp_ensures (placed : Placed img) (loaded : Loaded img m) (enough : 64 ≤ fuel) :
    (cmdHelp img fuel).Ensures m (fun _ => True) canWrite fun calls m' => calls = helpCalls ∧ m' = m := by
  rw [cmdHelp]
  apply Prog.Ensures.bind_value (print_plain_ensures placed loaded (by decide) (by decide) enough)
  apply Prog.Ensures.bind_value (helpLines_ensures placed loaded enough cmds_literals)
  exact .pure ⟨rfl, rfl⟩

/-- The slots from `i` on point to the strings. -/
def PointsTo (m : Memory) (argv : Argv) (i : ℕ) (args : List (List (BitVec 8))) : Prop :=
  ∀ j t, args[j]? = some t → 0 ∉ t ∧ m.Holds (argv.slot (i + j)) (t ++ [0])

/-- The arguments from the second on have a space before them. -/
theorem echoArgs_ensures {argv : Argv} {args : List (List (BitVec 8))} {i : ℕ} (positive : 1 ≤ i)
    (points : PointsTo m argv i args) (long : ∀ t ∈ args, t.length < fuel) :
    (echoArgs fuel argv args.length i).Ensures m (fun _ => True) canWrite fun calls m' =>
      calls = (if i > 1 ∧ args ≠ [] then [.write [ch ' ']] else []) ++
        (args.map Call.write).intersperse (.write [ch ' ']) ∧ m' = m := by
  induction args generalizing i with
  | nil =>
    rw [if_neg fun both => both.2 rfl]
    exact .pure ⟨rfl, rfl⟩
  | cons t rest ih =>
    rw [List.forall_mem_cons] at long
    obtain ⟨nonzero, holds⟩ := points 0 t rfl
    have later : PointsTo m argv (i + 1) rest := by
      intro j u found
      rw [Nat.add_assoc, Nat.add_comm 1 j]
      exact points (j + 1) u found
    rw [List.length_cons, echoArgs]
    apply Prog.Ensures.bind_value (b := t)
    · apply (cString_ensures (i := 0) holds nonzero long.1).mono (fun _ _ => trivial) (fun _ never => never.elim)
      exact fun _ _ post => post
    apply Prog.Ensures.bind_value (ih (by omega) later long.2)
    have further : i + 1 > 1 := by omega
    refine .pure ⟨?_, rfl⟩
    rcases rest with _ | ⟨u, rest⟩
    · rw [if_neg (show ¬(i + 1 > 1 ∧ [] ≠ []) from fun both => both.2 rfl)]
      simp only [ne_eq, List.cons_ne_self, not_false_eq_true, and_true]
      rfl
    · rw [if_pos (show i + 1 > 1 ∧ u :: rest ≠ [] from ⟨further, List.cons_ne_nil _ _⟩)]
      simp only [ne_eq, reduceCtorEq, not_false_eq_true, and_true]
      rfl

theorem cmdEcho_ensures {argv : Argv} {args : List (List (BitVec 8))} (points : PointsTo m argv 1 args)
    (long : ∀ t ∈ args, t.length < fuel) :
    (cmdEcho fuel (args.length + 1) argv).Ensures m (fun _ => True) canWrite
      fun calls m' => calls = echoCalls args ∧ m' = m := by
  rw [cmdEcho, Nat.add_sub_cancel]
  apply Prog.Ensures.bind_value (echoArgs_ensures le_rfl points long)
  rw [if_neg fun both => absurd both.1 (Nat.lt_irrefl 1)]
  exact .pure ⟨rfl, rfl⟩

/-- The first command of this name is found. -/
theorem findCmd_ensures (loaded : Loaded img m) (enough : 64 ≤ fuel) {table : List Cmd} {address : ℕ}
    {name : List (BitVec 8)} (known : ∀ c ∈ table, c.name ∈ literals) (nonzero : 0 ∉ name)
    (holds : m.Holds address (name ++ [0])) :
    (findCmd img fuel address table).Ensures m (fun _ => True) canWrite fun found m' =>
      found = (table.find? fun c => str c.name = name).map Cmd.fn ∧ m' = m := by
  induction table with
  | nil => exact .pure ⟨rfl, rfl⟩
  | cons c rest ih =>
    rw [List.forall_mem_cons] at known
    have short := literals_short _ known.1
    rw [findCmd]
    apply Prog.Ensures.bind _ ((strcmp_orders (loaded _ known.1) holds (literals_nonzero _ known.1) nonzero
      (by omega)).mono (fun _ _ => trivial) (fun _ never => never.elim) fun _ _ post => post)
    rintro order _ ⟨equal, -, rfl⟩
    by_cases same : str c.name = name
    · have first : (c :: rest).find? (fun c => str c.name = name) = some c :=
        List.find?_cons_of_pos (p := fun c : Cmd => decide (str c.name = name)) (decide_eq_true same)
      rw [if_pos (equal.mpr same), first]
      exact .pure ⟨rfl, rfl⟩
    · have later : (c :: rest).find? (fun c => str c.name = name) = rest.find? fun c => str c.name = name :=
        List.find?_cons_of_neg (p := fun c : Cmd => decide (str c.name = name)) (by rwa [decide_eq_true_eq])
      rw [if_neg (mt equal.mp same), later]
      exact ih known.2

/-- The command of the first word, or the complaint that there is none. -/
theorem dispatch_ensures (placed : Placed img) (loaded : Loaded img m) (enough : 64 ≤ fuel) {argv : Argv}
    {name : List (BitVec 8)} {args : List (List (BitVec 8))} (points : PointsTo m argv 0 (name :: args))
    (small : argv.slot 0 < 2 ^ 64) (long : ∀ t ∈ name :: args, t.length < fuel)
    (prints : (printInfo img fuel w).Ensures m (fun _ => True) (Own img) fun calls _ => calls = info) :
    (dispatch img fuel w (args.length + 1) argv).Ensures m (fun _ => True) (Own img)
      fun calls _ => calls = respond info (name :: args) := by
  obtain ⟨nonzero, holds⟩ := points 0 name rfl
  rw [List.forall_mem_cons] at long
  have others : PointsTo m argv 1 args := by
    intro j t found
    rw [Nat.add_comm 1 j]
    have here := points (j + 1) t found
    rwa [Nat.zero_add] at here
  have names : ∀ c ∈ cmds, c.name ∈ literals := fun c member => (cmds_literals c member).1
  rw [dispatch]
  apply Prog.Ensures.bind_value (findCmd_ensures loaded enough names nonzero holds)
  rw [respond]
  cases cmds.find? fun c => str c.name = name with
  | none =>
    have split : str "Unknown command: %s\n" = str "Unknown command: " ++ (stringPiece.bytes ++ str "\n") := by decide
    have made := format_string (show ch '%' ∉ str "Unknown command: " by decide) name []
      (formatText_plain_only (show ch '%' ∉ str "\n" by decide))
    rw [← split] at made
    have are : ∀ j (a : Argument), [Argument.text name][j]? = some a →
        a.Is m ([pointer (argv.slot 0)].getD j 0) := by
      intro j a found
      rcases j with _ | j
      · cases found
        exact pointer_is small nonzero holds
      · cases found
    apply (print_ensures placed loaded (by decide) _ made are (List.forall_mem_singleton.mpr long.1) enough).mono
      (fun _ good => good) (fun _ good => good)
    exact fun _ _ post => post.1
  | some c =>
    have plain (format : String) (member : format ∈ literals) (clear : ch '%' ∉ str format) :
        (print img fuel format []).Ensures m (fun _ => True) (Own img) _ :=
      print_plain_ensures placed loaded member clear enough
    dsimp only [Option.map_some]
    cases c.fn with
    | help =>
      apply (cmdHelp_ensures placed loaded enough).mono (fun _ good => good) (fun _ good => good)
      exact fun _ _ post => post.1
    | clear => exact .pure rfl
    | echo =>
      apply (cmdEcho_ensures others long.2).mono (fun _ good => good) (fun _ good => good)
      exact fun _ _ post => post.1
    | info => exact prints
    | shutdown =>
      rw [CommandFn.run, cmdShutdown]
      apply Prog.Ensures.bind_value (plain _ (by decide) (by decide))
      exact .pure rfl
    | reboot =>
      rw [CommandFn.run, cmdReboot]
      apply Prog.Ensures.bind_value (plain _ (by decide) (by decide))
      exact .pure rfl

end Dispatch

end RaryOS.Soundness
