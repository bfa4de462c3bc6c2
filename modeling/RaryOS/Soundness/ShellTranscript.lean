import RaryOS.Soundness.Commands
import RaryOS.Soundness.LineEcho
import RaryOS.Soundness.Tokenize

/-! # The transcript of the shell

What the shell asks of the kernel over any number of lines is a function of the keys alone, and of the system
information at the time of each line. A round leaves the literals in memory, and the line that it leaves there does
not matter to the next one.
-/

namespace RaryOS.Soundness

open RaryOS.Core RaryOS.Model RaryOS.Model.Shell

/-- The line as `tokenize` sees it: up to the first zero that was typed. -/
def lineText (stream : ℕ → UserLibc.ReadAnswer) (n : ℕ) : List (BitVec 8) :=
  (editedLine stream lineMax n).takeWhile (· != 0)

/-- The arguments: the words of the line, at most 15. -/
def lineArgs (stream : ℕ → UserLibc.ReadAnswer) (n : ℕ) : List (List (BitVec 8)) :=
  ((words isBlank (lineText stream n)).take (argvMax - 1)).map Prod.snd

/-- The calls of a round whose line ends at the `n`-th result of `getchar`. -/
def roundCalls (info : List Call) (stream : ℕ → UserLibc.ReadAnswer) (n : ℕ) : List Call :=
  .write (str "> ") :: ((echoed stream lineMax n ++ [ch '\n']).map fun c => .write [c]) ++
    respond info (lineArgs stream n)

/-- Lines of these lengths come one after the other, from the `k`-th result on. -/
def LinesAt (stream : ℕ → UserLibc.ReadAnswer) : ℕ → List ℕ → Prop
  | _, [] => True
  | k, n :: rest =>
    UserLibc.getchar (stream (k + n)) = '\n'.toNat ∧ (∀ j < n, UserLibc.getchar (stream (k + j)) ≠ '\n'.toNat) ∧
      LinesAt stream (k + (n + 1)) rest

/-- The calls of the rounds, where the system information is `info k` if a round begins at the `k`-th result. -/
def transcript (info : ℕ → List Call) (stream : ℕ → UserLibc.ReadAnswer) : ℕ → List ℕ → List Call
  | _, [] => []
  | k, n :: rest =>
    roundCalls (info k) (fun j => stream (k + j)) n ++ transcript info stream (k + (n + 1)) rest

/-- From any memory that has changed in the shell's own places only, the kernel fills the structure. -/
def FillsInfo (img : Image) (m₀ : Memory) (fuel : ℕ) (w : InfoSources) (host cpu gpu kernel : List (BitVec 8)) : Prop :=
  ∀ m : Memory, (∀ place, ¬Own img place → m place = m₀ place) →
    (fillSysInfo w img.si fuel).Ensures m (fun _ => True) (Span img.si sizeofSysInfo)
      fun _ m' => InfoReady m' img.si w host cpu gpu kernel

section Words

variable {line : List (BitVec 8)}

/-- A word is a part of the line, and begins inside it. -/
theorem mem_words {w : ℕ × List (BitVec 8)} (member : w ∈ words isBlank line) :
    w.1 < line.length ∧ w.2 ⊆ line ∧ w.2.length ≤ line.length := by
  obtain ⟨k, starts, rfl⟩ := List.mem_map.mp member
  have inside := List.mem_range.mp (List.mem_filter.mp starts).1
  have part : (wordAt isBlank line k).Sublist line :=
    (List.takeWhile_prefix _).sublist.trans (List.drop_sublist k line)
  exact ⟨inside, part.subset, part.length_le⟩

end Words

section Rounds

variable {img : Image} {m m₀ : Memory} {fuel n : ℕ} {w : InfoSources} {info : List Call}
  {stream : ℕ → UserLibc.ReadAnswer} {host cpu gpu kernel : List (BitVec 8)}

theorem length_editedLine (stream : ℕ → UserLibc.ReadAnswer) (n : ℕ) :
    ((editedLine stream lineMax n).length : ℤ) ≤ lineMax - 1 := by
  induction n with
  | zero => exact Int.natCast_nonneg 127
  | succ n ih =>
    rw [editedLine_succ]
    exact length_editLine ih _

theorem lineText_nonzero (stream : ℕ → UserLibc.ReadAnswer) (n : ℕ) : 0 ∉ lineText stream n := by
  intro member
  have kept := List.mem_takeWhile_imp member
  exact absurd kept (by decide)

theorem length_lineText (stream : ℕ → UserLibc.ReadAnswer) (n : ℕ) : (lineText stream n).length < lineMax := by
  have short := length_editedLine stream n
  have shorter : (lineText stream n).length ≤ (editedLine stream lineMax n).length :=
    (List.takeWhile_prefix _).length_le
  omega

/-- The arguments that `tokenize` finds. -/
theorem tokenize_points (placed : Placed img) (holds : m.Holds img.line (lineText stream n ++ [0]))
    (enough : lineMax ≤ fuel) :
    (tokenize img.line img.slot argvMax fuel).Ensures m (fun _ => True) (Own img) fun r m' =>
      r.1 = (lineArgs stream n).length ∧ PointsTo m' r.2 0 (lineArgs stream n) ∧
        (lineArgs stream n ≠ [] → r.2.slot 0 < 2 ^ 64) := by
  have short := length_lineText stream n
  have top := placed.lineTop
  apply (tokenizeFrom_ensures holds (lineText_nonzero stream n) (by omega) (by omega)).mono (fun _ _ => trivial)
  · exact fun _ inside => Or.inl (inside.widen le_rfl (by omega))
  · rintro r m' arguments
    change Arguments m' _ r.2 img.line 0 r.1 ((words isBlank (lineText stream n)).take (argvMax - 1)) at arguments
    have argument : ∀ j t, (lineArgs stream n)[j]? = some t → ∃ k, r.2.slot j = img.line + k ∧
        k < lineMax ∧ 0 ∉ t ∧ m'.Holds (r.2.slot j) (t ++ [0]) := by
      intro j t found
      rw [lineArgs, List.getElem?_map] at found
      obtain ⟨v, taken, rfl⟩ := Option.map_eq_some_iff.mp found
      obtain ⟨slot, text⟩ := arguments.word j v taken
      obtain ⟨inside, part, -⟩ := mem_words (List.mem_of_mem_take (List.mem_of_getElem? taken))
      rw [Nat.zero_add] at slot
      refine ⟨v.1, slot, by omega, fun zero => lineText_nonzero stream n (part zero), ?_⟩
      rw [slot]
      exact text
    refine ⟨?_, ?_, ?_⟩
    · rw [arguments.count, lineArgs, List.length_map, Nat.zero_add]
    · intro j t found
      obtain ⟨k, -, -, nonzero, text⟩ := argument j t found
      rw [Nat.zero_add]
      exact ⟨nonzero, text⟩
    · intro nonempty
      obtain ⟨t, rest, args⟩ := List.exists_cons_of_ne_nil nonempty
      obtain ⟨k, slot, inside, -⟩ := argument 0 t (by rw [args, List.getElem?_cons_zero])
      omega

/-- One round. -/
theorem mainRound_ensures (placed : Placed img) (loaded : Loaded img m) (enough : lineMax ≤ fuel)
    (newline : UserLibc.getchar (stream n) = '\n'.toNat)
    (before : ∀ j < n, UserLibc.getchar (stream j) ≠ '\n'.toNat) (enoughKeys : n < fuel)
    (prints : ∀ m', (∀ place, ¬Own img place → m' place = m place) →
      (printInfo img fuel w).Ensures m' (fun _ => True) (Own img) fun calls _ => calls = info) :
    (mainRound img fuel w stream).Ensures m (fun _ => True) (Own img)
      fun r _ => r = (n + 1, roundCalls info stream n) := by
  have room : ((editedLine stream lineMax 0).length : ℤ) ≤ lineMax - 1 := length_editedLine stream 0
  have empty : m.Holds img.line (editedLine stream lineMax 0) := trivial
  have start : UserLibc.getchar (stream (0 + n)) = '\n'.toNat := by rwa [Nat.zero_add]
  have others : ∀ j < 0 + n, UserLibc.getchar (stream j) ≠ '\n'.toNat := by rwa [Nat.zero_add]
  have both := (readlineFrom_ensures empty room start others enoughKeys).and
    (readlineFrom_echoes room start others enoughKeys)
  have outside : ∀ place, ¬Own img place → ¬Span img.line lineMax place :=
    fun _ outside inside => outside (Or.inl inside)
  have base : 64 ≤ fuel := (by decide : 64 ≤ lineMax).trans enough
  rw [mainRound]
  apply Prog.Ensures.bind_value (print_plain_ensures placed loaded (by decide) (by decide) base)
  apply Prog.Ensures.bind _ (both.framed.mono (fun _ _ => trivial)
    (fun _ inside => Or.inl inside) fun _ _ post => post)
  rintro r m' ⟨⟨⟨-, length, taken, holds⟩, echo⟩, unchanged⟩
  rw [Nat.zero_add] at length taken holds echo
  have written : [Call.write (str "> ")] ++ r.echo.map (fun c => Call.write [c]) =
      .write (str "> ") :: (echoed stream lineMax n ++ [ch '\n']).map fun c => .write [c] := by
    rw [echo]
    rfl
  have done : lineArgs stream n = [] → Call.write (str "> ") ::
      (echoed stream lineMax n ++ [ch '\n']).map (fun c => .write [c]) = roundCalls info stream n := by
    intro none
    rw [roundCalls, none]
    exact (List.append_nil _).symm
  dsimp only
  rw [written, taken]
  split
  · next nothing =>
    rw [nothing] at length
    refine .pure (congrArg (Prod.mk (n + 1)) (done ?_))
    rw [lineArgs, lineText, List.eq_nil_of_length_eq_zero length.symm]
    rfl
  · apply Prog.Ensures.bind _ (tokenize_points placed (holds_upTo holds) enough).framed
    rintro ⟨argc, argv⟩ m'' ⟨⟨count, points, small⟩, unchanged'⟩
    dsimp only at count points small ⊢
    have kept : ∀ place, ¬Own img place → m'' place = m place := by
      intro place apart
      rw [unchanged' place apart, unchanged place (outside place apart)]
    have short : ∀ t ∈ lineArgs stream n, t.length < fuel := by
      intro t member
      obtain ⟨v, found, rfl⟩ := List.mem_map.mp member
      have inside := (mem_words (List.mem_of_mem_take found)).2.2
      have line := length_lineText stream n
      omega
    rw [count]
    rcases args : lineArgs stream n with _ | ⟨name, rest⟩
    · rw [args] at done
      exact .pure (congrArg (Prod.mk (n + 1)) (done rfl))
    · rw [args] at points small short
      rw [List.length_cons, if_neg (Nat.succ_ne_zero _)]
      apply Prog.Ensures.bind _ (dispatch_ensures placed (loaded.kept placed kept) base points
        (small (List.cons_ne_nil _ _)) short (prints m'' kept))
      rintro calls m₃ rfl
      refine .pure (congrArg (Prod.mk (n + 1)) ?_)
      rw [roundCalls, args]

/-- Any number of rounds. -/
theorem mainRounds_ensures {sources : ℕ → InfoSources} {infos : ℕ → List Call} {lines : List ℕ} {k : ℕ}
    (placed : Placed img) (loaded : Loaded img m₀) (enough : lineMax ≤ fuel) (keys : LinesAt stream k lines)
    (enoughKeys : ∀ n ∈ lines, n < fuel) (same : ∀ place, ¬Own img place → m place = m₀ place)
    (prints : ∀ k m', (∀ place, ¬Own img place → m' place = m₀ place) →
      (printInfo img fuel (sources k)).Ensures m' (fun _ => True) (Own img) fun calls _ => calls = infos k) :
    (mainRounds img fuel sources stream lines.length k).Ensures m (fun _ => True) (Own img)
      fun calls _ => calls = transcript infos stream k lines := by
  induction lines generalizing m k with
  | nil => exact .pure rfl
  | cons n rest ih =>
    obtain ⟨newline, before, later⟩ := keys
    rw [List.forall_mem_cons] at enoughKeys
    rw [List.length_cons, mainRounds]
    have information : ∀ m', (∀ place, ¬Own img place → m' place = m place) →
        (printInfo img fuel (sources k)).Ensures m' (fun _ => True) (Own img) fun calls _ => calls = infos k :=
      fun m' unchanged => prints k m' fun place apart => (unchanged place apart).trans (same place apart)
    have round : (mainRound img fuel (sources k) fun j => stream (k + j)).Ensures m (fun _ => True) (Own img)
        fun r _ => r = (n + 1, roundCalls (infos k) (fun j => stream (k + j)) n) :=
      mainRound_ensures placed (loaded.kept placed same) enough newline before enoughKeys.1 information
    apply Prog.Ensures.bind _ round.framed
    rintro _ m' ⟨rfl, unchanged⟩
    apply Prog.Ensures.bind _
      (ih later enoughKeys.2 fun place apart => (unchanged place apart).trans (same place apart))
    rintro _ _ rfl
    exact .pure rfl

theorem mem_upTo_nonzero {text : List (BitVec 8)} {k : ℕ} (nonzero : 0 ∉ text) : 0 ∉ text.take k :=
  fun member => nonzero (List.mem_of_mem_take member)

/-- The kernel fills the structure from strings that the shell does not write: the names of the board, or `Unknown`,
and the version. -/
theorem FillsInfo.of_found {vendor board version : List (BitVec 8)}
    (found : ∀ m : Memory, (∀ place, ¬Own img place → m place = m₀ place) →
      Found m img.si (smbiosGetBoardVendor m w.smbios fuel).value vendor ∧
        Found m img.si (smbiosGetBoardName m w.smbios fuel).value board ∧
        (SourceText.at w.version).Is m (Span img.si sizeofSysInfo) version)
    (vendorNonzero : 0 ∉ vendor) (boardNonzero : 0 ∉ board) (nonzero : 0 ∉ version)
    (ramSmall : w.ramMb.toNat < 2 ^ 63) (enough : 64 ≤ fuel) :
    FillsInfo img m₀ fuel w (hostText vendor board) (cpuText w.cpuid) unknownGpu (version.take 31) := by
  have cpuNonzero : 0 ∉ cpuText w.cpuid := by
    rw [cpuText]
    split
    · decide
    · exact brandText_nonzero w.cpuid
  have hostNonzero : 0 ∉ hostText vendor board := by
    apply mem_upTo_nonzero
    simp only [List.mem_append, not_or]
    exact ⟨⟨mem_upTo_nonzero vendorNonzero, by decide⟩, boardNonzero⟩
  intro m same
  obtain ⟨foundVendor, foundBoard, isVersion⟩ := found m same
  apply (fillSysInfo_fields w foundVendor foundBoard isVersion nonzero enough).mono (fun _ good => good)
    (fun _ good => good)
  intro _ m' fields
  refine ⟨fields, ⟨hostNonzero, ?_⟩, ⟨cpuNonzero, ?_⟩, ⟨by decide, by decide⟩, ⟨mem_upTo_nonzero nonzero, ?_⟩, ramSmall⟩
  · exact Nat.lt_succ_of_le (length_hostText vendor board)
  · exact Nat.lt_succ_of_le (length_cpuText w.cpuid)
  · exact (List.length_take_le _ _).trans_lt (by decide)

/-- `print_info` in a memory that has changed in the shell's own places only. -/
theorem FillsInfo.prints (placed : Placed img) (loaded : Loaded img m₀) (enough : lineMax ≤ fuel)
    (fills : FillsInfo img m₀ fuel w host cpu gpu kernel) (m' : Memory)
    (same : ∀ place, ¬Own img place → m' place = m₀ place) :
    (printInfo img fuel w).Ensures m' (fun _ => True) (Own img)
      fun calls _ => calls = infoCalls w host cpu gpu kernel :=
  (printInfo_ensures placed (loaded.kept placed same) ((by decide : 64 ≤ lineMax).trans enough) (fills m' same)).mono
    (fun _ good => good) (fun _ inside => Or.inr inside) fun _ _ post => post

/-- The start and the rounds. -/
theorem main_ensures {start : InfoSources} {sources : ℕ → InfoSources} {infos : ℕ → List Call} {lines : List ℕ}
    (placed : Placed img) (loaded : Loaded img m₀) (enough : lineMax ≤ fuel) (keys : LinesAt stream 0 lines)
    (enoughKeys : ∀ n ∈ lines, n < fuel)
    (first : (printInfo img fuel start).Ensures m₀ (fun _ => True) (Own img) fun calls _ => calls = info)
    (prints : ∀ k m', (∀ place, ¬Own img place → m' place = m₀ place) →
      (printInfo img fuel (sources k)).Ensures m' (fun _ => True) (Own img) fun calls _ => calls = infos k) :
    (main img fuel start sources stream lines.length).Ensures m₀ (fun _ => True) (Own img)
      fun calls _ => calls = .ioctl ioctlClear :: info ++ transcript infos stream 0 lines := by
  rw [main]
  apply Prog.Ensures.bind _ first.framed
  rintro _ m ⟨rfl, same⟩
  apply Prog.Ensures.bind _ (mainRounds_ensures placed loaded enough keys enoughKeys same prints)
  rintro _ _ rfl
  exact .pure rfl

/-- For every stream of keys and any number of lines in it: the shell clears the screen and writes the system
information, and then, for each line, the prompt, the echo, and the answer to the words of the line as it was edited.
It writes its line and its structure only. -/
theorem shell_transcript {start : InfoSources} {sources : ℕ → InfoSources} {lines : List ℕ} (placed : Placed img)
    (loaded : Loaded img m₀) (enough : lineMax ≤ fuel) (keys : LinesAt stream 0 lines)
    (enoughKeys : ∀ n ∈ lines, n < fuel) (fillsStart : FillsInfo img m₀ fuel start host cpu gpu kernel)
    (fills : ∀ k, FillsInfo img m₀ fuel (sources k) host cpu gpu kernel) :
    (main img fuel start sources stream lines.length).Ensures m₀ (fun _ => True) (Own img) fun calls _ =>
      calls = .ioctl ioctlClear :: infoCalls start host cpu gpu kernel ++
        transcript (fun k => infoCalls (sources k) host cpu gpu kernel) stream 0 lines :=
  main_ensures placed loaded enough keys enoughKeys
    (fillsStart.prints placed loaded enough m₀ fun _ _ => rfl) fun k => (fills k).prints placed loaded enough

end Rounds

/-! ## A run -/

/-- The literals one behind the other, 64 bytes apart. -/
def sampleShellImage : Image where
  line := 0x1000
  literal t := 0x10000 + 64 * literals.idxOf t
  si := 0x2000
  buffer := 0x3000
  slot _ := 0

/-- The literals, and the version `1` at 0x4000. -/
def sampleShellMemory : Memory := fun address =>
  if address < 0x10000 then [ch '1'].getD (address - 0x4000) 0
  else (str (literals.getD ((address - 0x10000) / 64) "")).getD ((address - 0x10000) % 64) 0

/-- No SMBIOS and no brand. -/
def bareSources (ticks : ℕ) : InfoSources where
  smbios := {}
  cpuid _ := ⟨0, 0, 0, 0⟩
  version := 0x4000
  fbWidth := 1280
  fbHeight := 400
  pitTicks := BitVec.ofNat 64 ticks
  ramMb := 512

/-- The keys `echo a`, and then new lines only. -/
def sampleKeys (k : ℕ) : UserLibc.ReadAnswer := ⟨1, (str "echo a").getD k (ch '\n')⟩

theorem sampleShellImage_placed : Placed sampleShellImage := by
  have count : literals.length < 0x100 := by decide
  refine ⟨by decide, by decide, by decide, by decide, ?_, ?_⟩
  · intro t _
    have index := List.idxOf_le_length (a := t) (l := literals)
    change 0x10000 + 64 * literals.idxOf t < 2 ^ 64
    omega
  · rintro t _ k _ (⟨_, upper⟩ | ⟨_, upper⟩)
    · have top : 0x10000 + 64 * literals.idxOf t + k < 0x1000 + 128 := upper
      omega
    · have top : 0x10000 + 64 * literals.idxOf t + k < 0x2000 + 256 := upper
      omega

theorem sampleShellImage_loaded : Loaded sampleShellImage sampleShellMemory := by
  intro t member
  have short := literals_short t member
  have at_ : literals.getD (literals.idxOf t) "" = t := by
    rw [List.getD_eq_getElem?_getD, List.getElem?_idxOf member]
    rfl
  rw [Memory.holds_iff]
  intro k inside
  rw [List.length_append, List.length_singleton] at inside
  have place : sampleShellMemory (sampleShellImage.literal t + k) = (str t).getD k 0 := by
    change sampleShellMemory (0x10000 + 64 * literals.idxOf t + k) = _
    rw [sampleShellMemory, if_neg (by omega),
      show (0x10000 + 64 * literals.idxOf t + k - 0x10000) / 64 = literals.idxOf t by omega,
      show (0x10000 + 64 * literals.idxOf t + k - 0x10000) % 64 = k by omega, at_]
  rw [place]
  rcases Nat.lt_or_ge k (str t).length with before | last
  · rw [List.getElem_append_left before, List.getD_eq_getElem _ _ before]
  · obtain rfl : k = (str t).length := by omega
    rw [List.getElem_concat_length rfl, List.getD_eq_default _ _ le_rfl]

theorem sampleShellImage_fills (ticks : ℕ) :
    FillsInfo sampleShellImage sampleShellMemory 128 (bareSources ticks) (hostText unknown unknown) unknownCpu
      unknownGpu [ch '1'] := by
  have nonzero : (0 : BitVec 8) ∉ unknown ∧ (0 : BitVec 8) ∉ [ch '1'] := by decide
  have small : (512 : BitVec 64).toNat < 2 ^ 63 := by decide
  apply FillsInfo.of_found ?_ nonzero.1 nonzero.1 nonzero.2 small (by decide)
  intro m same
  have apart : ∀ k ≤ 1, ¬Own sampleShellImage (0x4000 + k) := by
    rintro k _ (⟨_, upper⟩ | ⟨_, upper⟩)
    · have top : 0x4000 + k < 0x1000 + 128 := upper
      omega
    · have top : 0x4000 + k < 0x2000 + 256 := upper
      omega
  have version : (SourceText.at 0x4000).Is m (Span sampleShellImage.si sizeofSysInfo) [ch '1'] := by
    have holds : sampleShellMemory.Holds 0x4000 ([ch '1'] ++ [0]) := by decide
    refine ⟨holds.congr fun k inside => same _ (apart k (Nat.le_of_lt_succ inside)), fun k inside own => ?_⟩
    exact apart k inside (Or.inr own)
  exact ⟨⟨0, rfl, by decide, rfl⟩, ⟨0, rfl, by decide, rfl⟩, version⟩

/-- The line `echo a`, and an empty one. -/
theorem shell_transcript_sample :
    (main sampleShellImage 128 (bareSources 0) bareSources sampleKeys 2).Ensures sampleShellMemory (fun _ => True)
      (Own sampleShellImage) fun calls _ =>
        calls = .ioctl ioctlClear ::
          infoCalls (bareSources 0) (hostText unknown unknown) unknownCpu unknownGpu [ch '1'] ++
            transcript (fun k => infoCalls (bareSources k) (hostText unknown unknown) unknownCpu unknownGpu [ch '1'])
              sampleKeys 0 [6, 0] := by
  have keys : LinesAt sampleKeys 0 [6, 0] := ⟨by decide, by decide, by decide, by decide, trivial⟩
  have short : ∀ n ∈ [6, 0], n < 128 := by decide
  have run := shell_transcript sampleShellImage_placed sampleShellImage_loaded (by decide) keys short
    (sampleShellImage_fills 0) sampleShellImage_fills
  exact run

/-- The answer to the first line. -/
example : respond [] (lineArgs sampleKeys 6) = [.write [ch 'a'], .write [ch '\n']] := by decide

end RaryOS.Soundness
