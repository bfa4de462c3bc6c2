import RaryOS.Proofs.SysInfo

/-! # What IOCTL_GET_INFO writes

The fields are filled one after the other, in the order of their offsets. Each part writes its own field, so the
texts of the fields before it stay, and so do the strings that are still to be copied.
-/

namespace RaryOS.Soundness

open RaryOS.Core RaryOS.Model

/-- The string that a search of the SMBIOS table found: `Unknown` if it found none, and else a string that lies
apart from the structure. -/
def Found (m : Memory) (info : ℕ) (result : Option ℕ) (text : List (BitVec 8)) : Prop :=
  ∃ s, result = some s ∧ 0 ∉ text ∧ (orUnknown s).Is m (Span info sizeofSysInfo) text

section Fill

variable {m m' : Memory} {info o o' n fuel : ℕ} {texts : List (ℕ × List (BitVec 8))} {text : List (BitVec 8)}

/-- The fields filled so far, which end at `o` at the latest; nothing has changed outside the structure. -/
structure InfoFilled (info : ℕ) (m m' : Memory) (o : ℕ) (texts : List (ℕ × List (BitVec 8))) : Prop where
  unchanged : ∀ place, ¬Span info sizeofSysInfo place → m' place = m place
  holds : ∀ t ∈ texts, t.1 + t.2.length ≤ o ∧ m'.Holds (info + t.1) t.2

theorem InfoFilled.start (info : ℕ) (m : Memory) : InfoFilled info m m 0 [] :=
  ⟨fun _ _ => rfl, List.forall_mem_nil _⟩

/-- A program that fills the next field, of `n` bytes. -/
theorem InfoFilled.next {x : Prog Unit} (filled : InfoFilled info m m' o texts)
    (ensures : x.Ensures m' (fun _ => True) (Span (info + o') n) fun _ m'' => m''.Holds (info + o') text)
    (later : o ≤ o') (fits : o' + n ≤ sizeofSysInfo) (short : text.length ≤ n) :
    x.Ensures m' (fun _ => True) (Span info sizeofSysInfo) fun _ m'' =>
      InfoFilled info m m'' (o' + n) ((o', text) :: texts) := by
  apply ensures.framed.mono (fun _ good => good) (fun _ => Span.widen (by omega) (by omega))
  rintro _ m'' ⟨holds, unchanged⟩
  constructor
  · intro place outside
    rw [unchanged place (fun span => outside (span.widen (by omega) (by omega))), filled.unchanged place outside]
  · rw [List.forall_mem_cons]
    refine ⟨⟨Nat.add_le_add_left short o', holds⟩, fun t member => ?_⟩
    obtain ⟨before, text⟩ := filled.holds t member
    refine ⟨by omega, text.congr fun k inside => unchanged _ ?_⟩
    rintro ⟨lower, -⟩
    omega

/-- The last fields are numbers. -/
theorem InfoFilled.number (filled : InfoFilled info m m' o texts) (later : o ≤ o') (n value : ℕ)
    (fits : o' + n ≤ sizeofSysInfo) :
    (Prog.writeBytes (info + o') (leBytes n value)).Ensures m' (fun _ => True) (Span info sizeofSysInfo) fun _ m'' =>
      InfoFilled info m m'' (o' + n) ((o', leBytes n value) :: texts) := by
  have length : (leBytes n value).length = n := (List.length_map _).trans List.length_range
  have written := Prog.Ensures.writeBytes m' (fun _ => True) (info + o') (leBytes n value)
  rw [length] at written
  exact filled.next written later fits length.le

/-- The texts of the structure: the names of the machine, the processor, the graphics and the version. -/
structure Texts (m : Memory) (info : ℕ) (host cpu gpu kernel : List (BitVec 8)) : Prop where
  host : m.Holds (info + offHost) (host ++ [0])
  cpu : m.Holds (info + offCpu) (cpu ++ [0])
  gpu : m.Holds (info + offGpu) (gpu ++ [0])
  kernel : m.Holds (info + offKernel) (kernel ++ [0])

/-- The texts and the numbers. -/
structure InfoFields (m : Memory) (info : ℕ) (w : InfoSources) (host cpu gpu kernel : List (BitVec 8)) : Prop
    extends Texts m info host cpu gpu kernel where
  resW : m.Holds (info + offResW) (leBytes 4 w.fbWidth.toNat)
  resH : m.Holds (info + offResH) (leBytes 4 w.fbHeight.toNat)
  uptimeTicks : m.Holds (info + offUptimeTicks) (leBytes 8 w.pitTicks.toNat)
  ramMb : m.Holds (info + offRamMb) (leBytes 8 w.ramMb.toNat)

/-- `fillSysInfo` fills the fields, and writes inside the structure only. -/
theorem fillSysInfo_fields (w : InfoSources) {vendor board version : List (BitVec 8)}
    (foundVendor : Found m info (smbiosGetBoardVendor m w.smbios fuel).value vendor)
    (foundBoard : Found m info (smbiosGetBoardName m w.smbios fuel).value board)
    (isVersion : (SourceText.at w.version).Is m (Span info sizeofSysInfo) version) (nonzero : 0 ∉ version)
    (enough : 64 ≤ fuel) :
    (fillSysInfo w info fuel).Ensures m (fun _ => True) (Span info sizeofSysInfo) fun _ m' =>
      InfoFields m' info w (hostText vendor board) (cpuText w.cpuid) unknownGpu (version.take 31) := by
  obtain ⟨v, vendorResult, vendorNonzero, isVendor⟩ := foundVendor
  obtain ⟨b, boardResult, boardNonzero, isBoard⟩ := foundBoard
  have hostLength : (hostText vendor board ++ [0]).length ≤ 64 := by
    rw [List.length_append]
    exact Nat.succ_le_succ (length_hostText vendor board)
  have cpuLength : (cpuText w.cpuid ++ [0]).length ≤ 64 := by
    rw [List.length_append]
    exact Nat.succ_le_succ (length_cpuText w.cpuid)
  have inStruct : ∀ o n, o + n ≤ sizeofSysInfo → ∀ place, Span (info + o) n place → Span info sizeofSysInfo place :=
    fun o n fits _ => Span.widen (Nat.le_add_right _ _) (by omega)
  rw [fillSysInfo]
  apply Prog.Ensures.ofReading_bind vendorResult (fun _ _ => trivial)
  apply Prog.Ensures.ofReading_bind boardResult (fun _ _ => trivial)
  apply Prog.Ensures.bind _ ((InfoFilled.start info m).next
    (fillHost_ensures isVendor isBoard vendorNonzero boardNonzero (inStruct offHost 64 (by decide)) enough)
    (Nat.zero_le _) (by decide) hostLength)
  rintro _ m₁ filled
  apply Prog.Ensures.bind _ (filled.next (fillCpu_ensures m₁ w.cpuid (info + offCpu) enough) (by decide) (by decide)
    cpuLength)
  rintro _ m₂ filled
  have gpuFuel : unknownGpu.length < fuel := Nat.lt_of_lt_of_le (by decide) enough
  apply Prog.Ensures.bind _ (filled.next (copyLiteral_ensures m₂ (info + offGpu) (by decide) gpuFuel) (by decide)
    (by decide) le_rfl)
  rintro _ m₃ filled
  have isVersion₃ := isVersion.kept filled.unchanged
  have versionLength : (fitting (some 31) 0 version).length ≤ 31 := List.length_take_le _ _
  have version₃ : (copyTerminated (.at w.version) (info + offKernel) (some 31) fuel 0).Ensures m₃ (fun _ => True)
      (Span (info + offKernel) 32) fun _ m' => m'.Holds (info + offKernel) (version.take 31 ++ [0]) := by
    apply (copyTerminated_ensures isVersion₃ nonzero (by omega) ?_).mono (fun _ good => good)
    · exact fun _ => Span.widen le_rfl (by omega)
    · exact fun _ _ post => post
    · exact fun place span => inStruct offKernel 32 (by decide) place (span.widen le_rfl (by omega))
  have kernelLength : (version.take 31 ++ [0]).length ≤ 32 := by
    rw [List.length_append]
    exact Nat.succ_le_succ versionLength
  apply Prog.Ensures.bind _ (filled.next version₃ (by decide) (by decide) kernelLength)
  rintro _ m₄ filled
  apply Prog.Ensures.bind _ (filled.number (by decide) 4 _ (by decide))
  rintro _ m₅ filled
  apply Prog.Ensures.bind _ (filled.number (by decide) 4 _ (by decide))
  rintro _ m₆ filled
  apply Prog.Ensures.bind _ (filled.number (by decide) 8 _ (by decide))
  rintro _ m₇ filled
  apply (filled.number (by decide) 8 _ (by decide)).mono (fun _ good => good) (fun _ good => good)
  rintro _ m₈ filled
  have fields := filled.holds
  simp only [List.forall_mem_cons] at fields
  obtain ⟨⟨-, ramMb⟩, ⟨-, ticks⟩, ⟨-, resH⟩, ⟨-, resW⟩, ⟨-, kernel⟩, ⟨-, gpu⟩, ⟨-, cpu⟩, ⟨-, host⟩, -⟩ := fields
  exact ⟨⟨host, cpu, gpu, kernel⟩, resW, resH, ticks, ramMb⟩

/-- Its texts. -/
theorem fillSysInfo_ensures (w : InfoSources) {vendor board version : List (BitVec 8)}
    (foundVendor : Found m info (smbiosGetBoardVendor m w.smbios fuel).value vendor)
    (foundBoard : Found m info (smbiosGetBoardName m w.smbios fuel).value board)
    (isVersion : (SourceText.at w.version).Is m (Span info sizeofSysInfo) version) (nonzero : 0 ∉ version)
    (enough : 64 ≤ fuel) :
    (fillSysInfo w info fuel).Ensures m (fun _ => True) (Span info sizeofSysInfo) fun _ m' =>
      Texts m' info (hostText vendor board) (cpuText w.cpuid) unknownGpu (version.take 31) := by
  apply (fillSysInfo_fields w foundVendor foundBoard isVersion nonzero enough).mono (fun _ good => good)
    (fun _ good => good)
  exact fun _ _ fields => fields.toTexts

/-- For every vendor and board string (`Unknown` for a missing one), every brand and every version: the request with a
pointer that is not null is handled, writes inside the structure only, and leaves the texts with their terminators
inside their arrays. -/
theorem get_info_fills (rest : CoreServices InfoWorld) (w : InfoWorld) (e : Effect) (ioctl : e.op = effIoctl)
    (getInfo : e.arg0 = ioctlGetInfo) (given : e.arg1 ≠ 0) {vendor board version : List (BitVec 8)}
    (foundVendor : Found w.mem e.arg1.toNat (smbiosGetBoardVendor w.mem w.sources.smbios fuel).value vendor)
    (foundBoard : Found w.mem e.arg1.toNat (smbiosGetBoardName w.mem w.sources.smbios fuel).value board)
    (isVersion : (SourceText.at w.sources.version).Is w.mem (Span e.arg1.toNat sizeofSysInfo) version)
    (nonzero : 0 ∉ version) (enough : 64 ≤ fuel) :
    effectPerform (defaultHandlers (infoServices rest fuel)) w e =
        some ({ w with mem := ((fillSysInfo w.sources e.arg1.toNat fuel).run w.mem).mem },
          { e with result := 0, error := 0 }) ∧
      ((fillSysInfo w.sources e.arg1.toNat fuel).Ensures w.mem (fun _ => True) (Span e.arg1.toNat sizeofSysInfo)
        fun _ m' => Texts m' e.arg1.toNat (hostText vendor board) (cpuText w.sources.cpuid) unknownGpu
          (version.take 31)) ∧
      (hostText vendor board).length < 64 ∧ (cpuText w.sources.cpuid).length < 64 ∧ (version.take 31).length < 32 := by
  refine ⟨?_, fillSysInfo_ensures w.sources foundVendor foundBoard isVersion nonzero enough, ?_, ?_, ?_⟩
  · have chain : effectPerform (defaultHandlers (infoServices rest fuel)) w e =
        performWith [effectCoreHandler (infoServices rest fuel)] w { e with result := 0, error := 0 } := rfl
    have handled : coreIoctl (infoServices rest fuel) w { e with result := 0, error := 0 } =
        some ({ w with mem := ((fillSysInfo w.sources e.arg1.toNat fuel).run w.mem).mem },
          { e with result := 0, error := 0 }, effectHandled) := by
      rw [coreIoctl]
      dsimp only
      rw [getInfo, if_neg (by decide), if_neg (by decide), if_neg (by decide), if_neg (by decide), if_pos rfl,
        if_neg given]
      rfl
    rw [chain, performWith, effectCoreHandler]
    dsimp only
    rw [ioctl, if_neg (by decide), if_neg (by decide), if_pos rfl, ← ioctl, handled]
    rfl
  · exact Nat.lt_succ_of_le (length_hostText vendor board)
  · exact Nat.lt_succ_of_le (length_cpuText w.sources.cpuid)
  · exact Nat.lt_succ_of_le (List.length_take_le _ _)

end Fill

/-! A vendor of 32 characters, a board of 40 and a version of 40, which are cut, and a processor of the brand
`Intel`. -/

def longVendor : List (BitVec 8) := List.replicate 32 (ch 'A')
def longBoard : List (BitVec 8) := List.replicate 40 (ch 'B')
def longVersion : List (BitVec 8) := List.replicate 40 (ch '1')

/-- A table at 0x1000 with the board, and the version at 0x2000. -/
def boardMemory : Memory := fun address =>
  if address < 0x2000 then ([2, 6, 0, 0, 1, 2] ++ longVendor ++ [0] ++ longBoard ++ [0, 0]).getD (address - 0x1000) 0
  else longVersion.getD (address - 0x2000) 0

def boardSources : InfoSources where
  smbios := { table := 0x1000, count := 1 }
  cpuid leaf :=
    if leaf = 0x80000000 then ⟨0x80000004, 0, 0, 0⟩ else if leaf = 0x80000002 then ⟨0x65746E49, 0x6C, 0, 0⟩
    else ⟨0, 0, 0, 0⟩
  version := 0x2000
  fbWidth := 1024
  fbHeight := 768
  pitTicks := 100
  ramMb := 512

def quietServices : CoreServices InfoWorld where
  terminalWrite w _ _ := w
  read w _ _ := some (w, 0)
  clearTerminal w := w
  pitTicks _ := 0
  acpiShutdown := some
  acpiReboot := some
  fillSysInfo w _ := w

theorem get_info_fills_sample :
    effectPerform (defaultHandlers (infoServices quietServices 64)) ⟨boardMemory, boardSources⟩
        { op := effIoctl, arg0 := ioctlGetInfo, arg1 := 0x3000, arg2 := 0, arg3 := 0 } =
      some (⟨((fillSysInfo boardSources 0x3000 64).run boardMemory).mem, boardSources⟩,
        { op := effIoctl, arg0 := ioctlGetInfo, arg1 := 0x3000, arg2 := 0, arg3 := 0 }) ∧
      (fillSysInfo boardSources 0x3000 64).Ensures boardMemory (fun _ => True) (Span 0x3000 256) fun _ m' =>
        Texts m' 0x3000 (List.replicate 30 (ch 'A') ++ ch ' ' :: List.replicate 32 (ch 'B'))
          [ch 'I', ch 'n', ch 't', ch 'e', ch 'l'] unknownGpu (List.replicate 31 (ch '1')) := by
  have apart : ∀ place k, place ≤ 0x2000 → k ≤ 40 → ¬Span 0x3000 sizeofSysInfo (place + k) := by
    rintro place k low inside ⟨lower, -⟩
    omega
  have isVendor : (SourceText.at 0x1006).Is boardMemory (Span 0x3000 sizeofSysInfo) longVendor :=
    ⟨by decide, fun k inside => apart _ k (by decide) (inside.trans (by decide))⟩
  have isBoard : (SourceText.at 0x1027).Is boardMemory (Span 0x3000 sizeofSysInfo) longBoard :=
    ⟨by decide, fun k inside => apart _ k (by decide) inside⟩
  have isVersion : (SourceText.at 0x2000).Is boardMemory (Span 0x3000 sizeofSysInfo) longVersion :=
    ⟨by decide, fun k inside => apart _ k (by decide) inside⟩
  have host : hostText longVendor longBoard = List.replicate 30 (ch 'A') ++ ch ' ' :: List.replicate 32 (ch 'B') := by
    decide
  have cpu : cpuText boardSources.cpuid = [ch 'I', ch 'n', ch 't', ch 'e', ch 'l'] := by decide
  obtain ⟨handled, fills, -⟩ := get_info_fills quietServices ⟨boardMemory, boardSources⟩
    { op := effIoctl, arg0 := ioctlGetInfo, arg1 := 0x3000, arg2 := 0, arg3 := 0 } rfl rfl (by decide)
    ⟨0x1006, by decide, by decide, isVendor⟩ ⟨0x1027, by decide, by decide, isBoard⟩ isVersion (by decide) le_rfl
  simp only [host, cpu] at fills
  exact ⟨handled, fills⟩

end RaryOS.Soundness
