import RaryOS.Core.BitFields
import RaryOS.Model.ControlTransfer
import RaryOS.Proofs.TransferRing

/-! # What the controller makes of a control request

The xHCI layout of the three TRBs is read back from the ring. With the transfer type of the setup TRB the
controller learns early whether data follows, and in which direction: 2 stands for OUT and 3 for IN.
`control_xfer` has them the other way round, so exactly the requests without data are decoded to themselves.
-/

namespace RaryOS.Soundness

open RaryOS.Core RaryOS.Model

/-! ## The layout -/

/-- A data stage: where, how much, and whether to the host. -/
structure DataStage where
  address : ℕ
  length : ℕ
  dirIn : Bool
deriving DecidableEq, Repr

/-- The stages of a control transfer. -/
structure ControlStages where
  bmRequestType : ℕ
  bRequest : ℕ
  wValue : ℕ
  wIndex : ℕ
  wLength : ℕ
  trt : ℕ
  data : Option DataStage
  statusIn : Bool
deriving DecidableEq, Repr

/-- The TRB at `idx`, if the controller owns it and it has this type. -/
def ownedTrb (ring : ℕ → Trb) (cycle type idx : ℕ) : Option Trb :=
  if idx < ringTrbs ∧ (ring idx).cycle = cycle ∧ (ring idx).type = type then some (ring idx) else none

/-- DIR. -/
def trbDirIn (t : Trb) : Bool := bitField t.control 16 1 = 1

/-- A setup TRB has the setup packet in its parameter, so it needs IDT and the length 8. -/
def isSetupPacket (t : Trb) : Bool := bitField t.status 0 17 = 8 ∧ bitField t.control 6 1 = 1

def dataStage (t : Trb) : DataStage where
  address := t.parameter
  length := bitField t.status 0 17
  dirIn := trbDirIn t

def controlStages (setup : Trb) (data : Option Trb) (status : Trb) : ControlStages where
  bmRequestType := bitField setup.parameter 0 8
  bRequest := bitField setup.parameter 8 8
  wValue := bitField setup.parameter 16 16
  wIndex := bitField setup.parameter 32 16
  wLength := bitField setup.parameter 48 16
  trt := bitField setup.control 16 2
  data := data.map dataStage
  statusIn := trbDirIn status

/-- The control transfer that begins at `idx`, and the index after it. -/
def decodeControl (ring : ℕ → Trb) (cycle idx : ℕ) : Option (ControlStages × ℕ) := do
  let setup ← ownedTrb ring cycle xhciTrbSetup idx
  guard (isSetupPacket setup)
  let data := ownedTrb ring cycle xhciTrbData (idx + 1)
  let last := if data.isSome then idx + 2 else idx + 1
  let status ← ownedTrb ring cycle xhciTrbStatus last
  some (controlStages setup data status, last + 1)

/-- The stages of a request, as the USB and xHCI specifications have them. -/
def requestStages (r : ControlRequest) : ControlStages where
  bmRequestType := r.bmRequestType.toNat
  bRequest := r.bRequest.toNat
  wValue := r.wValue.toNat
  wIndex := r.wIndex.toNat
  wLength := r.wLength.toNat
  trt := if r.wLength = 0 then 0 else if r.dirIn = 0 then 2 else 3
  data := if r.wLength = 0 then none else some ⟨r.data.toNat, r.wLength.toNat, decide (r.dirIn ≠ 0)⟩
  statusIn := if r.wLength = 0 then true else decide (r.dirIn = 0)

/-- On a ring with room the request is queued inside it, with its cycle flag, and decoded to itself. -/
def ControlDecodes (r : ControlRequest) (p : RingProducer) (ring : ℕ → Trb) : Prop :=
  ∃ stores after status, controlXfer p r = some (stores, after, status) ∧
    (∀ st ∈ stores, st.slot < ringTrbs) ∧ after.cycle = p.cycle ∧
    decodeControl (applyStores stores ring) p.cycle p.idx = some (requestStages r, after.idx)

/-! ## Words of the three TRBs -/

/-- The fields of a control word that the three TRBs have in common. -/
structure ControlFields (t : Trb) (type dir cycle : ℕ) : Prop where
  cycle : t.cycle = cycle
  type : t.type = type
  dir : ∀ width ≤ 16, bitField t.control 16 width = dir % 2 ^ width

/-- A word with `flags` between the cycle bit and the type. -/
theorem controlFields_of_word {t : Trb} {type dir flags cycle : ℕ} (small : type < 2 ^ 6) (bit : cycle ≤ 1)
    (low : flags < 2 ^ 10) (even : flags % 2 = 0)
    (word : ∀ at_bit width, at_bit + width ≤ 32 → bitField t.control at_bit width =
      bitField ((type <<< 10) ||| (dir <<< 16) ||| flags ||| cycle) at_bit width) :
    ControlFields t type dir cycle where
  cycle := by
    have field := word 0 1 (by decide)
    rw [bitField_or, bitField_or, bitField_or, bitField_shiftLeft_above type (show 0 + 1 ≤ 10 by decide),
      bitField_shiftLeft_above dir (show 0 + 1 ≤ 16 by decide),
      bitField_zero_of_lt (show cycle < 2 ^ 1 by omega)] at field
    rw [bitField, bitField, Nat.pow_zero, Nat.div_one, Nat.div_one, Nat.pow_one, even, Nat.zero_or, Nat.zero_or,
      Nat.zero_or] at field
    exact field
  type := by
    have field := word 10 6 (by decide)
    rw [bitField_or, bitField_or, bitField_or, bitField_shiftLeft_same, bitField_shiftLeft_above dir (le_refl 16),
      bitField_of_lt low, bitField_of_lt (show cycle < 2 ^ 10 by omega), Nat.or_zero, Nat.or_zero, Nat.or_zero,
      Nat.mod_eq_of_lt small] at field
    exact field
  dir width inside := by
    rw [word 16 width (by omega), bitField_or, bitField_or, bitField_or, bitField_shiftLeft_same,
      bitField_shiftLeft_below small (le_refl 16), bitField_of_lt (show flags < 2 ^ 16 by omega),
      bitField_of_lt (show cycle < 2 ^ 16 by omega), Nat.zero_or, Nat.or_zero, Nat.or_zero]

section Trbs

variable {r : ControlRequest} {cycle : ℕ}

theorem setupTrb_fields (r : ControlRequest) (bit : cycle ≤ 1) :
    ControlFields (setupTrb r cycle) xhciTrbSetup r.trt cycle :=
  controlFields_of_word (by decide) bit (show 1 <<< 6 < 2 ^ 10 by decide) (by decide) fun _ _ _ => rfl

theorem dataTrb_fields (r : ControlRequest) (bit : cycle ≤ 1) :
    ControlFields (dataTrb r cycle) xhciTrbData r.dirIn.toNat cycle := by
  refine controlFields_of_word (by decide) bit (show 0 < 2 ^ 10 by decide) (by decide) fun _ _ inside => ?_
  rw [dataTrb, bitField_mod _ inside, Nat.or_zero]

theorem statusTrb_fields (r : ControlRequest) (bit : cycle ≤ 1) :
    ControlFields (statusTrb r cycle) xhciTrbStatus r.statusDir cycle :=
  controlFields_of_word (by decide) bit (show 1 <<< 5 < 2 ^ 10 by decide) (by decide) fun _ _ _ => rfl

theorem setupTrb_isSetupPacket (r : ControlRequest) (bit : cycle ≤ 1) : isSetupPacket (setupTrb r cycle) = true := by
  rw [isSetupPacket, decide_eq_true_eq]
  refine ⟨bitField_zero_of_lt (show 8 < 2 ^ 17 by decide), ?_⟩
  rw [setupTrb, bitField_or, bitField_or, bitField_or, bitField_shiftLeft_same,
    bitField_shiftLeft_above xhciTrbSetup (show 6 + 1 ≤ 10 by decide),
    bitField_shiftLeft_above r.trt (show 6 + 1 ≤ 16 by decide), bitField_of_lt (show cycle < 2 ^ 6 by omega)]
  rfl

theorem setupParam_eq (r : ControlRequest) :
    r.setupParam = r.bmRequestType.toNat + 2 ^ 8 * r.bRequest.toNat + 2 ^ 16 * r.wValue.toNat +
      2 ^ 32 * r.wIndex.toNat + 2 ^ 48 * r.wLength.toNat := by
  have type := r.bmRequestType.isLt
  have request := r.bRequest.isLt
  have value := r.wValue.isLt
  have index := r.wIndex.isLt
  rw [ControlRequest.setupParam, or_shiftLeft_of_lt type,
    or_shiftLeft_of_lt (show _ + 2 ^ 8 * r.bRequest.toNat < 2 ^ 16 by omega),
    or_shiftLeft_of_lt (show _ + 2 ^ 16 * r.wValue.toNat < 2 ^ 32 by omega),
    or_shiftLeft_of_lt (show _ + 2 ^ 32 * r.wIndex.toNat < 2 ^ 48 by omega)]

theorem hasData_iff (r : ControlRequest) : r.hasData = true ↔ r.wLength ≠ 0 := decide_eq_true_iff

theorem trt_lt (r : ControlRequest) : r.trt < 2 ^ 2 := by
  rw [ControlRequest.trt]
  split_ifs <;> decide

theorem statusDir_eq (r : ControlRequest) : decide (r.statusDir % 2 ^ 1 = 1) = (requestStages r).statusIn := by
  rw [ControlRequest.statusDir, requestStages]
  simp only [hasData_iff, ne_eq, ite_not]
  by_cases none : r.wLength = 0
  · rw [if_pos none, if_pos none]
    rfl
  · rw [if_neg none, if_neg none]
    by_cases out : r.dirIn = 0
    · rw [if_pos out, decide_eq_true out]
      rfl
    · rw [if_neg out, decide_eq_false out]
      rfl

/-- The stages that `control_xfer` puts into the TRBs: everything is as requested but the transfer type, and
the direction of the data is the low bit of `dir_in`. -/
def sentStages (r : ControlRequest) : ControlStages :=
  { requestStages r with
    trt := r.trt
    data := if r.wLength = 0 then none
      else some ⟨r.data.toNat, r.wLength.toNat, decide (r.dirIn.toNat % 2 ^ 1 = 1)⟩ }

theorem controlStages_trbs (r : ControlRequest) (bit : cycle ≤ 1) :
    controlStages (setupTrb r cycle) (if r.hasData then some (dataTrb r cycle) else none) (statusTrb r cycle) =
      sentStages r := by
  have type := r.bmRequestType.isLt
  have request := r.bRequest.isLt
  have value := r.wValue.isLt
  have index := r.wIndex.isLt
  have length := r.wLength.isLt
  have param : (setupTrb r cycle).parameter = _ := setupParam_eq r
  have trt := ((setupTrb_fields r bit).dir 2 (by decide)).trans (Nat.mod_eq_of_lt (trt_lt r))
  have status := (statusTrb_fields r bit).dir 1 (by decide)
  have dir := (dataTrb_fields r bit).dir 1 (by decide)
  rw [controlStages, param, trt, trbDirIn, status, statusDir_eq]
  have data : Option.map dataStage (if r.hasData then some (dataTrb r cycle) else none) =
      if r.wLength = 0 then none
      else some ⟨r.data.toNat, r.wLength.toNat, decide (r.dirIn.toNat % 2 ^ 1 = 1)⟩ := by
    simp only [hasData_iff, ne_eq, ite_not]
    by_cases none : r.wLength = 0
    · rw [if_pos none, if_pos none]
      rfl
    · rw [if_neg none, if_neg none, Option.map_some, dataStage, trbDirIn, dir, dataTrb,
        bitField_zero_of_lt (show r.wLength.toNat < 2 ^ 17 by omega)]
  rw [data, sentStages, requestStages, ControlStages.mk.injEq]
  simp only [bitField, and_self, and_true]
  refine ⟨?_, ?_, ?_, ?_, ?_⟩ <;> omega

/-- They are the requested ones exactly when there is no data. -/
theorem sentStages_eq_iff (r : ControlRequest) : sentStages r = requestStages r ↔ r.wLength = 0 := by
  constructor
  · intro same
    by_contra carries
    have trt := congrArg ControlStages.trt same
    simp only [sentStages, requestStages, ControlRequest.trt, (hasData_iff r).mpr carries, if_true,
      if_neg carries] at trt
    by_cases out : r.dirIn = 0
    · rw [if_pos out, if_neg (not_not.mpr out)] at trt
      exact absurd trt (by decide)
    · rw [if_neg out, if_pos out] at trt
      exact absurd trt (by decide)
  · intro empty
    have noData : ¬r.hasData = true := fun carries => (hasData_iff r).mp carries empty
    rw [sentStages, ControlRequest.trt, if_neg noData, if_pos empty, requestStages, if_pos empty, if_pos empty,
      if_pos empty]

end Trbs

/-! ## The ring -/

section Ring

variable {r : ControlRequest} {p : RingProducer} {ring : ℕ → Trb}

/-- TRBs that are stored one after the other. -/
theorem applyStores_zipIdx (trbs : List Trb) (idx : ℕ) (ring : ℕ → Trb) (slot : ℕ) :
    applyStores ((trbs.zipIdx idx).flatMap fun t => trbStores t.2 t.1) ring slot =
      if slot < idx then ring slot else (trbs[slot - idx]?).getD (ring slot) := by
  induction trbs generalizing idx ring with
  | nil => exact (ite_self _).symm
  | cons t rest ih =>
    rw [List.zipIdx_cons, List.flatMap_cons, applyStores_append]
    apply (ih (idx + 1) (applyStores (trbStores idx t) ring)).trans
    rcases Nat.lt_trichotomy slot idx with before | rfl | after
    · rw [if_pos (show slot < idx + 1 by omega), if_pos before, (trbStores_batch idx t).applyStores_other (by omega)]
    · rw [if_pos (Nat.lt_succ_self slot), if_neg (Nat.lt_irrefl slot), applyStores_trbStores, Nat.sub_self]
      rfl
    · rw [if_neg (by omega), if_neg (by omega), (trbStores_batch idx t).applyStores_other (by omega),
        show slot - idx = slot - (idx + 1) + 1 by omega, List.getElem?_cons_succ]

theorem applyStores_controlTrbs (trbs : List Trb) (idx : ℕ) (ring : ℕ → Trb) {k : ℕ} {t : Trb}
    (here : trbs[k]? = some t) :
    applyStores ((trbs.zipIdx idx).flatMap fun t => trbStores t.2 t.1) ring (idx + k) = t := by
  rw [applyStores_zipIdx, if_neg (by omega), Nat.add_sub_cancel_left, here, Option.getD_some]

theorem ownedTrb_of_fields {cycle type dir idx : ℕ} {t : Trb} (here : ring idx = t)
    (fields : ControlFields t type dir cycle) (inside : idx < ringTrbs) : ownedTrb ring cycle type idx = some t := by
  subst here
  exact if_pos ⟨inside, fields.cycle, fields.type⟩

theorem ownedTrb_of_other {cycle type other dir idx : ℕ} {t : Trb} (here : ring idx = t)
    (fields : ControlFields t other dir cycle) (different : other ≠ type) : ownedTrb ring cycle type idx = none := by
  subst here
  exact if_neg fun owned => different (fields.type.symm.trans owned.2.2)

theorem controlStores_inside (trbs : List Trb) {idx : ℕ} (room : idx + trbs.length ≤ ringTrbs) :
    ∀ st ∈ (trbs.zipIdx idx).flatMap fun t => trbStores t.2 t.1, st.slot < ringTrbs := by
  intro st member
  obtain ⟨⟨t, slot⟩, entry, store⟩ := List.mem_flatMap.mp member
  have inside := List.snd_lt_of_mem_zipIdx entry
  have slots : st.slot = slot := by
    simp only [trbStores, List.mem_cons, List.not_mem_nil, or_false] at store
    rcases store with rfl | rfl | rfl <;> rfl
  omega

theorem controlTrbs_length_le (r : ControlRequest) (cycle : ℕ) : (controlTrbs r cycle).length ≤ 3 := by
  rw [controlTrbs]
  split_ifs <;> simp

/-- The controller reads the three TRBs of a request, or the two of one without data. -/
theorem decodeControl_controlTrbs (r : ControlRequest) (ring : ℕ → Trb) {cycle idx : ℕ} (bit : cycle ≤ 1)
    (room : idx + 3 < ringTrbs) :
    decodeControl (applyStores (((controlTrbs r cycle).zipIdx idx).flatMap fun t => trbStores t.2 t.1) ring) cycle idx =
      some (controlStages (setupTrb r cycle) (if r.hasData then some (dataTrb r cycle) else none) (statusTrb r cycle),
        idx + (controlTrbs r cycle).length) := by
  have stored := fun k t => @applyStores_controlTrbs (controlTrbs r cycle) idx ring k t
  generalize applyStores _ ring = after at stored
  have setup := ownedTrb_of_fields (stored 0 _ rfl) (setupTrb_fields r bit) (by omega)
  rw [Nat.add_zero] at setup
  simp only [decodeControl, setup, Option.bind_eq_bind, Option.bind_some, setupTrb_isSetupPacket r bit, guard_true]
  by_cases hasData : r.hasData = true
  · have trbs : controlTrbs r cycle = [setupTrb r cycle, dataTrb r cycle, statusTrb r cycle] := by
      rw [controlTrbs, if_pos hasData]
      rfl
    rw [trbs] at stored ⊢
    rw [ownedTrb_of_fields (stored 1 _ rfl) (dataTrb_fields r bit) (by omega), Option.isSome_some, if_pos rfl,
      ownedTrb_of_fields (stored 2 _ rfl) (statusTrb_fields r bit) (by omega), if_pos hasData]
    rfl
  · have trbs : controlTrbs r cycle = [setupTrb r cycle, statusTrb r cycle] := by
      rw [controlTrbs, if_neg hasData]
      rfl
    rw [trbs] at stored ⊢
    rw [ownedTrb_of_other (stored 1 _ rfl) (statusTrb_fields r bit) (by decide), Option.isSome_none,
      if_neg Bool.false_ne_true, ownedTrb_of_fields (stored 1 _ rfl) (statusTrb_fields r bit) (by omega),
      if_neg hasData]
    rfl

end Ring

/-- For every request on a ring with room: the controller decodes it to itself exactly when it has no data. -/
theorem controlXfer_decodes_iff {r : ControlRequest} {p : RingProducer} (ring : ℕ → Trb) (bit : p.cycle ≤ 1)
    (room : p.idx + 3 < ringTrbs) : ControlDecodes r p ring ↔ r.wLength = 0 := by
  have queued : controlXfer p r = some (_, _, _) := if_neg (by omega)
  have decoded := decodeControl_controlTrbs r ring bit room
  rw [controlStages_trbs r bit] at decoded
  constructor
  · rintro ⟨stores, after, status, here, _, _, same⟩
    rw [queued] at here
    cases here
    rw [decoded] at same
    exact (sentStages_eq_iff r).mp (congrArg Prod.fst (Option.some.inj same))
  · intro empty
    rw [(sentStages_eq_iff r).mpr empty] at decoded
    refine ⟨_, _, _, queued, controlStores_inside _ ?_, rfl, decoded⟩
    have length := controlTrbs_length_le r p.cycle
    omega

/-! ## A request without data, and one with -/

/-- `set_idle` for interface 0. -/
theorem controlXfer_decodes_iff_sample : ControlDecodes (.setIdle 0) ep0Init ep0InitRing :=
  (controlXfer_decodes_iff ep0InitRing (by decide) (by decide)).mpr rfl

/-- `get_descriptor` for the 18 bytes of the device, to 2 MiB. -/
theorem controlXfer_misdecodes :
    ControlRequest.trt (.getDescriptor 1 0 0x200000 18) = 2 ∧
      ¬ControlDecodes (.getDescriptor 1 0 0x200000 18) ep0Init ep0InitRing := by
  refine ⟨rfl, ?_⟩
  rintro ⟨stores, after, status, here, _, _, same⟩
  cases here
  have trt := congrArg (Option.map fun t => t.1.trt) same
  exact absurd trt (by decide)

end RaryOS.Soundness
