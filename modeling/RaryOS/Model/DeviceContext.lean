import Mathlib.Logic.Function.Basic
import RaryOS.Model.ControlTransfer

/-! # Device contexts

The driver tells the controller about a slot in `input_ctx`: flags for the parts that it gives, then the context of
the slot and those of its endpoints. `Address Device` and `Configure Endpoint` make the controller copy the flagged
parts to the element of `dev_ctx` that `dcbaap` has for the slot. A context has eight words of 32 bits, and
`input_ctx` has the flags in front, so that everything lies one context later there.
-/

namespace RaryOS.Model

/-- The words of contexts that follow each other. -/
abbrev Contexts := ℕ → ℕ → BitVec 32

/-- Zeroed words of which the first ones were stored. -/
def wordsOf (stored : List (BitVec 32)) : ℕ → BitVec 32 := fun i => stored.getD i 0

/-- `ec[0]` to `ec[4]`: the dequeue pointer has the cycle state 1. -/
def endpointWords (ec0 ec1 : BitVec 32) (ringPhys : BitVec 64) : ℕ → BitVec 32 :=
  wordsOf [ec0, ec1, (ringPhys &&& 0xFFFFFFF0).setWidth 32 ||| 1, (ringPhys >>> 32).setWidth 32, 8]

/-- `dci` of `configure_endpoint`. -/
def endpointDci (epNum : BitVec 8) : BitVec 8 := epNum * 2 + 1

/-- `sc_new[0]` with at least `dci` entries. -/
def withEntries (sc0 : BitVec 32) (dci : BitVec 8) : BitVec 32 :=
  let cur := sc0 >>> 27 &&& 0x1F
  let cur := if cur < dci.setWidth 32 then dci.setWidth 32 else cur
  sc0 &&& ~~~(0x1F#32 <<< 27) ||| cur <<< 27

/-- `input_ctx`, `dcbaap` as the elements of `dev_ctx` that it points to, and `dev_ctx`. -/
structure UsbContexts where
  inputCtx : Contexts := fun _ _ => 0
  dcbaap : BitVec 8 → Option (BitVec 8) := fun _ => none
  devCtx : BitVec 8 → Contexts := fun _ _ _ => 0

namespace UsbContexts

/-- `address_device` up to its command. -/
def addressDevice (s : UsbContexts) (ep0Ring : BitVec 64) (slot : BitVec 8) (port speed : BitVec 32) : UsbContexts where
  inputCtx
    | 0 => wordsOf [0, 1#32 <<< 0 ||| 1#32 <<< 1]
    | 1 => wordsOf [speed <<< 20 ||| 1#32 <<< 27, port <<< 16]
    | 2 => endpointWords 0 (4#32 <<< 3 ||| 8#32 <<< 16) ep0Ring
    | _ => wordsOf []
  dcbaap := Function.update s.dcbaap slot (some slot)
  devCtx := Function.update s.devCtx slot fun _ _ => 0

/-- `configure_endpoint` up to its command. -/
def configureEndpoint (s : UsbContexts) (intrRing : BitVec 64) (slot epNum epType : BitVec 8) (mps : BitVec 16)
    (interval : BitVec 8) : UsbContexts :=
  let dci := endpointDci epNum
  let slotCtx := s.devCtx slot 0
  let zeroed : Contexts
    | 0 => wordsOf [0, 1#32 <<< 0 ||| 1#32 <<< dci.toNat]
    | 1 => Function.update slotCtx 0 (withEntries (slotCtx 0) dci)
    | _ => wordsOf []
  { s with
    inputCtx := Function.update zeroed (dci.toNat + 1)
      (endpointWords (interval.setWidth 32 <<< 16) (epType.setWidth 32 <<< 3 ||| mps.setWidth 32 <<< 16) intrRing) }

end UsbContexts

/-! ## The controller -/

/-- Context Entries, the number of the last endpoint. -/
def contextEntries (slotCtx : ℕ → BitVec 32) : ℕ := ((slotCtx 0).extractLsb' 27 5).toNat

/-- The context of an endpoint that runs is that of the input, with the state of the endpoint in the lowest bits. -/
structure EndpointRuns (input out : ℕ → BitVec 32) : Prop where
  state : (out 0).extractLsb' 0 3 = 1
  rest : out 0 >>> 3 = input 0 >>> 3
  words : ∀ i, 0 < i → i < 5 → out i = input i

/-- `Address Device`: the slot and endpoint 0 come from the input. The fourth word is the controller's. -/
structure AddressExecuted (input out out' : Contexts) : Prop where
  slot : ∀ i < 3, out' 0 i = input 1 i
  control : EndpointRuns (input 2) (out' 1)
  others : ∀ k, 2 ≤ k → out' k = out k

/-- `Configure Endpoint`: the slot gets the number of its entries, endpoints are added and dropped by the flags, and
the others are left. -/
structure ConfigureExecuted (input out out' : Contexts) : Prop where
  entries : contextEntries (out' 0) = contextEntries (input 1)
  rest : (out' 0 0).setWidth 27 = (out 0 0).setWidth 27
  slot : ∀ i, 0 < i → i < 3 → out' 0 i = out 0 i
  added : ∀ k, 2 ≤ k → (input 0 1).getLsbD k = true → EndpointRuns (input (k + 1)) (out' k)
  dropped : ∀ k, 2 ≤ k → (input 0 1).getLsbD k = false → (input 0 0).getLsbD k = true →
    (out' k 0).extractLsb' 0 3 = 0
  others : ∀ k, 1 ≤ k → (k = 1 ∨ (input 0 1).getLsbD k = false ∧ (input 0 0).getLsbD k = false) → out' k = out k

/-- An endpoint as its context says. -/
structure UsbEndpoint where
  epType : BitVec 3
  maxPacketSize : BitVec 16
  interval : BitVec 8
  ring : BitVec 64
  cycle : Bool
deriving DecidableEq

/-- An endpoint in the state 0 is disabled. -/
def UsbEndpoint.read (w : ℕ → BitVec 32) : Option UsbEndpoint :=
  if (w 0).extractLsb' 0 3 = 0 then none
  else
    some
      { epType := (w 1).extractLsb' 3 3
        maxPacketSize := (w 1).extractLsb' 16 16
        interval := (w 0).extractLsb' 16 8
        ring := w 3 ++ (w 2).extractLsb' 4 28 ++ 0#4
        cycle := (w 2).getLsbD 0 }

/-- Where the controller starts on the endpoint's ring, when the ring is at this address. -/
def UsbEndpoint.consumer (e : UsbEndpoint) (ringPhys : BitVec 64) : RingConsumer where
  dequeue := (e.ring - ringPhys).toNat / 16
  ccs := e.cycle.toNat

/-- A device with its running endpoints, as the controller finds it. -/
structure UsbDevice where
  port : BitVec 8
  speed : BitVec 4
  endpoints : ℕ → Option UsbEndpoint

/-- A slot without entries has no device. -/
def UsbDevice.read (c : Contexts) : Option UsbDevice :=
  if contextEntries (c 0) = 0 then none
  else
    some
      { port := (c 0 1).extractLsb' 16 8
        speed := (c 0 0).extractLsb' 20 4
        endpoints := fun k => if 1 ≤ k ∧ k ≤ contextEntries (c 0) then UsbEndpoint.read (c k) else none }

end RaryOS.Model
