import RaryOS.Proofs.MallocFree

/-! # The tiled heap, and what `malloc` may do to it

`HeapRep start h blocks` is the heap invariant: the blocks tile the range from `start` to the break,
memory holds their headers, and a live block is at least as long as requested. `malloc` either takes
a free block of the list (`HeapRep.take`) or puts a new one at the break (`HeapRep.bump_first`,
`HeapRep.bump_next`).
-/

namespace RaryOS.Model

open RaryOS.Core MemoryBlock

/-- An address up to which blocks may reach: the size that `split` compares with does not wrap around. -/
structure HeapTop (start top : ℕ) : Prop where
  small : top < 2 ^ 64
  spare : top + 16 < 2 ^ 64 + start

theorem HeapTop.mono {start top lower : ℕ} (bound : HeapTop start top) (le : lower ≤ top) : HeapTop start lower :=
  ⟨Nat.lt_of_le_of_lt le bound.small, Nat.lt_of_le_of_lt (Nat.add_le_add_right le 16) bound.spare⟩

theorem HeapTop.of_lt {start top : ℕ} (small : top < 2 ^ 63) : HeapTop start top := ⟨by omega, by omega⟩

/-- The blocks tile what `sbrk` has handed out, and memory holds their headers. -/
structure HeapRep (start : ℕ) (h : KernelHeap) (blocks : List Block) : Prop where
  positive : 0 < start
  endSmall : HeapTop start h.heapEnd
  limitSmall : HeapTop start h.heapLimit
  tiles : BlockTiles start blocks h.heapEnd
  headers : Headers h.mem blocks 0
  first : h.firstBlock = linkOf blocks 0
  fits : ∀ b ∈ blocks, ∀ request, b.request = some request → request ≤ b.size

/-- The pointer belongs to a live block of the list. -/
def LiveIn (blocks : List Block) (ptr request : ℕ) : Prop :=
  ∃ b ∈ blocks, data b.addr = ptr ∧ b.request = some request

theorem data_inj {x y : ℕ} : data x = data y ↔ x = y := Nat.add_right_cancel_iff

theorem fromData_data (block : ℕ) : fromData (data block) = block := Nat.add_sub_cancel _ _

theorem HeapRep.start_le {start : ℕ} {h : KernelHeap} {blocks : List Block}
    (rep : HeapRep start h blocks) : start ≤ h.heapEnd := rep.tiles.le

theorem HeapRep.first_ne_zero {start : ℕ} {h : KernelHeap} {b : Block} {rest : List Block}
    (rep : HeapRep start h (b :: rest)) : h.firstBlock ≠ 0 := by
  have bounds := (rep.tiles.bounds_of_mem List.mem_cons_self).1
  have positive := rep.positive
  rw [rep.first, linkOf]
  omega

/-- A heap survives writes below it. -/
theorem HeapRep.congr {start : ℕ} {h h' : KernelHeap} {blocks : List Block}
    (rep : HeapRep start h blocks) (agree : ∀ query, start ≤ query → h'.mem query = h.mem query)
    (heapEnd : h'.heapEnd = h.heapEnd) (heapLimit : h'.heapLimit = h.heapLimit)
    (firstBlock : h'.firstBlock = h.firstBlock) : HeapRep start h' blocks where
  positive := rep.positive
  endSmall := heapEnd ▸ rep.endSmall
  limitSmall := heapLimit ▸ rep.limitSmall
  tiles := heapEnd ▸ rep.tiles
  headers := rep.headers.congr fun _ member query lower _ =>
    agree query (Nat.le_trans (rep.tiles.bounds_of_mem member).1 lower)
  first := firstBlock.trans rep.first
  fits := rep.fits

/-- Blocks of one address are the same block. -/
theorem BlockTiles.eq_of_addr {start stop : ℕ} {blocks : List Block}
    (tiles : BlockTiles start blocks stop) {b c : Block} (memB : b ∈ blocks) (memC : c ∈ blocks)
    (same : b.addr = c.addr) : b = c := by
  have lengthB := b.addr_le_stop
  have lengthC := c.addr_le_stop
  simp only [headerSize] at lengthB lengthC
  rcases tiles.eq_or_disjoint memB memC with equal | before | after
  · exact equal
  · omega
  · omega

/-! ## Growing the heap -/

/-- `malloc` computes the increment for a request without wrapping around, and where the new break
wraps it lies below `kernel_end`, so that `sbrk` refuses it. -/
structure RequestFits (h : KernelHeap) (size : ℕ) : Prop where
  total : size + 7 + headerSize < 2 ^ 64
  wrap : h.heapEnd + (headerSize + roundRequest size) < 2 ^ 64 + h.kernelEnd

theorem roundRequest_lt (size : ℕ) : roundRequest size < 2 ^ 64 := by
  rw [roundRequest]
  omega

theorem roundRequest_mod (size : ℕ) : roundRequest size % 8 = 0 := Nat.mul_mod_left _ 8

theorem RequestFits.le_round {h : KernelHeap} {size : ℕ} (request : RequestFits h size) :
    size ≤ roundRequest size ∧ headerSize + roundRequest size < 2 ^ 64 := by
  have total := request.total
  simp only [headerSize] at total ⊢
  rw [roundRequest]
  omega

/-- Requests below `2 ^ 62` are of this kind. -/
theorem RequestFits.of_lt {h : KernelHeap} {size : ℕ} (endSmall : h.heapEnd < 2 ^ 63)
    (small : size < 2 ^ 62) : RequestFits h size := by
  constructor <;> simp only [headerSize, roundRequest] <;> omega

/-- `sbrk` fails and leaves the break alone: the new break is out of bounds, or both breaks are `(void*)-1`. -/
def SbrkRefuses (h : KernelHeap) (increment : ℕ) : Prop :=
  (h.heapLimit < (h.heapEnd + increment) % 2 ^ 64 ∨ (h.heapEnd + increment) % 2 ^ 64 < h.kernelEnd) ∨
    h.heapEnd = sbrkFailed ∧ (h.heapEnd + increment) % 2 ^ 64 = sbrkFailed

instance (h : KernelHeap) (increment : ℕ) : Decidable (SbrkRefuses h increment) := inferInstanceAs (Decidable (_ ∨ _))

/-- No sum that decides over the request wraps around. If a free block `fits` the rounded size, that size is
not below the requested one; if none does, the extension is refused or ends within the limit. -/
def RequestServed (h : KernelHeap) (size : ℕ) (fits : Prop) : Prop :=
  size = 0 ∨ fits ∧ size ≤ roundRequest size ∨
    ¬fits ∧ (SbrkRefuses h ((headerSize + roundRequest size) % 2 ^ 64) ∨
      size ≤ roundRequest size ∧ h.heapEnd + (headerSize + roundRequest size) ≤ h.heapLimit)

theorem SbrkRefuses.eq {h : KernelHeap} {increment : ℕ} (refuses : SbrkRefuses h increment) :
    sbrk h increment = (sbrkFailed, h) := by
  rw [sbrk]
  split
  · rfl
  · next inside =>
    obtain ⟨before, after⟩ := refuses.resolve_left inside
    rw [after, ← before]

theorem sbrk_granted {h : KernelHeap} {increment : ℕ} (granted : ¬SbrkRefuses h increment) :
    sbrk h increment = (h.heapEnd, { h with heapEnd := (h.heapEnd + increment) % 2 ^ 64 }) := by
  rw [SbrkRefuses, not_or] at granted
  exact if_neg granted.1

/-- An increment that does not move the break down is refused, or moves it up within the limit. -/
theorem sbrk_cases {h : KernelHeap} (increment : ℕ) (endSmall : h.heapEnd < 2 ^ 64)
    (small : increment < 2 ^ 64) (wrap : h.heapEnd + increment < 2 ^ 64 + h.kernelEnd) :
    sbrk h increment = (sbrkFailed, h) ∨
      sbrk h increment = (h.heapEnd, { h with heapEnd := h.heapEnd + increment }) ∧
        h.heapEnd + increment ≤ h.heapLimit := by
  by_cases refuses : SbrkRefuses h increment
  · exact Or.inl refuses.eq
  · have inside := refuses
    rw [SbrkRefuses, not_or] at inside
    have sum : (h.heapEnd + increment) % 2 ^ 64 = h.heapEnd + increment := by omega
    rw [sbrk_granted refuses, sum]
    exact Or.inr ⟨rfl, by omega⟩

/-- A request that fits is served, unless the extension is refused. -/
theorem RequestFits.served {h : KernelHeap} {size : ℕ} (request : RequestFits h size) (fits : Prop)
    (endSmall : h.heapEnd < 2 ^ 64) : RequestServed h size fits := by
  obtain ⟨large, small⟩ := request.le_round
  by_cases here : fits
  · exact Or.inr (Or.inl ⟨here, large⟩)
  · refine Or.inr (Or.inr ⟨here, ?_⟩)
    rw [Nat.mod_eq_of_lt small]
    by_cases refuses : SbrkRefuses h (headerSize + roundRequest size)
    · exact Or.inl refuses
    · have wrap := request.wrap
      rw [SbrkRefuses, not_or] at refuses
      exact Or.inr ⟨large, by omega⟩

theorem lastAddr_mem {blocks : List Block} (nonempty : blocks ≠ []) (last : ℕ) :
    ∃ b ∈ blocks, lastAddr blocks last = b.addr := by
  induction blocks generalizing last with
  | nil => exact absurd rfl nonempty
  | cons b rest ih =>
    cases rest with
    | nil => exact ⟨b, List.mem_cons_self, rfl⟩
    | cons c rest =>
      obtain ⟨d, member, same⟩ := ih (List.cons_ne_nil _ _) b.addr
      exact ⟨d, List.mem_cons_of_mem _ member, same⟩

/-- Writing the link of the last block makes the list lead there. -/
theorem relink {m : Memory} {start stop link value : ℕ} {blocks : List Block} (last : ℕ)
    (tiles : BlockTiles start blocks stop) (headers : Headers m blocks link) (nonempty : blocks ≠ [])
    (small : value < 2 ^ 64) : Headers (setNext m (lastAddr blocks last) value) blocks value := by
  induction blocks generalizing start last with
  | nil => exact absurd rfl nonempty
  | cons b rest ih =>
    obtain ⟨first, _, tail⟩ := tiles
    obtain ⟨header, headers⟩ := headers
    cases rest with
    | nil =>
      refine ⟨⟨?_, ?_, ?_⟩, trivial⟩
      · rw [lastAddr, lastAddr, size_setNext, header.size]
      · rw [lastAddr, lastAddr, isFree_setNext, header.free]
      · rw [lastAddr, lastAddr, next_setNext, linkOf, Nat.mod_eq_of_lt small]
    | cons c rest =>
      refine ⟨header.congr fun query _ upper => setNext_apply _ (Or.inl ?_),
        ih b.addr tail headers (List.cons_ne_nil _ _)⟩
      obtain ⟨d, member, same⟩ := lastAddr_mem (List.cons_ne_nil c rest) b.addr
      rw [lastAddr, same]
      exact Nat.lt_of_lt_of_le upper
        (Nat.le_trans b.addr_le_stop (tail.bounds_of_mem member).1)

/-! ## What a call does -/

/-- What a call of `malloc` that returns `ptr` does: a pointer other than `NULL` belongs to a new live
block, every other block keeps its state, payloads of live blocks and memory outside the heap keep
their bytes, and the break moves only to make room for that block. -/
structure MallocEffect (start : ℕ) (h : KernelHeap) (blocks : List Block) (size ptr : ℕ)
    (h' : KernelHeap) (blocks' : List Block) : Prop where
  rep : HeapRep start h' blocks'
  live : ∀ p request, LiveIn blocks' p request ↔
    LiveIn blocks p request ∨ ptr ≠ 0 ∧ p = ptr ∧ request = size
  fresh : ptr ≠ 0 → ∀ request, ¬LiveIn blocks ptr request
  kept : ∀ b ∈ blocks, b.request ≠ none → b ∈ blocks'
  frame : ∀ b ∈ blocks, b.request ≠ none →
    ∀ query, data b.addr ≤ query → query < b.stop → h'.mem query = h.mem query
  outside : ∀ query, query < start ∨ h'.heapEnd ≤ query → h'.mem query = h.mem query
  limits : h'.kernelEnd = h.kernelEnd ∧ h'.heapLimit = h.heapLimit
  extends_ : h'.heapEnd = h.heapEnd ∨ size ≠ 0 ∧
    h'.heapEnd = h.heapEnd + (headerSize + roundRequest size) ∧ h'.heapEnd ≤ h.heapLimit

theorem MallocEffect.null {start : ℕ} {h : KernelHeap} {blocks : List Block} {size : ℕ}
    (rep : HeapRep start h blocks) : MallocEffect start h blocks size 0 h blocks where
  rep := rep
  live p request := by simp only [ne_eq, not_true_eq_false, false_and, or_false]
  fresh absurd := (absurd rfl).elim
  kept _ member _ := member
  frame _ _ _ _ _ _ := rfl
  outside _ _ := rfl
  limits := ⟨rfl, rfl⟩
  extends_ := Or.inl rfl

section Take

variable {start size request : ℕ} {h : KernelHeap} {before after : List Block} {b : Block}

/-- The members of a list in which a free block has been carved. -/
theorem mem_carved_iff {x : Block} (live : x.request ≠ none) (free : b.request = none) :
    x ∈ before ++ b.carve size request ++ after ↔
      x ∈ before ++ b :: after ∨
        data x.addr = data b.addr ∧ x.request = some request ∧ x ∈ b.carve size request := by
  have other : x ≠ b := by
    rintro rfl
    exact live free
  have carved : x ∈ b.carve size request →
      data x.addr = data b.addr ∧ x.request = some request := by
    rw [Block.carve]
    split
    · intro member
      rcases List.mem_cons.mp member with rfl | second
      · exact ⟨rfl, rfl⟩
      · rw [List.mem_singleton.mp second] at live
        exact absurd rfl live
    · intro member
      rw [List.mem_singleton.mp member]
      exact ⟨rfl, rfl⟩
  simp only [List.mem_append, List.mem_cons, other, false_or]
  tauto

/-- The first carved block is the live one. -/
theorem carve_head (fits : size ≤ b.size) (large : request ≤ size) :
    ∃ x ∈ b.carve size request, x.addr = b.addr ∧ x.request = some request ∧
      ∀ y ∈ b.carve size request, ∀ r, y.request = some r → r ≤ y.size := by
  rw [Block.carve]
  split
  · refine ⟨_, List.mem_cons_self, rfl, rfl, fun y member r live => ?_⟩
    rcases List.mem_cons.mp member with rfl | second
    · cases live
      exact large
    · rw [List.mem_singleton.mp second] at live
      cases live
  · refine ⟨_, List.mem_singleton_self _, rfl, rfl, fun y member r live => ?_⟩
    rw [List.mem_singleton.mp member] at live ⊢
    cases live
    exact Nat.le_trans large fits

theorem linkOf_carve (rest : List Block) (link : ℕ) :
    linkOf (b.carve size request ++ rest) link = b.addr := by
  rw [Block.carve]
  split <;> rfl

/-- Carving a free block makes one payload live. -/
theorem liveIn_carved (free : b.request = none) (fits : size ≤ b.size) (large : request ≤ size)
    (p r : ℕ) :
    LiveIn (before ++ b.carve size request ++ after) p r ↔
      LiveIn (before ++ b :: after) p r ∨ data b.addr ≠ 0 ∧ p = data b.addr ∧ r = request := by
  constructor
  · rintro ⟨c, member, address, live⟩
    rcases (mem_carved_iff (by rw [live]; exact Option.some_ne_none r) free).mp member with
      old | ⟨same, new, _⟩
    · exact Or.inl ⟨c, old, address, live⟩
    · exact Or.inr ⟨by simp only [data, headerSize]; omega, address ▸ same,
        Option.some.inj (live.symm.trans new)⟩
  · rintro (⟨c, member, address, live⟩ | ⟨_, rfl, rfl⟩)
    · exact ⟨c, (mem_carved_iff (by rw [live]; exact Option.some_ne_none r) free).mpr (Or.inl member),
        address, live⟩
    · obtain ⟨head, member, address, live, _⟩ := carve_head fits large
      exact ⟨head, by simp only [List.mem_append, member, or_true, true_or], by rw [address], live⟩

/-- Every block but the free one lies before it or behind it. -/
theorem apart_of_free {stop : ℕ} (tiles : BlockTiles start (before ++ b :: after) stop)
    (free : b.request = none) {c : Block} (member : c ∈ before ++ b :: after)
    (other : c.request ≠ none ∨ c ∈ before ∨ c ∈ after) : c.stop ≤ b.addr ∨ b.stop ≤ c.addr := by
  obtain ⟨mid, left, rfl, _, tail⟩ := Tiles.append_iff.mp tiles
  rcases other with live | earlier | later
  · exact tiles.apart member (List.mem_append_right _ List.mem_cons_self) fun same => live (same ▸ free)
  · exact Or.inl (left.bounds_of_mem earlier).2.2
  · exact Or.inr (tail.bounds_of_mem later).1

/-- The heap stays a heap when a free block is carved and nothing else changes. -/
theorem HeapRep.carve (rep : HeapRep start h (before ++ b :: after)) (free : b.request = none)
    (fits : size ≤ b.size) (large : request ≤ size) {m : Memory}
    (carved : Headers m (b.carve size request) (linkOf after 0))
    (kept : ∀ query, query < b.addr ∨ b.stop ≤ query → m query = h.mem query) :
    HeapRep start { h with mem := m } (before ++ b.carve size request ++ after) := by
  obtain ⟨mid, left, rfl, ordered, tail⟩ := Tiles.append_iff.mp rep.tiles
  obtain ⟨firstHeaders, header, lastHeaders⟩ := headers_append.mp rep.headers
  obtain ⟨head, headMem, headAddr, headLive, carvedFits⟩ := carve_head fits large
  have keepHeader : ∀ c ∈ before ++ b :: after, c ∈ before ∨ c ∈ after → ∀ query, c.addr ≤ query →
      query < c.addr + headerSize → m query = h.mem query := by
    intro c member which query lower upper
    have length := c.addr_le_stop
    have := apart_of_free rep.tiles free member (Or.inr which)
    exact kept query (by omega)
  refine ⟨rep.positive, rep.endSmall, rep.limitSmall, ?_, ?_, ?_, ?_⟩
  · have one : BlockTiles b.addr (b.carve size request) b.stop := Block.carve_tiles ⟨rfl, ordered, rfl⟩
    exact Tiles.append_iff.mpr ⟨_, Tiles.append_iff.mpr ⟨_, left, one⟩, tail⟩
  · rw [List.append_assoc]
    refine headers_append.mpr ⟨?_, headers_append.mpr ⟨carved, ?_⟩⟩
    · rw [linkOf_carve]
      exact firstHeaders.congr fun c member =>
        keepHeader c (List.mem_append_left _ member) (Or.inl member)
    · exact lastHeaders.congr fun c member =>
        keepHeader c (List.mem_append_right _ (List.mem_cons_of_mem _ member)) (Or.inr member)
  · rw [rep.first, List.append_assoc, linkOf_append, linkOf_append, linkOf_carve]
    rfl
  · intro c member r live
    simp only [List.mem_append] at member
    rcases member with (earlier | new) | later
    · exact rep.fits c (List.mem_append_left _ earlier) r live
    · exact carvedFits c new r live
    · exact rep.fits c (List.mem_append_right _ (List.mem_cons_of_mem _ later)) r live

/-- Reusing a free block. -/
theorem HeapRep.take (rep : HeapRep start h (before ++ b :: after)) (fits : b.Fits size)
    (large : request ≤ size) :
    MallocEffect start h (before ++ b :: after) request (data b.addr)
      { h with mem := setFree (split h.mem b.addr size) b.addr false }
      (before ++ b.carve size request ++ after) := by
  obtain ⟨free, fits⟩ := fits
  obtain ⟨mid, left, rfl, ordered, tail⟩ := Tiles.append_iff.mp rep.tiles
  obtain ⟨_, header, _⟩ := headers_append.mp rep.headers
  have top := rep.endSmall.mono tail.le
  have spare : b.size + headerSize + 16 < 2 ^ 64 := by
    have lower := left.le
    have reach := top.spare
    simp only [Block.stop] at reach
    omega
  have linkSmall : linkOf after 0 < 2 ^ 64 := header.next ▸ h.mem.load64_lt _
  obtain ⟨carved, kept⟩ := split_headers request header fits top.small spare linkSmall
  have member : b ∈ before ++ b :: after := List.mem_append_right _ List.mem_cons_self
  refine
    { rep := rep.carve free fits large carved kept, live := liveIn_carved free fits large
      fresh := ?_, kept := ?_, frame := ?_, outside := ?_, limits := ⟨rfl, rfl⟩
      extends_ := Or.inl rfl }
  · rintro _ r ⟨c, memC, address, live⟩
    rw [rep.tiles.eq_of_addr memC member (data_inj.mp address), free] at live
    cases live
  · intro c memC live
    exact (mem_carved_iff live free).mpr (Or.inl memC)
  · intro c memC live query lower upper
    simp only [data] at lower
    have := apart_of_free rep.tiles free memC (Or.inl live)
    exact kept query (by omega)
  · intro query away
    have startLe := left.le
    have stopLe := tail.le
    exact kept query (by simp only at away; omega)

end Take

section Bump

variable {start size : ℕ} {h : KernelHeap} {blocks : List Block}

/-- A new block at the break, given what it takes for its header and the link to it. -/
private theorem bump_effect (rep : HeapRep start h blocks) (nonzero : size ≠ 0)
    (large : size ≤ roundRequest size)
    (room : h.heapEnd + (headerSize + roundRequest size) ≤ h.heapLimit) {m : Memory}
    {firstBlock : ℕ}
    (headers : Headers m (blocks ++ [⟨h.heapEnd, roundRequest size, some size⟩]) 0)
    (first : firstBlock = linkOf (blocks ++ [⟨h.heapEnd, roundRequest size, some size⟩]) 0)
    (kept : ∀ query, (∀ b ∈ blocks, query < b.addr ∨ b.addr + headerSize ≤ query) →
      query < h.heapEnd ∨ h.heapEnd + headerSize ≤ query → m query = h.mem query) :
    MallocEffect start h blocks size (data h.heapEnd)
      { h with mem := m, heapEnd := h.heapEnd + (headerSize + roundRequest size), firstBlock }
      (blocks ++ [⟨h.heapEnd, roundRequest size, some size⟩]) := by
  have limitSmall := rep.limitSmall
  have startLe := rep.start_le
  have positive := rep.positive
  refine
    { rep := ⟨positive, limitSmall.mono room, limitSmall, ?_, headers, first, ?_⟩,
      live := ?_, fresh := ?_, kept := fun b member _ => List.mem_append_left _ member, frame := ?_,
      outside := ?_, limits := ⟨rfl, rfl⟩, extends_ := Or.inr ⟨nonzero, rfl, room⟩ }
  · refine Tiles.append_iff.mpr ⟨_, rep.tiles, rfl, ?_, ?_⟩
    · exact Nat.le_trans (Nat.le_add_right _ _) (Block.addr_le_stop _)
    · exact Nat.add_assoc _ _ _
  · intro b member r live
    rcases List.mem_append.mp member with old | new
    · exact rep.fits b old r live
    · rw [List.mem_singleton.mp new] at live ⊢
      cases live
      exact large
  · intro p r
    constructor
    · rintro ⟨b, member, address, live⟩
      rcases List.mem_append.mp member with old | new
      · exact Or.inl ⟨b, old, address, live⟩
      · rw [List.mem_singleton.mp new] at address live
        exact Or.inr ⟨by simp only [data, headerSize]; omega, address.symm,
          (Option.some.inj live).symm⟩
    · rintro (⟨b, member, address, live⟩ | ⟨_, rfl, rfl⟩)
      · exact ⟨b, List.mem_append_left _ member, address, live⟩
      · exact ⟨_, List.mem_append_right _ (List.mem_singleton_self _), rfl, rfl⟩
  · rintro _ r ⟨b, member, address, _⟩
    have bound := (rep.tiles.bounds_of_mem member).2.2
    have length := b.addr_le_stop
    rw [data_inj.mp address] at length
    simp only [headerSize] at length
    omega
  · intro b member live query lower upper
    have bound := (rep.tiles.bounds_of_mem member).2.2
    simp only [data] at lower
    refine kept query (fun c memC => ?_) (by omega)
    have length := c.addr_le_stop
    by_cases same : c = b
    · subst same
      omega
    · rcases rep.tiles.apart memC member same with before | after <;> omega
  · intro query away
    simp only at away
    refine kept query (fun c memC => ?_) (by omega)
    have bounds := rep.tiles.bounds_of_mem memC
    have length := c.addr_le_stop
    omega

/-- The first block of the heap. -/
theorem HeapRep.bump_first (rep : HeapRep start h []) (nonzero : size ≠ 0)
    (large : size ≤ roundRequest size)
    (room : h.heapEnd + (headerSize + roundRequest size) ≤ h.heapLimit) :
    MallocEffect start h [] size (data h.heapEnd)
      { h with
        mem := setNext (setFree (setSize h.mem h.heapEnd (roundRequest size)) h.heapEnd false)
          h.heapEnd 0,
        heapEnd := h.heapEnd + (headerSize + roundRequest size), firstBlock := h.heapEnd }
      [⟨h.heapEnd, roundRequest size, some size⟩] := by
  have limitSmall := rep.limitSmall.small
  refine bump_effect rep nonzero large room ⟨?_, trivial⟩ rfl fun query _ away => ?_
  · exact header_of_writes h.mem (some size) (by omega) (by decide)
  · rw [setNext_apply _ away, setFree_apply _ away, setSize_apply _ away]

/-- A further block, linked to by the last one. -/
theorem HeapRep.bump_next (rep : HeapRep start h blocks) (nonempty : blocks ≠ [])
    (nonzero : size ≠ 0) (large : size ≤ roundRequest size)
    (room : h.heapEnd + (headerSize + roundRequest size) ≤ h.heapLimit) :
    MallocEffect start h blocks size (data h.heapEnd)
      { h with
        mem := setNext (setNext (setFree (setSize h.mem h.heapEnd (roundRequest size)) h.heapEnd false)
          h.heapEnd 0) (lastAddr blocks 0) h.heapEnd,
        heapEnd := h.heapEnd + (headerSize + roundRequest size) }
      (blocks ++ [⟨h.heapEnd, roundRequest size, some size⟩]) := by
  have limitSmall := rep.limitSmall.small
  have endSmall := rep.endSmall.small
  obtain ⟨b, member, last⟩ := lastAddr_mem nonempty 0
  have bound := (rep.tiles.bounds_of_mem member).2.2
  have length := b.addr_le_stop
  have new : Header (setNext (setFree (setSize h.mem h.heapEnd (roundRequest size)) h.heapEnd false)
      h.heapEnd 0) ⟨h.heapEnd, roundRequest size, some size⟩ 0 :=
    header_of_writes h.mem (some size) (by omega) (by decide)
  refine bump_effect rep nonzero large room (headers_append.mpr ⟨?_, ?_, trivial⟩) ?_ fun query others away => ?_
  · refine relink 0 rep.tiles (rep.headers.congr fun c memC query _ upper => ?_) nonempty
      endSmall
    have below := (rep.tiles.bounds_of_mem memC).2.2
    have size := c.addr_le_stop
    have away : query < h.heapEnd ∨ h.heapEnd + headerSize ≤ query := by omega
    rw [setNext_apply _ away, setFree_apply _ away, setSize_apply _ away]
  · refine new.congr fun query lower _ => setNext_apply _ (Or.inr ?_)
    simp only at lower
    rw [last]
    omega
  · rw [rep.first, linkOf_append]
    cases blocks with
    | nil => exact absurd rfl nonempty
    | cons c rest => rfl
  · rw [setNext_apply _ (last ▸ others b member), setNext_apply _ away, setFree_apply _ away,
      setSize_apply _ away]

end Bump

end RaryOS.Model
