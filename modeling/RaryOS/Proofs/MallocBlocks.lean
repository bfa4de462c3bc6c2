import RaryOS.Core.Tiling
import RaryOS.Model.Malloc

/-! # The block list in memory

A `Block` is what a header in memory says, with the requested size of a live block as a ghost field.
`Headers m blocks link` reads the list from memory: every header has its block's size and flag, and
its link leads to the next block, the last one to `link`. The blocks of a heap tile the range handed
out by `sbrk`, so an edit of one block leaves the headers and payloads of all others alone.
-/

namespace RaryOS.Model

open RaryOS.Core MemoryBlock

/-- A block of the list; `request` is `none` for a free block. -/
structure Block where
  addr : ℕ
  size : ℕ
  request : Option ℕ
deriving DecidableEq, Repr

/-- One past the payload. -/
def Block.stop (b : Block) : ℕ := b.addr + headerSize + b.size

/-- Where a link to this part of the list points. -/
def linkOf : List Block → ℕ → ℕ
  | [], link => link
  | b :: _, _ => b.addr

/-- The header of a block, with its link. -/
structure Header (m : Memory) (b : Block) (link : ℕ) : Prop where
  size : MemoryBlock.size m b.addr = b.size
  free : isFree m b.addr = b.request.isNone
  next : MemoryBlock.next m b.addr = link

/-- The headers of consecutive blocks, the last of which links to `link`. -/
def Headers (m : Memory) : List Block → ℕ → Prop
  | [], _ => True
  | b :: rest, link => Header m b (linkOf rest link) ∧ Headers m rest link

section Fields

variable (m : Memory) (block value : ℕ) (flag : Bool)

@[simp] theorem size_setSize : size (setSize m block value) block = value % 2 ^ 64 :=
  m.load64_store64_same block value

@[simp] theorem size_setFree : size (setFree m block flag) block = size m block :=
  m.load_store8_of_disjoint _ (Or.inr (by omega))

@[simp] theorem size_setNext : size (setNext m block value) block = size m block :=
  m.load_store_of_disjoint _ (Or.inl (by omega))

@[simp] theorem isFree_setSize : isFree (setSize m block value) block = isFree m block := by
  simp only [isFree, setSize, Memory.store64]
  rw [Memory.store_apply_of_outside _ _ (Or.inr (by omega))]

@[simp] theorem isFree_setFree : isFree (setFree m block flag) block = flag := by
  simp only [isFree, setFree, Memory.store8_apply_same]
  cases flag <;> rfl

@[simp] theorem isFree_setNext : isFree (setNext m block value) block = isFree m block := by
  simp only [isFree, setNext, Memory.store64]
  rw [Memory.store_apply_of_outside _ _ (Or.inl (by omega))]

@[simp] theorem next_setSize : next (setSize m block value) block = next m block :=
  m.load_store_of_disjoint _ (Or.inr (by omega))

@[simp] theorem next_setFree : next (setFree m block flag) block = next m block :=
  m.load_store8_of_disjoint _ (Or.inl (by omega))

@[simp] theorem next_setNext : next (setNext m block value) block = value % 2 ^ 64 :=
  m.load64_store64_same (block + 16) value

variable {m block} {query : ℕ} (outside : query < block ∨ block + headerSize ≤ query)
include outside

theorem setSize_apply : setSize m block value query = m query :=
  m.store_apply_of_outside value (by simp only [headerSize] at outside; omega)

theorem setFree_apply : setFree m block flag query = m query :=
  m.store8_apply_of_ne _ (by simp only [headerSize] at outside; omega)

theorem setNext_apply : setNext m block value query = m query :=
  m.store_apply_of_outside value (by simp only [headerSize] at outside; omega)

end Fields

/-- A header is read from its 24 bytes. -/
theorem Header.congr {m m' : Memory} {b : Block} {link : ℕ} (header : Header m b link)
    (agree : ∀ query, b.addr ≤ query → query < b.addr + headerSize → m' query = m query) :
    Header m' b link where
  size := (Memory.load_congr fun query lower upper =>
    agree query lower (by simp only [headerSize]; omega)).trans header.size
  free := by
    rw [← header.free, isFree, isFree, agree _ (by omega) (by simp only [headerSize]; omega)]
  next := (Memory.load_congr fun query lower upper =>
    agree query (by omega) (by simp only [headerSize]; omega)).trans header.next

theorem Headers.congr {m m' : Memory} {blocks : List Block} {link : ℕ}
    (headers : Headers m blocks link)
    (agree : ∀ b ∈ blocks, ∀ query, b.addr ≤ query → query < b.addr + headerSize →
      m' query = m query) : Headers m' blocks link := by
  induction blocks with
  | nil => trivial
  | cons b rest ih =>
    exact ⟨headers.1.congr (agree b List.mem_cons_self),
      ih headers.2 fun c member => agree c (List.mem_cons_of_mem _ member)⟩

theorem linkOf_append (first second : List Block) (link : ℕ) :
    linkOf (first ++ second) link = linkOf first (linkOf second link) := by
  cases first <;> rfl

theorem headers_append {m : Memory} {first second : List Block} {link : ℕ} :
    Headers m (first ++ second) link ↔ Headers m first (linkOf second link) ∧ Headers m second link := by
  induction first with
  | nil => exact (and_iff_right trivial).symm
  | cons b rest ih =>
    simp only [List.cons_append, Headers, linkOf_append, ih, and_assoc]

/-- The blocks follow each other from `start` to `stop`. -/
abbrev BlockTiles (start : ℕ) (blocks : List Block) (stop : ℕ) : Prop :=
  Tiles Block.addr Block.stop start blocks stop

/-- Different blocks of a tiling do not overlap; in particular their headers are apart. -/
theorem BlockTiles.apart {start stop : ℕ} {blocks : List Block} (tiles : BlockTiles start blocks stop)
    {b c : Block} (memB : b ∈ blocks) (memC : c ∈ blocks) (ne : b ≠ c) :
    b.stop ≤ c.addr ∨ c.stop ≤ b.addr :=
  (tiles.eq_or_disjoint memB memC).resolve_left ne

theorem Block.addr_le_stop (b : Block) : b.addr + headerSize ≤ b.stop := Nat.le_add_right _ _

/-! ## Searching the list -/

/-- A free block that holds `size` bytes. -/
def Block.Fits (b : Block) (size : ℕ) : Prop := b.request = none ∧ size ≤ b.size

/-- The address of the last block, or `last` for an empty list. -/
def lastAddr : List Block → ℕ → ℕ
  | [], last => last
  | b :: rest, _ => lastAddr rest b.addr

/-- The search visits the blocks in order and stops at the first that fits. -/
theorem mallocBody_returns {m : Memory} {start stop size last : ℕ} {blocks : List Block}
    (tiles : BlockTiles start blocks stop) (positive : 0 < start) (headers : Headers m blocks 0) :
    ((∀ b ∈ blocks, ¬b.Fits size) ∧
        Returns (mallocBody m size) (linkOf blocks 0, last) (.missing (lastAddr blocks last))) ∨
      ∃ before b after, blocks = before ++ b :: after ∧ b.Fits size ∧
        Returns (mallocBody m size) (linkOf blocks 0, last) (.found b.addr) := by
  induction blocks generalizing start last with
  | nil =>
    left
    exact ⟨fun b member => (List.not_mem_nil member).elim, .of_stop rfl⟩
  | cons b rest ih =>
    obtain ⟨rfl, ordered, tail⟩ := tiles
    obtain ⟨header, headers⟩ := headers
    have nonzero : b.addr ≠ 0 := Nat.pos_iff_ne_zero.mp positive
    by_cases fits : b.Fits size
    · right
      refine ⟨[], b, rest, rfl, fits, .of_stop ?_⟩
      simp only [mallocBody, linkOf, if_neg nonzero, header.free, fits.1, header.size, fits.2,
        Option.isNone_none, and_self, if_true]
    · have step : mallocBody m size (linkOf (b :: rest) 0, last) = .inl (linkOf rest 0, b.addr) := by
        simp only [mallocBody, linkOf, if_neg nonzero, header.free, header.size, header.next,
          Option.isNone_iff_eq_none]
        exact if_neg fits
      rcases ih tail (by omega) headers with ⟨none, returns⟩ | ⟨before, c, after, rfl, found⟩
      · left
        refine ⟨fun c member => ?_, .of_step step returns⟩
        rcases List.mem_cons.mp member with rfl | member
        · exact fits
        · exact none c member
      · right
        exact ⟨b :: before, c, after, rfl, found.1, .of_step step found.2⟩

/-! ## Splitting a block -/

/-- What `malloc` makes of a free block: the live block, and behind it what was split off. -/
def Block.carve (b : Block) (size request : ℕ) : List Block :=
  if size + headerSize + 16 ≤ b.size then
    [⟨b.addr, size, some request⟩,
      ⟨b.addr + headerSize + size, b.size - size - headerSize, none⟩]
  else [⟨b.addr, b.size, some request⟩]

theorem Block.carve_tiles {b : Block} {start stop size request : ℕ} :
    BlockTiles start [b] stop → BlockTiles start (b.carve size request) stop := by
  rintro ⟨start, ordered, rfl⟩
  rw [Block.carve]
  split
  · refine ⟨start, ?_, ?_, ?_, ?_⟩ <;> simp only [Block.stop, headerSize] at *
    · omega
    · omega
    · change _ = _
      omega
  · exact ⟨start, ordered, rfl⟩

/-- Writing the three fields of a header makes it a header. -/
theorem header_of_writes (m : Memory) {addr size link : ℕ} (request : Option ℕ) (sizeSmall : size < 2 ^ 64)
    (linkSmall : link < 2 ^ 64) :
    Header (setNext (setFree (setSize m addr size) addr request.isNone) addr link) ⟨addr, size, request⟩
      link where
  size := by simp only [size_setNext, size_setFree, size_setSize, Nat.mod_eq_of_lt sizeSmall]
  free := by simp only [isFree_setNext, isFree_setFree]
  next := by simp only [next_setNext, Nat.mod_eq_of_lt linkSmall]

/-- The memory after splitting: the split-off header is written first, then the header of the block
itself; neither write reaches outside the block. -/
theorem split_room {m : Memory} {b : Block} {link size : ℕ} (header : Header m b link)
    (room : size + headerSize + 16 ≤ b.size) (small : b.stop < 2 ^ 64) :
    split m b.addr size =
      setNext (setSize (setNext (setFree (setSize m (b.addr + headerSize + size)
        (b.size - size - headerSize)) (b.addr + headerSize + size) true) (b.addr + headerSize + size) link)
        b.addr size) b.addr (b.addr + headerSize + size) := by
  simp only [Block.stop] at small
  have guard : (size + headerSize + 16) % 2 ^ 64 = size + headerSize + 16 := Nat.mod_eq_of_lt (by omega)
  have place : (b.addr + headerSize + size) % 2 ^ 64 = b.addr + headerSize + size :=
    Nat.mod_eq_of_lt (by omega)
  have left : (b.size + (2 ^ 64 - size) + (2 ^ 64 - headerSize)) % 2 ^ 64 = b.size - size - headerSize := by
    simp only [headerSize] at room ⊢
    omega
  have kept : next (setFree (setSize m (b.addr + headerSize + size) (b.size - size - headerSize))
      (b.addr + headerSize + size) true) b.addr = link := by
    rw [← header.next]
    apply Memory.load_congr
    intro query lower upper
    simp only [headerSize]
    rw [setFree_apply _ (Or.inl (by omega)), setSize_apply _ (Or.inl (by omega))]
  simp only [split, header.size, guard, if_pos room, place, left, kept]

/-- `split` followed by `is_free = false` turns the header of a free block into those of the carved
blocks, and writes nothing outside the block. -/
theorem split_headers {m : Memory} {b : Block} {link size : ℕ} (request : ℕ) (header : Header m b link)
    (fits : size ≤ b.size) (small : b.stop < 2 ^ 64) (spare : b.size + headerSize + 16 < 2 ^ 64)
    (linkSmall : link < 2 ^ 64) :
    Headers (setFree (split m b.addr size) b.addr false) (b.carve size request) link ∧
      ∀ query, query < b.addr ∨ b.stop ≤ query →
        setFree (split m b.addr size) b.addr false query = m query := by
  by_cases room : size + headerSize + 16 ≤ b.size
  · rw [split_room header room small, Block.carve, if_pos room]
    simp only [Block.stop, headerSize] at room small ⊢
    generalize placed : b.addr + 24 + size = nextBlock
    have remainder : Header _ ⟨nextBlock, b.size - size - 24, none⟩ link :=
      header_of_writes m none (by omega) linkSmall
    refine ⟨⟨⟨?_, ?_, ?_⟩, ?_, trivial⟩, fun query outside => ?_⟩
    · simp only [size_setFree, size_setNext, size_setSize]
      exact Nat.mod_eq_of_lt (by omega)
    · simp only [isFree_setFree, Option.isNone_some]
    · simp only [next_setFree, next_setNext]
      exact Nat.mod_eq_of_lt (by omega)
    · apply remainder.congr
      intro query lower _
      simp only at lower
      have outside : query < b.addr ∨ b.addr + headerSize ≤ query := by simp only [headerSize]; omega
      rw [setFree_apply _ outside, setNext_apply _ outside, setSize_apply _ outside]
      rfl
    · have here : query < b.addr ∨ b.addr + headerSize ≤ query := by simp only [headerSize]; omega
      have behind : query < nextBlock ∨ nextBlock + headerSize ≤ query := by simp only [headerSize]; omega
      rw [setFree_apply _ here, setNext_apply _ here, setSize_apply _ here, setNext_apply _ behind,
        setFree_apply _ behind, setSize_apply _ behind]
  · simp only [Block.stop] at small
    have guard : (size + headerSize + 16) % 2 ^ 64 = size + headerSize + 16 :=
      Nat.mod_eq_of_lt (by omega)
    rw [split, header.size, guard, if_neg room, Block.carve, if_neg room]
    refine ⟨⟨⟨?_, ?_, ?_⟩, trivial⟩, fun query outside => ?_⟩
    · simp only [size_setFree, header.size]
    · simp only [isFree_setFree, Option.isNone_some]
    · simp only [next_setFree, header.next, linkOf]
    · rw [setFree_apply]
      simp only [Block.stop] at outside
      omega

end RaryOS.Model
