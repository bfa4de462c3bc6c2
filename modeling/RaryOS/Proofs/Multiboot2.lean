import RaryOS.Model.Multiboot2

/-! # What the conversion of the Multiboot2 information computes

After each tag `g_mb_info` and `g_mmap_buffer` are those of the tags so far: the buffer holds the first
128 entries, and the rest of the memory, with the block in it, is unchanged.
-/

namespace RaryOS.Model

open RaryOS.Core

/-- The first elements of `g_mmap_buffer` are these entries; no other byte of `m` has changed. -/
structure Filled (m : Memory) (buffer : ℕ) (c : Mb2Conversion) (entries : List MemoryMap) : Prop where
  count : c.mmapCount = entries.length
  reads : ∀ i (bound : i < entries.length),
    MemoryMap.read c.mem (buffer + sizeofMemoryMap * i) = entries[i]
  outside : ∀ query, query < buffer ∨ buffer + sizeofMemoryMap * entries.length ≤ query →
    c.mem query = m query

/-! ## Copying entries -/

theorem mb2Entry_congr {m m' : Memory} {e : ℕ} (agree : Memory.Agree m m' e 20) :
    mb2Entry m' e = mb2Entry m e := by
  have part (offset width : ℕ) (fits : offset + width ≤ 20) :
      m'.load (e + offset) width = m.load (e + offset) width :=
    Memory.load_congr fun query lower upper => agree query (by omega) (by omega)
  have first : m'.load e 8 = m.load e 8 := part 0 8 (by omega)
  simp only [mb2Entry, Memory.load32, Memory.load64, first, part 8 8 (by omega), part 16 4 (by omega)]

/-- Reading an entry while its copy is written gives the entry, if the two are apart. -/
theorem mb2CopyEntry_eq (m : Memory) {element e : ℕ} (apart : e + 20 ≤ element ∨ element + 24 ≤ e) :
    mb2CopyEntry m element e = MemoryMap.write m element (mb2Entry m e) := by
  have addr : (m.store32 element 20).load64 e = m.load64 e :=
    Memory.load_store_of_disjoint _ _ (by omega)
  have len (v : ℕ) : ((m.store32 element 20).store64 (element + 4) v).load64 (e + 8) = m.load64 (e + 8) := by
    rw [Memory.load64, Memory.store64, Memory.load_store_of_disjoint _ _ (by omega)]
    exact Memory.load_store_of_disjoint _ _ (by omega)
  have type (v w : ℕ) : (((m.store32 element 20).store64 (element + 4) v).store64 (element + 12) w).load32
      (e + 16) = m.load32 (e + 16) := by
    rw [Memory.load32, Memory.store64, Memory.load_store_of_disjoint _ _ (by omega), Memory.store64,
      Memory.load_store_of_disjoint _ _ (by omega)]
    exact Memory.load_store_of_disjoint _ _ (by omega)
  simp only [mb2CopyEntry, addr, len, type, MemoryMap.write, mb2Entry]

theorem mb2Entry_read (m m' : Memory) (mmap e : ℕ) :
    MemoryMap.read (MemoryMap.write m' mmap (mb2Entry m e)) mmap = mb2Entry m e :=
  MemoryMap.read_write _ _ (show 20 < 2 ^ 32 by decide) (m.load64_lt _) (m.load64_lt _) (m.load32_lt _)

section Copy

variable {m : Memory} {buffer : ℕ} {c : Mb2Conversion} {entries : List MemoryMap}

/-- One more entry. -/
theorem Filled.push (filled : Filled m buffer c entries) {e : ℕ}
    (apart : e + 20 ≤ buffer ∨ buffer + sizeofMemoryMap * (entries.length + 1) ≤ e) :
    Filled m buffer
      { c with
        mem := mb2CopyEntry c.mem (buffer + sizeofMemoryMap * c.mmapCount) e
        mmapCount := c.mmapCount + 1 }
      (entries ++ [mb2Entry m e]) := by
  have same : mb2Entry c.mem e = mb2Entry m e := mb2Entry_congr fun query lower upper =>
    filled.outside query (by simp only [sizeofMemoryMap] at apart ⊢; omega)
  have written : mb2CopyEntry c.mem (buffer + sizeofMemoryMap * c.mmapCount) e =
      MemoryMap.write c.mem (buffer + sizeofMemoryMap * entries.length) (mb2Entry m e) := by
    rw [filled.count, mb2CopyEntry_eq, same]
    simp only [sizeofMemoryMap] at apart ⊢
    omega
  refine ⟨?_, fun i bound => ?_, fun query away => ?_⟩
  · rw [List.length_append, List.length_singleton, ← filled.count]
  · rw [List.length_append, List.length_singleton] at bound
    simp only [written]
    rcases Nat.lt_succ_iff_lt_or_eq.mp bound with earlier | rfl
    · rw [List.getElem_append_left earlier, ← filled.reads i earlier]
      refine MemoryMap.read_congr fun query lower upper => MemoryMap.write_apply_of_outside _ _ (Or.inl ?_)
      simp only [sizeofMemoryMap] at upper ⊢
      omega
    · rw [mb2Entry_read, List.getElem_concat_length rfl]
  · rw [List.length_append, List.length_singleton] at away
    simp only [written]
    rw [MemoryMap.write_apply_of_outside _ _ (by simp only [sizeofMemoryMap] at away ⊢; omega)]
    exact filled.outside query (by simp only [sizeofMemoryMap] at away ⊢; omega)

theorem mb2CopyEntries_info (esz n e : ℕ) : (mb2CopyEntries buffer esz n e c).info = c.info := by
  induction n generalizing c e with
  | zero => rfl
  | succ n ih =>
    rw [mb2CopyEntries]
    split
    · exact ih _
    · rfl

/-- The entries of a tag are appended as far as the buffer has room. -/
theorem Filled.copyEntries (filled : Filled m buffer c entries) (room : entries.length ≤ 128)
    {esz n e : ℕ} (large : 24 ≤ esz)
    (apart : e + n * esz ≤ buffer ∨ buffer + sizeofMemoryMap * 128 ≤ e) :
    Filled m buffer (mb2CopyEntries buffer esz n e c)
      ((entries ++ mb2EntriesFrom m esz n e).take 128) := by
  induction n generalizing c e entries with
  | zero =>
    rw [mb2EntriesFrom, List.append_nil, List.take_of_length_le room]
    exact filled
  | succ n ih =>
    have tail : (n + 1) * esz = esz + n * esz := by ring
    simp only [sizeofMemoryMap] at apart
    rw [tail] at apart
    rw [mb2CopyEntries, mb2EntriesFrom, filled.count, mmapBufferLength]
    by_cases more : entries.length < 128
    · rw [if_pos more, ← List.singleton_append, ← List.append_assoc, ← filled.count]
      apply ih (filled.push (by simp only [sizeofMemoryMap]; omega))
      · rw [List.length_append, List.length_singleton]
        exact more
      · simp only [sizeofMemoryMap]
        omega
    · have full : entries.length = 128 := by omega
      rw [if_neg more, List.take_append_of_le_length full.ge, List.take_of_length_le room]
      exact filled

/-- A filled buffer is a well-formed memory map. -/
theorem Filled.map (filled : Filled m buffer c entries) (sizes : ∀ e ∈ entries, e.size = 20) :
    MapEntries c.mem (buffer + sizeofMemoryMap * entries.length) buffer entries := by
  have suffix (first rest : List MemoryMap) (split : entries = first ++ rest) :
      MapEntries c.mem (buffer + sizeofMemoryMap * entries.length)
        (buffer + sizeofMemoryMap * first.length) rest := by
    induction rest generalizing first with
    | nil =>
      rw [split, List.append_nil]
      exact .nil
    | cons e rest ih =>
      have length : entries.length = first.length + (rest.length + 1) := by
        rw [split, List.length_append, List.length_cons]
      have read := filled.reads first.length (by omega)
      have here : entries[first.length] = e := by
        simp only [split, List.getElem_append_right (le_refl _), Nat.sub_self, List.getElem_cons_zero]
      have size : e.size = 20 := sizes e (split ▸ List.mem_append_right _ List.mem_cons_self)
      have tail := ih (first ++ [e]) (by rw [split, List.append_assoc, List.singleton_append])
      rw [List.length_append, List.length_singleton] at tail
      refine .cons_of_read (read.trans here) size.ge ?_ tail ?_
      · simp only [sizeofMemoryMap, size]
        omega
      · simp only [sizeofMemoryMap]
        omega
  exact suffix [] entries rfl

end Copy

/-! ## The fields so far -/

theorem mb2Last_snoc (m : Memory) (tags : List ℕ) (p type : ℕ) (field : ℕ → ℕ) :
    mb2Last m (tags ++ [p]) type field = if m.load32 p = type then field p else mb2Last m tags type field := by
  rw [mb2Last, List.filter_append]
  split
  · next same =>
    rw [List.filter_singleton, decide_eq_true same, cond_true, List.getLast?_concat]
    rfl
  · next other =>
    rw [List.filter_singleton, decide_eq_false other, cond_false, List.append_nil]
    rfl

theorem mb2Has_snoc (m : Memory) (tags : List ℕ) (p type : ℕ) :
    mb2Has m (tags ++ [p]) type = (mb2Has m tags type || decide (m.load32 p = type)) := by
  simp only [mb2Has, List.any_append, List.any_cons, List.any_nil, Bool.or_false]

theorem mb2Entries_snoc (m : Memory) (tags : List ℕ) (p : ℕ) :
    mb2Entries m (tags ++ [p]) = mb2Entries m tags ++ mb2TagEntries m p := by
  simp only [mb2Entries, List.flatMap_append, List.flatMap_cons, List.flatMap_nil, List.append_nil]

theorem mb2Entries_size (m : Memory) (tags : List ℕ) : ∀ e ∈ mb2Entries m tags, e.size = 20 := by
  have rows (esz n e : ℕ) : ∀ row ∈ mb2EntriesFrom m esz n e, row.size = 20 := by
    induction n generalizing e with
    | zero => exact fun row member => by cases member
    | succ n ih =>
      intro row member
      rcases List.mem_cons.mp member with rfl | member
      · rfl
      · exact ih _ row member
  intro e member
  obtain ⟨p, _, inTag⟩ := List.mem_flatMap.mp member
  rw [mb2TagEntries] at inTag
  split at inTag
  · exact rows _ _ _ e inTag
  · cases inTag

theorem mb2Flags_or (basicMem mmap bootloader framebuffer : Bool) :
    mb2Flags basicMem mmap bootloader framebuffer ||| multibootInfoMemory =
        mb2Flags true mmap bootloader framebuffer ∧
      mb2Flags basicMem mmap bootloader framebuffer ||| multibootInfoMemMap =
        mb2Flags basicMem true bootloader framebuffer ∧
      mb2Flags basicMem mmap bootloader framebuffer ||| multibootInfoBootLoaderName =
        mb2Flags basicMem mmap true framebuffer ∧
      mb2Flags basicMem mmap bootloader framebuffer ||| multibootInfoFramebufferInfo =
        mb2Flags basicMem mmap bootloader true := by
  revert basicMem mmap bootloader framebuffer
  decide

section Fields

variable {m : Memory} {buffer p : ℕ} {tags : List ℕ}

theorem mb2Entries_other (tags : List ℕ) (other : m.load32 p ≠ mb2TagMmap) :
    mb2Entries m (tags ++ [p]) = mb2Entries m tags := by
  rw [mb2Entries_snoc, mb2TagEntries, if_neg other, List.append_nil]

theorem mb2Info_basicMem (kind : m.load32 p = mb2TagBasicMem) :
    mb2SetBasicMem m p (mb2Info m buffer tags) = mb2Info m buffer (tags ++ [p]) := by
  have entries := mb2Entries_other tags (show m.load32 p ≠ mb2TagMmap by rw [kind]; decide)
  simp [mb2SetBasicMem, mb2Info, entries, mb2Last_snoc, mb2Has_snoc, kind, (mb2Flags_or _ _ _ _).1,
    mb2TagBasicMem, mb2TagMmap, mb2TagBootloader, mb2TagFramebuffer]

theorem mb2Info_mmap (kind : m.load32 p = mb2TagMmap) (small : buffer < 2 ^ 32) :
    mb2SetMmap buffer (min 128 (mb2Entries m (tags ++ [p])).length) (mb2Info m buffer tags) =
      mb2Info m buffer (tags ++ [p]) := by
  have address : buffer % 2 ^ 32 = buffer := Nat.mod_eq_of_lt small
  simp only [mb2SetMmap, address]
  simp [mb2Info, mb2Last_snoc, mb2Has_snoc, kind, (mb2Flags_or _ _ _ _).2.1, Nat.mul_comm 24,
    mb2TagBasicMem, mb2TagMmap, mb2TagBootloader, mb2TagFramebuffer]

theorem mb2Info_bootloader (kind : m.load32 p = mb2TagBootloader) :
    mb2SetBootloader p (mb2Info m buffer tags) = mb2Info m buffer (tags ++ [p]) := by
  have entries := mb2Entries_other tags (show m.load32 p ≠ mb2TagMmap by rw [kind]; decide)
  simp [mb2SetBootloader, mb2Info, entries, mb2Last_snoc, mb2Has_snoc, kind, (mb2Flags_or _ _ _ _).2.2.1,
    mb2TagBasicMem, mb2TagMmap, mb2TagBootloader, mb2TagFramebuffer]

theorem mb2Info_framebuffer (kind : m.load32 p = mb2TagFramebuffer) :
    mb2SetFramebuffer m p (mb2Info m buffer tags) = mb2Info m buffer (tags ++ [p]) := by
  have entries := mb2Entries_other tags (show m.load32 p ≠ mb2TagMmap by rw [kind]; decide)
  simp [mb2SetFramebuffer, mb2Info, entries, mb2Last_snoc, mb2Has_snoc, kind, (mb2Flags_or _ _ _ _).2.2.2,
    mb2TagBasicMem, mb2TagMmap, mb2TagBootloader, mb2TagFramebuffer]

theorem mb2Info_other (basicMem : m.load32 p ≠ mb2TagBasicMem) (mmap : m.load32 p ≠ mb2TagMmap)
    (bootloader : m.load32 p ≠ mb2TagBootloader) (framebuffer : m.load32 p ≠ mb2TagFramebuffer) :
    mb2Info m buffer tags = mb2Info m buffer (tags ++ [p]) := by
  simp only [mb2Info, mb2Entries_other tags mmap, mb2Last_snoc, mb2Has_snoc, if_neg basicMem, if_neg mmap,
    if_neg bootloader, if_neg framebuffer, decide_eq_false basicMem, decide_eq_false mmap,
    decide_eq_false bootloader, decide_eq_false framebuffer, Bool.or_false]

end Fields

/-! ## Tag by tag -/

theorem le_mb2BodySize (type : ℕ) : 8 ≤ mb2BodySize type := by
  rw [mb2BodySize]
  split_ifs <;> decide

/-- The state after these tags. -/
structure Converted (m : Memory) (buffer : ℕ) (tags : List ℕ) (c : Mb2Conversion) : Prop where
  info : c.info = mb2Info m buffer tags
  filled : Filled m buffer c ((mb2Entries m tags).take 128)

namespace Converted

variable {m : Memory} {buffer : ℕ} {tags : List ℕ} {c : Mb2Conversion}

theorem start (m : Memory) (buffer : ℕ) : Converted m buffer [] { mem := m } :=
  ⟨by simp [mb2Info, mb2Has, mb2Last, mb2Entries, mb2Flags], rfl,
    fun _ bound => absurd bound (Nat.not_lt_zero _), fun _ _ => rfl⟩

/-- The block is read as it was, apart from the buffer. -/
theorem mem_eq (converted : Converted m buffer tags c) {query : ℕ}
    (apart : query < buffer ∨ buffer + sizeofMemoryMap * 128 ≤ query) : c.mem query = m query := by
  refine converted.filled.outside query (apart.imp_right fun above => ?_)
  have length := List.length_take_le 128 (mb2Entries m tags)
  simp only [sizeofMemoryMap] at above ⊢
  omega

theorem load_eq (converted : Converted m buffer tags c) {query width : ℕ}
    (apart : query + width ≤ buffer ∨ buffer + sizeofMemoryMap * 128 ≤ query) :
    c.mem.load query width = m.load query width :=
  Memory.load_congr fun _ _ _ => converted.mem_eq (by omega)

/-- A tag that fills no element of the buffer. -/
theorem of_info (converted : Converted m buffer tags c) {p : ℕ} (other : m.load32 p ≠ mb2TagMmap)
    {info : MultibootInfo} (same : info = mb2Info m buffer (tags ++ [p])) :
    Converted m buffer (tags ++ [p]) { c with info := info } := by
  refine ⟨same, ?_⟩
  rw [mb2Entries_other _ other]
  exact ⟨converted.filled.count, converted.filled.reads, converted.filled.outside⟩

section Tag

variable {p : ℕ} (converted : Converted m buffer tags c)
  (apart : p + m.load32 (p + 4) ≤ buffer ∨ buffer + sizeofMemoryMap * 128 ≤ p)
include converted apart

/-- The fields are read from the tag as it was. -/
theorem field_eq {offset : ℕ} (width : ℕ) (covers : offset + width ≤ m.load32 (p + 4)) :
    c.mem.load (p + offset) width = m.load (p + offset) width :=
  converted.load_eq (by omega)

theorem handleMmap (small : buffer < 2 ^ 32) (kind : m.load32 p = mb2TagMmap)
    (covers : 16 ≤ m.load32 (p + 4)) (entrySize : 24 ≤ m.load32 (p + 8)) :
    ∃ c', mb2HandleMmap buffer c p = .ok c' ∧ Converted m buffer (tags ++ [p]) c' := by
  have size : c.mem.load32 (p + 4) = m.load32 (p + 4) := converted.field_eq apart 4 (by omega)
  have esz : c.mem.load32 (p + 8) = m.load32 (p + 8) := converted.field_eq apart 4 (by omega)
  have bound := m.load32_lt (p + 4)
  have length : (m.load32 (p + 4) + (2 ^ 32 - 16)) % 2 ^ 32 = m.load32 (p + 4) - 16 := by omega
  have inside := Nat.div_mul_le_self (m.load32 (p + 4) - 16) (m.load32 (p + 8))
  have entries : mb2Entries m (tags ++ [p]) = mb2Entries m tags ++
      mb2EntriesFrom m (m.load32 (p + 8)) ((m.load32 (p + 4) - 16) / m.load32 (p + 8)) (p + 16) := by
    rw [mb2Entries_snoc, mb2TagEntries, if_pos kind]
  have step : mb2HandleMmap buffer c p =
      let copied := mb2CopyEntries buffer (m.load32 (p + 8))
        ((m.load32 (p + 4) - 16) / m.load32 (p + 8)) (p + 16) c
      .ok { copied with info := mb2SetMmap buffer copied.mmapCount copied.info } := by
    simp only [mb2HandleMmap, esz, size, length]
    exact if_neg (by omega)
  generalize (m.load32 (p + 4) - 16) / m.load32 (p + 8) = n at inside entries step
  have filled := converted.filled.copyEntries (List.length_take_le _ _) entrySize (n := n) (e := p + 16)
    (by omega)
  have room : List.take 128 (List.take 128 (mb2Entries m tags) ++
      mb2EntriesFrom m (m.load32 (p + 8)) n (p + 16)) = List.take 128 (mb2Entries m (tags ++ [p])) := by
    rw [entries, List.take_append, List.take_append, List.take_take, List.length_take, Nat.min_self,
      show 128 - min 128 (mb2Entries m tags).length = 128 - (mb2Entries m tags).length by omega]
  rw [room] at filled
  have count := filled.count
  rw [List.length_take] at count
  refine ⟨_, step, ?_, filled.count, filled.reads, filled.outside⟩
  simp only [count, mb2CopyEntries_info, converted.info, mb2Info_mmap kind small]

/-- Every tag of a well-formed block is handled, and adds its fields and entries. -/
theorem handleTag (small : buffer < 2 ^ 32) (covers : mb2BodySize (m.load32 p) ≤ m.load32 (p + 4))
    (entrySize : m.load32 p = mb2TagMmap → 24 ≤ m.load32 (p + 8)) :
    ∃ c', mb2HandleTag buffer c p = .ok c' ∧ Converted m buffer (tags ++ [p]) c' := by
  have header : 8 ≤ m.load32 (p + 4) := Nat.le_trans (le_mb2BodySize _) covers
  have type : c.mem.load32 p = m.load32 p := converted.load_eq (by omega)
  simp only [mb2HandleTag, type, converted.info]
  by_cases basicMem : m.load32 p = mb2TagBasicMem
  · rw [mb2BodySize, if_pos (Or.inl basicMem)] at covers
    have lower : c.mem.load32 (p + 8) = m.load32 (p + 8) := converted.field_eq apart 4 (by omega)
    have upper : c.mem.load32 (p + 12) = m.load32 (p + 12) := converted.field_eq apart 4 (by omega)
    have same : mb2SetBasicMem c.mem p (mb2Info m buffer tags) = mb2Info m buffer (tags ++ [p]) := by
      rw [← mb2Info_basicMem basicMem, mb2SetBasicMem, lower, upper]
      rfl
    exact ⟨_, if_pos basicMem, converted.of_info (by rw [basicMem]; decide) same⟩
  rw [if_neg basicMem]
  by_cases mmap : m.load32 p = mb2TagMmap
  · rw [mb2BodySize, if_pos (Or.inr mmap)] at covers
    rw [if_pos mmap]
    exact converted.handleMmap apart small mmap covers (entrySize mmap)
  rw [if_neg mmap]
  by_cases bootloader : m.load32 p = mb2TagBootloader
  · exact ⟨_, if_pos bootloader, converted.of_info mmap (mb2Info_bootloader bootloader)⟩
  rw [if_neg bootloader]
  by_cases framebuffer : m.load32 p = mb2TagFramebuffer
  · rw [framebuffer, mb2BodySize, if_neg (by decide), if_pos rfl] at covers
    have addr : c.mem.load64 (p + 8) = m.load64 (p + 8) := converted.field_eq apart 8 (by omega)
    have pitch : c.mem.load32 (p + 16) = m.load32 (p + 16) := converted.field_eq apart 4 (by omega)
    have width : c.mem.load32 (p + 20) = m.load32 (p + 20) := converted.field_eq apart 4 (by omega)
    have height : c.mem.load32 (p + 24) = m.load32 (p + 24) := converted.field_eq apart 4 (by omega)
    have bpp : c.mem (p + 28) = m (p + 28) := converted.mem_eq (by omega)
    have fbType : c.mem (p + 29) = m (p + 29) := converted.mem_eq (by omega)
    have same : mb2SetFramebuffer c.mem p (mb2Info m buffer tags) = mb2Info m buffer (tags ++ [p]) := by
      rw [← mb2Info_framebuffer framebuffer, mb2SetFramebuffer, addr, pitch, width, height, bpp, fbType]
      rfl
    exact ⟨_, if_pos framebuffer, converted.of_info mmap same⟩
  · rw [if_neg framebuffer]
    have same : mb2Info m buffer tags = mb2Info m buffer (tags ++ [p]) :=
      mb2Info_other basicMem mmap bootloader framebuffer
    exact ⟨_, rfl, converted.of_info mmap (converted.info.trans same)⟩

end Tag

end Converted

theorem Mb2Tags.inside {m : Memory} {stop p : ℕ} {tags : List ℕ} (block : Mb2Tags m stop p tags) :
    p + 8 ≤ stop := by
  induction block with
  | nil _ inside => exact inside
  | cons _ _ _ _ ih => omega

/-- The loop over the tags of a well-formed block handles each and stops at the end tag. -/
theorem mb2TagBody_returns {m : Memory} {buffer stop p : ℕ} {before tags : List ℕ} {c : Mb2Conversion}
    (small : buffer < 2 ^ 32) (block : Mb2Tags m stop p tags) (converted : Converted m buffer before c)
    (wide : stop < p + 2 ^ 32) (apart : stop ≤ buffer ∨ buffer + sizeofMemoryMap * 128 ≤ p) :
    ∃ c', Returns (mb2TagBody buffer stop) (c, p) (.ok c') ∧ Converted m buffer (before ++ tags) c' := by
  induction block generalizing before c with
  | @nil p ending inside =>
    have type : c.mem.load32 p = mb2TagEnd := (converted.load_eq (by omega)).trans ending
    refine ⟨c, .of_stop ?_, by rwa [List.append_nil]⟩
    simp only [mb2TagBody, type, if_true]
    exact if_pos (by omega)
  | @cons p rest notEnd covers entrySize tail ih =>
    have inside := tail.inside
    have size : mb2Aligned (m.load32 (p + 4)) = (m.load32 (p + 4) + 7) / 8 * 8 := by
      rw [mb2Aligned]
      omega
    have apartTag : p + m.load32 (p + 4) ≤ buffer ∨ buffer + sizeofMemoryMap * 128 ≤ p := by omega
    have type : c.mem.load32 p = m.load32 p := converted.load_eq (by omega)
    obtain ⟨c', handled, converted'⟩ := converted.handleTag apartTag small covers entrySize
    have length : c'.mem.load32 (p + 4) = m.load32 (p + 4) := converted'.load_eq (by omega)
    obtain ⟨c'', returns, done⟩ := ih converted' (by omega) (by omega)
    refine ⟨c'', .of_step ?_ returns, by rwa [List.append_assoc, List.singleton_append] at done⟩
    simp only [mb2TagBody, type, if_neg notEnd, handled, length, size]
    exact if_pos (by omega)

/-! ## The map that is left -/

theorem mb2Last_const (m : Memory) (tags : List ℕ) (type value : ℕ) :
    mb2Last m tags type (fun _ => value) = if mb2Has m tags type then value else 0 := by
  induction tags using List.reverseRecOn with
  | nil => rfl
  | append_singleton tags p ih =>
    rw [mb2Last_snoc, mb2Has_snoc, ih]
    by_cases kind : m.load32 p = type
    · rw [if_pos kind, decide_eq_true kind, Bool.or_true, if_pos rfl]
    · rw [if_neg kind, decide_eq_false kind, Bool.or_false]

theorem mb2Entries_of_not_has {m : Memory} {tags : List ℕ} (none : mb2Has m tags mb2TagMmap = false) :
    mb2Entries m tags = [] := by
  apply List.flatMap_eq_nil_iff.mpr
  intro p member
  have other := List.any_eq_false.mp none p member
  rw [mb2TagEntries, if_neg (by simpa only [decide_eq_true_eq] using other)]

/-- The converted information describes exactly the entries in the buffer. -/
theorem Converted.map {m : Memory} {buffer : ℕ} {tags : List ℕ} {c : Mb2Conversion}
    (converted : Converted m buffer tags c) (small : buffer + sizeofMemoryMap * 128 < 2 ^ 32) :
    MapEntries c.mem c.info.mmapEnd c.info.mmapAddr ((mb2Entries m tags).take 128) := by
  simp only [MultibootInfo.mmapEnd, converted.info, mb2Info, mb2Last_const]
  cases has : mb2Has m tags mb2TagMmap with
  | false =>
    rw [mb2Entries_of_not_has has]
    exact .nil
  | true =>
    have map := converted.filled.map fun e member => mb2Entries_size m tags e (List.mem_of_mem_take member)
    rw [List.length_take] at map
    rw [if_pos rfl, Nat.mod_eq_of_lt (by simp only [sizeofMemoryMap] at small; omega)]
    exact map

end RaryOS.Model
