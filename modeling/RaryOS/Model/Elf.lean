import RaryOS.Core.Memory

/-! # Loading the user program

`elf_load` copies the `PT_LOAD` segments of an ELF file to the virtual addresses in their headers.
Nothing checks where these are. The file is a constant array of the kernel, separate from the memory
that is written; its bytes are numbered from `elf_data`. Next to the memory the model keeps the
addresses that were written. What `printf` does to the screen is left out: the texts of the two errors
are kept, that of each loaded segment is not.
-/

namespace RaryOS.Model

open RaryOS.Core

/-- `PT_LOAD` and `EM_X86_64`. -/
def ptLoad : ℕ := 1
def emX86_64 : ℕ := 0x3E

/-- The fields of `elf64_header_t` that are read. -/
structure Elf64Header where
  eIdent : List ℕ
  eMachine : ℕ
  eEntry : ℕ
  ePhoff : ℕ
  ePhentsize : ℕ
  ePhnum : ℕ
deriving DecidableEq, Repr

def Elf64Header.read (file : Memory) : Elf64Header where
  eIdent := [file.load 0 1, file.load 1 1, file.load 2 1, file.load 3 1]
  eMachine := file.load 18 2
  eEntry := file.load 24 8
  ePhoff := file.load 32 8
  ePhentsize := file.load 54 2
  ePhnum := file.load 56 2

/-- The fields of `elf64_phdr_t` that are read. -/
structure Elf64Phdr where
  pType : ℕ
  pFlags : ℕ
  pOffset : ℕ
  pVaddr : ℕ
  pFilesz : ℕ
  pMemsz : ℕ
deriving DecidableEq, Repr

def Elf64Phdr.read (file : Memory) (offset : ℕ) : Elf64Phdr where
  pType := file.load offset 4
  pFlags := file.load (offset + 4) 4
  pOffset := file.load (offset + 8) 8
  pVaddr := file.load (offset + 16) 8
  pFilesz := file.load (offset + 32) 8
  pMemsz := file.load (offset + 40) 8

/-- An `int` added to a pointer. -/
def signExtend32 (x : ℕ) : ℕ := if x % 2 ^ 32 < 2 ^ 31 then x % 2 ^ 32 else x % 2 ^ 32 + (2 ^ 64 - 2 ^ 32)

/-- The program header `i`: `i * e_phentsize` is computed in `int`. -/
def Elf64Header.phdr (hdr : Elf64Header) (file : Memory) (i : ℕ) : Elf64Phdr :=
  .read file ((hdr.ePhoff + signExtend32 (i * hdr.ePhentsize)) % 2 ^ 64)

/-- Memory with the addresses written so far. -/
structure TracedMemory where
  mem : Memory
  written : List ℕ := []

def TracedMemory.store8 (t : TracedMemory) (address : ℕ) (value : BitVec 8) : TracedMemory where
  mem := t.mem.store8 address value
  written := address :: t.written

/-- `for (uint64_t j = start; j < stop; j++) dst[j] = byte(j);` -/
def storeBytes (byte : ℕ → BitVec 8) (dst start stop : ℕ) (t : TracedMemory) : TracedMemory :=
  (List.range' start (stop - start)).foldl (fun t j => t.store8 ((dst + j) % 2 ^ 64) (byte j)) t

/-- One iteration over the program headers: copy the file's part, zero the rest. -/
def elfLoadSegment (file : Memory) (ph : Elf64Phdr) (t : TracedMemory) : TracedMemory :=
  if ph.pType ≠ ptLoad then t
  else
    let t := storeBytes (fun j => file ((ph.pOffset + j) % 2 ^ 64)) ph.pVaddr 0 ph.pFilesz t
    storeBytes (fun _ => 0) ph.pVaddr ph.pFilesz ph.pMemsz t

/-- Why `elf_load` returns -1. -/
inductive ElfError where
  | badMagic
  | notX86_64 (machine : ℕ)
deriving DecidableEq, Repr

def ElfError.format : ElfError → String
  | .badMagic => "ELF: bad magic\n"
  | .notX86_64 _ => "ELF: not x86-64 (machine=%x)\n"

/-- The two checks of the header. -/
def elfCheck (hdr : Elf64Header) : Except ElfError Unit :=
  if hdr.eIdent ≠ [0x7F, 0x45, 0x4C, 0x46] then .error .badMagic
  else if hdr.eMachine ≠ emX86_64 then .error (.notX86_64 hdr.eMachine)
  else .ok ()

/-- `elf_load`: the entry point, or the error that was printed. -/
def elfLoad (file : Memory) (t : TracedMemory) : Except ElfError ℕ × TracedMemory :=
  let hdr := Elf64Header.read file
  match elfCheck hdr with
  | .error e => (.error e, t)
  | .ok () =>
    (.ok hdr.eEntry,
      (List.range hdr.ePhnum).foldl (fun t i => elfLoadSegment file (hdr.phdr file i) t) t)

/-- The addresses that `elf_load` writes. -/
def elfWrites (file m : Memory) : List ℕ := (elfLoad file ⟨m, []⟩).2.written

/-- The program headers of the file's segments, when the header is accepted. -/
def loadSegments (file : Memory) : List Elf64Phdr :=
  let hdr := Elf64Header.read file
  match elfCheck hdr with
  | .error _ => []
  | .ok () => ((List.range hdr.ePhnum).map (hdr.phdr file)).filter (·.pType = ptLoad)

/-! ## The image in memory

The same function with the file in the memory that it writes. Every field and every byte is read from the
memory as it is then, since the compiler has to assume that the bytes stored may be those of a header.
-/

/-- The file at `elf_data`. -/
def fileAt (m : Memory) (elfData : ℕ) : Memory := fun offset => m ((elfData + offset) % 2 ^ 64)

/-- `i * hdr->e_phentsize`, which is undefined when it does not fit an `int`. -/
def intProduct (i phentsize : ℕ) : Option ℕ := if i * phentsize < 2 ^ 31 then some (i * phentsize) else none

/-- `for (uint64_t j = start; j < bound(); j++) dst[j] = byte(j);`. A `uint64_t` needs 2^64 of fuel at most. -/
def storeWhile (bound : Memory → ℕ) (byte : Memory → ℕ → BitVec 8) (dst : ℕ) :
    ℕ → ℕ → TracedMemory → TracedMemory
  | 0, _, t => t
  | fuel + 1, j, t =>
    if j < bound t.mem then
      storeWhile bound byte dst fuel (j + 1) (t.store8 ((dst + j) % 2 ^ 64) (byte t.mem j))
    else t

/-- The program header at an offset of the file. -/
def phdrAt (elfData place : ℕ) (m : Memory) : Elf64Phdr := .read (fileAt m elfData) place

/-- The loop that copies from `src = base + ph->p_offset` to `dst`. -/
def copyFilePart (elfData place dst src : ℕ) (t : TracedMemory) : TracedMemory :=
  storeWhile (fun m => (phdrAt elfData place m).pFilesz) (fun m j => fileAt m elfData ((src + j) % 2 ^ 64)) dst
    (2 ^ 64) 0 t

/-- The loop that zeroes the rest. -/
def zeroRest (elfData place dst : ℕ) (t : TracedMemory) : TracedMemory :=
  storeWhile (fun m => (phdrAt elfData place m).pMemsz) (fun _ _ => 0) dst (2 ^ 64)
    (phdrAt elfData place t.mem).pFilesz t

/-- One iteration over the program headers in memory. -/
def elfLoadStep (elfData i : ℕ) (t : TracedMemory) : Option TracedMemory :=
  let hdr := Elf64Header.read (fileAt t.mem elfData)
  (intProduct i hdr.ePhentsize).map fun product =>
    let place := (hdr.ePhoff + product) % 2 ^ 64
    let ph := phdrAt elfData place t.mem
    if ph.pType ≠ ptLoad then t
    else zeroRest elfData place ph.pVaddr (copyFilePart elfData place ph.pVaddr ph.pOffset t)

/-- `for (int i = 0; i < hdr->e_phnum; i++)`. A `uint16_t` bound needs 2^16 of fuel at most. -/
def elfLoadLoop (elfData : ℕ) : ℕ → ℕ → TracedMemory → Option TracedMemory
  | 0, _, t => some t
  | fuel + 1, i, t =>
    if i < (Elf64Header.read (fileAt t.mem elfData)).ePhnum then
      (elfLoadStep elfData i t).bind (elfLoadLoop elfData fuel (i + 1))
    else some t

/-- `elf_load` on a file in memory; `none` is undefined behaviour. The store to `*out_entry` is not among the
addresses written, and neither are the stores by which its three `printf` calls reach the screen. -/
def elfLoadIn (elfData outEntry : ℕ) (t : TracedMemory) : Option (Except ElfError Unit × TracedMemory) :=
  match elfCheck (Elf64Header.read (fileAt t.mem elfData)) with
  | .error e => some (.error e, t)
  | .ok () =>
    (elfLoadLoop elfData (2 ^ 16) 0 t).map fun t =>
      (.ok (), { t with
        mem := t.mem.store64 outEntry (Elf64Header.read (fileAt t.mem elfData)).eEntry })

/-- The program header `i` of the table. -/
def Elf64Header.entry (hdr : Elf64Header) (file : Memory) (i : ℕ) : Elf64Phdr :=
  .read file (hdr.ePhoff + i * hdr.ePhentsize)

/-- The `PT_LOAD` segments in the table of an accepted file. -/
def tableSegments (file : Memory) : List Elf64Phdr :=
  let hdr := Elf64Header.read file
  match elfCheck hdr with
  | .error _ => []
  | .ok () => ((List.range hdr.ePhnum).map (hdr.entry file)).filter (·.pType = ptLoad)

/-- The address is in `[p_vaddr, p_vaddr + p_memsz)`. -/
def Elf64Phdr.InRange (ph : Elf64Phdr) (x : ℕ) : Prop := ph.pVaddr ≤ x ∧ x < ph.pVaddr + ph.pMemsz

instance (ph : Elf64Phdr) (x : ℕ) : Decidable (ph.InRange x) := inferInstanceAs (Decidable (_ ∧ _))

/-- What a segment has at an address of its range. -/
def Elf64Phdr.byteAt (ph : Elf64Phdr) (file : Memory) (x : ℕ) : BitVec 8 :=
  if x - ph.pVaddr < ph.pFilesz then file (ph.pOffset + (x - ph.pVaddr)) else 0

/-- A file of `size` bytes at `elf_data`, with its header and its program headers inside. -/
structure ElfImage (file : Memory) (elfData size : ℕ) : Prop where
  space : elfData + size ≤ 2 ^ 64
  header : 64 ≤ size
  table : ∀ i < (Elf64Header.read file).ePhnum,
    (Elf64Header.read file).ePhoff + i * (Elf64Header.read file).ePhentsize + 56 ≤ size

/-- The byte is one of the segment. -/
def Elf64Phdr.Covers (ph : Elf64Phdr) (x : ℕ) : Prop :=
  ∃ j < max ph.pFilesz ph.pMemsz, x = (ph.pVaddr + j) % 2 ^ 64

@[simp] theorem TracedMemory.store8_written (t : TracedMemory) (address : ℕ) (value : BitVec 8) :
    (t.store8 address value).written = address :: t.written := rfl

end RaryOS.Model
