import HxcOS.Model.Vmm

/-!
# `os/src/process.cpp` and `os/src/elf.hpp`: loading a process

`load_from_elf` reads the headers of an image in memory.  For every segment of type
`ELF_PROG_LOAD` it takes pages from the allocator, puts them into the page table and copies bytes to
them.  The headers are local variables that `memcpy` fills from the image; here they are values.

A failed `assert` prints a message and goes on.  Every address can be read here, and printing returns
and stores nothing: the message has `__LINE__` for its second `%s`, and is whatever characters there
are at that address.  So nothing depends on the condition of an `assert`, and none is modelled.

A call is `.error s` when it does not return, because a call of `memcpy` does not; `s` is the
allocator at that call.  `loaded` is a ghost: the pages taken, with the segment for which each was
taken and its number there.
-/

namespace HxcOS

open ByteMem

def SEGMENT_READABLE : BitVec 32 := 0x4
def SEGMENT_EXECUTABLE : BitVec 32 := 0x1
def SEGMENT_WRITABLE : BitVec 32 := 0x2
def ELF_MAGIC : BitVec 32 := 0x464C457F
def ELF_PROG_LOAD : BitVec 32 := 1

/-- `struct elf_header_t`, the fields that are used. -/
structure ElfHeader where
  magic : BitVec 32
  entry : Word
  phoff : Word
  phnum : BitVec 16

/-- `sizeof(elf_header)`. -/
def ElfHeader.size : ℕ := 64

/-- `memcpy(&elf_header, a, sizeof(elf_header))`. -/
def ElfHeader.read (m : Mem) (a : Word) : ElfHeader :=
  ⟨m.load32 a, m.load64 (a + 24), m.load64 (a + 32), m.load16 (a + 56)⟩

/-- `struct elf_prog_header_t`, without `paddr` and `align`. -/
structure ElfProgHeader where
  type : BitVec 32
  flags : BitVec 32
  off : Word
  vaddr : Word
  filesz : Word
  memsz : Word
  deriving DecidableEq

/-- `sizeof(segment_header)`. -/
def ElfProgHeader.size : ℕ := 56

/-- `memcpy(&segment_header, a, sizeof(segment_header))`. -/
def ElfProgHeader.read (m : Mem) (a : Word) : ElfProgHeader :=
  ⟨m.load32 a, m.load32 (a + 4), m.load64 (a + 8), m.load64 (a + 16), m.load64 (a + 32),
    m.load64 (a + 40)⟩

/-- `class MappedInfo`. -/
structure MappedInfo where
  codeAddr : Word
  codePageNum : Word
  dataAddr : Word
  dataPageNum : Word
  stackPageNum : Word

/-- `class TrapFrame`, the field that is assigned. -/
structure TrapFrame where
  epc : Word

/-- `class Process`, with the object that `trapframe` points to. -/
structure Process where
  trapframe : TrapFrame
  mappedInfo : MappedInfo
  pageTable : PageTable

/-- `Process::Process(int pid)`, which constructs the page table and leaves the other members with
the values that they happen to have. -/
def Process.new (trapframe : TrapFrame) (mappedInfo : MappedInfo) (s : Pmm) : Process × Pmm :=
  let (pageTable, s) := PageTable.new s
  (⟨trapframe, mappedInfo, pageTable⟩, s)

/-- `uint64 PAGE_NUMBER(uint64 addr)`. -/
def pageNumber (addr : Word) : Word := addr >>> 12

/-- `pages_need`. -/
def ElfProgHeader.pagesNeed (h : ElfProgHeader) : Word :=
  let vaStt := pageNumber h.vaddr
  let vaEnd := pageNumber (h.vaddr + h.memsz - 1)
  (vaEnd - vaStt) / pgSize + 1

/-- There is always a page. -/
theorem ElfProgHeader.pagesNeed_toNat (h : ElfProgHeader) : h.pagesNeed.toNat =
    (pageNumber (h.vaddr + h.memsz - 1) - pageNumber h.vaddr).toNat / 4096 + 1 := by
  have hlt := (pageNumber (h.vaddr + h.memsz - 1) - pageNumber h.vaddr).isLt
  rw [pagesNeed, BitVec.toNat_add, BitVec.toNat_udiv, show pgSize.toNat = 4096 from rfl,
    show (1 : Word).toNat = 1 from rfl]
  omega

theorem ElfProgHeader.pagesNeed_toNat_le (h : ElfProgHeader) : h.pagesNeed.toNat ≤ 2 ^ 52 := by
  have hlt := (pageNumber (h.vaddr + h.memsz - 1) - pageNumber h.vaddr).isLt
  rw [h.pagesNeed_toNat]
  omega

/-- The value of an `int` as an unsigned 64-bit number. -/
theorem signExtend_toNat (j : BitVec 32) : (j.signExtend 64).toNat =
    if j.toNat < 2 ^ 31 then j.toNat else j.toNat + (2 ^ 64 - 2 ^ 32) := by
  have hj := j.isLt
  rw [BitVec.toNat_signExtend, BitVec.toNat_setWidth, BitVec.msb_eq_decide,
    Nat.mod_eq_of_lt (hj.trans (by norm_num))]
  by_cases hlt : j.toNat < 2 ^ 31
  · rw [if_pos hlt, decide_eq_false (by omega), if_neg Bool.false_ne_true, Nat.add_zero]
  · rw [if_neg hlt, decide_eq_true (by omega), if_pos rfl]

/-- An iteration of the loop over the pages leaves fewer of them, also when the increment makes `j`
negative. -/
theorem ElfProgHeader.pagesLeft_lt (h : ElfProgHeader) {j : BitVec 32}
    (hj : j.signExtend 64 < h.pagesNeed) :
    h.pagesNeed.toNat - ((j + 1).signExtend 64).toNat <
      h.pagesNeed.toNat - (j.signExtend 64).toNat := by
  have hle := h.pagesNeed_toNat_le
  rw [BitVec.lt_def] at hj
  rw [signExtend_toNat] at hj ⊢
  rw [signExtend_toNat, BitVec.toNat_add, show (1 : BitVec 32).toNat = 1 from rfl]
  split_ifs at hj ⊢ <;> omega

/-- A page that the loader has taken, with what `add` returned for it. -/
structure LoadedPage where
  header : ElfProgHeader
  index : ℕ
  dest : Word
  ret : ℤ

structure LoadState where
  pmm : Pmm
  process : Process
  loaded : List LoadedPage

namespace LoadState

/-- An iteration of the loop over the pages of a segment. -/
def loadPage (header : ElfProgHeader) (perm : Word) (j : BitVec 32) (remainingSize : Word)
    (s : LoadState) : Except Pmm LoadState :=
  let va := pageNumber header.vaddr + j.signExtend 64 * pgSize
  let nb := if remainingSize > pgSize then pgSize else remainingSize
  let (dest, pmm) := allocPage s.pmm
  let (ret, pmm) := s.process.pageTable.add pmm va dest perm
  match memcpy pmm.mem dest (header.off + j.signExtend 64 * pgSize) nb with
  | none => .error pmm
  | some (_, mem) =>
      .ok { s with
        pmm := { pmm with mem := mem }
        loaded := s.loaded ++ [⟨header, j.toNat, dest, ret⟩] }

/-- The iterations from `j` on.  The comparison `j < pages_need` is unsigned, and `j++` wraps around:
a negative `j` is larger than any number of pages. -/
def loadPages (header : ElfProgHeader) (perm : Word) (j : BitVec 32) (remainingSize : Word)
    (s : LoadState) : Except Pmm LoadState :=
  if _ : j.signExtend 64 < header.pagesNeed then do
    let s ← s.loadPage header perm j remainingSize
    s.loadPages header perm (j + 1) (remainingSize - pgSize)
  else .ok s
termination_by header.pagesNeed.toNat - (j.signExtend 64).toNat
decreasing_by exact header.pagesLeft_lt ‹_›

/-- The body of the loop over the segments.  `perm₀` is what the uninitialised variable `perm`
holds when the flags are neither `R|X` nor `R|W`. -/
def loadSegment (perm₀ : Word) (header : ElfProgHeader) (s : LoadState) : Except Pmm LoadState :=
  if header.type ≠ ELF_PROG_LOAD then .ok s else
  let vaStt := pageNumber header.vaddr
  let info := s.process.mappedInfo
  let (info, perm) :=
    if header.flags = SEGMENT_READABLE ||| SEGMENT_EXECUTABLE then
      ({ info with codeAddr := vaStt, codePageNum := header.pagesNeed },
        permissionCode false true true true false)
    else if header.flags = SEGMENT_READABLE ||| SEGMENT_WRITABLE then
      -- the number of pages goes to `code_addr`
      ({ info with dataAddr := vaStt, codeAddr := header.pagesNeed },
        permissionCode true true false true false)
    else (info, perm₀)
  { s with process.mappedInfo := info }.loadPages header perm 0 header.memsz

/-- The loop over the segments, whose state has the `int` variable `off`. -/
def loadSegments (perm₀ elfBuff : Word) : ℕ → BitVec 32 → LoadState → Except Pmm LoadState
  | 0, _, s => .ok s
  | n + 1, off, s => do
      let header := ElfProgHeader.read s.pmm.mem (elfBuff + off.signExtend 64)
      let s ← s.loadSegment perm₀ header
      s.loadSegments perm₀ elfBuff n (off + BitVec.ofNat 32 ElfProgHeader.size)

end LoadState

/-- `void Process::load_from_elf(const char* elf_buff)`. -/
def Process.loadFromElf (p : Process) (s : Pmm) (perm₀ elfBuff : Word) : Except Pmm LoadState := do
  let elfHeader := ElfHeader.read s.mem elfBuff
  let s ← LoadState.loadSegments perm₀ elfBuff elfHeader.phnum.toNat (elfHeader.phoff.setWidth 32)
    ⟨s, p, []⟩
  return { s with process.trapframe.epc := elfHeader.entry }

end HxcOS
