import HxcOS.Process.Loader

/-!
# The page arithmetic of the loader

The loop over the pages of a segment counts with the `int` variable `j` up to `pages_need`, and
`remaining_size` starts at the size of the segment and is a page less each time.
`ElfProgHeader.iterations` lists the values of the two variables, and the loop is a fold over this
list (`loadPages_eq_foldlM`).

The pages are counted modulo `2 ^ 64`, and after `2 ^ 31` iterations `j` is negative and ends the
loop.  The values are what they should be exactly for the segments that are not empty and end below
`2 ^ 64`, and for those that are larger than what the loop can count (`pages_safe_iff`).
-/

namespace HxcOS

open ByteMem

/-- The variables `j` and `remaining_size` in the iterations of the loop over the pages. -/
def pageIterations (header : ElfProgHeader) (j : BitVec 32) (remainingSize : Word) :
    List (BitVec 32 × Word) :=
  if _ : j.signExtend 64 < header.pagesNeed then
    (j, remainingSize) :: pageIterations header (j + 1) (remainingSize - pgSize)
  else []
termination_by header.pagesNeed.toNat - (j.signExtend 64).toNat
decreasing_by exact header.pagesLeft_lt ‹_›

namespace ElfProgHeader

/-- The iterations for a segment. -/
def iterations (h : ElfProgHeader) : List (BitVec 32 × Word) := pageIterations h 0 h.memsz

/-- The loop runs not much longer than the size says, not at all for an empty segment, and never
with a `remaining_size` that has wrapped around or is zero. -/
def PagesSafe (h : ElfProgHeader) : Prop :=
  h.iterations.length ≤ h.memsz.toNat / 4096 + 2 ∧ (h.memsz = 0 → h.iterations = []) ∧
    ∀ e ∈ h.iterations, (e.2.toNat : ℤ) = h.memsz.toNat - 4096 * e.1.toInt ∧ 0 < e.2.toNat

end ElfProgHeader

/-- The loop over the pages goes through the iterations. -/
theorem loadPages_eq_foldlM (header : ElfProgHeader) (perm : Word) (j : BitVec 32)
    (remainingSize : Word) (s : LoadState) :
    s.loadPages header perm j remainingSize =
      (pageIterations header j remainingSize).foldlM
        (fun s e => s.loadPage header perm e.1 e.2) s := by
  fun_induction pageIterations header j remainingSize generalizing s with
  | case1 j remainingSize hlt ih =>
    rw [LoadState.loadPages, dif_pos hlt, List.foldlM_cons]
    exact congrArg _ (funext fun s' => ih s')
  | case2 j remainingSize hge =>
    rw [LoadState.loadPages, dif_neg hge]
    rfl

namespace ElfProgHeader

variable (h : ElfProgHeader)

theorem pageIterations_eq {n j : ℕ} (hj : j + n = h.pageCount) :
    pageIterations h (BitVec.ofNat 32 j) (h.memsz - BitVec.ofNat 64 j * pgSize) =
      (List.range' j n).map fun i => (BitVec.ofNat 32 i, h.memsz - BitVec.ofNat 64 i * pgSize) := by
  induction n generalizing j with
  | zero =>
    rw [pageIterations, dif_neg ((h.test_iff (by omega)).not.2 (by omega))]
    rfl
  | succ n ih =>
    rw [pageIterations, dif_pos ((h.test_iff (by omega)).2 (by omega)), LoadInv.remaining_succ,
      show BitVec.ofNat 32 j + 1 = BitVec.ofNat 32 (j + 1) from (BitVec.ofNat_add j 1).symm,
      ih (by omega), List.range'_succ, List.map_cons]

theorem iterations_eq : h.iterations = (List.range h.pageCount).map fun j =>
    (BitVec.ofNat 32 j, h.memsz - BitVec.ofNat 64 j * pgSize) := by
  have hrange := h.pageIterations_eq (Nat.zero_add h.pageCount)
  rw [← List.range_eq_range'] at hrange
  rw [iterations, ← hrange]
  simp

theorem pageNumber_sub_toNat : (pageNumber (h.vaddr + h.memsz - 1) - pageNumber h.vaddr).toNat =
    ((h.vaddr.toNat + h.memsz.toNat + 2 ^ 64 - 1) % 2 ^ 64 / 4096 + 2 ^ 64 -
      h.vaddr.toNat / 4096) % 2 ^ 64 := by
  have hv := h.vaddr.isLt
  have hm := h.memsz.isLt
  simp only [pageNumber, BitVec.toNat_sub, BitVec.toNat_add, BitVec.toNat_ushiftRight,
    Nat.shiftRight_eq_div_pow]
  rw [show (1 : Word).toNat = 1 from rfl]
  omega

/-- The last iteration decides. -/
theorem pagesSafe_iff : h.PagesSafe ↔ 4096 * (h.pageCount - 1) < h.memsz.toNat := by
  have hpos := h.pageCount_pos
  have hle := h.pageCount_le
  have hmem := h.memsz.isLt
  have hvalue : ∀ j < h.pageCount, (h.memsz - BitVec.ofNat 64 j * pgSize).toNat =
      (2 ^ 64 - 4096 * j + h.memsz.toNat) % 2 ^ 64 := by
    intro j hj
    rw [BitVec.toNat_sub, BitVec.toNat_mul, BitVec.toNat_ofNat, show pgSize.toNat = 4096 from rfl]
    omega
  have hint : ∀ j < h.pageCount, (BitVec.ofNat 32 j).toInt = j := by
    intro j hj
    have hj' := counter_toNat (j := j) (by omega)
    rw [BitVec.toInt_eq_toNat_of_lt (by omega), hj']
  rw [PagesSafe, iterations_eq, List.length_map, List.length_range]
  simp only [List.forall_mem_map, List.mem_range]
  constructor
  · rintro ⟨-, -, hall⟩
    obtain ⟨heq, hpos⟩ := hall (h.pageCount - 1) (by omega)
    rw [hint _ (by omega)] at heq
    omega
  · intro hlast
    refine ⟨by omega, fun hzero => ?_, fun j hj => ?_⟩
    · rw [hzero] at hlast
      simp at hlast
    · rw [hvalue j hj, hint j hj]
      omega

end ElfProgHeader

/-- **When the page arithmetic is safe.** -/
theorem pages_safe_iff (h : ElfProgHeader) :
    h.PagesSafe ↔ h.memsz ≠ 0 ∧
      (h.vaddr.toNat + h.memsz.toNat ≤ 2 ^ 64 ∨ 2 ^ 43 - 4096 < h.memsz.toNat) := by
  have hv := h.vaddr.isLt
  have hm := h.memsz.isLt
  have hzero : h.memsz ≠ 0 ↔ h.memsz.toNat ≠ 0 := by
    rw [ne_eq, ← BitVec.toNat_inj]
    rfl
  rw [h.pagesSafe_iff, ElfProgHeader.pageCount, h.pagesNeed_toNat, h.pageNumber_sub_toNat, hzero]
  omega

/-- A code segment of size zero, in the middle of a page. -/
def emptySegment : ElfProgHeader where
  type := ELF_PROG_LOAD
  flags := SEGMENT_READABLE ||| SEGMENT_EXECUTABLE
  off := 0x1000
  vaddr := 0x10010
  filesz := 0
  memsz := 0

/-- There is one iteration for it, with nothing remaining. -/
theorem emptySegment_not_safe : emptySegment.iterations = [(0, 0)] ∧ ¬ emptySegment.PagesSafe := by
  have hone : emptySegment.iterations = [(0, 0)] := by
    rw [emptySegment.iterations_eq]
    decide
  refine ⟨hone, ?_⟩
  rintro ⟨-, hnone, -⟩
  rw [hone] at hnone
  exact absurd (hnone rfl) (by simp)

end HxcOS
