import HxcOS.Model.Process
import HxcOS.Vmm.Operations

/-!
# What the loader does to the memory

The loader takes pages off a free list `L` and stores to these alone.  A page that it takes for a
segment gets bytes from the address `off + j * PGSIZE`, as many as `nb` says, and keeps what it held
before in the rest (`LoadedPage.source`).  `LoadInv` says so for all pages taken so far; one
iteration of the loop over the pages keeps it (`LoadInv.loadPage`), and so do the loops.

All this is for loads in which `alloc_page` returns no `NULL`: the number of its failures
(`failures`) is at the end what it was at the beginning.
-/

namespace HxcOS

open ByteMem

/-- How often `alloc_page` has returned `NULL` when the load is over. -/
def failures : Except Pmm LoadState → ℕ
  | .ok s => s.pmm.denied
  | .error s => s.denied

/-- The flags of a code segment or of a data segment. -/
def ElfProgHeader.ValidFlags (h : ElfProgHeader) : Prop :=
  h.flags = SEGMENT_READABLE ||| SEGMENT_EXECUTABLE ∨ h.flags = SEGMENT_READABLE ||| SEGMENT_WRITABLE

/-- `perm` for a segment. -/
def ElfProgHeader.perm (h : ElfProgHeader) (perm₀ : Word) : Word :=
  if h.flags = SEGMENT_READABLE ||| SEGMENT_EXECUTABLE then permissionCode false true true true false
  else if h.flags = SEGMENT_READABLE ||| SEGMENT_WRITABLE then
    permissionCode true true false true false
  else perm₀

/-- What a segment changes in `mapped_info`. -/
def ElfProgHeader.record (h : ElfProgHeader) (info : MappedInfo) : MappedInfo :=
  if h.type ≠ ELF_PROG_LOAD then info
  else if h.flags = SEGMENT_READABLE ||| SEGMENT_EXECUTABLE then
    { info with codeAddr := pageNumber h.vaddr, codePageNum := h.pagesNeed }
  else if h.flags = SEGMENT_READABLE ||| SEGMENT_WRITABLE then
    { info with dataAddr := pageNumber h.vaddr, codeAddr := h.pagesNeed }
  else info

theorem ElfProgHeader.ValidFlags.perm_bounds {h : ElfProgHeader} (hflags : h.ValidFlags)
    (perm₀ : Word) : (h.perm perm₀).toNat < 1024 ∧ (h.perm perm₀).toNat % 2 = 1 := by
  unfold ElfProgHeader.perm
  split_ifs with hcode hdata
  · exact permissionCode_bounds ..
  · exact permissionCode_bounds ..
  · exact (hflags.elim hcode hdata).elim

/-! ### The failures only become more -/

theorem allocPage_denied_le (s : Pmm) : s.denied ≤ (allocPage s).2.denied := by
  unfold allocPage
  dsimp only
  split_ifs
  · exact le_rfl
  · exact Nat.le_succ _

theorem PageTable.add_denied_le (t : PageTable) (s : Pmm) (va pa perm : Word) :
    s.denied ≤ (t.add s va pa perm).2.denied := by
  have hgrow : ∀ (s : Pmm) (e : Word), s.denied ≤ (growNode s e).2.denied := by
    intro s e
    rw [growNode_denied]
    omega
  have hwalk : s.denied ≤ (t.pageWalkAlloc s va).2.denied := by
    unfold PageTable.pageWalkAlloc
    dsimp only
    split_ifs
    · exact (hgrow s _).trans (hgrow (growNode s _).2 _)
    · exact hgrow s _
    · exact le_rfl
  rw [PageTable.add_denied]
  exact hwalk

/-! ### The counter of the loop over the pages -/

theorem counter_toNat {j : ℕ} (hj : j ≤ 2 ^ 31) : (BitVec.ofNat 32 j).toNat = j :=
  Nat.mod_eq_of_lt (hj.trans_lt (by norm_num))

/-- A nonnegative `int`. -/
theorem signExtend_ofNat {k : ℕ} (hk : k < 2 ^ 31) :
    (BitVec.ofNat 32 k).signExtend 64 = BitVec.ofNat 64 k := by
  apply BitVec.eq_of_toNat_eq
  rw [signExtend_toNat, counter_toNat hk.le, if_pos hk, BitVec.toNat_ofNat]
  omega

/-- How often the loop runs: after `2 ^ 31` iterations `j` is negative. -/
def ElfProgHeader.pageCount (h : ElfProgHeader) : ℕ := min h.pagesNeed.toNat (2 ^ 31)

theorem ElfProgHeader.pageCount_pos (h : ElfProgHeader) : 0 < h.pageCount := by
  have hpages := h.pagesNeed_toNat
  unfold pageCount
  omega

theorem ElfProgHeader.pageCount_le (h : ElfProgHeader) : h.pageCount ≤ 2 ^ 31 := min_le_right _ _

/-- The test is passed in the first `pageCount` iterations and not after them. -/
theorem ElfProgHeader.test_iff (h : ElfProgHeader) {j : ℕ} (hj : j ≤ h.pageCount) :
    (BitVec.ofNat 32 j).signExtend 64 < h.pagesNeed ↔ j < h.pageCount := by
  have hle := h.pagesNeed_toNat_le
  rw [BitVec.lt_def, signExtend_toNat, counter_toNat (hj.trans h.pageCount_le)]
  unfold pageCount at hj ⊢
  split_ifs <;> omega

/-- No more than can be counted. -/
theorem ElfProgHeader.pageCount_eq {h : ElfProgHeader} (hle : h.pageCount < 2 ^ 31) :
    h.pageCount = h.pagesNeed.toNat := by
  unfold pageCount at hle ⊢
  omega

namespace LoadState

theorem failures_loadPage (header : ElfProgHeader) (perm : Word) (j : BitVec 32)
    (remainingSize : Word) (s : LoadState) : failures (s.loadPage header perm j remainingSize) =
      (s.process.pageTable.add (allocPage s.pmm).2
        (pageNumber header.vaddr + j.signExtend 64 * pgSize) (allocPage s.pmm).1 perm).2.denied := by
  unfold loadPage
  dsimp only
  split <;> rfl

theorem denied_le_loadPage (header : ElfProgHeader) (perm : Word) (j : BitVec 32)
    (remainingSize : Word) (s : LoadState) :
    s.pmm.denied ≤ failures (s.loadPage header perm j remainingSize) := by
  rw [failures_loadPage]
  exact (allocPage_denied_le s.pmm).trans (PageTable.add_denied_le ..)

/-- What follows adds to the failures. -/
theorem failures_le_bind (x : Except Pmm LoadState) {f : LoadState → Except Pmm LoadState}
    (hf : ∀ s, s.pmm.denied ≤ failures (f s)) : failures x ≤ failures (x >>= f) := by
  cases x with
  | error e => exact le_rfl
  | ok s => exact hf s

/-- `n` iterations of the loop over the pages, from the `j`-th on. -/
def takePages (header : ElfProgHeader) (perm : Word) :
    ℕ → ℕ → Word → LoadState → Except Pmm LoadState
  | 0, _, _, s => .ok s
  | n + 1, j, remainingSize, s => do
      let s ← s.loadPage header perm (BitVec.ofNat 32 j) remainingSize
      s.takePages header perm n (j + 1) (remainingSize - pgSize)

/-- The loop takes the pages of the segment, `2 ^ 31` at most. -/
theorem loadPages_eq (header : ElfProgHeader) (perm remainingSize : Word) (s : LoadState) :
    s.loadPages header perm 0 remainingSize =
      s.takePages header perm header.pageCount 0 remainingSize := by
  suffices h : ∀ n j, j + n = header.pageCount → ∀ remainingSize s,
      loadPages header perm (BitVec.ofNat 32 j) remainingSize s =
        takePages header perm n j remainingSize s from h _ 0 (Nat.zero_add _) remainingSize s
  intro n
  induction n with
  | zero =>
    intro j hj remainingSize s
    rw [loadPages, dif_neg ((header.test_iff (by omega)).not.2 (by omega)), takePages]
  | succ n ih =>
    intro j hj remainingSize s
    rw [loadPages, dif_pos ((header.test_iff (by omega)).2 (by omega)), takePages,
      show BitVec.ofNat 32 j + 1 = BitVec.ofNat 32 (j + 1) from (BitVec.ofNat_add j 1).symm]
    exact congrArg _ (funext fun s' => ih (j + 1) (by omega) _ s')

theorem denied_le_takePages (header : ElfProgHeader) (perm : Word) (n j : ℕ) (remainingSize : Word)
    (s : LoadState) : s.pmm.denied ≤ failures (s.takePages header perm n j remainingSize) := by
  induction n generalizing j remainingSize s with
  | zero => exact le_rfl
  | succ n ih =>
    exact (denied_le_loadPage header perm _ remainingSize s).trans
      (failures_le_bind _ fun s' => ih (j + 1) _ s')

/-- What happens for a segment that is loaded. -/
theorem loadSegment_load (perm₀ : Word) {header : ElfProgHeader} (h : header.type = ELF_PROG_LOAD)
    (s : LoadState) :
    s.loadSegment perm₀ header =
      { s with process.mappedInfo := header.record s.process.mappedInfo }.takePages header
        (header.perm perm₀) header.pageCount 0 header.memsz := by
  rw [← loadPages_eq]
  unfold loadSegment ElfProgHeader.record ElfProgHeader.perm
  rw [if_neg (not_not.2 h), if_neg (not_not.2 h)]
  dsimp only
  split_ifs <;> rfl

theorem loadSegment_skip (perm₀ : Word) {header : ElfProgHeader} (h : header.type ≠ ELF_PROG_LOAD)
    (s : LoadState) : s.loadSegment perm₀ header = .ok s := if_pos h

theorem denied_le_loadSegment (perm₀ : Word) (header : ElfProgHeader) (s : LoadState) :
    s.pmm.denied ≤ failures (s.loadSegment perm₀ header) := by
  by_cases h : header.type = ELF_PROG_LOAD
  · rw [loadSegment_load perm₀ h]
    exact denied_le_takePages header _ _ 0 _
      { s with process.mappedInfo := header.record s.process.mappedInfo }
  · rw [loadSegment_skip perm₀ h]
    exact le_rfl

theorem denied_le_loadSegments (perm₀ elfBuff : Word) (n : ℕ) (off : BitVec 32) (s : LoadState) :
    s.pmm.denied ≤ failures (s.loadSegments perm₀ elfBuff n off) := by
  induction n generalizing off s with
  | zero => exact le_rfl
  | succ n ih =>
    exact (denied_le_loadSegment perm₀ _ s).trans (failures_le_bind _ fun s' => ih _ s')

/-- When nothing fails in two steps, nothing fails in the first. -/
theorem failures_eq_of_bind {x : Except Pmm LoadState} {f : LoadState → Except Pmm LoadState}
    (hf : ∀ s, s.pmm.denied ≤ failures (f s)) {d : ℕ} (hd : d ≤ failures x)
    (h : failures (x >>= f) = d) : failures x = d :=
  le_antisymm (h ▸ failures_le_bind x hf) hd

end LoadState

/-! ### `add`, seen from the pages it does not take -/

/-- `add` of a page that the caller holds, whether or not the address is mapped: the page can still
be written to, and no other page that is not free changes its role. -/
theorem Owned.add_data {K : Word} {g : Ghost} {s : Kernel} {t : ℕ} {tbl : PageTable}
    {va pa perm : Word} (h : Owned K g s) (ht : s.tables[t]? = some tbl)
    (hneed : s.needed t va ≤ g.free.length) (hpa : g.own pa = .held)
    (hperm : perm.toNat < 1024 ∧ perm.toNat % 2 = 1) :
    ∃ g' held, Owned K g' { s with pmm := (tbl.add s.pmm va pa perm).2, held := held } ∧
      g'.IsData pa ∧ (∀ p ≠ pa, g.own p ≠ .free → g'.own p = g.own p) ∧
      g.free.length ≤ g'.free.length + 2 ∧
      Wrote g'.nodeBytes s.pmm.mem (tbl.add s.pmm va pa perm).2.mem := by
  obtain ⟨g', hgrown, hlen, -, hw, hsome, hnone⟩ := h.add ht hneed hpa hperm
  cases hwalk : s.walk t (path va) with
  | some p =>
    obtain ⟨-, h'⟩ := hsome (by rw [hwalk]; rfl)
    exact ⟨g', s.held, h', Or.inl (hgrown.held_iff.2 hpa), fun p _ hp => hgrown.kept p hp, hlen, hw⟩
  | none =>
    obtain ⟨-, h'⟩ := hnone hwalk
    refine ⟨_, _, h', Or.inr ⟨t, path va, rfl, by simp⟩, fun p hne hp => ?_, hlen, hw.mono ?_⟩
    · dsimp only
      rw [Function.update_of_ne hne, hgrown.kept p hp]
    · -- the page is no node, before or after
      rintro a ⟨q, u, π, hπ, hq, ha⟩
      have hqp : q ≠ pa := by
        rintro rfl
        rw [hgrown.held_iff.2 hpa] at hq
        cases hq
      exact ⟨q, u, π, hπ, by rw [← hq]; exact Function.update_of_ne hqp _ _, ha⟩

/-! ### The invariant of the loops -/

/-- `nb`, for the `j`-th page of a segment. -/
def ElfProgHeader.copied (h : ElfProgHeader) (j : ℕ) : Word :=
  let remainingSize := h.memsz - BitVec.ofNat 64 j * pgSize
  if remainingSize > pgSize then pgSize else remainingSize

/-- The address from which the byte at offset `x` of a page comes. -/
def LoadedPage.source (pg : LoadedPage) (x : ℕ) : Word :=
  if x < (pg.header.copied pg.index).toNat then
    pg.header.off + BitVec.ofNat 64 pg.index * pgSize + BitVec.ofNat 64 x
  else pg.dest + BitVec.ofNat 64 x

/-- The segment and the number of the page there. -/
def LoadedPage.place (pg : LoadedPage) : ElfProgHeader × ℕ := (pg.header, pg.index)

/-- The pages that the loader takes for a segment. -/
def ElfProgHeader.places (h : ElfProgHeader) : List (ElfProgHeader × ℕ) :=
  if h.type = ELF_PROG_LOAD then (List.range h.pageCount).map (h, ·) else []

/-! ### What a load that returns has done to the process -/

namespace LoadState

variable {header : ElfProgHeader} {perm perm₀ elfBuff : Word} {s s' : LoadState} {n j : ℕ}
  {remainingSize : Word}

/-- Each iteration takes a page and leaves the process alone. -/
theorem of_takePages (h : s.takePages header perm n j remainingSize = .ok s')
    (hj : j + n ≤ 2 ^ 31) : s'.process = s.process ∧ s'.loaded.map LoadedPage.place =
      s.loaded.map LoadedPage.place ++ (List.range' j n).map (header, ·) := by
  induction n generalizing j remainingSize s with
  | zero =>
    obtain rfl := Except.ok.inj h
    simp
  | succ n ih =>
    rw [takePages] at h
    cases hpage : s.loadPage header perm (BitVec.ofNat 32 j) remainingSize with
    | error e =>
      rw [hpage] at h
      cases h
    | ok s₁ =>
      rw [hpage] at h
      obtain ⟨hprocess, hplaces⟩ := ih h (by omega)
      unfold loadPage at hpage
      dsimp only at hpage
      split at hpage
      · cases hpage
      · obtain rfl := Except.ok.inj hpage
        refine ⟨hprocess, hplaces.trans ?_⟩
        rw [List.range'_succ, counter_toNat (by omega)]
        simp [LoadedPage.place]

theorem of_loadSegment (h : s.loadSegment perm₀ header = .ok s') :
    s'.process = { s.process with mappedInfo := header.record s.process.mappedInfo } ∧
      s'.loaded.map LoadedPage.place = s.loaded.map LoadedPage.place ++ header.places := by
  by_cases htype : header.type = ELF_PROG_LOAD
  · rw [loadSegment_load perm₀ htype] at h
    obtain ⟨hprocess, hplaces⟩ := of_takePages h (by rw [Nat.zero_add]; exact header.pageCount_le)
    refine ⟨hprocess, hplaces.trans ?_⟩
    rw [ElfProgHeader.places, if_pos htype, List.range_eq_range']
  · rw [loadSegment_skip perm₀ htype] at h
    obtain rfl := Except.ok.inj h
    rw [ElfProgHeader.places, if_neg htype, ElfProgHeader.record, if_pos htype]
    simp

/-- The headers that the loop over the segments reads, until a call does not return. -/
def headersRead (perm₀ elfBuff : Word) : ℕ → BitVec 32 → LoadState → List ElfProgHeader
  | 0, _, _ => []
  | n + 1, off, s =>
      let header := ElfProgHeader.read s.pmm.mem (elfBuff + off.signExtend 64)
      header :: match s.loadSegment perm₀ header with
        | .error _ => []
        | .ok s => headersRead perm₀ elfBuff n (off + BitVec.ofNat 32 ElfProgHeader.size) s

/-- What the loop does to the process depends on the headers that it reads. -/
theorem of_loadSegments {off : BitVec 32}
    (h : s.loadSegments perm₀ elfBuff n off = .ok s') :
    s'.process = { s.process with
        mappedInfo := (s.headersRead perm₀ elfBuff n off).foldl
          (fun info header => header.record info) s.process.mappedInfo } ∧
      s'.loaded.map LoadedPage.place = s.loaded.map LoadedPage.place ++
        (s.headersRead perm₀ elfBuff n off).flatMap ElfProgHeader.places := by
  induction n generalizing s off with
  | zero =>
    obtain rfl := Except.ok.inj h
    simp [headersRead]
  | succ n ih =>
    rw [loadSegments] at h
    rw [headersRead]
    dsimp only at h ⊢
    cases hsegment : s.loadSegment perm₀
        (ElfProgHeader.read s.pmm.mem (elfBuff + off.signExtend 64)) with
    | error e =>
      rw [hsegment] at h
      cases h
    | ok s₁ =>
      rw [hsegment] at h
      obtain ⟨hprocess, hplaces⟩ := ih h
      obtain ⟨hprocess₁, hplaces₁⟩ := of_loadSegment hsegment
      rw [hprocess₁] at hprocess
      rw [hplaces₁] at hplaces
      refine ⟨hprocess, hplaces.trans ?_⟩
      rw [List.flatMap_cons, List.append_assoc]

end LoadState

/-- The headers that a load reads. -/
def Process.headersRead (p : Process) (s : Pmm) (perm₀ elfBuff : Word) : List ElfProgHeader :=
  let elfHeader := ElfHeader.read s.mem elfBuff
  LoadState.headersRead perm₀ elfBuff elfHeader.phnum.toNat (elfHeader.phoff.setWidth 32) ⟨s, p, []⟩

/-- A load that returns: the loop over the segments has returned, and `epc` is assigned. -/
theorem Process.loadFromElf_ok {p : Process} {s : Pmm} {perm₀ elfBuff : Word} {s' : LoadState}
    (h : p.loadFromElf s perm₀ elfBuff = .ok s') :
    ∃ s₁, LoadState.loadSegments perm₀ elfBuff (ElfHeader.read s.mem elfBuff).phnum.toNat
        ((ElfHeader.read s.mem elfBuff).phoff.setWidth 32) ⟨s, p, []⟩ = .ok s₁ ∧
      s' = { s₁ with process.trapframe.epc := (ElfHeader.read s.mem elfBuff).entry } := by
  unfold loadFromElf at h
  dsimp only at h
  cases hload : LoadState.loadSegments perm₀ elfBuff (ElfHeader.read s.mem elfBuff).phnum.toNat
      ((ElfHeader.read s.mem elfBuff).phoff.setWidth 32) ⟨s, p, []⟩ with
  | error e =>
    rw [hload] at h
    cases h
  | ok s₁ =>
    rw [hload] at h
    exact ⟨s₁, rfl, (Except.ok.inj h).symm⟩

/-- It has gone through the headers. -/
theorem Process.of_loadFromElf {p : Process} {s : Pmm} {perm₀ elfBuff : Word} {s' : LoadState}
    (h : p.loadFromElf s perm₀ elfBuff = .ok s') :
    s'.process.mappedInfo = (p.headersRead s perm₀ elfBuff).foldl
        (fun info header => header.record info) p.mappedInfo ∧
      s'.loaded.map LoadedPage.place =
        (p.headersRead s perm₀ elfBuff).flatMap ElfProgHeader.places := by
  obtain ⟨s₁, hload, rfl⟩ := Process.loadFromElf_ok h
  obtain ⟨hprocess, hplaces⟩ := LoadState.of_loadSegments hload
  exact ⟨congrArg Process.mappedInfo hprocess, hplaces⟩

/-- The headers of `n` segments, the first one at the offset `k` of the image. -/
def progHeadersFrom (m : Mem) (elfBuff : Word) (k n : ℕ) : List ElfProgHeader :=
  (List.range n).map fun i =>
    ElfProgHeader.read m (elfBuff + BitVec.ofNat 64 (k + ElfProgHeader.size * i))

/-- The loader can work with the segment, if `perm` holds `perm₀` at first. -/
def ElfProgHeader.Loads (perm₀ : Word) (h : ElfProgHeader) : Prop :=
  h.type = ELF_PROG_LOAD → ((h.perm perm₀).toNat < 1024 ∧ (h.perm perm₀).toNat % 2 = 1) ∧
    h.off.toNat ≤ ramSize.toNat

theorem progHeadersFrom_succ (m : Mem) (elfBuff : Word) (k n : ℕ) :
    progHeadersFrom m elfBuff k (n + 1) =
      ElfProgHeader.read m (elfBuff + BitVec.ofNat 64 k) ::
        progHeadersFrom m elfBuff (k + ElfProgHeader.size) n := by
  simp only [progHeadersFrom, List.range_succ_eq_map, List.map_cons, List.map_map, Nat.mul_zero,
    Nat.add_zero]
  refine congrArg _ (List.map_congr_left fun i _ => ?_)
  rw [Function.comp_apply, Nat.succ_eq_add_one, Nat.mul_add, Nat.mul_one, Nat.add_assoc,
    Nat.add_comm (ElfProgHeader.size * i)]

/-- Fields are the same in memories that agree on the bytes of a structure. -/
theorem fields_congr {m m' : Mem} {a : Word} {n : ℕ} (hn : n ≤ 2 ^ 64)
    (h : ∀ b ∈ span a n, m.byte b = m'.byte b) {k w : ℕ} (hk : k + w ≤ n) :
    m.load w (a + BitVec.ofNat 64 k) = m'.load w (a + BitVec.ofNat 64 k) :=
  Mem.load_congr (by omega) fun b hb => h b (span_offset_subset hk hn hb)

theorem ElfProgHeader.read_congr {m m' : Mem} {a : Word}
    (h : ∀ b ∈ span a ElfProgHeader.size, m.byte b = m'.byte b) :
    ElfProgHeader.read m a = ElfProgHeader.read m' a := by
  have hfield := fun k w => fields_congr (k := k) (w := w) (by norm_num [size]) h
  have htype := hfield 0 4 (by norm_num [size])
  rw [BitVec.add_zero] at htype
  simp only [ElfProgHeader.read, Mem.load32, Mem.load64, ElfProgHeader.mk.injEq]
  exact ⟨congrArg _ htype, congrArg _ (hfield 4 4 (by norm_num [size])),
    congrArg _ (hfield 8 8 (by norm_num [size])), congrArg _ (hfield 16 8 (by norm_num [size])),
    congrArg _ (hfield 32 8 (by norm_num [size])), congrArg _ (hfield 40 8 (by norm_num [size]))⟩

theorem ElfHeader.read_congr {m m' : Mem} {a : Word}
    (h : ∀ b ∈ span a ElfHeader.size, m.byte b = m'.byte b) :
    ElfHeader.read m a = ElfHeader.read m' a := by
  have hfield := fun k w => fields_congr (k := k) (w := w) (by norm_num [size]) h
  have hmagic := hfield 0 4 (by norm_num [size])
  rw [BitVec.add_zero] at hmagic
  simp only [ElfHeader.read, Mem.load16, Mem.load32, Mem.load64, ElfHeader.mk.injEq]
  exact ⟨congrArg _ hmagic, congrArg _ (hfield 24 8 (by norm_num [size])),
    congrArg _ (hfield 32 8 (by norm_num [size])), congrArg _ (hfield 56 2 (by norm_num [size]))⟩

/-- The program headers of the image. -/
def progHeaders (m : Mem) (elfBuff : Word) : List ElfProgHeader :=
  let elfHeader := ElfHeader.read m elfBuff
  progHeadersFrom m elfBuff elfHeader.phoff.toNat elfHeader.phnum.toNat

/-- The addresses of `n` program headers, as the loop computes them with its `int` variable. -/
def headerAddrs (elfBuff : Word) : ℕ → BitVec 32 → List Word
  | 0, _ => []
  | n + 1, off => (elfBuff + off.signExtend 64) ::
      headerAddrs elfBuff n (off + BitVec.ofNat 32 ElfProgHeader.size)

/-- The addresses of the program headers of any image, whether or not its fields make sense. -/
def programHeaderAddrs (m : Mem) (elfBuff : Word) : List Word :=
  let elfHeader := ElfHeader.read m elfBuff
  headerAddrs elfBuff elfHeader.phnum.toNat (elfHeader.phoff.setWidth 32)

/-- The `int` variable is right for offsets below the size of the memory. -/
theorem headerAddrs_eq {k n : ℕ} (hk : k + ElfProgHeader.size * n ≤ ramSize.toNat)
    (elfBuff : Word) : headerAddrs elfBuff n (BitVec.ofNat 32 k) =
      (List.range n).map fun i => elfBuff + BitVec.ofNat 64 (k + ElfProgHeader.size * i) := by
  induction n generalizing k with
  | zero => rfl
  | succ n ih =>
    rw [Nat.mul_succ] at hk
    have hram : ramSize.toNat = 0x8000000 := rfl
    rw [headerAddrs, signExtend_ofNat (by omega), ← BitVec.ofNat_add, ih (by omega),
      List.range_succ_eq_map, List.map_cons, List.map_map, Nat.mul_zero, Nat.add_zero]
    refine congrArg _ (List.map_congr_left fun i _ => ?_)
    rw [Function.comp_apply, Nat.succ_eq_add_one, Nat.mul_add, Nat.mul_one, Nat.add_assoc,
      Nat.add_comm (ElfProgHeader.size * i)]

/-- The program headers there. -/
def segmentHeaders (m : Mem) (elfBuff : Word) : List ElfProgHeader :=
  (programHeaderAddrs m elfBuff).map (ElfProgHeader.read m)

/-- The state of a load that began with the free list `L` and the memory `m`. -/
structure LoadInv (K : Word) (L : List Word) (m : Mem) (g : Ghost) (s : LoadState) : Prop where
  owned : ∃ held, Owned K g ⟨s.pmm, [s.process.pageTable], held, fun _ _ => none⟩
  others : ∀ p ∉ L, g.own p = .held ∨ g.own p = .outside
  wrote : Wrote (pagesOf L) m s.pmm.mem
  untouched : ∀ p ∈ g.free, ∀ a ∈ page p, s.pmm.mem.byte a = m.byte a
  count : g.free.length + s.loaded.length ≤ L.length
  room : L.length ≤ g.free.length + 3 * s.loaded.length + 1
  pages : ∀ pg ∈ s.loaded, pg.dest ∈ L ∧ g.IsData pg.dest ∧
    ∀ x < 4096, s.pmm.mem.byte (pg.dest + BitVec.ofNat 64 x) = m.byte (pg.source x)

/-- What the free list of the machine is like. -/
structure FreePages (K : Word) (L : List Word) : Prop where
  kernelEnd : KernelEnd K
  pool : ∀ p ∈ L, PoolPage K p
  nodup : L.Nodup

theorem FreePages.le_toNat {K : Word} {L : List Word} (hL : FreePages K L) {p : Word} (hp : p ∈ L) :
    0x80200000 ≤ p.toNat := by
  have hbegin := hL.kernelEnd.begin_le
  have hle := (hL.pool p hp).2.1
  rw [kernelBegin] at hbegin
  bv_omega

/-- The memory above the kernel has 32256 pages. -/
theorem FreePages.length_le {K : Word} {L : List Word} (hL : FreePages K L) : L.length ≤ 32256 := by
  have hbounds : ∀ p ∈ L, p.toNat % 4096 = 0 ∧ 0x80200000 ≤ p.toNat ∧ p.toNat < 0x88000000 :=
    fun p hp => ⟨(hL.pool p hp).1, hL.le_toNat hp, (hL.pool p hp).toNat_lt⟩
  have hnumbers : (L.map fun p => p.toNat / 4096 - 0x80200).Nodup := by
    refine List.Nodup.map_on (fun p hp q hq heq => BitVec.eq_of_toNat_eq ?_) hL.nodup
    have hp := hbounds p hp
    have hq := hbounds q hq
    omega
  have hsub : (L.map fun p => p.toNat / 4096 - 0x80200) ⊆ List.range 32256 := by
    intro i hi
    obtain ⟨p, hp, rfl⟩ := List.mem_map.1 hi
    have hp := hbounds p hp
    rw [List.mem_range]
    omega
  simpa using (hnumbers.subperm hsub).length_le

/-- Low addresses are in no free page. -/
theorem FreePages.notMem_pagesOf {K : Word} {L : List Word} (hL : FreePages K L) {a : Word}
    (ha : a.toNat < 0x80200000) : a ∉ pagesOf L := by
  rintro ⟨p, hp, hap⟩
  have hge := hL.le_toNat hp
  have hlt := (hL.pool p hp).toNat_lt
  rw [page, mem_span] at hap
  bv_omega

theorem offset_mem_page {p : Word} {x : ℕ} (hx : x < 4096) : p + BitVec.ofNat 64 x ∈ page p := by
  rw [page, mem_span]
  bv_omega

theorem ElfProgHeader.copied_le (h : ElfProgHeader) (j : ℕ) : (h.copied j).toNat ≤ 4096 := by
  unfold copied
  dsimp only
  generalize h.memsz - BitVec.ofNat 64 j * pgSize = remainingSize
  split_ifs with hgt
  · rfl
  · rw [pgSize] at hgt
    bv_omega

namespace LoadInv

variable {K : Word} {L : List Word} {m : Mem} {g : Ghost} {s : LoadState}
  {header : ElfProgHeader} {perm : Word} {j : ℕ}

/-- The pages of our table and the free pages are pages of `L`. -/
theorem mem_of_own (h : LoadInv K L m g s) {p : Word} (hp : g.own p ≠ .held)
    (hp' : g.own p ≠ .outside) : p ∈ L := by
  by_contra hL
  rcases h.others p hL with hheld | hout
  · exact hp hheld
  · exact hp' hout

end LoadInv

/-- `pmm` is the allocator after the first free page `p` was taken and given to the page table. -/
structure Taken (K : Word) (g g' : Ghost) (s : LoadState) (p : Word) (pmm : Pmm) : Prop where
  free : ∃ L', g.free = p :: L' ∧ g'.free ⊆ L'
  owned : ∃ held, Owned K g' ⟨pmm, [s.process.pageTable], held, fun _ _ => none⟩
  data : g'.IsData p
  kept : ∀ q ≠ p, g.own q ≠ .free → g'.own q = g.own q
  room : g.free.length ≤ g'.free.length + 3
  wrote : Wrote g'.nodeBytes s.pmm.mem pmm.mem

/-- When no call fails, a page is taken, whether or not its address was mapped. -/
theorem LoadInv.take {K : Word} {L : List Word} {m : Mem} {g : Ghost} {s : LoadState}
    (h : LoadInv K L m g s) {perm va : Word} (hperm : perm.toNat < 1024 ∧ perm.toNat % 2 = 1)
    (hsup : (s.process.pageTable.add (allocPage s.pmm).2 va (allocPage s.pmm).1 perm).2.denied =
      s.pmm.denied) :
    ∃ g', Taken K g g' s (allocPage s.pmm).1
      (s.process.pageTable.add (allocPage s.pmm).2 va (allocPage s.pmm).1 perm).2 := by
  obtain ⟨held, howned⟩ := h.owned
  -- neither of the two calls fails
  have halloc : (allocPage s.pmm).2.denied = s.pmm.denied :=
    le_antisymm (hsup ▸ PageTable.add_denied_le ..) (allocPage_denied_le s.pmm)
  obtain ⟨p, L', hfree⟩ := List.exists_cons_of_ne_nil ((allocPage_denied howned.chain).1 halloc)
  have hchain := howned.chain
  rw [hfree] at hchain
  have hp : (allocPage s.pmm).1 = p := by rw [(allocPage_cons hchain).1]
  rw [hp] at hsup ⊢
  have htaken := howned.alloc hfree
  rw [← halloc, PageTable.add_denied] at hsup
  have hneed := (htaken.pageWalkAlloc_denied (t := 0) rfl).1 hsup
  obtain ⟨g', held', h', hdata, hkept, hlen, hw⟩ := htaken.add_data (t := 0) rfl hneed
    (show Function.update g.own p .held p = .held by simp) hperm
  have hkept' : ∀ q ≠ p, g.own q ≠ .free → g'.own q = g.own q := by
    intro q hqp hq
    have hsame : Function.update g.own p .held q = g.own q := Function.update_of_ne hqp _ _
    rw [← hsame]
    exact hkept q hqp (by dsimp only; rwa [hsame])
  refine ⟨g', ⟨L', hfree, fun q hq => ?_⟩, ⟨held', h'⟩, hdata, hkept',
    by rw [hfree, List.length_cons]; exact Nat.succ_le_succ hlen, ?_⟩
  · have hfreeq := (h'.free_iff q).1 hq
    have hqp : q ≠ p := by
      rintro rfl
      exact hdata.ne_free hfreeq
    have hfreeq' : g.own q = .free := by
      by_contra hne
      rw [hkept' q hqp hne] at hfreeq
      exact hne hfreeq
    have hmem := (howned.free_iff q).2 hfreeq'
    rw [hfree] at hmem
    exact (List.mem_cons.1 hmem).resolve_left hqp
  · dsimp only at hw
    rwa [allocPage_mem] at hw

namespace Taken

variable {K : Word} {L : List Word} {m : Mem} {g g' : Ghost} {s : LoadState} {p : Word} {pmm : Pmm}

theorem own_eq_free (ht : Taken K g g' s p pmm) (h : LoadInv K L m g s) : g.own p = .free := by
  obtain ⟨L', hfree, -⟩ := ht.free
  obtain ⟨held, howned⟩ := h.owned
  exact (howned.free_iff p).1 (by rw [hfree]; exact List.mem_cons_self)

theorem mem (ht : Taken K g g' s p pmm) (h : LoadInv K L m g s) : p ∈ L :=
  h.mem_of_own (by rw [ht.own_eq_free h]; simp) (by rw [ht.own_eq_free h]; simp)

/-- Pages outside of `L` keep their role. -/
theorem others (ht : Taken K g g' s p pmm) (h : LoadInv K L m g s) :
    ∀ q ∉ L, g'.own q = .held ∨ g'.own q = .outside := by
  intro q hq
  have hqp : q ≠ p := fun heq => hq (heq ▸ ht.mem h)
  have hrole := h.others q hq
  rw [ht.kept q hqp (by rcases hrole with hrole | hrole <;> rw [hrole] <;> simp)]
  exact hrole

theorem nodeBytes_subset (ht : Taken K g g' s p pmm) (h : LoadInv K L m g s) :
    g'.nodeBytes ⊆ pagesOf L := by
  rintro a ⟨q, t, π, -, hq, ha⟩
  refine ⟨q, ?_, ha⟩
  by_contra hqL
  rcases ht.others h q hqL with hrole | hrole <;> rw [hrole] at hq <;> cases hq

/-- Pages that are no nodes are not stored to. -/
theorem byte_eq (ht : Taken K g g' s p pmm) (hL : FreePages K L) {q : Word} (hq : q ∈ L)
    (hno : ∀ t π, π.length < 3 → g'.own q ≠ .inTable t π) {a : Word} (ha : a ∈ page q) :
    pmm.mem.byte a = s.pmm.mem.byte a := by
  obtain ⟨held, howned⟩ := ht.owned
  exact ht.wrote.byte_eq (howned.notMem_nodeBytes (hL.pool q hq) ha hno)

theorem data_of_data (ht : Taken K g g' s p pmm) (h : LoadInv K L m g s) {q : Word}
    (hq : g.IsData q) : q ≠ p ∧ g'.IsData q := by
  have hqp : q ≠ p := by
    rintro rfl
    exact hq.ne_free (ht.own_eq_free h)
  refine ⟨hqp, ?_⟩
  rwa [Ghost.IsData, ht.kept q hqp hq.ne_free]

theorem length_lt (ht : Taken K g g' s p pmm) : g'.free.length + 1 ≤ g.free.length := by
  obtain ⟨L', hfree, hsub⟩ := ht.free
  obtain ⟨held, howned⟩ := ht.owned
  have hlen := (howned.chain.nodup.subperm hsub).length_le
  rw [hfree, List.length_cons]
  omega

end Taken

namespace LoadInv

variable {K : Word} {L : List Word} {m : Mem} {g g' : Ghost} {s : LoadState}
  {header : ElfProgHeader} {perm p : Word} {pmm : Pmm} {j : ℕ}

/-- The source of a page is below the memory. -/
theorem source_lt (h : LoadInv K L m g s) (hL : FreePages K L) (ht : Taken K g g' s p pmm)
    (hoff : header.off.toNat ≤ ramSize.toNat) (hj : j ≤ s.loaded.length) {x : ℕ} (hx : x < 4096) :
    (header.off + BitVec.ofNat 64 j * pgSize + BitVec.ofNat 64 x).toNat < 0x80200000 := by
  have hcount := h.count
  have hlen := hL.length_le
  have hlt := ht.length_lt
  rw [show ramSize.toNat = 0x8000000 from rfl] at hoff
  rw [pgSize]
  bv_omega

/-- The bytes have been copied to the page that was taken. -/
theorem extend (h : LoadInv K L m g s) (hL : FreePages K L) (ht : Taken K g g' s p pmm)
    (hoff : header.off.toNat ≤ ramSize.toNat) (hj : j ≤ s.loaded.length) (ret : ℤ) {m' : Mem}
    (hcopied : Copied pmm.mem m' p (header.off + BitVec.ofNat 64 j * pgSize)
      (header.copied j).toNat) :
    LoadInv K L m g' { s with
      pmm := { pmm with mem := m' }
      loaded := s.loaded ++ [⟨header, j, p, ret⟩] } := by
  have hpL := ht.mem h
  have hpool := hL.pool p hpL
  have hpage : Wrote (page p) pmm.mem m' := hcopied.wrote.mono (span_mono (header.copied_le j))
  have hlist : page p ⊆ pagesOf L := fun a ha => ⟨p, hpL, ha⟩
  obtain ⟨held, howned⟩ := ht.owned
  have hwrote : Wrote (pagesOf L) m pmm.mem :=
    h.wrote.trans (ht.wrote.mono (ht.nodeBytes_subset h))
  -- the other pages of `L` that are no nodes
  have hkeep : ∀ q ∈ L, q ≠ p → (∀ t π, π.length < 3 → g'.own q ≠ .inTable t π) →
      ∀ a ∈ page q, m'.byte a = s.pmm.mem.byte a := by
    intro q hq hqp hno a ha
    have hdisj := page_disjoint (hL.pool q hq).1 hpool.1 hqp
    rw [hpage.byte_eq (Set.disjoint_left.1 hdisj ha), ht.byte_eq hL hq hno ha]
  refine ⟨⟨held, howned.wrote hpage ht.data⟩, ht.others h, hwrote.trans (hpage.mono hlist),
    fun q hq a ha => ?_, ?_, ?_, fun pg hpg => ?_⟩
  · obtain ⟨L', hfree, hsub⟩ := ht.free
    have hqfree := (howned.free_iff q).1 hq
    have hqL : q ∈ L := by
      by_contra hqL
      rcases ht.others h q hqL with hrole | hrole <;> rw [hrole] at hqfree <;> cases hqfree
    have hqp : q ≠ p := by
      rintro rfl
      exact ht.data.ne_free hqfree
    show m'.byte a = m.byte a
    rw [hkeep q hqL hqp (fun t π _ => by rw [hqfree]; simp) a ha]
    exact h.untouched q (by rw [hfree]; exact List.mem_cons_of_mem _ (hsub hq)) a ha
  · have hcount := h.count
    have hlt := ht.length_lt
    rw [List.length_append, List.length_singleton]
    omega
  · have hroom := h.room
    have hroom' := ht.room
    rw [List.length_append, List.length_singleton]
    omega
  · rcases List.mem_append.1 hpg with hpg | hpg
    · obtain ⟨hdest, hdata, hbytes⟩ := h.pages pg hpg
      obtain ⟨hne, hdata'⟩ := ht.data_of_data h hdata
      refine ⟨hdest, hdata', fun x hx => ?_⟩
      show m'.byte _ = _
      rw [hkeep _ hdest hne (fun _ _ => hdata'.ne_node) _ (offset_mem_page hx), hbytes x hx]
    · obtain rfl := List.mem_singleton.1 hpg
      refine ⟨hpL, ht.data, fun x hx => ?_⟩
      show m'.byte (p + BitVec.ofNat 64 x) = _
      rw [LoadedPage.source]
      dsimp only
      split_ifs with hin
      · -- copied, from below the memory
        rw [hcopied.copied x hin]
        exact hwrote.byte_eq (hL.notMem_pagesOf (h.source_lt hL ht hoff hj hx))
      · -- left as it was when the page was free
        have hout : p + BitVec.ofNat 64 x ∉ span p (header.copied j).toNat := by
          rw [mem_span]
          bv_omega
        obtain ⟨L', hfree, -⟩ := ht.free
        rw [hcopied.wrote.byte_eq hout,
          ht.byte_eq hL hpL (fun _ _ => ht.data.ne_node) (offset_mem_page hx)]
        exact h.untouched p (by rw [hfree]; exact List.mem_cons_self) _ (offset_mem_page hx)

/-- There are fewer pages than an `int` can count. -/
theorem lt_of_le_loaded (h : LoadInv K L m g s) (hL : FreePages K L) (hj : j ≤ s.loaded.length) :
    j < 2 ^ 31 := by
  have hcount := h.count
  have hlen := hL.length_le
  omega

/-- One iteration of the loop over the pages. -/
theorem loadPage (h : LoadInv K L m g s) (hL : FreePages K L)
    (hperm : perm.toNat < 1024 ∧ perm.toNat % 2 = 1) (hoff : header.off.toNat ≤ ramSize.toNat)
    (hj : j ≤ s.loaded.length)
    (hsup : failures (s.loadPage header perm (BitVec.ofNat 32 j)
      (header.memsz - BitVec.ofNat 64 j * pgSize)) = s.pmm.denied) :
    ∃ dest ret s' g',
      s.loadPage header perm (BitVec.ofNat 32 j) (header.memsz - BitVec.ofNat 64 j * pgSize) =
        .ok s' ∧
      s'.loaded = s.loaded ++ [⟨header, j, dest, ret⟩] ∧ LoadInv K L m g' s' := by
  have hint := h.lt_of_le_loaded hL hj
  rw [LoadState.failures_loadPage, signExtend_ofNat hint] at hsup
  obtain ⟨g', ht⟩ := h.take hperm hsup
  have hpL := ht.mem h
  have hlt := (hL.pool _ hpL).toNat_lt
  have hge := hL.le_toNat hpL
  have hle := header.copied_le j
  have hdisj : Disjoint (span (header.off + BitVec.ofNat 64 j * pgSize) (header.copied j).toNat)
      (span (allocPage s.pmm).1 (header.copied j).toNat) := by
    rw [Set.disjoint_left]
    intro a ha ha'
    have hlow := h.source_lt hL ht hoff hj (lt_of_lt_of_le (mem_span.1 ha) hle)
    rw [BitVec.ofNat_toNat, BitVec.setWidth_eq, BitVec.add_comm, BitVec.sub_add_cancel] at hlow
    exact hL.notMem_pagesOf hlow ⟨_, hpL, span_mono hle ha'⟩
  have hnull : (allocPage s.pmm).1 ≠ 0 := fun h0 => by simp [h0] at hge
  obtain ⟨m', hcopy, hcopied⟩ := memcpy_copied
    (s.process.pageTable.add (allocPage s.pmm).2
      (pageNumber header.vaddr + BitVec.ofNat 64 j * pgSize) (allocPage s.pmm).1 perm).2.mem
    (by omega : (allocPage s.pmm).1.toNat + (header.copied j).toNat < 2 ^ 64) hnull
    (Ahead.of_disjoint (by omega) hdisj)
  refine ⟨(allocPage s.pmm).1, (s.process.pageTable.add (allocPage s.pmm).2
    (pageNumber header.vaddr + BitVec.ofNat 64 j * pgSize) (allocPage s.pmm).1 perm).1, _, g', ?_,
    rfl, h.extend hL ht hoff hj _ hcopied⟩
  unfold LoadState.loadPage
  rw [signExtend_ofNat hint, counter_toNat hint.le]
  simp only [ElfProgHeader.copied] at hcopy
  dsimp only
  rw [hcopy]

/-- Three free pages are enough for one page of a segment. -/
theorem loadPage_supplied (h : LoadInv K L m g s) (hroom : 3 * s.loaded.length + 4 ≤ L.length)
    (header : ElfProgHeader) (perm : Word) (j : BitVec 32) (remainingSize : Word) :
    failures (s.loadPage header perm j remainingSize) = s.pmm.denied := by
  obtain ⟨held, howned⟩ := h.owned
  have hfree := h.room
  obtain ⟨p, L', hL'⟩ := List.exists_cons_of_length_pos (show 0 < g.free.length by omega)
  have htaken := howned.alloc hL'
  have hneed : ∀ va, (s.process.pageTable.pageWalkAlloc (allocPage s.pmm).2 va).2.denied =
      (allocPage s.pmm).2.denied := fun va => (htaken.pageWalkAlloc_denied (t := 0) rfl).2 <| by
    rw [hL', List.length_cons] at hfree
    exact (Kernel.needed_le _ _ _).trans (show 2 ≤ L'.length by omega)
  rw [LoadState.failures_loadPage, PageTable.add_denied, hneed]
  exact (allocPage_denied howned.chain).2 (by rw [hL']; simp)

/-- The page table is the only member of the process that matters. -/
theorem withInfo (h : LoadInv K L m g s) (info : MappedInfo) :
    LoadInv K L m g { s with process.mappedInfo := info } :=
  ⟨h.owned, h.others, h.wrote, h.untouched, h.count, h.room, h.pages⟩

theorem remaining_succ (memsz : Word) (j : ℕ) :
    memsz - BitVec.ofNat 64 j * pgSize - pgSize = memsz - BitVec.ofNat 64 (j + 1) * pgSize := by
  rw [pgSize]
  bv_omega

/-- The loop over the pages of a segment. -/
theorem takePages (h : LoadInv K L m g s) (hL : FreePages K L)
    (hperm : perm.toNat < 1024 ∧ perm.toNat % 2 = 1) (hoff : header.off.toNat ≤ ramSize.toNat)
    {n : ℕ} (hj : j ≤ s.loaded.length)
    (hsup : failures (s.takePages header perm n j (header.memsz - BitVec.ofNat 64 j * pgSize)) =
      s.pmm.denied) :
    ∃ s' g', s.takePages header perm n j (header.memsz - BitVec.ofNat 64 j * pgSize) = .ok s' ∧
      s'.loaded.map LoadedPage.place =
        s.loaded.map LoadedPage.place ++ (List.range' j n).map (header, ·) ∧
      LoadInv K L m g' s' := by
  induction n generalizing s g j with
  | zero => exact ⟨s, g, rfl, by simp, h⟩
  | succ n ih =>
    rw [LoadState.takePages] at hsup ⊢
    have hfirst := LoadState.failures_eq_of_bind (LoadState.denied_le_takePages header perm n _ _)
      (LoadState.denied_le_loadPage header perm _ _ s) hsup
    obtain ⟨dest, ret, s₁, g₁, heq, hloaded, h₁⟩ := h.loadPage hL hperm hoff hj hfirst
    rw [heq] at hfirst hsup ⊢
    rw [remaining_succ] at hsup ⊢
    obtain ⟨s', g', heq', hmap, h'⟩ := ih h₁ (by rw [hloaded]; simp; omega) (hsup.trans hfirst.symm)
    refine ⟨s', g', heq', ?_, h'⟩
    rw [hmap, hloaded, List.range'_succ]
    simp [LoadedPage.place]

theorem takePages_supplied (h : LoadInv K L m g s) (hL : FreePages K L)
    (hperm : perm.toNat < 1024 ∧ perm.toNat % 2 = 1) (hoff : header.off.toNat ≤ ramSize.toNat)
    {n : ℕ} (hj : j ≤ s.loaded.length) (hroom : 3 * (s.loaded.length + n) + 1 ≤ L.length) :
    failures (s.takePages header perm n j (header.memsz - BitVec.ofNat 64 j * pgSize)) =
      s.pmm.denied := by
  induction n generalizing s g j with
  | zero => rfl
  | succ n ih =>
    have hfirst := h.loadPage_supplied (by omega) header perm (BitVec.ofNat 32 j)
      (header.memsz - BitVec.ofNat 64 j * pgSize)
    obtain ⟨dest, ret, s₁, g₁, heq, hloaded, h₁⟩ := h.loadPage hL hperm hoff hj hfirst
    rw [heq] at hfirst
    rw [LoadState.takePages, heq, ← hfirst, remaining_succ]
    have hlen : s₁.loaded.length = s.loaded.length + 1 := by rw [hloaded]; simp
    exact ih h₁ (by omega) (by omega)

/-- The body of the loop over the segments. -/
theorem loadSegment (h : LoadInv K L m g s) (hL : FreePages K L) (perm₀ : Word)
    (hloads : header.Loads perm₀) (hsup : failures (s.loadSegment perm₀ header) = s.pmm.denied) :
    ∃ s' g', s.loadSegment perm₀ header = .ok s' ∧
      s'.loaded.map LoadedPage.place = s.loaded.map LoadedPage.place ++ header.places ∧
      LoadInv K L m g' s' := by
  by_cases htype : header.type = ELF_PROG_LOAD
  · obtain ⟨hperm, hoff⟩ := hloads htype
    have heq := LoadState.loadSegment_load perm₀ htype s
    have hrem : header.memsz = header.memsz - BitVec.ofNat 64 0 * pgSize := by simp
    rw [heq, hrem] at hsup
    obtain ⟨s', g', heq', hmap, h'⟩ :=
      (h.withInfo _).takePages hL hperm hoff (Nat.zero_le _) hsup
    refine ⟨s', g', by rw [heq, hrem]; exact heq', ?_, h'⟩
    rw [hmap, ElfProgHeader.places, if_pos htype, List.range_eq_range']
  · rw [LoadState.loadSegment_skip perm₀ htype, ElfProgHeader.places, if_neg htype]
    exact ⟨s, g, rfl, by simp, h⟩

theorem loadSegment_supplied (h : LoadInv K L m g s) (hL : FreePages K L) (perm₀ : Word)
    (hloads : header.Loads perm₀)
    (hroom : 3 * (s.loaded.length + header.places.length) + 1 ≤ L.length) :
    failures (s.loadSegment perm₀ header) = s.pmm.denied := by
  by_cases htype : header.type = ELF_PROG_LOAD
  · obtain ⟨hperm, hoff⟩ := hloads htype
    have hrem : header.memsz = header.memsz - BitVec.ofNat 64 0 * pgSize := by simp
    rw [ElfProgHeader.places, if_pos htype, List.length_map, List.length_range] at hroom
    rw [LoadState.loadSegment_load perm₀ htype, hrem]
    exact (h.withInfo _).takePages_supplied hL hperm hoff (Nat.zero_le _) hroom
  · rw [LoadState.loadSegment_skip perm₀ htype]
    rfl

section Segments

variable {perm₀ elfBuff : Word} {k n : ℕ}

/-- One segment, whose header is as it was at the beginning: it is outside of the pages that are
stored to.  The variable `off` is not negative. -/
theorem loadSegments_succ (h : LoadInv K L m g s)
    (hk : k + ElfProgHeader.size * (n + 1) ≤ ramSize.toNat)
    (hout : Disjoint (span elfBuff (k + ElfProgHeader.size * (n + 1))) (pagesOf L)) :
    s.loadSegments perm₀ elfBuff (n + 1) (BitVec.ofNat 32 k) =
      (s.loadSegment perm₀ (ElfProgHeader.read m (elfBuff + BitVec.ofNat 64 k)) >>= fun s =>
        s.loadSegments perm₀ elfBuff n (BitVec.ofNat 32 (k + ElfProgHeader.size))) := by
  rw [Nat.mul_succ] at hk hout
  have hram : ramSize.toNat = 0x8000000 := rfl
  have haddr : (BitVec.ofNat 32 k).signExtend 64 = BitVec.ofNat 64 k := signExtend_ofNat (by omega)
  have hread : ElfProgHeader.read s.pmm.mem (elfBuff + BitVec.ofNat 64 k) =
      ElfProgHeader.read m (elfBuff + BitVec.ofNat 64 k) := by
    refine ElfProgHeader.read_congr fun b hb => h.wrote.byte_eq fun hb' => ?_
    exact Set.disjoint_left.1 hout (span_offset_subset (by omega) (by omega) hb) hb'
  rw [LoadState.loadSegments, haddr, hread]
  simp only [BitVec.ofNat_add]

/-- The loop over the segments. -/
theorem loadSegments (h : LoadInv K L m g s) (hL : FreePages K L)
    (hk : k + ElfProgHeader.size * n ≤ ramSize.toNat)
    (hout : Disjoint (span elfBuff (k + ElfProgHeader.size * n)) (pagesOf L))
    (hloads : ∀ header ∈ progHeadersFrom m elfBuff k n, header.Loads perm₀)
    (hsup : failures (s.loadSegments perm₀ elfBuff n (BitVec.ofNat 32 k)) = s.pmm.denied) :
    ∃ s' g', s.loadSegments perm₀ elfBuff n (BitVec.ofNat 32 k) = .ok s' ∧
      s'.loaded.map LoadedPage.place = s.loaded.map LoadedPage.place ++
        (progHeadersFrom m elfBuff k n).flatMap ElfProgHeader.places ∧
      LoadInv K L m g' s' := by
  induction n generalizing s g k with
  | zero => exact ⟨s, g, rfl, by simp [progHeadersFrom], h⟩
  | succ n ih =>
    rw [progHeadersFrom_succ] at hloads ⊢
    rw [h.loadSegments_succ hk hout] at hsup ⊢
    have hfirst := LoadState.failures_eq_of_bind
      (LoadState.denied_le_loadSegments perm₀ elfBuff n _)
      (LoadState.denied_le_loadSegment perm₀ _ s) hsup
    obtain ⟨s₁, g₁, heq, hmap₁, h₁⟩ :=
      h.loadSegment hL perm₀ (hloads _ List.mem_cons_self) hfirst
    have hnext : k + ElfProgHeader.size + ElfProgHeader.size * n =
        k + ElfProgHeader.size * (n + 1) := by rw [Nat.mul_succ]; omega
    rw [heq] at hfirst hsup ⊢
    obtain ⟨s', g', heq', hmap, h'⟩ := ih h₁ (by rwa [hnext]) (by rwa [hnext])
      (fun header hheader => hloads header (List.mem_cons_of_mem _ hheader))
      (hsup.trans hfirst.symm)
    refine ⟨s', g', heq', ?_, h'⟩
    rw [hmap, hmap₁, List.flatMap_cons, List.append_assoc]

theorem loadSegments_supplied (perm₀ : Word) (h : LoadInv K L m g s) (hL : FreePages K L)
    (hk : k + ElfProgHeader.size * n ≤ ramSize.toNat)
    (hout : Disjoint (span elfBuff (k + ElfProgHeader.size * n)) (pagesOf L))
    (hloads : ∀ header ∈ progHeadersFrom m elfBuff k n, header.Loads perm₀)
    (hroom : 3 * (s.loaded.length +
      ((progHeadersFrom m elfBuff k n).flatMap ElfProgHeader.places).length) + 1 ≤ L.length) :
    failures (s.loadSegments perm₀ elfBuff n (BitVec.ofNat 32 k)) = s.pmm.denied := by
  induction n generalizing s g k with
  | zero => rfl
  | succ n ih =>
    rw [progHeadersFrom_succ] at hloads hroom
    rw [List.flatMap_cons, List.length_append] at hroom
    have hloads₀ := hloads _ List.mem_cons_self
    have hfirst := h.loadSegment_supplied hL perm₀ hloads₀ (by omega)
    obtain ⟨s₁, g₁, heq, hmap₁, h₁⟩ := h.loadSegment hL perm₀ hloads₀ hfirst
    have hlen := congrArg List.length hmap₁
    rw [List.length_append, List.length_map, List.length_map] at hlen
    have hnext : k + ElfProgHeader.size + ElfProgHeader.size * n =
        k + ElfProgHeader.size * (n + 1) := by rw [Nat.mul_succ]; omega
    rw [heq] at hfirst
    rw [h.loadSegments_succ hk hout, heq, ← hfirst]
    exact ih h₁ (by rwa [hnext]) (by rwa [hnext])
      (fun header hheader => hloads header (List.mem_cons_of_mem _ hheader)) (by omega)

end Segments

end LoadInv

/-! ### A whole load -/

/-- A process is constructed, and loaded from an image. -/
def loadFresh (trapframe : TrapFrame) (mappedInfo : MappedInfo) (s : Pmm) (perm₀ elfBuff : Word) :
    Except Pmm LoadState :=
  let (p, s) := Process.new trapframe mappedInfo s
  p.loadFromElf s perm₀ elfBuff

/-- When nothing fails, the constructor does not. -/
theorem denied_new_of_loadFresh {trapframe : TrapFrame} {mappedInfo : MappedInfo} {s : Pmm}
    {perm₀ elfBuff : Word}
    (hsup : failures (loadFresh trapframe mappedInfo s perm₀ elfBuff) = s.denied) :
    (Process.new trapframe mappedInfo s).2.denied = s.denied := by
  refine le_antisymm ?_ (allocPage_denied_le s)
  rw [← hsup]
  exact (LoadState.denied_le_loadSegments perm₀ elfBuff _ _ ⟨_, _, []⟩).trans
    (LoadState.failures_le_bind _ fun _ => le_rfl)

/-- Before the constructor the pages of the pool that are not free are held. -/
theorem FreePages.owned {K : Word} {L : List Word} (hL : FreePages K L) {s : Pmm}
    (hs : FreeList s L) :
    ∃ held : Finset Word, Owned K
      { free := L
        own := fun p => if p ∈ L then .free else if PoolPage K p then .held else .outside
        flags := fun _ _ => PTEFlags.V }
      ⟨s, [], held, fun _ _ => none⟩ := by
  obtain ⟨A, -, -, -, hA⟩ := pmmInit_freeList hL.kernelEnd Mem.zero
  exact ⟨(A.filter (· ∉ L)).toFinset, Owned.init hs hL.pool (by simp [hA])⟩

/-- The constructor gets the first free page. -/
theorem FreeList.eq_root_cons {L : List Word} {s : Pmm} (hs : FreeList s L) {trapframe : TrapFrame}
    {mappedInfo : MappedInfo}
    (hsup : (Process.new trapframe mappedInfo s).2.denied = s.denied) :
    ∃ root L', L = root :: L' := by
  refine List.exists_cons_of_ne_nil fun hnil => ?_
  have hnull : s.freePagesList = 0 := (Chain.Linked.head_eq_nil_iff hs).2 hnil
  change (allocEmptyPage s).2.denied = s.denied at hsup
  rw [allocEmptyPage_denied, if_pos hnull] at hsup
  omega

/-- After the constructor. -/
theorem LoadInv.init {K : Word} {L : List Word} (hL : FreePages K L) {s : Pmm} (hs : FreeList s L)
    (trapframe : TrapFrame) (mappedInfo : MappedInfo)
    (hsup : (Process.new trapframe mappedInfo s).2.denied = s.denied) :
    ∃ g, LoadInv K L s.mem g
      ⟨(Process.new trapframe mappedInfo s).2, (Process.new trapframe mappedInfo s).1, []⟩ := by
  obtain ⟨held, howned⟩ := hL.owned hs
  obtain ⟨root, L', rfl⟩ := FreeList.eq_root_cons hs hsup
  obtain ⟨hnew, hw, hnext⟩ := howned.newTable rfl
  rw [← hnew] at hnext
  have hroot : root ∈ root :: L' := List.mem_cons_self
  refine ⟨_, ⟨_, hnext⟩, fun p hp => ?_, hw.mono fun a ha => ⟨root, hroot, ha⟩, fun p hp a ha => ?_,
    Nat.le_succ _, le_rfl, fun pg hpg => absurd hpg List.not_mem_nil⟩
  · have hne : p ≠ root := fun heq => hp (heq ▸ hroot)
    dsimp only
    rw [Function.update_of_ne hne, if_neg hp]
    split_ifs <;> simp
  · have hne : p ≠ root := fun heq => (List.nodup_cons.1 hs.nodup).1 (heq ▸ hp)
    have hdisj := page_disjoint (hL.pool p (List.mem_cons_of_mem _ hp)).1 (hL.pool root hroot).1 hne
    exact hw.byte_eq (Set.disjoint_left.1 hdisj ha)

/-- An image of `len` bytes at `elfBuff`, apart from the pages of `L`, whose headers are inside it. -/
structure ImageAt (m : Mem) (L : List Word) (elfBuff : Word) (len : ℕ) : Prop where
  small : len ≤ ramSize.toNat
  outside : Disjoint (span elfBuff len) (pagesOf L)
  header : ElfHeader.size ≤ len
  table : (ElfHeader.read m elfBuff).phoff.toNat +
    ElfProgHeader.size * (ElfHeader.read m elfBuff).phnum.toNat ≤ len

namespace ImageAt

variable {m : Mem} {L : List Word} {elfBuff : Word} {len : ℕ}

theorem phoff_setWidth (m : Mem) (elfBuff : Word) :
    (ElfHeader.read m elfBuff).phoff.setWidth 32 =
      BitVec.ofNat 32 (ElfHeader.read m elfBuff).phoff.toNat := by
  apply BitVec.eq_of_toNat_eq
  rw [BitVec.toNat_setWidth, BitVec.toNat_ofNat]

theorem programHeaderAddrs_eq (h : ImageAt m L elfBuff len) : programHeaderAddrs m elfBuff =
    (List.range (ElfHeader.read m elfBuff).phnum.toNat).map fun i => elfBuff +
      BitVec.ofNat 64 ((ElfHeader.read m elfBuff).phoff.toNat + ElfProgHeader.size * i) := by
  unfold programHeaderAddrs
  dsimp only
  rw [phoff_setWidth, headerAddrs_eq (h.table.trans h.small)]

/-- The loader reads the headers of the image. -/
theorem segmentHeaders_eq (h : ImageAt m L elfBuff len) :
    segmentHeaders m elfBuff = progHeaders m elfBuff := by
  rw [segmentHeaders, h.programHeaderAddrs_eq, List.map_map]
  rfl

/-- They are inside the image. -/
theorem span_header_subset (h : ImageAt m L elfBuff len) :
    ∀ a ∈ programHeaderAddrs m elfBuff, span a ElfProgHeader.size ⊆ span elfBuff len := by
  have htable := h.table
  have hsmall := h.small
  rw [show ramSize.toNat = 0x8000000 from rfl] at hsmall
  rw [h.programHeaderAddrs_eq, List.forall_mem_map]
  intro i hi
  rw [List.mem_range] at hi
  have hend : ElfProgHeader.size * i + ElfProgHeader.size ≤
      ElfProgHeader.size * (ElfHeader.read m elfBuff).phnum.toNat := by
    rw [← Nat.mul_succ]
    exact Nat.mul_le_mul_left _ hi
  exact span_offset_subset (by omega) (by omega)

end ImageAt

section Load

variable {K : Word} {L : List Word} {s : Pmm} {elfBuff perm₀ : Word} {len : ℕ}
  {trapframe : TrapFrame} {mappedInfo : MappedInfo} {g : Ghost}

/-- After the constructor, the load is the loop over the segments of the image. -/
theorem loadFresh_eq
    (h : LoadInv K L s.mem g
      ⟨(Process.new trapframe mappedInfo s).2, (Process.new trapframe mappedInfo s).1, []⟩)
    (hat : ImageAt s.mem L elfBuff len) :
    loadFresh trapframe mappedInfo s perm₀ elfBuff =
      (LoadState.loadSegments perm₀ elfBuff (ElfHeader.read s.mem elfBuff).phnum.toNat
        (BitVec.ofNat 32 (ElfHeader.read s.mem elfBuff).phoff.toNat)
        ⟨(Process.new trapframe mappedInfo s).2, (Process.new trapframe mappedInfo s).1, []⟩ >>=
      fun s' => .ok { s' with
        process.trapframe.epc := (ElfHeader.read s.mem elfBuff).entry }) := by
  have hread : ElfHeader.read (Process.new trapframe mappedInfo s).2.mem elfBuff =
      ElfHeader.read s.mem elfBuff := by
    refine ElfHeader.read_congr fun b hb => h.wrote.byte_eq fun hb' => ?_
    exact Set.disjoint_left.1 hat.outside (span_mono hat.header hb) hb'
  unfold loadFresh Process.loadFromElf
  dsimp only
  rw [hread, ImageAt.phoff_setWidth]
  rfl

/-- **What a load does.** If `alloc_page` does not fail, the load returns, it has taken the pages of
every segment, and these hold what `LoadInv` says. -/
theorem loadFresh_spec (hL : FreePages K L) (hs : FreeList s L) (hat : ImageAt s.mem L elfBuff len)
    (hloads : ∀ header ∈ progHeaders s.mem elfBuff, header.Loads perm₀)
    (hsup : failures (loadFresh trapframe mappedInfo s perm₀ elfBuff) = s.denied) :
    ∃ s' g, loadFresh trapframe mappedInfo s perm₀ elfBuff = .ok s' ∧
      s'.loaded.map LoadedPage.place =
        (progHeaders s.mem elfBuff).flatMap ElfProgHeader.places ∧
      LoadInv K L s.mem g s' := by
  have hnew := denied_new_of_loadFresh hsup
  obtain ⟨g, hinit⟩ := LoadInv.init hL hs trapframe mappedInfo hnew
  rw [loadFresh_eq hinit hat] at hsup ⊢
  have hfirst := LoadState.failures_eq_of_bind (fun _ => le_rfl)
    (LoadState.denied_le_loadSegments perm₀ elfBuff _ _ ⟨_, _, []⟩) (hsup.trans hnew.symm)
  obtain ⟨s', g', heq, hmap, h'⟩ := hinit.loadSegments hL (hat.table.trans hat.small)
    (hat.outside.mono_left (span_mono hat.table)) hloads hfirst
  rw [heq]
  exact ⟨_, g', rfl, hmap,
    ⟨h'.owned, h'.others, h'.wrote, h'.untouched, h'.count, h'.room, h'.pages⟩⟩

/-- Three free pages for each page of a segment, and one for the root, are enough. -/
theorem loadFresh_supplied (hL : FreePages K L) (hs : FreeList s L)
    (hat : ImageAt s.mem L elfBuff len)
    (hloads : ∀ header ∈ progHeaders s.mem elfBuff, header.Loads perm₀)
    (hroom : 3 * ((progHeaders s.mem elfBuff).flatMap ElfProgHeader.places).length + 1 ≤ L.length) :
    failures (loadFresh trapframe mappedInfo s perm₀ elfBuff) = s.denied := by
  have hnew : (Process.new trapframe mappedInfo s).2.denied = s.denied := by
    have hne : s.freePagesList ≠ 0 := fun hnull => by
      rw [(Chain.Linked.head_eq_nil_iff hs).1 hnull, List.length_nil] at hroom
      omega
    exact (allocEmptyPage_denied s).trans (by rw [if_neg hne, Nat.add_zero])
  obtain ⟨g, hinit⟩ := LoadInv.init hL hs trapframe mappedInfo hnew
  have hsup := hinit.loadSegments_supplied perm₀ hL (hat.table.trans hat.small)
    (hat.outside.mono_left (span_mono hat.table)) hloads
    (by rw [List.length_nil, Nat.zero_add]; exact hroom)
  rw [loadFresh_eq hinit hat, ← hnew, ← hsup]
  obtain ⟨s', g', heq, -⟩ := hinit.loadSegments hL (hat.table.trans hat.small)
    (hat.outside.mono_left (span_mono hat.table)) hloads hsup
  rw [heq]
  exact congrArg Pmm.denied rfl

end Load

end HxcOS
