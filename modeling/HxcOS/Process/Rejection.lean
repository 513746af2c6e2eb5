import HxcOS.Process.MappedPages

/-!
# Images that the loader refuses

`load_from_elf` checks the magic number, the number of segments and the flags of each segment to be
loaded, with an `assert` that prints a message and goes on.  A refused image is loaded like any
other: what keeps the process as it was is not the refusal but the absence of segments to load
(`rejected_leaves_no_trace_iff`).
-/

namespace HxcOS

open ByteMem

/-- One of the checks fails. -/
def Rejected (m : Mem) (elfBuff : Word) : Prop :=
  (ElfHeader.read m elfBuff).magic ≠ ELF_MAGIC ∨ 2 < (ElfHeader.read m elfBuff).phnum.toNat ∨
    ∃ h ∈ segmentHeaders m elfBuff, h.type = ELF_PROG_LOAD ∧ ¬ h.ValidFlags

/-- The load takes no page for a segment, and the process and the free pages are as before. -/
structure NoTrace (p : Process) (s : Pmm) (s' : LoadState) : Prop where
  loaded : s'.loaded = []
  root : s'.process.pageTable = p.pageTable
  entries : ∀ va, p.pageTable.pageWalk s'.pmm.mem va = p.pageTable.pageWalk s.mem va ∧
    loadPte s'.pmm.mem (p.pageTable.pageWalk s.mem va) =
      loadPte s.mem (p.pageTable.pageWalk s.mem va)
  mappedInfo : s'.process.mappedInfo = p.mappedInfo
  epc : s'.process.trapframe.epc = p.trapframe.epc
  free : ∀ L, FreeList s'.pmm L ↔ FreeList s L

namespace LoadState

variable {header : ElfProgHeader} {perm perm₀ elfBuff : Word} {s s' : LoadState}

/-- A page is taken in every iteration, whatever the flags of the segment are. -/
theorem loaded_of_loadSegment (htype : header.type = ELF_PROG_LOAD)
    (h : s.loadSegment perm₀ header = .ok s') :
    s'.loaded.length = s.loaded.length + header.pageCount := by
  have hlen := congrArg List.length (of_loadSegment h).2
  rw [ElfProgHeader.places, if_pos htype] at hlen
  simpa using hlen

theorem loaded_le_of_loadSegment (h : s.loadSegment perm₀ header = .ok s') :
    s.loaded.length ≤ s'.loaded.length := by
  by_cases htype : header.type = ELF_PROG_LOAD
  · rw [loaded_of_loadSegment htype h]
    omega
  · rw [loadSegment_skip perm₀ htype] at h
    obtain rfl := Except.ok.inj h
    exact le_rfl

theorem loaded_le_of_loadSegments {n : ℕ} {off : BitVec 32}
    (h : s.loadSegments perm₀ elfBuff n off = .ok s') : s.loaded.length ≤ s'.loaded.length := by
  induction n generalizing off s with
  | zero =>
    obtain rfl := Except.ok.inj h
    exact le_rfl
  | succ n ih =>
    rw [loadSegments] at h
    cases hseg : s.loadSegment perm₀ (ElfProgHeader.read s.pmm.mem (elfBuff + off.signExtend 64)) with
    | error e =>
      rw [hseg] at h
      cases h
    | ok s₁ =>
      rw [hseg] at h
      exact (loaded_le_of_loadSegment hseg).trans (ih h)

/-- Without a segment to be loaded the loop does nothing. -/
theorem loadSegments_skip {n : ℕ} {off : BitVec 32}
    (h : ∀ h ∈ (headerAddrs elfBuff n off).map (ElfProgHeader.read s.pmm.mem),
      h.type ≠ ELF_PROG_LOAD) :
    s.loadSegments perm₀ elfBuff n off = .ok s := by
  induction n generalizing off with
  | zero => rfl
  | succ n ih =>
    rw [headerAddrs, List.map_cons, List.forall_mem_cons] at h
    rw [loadSegments, loadSegment_skip perm₀ h.1]
    exact ih h.2

/-- With one it takes a page.  The loop may find other headers than those of the image at first, but
not before it has loaded a segment. -/
theorem loaded_lt_of_loadSegments {n : ℕ} {off : BitVec 32} {header : ElfProgHeader}
    (hmem : header ∈ (headerAddrs elfBuff n off).map (ElfProgHeader.read s.pmm.mem))
    (htype : header.type = ELF_PROG_LOAD)
    (h : s.loadSegments perm₀ elfBuff n off = .ok s') : s.loaded.length < s'.loaded.length := by
  induction n generalizing off with
  | zero => cases hmem
  | succ n ih =>
    rw [loadSegments] at h
    by_cases hfirst : (ElfProgHeader.read s.pmm.mem (elfBuff + off.signExtend 64)).type = ELF_PROG_LOAD
    · cases hseg : s.loadSegment perm₀
          (ElfProgHeader.read s.pmm.mem (elfBuff + off.signExtend 64)) with
      | error e =>
        rw [hseg] at h
        cases h
      | ok s₁ =>
        rw [hseg] at h
        have hpages := ElfProgHeader.pageCount_pos
          (ElfProgHeader.read s.pmm.mem (elfBuff + off.signExtend 64))
        have hone := loaded_of_loadSegment hfirst hseg
        have hrest := loaded_le_of_loadSegments h
        omega
    · rw [loadSegment_skip perm₀ hfirst] at h
      rw [headerAddrs, List.map_cons, List.mem_cons] at hmem
      rcases hmem with rfl | hmem
      · exact absurd htype hfirst
      · exact ih hmem h

end LoadState

/-- An image with a segment to be loaded is loaded, whether or not it is refused. -/
theorem loaded_ne_nil_of_loadFromElf {p : Process} {s : Pmm} {perm₀ elfBuff : Word}
    {h : ElfProgHeader} {s' : LoadState} (hmem : h ∈ segmentHeaders s.mem elfBuff)
    (htype : h.type = ELF_PROG_LOAD) (hok : p.loadFromElf s perm₀ elfBuff = .ok s') :
    s'.loaded ≠ [] := by
  obtain ⟨s₁, hload, rfl⟩ := Process.loadFromElf_ok hok
  have hlt := LoadState.loaded_lt_of_loadSegments (s := ⟨s, p, []⟩) hmem htype hload
  exact List.ne_nil_of_length_pos hlt

/-- Without one, the call assigns `epc` and does nothing else. -/
theorem loadFromElf_skip {p : Process} {s : Pmm} {elfBuff : Word} (perm₀ : Word)
    (h : ∀ h ∈ segmentHeaders s.mem elfBuff, h.type ≠ ELF_PROG_LOAD) :
    p.loadFromElf s perm₀ elfBuff =
      .ok ⟨s, { p with trapframe.epc := (ElfHeader.read s.mem elfBuff).entry }, []⟩ := by
  unfold Process.loadFromElf
  dsimp only
  rw [LoadState.loadSegments_skip (s := ⟨s, p, []⟩) h]
  rfl

/-- When a load leaves no trace, whether or not the image is refused. -/
theorem leaves_no_trace_iff (p : Process) (s : Pmm) (perm₀ elfBuff : Word) :
    (∃ s', p.loadFromElf s perm₀ elfBuff = .ok s' ∧ NoTrace p s s') ↔
      (∀ h ∈ segmentHeaders s.mem elfBuff, h.type ≠ ELF_PROG_LOAD) ∧
        (ElfHeader.read s.mem elfBuff).entry = p.trapframe.epc := by
  constructor
  · rintro ⟨s', hok, htrace⟩
    have hnone : ∀ h ∈ segmentHeaders s.mem elfBuff, h.type ≠ ELF_PROG_LOAD :=
      fun h hmem htype => loaded_ne_nil_of_loadFromElf hmem htype hok htrace.loaded
    rw [loadFromElf_skip perm₀ hnone] at hok
    obtain rfl := Except.ok.inj hok
    exact ⟨hnone, htrace.epc⟩
  · rintro ⟨hnone, hentry⟩
    exact ⟨_, loadFromElf_skip perm₀ hnone, rfl, rfl, fun va => ⟨rfl, rfl⟩, rfl, hentry,
      fun L => Iff.rfl⟩

/-- **When a refused image leaves no trace.** -/
theorem rejected_leaves_no_trace_iff (p : Process) (s : Pmm) (perm₀ elfBuff : Word)
    (_ : Rejected s.mem elfBuff) :
    (∃ s', p.loadFromElf s perm₀ elfBuff = .ok s' ∧ NoTrace p s s') ↔
      (∀ h ∈ segmentHeaders s.mem elfBuff, h.type ≠ ELF_PROG_LOAD) ∧
        (ElfHeader.read s.mem elfBuff).entry = p.trapframe.epc :=
  leaves_no_trace_iff p s perm₀ elfBuff

/-- The image of `sampleImage`, with a wrong magic number. -/
def refusedPmm : Pmm := { samplePmm with mem := samplePmm.mem.store32 0x80100000 0 }

/-- A process with an empty page table. -/
def refusedProcess : Process := ⟨⟨0⟩, ⟨0, 0, 0, 0, 0⟩, ⟨0x80304000⟩⟩

theorem refusedPmm_rejected : Rejected refusedPmm.mem 0x80100000 := Or.inl (by decide +kernel)

theorem rejected_leaves_no_trace_iff_sample :
    (∃ s', refusedProcess.loadFromElf refusedPmm 0 0x80100000 = .ok s' ∧
        NoTrace refusedProcess refusedPmm s') ↔
      (∀ h ∈ segmentHeaders refusedPmm.mem 0x80100000, h.type ≠ ELF_PROG_LOAD) ∧
        (ElfHeader.read refusedPmm.mem 0x80100000).entry = refusedProcess.trapframe.epc :=
  rejected_leaves_no_trace_iff refusedProcess refusedPmm 0 0x80100000 refusedPmm_rejected

/-! ### What a refused image leaves behind -/

/-- An address is mapped that was not, `mapped_info` and `epc` are others, and so are the free
pages. -/
structure Traced (p : Process) (s : Pmm) (s' : LoadState) : Prop where
  mapped : ∃ va, p.pageTable.pageWalk s.mem va = 0 ∧
    s'.process.pageTable.pageWalk s'.pmm.mem va ≠ 0
  mappedInfo : s'.process.mappedInfo ≠ p.mappedInfo
  epc : s'.process.trapframe.epc ≠ p.trapframe.epc
  free : ∀ L, FreeList s L → ¬ FreeList s'.pmm L

/-- A load under way: the pages of the segments that have the flags of code or of data are mapped. -/
structure PagesMapped (k : Kernel) (M : List Word) (s : LoadState) : Prop where
  length : s.loaded.length ≤ M.length
  leaf : ∀ pg ∈ s.loaded, pg.header.ValidFlags →
    (Kernel.leaf { k with pmm := s.pmm } 0 (pg.header.pageAddr pg.index)).isSome

/-- A page of a segment with other flags does not change that. -/
theorem pagesMapped_kept {K : Word} {g₀ : Ghost} {k : Kernel} (header : ElfProgHeader)
    (perm₀ : Word) :
    KeptByPage K 0 g₀ k header (header.perm perm₀) fun M _ s => PagesMapped k M s := by
  intro M g s j p M' g' pmm h hs hpage
  refine ⟨?_, ?_⟩
  · have hlen := hs.length
    simp only [List.length_append, List.length_cons, List.length_nil]
    omega
  · rw [List.forall_mem_append, List.forall_mem_singleton]
    refine ⟨fun pg hpg hflags => ?_, fun hflags => ?_⟩
    · have hold := hs.leaf pg hpg hflags
      rw [hpage.leaf]
      split_ifs with hat
      · rw [Kernel.leaf_congr hat.2] at hold
        rw [Option.isSome_or, hold, Bool.true_or]
      · exact hold
    · rw [hpage.leaf, if_pos ⟨rfl, rfl⟩, hflags.ifValid_new, Option.isSome_or, Option.isSome_some,
        Bool.or_true]

section Traces

variable {K : Word} {L : List Word} {s : Pmm} {elfBuff perm₀ : Word} {len : ℕ}
  {trapframe : TrapFrame} {mappedInfo : MappedInfo} {header : ElfProgHeader}

/-- The image is refused, and a process that has just been constructed is loaded from it, with all
these traces. -/
def LoadedThoughRefused (trapframe : TrapFrame) (mappedInfo : MappedInfo) (s : Pmm)
    (perm₀ elfBuff : Word) : Prop :=
  let p := (Process.new trapframe mappedInfo s).1
  let s₀ := (Process.new trapframe mappedInfo s).2
  Rejected s₀.mem elfBuff ∧ (∃ s', p.loadFromElf s₀ perm₀ elfBuff = .ok s' ∧ Traced p s₀ s') ∧
    ¬ ∃ s', p.loadFromElf s₀ perm₀ elfBuff = .ok s' ∧ NoTrace p s₀ s'

/-- The load of an image with a segment of code or of data, after the constructor. -/
theorem loadFresh_maps (hL : FreePages K L) (hs : FreeList s L)
    (hat : ImageAt s.mem L elfBuff len)
    (hsup : failures (loadFresh trapframe mappedInfo s perm₀ elfBuff) = s.denied)
    (hheader : header ∈ progHeaders s.mem elfBuff) (htype : header.type = ELF_PROG_LOAD)
    (hflags : header.ValidFlags) :
    let p := (Process.new trapframe mappedInfo s).1
    let s₀ := (Process.new trapframe mappedInfo s).2
    ∃ s', p.loadFromElf s₀ perm₀ elfBuff = .ok s' ∧
      p.headersRead s₀ perm₀ elfBuff = progHeaders s.mem elfBuff ∧
      p.pageTable.pageWalk s₀.mem (header.pageAddr 0) = 0 ∧
      s'.process.pageTable.pageWalk s'.pmm.mem (header.pageAddr 0) ≠ 0 ∧
      ∀ L', FreeList s₀ L' → ¬ FreeList s'.pmm L' := by
  intro p s₀
  have hnew := denied_new_of_loadFresh hsup
  obtain ⟨root, g₀, -, hnodes, -, hleaf, hapart, hheaders⟩ :=
    nodes_new_image hL hs hat trapframe mappedInfo hnew
  set k : Kernel := ⟨s₀, [p.pageTable], ∅, fun _ _ => none⟩
  obtain ⟨s', M, g, hload, hframe, hmapped, hread⟩ :=
    FrameInv.loadFromElf_apart (I := fun M _ s => PagesMapped k M s) hL.kernelEnd hnodes p rfl perm₀
      elfBuff hapart (hsup.trans hnew.symm) (fun _ _ _ _ h => ⟨h.length, h.leaf⟩)
      (fun header _ _ => pagesMapped_kept header perm₀) ⟨le_rfl, by simp⟩
  rw [hheaders] at hread
  -- the first page of the segment
  obtain ⟨pg, hpg, hplace⟩ : ∃ pg ∈ s'.loaded, pg.place = (header, 0) := by
    rw [← List.mem_map, (Process.of_loadFromElf hload).2, List.mem_flatMap]
    exact ⟨header, by rw [hread]; exact hheader,
      ElfProgHeader.mem_places.2 ⟨rfl, htype, header.pageCount_pos⟩⟩
  obtain ⟨rfl, hindex⟩ := Prod.mk.inj hplace
  have hsome := hmapped.leaf pg hpg hflags
  rw [hindex] at hsome
  obtain ⟨e, he⟩ := Option.isSome_iff_exists.1 hsome
  obtain ⟨q, -, hne, hwalk, -⟩ := hframe.nodes.pageWalk_some hL.kernelEnd hframe.table he
  have hzero : p.pageTable.pageWalk s₀.mem (pg.header.pageAddr 0) = 0 :=
    Nodes.pageWalk_none (s := k) (t := 0) rfl (hleaf _)
  refine ⟨s', hload, hread, hzero, by rw [hwalk]; exact hne, fun L' hL' hL'' => ?_⟩
  -- the load has taken a page from the list
  have hfree := congrArg List.length hframe.free
  rw [← hL'.unique hnodes.chain, ← hL''.unique hframe.nodes.chain, List.length_append] at hfree
  have hlen := hmapped.length
  have hpos := List.length_pos_of_mem hpg
  omega

/-- **A refused image is loaded.**  When it has a segment of code or of data, the page table,
`mapped_info`, `epc` and the free pages are not what they were. -/
theorem loadedThoughRefused (hL : FreePages K L) (hs : FreeList s L)
    (hat : ImageAt s.mem L elfBuff len)
    (hsup : failures (loadFresh trapframe mappedInfo s perm₀ elfBuff) = s.denied)
    (hrej : Rejected s.mem elfBuff) (hheader : header ∈ progHeaders s.mem elfBuff)
    (htype : header.type = ELF_PROG_LOAD) (hflags : header.ValidFlags)
    (hinfo : (progHeaders s.mem elfBuff).foldl (fun info header => header.record info) mappedInfo ≠
      mappedInfo)
    (hentry : (ElfHeader.read s.mem elfBuff).entry ≠ trapframe.epc) :
    LoadedThoughRefused trapframe mappedInfo s perm₀ elfBuff := by
  obtain ⟨g, hinit⟩ := LoadInv.init hL hs trapframe mappedInfo (denied_new_of_loadFresh hsup)
  have hsame : ∀ a ∉ pagesOf L, (Process.new trapframe mappedInfo s).2.mem.byte a = s.mem.byte a :=
    fun a ha => hinit.wrote.byte_eq ha
  obtain ⟨s', hload, hread, hzero, hne, hfree⟩ := loadFresh_maps hL hs hat hsup hheader htype hflags
  have hepc : s'.process.trapframe.epc ≠ trapframe.epc := by
    obtain ⟨s₁, -, rfl⟩ := Process.loadFromElf_ok hload
    rw [hat.header_eq hsame]
    exact hentry
  refine ⟨?_, ⟨s', hload, ⟨_, hzero, hne⟩, ?_, hepc, hfree⟩, ?_⟩
  · unfold Rejected at hrej ⊢
    rwa [hat.header_eq hsame, (hat.congr hsame).segmentHeaders_eq, hat.progHeaders_eq hsame,
      ← hat.segmentHeaders_eq]
  · rw [(Process.of_loadFromElf hload).1, hread]
    exact hinfo
  · rintro ⟨s'', hload', htrace⟩
    obtain rfl := Except.ok.inj (hload.symm.trans hload')
    exact hepc htrace.epc

end Traces

/-! ### Two refused images -/

theorem refusedPmm_progHeaders :
    progHeaders refusedPmm.mem 0x80100000 = [sampleSegment] := by decide +kernel

theorem refusedPmm_freeList : FreeList refusedPmm samplePages := by decide +kernel

theorem refusedPmm_loaded : LoadedThoughRefused ⟨0⟩ ⟨0, 0, 0, 0, 0⟩ refusedPmm 0 0x80100000 := by
  have hL : FreePages kernelBegin samplePages :=
    ⟨kernelEnd_kernelBegin, samplePages_pool, samplePmm_freeList.nodup⟩
  have hat : ImageAt refusedPmm.mem samplePages 0x80100000 0x2000 :=
    ⟨samplePmm_image.small, samplePmm_image.outside, samplePmm_image.header, by decide +kernel⟩
  have hsup : failures (loadFresh ⟨0⟩ ⟨0, 0, 0, 0, 0⟩ refusedPmm 0 0x80100000) =
      refusedPmm.denied := by
    refine loadFresh_supplied hL refusedPmm_freeList hat ?_ ?_ <;> rw [refusedPmm_progHeaders]
    · intro header hheader _
      rw [List.mem_singleton.1 hheader]
      exact ⟨ElfProgHeader.ValidFlags.perm_bounds (Or.inl rfl) 0, by decide +kernel⟩
    · decide +kernel
  have hmem : sampleSegment ∈ progHeaders refusedPmm.mem 0x80100000 := by
    rw [refusedPmm_progHeaders]
    exact List.mem_singleton_self _
  refine loadedThoughRefused hL refusedPmm_freeList hat hsup refusedPmm_rejected hmem rfl (Or.inl rfl)
    ?_ (by decide +kernel)
  rw [refusedPmm_progHeaders]
  exact fun h => absurd (congrArg MappedInfo.codeAddr h) (by decide)

/-- A segment that is neither code nor data. -/
def badSegment : ElfProgHeader :=
  { dataSegment with flags := SEGMENT_READABLE ||| SEGMENT_WRITABLE ||| SEGMENT_EXECUTABLE }

/-- The image with a page of code and a page of data, with these flags for the second one. -/
def badFlagsPmm : Pmm :=
  { pairPmm false with mem := storeHeader (pairPmm false).mem (0x80100000 + 120) badSegment }

/-- The permission that the first iteration leaves in `perm`. -/
def codePerm : Word := permissionCode false true true true false

theorem badFlagsPmm_header :
    ElfHeader.read badFlagsPmm.mem 0x80100000 = ⟨ELF_MAGIC, 0x10000, 64, 2⟩ := by
  simp only [ElfHeader.read, ElfHeader.mk.injEq]
  decide +kernel

theorem badFlagsPmm_progHeaders :
    progHeaders badFlagsPmm.mem 0x80100000 = [sampleSegment, badSegment] := by
  rw [progHeaders, badFlagsPmm_header]
  decide +kernel

theorem badFlagsPmm_freeList : FreeList badFlagsPmm pairPages := by decide +kernel

theorem badFlagsPmm_loaded :
    LoadedThoughRefused ⟨0⟩ ⟨0, 0, 0, 0, 0⟩ badFlagsPmm codePerm 0x80100000 := by
  have hat : ImageAt badFlagsPmm.mem pairPages 0x80100000 0x3000 := by
    have hpair := pairPmm_image false
    refine ⟨hpair.small, hpair.outside, hpair.header, ?_⟩
    rw [badFlagsPmm_header]
    decide
  have hsup : failures (loadFresh ⟨0⟩ ⟨0, 0, 0, 0, 0⟩ badFlagsPmm codePerm 0x80100000) =
      badFlagsPmm.denied := by
    refine loadFresh_supplied pairPages_free badFlagsPmm_freeList hat ?_ ?_ <;>
      rw [badFlagsPmm_progHeaders]
    · rw [List.forall_mem_cons, List.forall_mem_singleton]
      exact ⟨fun _ => ⟨ElfProgHeader.ValidFlags.perm_bounds (Or.inl rfl) _, by decide +kernel⟩,
        fun _ => ⟨by decide +kernel, by decide +kernel⟩⟩
    · decide +kernel
  have hmem : sampleSegment ∈ progHeaders badFlagsPmm.mem 0x80100000 := by
    rw [badFlagsPmm_progHeaders]
    exact List.mem_cons_self
  have hrej : Rejected badFlagsPmm.mem 0x80100000 := by
    refine Or.inr (Or.inr ⟨badSegment, ?_, rfl, ?_⟩)
    · rw [hat.segmentHeaders_eq, badFlagsPmm_progHeaders]
      exact List.mem_cons_of_mem _ List.mem_cons_self
    · rintro (h | h) <;> exact absurd h (by decide)
  refine loadedThoughRefused pairPages_free badFlagsPmm_freeList hat hsup hrej hmem rfl (Or.inl rfl)
    ?_ ?_
  · rw [badFlagsPmm_progHeaders]
    exact fun h => absurd (congrArg MappedInfo.codeAddr h) (by decide)
  · rw [badFlagsPmm_header]
    decide

/-- The wrong magic number is reported, and the image is loaded.  So is the one with wrong flags in
its second segment. -/
theorem refused_image_loaded :
    LoadedThoughRefused ⟨0⟩ ⟨0, 0, 0, 0, 0⟩ refusedPmm 0 0x80100000 ∧
      LoadedThoughRefused ⟨0⟩ ⟨0, 0, 0, 0, 0⟩ badFlagsPmm codePerm 0x80100000 :=
  ⟨refusedPmm_loaded, badFlagsPmm_loaded⟩

end HxcOS
