import HxcOS.Process.MappedPages

/-!
# The layout that the loader records

`mapped_info` should hold the start and the number of pages of the code segment and of the data
segment.  What a load leaves there is a fold over the headers that it reads
(`LoadCall.mappedInfo_eq`).  The branch for data stores its number of pages in `code_addr`, so that
`data_page_num` is never assigned, and `code_addr` is right only when the code segment comes later.

All this holds for every load that returns and has found the headers in the image unchanged when it
read them, such as every load that gets its pages (`LoadCall.Intact.of_apart`).
-/

namespace HxcOS

open ByteMem

/-- A call of `load_from_elf`. -/
structure LoadCall where
  process : Process
  pmm : Pmm
  perm₀ : Word
  elfBuff : Word

/-- The record has the two segments, and the stack as before. -/
structure MappedInfo.Describes (info prior : MappedInfo) (code data : ElfProgHeader) : Prop where
  codeAddr : info.codeAddr = pageNumber code.vaddr
  codePageNum : info.codePageNum = code.pagesNeed
  dataAddr : info.dataAddr = pageNumber data.vaddr
  dataPageNum : info.dataPageNum = data.pagesNeed
  stackPageNum : info.stackPageNum = prior.stackPageNum

namespace LoadCall

def run (c : LoadCall) : Except Pmm LoadState := c.process.loadFromElf c.pmm c.perm₀ c.elfBuff

/-- The headers in the image whose type is `ELF_PROG_LOAD`. -/
def segments (c : LoadCall) : List ElfProgHeader :=
  (segmentHeaders c.pmm.mem c.elfBuff).filter fun header => header.type = ELF_PROG_LOAD

/-- The load returns, and the headers that it reads are those in the image. -/
structure Intact (c : LoadCall) : Prop where
  returns : ∃ s, c.run = .ok s
  headers : c.process.headersRead c.pmm c.perm₀ c.elfBuff = segmentHeaders c.pmm.mem c.elfBuff

/-- A load that gets its pages, of an image whose headers are apart from them and from the nodes of
its table. -/
theorem Intact.of_apart {K : Word} (hK : KernelEnd K) {g : Ghost} {k : Kernel} (h : Nodes K g k)
    {t : ℕ} {p : Process} (ht : k.tables[t]? = some p.pageTable) {perm₀ elfBuff : Word}
    (hapart : ∀ a ∈ programHeaderAddrs k.pmm.mem elfBuff,
      Disjoint (span a ElfProgHeader.size) (pagesOf g.free ∪ g.tableBytes t))
    (hsup : failures (p.loadFromElf k.pmm perm₀ elfBuff) = k.pmm.denied) :
    Intact ⟨p, k.pmm, perm₀, elfBuff⟩ := by
  obtain ⟨s', -, -, hload, -, -, hread⟩ := FrameInv.loadFromElf_apart (I := fun _ _ _ => True) hK h p
    ht perm₀ elfBuff hapart hsup (fun _ _ _ _ _ => trivial)
    (fun _ _ _ => keptByPage_true K t g k _ _) trivial
  exact ⟨⟨s', hload⟩, hread⟩

end LoadCall

namespace ElfProgHeader

variable {code data : ElfProgHeader}

/-- Other headers are skipped. -/
theorem foldl_record_filter (headers : List ElfProgHeader) (info : MappedInfo) :
    headers.foldl (fun info header => header.record info) info =
      (headers.filter fun header => header.type = ELF_PROG_LOAD).foldl
        (fun info header => header.record info) info := by
  induction headers generalizing info with
  | nil => rfl
  | cons header headers ih =>
    by_cases htype : header.type = ELF_PROG_LOAD
    · rw [List.filter_cons_of_pos (by simpa using htype), List.foldl_cons, List.foldl_cons, ih]
    · rw [List.filter_cons_of_neg (by simpa using htype), List.foldl_cons, record, if_pos htype, ih]

theorem record_code (htype : code.type = ELF_PROG_LOAD)
    (hflags : code.flags = SEGMENT_READABLE ||| SEGMENT_EXECUTABLE) (info : MappedInfo) :
    code.record info =
      { info with codeAddr := pageNumber code.vaddr, codePageNum := code.pagesNeed } := by
  rw [record, if_neg (not_not.2 htype), if_pos hflags]

/-- The number of the pages of data goes to `code_addr`. -/
theorem record_data (htype : data.type = ELF_PROG_LOAD)
    (hflags : data.flags = SEGMENT_READABLE ||| SEGMENT_WRITABLE) (info : MappedInfo) :
    data.record info =
      { info with dataAddr := pageNumber data.vaddr, codeAddr := data.pagesNeed } := by
  rw [record, if_neg (not_not.2 htype), if_neg (by rw [hflags]; decide), if_pos hflags]

end ElfProgHeader

namespace LoadCall

variable {c c' : LoadCall} {code data : ElfProgHeader} {s : LoadState}

/-- What a load leaves in `mapped_info`. -/
theorem mappedInfo_eq (h : c.Intact) (hrun : c.run = .ok s) : s.process.mappedInfo =
    c.segments.foldl (fun info header => header.record info) c.process.mappedInfo := by
  rw [(Process.of_loadFromElf hrun).1, h.headers, ElfProgHeader.foldl_record_filter, segments]

theorem type_of_mem_segments {header : ElfProgHeader} (h : header ∈ c.segments) :
    header.type = ELF_PROG_LOAD := by
  simpa using (List.mem_filter.1 h).2

/-- A header of code, and then one of data. -/
theorem mappedInfo_code_data (h : c.Intact) (hrun : c.run = .ok s)
    (hsegments : c.segments = [code, data])
    (hcode : code.flags = SEGMENT_READABLE ||| SEGMENT_EXECUTABLE)
    (hdata : data.flags = SEGMENT_READABLE ||| SEGMENT_WRITABLE) :
    s.process.mappedInfo = ⟨data.pagesNeed, code.pagesNeed, pageNumber data.vaddr,
      c.process.mappedInfo.dataPageNum, c.process.mappedInfo.stackPageNum⟩ := by
  have htype : ∀ header ∈ [code, data], header.type = ELF_PROG_LOAD := fun header hmem =>
    type_of_mem_segments (c := c) (by rw [hsegments]; exact hmem)
  rw [mappedInfo_eq h hrun, hsegments, List.foldl_cons, List.foldl_cons, List.foldl_nil,
    ElfProgHeader.record_code (htype code (by simp)) hcode,
    ElfProgHeader.record_data (htype data (by simp)) hdata]

/-- A header of data, and then one of code. -/
theorem mappedInfo_data_code (h : c.Intact) (hrun : c.run = .ok s)
    (hsegments : c.segments = [data, code])
    (hcode : code.flags = SEGMENT_READABLE ||| SEGMENT_EXECUTABLE)
    (hdata : data.flags = SEGMENT_READABLE ||| SEGMENT_WRITABLE) :
    s.process.mappedInfo = ⟨pageNumber code.vaddr, code.pagesNeed, pageNumber data.vaddr,
      c.process.mappedInfo.dataPageNum, c.process.mappedInfo.stackPageNum⟩ := by
  have htype : ∀ header ∈ [data, code], header.type = ELF_PROG_LOAD := fun header hmem =>
    type_of_mem_segments (c := c) (by rw [hsegments]; exact hmem)
  rw [mappedInfo_eq h hrun, hsegments, List.foldl_cons, List.foldl_cons, List.foldl_nil,
    ElfProgHeader.record_data (htype data (by simp)) hdata,
    ElfProgHeader.record_code (htype code (by simp)) hcode]

/-- The load records the two segments, and so does the load of an image with the headers in the
other order. -/
def LayoutRight (code data : ElfProgHeader) (c c' : LoadCall) : Prop :=
  ∃ s s', c.run = .ok s ∧ c'.run = .ok s' ∧
    s.process.mappedInfo.Describes c.process.mappedInfo code data ∧
    s'.process.mappedInfo = s.process.mappedInfo

/-- The segments of two images, in the two orders. -/
def InBothOrders (code data : ElfProgHeader) (c c' : LoadCall) : Prop :=
  c.segments = [code, data] ∧ c'.segments = [data, code] ∨
    c.segments = [data, code] ∧ c'.segments = [code, data]

end LoadCall

open LoadCall

/-- **When the layout is recorded right.**  For two images that have one segment of code and one of
data, in the two orders, the record is right and the same for both if and only if `data_page_num`
had the right value before and the number of pages of data happens to be the start of the code. -/
theorem layout_right_iff {c c' : LoadCall} {code data : ElfProgHeader} (h : c.Intact)
    (h' : c'.Intact) (hcode : code.flags = SEGMENT_READABLE ||| SEGMENT_EXECUTABLE)
    (hdata : data.flags = SEGMENT_READABLE ||| SEGMENT_WRITABLE)
    (hsegments : InBothOrders code data c c')
    (hprior : c'.process.mappedInfo = c.process.mappedInfo) :
    LayoutRight code data c c' ↔ c.process.mappedInfo.dataPageNum = data.pagesNeed ∧
      data.pagesNeed = pageNumber code.vaddr := by
  obtain ⟨s, hrun⟩ := h.returns
  obtain ⟨s', hrun'⟩ := h'.returns
  have hright : LayoutRight code data c c' ↔
      s.process.mappedInfo.Describes c.process.mappedInfo code data ∧
        s'.process.mappedInfo = s.process.mappedInfo := by
    constructor
    · rintro ⟨s₁, s₁', hrun₁, hrun₁', hall⟩
      obtain rfl := Except.ok.inj (hrun.symm.trans hrun₁)
      obtain rfl := Except.ok.inj (hrun'.symm.trans hrun₁')
      exact hall
    · exact fun hall => ⟨s, s', hrun, hrun', hall⟩
  rw [hright]
  rcases hsegments with ⟨hfirst, hsecond⟩ | ⟨hfirst, hsecond⟩
  · rw [mappedInfo_code_data h hrun hfirst hcode hdata,
      mappedInfo_data_code h' hrun' hsecond hcode hdata, hprior]
    constructor
    · rintro ⟨hdescribes, -⟩
      exact ⟨hdescribes.dataPageNum, hdescribes.codeAddr⟩
    · rintro ⟨hnum, haddr⟩
      exact ⟨⟨haddr, rfl, rfl, hnum, rfl⟩, by rw [haddr]⟩
  · rw [mappedInfo_data_code h hrun hfirst hcode hdata,
      mappedInfo_code_data h' hrun' hsecond hcode hdata, hprior]
    constructor
    · rintro ⟨hdescribes, hsame⟩
      exact ⟨hdescribes.dataPageNum, congrArg MappedInfo.codeAddr hsame⟩
    · rintro ⟨hnum, haddr⟩
      exact ⟨⟨rfl, rfl, rfl, hnum, rfl⟩, by rw [haddr]⟩

/-- The load of an image with a page of code and a page of data into a fresh process. -/
def pairCall (swapped : Bool) : LoadCall :=
  let (p, s) := Process.new ⟨0⟩ ⟨0, 0, 0, 0, 0⟩ (pairPmm swapped)
  ⟨p, s, 0, 0x80100000⟩

theorem pairCall_intact (swapped : Bool) :
    (pairCall swapped).Intact ∧ (pairCall swapped).segments = pairSegments swapped := by
  have hsup := pairPmm_supplied swapped ⟨0⟩ ⟨0, 0, 0, 0, 0⟩ 0
  have hnew := denied_new_of_loadFresh hsup
  obtain ⟨root, g, -, hnodes, -, -, hapart, hheaders⟩ := nodes_new_image pairPages_free
    (pairPmm_freeList swapped) (pairPmm_image swapped) ⟨0⟩ ⟨0, 0, 0, 0, 0⟩ hnew
  refine ⟨Intact.of_apart kernelEnd_kernelBegin hnodes rfl hapart (hsup.trans hnew.symm), ?_⟩
  have hsegments := congrArg (List.filter fun header => header.type = ELF_PROG_LOAD) hheaders
  rw [pairPmm_progHeaders] at hsegments
  refine Eq.trans hsegments ?_
  cases swapped <;> decide

theorem layout_right_iff_sample :
    LayoutRight sampleSegment dataSegment (pairCall false) (pairCall true) ↔
      (pairCall false).process.mappedInfo.dataPageNum = dataSegment.pagesNeed ∧
        dataSegment.pagesNeed = pageNumber sampleSegment.vaddr :=
  layout_right_iff (pairCall_intact false).1 (pairCall_intact true).1 rfl rfl
    (Or.inl ⟨(pairCall_intact false).2, (pairCall_intact true).2⟩) rfl

/-- The code at page `16` is recorded as beginning at `1`, the number of pages of data. -/
theorem data_pages_recorded_as_code :
    (∀ swapped, (ElfHeader.read (pairPmm swapped).mem 0x80100000).magic = ELF_MAGIC ∧
        (ElfHeader.read (pairPmm swapped).mem 0x80100000).phnum.toNat ≤ 2 ∧
        (pairCall swapped).Intact) ∧
      InBothOrders sampleSegment dataSegment (pairCall false) (pairCall true) ∧
      ¬ LayoutRight sampleSegment dataSegment (pairCall false) (pairCall true) := by
  refine ⟨fun swapped => ⟨?_, ?_, (pairCall_intact swapped).1⟩,
    Or.inl ⟨(pairCall_intact false).2, (pairCall_intact true).2⟩, ?_⟩
  · rw [pairPmm_header]
  · rw [pairPmm_header]
    decide
  · rintro ⟨s, s', hrun, -, hdescribes, -⟩
    have haddr := hdescribes.codeAddr
    rw [mappedInfo_code_data (pairCall_intact false).1 hrun (pairCall_intact false).2 rfl rfl]
      at haddr
    revert haddr
    decide

end HxcOS
