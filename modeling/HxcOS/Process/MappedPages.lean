import HxcOS.Process.Mapping

/-!
# Which pages the loader maps, and which it loses

The pages that a segment asks for are those with a byte of it; `MappedRight` says that these are
mapped and no others.  Since the loader takes page numbers for addresses, that is so only for
segments in the first page (`mapped_right_iff`).  For the same reason two segments in the same 16 MiB
meet in the table: then `add` fails, and nobody looks at what it returns, so that the page
is lost (`no_page_leaked_iff`).
-/

namespace HxcOS

open ByteMem Radix

/-! ### The pages that the segments ask for -/

/-- A well-formed image for a fresh process, with enough free pages. -/
structure FreshImage (K : Word) (L : List Word) (s : Pmm) (elfBuff : Word) (len : ℕ)
    (r : Except Pmm LoadState) : Prop where
  pages : FreePages K L
  free : FreeList s L
  image : ImageAt s.mem L elfBuff len
  magic : (ElfHeader.read s.mem elfBuff).magic = ELF_MAGIC
  phnum_le : (ElfHeader.read s.mem elfBuff).phnum.toNat ≤ 2
  flags : ∀ h ∈ progHeaders s.mem elfBuff, h.type = ELF_PROG_LOAD → h.ValidFlags
  sized : ∀ h ∈ progHeaders s.mem elfBuff, h.type = ELF_PROG_LOAD → h.Sized
  apart : (progHeaders s.mem elfBuff).Pairwise fun h h' =>
    h.type = ELF_PROG_LOAD → h'.type = ELF_PROG_LOAD → ∀ v, ¬ (h.Touches v ∧ h'.Touches v)
  supplied : failures r = s.denied

/-- Only one segment touches a page. -/
theorem FreshImage.eq_of_touches {K : Word} {L : List Word} {s : Pmm} {elfBuff : Word} {len : ℕ}
    {r : Except Pmm LoadState} (h : FreshImage K L s elfBuff len r) {header header' : ElfProgHeader}
    (hheader : header ∈ progHeaders s.mem elfBuff) (hheader' : header' ∈ progHeaders s.mem elfBuff)
    (htype : header.type = ELF_PROG_LOAD) (htype' : header'.type = ELF_PROG_LOAD) {v : ℕ}
    (htouches : header.Touches v) (htouches' : header'.Touches v) : header = header' := by
  have hsymm : Std.Symm fun h h' : ElfProgHeader => h.type = ELF_PROG_LOAD →
      h'.type = ELF_PROG_LOAD → ∀ v, ¬ (h.Touches v ∧ h'.Touches v) :=
    ⟨fun x y hxy hy hx v hv => hxy hx hy v hv.symm⟩
  by_contra hne
  exact h.apart.forall hheader hheader' hne htype htype' v ⟨htouches, htouches'⟩

/-- The load returns, and below `2 ^ 38` the pages with a byte of a segment are mapped, with the
permissions of the segment, and no others. -/
def MappedRight (m : Mem) (elfBuff : Word) (r : Except Pmm LoadState) : Prop :=
  ∃ s, r = .ok s ∧ ∀ v < 2 ^ 26,
    let pte := s.process.pageTable.pageWalk s.pmm.mem (BitVec.ofNat 64 (4096 * v))
    (pte ≠ 0 ↔ ∃ h ∈ progHeaders m elfBuff, h.type = ELF_PROG_LOAD ∧ h.Touches v) ∧
    ∀ h ∈ progHeaders m elfBuff, h.type = ELF_PROG_LOAD → h.Touches v →
      (h.flags = SEGMENT_READABLE ||| SEGMENT_EXECUTABLE → (loadPte s.pmm.mem pte).getFlag =
        PTEFlags.V ||| PTEFlags.R ||| PTEFlags.X ||| PTEFlags.U) ∧
      (h.flags = SEGMENT_READABLE ||| SEGMENT_WRITABLE → (loadPte s.pmm.mem pte).getFlag =
        PTEFlags.V ||| PTEFlags.R ||| PTEFlags.W ||| PTEFlags.U)

namespace ElfProgHeader

variable {h h' : ElfProgHeader}

/-- The key of the page with number `v`. -/
theorem key_page {v : ℕ} (hv : v < 2 ^ 26) :
    (HxcOS.key (BitVec.ofNat 64 (4096 * v))).toNat = v := by
  rw [HxcOS.key, BitVec.extractLsb'_toNat, Nat.shiftRight_eq_div_pow, BitVec.toNat_ofNat]
  omega

/-- The keys of a segment below `2 ^ 38`. -/
theorem Sized.key_page_mem_keys_iff (hsized : h.Sized) (htype : h.type = ELF_PROG_LOAD)
    (hlow : h.vaddr.toNat + h.memsz.toNat < 2 ^ 38) {v : ℕ} (hv : v < 2 ^ 26) :
    HxcOS.key (BitVec.ofNat 64 (4096 * v)) ∈ h.keys ↔
      h.firstPage / 4096 ≤ v ∧ v ≤ h.firstPage / 4096 + (h.lastPage - h.firstPage) / 4096 := by
  have hlast : h.lastPage < 2 ^ 26 := by
    unfold lastPage
    omega
  have hle : h.firstPage ≤ h.lastPage := by
    have hpos := hsized.1
    unfold firstPage lastPage
    omega
  have hcount : h.pageCount = (h.lastPage - h.firstPage) / 4096 + 1 := by
    rw [pageCount, hsized.pagesNeed_toNat]
    omega
  rw [mem_keys, hcount]
  constructor
  · rintro ⟨-, j, hj, heq⟩
    have heq' := congrArg BitVec.toNat heq
    rw [key_pageAddr, key_page hv] at heq'
    omega
  · rintro ⟨hge, hle'⟩
    refine ⟨htype, v - h.firstPage / 4096, by omega, BitVec.eq_of_toNat_eq ?_⟩
    rw [key_pageAddr, key_page hv]
    omega

/-- A segment at the bottom of the address space touches the first page and no other one. -/
theorem Sized.touches_iff_of_le (hsized : h.Sized)
    (hle : h.vaddr.toNat + h.memsz.toNat ≤ 4096) {v : ℕ} : h.Touches v ↔ v = 0 := by
  have hpos := hsized.1
  rw [hsized.touches_iff, firstPage, lastPage]
  omega

theorem perm_code (hflags : h.flags = SEGMENT_READABLE ||| SEGMENT_EXECUTABLE) (perm₀ : Word) :
    h.perm perm₀ = PTEFlags.V ||| PTEFlags.R ||| PTEFlags.X ||| PTEFlags.U := by
  rw [perm, if_pos hflags]
  decide

theorem perm_data (hflags : h.flags = SEGMENT_READABLE ||| SEGMENT_WRITABLE) (perm₀ : Word) :
    h.perm perm₀ = PTEFlags.V ||| PTEFlags.R ||| PTEFlags.W ||| PTEFlags.U := by
  rw [perm, if_neg (by rw [hflags]; decide), if_pos hflags]
  decide

/-- For such a segment the loader uses the right key. -/
theorem Sized.key_page_mem_keys_iff_of_le (hsized : h.Sized) (htype : h.type = ELF_PROG_LOAD)
    (hle : h.vaddr.toNat + h.memsz.toNat ≤ 4096) {v : ℕ} (hv : v < 2 ^ 26) :
    HxcOS.key (BitVec.ofNat 64 (4096 * v)) ∈ h.keys ↔ h.Touches v := by
  have hpos := hsized.1
  rw [hsized.key_page_mem_keys_iff htype (by omega) hv, hsized.touches_iff_of_le hle, firstPage,
    lastPage]
  omega

end ElfProgHeader

section Iff

variable {K : Word} {L : List Word} {s : Pmm} {elfBuff perm₀ : Word} {len : ℕ}
  {trapframe : TrapFrame} {mappedInfo : MappedInfo}

/-- When the pages of the segments are mapped, each segment ends in the first page: the last page of
a segment is mapped for a segment whose own last page has a number `4096` times as large. -/
theorem lastPage_eq_zero_of_mapped {headers : List ElfProgHeader}
    (hsized : ∀ h ∈ headers, h.type = ELF_PROG_LOAD → h.Sized)
    (hlow : ∀ h ∈ headers, h.type = ELF_PROG_LOAD → h.vaddr.toNat + h.memsz.toNat < 2 ^ 38)
    (hmapped : ∀ v < 2 ^ 26, ∀ h ∈ headers, h.type = ELF_PROG_LOAD → h.Touches v →
      ∃ h' ∈ headers, key (BitVec.ofNat 64 (4096 * v)) ∈ h'.keys)
    {h : ElfProgHeader} (hh : h ∈ headers) (htype : h.type = ELF_PROG_LOAD) : h.lastPage = 0 := by
  induction hd : 2 ^ 26 - h.lastPage using Nat.strong_induction_on generalizing h with
  | _ d ih =>
    have hlast : h.lastPage < 2 ^ 26 := by
      have hlt := hlow h hh htype
      unfold ElfProgHeader.lastPage
      omega
    have htouches : h.Touches h.lastPage := by
      refine (hsized h hh htype).touches_iff.2 ⟨?_, le_rfl⟩
      have hpos := (hsized h hh htype).1
      unfold ElfProgHeader.firstPage ElfProgHeader.lastPage
      omega
    obtain ⟨h', hh', hkey⟩ := hmapped _ hlast h hh htype htouches
    have htype' := (ElfProgHeader.mem_keys.1 hkey).1
    have hrange := ((hsized h' hh' htype').key_page_mem_keys_iff htype' (hlow h' hh' htype')
      hlast).1 hkey
    have hle : h'.firstPage ≤ h'.lastPage := by
      have hpos := (hsized h' hh' htype').1
      unfold ElfProgHeader.firstPage ElfProgHeader.lastPage
      omega
    by_contra hne
    have hzero := ih _ (by omega) hh' htype' rfl
    omega

/-- When the pages are mapped right every segment ends in the first page. -/
theorem FreshImage.ends_of_mapped
    (h : FreshImage K L s elfBuff len (loadFresh trapframe mappedInfo s perm₀ elfBuff))
    (hlow : ∀ header ∈ progHeaders s.mem elfBuff, header.type = ELF_PROG_LOAD →
      header.vaddr.toNat + header.memsz.toNat < 2 ^ 38)
    (hright : MappedRight s.mem elfBuff (loadFresh trapframe mappedInfo s perm₀ elfBuff)) :
    ∀ header ∈ progHeaders s.mem elfBuff, header.type = ELF_PROG_LOAD →
      header.vaddr.toNat + header.memsz.toNat ≤ 4096 := by
  intro header hheader htype
  obtain ⟨s', k, root, M, g, heq, hload⟩ :=
    loadFresh_mapped h.pages h.free h.image h.flags h.supplied
  obtain ⟨s'', heq', hright⟩ := hright
  obtain rfl := Except.ok.inj (heq.symm.trans heq')
  have hlast := lastPage_eq_zero_of_mapped h.sized hlow (fun v hv h' hh' htype' htouches =>
    (hload.pageWalk_ne_zero_iff h.pages.kernelEnd _).1
      ((hright v hv).1.2 ⟨h', hh', htype', htouches⟩)) hheader htype
  unfold ElfProgHeader.lastPage at hlast
  omega

/-- When every segment ends in the first page the pages are mapped right. -/
theorem FreshImage.mapped_of_ends
    (h : FreshImage K L s elfBuff len (loadFresh trapframe mappedInfo s perm₀ elfBuff))
    (hends : ∀ header ∈ progHeaders s.mem elfBuff, header.type = ELF_PROG_LOAD →
      header.vaddr.toNat + header.memsz.toNat ≤ 4096) :
    MappedRight s.mem elfBuff (loadFresh trapframe mappedInfo s perm₀ elfBuff) := by
  obtain ⟨s', k, root, M, g, heq, hload⟩ :=
    loadFresh_mapped h.pages h.free h.image h.flags h.supplied
  have hK := h.pages.kernelEnd
  have hmapped : ∀ v < 2 ^ 26, ∀ header ∈ progHeaders s.mem elfBuff,
      key (BitVec.ofNat 64 (4096 * v)) ∈ header.keys ↔
        header.type = ELF_PROG_LOAD ∧ header.Touches v := by
    intro v hv header hheader
    by_cases htype : header.type = ELF_PROG_LOAD
    · rw [(h.sized _ hheader htype).key_page_mem_keys_iff_of_le htype (hends _ hheader htype) hv]
      simp [htype]
    · simp [ElfProgHeader.mem_keys, htype]
  refine ⟨s', heq, fun v hv => ?_⟩
  have hiff : s'.process.pageTable.pageWalk s'.pmm.mem (BitVec.ofNat 64 (4096 * v)) ≠ 0 ↔
      ∃ header ∈ progHeaders s.mem elfBuff, header.type = ELF_PROG_LOAD ∧ header.Touches v := by
    rw [hload.pageWalk_ne_zero_iff hK]
    exact exists_congr fun header => and_congr_right fun hheader => hmapped v hv header hheader
  refine ⟨hiff, fun header hheader htype htouches => ?_⟩
  obtain ⟨header', hheader', hkey, hflag⟩ :=
    hload.getFlag_pageWalk hK (hiff.2 ⟨header, hheader, htype, htouches⟩)
  -- no other segment touches the page
  obtain ⟨htype', htouches'⟩ := (hmapped v hv header' hheader').1 hkey
  rw [hflag, h.eq_of_touches hheader' hheader htype' htype htouches' htouches]
  exact ⟨fun hcode => ElfProgHeader.perm_code hcode perm₀,
    fun hdata => ElfProgHeader.perm_data hdata perm₀⟩

/-- **Only segments in the first page are mapped right.**  For a well-formed image with segments
below `2 ^ 38`, and enough free pages, the pages of the segments are mapped with their permissions,
and no others, if and only if every segment ends in the page at the address `0`. -/
theorem mapped_right_iff
    (h : FreshImage K L s elfBuff len (loadFresh trapframe mappedInfo s perm₀ elfBuff))
    (hlow : ∀ header ∈ progHeaders s.mem elfBuff, header.type = ELF_PROG_LOAD →
      header.vaddr.toNat + header.memsz.toNat < 2 ^ 38) :
    MappedRight s.mem elfBuff (loadFresh trapframe mappedInfo s perm₀ elfBuff) ↔
      ∀ header ∈ progHeaders s.mem elfBuff, header.type = ELF_PROG_LOAD →
        header.vaddr.toNat + header.memsz.toNat ≤ 4096 :=
  ⟨h.ends_of_mapped hlow, h.mapped_of_ends⟩

theorem samplePmm_freshImage (trapframe : TrapFrame) (mappedInfo : MappedInfo) (perm₀ : Word) :
    FreshImage kernelBegin samplePages samplePmm 0x80100000 0x2000
      (loadFresh trapframe mappedInfo samplePmm perm₀ 0x80100000) := by
  have h := samplePmm_loadable trapframe mappedInfo perm₀
  refine ⟨⟨h.kernelEnd, h.pool, h.free.nodup⟩, h.free, h.image, h.magic, h.phnum_le, h.flags, ?_,
    ?_, h.supplied samplePmm.mem (Refill.refl h.free)⟩
  · rw [samplePmm_progHeaders]
    intro header hheader _
    rw [List.mem_singleton.1 hheader]
    exact ⟨by decide, by decide⟩
  · rw [samplePmm_progHeaders]
    exact List.pairwise_singleton _ _

theorem samplePmm_low : ∀ header ∈ progHeaders samplePmm.mem 0x80100000,
    header.type = ELF_PROG_LOAD → header.vaddr.toNat + header.memsz.toNat < 2 ^ 38 := by
  rw [samplePmm_progHeaders]
  intro header hheader _
  rw [List.mem_singleton.1 hheader]
  decide

theorem mapped_right_iff_sample :
    MappedRight samplePmm.mem 0x80100000 (loadFresh ⟨0⟩ ⟨0, 0, 0, 0, 0⟩ samplePmm 0 0x80100000) ↔
      ∀ header ∈ progHeaders samplePmm.mem 0x80100000, header.type = ELF_PROG_LOAD →
        header.vaddr.toNat + header.memsz.toNat ≤ 4096 :=
  mapped_right_iff (samplePmm_freshImage ⟨0⟩ ⟨0, 0, 0, 0, 0⟩ 0) samplePmm_low

/-- The page of code belongs at `0x10000` and is mapped elsewhere. -/
theorem code_page_not_mapped :
    FreshImage kernelBegin samplePages samplePmm 0x80100000 0x2000
        (loadFresh ⟨0⟩ ⟨0, 0, 0, 0, 0⟩ samplePmm 0 0x80100000) ∧
      (∀ header ∈ progHeaders samplePmm.mem 0x80100000, header.type = ELF_PROG_LOAD →
        header.vaddr.toNat + header.memsz.toNat < 2 ^ 38) ∧
      ¬ MappedRight samplePmm.mem 0x80100000
        (loadFresh ⟨0⟩ ⟨0, 0, 0, 0, 0⟩ samplePmm 0 0x80100000) := by
  have h := samplePmm_freshImage ⟨0⟩ ⟨0, 0, 0, 0, 0⟩ 0
  refine ⟨h, samplePmm_low, fun hright => ?_⟩
  have hends := h.ends_of_mapped samplePmm_low hright sampleSegment
    (by rw [samplePmm_progHeaders]; exact List.mem_singleton_self _) rfl
  revert hends
  decide

end Iff

/-! ### The pages that the loader takes -/

/-- The address at which a virtual page begins. -/
def Key.addr (κ : Key) : Word := κ.setWidth 64 <<< 12

theorem key_addr (κ : Key) : key κ.addr = κ := by
  apply BitVec.eq_of_toNat_eq
  have hlt := κ.isLt
  rw [key, BitVec.extractLsb'_toNat, Nat.shiftRight_eq_div_pow, Key.addr, BitVec.toNat_shiftLeft,
    Nat.shiftLeft_eq, BitVec.toNat_setWidth]
  omega

/-- The load returns, no call of `add` has failed, and each page that was taken, for the root or
later, is a node of the table or the page of exactly one virtual page. -/
def NoPageLeaked (L : List Word) (r : Except Pmm LoadState) : Prop :=
  ∃ s M L', r = .ok s ∧ L = M ++ L' ∧ FreeList s.pmm L' ∧ (∀ pg ∈ s.loaded, pg.ret = 0) ∧
    ∀ p ∈ M, (∃ π, π.length < 3 ∧
        (forest [s.process.pageTable] s.pmm.mem).walk 0 π = some p) ∨
      ∃! κ : Key, s.process.pageTable.lookup s.pmm.mem κ.addr = p

section Leaked

variable {K : Word} {L : List Word} {s : Pmm} {elfBuff perm₀ : Word} {len : ℕ}
  {trapframe : TrapFrame} {mappedInfo : MappedInfo}

/-- When no page is lost the keys of the segments are apart. -/
theorem FreshImage.apart_of_noPageLeaked
    (h : FreshImage K L s elfBuff len (loadFresh trapframe mappedInfo s perm₀ elfBuff))
    (hkept : NoPageLeaked L (loadFresh trapframe mappedInfo s perm₀ elfBuff)) :
    (progHeaders s.mem elfBuff).Pairwise fun header header' =>
      header.type = ELF_PROG_LOAD → header'.type = ELF_PROG_LOAD → header.KeysApart header' := by
  obtain ⟨s', k, root, M, g, heq, hload⟩ :=
    loadFresh_mapped h.pages h.free h.image h.flags h.supplied
  obtain ⟨s'', M', L', heq', -, -, hrets, -⟩ := hkept
  obtain rfl := Except.ok.inj (heq.symm.trans heq')
  exact (hload.rets_iff h.pages h.sized).1 hrets

/-- When the keys of the segments are apart no page is lost. -/
theorem FreshImage.noPageLeaked_of_apart
    (h : FreshImage K L s elfBuff len (loadFresh trapframe mappedInfo s perm₀ elfBuff))
    (hapart : (progHeaders s.mem elfBuff).Pairwise fun header header' =>
      header.type = ELF_PROG_LOAD → header'.type = ELF_PROG_LOAD → header.KeysApart header') :
    NoPageLeaked L (loadFresh trapframe mappedInfo s perm₀ elfBuff) := by
  obtain ⟨s', k, root, M, g, heq, hload⟩ :=
    loadFresh_mapped h.pages h.free h.image h.flags h.supplied
  have hrets := (hload.rets_iff h.pages h.sized).2 hapart
  refine ⟨s', root :: M, g.free, heq, hload.free, hload.nodes.chain, hrets, fun p hp => ?_⟩
  have hnode : ∀ {π}, g.own p = .inTable 0 π → ∃ π, π.length < 3 ∧
      (forest [s'.process.pageTable] s'.pmm.mem).walk 0 π = some p := by
    intro π hπ
    have hdepth := hload.nodes.depth p 0 π hπ
    have hwalk := (hload.nodes.walk_iff hdepth).2 hπ
    rw [Kernel.walk, Kernel.forest, hload.table] at hwalk
    exact ⟨π, by omega, hwalk⟩
  rcases List.mem_cons.1 hp with rfl | hpM
  · exact Or.inl (hnode hload.root)
  · rcases hload.taken p hpM with hheld | ⟨π, hπ⟩
    · -- a page of a segment
      right
      obtain ⟨pg, hpg, rfl⟩ := List.mem_map.1 ((hload.map.dests p).2 ⟨hpM, hheld⟩)
      have hiff := hload.lookup_eq_dest_iff h.pages.kernelEnd (hload.map.rets.1 hrets) hpg
      refine ⟨pg.key, (hiff _).2 (key_addr _), fun κ hκ => ?_⟩
      rw [← (hiff _).1 hκ, key_addr]
    · exact Or.inl (hnode hπ)

/-- **When the loader leaks no page.**  For a well-formed image and enough free pages, every page
that is taken becomes a node or the page of one virtual page, and no call of `add` fails, if and only
if no page of one segment is loaded under the key of a page of another segment. -/
theorem no_page_leaked_iff
    (h : FreshImage K L s elfBuff len (loadFresh trapframe mappedInfo s perm₀ elfBuff)) :
    NoPageLeaked L (loadFresh trapframe mappedInfo s perm₀ elfBuff) ↔
      (progHeaders s.mem elfBuff).Pairwise fun header header' =>
        header.type = ELF_PROG_LOAD → header'.type = ELF_PROG_LOAD → header.KeysApart header' :=
  ⟨h.apart_of_noPageLeaked, h.noPageLeaked_of_apart⟩

end Leaked

/-! ### Images with a page of code and a page of data -/

/-- The segment of data of these images. -/
def dataSegment : ElfProgHeader where
  type := ELF_PROG_LOAD
  flags := SEGMENT_READABLE ||| SEGMENT_WRITABLE
  off := 0x2000
  vaddr := 0x20000
  filesz := 4096
  memsz := 4096

/-- The two segments, in one order or the other. -/
def pairSegments (swapped : Bool) : List ElfProgHeader :=
  if swapped then [dataSegment, sampleSegment] else [sampleSegment, dataSegment]

/-- The memory with a program header at an address. -/
def storeHeader (m : Mem) (a : Word) (h : ElfProgHeader) : Mem :=
  let m := (m.store32 a h.type).store32 (a + 4) h.flags
  let m := (m.store64 (a + 8) h.off).store64 (a + 16) h.vaddr
  (m.store64 (a + 32) h.filesz).store64 (a + 40) h.memsz

/-- An image at `0x80100000`. -/
def pairImage (swapped : Bool) : Mem :=
  let m := sampleImage.store16 (0x80100000 + 56) 2
  let m := storeHeader m (0x80100000 + 64) (if swapped then dataSegment else sampleSegment)
  storeHeader m (0x80100000 + 120) (if swapped then sampleSegment else dataSegment)

/-- Seven free pages. -/
def pairPages : List Word :=
  [0x80300000, 0x80301000, 0x80302000, 0x80303000, 0x80304000, 0x80305000, 0x80306000]

def pairPmm (swapped : Bool) : Pmm where
  mem := ((((((pairImage swapped).store64 0x80300000 0x80301000).store64 0x80301000
    0x80302000).store64 0x80302000 0x80303000).store64 0x80303000 0x80304000).store64 0x80304000
    0x80305000).store64 0x80305000 0x80306000
  freePagesList := 0x80300000
  denied := 0
  nullMem := none

section Pair

variable (swapped : Bool) (trapframe : TrapFrame) (mappedInfo : MappedInfo) (perm₀ : Word)

theorem pairPmm_header :
    ElfHeader.read (pairPmm swapped).mem 0x80100000 = ⟨ELF_MAGIC, 0x10000, 64, 2⟩ := by
  simp only [ElfHeader.read, ElfHeader.mk.injEq]
  cases swapped <;> decide +kernel

theorem pairPmm_progHeaders :
    progHeaders (pairPmm swapped).mem 0x80100000 = pairSegments swapped := by
  rw [progHeaders, pairPmm_header]
  cases swapped <;> decide +kernel

theorem pairPmm_forall {P : ElfProgHeader → Prop} (hcode : P sampleSegment) (hdata : P dataSegment) :
    ∀ h ∈ progHeaders (pairPmm swapped).mem 0x80100000, P h := by
  rw [pairPmm_progHeaders]
  cases swapped <;> simp [pairSegments, hcode, hdata]

theorem pairPmm_freeList : FreeList (pairPmm swapped) pairPages := by
  cases swapped <;> decide +kernel

theorem pairPages_free : FreePages kernelBegin pairPages := by
  refine ⟨kernelEnd_kernelBegin, fun p hp => ?_, (pairPmm_freeList false).nodup⟩
  simp only [pairPages, List.mem_cons, List.not_mem_nil, or_false] at hp
  rcases hp with rfl | rfl | rfl | rfl | rfl | rfl | rfl <;>
    exact ⟨by decide, by decide, by decide⟩

theorem pairPmm_image : ImageAt (pairPmm swapped).mem pairPages 0x80100000 0x3000 := by
  refine ⟨?_, ?_, by norm_num [ElfHeader.size], ?_⟩
  · rw [show ramSize.toNat = 0x8000000 from rfl]
    norm_num
  · rw [Set.disjoint_left]
    intro a ha
    rw [mem_span] at ha
    exact pairPages_free.notMem_pagesOf (by bv_omega)
  · rw [pairPmm_header]
    decide

theorem pairPmm_supplied :
    failures (loadFresh trapframe mappedInfo (pairPmm swapped) perm₀ 0x80100000) =
      (pairPmm swapped).denied := by
  refine loadFresh_supplied pairPages_free (pairPmm_freeList swapped) (pairPmm_image swapped) ?_ ?_
  · exact pairPmm_forall swapped
      (fun _ => ⟨ElfProgHeader.ValidFlags.perm_bounds (Or.inl rfl) _, by decide +kernel⟩)
      fun _ => ⟨ElfProgHeader.ValidFlags.perm_bounds (Or.inr rfl) _, by decide +kernel⟩
  · rw [pairPmm_progHeaders]
    cases swapped <;> decide +kernel

theorem pairPmm_freshImage :
    FreshImage kernelBegin pairPages (pairPmm swapped) 0x80100000 0x3000
      (loadFresh trapframe mappedInfo (pairPmm swapped) perm₀ 0x80100000) := by
  have hapart : ∀ v, ¬ (sampleSegment.Touches v ∧ dataSegment.Touches v) := by
    rintro v ⟨⟨a, -, ha, hv⟩, b, hb, -, hv'⟩
    rw [show sampleSegment.vaddr.toNat + sampleSegment.memsz.toNat = 0x11000 from rfl] at ha
    rw [show dataSegment.vaddr.toNat = 0x20000 from rfl] at hb
    omega
  refine ⟨pairPages_free, pairPmm_freeList swapped, pairPmm_image swapped, ?_, ?_, ?_, ?_, ?_,
    pairPmm_supplied swapped trapframe mappedInfo perm₀⟩
  · rw [pairPmm_header]
  · rw [pairPmm_header]
    decide +kernel
  · exact pairPmm_forall swapped (fun _ => Or.inl rfl) fun _ => Or.inr rfl
  · exact pairPmm_forall swapped (fun _ => ⟨by decide, by decide⟩)
      fun _ => ⟨by decide, by decide⟩
  · rw [pairPmm_progHeaders]
    cases swapped
    · exact List.pairwise_pair.2 fun _ _ v => hapart v
    · exact List.pairwise_pair.2 fun _ _ v hv => hapart v hv.symm

end Pair

theorem no_page_leaked_iff_sample :
    NoPageLeaked pairPages (loadFresh ⟨0⟩ ⟨0, 0, 0, 0, 0⟩ (pairPmm false) 0 0x80100000) ↔
      (progHeaders (pairPmm false).mem 0x80100000).Pairwise fun header header' =>
        header.type = ELF_PROG_LOAD → header'.type = ELF_PROG_LOAD → header.KeysApart header' :=
  no_page_leaked_iff (pairPmm_freshImage false ⟨0⟩ ⟨0, 0, 0, 0, 0⟩ 0)

/-- The page of data is lost: `add` fails for it, since the page of code has its key. -/
theorem data_page_leaked :
    FreshImage kernelBegin pairPages (pairPmm false) 0x80100000 0x3000
        (loadFresh ⟨0⟩ ⟨0, 0, 0, 0, 0⟩ (pairPmm false) 0 0x80100000) ∧
      ¬ NoPageLeaked pairPages (loadFresh ⟨0⟩ ⟨0, 0, 0, 0, 0⟩ (pairPmm false) 0 0x80100000) := by
  have h := pairPmm_freshImage false ⟨0⟩ ⟨0, 0, 0, 0, 0⟩ 0
  refine ⟨h, fun hkept => ?_⟩
  have hapart := h.apart_of_noPageLeaked hkept
  rw [pairPmm_progHeaders, pairSegments, if_neg Bool.false_ne_true, List.pairwise_pair] at hapart
  exact hapart rfl rfl 0 (Nat.zero_le _) 0 (Nat.zero_le _) rfl

end HxcOS
