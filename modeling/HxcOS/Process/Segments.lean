import HxcOS.Process.Arithmetic

/-!
# What the pages of a segment hold

`segmentByte` is the byte that belongs at a place of a segment: a byte of the file where the segment
has one, and zero around.  The loader does not compute it.  It copies from the address `off` where
it should copy from `elf_buff + off`, it copies `memsz` bytes and not `filesz`, to the start of the
page and not to the offset of `vaddr` in it, and it clears nothing.

The pages hold what they should exactly when these mistakes make no difference (`SourceRight`): every
page is copied to in full, and the bytes at the address `off` are the right ones already.
-/

namespace HxcOS

open ByteMem

/-- The byte that belongs at offset `x` of the `j`-th page of a segment. -/
def segmentByte (m : Mem) (elfBuff : Word) (h : ElfProgHeader) (j x : ℕ) : Byte :=
  let a := h.vaddr.toNat / 4096 * 4096 + 4096 * j + x
  if h.vaddr.toNat ≤ a ∧ a < h.vaddr.toNat + h.filesz.toNat then
    m.byte (elfBuff + (h.off + BitVec.ofNat 64 (a - h.vaddr.toNat)))
  else 0

/-- The load returns, and every page that it has taken holds what belongs there. -/
def SegmentsRight (m : Mem) (elfBuff : Word) (r : Except Pmm LoadState) : Prop :=
  ∃ s, r = .ok s ∧ ∀ pg ∈ s.loaded, ∀ x < 4096,
    s.pmm.mem.byte (pg.dest + BitVec.ofNat 64 x) = segmentByte m elfBuff pg.header pg.index x

/-- `m` is the memory of `s` with other bytes in the free pages. -/
structure Refill (s : Pmm) (L : List Word) (m : Mem) : Prop where
  free : FreeList { s with mem := m } L
  same : ∀ a ∉ pagesOf L, m.byte a = s.mem.byte a

/-- A well-formed image, with enough free pages whatever these hold. -/
structure Loadable (K : Word) (L : List Word) (s : Pmm) (elfBuff : Word) (len : ℕ)
    (load : Pmm → Except Pmm LoadState) : Prop where
  kernelEnd : KernelEnd K
  pool : ∀ p ∈ L, PoolPage K p
  free : FreeList s L
  image : ImageAt s.mem L elfBuff len
  magic : (ElfHeader.read s.mem elfBuff).magic = ELF_MAGIC
  phnum_le : (ElfHeader.read s.mem elfBuff).phnum.toNat ≤ 2
  flags : ∀ h ∈ progHeaders s.mem elfBuff, h.type = ELF_PROG_LOAD → h.ValidFlags
  sizes : ∀ h ∈ progHeaders s.mem elfBuff, h.type = ELF_PROG_LOAD →
    h.filesz ≤ h.memsz ∧ 0 < h.memsz ∧ h.off.toNat + h.filesz.toNat ≤ len
  supplied : ∀ m, Refill s L m → failures (load { s with mem := m }) = s.denied

/-- Every page of every segment is copied to in full, and what is at the address `off` is right. -/
def SourceRight (m : Mem) (elfBuff : Word) : Prop :=
  ∀ h ∈ progHeaders m elfBuff, h.type = ELF_PROG_LOAD →
    4096 * h.pagesNeed.toNat ≤ h.memsz.toNat ∧
      ∀ j < h.pagesNeed.toNat, ∀ x < 4096,
        m.byte (h.off + BitVec.ofNat 64 (4096 * j + x)) = segmentByte m elfBuff h j x

/-! ### Images in memories that differ in the free pages -/

namespace ImageAt

variable {m m' : Mem} {L : List Word} {elfBuff : Word} {len : ℕ}

theorem byte_eq (h : ImageAt m L elfBuff len) (hm : ∀ a ∉ pagesOf L, m'.byte a = m.byte a)
    {a : Word} (ha : a ∈ span elfBuff len) : m'.byte a = m.byte a :=
  hm a (Set.disjoint_left.1 h.outside ha)

theorem header_eq (h : ImageAt m L elfBuff len) (hm : ∀ a ∉ pagesOf L, m'.byte a = m.byte a) :
    ElfHeader.read m' elfBuff = ElfHeader.read m elfBuff :=
  ElfHeader.read_congr fun _ hb => h.byte_eq hm (span_mono h.header hb)

theorem progHeaders_eq (h : ImageAt m L elfBuff len) (hm : ∀ a ∉ pagesOf L, m'.byte a = m.byte a) :
    progHeaders m' elfBuff = progHeaders m elfBuff := by
  have hspan := h.span_header_subset
  rw [h.programHeaderAddrs_eq, List.forall_mem_map] at hspan
  unfold progHeaders progHeadersFrom
  rw [h.header_eq hm]
  exact List.map_congr_left fun i hi =>
    ElfProgHeader.read_congr fun b hb => h.byte_eq hm (hspan i hi hb)

theorem congr (h : ImageAt m L elfBuff len) (hm : ∀ a ∉ pagesOf L, m'.byte a = m.byte a) :
    ImageAt m' L elfBuff len :=
  ⟨h.small, h.outside, h.header, by rw [h.header_eq hm]; exact h.table⟩

theorem segmentByte_eq (h : ImageAt m L elfBuff len) (hm : ∀ a ∉ pagesOf L, m'.byte a = m.byte a)
    {header : ElfProgHeader} (hfile : header.off.toNat + header.filesz.toNat ≤ len) (j x : ℕ) :
    segmentByte m' elfBuff header j x = segmentByte m elfBuff header j x := by
  have hsmall := h.small
  rw [show ramSize.toNat = 0x8000000 from rfl] at hsmall
  unfold segmentByte
  dsimp only
  split_ifs with hin
  · refine h.byte_eq hm ?_
    rw [mem_span]
    bv_omega
  · rfl

end ImageAt

/-! ### The number of pages -/

namespace ElfProgHeader

variable {h : ElfProgHeader} {j : ℕ}

/-- A page in front of the end of `memsz` is copied to in full. -/
theorem copied_eq (hj : 4096 * (j + 1) ≤ h.memsz.toNat) : (h.copied j).toNat = 4096 := by
  have hrem : (h.memsz - BitVec.ofNat 64 j * pgSize).toNat = h.memsz.toNat - 4096 * j := by
    rw [pgSize]
    bv_omega
  unfold copied
  dsimp only
  split_ifs with hgt
  · rfl
  · rw [gt_iff_lt, BitVec.lt_def, hrem, show pgSize.toNat = 4096 from rfl] at hgt
    omega

/-- The last page of a segment starts in front of the end of `memsz`. -/
theorem pagesNeed_le (hpages : h.pagesNeed.toNat ≤ 32768) (hmemsz : 0 < h.memsz) :
    4096 * h.pagesNeed.toNat < h.memsz.toNat + 4096 := by
  have hmemsz' : 0 < h.memsz.toNat := by bv_omega
  have hvaddr := h.vaddr.isLt
  have hsize := h.memsz.isLt
  rw [h.pagesNeed_toNat, h.pageNumber_sub_toNat] at hpages ⊢
  generalize hlast : (h.vaddr.toNat + h.memsz.toNat + 2 ^ 64 - 1) % 2 ^ 64 = last at hpages ⊢
  -- the last page is not in front of the first one, since there would be too many
  have hle : h.vaddr.toNat / 4096 ≤ last / 4096 := by
    by_contra hlt
    rw [Nat.mod_eq_of_lt (by omega)] at hpages
    omega
  have hdiff : (last / 4096 + 2 ^ 64 - h.vaddr.toNat / 4096) % 2 ^ 64 =
      last / 4096 - h.vaddr.toNat / 4096 := by
    rw [show last / 4096 + 2 ^ 64 - h.vaddr.toNat / 4096 =
      last / 4096 - h.vaddr.toNat / 4096 + 2 ^ 64 by omega, Nat.add_mod_right]
    exact Nat.mod_eq_of_lt (by omega)
  rw [hdiff]
  by_cases hone : (last / 4096 - h.vaddr.toNat / 4096) / 4096 = 0
  · omega
  · -- with a second page the segment does not wrap around
    have hmore : 4096 ≤ last / 4096 - h.vaddr.toNat / 4096 := by omega
    have hsum : h.vaddr.toNat + h.memsz.toNat - 1 = last := by omega
    omega

/-- When `memsz` ends inside the pages, the last page is not copied to in full. -/
theorem copied_last_lt (hpages : h.pagesNeed.toNat ≤ 32768) (hmemsz : 0 < h.memsz)
    (hlt : h.memsz.toNat < 4096 * h.pagesNeed.toNat) :
    (h.copied (h.pagesNeed.toNat - 1)).toNat < 4096 := by
  have hle := pagesNeed_le hpages hmemsz
  have hrem : (h.memsz - BitVec.ofNat 64 (h.pagesNeed.toNat - 1) * pgSize).toNat =
      h.memsz.toNat - 4096 * (h.pagesNeed.toNat - 1) := by
    rw [pgSize]
    bv_omega
  unfold copied
  dsimp only
  split_ifs with hgt
  · rw [gt_iff_lt, BitVec.lt_def, hrem, show pgSize.toNat = 4096 from rfl] at hgt
    omega
  · rw [hrem]
    omega

theorem mem_places {i : ℕ} {h' : ElfProgHeader} :
    (h', i) ∈ h.places ↔ h' = h ∧ h.type = ELF_PROG_LOAD ∧ i < h.pageCount := by
  unfold places
  split_ifs with htype
  · simp only [List.mem_map, List.mem_range, Prod.mk.injEq, htype, true_and]
    constructor
    · rintro ⟨k, hk, rfl, rfl⟩
      exact ⟨rfl, hk⟩
    · rintro ⟨rfl, hi⟩
      exact ⟨i, hi, rfl, rfl⟩
  · simp [htype]

/-- When there are only so many pages in all, no segment has more, and the loop counts to
`pages_need`. -/
theorem pageCount_of_places {headers : List ElfProgHeader} (hmem : h ∈ headers)
    (htype : h.type = ELF_PROG_LOAD) {n : ℕ} (hlen : (headers.flatMap places).length ≤ n)
    (hn : n < 2 ^ 31) : h.pageCount = h.pagesNeed.toNat ∧ h.pagesNeed.toNat ≤ n := by
  have hplaced : h.places.length = h.pageCount := by
    rw [places, if_pos htype, List.length_map, List.length_range]
  have hle : h.places.length ≤ (headers.map fun h => h.places.length).sum :=
    List.le_sum_of_mem (List.mem_map_of_mem hmem)
  rw [List.length_flatMap] at hlen
  have heq := pageCount_eq (h := h) (by omega)
  omega

end ElfProgHeader

/-! ### The two directions -/

section Load

variable {K : Word} {L : List Word} {s : Pmm} {elfBuff : Word} {len : ℕ} {trapframe : TrapFrame}
  {mappedInfo : MappedInfo} {perm₀ : Word} {m : Mem}

/-- The state of the allocator with some bytes in the free pages, and what a load does to it. -/
theorem Loadable.spec
    (h : Loadable K L s elfBuff len (loadFresh trapframe mappedInfo · perm₀ elfBuff))
    (hm : Refill s L m) :
    ∃ s' g, loadFresh trapframe mappedInfo { s with mem := m } perm₀ elfBuff = .ok s' ∧
      s'.loaded.map LoadedPage.place = (progHeaders s.mem elfBuff).flatMap ElfProgHeader.places ∧
      LoadInv K L m g s' := by
  have hpages : FreePages K L := ⟨h.kernelEnd, h.pool, h.free.nodup⟩
  have hheaders := h.image.progHeaders_eq hm.same
  rw [← hheaders]
  refine loadFresh_spec hpages hm.free (h.image.congr hm.same) (fun header hheader htype => ?_)
    (h.supplied m hm)
  have hheader' : header ∈ progHeaders s.mem elfBuff := hheaders ▸ hheader
  have hsizes := h.sizes header hheader' htype
  have hsmall := h.image.small
  exact ⟨(h.flags header hheader' htype).perm_bounds perm₀, by omega⟩

/-- The pages that a load takes, and what they hold. -/
theorem Loadable.loaded_iff
    (h : Loadable K L s elfBuff len (loadFresh trapframe mappedInfo · perm₀ elfBuff))
    (hm : Refill s L m) :
    ∃ s', loadFresh trapframe mappedInfo { s with mem := m } perm₀ elfBuff = .ok s' ∧
      (∀ header i, (∃ pg ∈ s'.loaded, pg.place = (header, i)) ↔
        header ∈ progHeaders s.mem elfBuff ∧ header.type = ELF_PROG_LOAD ∧
          i < header.pagesNeed.toNat) ∧
      (∀ header ∈ progHeaders s.mem elfBuff, header.type = ELF_PROG_LOAD →
        header.pagesNeed.toNat ≤ 32256) ∧
      ∀ pg ∈ s'.loaded, pg.dest ∈ L ∧ ∀ x < 4096,
        s'.pmm.mem.byte (pg.dest + BitVec.ofNat 64 x) = m.byte (pg.source x) := by
  obtain ⟨s', g, heq, hplaces, hinv⟩ := h.spec hm
  have hpages : FreePages K L := ⟨h.kernelEnd, h.pool, h.free.nodup⟩
  have hmany : ∀ header ∈ progHeaders s.mem elfBuff, header.type = ELF_PROG_LOAD →
      header.pageCount = header.pagesNeed.toNat ∧ header.pagesNeed.toNat ≤ 32256 := by
    intro header hheader htype
    have hcount := hinv.count
    have hle := hpages.length_le
    refine ElfProgHeader.pageCount_of_places hheader htype ?_ (by norm_num)
    rw [← hplaces, List.length_map]
    omega
  refine ⟨s', heq, fun header i => ?_, fun header hheader htype => (hmany _ hheader htype).2,
    fun pg hpg => ?_⟩
  · rw [← List.mem_map, hplaces, List.mem_flatMap]
    constructor
    · rintro ⟨header', hmem, hi⟩
      obtain ⟨rfl, htype, hi⟩ := ElfProgHeader.mem_places.1 hi
      exact ⟨hmem, htype, hi.trans_eq (hmany _ hmem htype).1⟩
    · rintro ⟨hmem, htype, hi⟩
      exact ⟨header, hmem, ElfProgHeader.mem_places.2
        ⟨rfl, htype, hi.trans_eq (hmany _ hmem htype).1.symm⟩⟩
  · obtain ⟨hdest, -, hbytes⟩ := hinv.pages pg hpg
    exact ⟨hdest, hbytes⟩

theorem Refill.refl (hs : FreeList s L) : Refill s L s.mem := ⟨hs, fun _ _ => rfl⟩

/-- The memory with `v` in the last byte of every free page. -/
def lastBytes (s : Pmm) (L : List Word) (v : Byte) : Mem :=
  ⟨fun a => if L.any fun p => p + 4095 == a then v else s.mem.byte a, []⟩

theorem lastBytes_byte (s : Pmm) (L : List Word) (v : Byte) (a : Word) :
    (lastBytes s L v).byte a = bif L.any fun p => p + 4095 == a then v else s.mem.byte a := by
  rw [cond_eq_ite]
  rfl

theorem lastBytes_last {p : Word} (hp : p ∈ L) (v : Byte) :
    (lastBytes s L v).byte (p + 4095) = v := by
  have hany : (L.any fun q => q + 4095 == p + 4095) = true :=
    List.any_eq_true.2 ⟨p, hp, beq_self_eq_true _⟩
  rw [lastBytes_byte, hany]
  rfl

theorem refill_lastBytes (hs : FreeList s L) (hL : ∀ p ∈ L, PageAligned p) (v : Byte) :
    Refill s L (lastBytes s L v) := by
  have hsame : ∀ a, (¬ ∃ p ∈ L, p + 4095 = a) → (lastBytes s L v).byte a = s.mem.byte a :=
    fun a ha => by
      have hany : (L.any fun p => p + 4095 == a) = false := by simpa using ha
      rw [lastBytes_byte, hany]
      rfl
  refine ⟨?_, fun a ha => hsame a fun hmem => ha ?_⟩
  · -- the links are in the first eight bytes
    refine Chain.Linked.congr (show Chain.Linked s.mem.load64 0 s.freePagesList L from hs) ?_
    refine fun q hq => Mem.load64_congr fun b hb => hsame b fun hmem => ?_
    obtain ⟨p, hp, rfl⟩ := hmem
    have halq := hL q hq
    have halp := hL p hp
    unfold PageAligned at halq halp
    rw [mem_span] at hb
    bv_omega
  · obtain ⟨p, hp, rfl⟩ := hmem
    exact ⟨p, hp, offset_mem_page (x := 4095) (by omega)⟩

/-- The source of a byte that is copied. -/
theorem source_eq {pg : LoadedPage} {x : ℕ} (hx : x < (pg.header.copied pg.index).toNat) :
    pg.source x = pg.header.off + BitVec.ofNat 64 (4096 * pg.index + x) := by
  rw [LoadedPage.source, if_pos hx, BitVec.ofNat_add, BitVec.ofNat_mul, ← BitVec.add_assoc,
    BitVec.mul_comm]
  rfl

/-- The sources are in no free page. -/
theorem Loadable.source_notMem
    (h : Loadable K L s elfBuff len (loadFresh trapframe mappedInfo · perm₀ elfBuff))
    {header : ElfProgHeader} (hheader : header ∈ progHeaders s.mem elfBuff)
    (htype : header.type = ELF_PROG_LOAD) {j x : ℕ} (hj : j < 32256) (hx : x < 4096) :
    header.off + BitVec.ofNat 64 (4096 * j + x) ∉ pagesOf L := by
  have hpages : FreePages K L := ⟨h.kernelEnd, h.pool, h.free.nodup⟩
  have hsizes := h.sizes header hheader htype
  have hsmall := h.image.small
  rw [show ramSize.toNat = 0x8000000 from rfl] at hsmall
  refine hpages.notMem_pagesOf ?_
  bv_omega

/-- When the mistakes make no difference the pages are right. -/
theorem Loadable.right_of_source
    (h : Loadable K L s elfBuff len (loadFresh trapframe mappedInfo · perm₀ elfBuff))
    (hsource : SourceRight s.mem elfBuff) (hm : Refill s L m) :
    SegmentsRight m elfBuff (loadFresh trapframe mappedInfo { s with mem := m } perm₀ elfBuff) := by
  obtain ⟨s', heq, hplaces, hmany, hbytes⟩ := h.loaded_iff hm
  refine ⟨s', heq, fun pg hpg x hx => ?_⟩
  obtain ⟨hheader, htype, hi⟩ := (hplaces pg.header pg.index).1 ⟨pg, hpg, rfl⟩
  obtain ⟨hfull, hright⟩ := hsource _ hheader htype
  have hcopied := ElfProgHeader.copied_eq (h := pg.header) (j := pg.index) (by omega)
  have hfile := (h.sizes _ hheader htype).2.2
  have hlt := lt_of_lt_of_le hi (hmany _ hheader htype)
  rw [(hbytes pg hpg).2 x hx, source_eq (by omega),
    hm.same _ (h.source_notMem hheader htype hlt hx), hright _ hi x hx,
    h.image.segmentByte_eq hm.same hfile]

/-- When the pages are right whatever the free pages held, the mistakes make no difference. -/
theorem Loadable.source_of_right
    (h : Loadable K L s elfBuff len (loadFresh trapframe mappedInfo · perm₀ elfBuff))
    (hright : ∀ m, Refill s L m →
      SegmentsRight m elfBuff (loadFresh trapframe mappedInfo { s with mem := m } perm₀ elfBuff)) :
    SourceRight s.mem elfBuff := by
  intro header hheader htype
  obtain ⟨-, hmemsz, hfile⟩ := h.sizes header hheader htype
  -- what the load leaves in the `j`-th page
  have hpage : ∀ m, Refill s L m → ∀ j < header.pagesNeed.toNat, ∃ dest ret, dest ∈ L ∧
      ∀ x < 4096, m.byte (LoadedPage.source ⟨header, j, dest, ret⟩ x) =
        segmentByte s.mem elfBuff header j x := by
    intro m hm j hj
    obtain ⟨s', heq, hplaces, -, hbytes⟩ := h.loaded_iff hm
    obtain ⟨s'', heq', hall⟩ := hright m hm
    obtain rfl := Except.ok.inj (heq.symm.trans heq')
    obtain ⟨⟨header', j', dest, ret⟩, hpg, hplace⟩ := (hplaces header j).2 ⟨hheader, htype, hj⟩
    obtain ⟨rfl, rfl⟩ := Prod.mk.inj hplace
    refine ⟨dest, ret, (hbytes _ hpg).1, fun x hx => ?_⟩
    rw [← (hbytes _ hpg).2 x hx, hall _ hpg x hx, h.image.segmentByte_eq hm.same hfile]
  obtain ⟨s', -, -, hmany, -⟩ := h.loaded_iff (Refill.refl h.free)
  have hle := hmany header hheader htype
  have hfull : 4096 * header.pagesNeed.toNat ≤ header.memsz.toNat := by
    by_contra hlt
    -- the last byte of the last page is what the free page held
    have hshort := ElfProgHeader.copied_last_lt (by omega) hmemsz (by omega)
    set j := header.pagesNeed.toNat - 1 with hj
    set v := segmentByte s.mem elfBuff header j 4095
    obtain ⟨dest, ret, hdest, hbytes⟩ := hpage _
      (refill_lastBytes h.free (fun p hp => (h.pool p hp).1) (v + 1)) j (by omega)
    have hlast := hbytes 4095 (by omega)
    rw [LoadedPage.source, if_neg (by dsimp only; omega)] at hlast
    have hne : v + 1 = v := (lastBytes_last hdest (v + 1)).symm.trans hlast
    bv_omega
  refine ⟨hfull, fun j hj x hx => ?_⟩
  obtain ⟨dest, ret, -, hbytes⟩ := hpage s.mem (Refill.refl h.free) j hj
  have hcopied := ElfProgHeader.copied_eq (h := header) (j := j) (by omega)
  rw [← hbytes x hx, source_eq (by dsimp only; omega)]

end Load

/-- **Segments are loaded right only by accident.**  For a well-formed image and enough free pages,
every page that the loader takes holds the bytes of its segment, whatever the free pages held, if
and only if every page is copied to in full and the memory at the file offset, taken as an address,
holds these bytes. -/
theorem segments_right_iff {K : Word} {L : List Word} {s : Pmm} {elfBuff : Word} {len : ℕ}
    {trapframe : TrapFrame} {mappedInfo : MappedInfo} {perm₀ : Word}
    (h : Loadable K L s elfBuff len (loadFresh trapframe mappedInfo · perm₀ elfBuff)) :
    (∀ m, Refill s L m →
      SegmentsRight m elfBuff (loadFresh trapframe mappedInfo { s with mem := m } perm₀ elfBuff)) ↔
    SourceRight s.mem elfBuff :=
  ⟨h.source_of_right, fun hsource _ hm => h.right_of_source hsource hm⟩

/-! ### An image with one page of code -/

/-- An image at `0x80100000`, with a page of code that begins with the byte `0x13` and belongs at
`0x10000`. -/
def sampleImage : Mem :=
  let m := Mem.zero.store32 0x80100000 ELF_MAGIC
  let m := m.store64 (0x80100000 + 24) 0x10000
  let m := m.store64 (0x80100000 + 32) 64
  let m := m.store16 (0x80100000 + 56) 1
  let m := m.store32 (0x80100000 + 64) ELF_PROG_LOAD
  let m := m.store32 (0x80100000 + 68) (SEGMENT_READABLE ||| SEGMENT_EXECUTABLE)
  let m := m.store64 (0x80100000 + 72) 0x1000
  let m := m.store64 (0x80100000 + 80) 0x10000
  let m := m.store64 (0x80100000 + 96) 4096
  let m := m.store64 (0x80100000 + 104) 4096
  m.store8 (0x80100000 + 0x1000) 0x13

/-- Four free pages. -/
def samplePages : List Word := [0x80300000, 0x80301000, 0x80302000, 0x80303000]

def samplePmm : Pmm where
  mem := ((sampleImage.store64 0x80300000 0x80301000).store64 0x80301000 0x80302000).store64
    0x80302000 0x80303000
  freePagesList := 0x80300000
  denied := 0
  nullMem := none

def sampleSegment : ElfProgHeader where
  type := ELF_PROG_LOAD
  flags := SEGMENT_READABLE ||| SEGMENT_EXECUTABLE
  off := 0x1000
  vaddr := 0x10000
  filesz := 4096
  memsz := 4096

theorem samplePmm_header :
    ElfHeader.read samplePmm.mem 0x80100000 = ⟨ELF_MAGIC, 0x10000, 64, 1⟩ := by
  simp only [ElfHeader.read, ElfHeader.mk.injEq]
  decide +kernel

theorem samplePmm_progHeaders : progHeaders samplePmm.mem 0x80100000 = [sampleSegment] := by
  rw [progHeaders, samplePmm_header]
  decide +kernel

theorem samplePmm_freeList : FreeList samplePmm samplePages := by decide +kernel

theorem samplePages_pool : ∀ p ∈ samplePages, PoolPage kernelBegin p := by
  intro p hp
  simp only [samplePages, List.mem_cons, List.not_mem_nil, or_false] at hp
  rcases hp with rfl | rfl | rfl | rfl <;> exact ⟨by decide, by decide, by decide⟩

theorem samplePages_le : ∀ p ∈ samplePages, 0x80300000 ≤ p := by
  intro p hp
  simp only [samplePages, List.mem_cons, List.not_mem_nil, or_false] at hp
  rcases hp with rfl | rfl | rfl | rfl <;> decide

theorem samplePmm_image : ImageAt samplePmm.mem samplePages 0x80100000 0x2000 := by
  refine ⟨?_, ?_, by norm_num [ElfHeader.size], ?_⟩
  · rw [show ramSize.toNat = 0x8000000 from rfl]
    norm_num
  · rw [Set.disjoint_left]
    rintro a ha ⟨p, hp, hap⟩
    have hge := samplePages_le p hp
    have hlt := (samplePages_pool p hp).toNat_lt
    rw [mem_span] at ha
    rw [page, mem_span] at hap
    bv_omega
  · rw [samplePmm_header]
    decide

theorem samplePmm_loadable (trapframe : TrapFrame) (mappedInfo : MappedInfo) (perm₀ : Word) :
    Loadable kernelBegin samplePages samplePmm 0x80100000 0x2000
      (loadFresh trapframe mappedInfo · perm₀ 0x80100000) := by
  have hpages : FreePages kernelBegin samplePages :=
    ⟨kernelEnd_kernelBegin, samplePages_pool, samplePmm_freeList.nodup⟩
  have hflags : sampleSegment.ValidFlags := Or.inl rfl
  refine ⟨kernelEnd_kernelBegin, samplePages_pool, samplePmm_freeList, samplePmm_image, ?_, ?_,
    ?_, ?_, fun m hm => ?_⟩
  · rw [samplePmm_header]
  · rw [samplePmm_header]
    decide +kernel
  · rw [samplePmm_progHeaders]
    intro h hh _
    rw [List.mem_singleton.1 hh]
    exact hflags
  · rw [samplePmm_progHeaders]
    intro h hh _
    rw [List.mem_singleton.1 hh]
    decide +kernel
  · have hheaders := (samplePmm_image.progHeaders_eq hm.same).trans samplePmm_progHeaders
    refine loadFresh_supplied hpages hm.free (samplePmm_image.congr hm.same) ?_ ?_
    · rw [hheaders]
      intro h hh _
      rw [List.mem_singleton.1 hh]
      exact ⟨hflags.perm_bounds perm₀, by decide +kernel⟩
    · rw [hheaders]
      decide +kernel

theorem samplePmm_not_sourceRight : ¬ SourceRight samplePmm.mem 0x80100000 := by
  intro h
  have hseg := h sampleSegment (by rw [samplePmm_progHeaders]; exact List.mem_singleton_self _) rfl
  have hbyte := hseg.2 0 (by decide +kernel) 0 (by decide +kernel)
  revert hbyte
  decide +kernel

theorem segments_right_iff_sample :
    (∀ m, Refill samplePmm samplePages m → SegmentsRight m 0x80100000
      (loadFresh ⟨0⟩ ⟨0, 0, 0, 0, 0⟩ { samplePmm with mem := m } 0 0x80100000)) ↔
    SourceRight samplePmm.mem 0x80100000 :=
  segments_right_iff (samplePmm_loadable ⟨0⟩ ⟨0, 0, 0, 0, 0⟩ 0)

/-- The page of code is not loaded: the loader copies the bytes from the address `0x1000` on. -/
theorem code_page_not_loaded :
    Loadable kernelBegin samplePages samplePmm 0x80100000 0x2000
        (loadFresh ⟨0⟩ ⟨0, 0, 0, 0, 0⟩ · 0 0x80100000) ∧
      ¬ ∀ m, Refill samplePmm samplePages m → SegmentsRight m 0x80100000
        (loadFresh ⟨0⟩ ⟨0, 0, 0, 0, 0⟩ { samplePmm with mem := m } 0 0x80100000) :=
  ⟨samplePmm_loadable ⟨0⟩ ⟨0, 0, 0, 0, 0⟩ 0, fun hright =>
    samplePmm_not_sourceRight ((samplePmm_loadable ⟨0⟩ ⟨0, 0, 0, 0, 0⟩ 0).source_of_right hright)⟩

end HxcOS
