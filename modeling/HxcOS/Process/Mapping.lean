import HxcOS.Process.Arithmetic
import HxcOS.Process.Frame
import HxcOS.Process.Segments

/-!
# The pages that the loader maps

The loader maps the `j`-th page of a segment at the address `va_stt + j * PGSIZE`, but `va_stt` is
the number of a page and not its address.  What it takes as the number of pages is off by the same
factor.  `MapInv` describes the leaf entries of the table of a process that was fresh before the
load: for each key, the entry is that of the first page that was taken for it, and `add` has failed
for the others.
-/

namespace HxcOS

open ByteMem Radix

/-- The address at which the `j`-th page of a segment is mapped. -/
def ElfProgHeader.pageAddr (h : ElfProgHeader) (j : ℕ) : Word :=
  pageNumber h.vaddr + BitVec.ofNat 64 j * pgSize

/-- The key under which a page was added. -/
def LoadedPage.key (pg : LoadedPage) : Key := HxcOS.key (pg.header.pageAddr pg.index)

/-- The leaf entries and the pages of a load under way. -/
structure MapInv (t : ℕ) (k : Kernel) (perm₀ : Word) (M : List Word) (g : Ghost)
    (s : LoadState) : Prop where
  leaf : ∀ va, Kernel.leaf { k with pmm := s.pmm } t va =
    (s.loaded.find? fun pg => pg.key = key va).map
      fun pg => .new pg.dest (pg.header.perm perm₀)
  rets : (∀ pg ∈ s.loaded, pg.ret = 0) ↔ (s.loaded.map LoadedPage.key).Nodup
  nodup : (s.loaded.map LoadedPage.dest).Nodup
  dests : ∀ p, p ∈ s.loaded.map LoadedPage.dest ↔ p ∈ M ∧ g.own p = .held

theorem MapInv.init {t : ℕ} {k : Kernel} {perm₀ : Word} {g : Ghost} {p : Process}
    (h : ∀ va, k.leaf t va = none) : MapInv t k perm₀ [] g ⟨k.pmm, p, []⟩ :=
  ⟨h, by simp, by simp, by simp⟩

/-- There is an entry for the keys of the pages taken. -/
theorem MapInv.leaf_isSome_iff {t : ℕ} {k : Kernel} {perm₀ : Word} {M : List Word} {g : Ghost}
    {s : LoadState} (h : MapInv t k perm₀ M g s) (va : Word) :
    (Kernel.leaf { k with pmm := s.pmm } t va).isSome ↔ key va ∈ s.loaded.map LoadedPage.key := by
  rw [h.leaf, Option.isSome_map, List.find?_isSome]
  simp

/-- The entry for a page of a segment is valid. -/
theorem ElfProgHeader.ValidFlags.ifValid_new {header : ElfProgHeader} (hflags : header.ValidFlags)
    (perm₀ p : Word) : (PageTableEntry.new p (header.perm perm₀)).ifValid =
      some (.new p (header.perm perm₀)) := by
  obtain ⟨hlt, hodd⟩ := hflags.perm_bounds perm₀
  exact if_pos (PageTableEntry.isValid_new hlt hodd)

/-- Another page. -/
theorem mapInv_kept {K : Word} {t : ℕ} {g₀ : Ghost} {k : Kernel} {header : ElfProgHeader}
    (hflags : header.ValidFlags) (perm₀ : Word) :
    KeptByPage K t g₀ k header (header.perm perm₀) (MapInv t k perm₀) := by
  intro M g s j p M' g' pmm h hs hpage
  have hpfree : g.own p = .free := (h.nodes.free_iff p).1 (by
    rw [hpage.free]
    simp)
  have hvalid := hflags.ifValid_new perm₀ p
  have hpnot : p ∉ s.loaded.map LoadedPage.dest := by
    rw [hs.dests, hpfree]
    simp
  set va := header.pageAddr j with hva
  set ret : ℤ := if (Kernel.leaf { k with pmm := s.pmm } t va).isSome then -1 else 0 with hret
  have hisSome : ret = 0 ↔ key va ∉ s.loaded.map LoadedPage.key := by
    rw [hret, ← hs.leaf_isSome_iff]
    split_ifs with hsome <;> simp [hsome]
  constructor
  · intro vb
    refine (hpage.leaf t vb).trans ?_
    change (if t = t ∧ key vb = key va then _ else _) = _
    rw [List.find?_append, Option.map_or, ← hs.leaf vb]
    by_cases hkey : key vb = key va
    · -- the entry of the page is the last one that can be found
      have hsame : Kernel.leaf { k with pmm := s.pmm } t vb =
          Kernel.leaf { k with pmm := s.pmm } t va := by rw [hs.leaf, hs.leaf, hkey]
      rw [if_pos ⟨rfl, hkey⟩, hvalid, hsame, List.find?_singleton, LoadedPage.key, ← hva,
        if_pos (by simp [hkey])]
      rfl
    · rw [if_neg fun h => hkey h.2, List.find?_singleton, LoadedPage.key, ← hva,
        if_neg (by simpa using fun h => hkey h.symm), Option.map_none, Option.or_none]
  · rw [List.map_append, List.map_singleton, List.nodup_append, ← hs.rets]
    simp only [List.forall_mem_append, List.forall_mem_singleton, List.nodup_singleton, true_and]
    refine and_congr_right fun _ => hisSome.trans ⟨fun hnot q hq hr => ?_, fun hne hmem => ?_⟩
    · change q = key va at hr
      exact hnot (hr ▸ hq)
    · exact hne _ hmem rfl
  · rw [List.map_append, List.map_singleton, List.nodup_append]
    refine ⟨hs.nodup, List.nodup_singleton _, fun q hq r hr => ?_⟩
    obtain rfl := List.mem_singleton.1 hr
    rintro rfl
    exact hpnot hq
  · intro q
    rw [List.map_append, List.map_singleton, List.mem_append, List.mem_singleton, hs.dests,
      List.mem_append, List.mem_cons]
    constructor
    · rintro (⟨hqM, hq⟩ | rfl)
      · obtain ⟨hqp, hqM'⟩ := hpage.ne_of_own h.nodes (q := q) (by rw [hq]; simp)
        exact ⟨Or.inl hqM, (hpage.kept q hqp hqM').trans hq⟩
      · exact ⟨Or.inr (Or.inl rfl), hpage.held⟩
    · rintro ⟨hqM | rfl | hqM, hq⟩
      · obtain ⟨hqp, hqM'⟩ := hpage.ne_of_own h.nodes (q := q) (by
          rcases h.taken q hqM with hrole | ⟨π, hrole⟩ <;> rw [hrole] <;> simp)
        exact Or.inl ⟨hqM, (hpage.kept q hqp hqM').symm.trans hq⟩
      · exact Or.inr rfl
      · obtain ⟨π, hπ⟩ := hpage.made q hqM
        rw [hπ] at hq
        cases hq

/-! ### A load of a fresh process -/

section Fresh

variable {K : Word} {L : List Word} {s : Pmm} {elfBuff perm₀ : Word} {len : ℕ}
  {trapframe : TrapFrame} {mappedInfo : MappedInfo}

/-- After the constructor there is a table with a root and nothing else. -/
theorem nodes_new (hL : FreePages K L) (hs : FreeList s L) (trapframe : TrapFrame)
    (mappedInfo : MappedInfo)
    (hsup : (Process.new trapframe mappedInfo s).2.denied = s.denied) :
    let p := (Process.new trapframe mappedInfo s).1
    let k : Kernel := ⟨(Process.new trapframe mappedInfo s).2, [p.pageTable], ∅, fun _ _ => none⟩
    ∃ root g, L = root :: g.free ∧ Nodes K g k ∧ g.own root = .inTable 0 [] ∧
      (∀ q t π, g.own q = .inTable t π → q = root) ∧ (∀ va, k.leaf 0 va = none) ∧
      Wrote (page root) s.mem k.pmm.mem := by
  obtain ⟨held, howned⟩ := hL.owned hs
  obtain ⟨root, L', rfl⟩ := FreeList.eq_root_cons hs hsup
  obtain ⟨hnew, hw, -⟩ := howned.newTable rfl
  obtain ⟨-, hnodes, hleaf⟩ := howned.nodes.newTable rfl
  rw [← hnew] at hnodes hleaf
  refine ⟨root, _, rfl, hnodes.of_eq rfl rfl rfl, Function.update_self .., fun q t π hq => ?_,
    fun va => (Kernel.leaf_of_eq rfl rfl 0 va).trans ((hleaf 0 va).trans (Kernel.leaf_none rfl)),
    hw⟩
  by_contra hqroot
  dsimp only at hq
  rw [Function.update_of_ne hqroot, Ghost.leavesHeld_inTable] at hq
  dsimp only at hq
  split_ifs at hq <;> cases hq.1

/-- The load will read the headers of the image, which are apart from what it may store to. -/
theorem nodes_new_image (hL : FreePages K L) (hs : FreeList s L)
    (hat : ImageAt s.mem L elfBuff len) (trapframe : TrapFrame) (mappedInfo : MappedInfo)
    (hsup : (Process.new trapframe mappedInfo s).2.denied = s.denied) :
    let p := (Process.new trapframe mappedInfo s).1
    let k : Kernel := ⟨(Process.new trapframe mappedInfo s).2, [p.pageTable], ∅, fun _ _ => none⟩
    ∃ root g, L = root :: g.free ∧ Nodes K g k ∧ g.own root = .inTable 0 [] ∧
      (∀ va, k.leaf 0 va = none) ∧
      (∀ a ∈ programHeaderAddrs k.pmm.mem elfBuff,
        Disjoint (span a ElfProgHeader.size) (pagesOf g.free ∪ g.tableBytes 0)) ∧
      segmentHeaders k.pmm.mem elfBuff = progHeaders s.mem elfBuff := by
  intro p k
  obtain ⟨root, g, hfree, hnodes, hroot, honly, hleaf, hw⟩ :=
    nodes_new hL hs trapframe mappedInfo hsup
  have hrootL : root ∈ L := by
    rw [hfree]
    exact List.mem_cons_self
  -- the constructor and the load store to pages of the free list
  have hout : pagesOf g.free ∪ g.tableBytes 0 ⊆ pagesOf L := by
    rintro a (ha | ⟨q, π, hq, ha⟩)
    · exact pagesOf_mono (by rw [hfree]; exact List.subset_cons_self _ _) ha
    · rw [honly q 0 π hq] at ha
      exact ⟨root, hrootL, ha⟩
  have hsame : ∀ a ∉ pagesOf L, k.pmm.mem.byte a = s.mem.byte a :=
    fun a ha => hw.byte_eq fun ha' => ha ⟨root, hrootL, ha'⟩
  have hat' := hat.congr hsame
  refine ⟨root, g, hfree, hnodes, hroot, hleaf, fun a ha => ?_,
    hat'.segmentHeaders_eq.trans (hat.progHeaders_eq hsame)⟩
  exact (hat'.outside.mono_left (hat'.span_header_subset a ha)).mono_right hout

/-- A load of a fresh process that gets its pages: `M` are the pages that it took. -/
structure FreshLoaded (K : Word) (L : List Word) (k : Kernel) (perm₀ : Word)
    (headers : List ElfProgHeader) (root : Word) (M : List Word) (g : Ghost) (s : LoadState) :
    Prop where
  nodes : Nodes K g { k with pmm := s.pmm }
  table : k.tables = [s.process.pageTable]
  map : MapInv 0 k perm₀ M g s
  places : s.loaded.map LoadedPage.place = headers.flatMap ElfProgHeader.places
  free : L = root :: M ++ g.free
  flags : ∀ h ∈ headers, h.type = ELF_PROG_LOAD → h.ValidFlags
  root : g.own root = .inTable 0 []
  taken : ∀ p ∈ M, g.own p = .held ∨ ∃ π, g.own p = .inTable 0 π

theorem loadFresh_mapped (hL : FreePages K L) (hs : FreeList s L) (hat : ImageAt s.mem L elfBuff len)
    (hflags : ∀ h ∈ progHeaders s.mem elfBuff, h.type = ELF_PROG_LOAD → h.ValidFlags)
    (hsup : failures (loadFresh trapframe mappedInfo s perm₀ elfBuff) = s.denied) :
    ∃ s' k root M g, loadFresh trapframe mappedInfo s perm₀ elfBuff = .ok s' ∧
      FreshLoaded K L k perm₀ (progHeaders s.mem elfBuff) root M g s' := by
  have hnew := denied_new_of_loadFresh hsup
  obtain ⟨root, g₀, hfree, hnodes, hroot, hleaf, hapart, hheaders⟩ :=
    nodes_new_image hL hs hat trapframe mappedInfo hnew
  set p := (Process.new trapframe mappedInfo s).1 with hp
  set k : Kernel := ⟨(Process.new trapframe mappedInfo s).2, [p.pageTable], ∅, fun _ _ => none⟩
    with hk
  obtain ⟨s', M, g, hload, hframe, hmap, hread⟩ :=
    FrameInv.loadFromElf_apart (I := MapInv 0 k perm₀) hL.kernelEnd hnodes p rfl perm₀ elfBuff hapart
      (hsup.trans hnew.symm) (fun _ _ _ _ h => ⟨h.leaf, h.rets, h.nodup, h.dests⟩)
      (by
        rw [hheaders]
        exact fun header hheader htype => mapInv_kept (hflags header hheader htype) perm₀)
      (MapInv.init hleaf)
  have hplaces := (Process.of_loadFromElf hload).2
  rw [hread, hheaders] at hplaces
  refine ⟨s', k, root, M, g, hload, hframe.nodes, ?_, hmap, hplaces, ?_, hflags, ?_,
    hframe.taken⟩
  · have htable := hframe.table
    rw [hk] at htable ⊢
    exact congrArg (fun tbl => [tbl]) (Option.some.inj htable)
  · rw [hfree, hframe.free, List.cons_append]
  · have hnodup := hs.nodup
    rw [hfree, hframe.free, List.nodup_cons, List.mem_append, not_or] at hnodup
    rw [hframe.kept root hnodup.1.1, hroot]

end Fresh

/-! ### The keys of the pages of a segment -/

namespace ElfProgHeader

/-- The numbers of the first page and of the last page of a segment. -/
def firstPage (h : ElfProgHeader) : ℕ := h.vaddr.toNat / 4096
def lastPage (h : ElfProgHeader) : ℕ := (h.vaddr.toNat + h.memsz.toNat - 1) / 4096

/-- The page with number `v` has a byte of the segment. -/
def Touches (h : ElfProgHeader) (v : ℕ) : Prop :=
  ∃ a, h.vaddr.toNat ≤ a ∧ a < h.vaddr.toNat + h.memsz.toNat ∧ a / 4096 = v

/-- The segment has a byte, and does not wrap around. -/
def Sized (h : ElfProgHeader) : Prop :=
  0 < h.memsz.toNat ∧ h.vaddr.toNat + h.memsz.toNat < 2 ^ 64

variable {h h' : ElfProgHeader}

theorem Sized.touches_iff (hsized : h.Sized) {v : ℕ} :
    h.Touches v ↔ h.firstPage ≤ v ∧ v ≤ h.lastPage := by
  obtain ⟨hpos, -⟩ := hsized
  unfold Touches firstPage lastPage
  constructor
  · rintro ⟨a, hle, hlt, rfl⟩
    omega
  · rintro ⟨hle, hle'⟩
    by_cases hfirst : v = h.vaddr.toNat / 4096
    · exact ⟨h.vaddr.toNat, le_rfl, by omega, hfirst.symm⟩
    · exact ⟨4096 * v, by omega, by omega, by omega⟩

theorem Sized.pagesNeed_toNat (hsized : h.Sized) :
    h.pagesNeed.toNat = (h.lastPage - h.firstPage) / 4096 + 1 := by
  obtain ⟨hpos, hlt⟩ := hsized
  rw [ElfProgHeader.pagesNeed_toNat, pageNumber_sub_toNat, lastPage, firstPage]
  omega

/-- The `j`-th page is `j` pages behind the address `va_stt`. -/
theorem key_pageAddr (h : ElfProgHeader) (j : ℕ) :
    (HxcOS.key (h.pageAddr j)).toNat = (h.firstPage / 4096 + j) % 2 ^ 27 := by
  have hstt : (pageNumber h.vaddr).toNat = h.firstPage := by
    rw [pageNumber, BitVec.toNat_ushiftRight, Nat.shiftRight_eq_div_pow, firstPage]
  rw [HxcOS.key, BitVec.extractLsb'_toNat, Nat.shiftRight_eq_div_pow, pageAddr, BitVec.toNat_add,
    BitVec.toNat_mul, BitVec.toNat_ofNat, hstt, show pgSize.toNat = 4096 from rfl]
  omega

/-- The keys of the pages of a segment. -/
def keys (h : ElfProgHeader) : List Key := h.places.map fun x => HxcOS.key (x.1.pageAddr x.2)

theorem mem_keys {κ : Key} : κ ∈ h.keys ↔
    h.type = ELF_PROG_LOAD ∧ ∃ j < h.pageCount, HxcOS.key (h.pageAddr j) = κ := by
  unfold keys places
  split_ifs with htype <;> simp [htype]

theorem nodup_keys (hfew : h.pageCount ≤ 2 ^ 27) : h.keys.Nodup := by
  unfold keys places
  split_ifs
  · rw [List.map_map]
    refine List.nodup_range.map_on fun i hi j hj heq => ?_
    rw [List.mem_range] at hi hj
    have heq' := congrArg BitVec.toNat heq
    rw [Function.comp_apply, Function.comp_apply, key_pageAddr, key_pageAddr] at heq'
    dsimp only at heq'
    omega
  · exact List.nodup_nil

/-- No page of one segment has the key of a page of the other. -/
def KeysApart (h h' : ElfProgHeader) : Prop :=
  ∀ j ≤ (h.lastPage - h.firstPage) / 4096, ∀ j' ≤ (h'.lastPage - h'.firstPage) / 4096,
    (h.firstPage / 4096 + j) % 2 ^ 27 ≠ (h'.firstPage / 4096 + j') % 2 ^ 27

theorem keys_disjoint_iff
    (hcount : h.type = ELF_PROG_LOAD → h.pageCount = (h.lastPage - h.firstPage) / 4096 + 1)
    (hcount' : h'.type = ELF_PROG_LOAD → h'.pageCount = (h'.lastPage - h'.firstPage) / 4096 + 1) :
    h.keys.Disjoint h'.keys ↔
      (h.type = ELF_PROG_LOAD → h'.type = ELF_PROG_LOAD → h.KeysApart h') := by
  constructor
  · intro hdisj htype htype' j hj j' hj' heq
    refine hdisj (mem_keys.2 ⟨htype, j, ?_, rfl⟩) (mem_keys.2 ⟨htype', j', ?_, ?_⟩)
    · rw [hcount htype]
      omega
    · rw [hcount' htype']
      omega
    · apply BitVec.eq_of_toNat_eq
      rw [key_pageAddr, key_pageAddr, heq]
  · intro hapart κ hκ hκ'
    obtain ⟨htype, j, hj, rfl⟩ := mem_keys.1 hκ
    obtain ⟨htype', j', hj', heq⟩ := mem_keys.1 hκ'
    rw [hcount htype] at hj
    rw [hcount' htype'] at hj'
    refine hapart htype htype' j (by omega) j' (by omega) ?_
    rw [← key_pageAddr, ← key_pageAddr, heq]

end ElfProgHeader

namespace FreshLoaded

variable {K : Word} {L : List Word} {k : Kernel} {perm₀ : Word} {headers : List ElfProgHeader}
  {root : Word} {M : List Word} {g : Ghost} {s : LoadState}

theorem keys_eq (h : FreshLoaded K L k perm₀ headers root M g s) :
    s.loaded.map LoadedPage.key = headers.flatMap ElfProgHeader.keys := by
  have hplaces := congrArg (List.map fun x : ElfProgHeader × ℕ => key (x.1.pageAddr x.2)) h.places
  rw [List.map_map, List.map_flatMap] at hplaces
  exact hplaces

/-- The pages loaded are pages of the free list, and each is taken once. -/
theorem length_loaded_le (h : FreshLoaded K L k perm₀ headers root M g s) :
    s.loaded.length ≤ L.length := by
  have hsub : s.loaded.map LoadedPage.dest ⊆ L := by
    intro p hp
    rw [h.free, List.cons_append]
    exact List.mem_cons_of_mem _ (List.mem_append_left _ ((h.map.dests p).1 hp).1)
  simpa using (h.map.nodup.subperm hsub).length_le

/-- No segment has more pages than there are. -/
theorem pageCount_eq (h : FreshLoaded K L k perm₀ headers root M g s) (hL : FreePages K L)
    {header : ElfProgHeader} (hheader : header ∈ headers) (htype : header.type = ELF_PROG_LOAD) :
    header.pageCount = header.pagesNeed.toNat ∧ header.pagesNeed.toNat ≤ 32256 := by
  refine ElfProgHeader.pageCount_of_places hheader htype ?_ (by norm_num)
  rw [← h.places, List.length_map]
  exact h.length_loaded_le.trans hL.length_le

/-- No call of `add` fails if and only if no key is used twice. -/
theorem rets_iff (h : FreshLoaded K L k perm₀ headers root M g s) (hL : FreePages K L)
    (hsized : ∀ header ∈ headers, header.type = ELF_PROG_LOAD → header.Sized) :
    (∀ pg ∈ s.loaded, pg.ret = 0) ↔ headers.Pairwise fun h h' =>
      h.type = ELF_PROG_LOAD → h'.type = ELF_PROG_LOAD → h.KeysApart h' := by
  have hcount : ∀ header ∈ headers, header.type = ELF_PROG_LOAD →
      header.pageCount = (header.lastPage - header.firstPage) / 4096 + 1 :=
    fun header hheader htype => (h.pageCount_eq hL hheader htype).1.trans
      (hsized header hheader htype).pagesNeed_toNat
  rw [h.map.rets, h.keys_eq, List.nodup_flatMap]
  refine (and_iff_right fun header hheader => ?_).trans ?_
  · by_cases htype : header.type = ELF_PROG_LOAD
    · have hcount := h.pageCount_eq hL hheader htype
      exact ElfProgHeader.nodup_keys (by omega)
    · simp [ElfProgHeader.keys, ElfProgHeader.places, htype]
  · exact List.Pairwise.iff_of_mem fun hx hy =>
      ElfProgHeader.keys_disjoint_iff (hcount _ hx) (hcount _ hy)

theorem table_zero (h : FreshLoaded K L k perm₀ headers root M g s) :
    (Kernel.tables { k with pmm := s.pmm })[0]? = some s.process.pageTable := by
  dsimp only
  rw [h.table]
  rfl

/-- `page_walk` finds an entry for the keys that were used. -/
theorem pageWalk_ne_zero_iff (h : FreshLoaded K L k perm₀ headers root M g s) (hK : KernelEnd K)
    (va : Word) : s.process.pageTable.pageWalk s.pmm.mem va ≠ 0 ↔
      ∃ header ∈ headers, key va ∈ header.keys := by
  have htable := h.table_zero
  rw [← List.mem_flatMap, ← h.keys_eq, ← h.map.leaf_isSome_iff]
  cases hleaf : Kernel.leaf { k with pmm := s.pmm } 0 va with
  | none => simp [Nodes.pageWalk_none htable hleaf]
  | some e =>
    obtain ⟨q, -, hne, hwalk, -⟩ := h.nodes.pageWalk_some hK htable hleaf
    rw [hwalk]
    exact iff_of_true hne rfl

/-- The headers of the pages are those of the image. -/
theorem header_of_mem (h : FreshLoaded K L k perm₀ headers root M g s) {pg : LoadedPage}
    (hpg : pg ∈ s.loaded) : pg.header ∈ headers ∧ pg.header.type = ELF_PROG_LOAD ∧
      pg.index < pg.header.pageCount := by
  have hplace : pg.place ∈ headers.flatMap ElfProgHeader.places := by
    rw [← h.places]
    exact List.mem_map_of_mem hpg
  obtain ⟨header, hheader, hmem⟩ := List.mem_flatMap.1 hplace
  obtain ⟨heq, htype, hindex⟩ := ElfProgHeader.mem_places.1 hmem
  rw [heq]
  exact ⟨hheader, htype, hindex⟩

/-- The pages of the segments can be in an entry. -/
theorem getPa_new (h : FreshLoaded K L k perm₀ headers root M g s) {pg : LoadedPage}
    (hpg : pg ∈ s.loaded) :
    (PageTableEntry.new pg.dest (pg.header.perm perm₀)).getPa = pg.dest ∧
      (PageTableEntry.new pg.dest (pg.header.perm perm₀)).getFlag = pg.header.perm perm₀ := by
  obtain ⟨hheader, htype, -⟩ := h.header_of_mem hpg
  obtain ⟨hlt, -⟩ := (h.flags _ hheader htype).perm_bounds perm₀
  obtain ⟨-, hheld⟩ := (h.map.dests pg.dest).1 (List.mem_map_of_mem hpg)
  exact ⟨PageTableEntry.getPa_new (h.nodes.aligned (by rw [hheld]; simp)) hlt,
    PageTableEntry.getFlag_new hlt⟩

/-- The entry has the permissions of a segment that used the key. -/
theorem getFlag_pageWalk (h : FreshLoaded K L k perm₀ headers root M g s) (hK : KernelEnd K)
    {va : Word} (hva : s.process.pageTable.pageWalk s.pmm.mem va ≠ 0) :
    ∃ header ∈ headers, key va ∈ header.keys ∧
      (loadPte s.pmm.mem (s.process.pageTable.pageWalk s.pmm.mem va)).getFlag =
        header.perm perm₀ := by
  have htable := h.table_zero
  cases hleaf : Kernel.leaf { k with pmm := s.pmm } 0 va with
  | none => exact absurd (Nodes.pageWalk_none htable hleaf) hva
  | some e =>
    obtain ⟨q, -, -, hwalk, hpte⟩ := h.nodes.pageWalk_some hK htable hleaf
    rw [h.map.leaf] at hleaf
    obtain ⟨pg, hfind, rfl⟩ := Option.map_eq_some_iff.1 hleaf
    have hpg := List.mem_of_find?_eq_some hfind
    obtain ⟨hheader, htype, hindex⟩ := h.header_of_mem hpg
    have hkey : pg.key = key va := by simpa using List.find?_some hfind
    refine ⟨pg.header, hheader, ElfProgHeader.mem_keys.2 ⟨htype, pg.index, hindex, hkey⟩, ?_⟩
    rw [hwalk, loadPte_entry]
    dsimp only at hpte
    rw [hpte, (h.getPa_new hpg).2]

/-- When no key is used twice, the page of a segment is mapped at its key and nowhere else. -/
theorem lookup_eq_dest_iff (h : FreshLoaded K L k perm₀ headers root M g s) (hK : KernelEnd K)
    (hnodup : (s.loaded.map LoadedPage.key).Nodup) {pg : LoadedPage} (hpg : pg ∈ s.loaded)
    (va : Word) : s.process.pageTable.lookup s.pmm.mem va = pg.dest ↔ key va = pg.key := by
  have hlookup := h.nodes.lookup hK h.table_zero va
  rw [h.map.leaf] at hlookup
  dsimp only at hlookup
  rw [hlookup]
  cases hfind : s.loaded.find? fun pg => pg.key = key va with
  | none =>
    obtain ⟨-, hheld⟩ := (h.map.dests pg.dest).1 (List.mem_map_of_mem hpg)
    have hne : pg.dest ≠ 0 := (h.nodes.poolPage (by rw [hheld]; simp)).ne_zero hK
    refine iff_of_false (fun hzero => hne hzero.symm) fun hkey => ?_
    have hnone := List.find?_eq_none.1 hfind pg hpg
    simp [hkey] at hnone
  | some pg' =>
    have hpg' := List.mem_of_find?_eq_some hfind
    have hkey' : pg'.key = key va := by simpa using List.find?_some hfind
    rw [Option.map_some, Option.elim_some, (h.getPa_new hpg').1, ← hkey']
    constructor
    · intro hdest
      rw [List.inj_on_of_nodup_map h.map.nodup hpg' hpg hdest]
    · intro hkey
      rw [List.inj_on_of_nodup_map hnodup hpg' hpg hkey]

end FreshLoaded

end HxcOS
