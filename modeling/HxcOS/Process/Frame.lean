import HxcOS.Process.Loader
import HxcOS.Vmm.Nodes
import HxcOS.Vmm.Runs

/-!
# Where the loader stores

Whatever an image holds, and whatever is in the leaf entries of the table, the loader stores to pages
that `alloc_page` has handed out to it and to nodes of the table of the process, as long as
`alloc_page` returns no `NULL`.  `FrameInv` says so for a load under way.  An iteration of the loop
over the pages keeps it, or `alloc_page` returns `NULL` in it (`FrameInv.loadPage`); then what was
stored until that moment is what `Exhausted` says, and the ghost `nullMem` keeps it to the end.
-/

namespace HxcOS

open ByteMem

/-- The allocator when the load is over. -/
def finalPmm : Except Pmm LoadState → Pmm
  | .ok s => s.pmm
  | .error s => s

theorem finalPmm_denied (r : Except Pmm LoadState) : (finalPmm r).denied = failures r := by
  cases r <;> rfl

section NullMem

variable {s : Pmm} {m : Mem}

theorem allocPage_nullMem (h : s.nullMem = some m) : (allocPage s).2.nullMem = some m := by
  unfold allocPage
  dsimp only
  split_ifs <;> simp [h]

theorem growNode_nullMem_of_some (h : s.nullMem = some m) (e : Word) :
    (growNode s e).2.nullMem = some m := by
  rw [growNode_nullMem]
  split_ifs <;> simp [h]

/-- `add` itself takes no page. -/
theorem PageTable.add_nullMem (t : PageTable) (s : Pmm) (va pa perm : Word) :
    (t.add s va pa perm).2.nullMem = (t.pageWalkAlloc s va).2.nullMem := by
  unfold PageTable.add
  dsimp only
  split_ifs <;> rfl

theorem PageTable.add_nullMem_of_some (h : s.nullMem = some m) (t : PageTable) (va pa perm : Word) :
    (t.add s va pa perm).2.nullMem = some m := by
  rw [PageTable.add_nullMem]
  unfold PageTable.pageWalkAlloc
  dsimp only
  split_ifs
  · exact growNode_nullMem_of_some (growNode_nullMem_of_some h _) _
  · exact growNode_nullMem_of_some h _
  · exact h

end NullMem

namespace LoadState

variable {m : Mem} {perm₀ elfBuff : Word}

theorem finalPmm_loadPage_nullMem (header : ElfProgHeader) (perm : Word) (j : BitVec 32)
    (remainingSize : Word) (s : LoadState) :
    (finalPmm (s.loadPage header perm j remainingSize)).nullMem =
      (s.process.pageTable.add (allocPage s.pmm).2
        (pageNumber header.vaddr + j.signExtend 64 * pgSize) (allocPage s.pmm).1 perm).2.nullMem := by
  unfold loadPage
  dsimp only
  split <;> rfl

theorem nullMem_bind {x : Except Pmm LoadState} {f : LoadState → Except Pmm LoadState}
    (hf : ∀ s, s.pmm.nullMem = some m → (finalPmm (f s)).nullMem = some m)
    (h : (finalPmm x).nullMem = some m) : (finalPmm (x >>= f)).nullMem = some m := by
  cases x with
  | error e => exact h
  | ok s => exact hf s h

theorem nullMem_loadPage (header : ElfProgHeader) (perm : Word) (j : BitVec 32)
    (remainingSize : Word) (s : LoadState) (h : s.pmm.nullMem = some m) :
    (finalPmm (s.loadPage header perm j remainingSize)).nullMem = some m := by
  rw [finalPmm_loadPage_nullMem]
  exact PageTable.add_nullMem_of_some (allocPage_nullMem h) ..

theorem nullMem_takePages (header : ElfProgHeader) (perm : Word) (n j : ℕ) (remainingSize : Word)
    (s : LoadState) (h : s.pmm.nullMem = some m) :
    (finalPmm (s.takePages header perm n j remainingSize)).nullMem = some m := by
  induction n generalizing j remainingSize s with
  | zero => exact h
  | succ n ih =>
    exact nullMem_bind (fun s' hs' => ih (j + 1) _ s' hs')
      (nullMem_loadPage header perm _ remainingSize s h)

theorem nullMem_loadSegment (perm₀ : Word) (header : ElfProgHeader) (s : LoadState)
    (h : s.pmm.nullMem = some m) : (finalPmm (s.loadSegment perm₀ header)).nullMem = some m := by
  by_cases htype : header.type = ELF_PROG_LOAD
  · rw [loadSegment_load perm₀ htype]
    exact nullMem_takePages header _ _ 0 _
      { s with process.mappedInfo := header.record s.process.mappedInfo } h
  · rw [loadSegment_skip perm₀ htype]
    exact h

theorem nullMem_loadSegments (perm₀ elfBuff : Word) (n : ℕ) (off : BitVec 32) (s : LoadState)
    (h : s.pmm.nullMem = some m) :
    (finalPmm (s.loadSegments perm₀ elfBuff n off)).nullMem = some m := by
  induction n generalizing off s with
  | zero => exact h
  | succ n ih =>
    exact nullMem_bind (fun s' hs' => ih _ s' hs') (nullMem_loadSegment perm₀ _ s h)

end LoadState

/-! ### One page -/

theorem pagesOf_mono {L L' : List Word} (h : L ⊆ L') : pagesOf L ⊆ pagesOf L' := by
  rintro a ⟨p, hp, ha⟩
  exact ⟨p, h hp, ha⟩

/-- An iteration for the address `va` has taken the first free page `p`, and the next ones `M` as
nodes of the table `t`. -/
structure PageLoaded (K : Word) (t : ℕ) (va perm p : Word) (M : List Word) (g g' : Ghost)
    (s s' : Kernel) : Prop where
  nodes : Nodes K g' s'
  free : g.free = p :: M ++ g'.free
  length : M.length ≤ 2
  kept : ∀ q, q ≠ p → q ∉ M → g'.own q = g.own q
  held : g'.own p = .held
  made : ∀ q ∈ M, ∃ π, g'.own q = .inTable t π
  wrote : Wrote (page p ∪ g'.tableBytes t) s.pmm.mem s'.pmm.mem
  denied : s'.pmm.denied = s.pmm.denied
  nullMem : s'.pmm.nullMem = s.pmm.nullMem
  leaf : ∀ u vb, s'.leaf u vb =
    if u = t ∧ key vb = key va then (s.leaf t va).or (PageTableEntry.new p perm).ifValid
    else s.leaf u vb

/-- Pages that were not free are not taken. -/
theorem PageLoaded.ne_of_own {K : Word} {t : ℕ} {va perm p q : Word} {M : List Word} {g g' : Ghost}
    {s s' : Kernel} (hpage : PageLoaded K t va perm p M g g' s s') (h : Nodes K g s)
    (hq : g.own q ≠ .free) : q ≠ p ∧ q ∉ M := by
  have hnot : q ∉ p :: M := fun hmem => hq ((h.free_iff q).1 (by
    rw [hpage.free]
    exact List.mem_append_left _ hmem))
  rwa [List.mem_cons, not_or] at hnot

section LoadPage

variable {K : Word} {t : ℕ} {g : Ghost} {k : Kernel} {s : LoadState} {p : Word} {L : List Word}

/-- `nb` is at most a page. -/
theorem copied_le_page (remainingSize : Word) :
    (if remainingSize > pgSize then pgSize else remainingSize).toNat ≤ 4096 := by
  split_ifs with hgt
  · rfl
  · rw [pgSize] at hgt
    bv_omega

/-- An iteration of the loop over the pages that gets the pages that it needs. -/
theorem Nodes.loadPage (hK : KernelEnd K) (h : Nodes K g { k with pmm := s.pmm })
    (ht : k.tables[t]? = some s.process.pageTable) (hL : g.free = p :: L) (header : ElfProgHeader)
    (perm : Word) {j : ℕ} (hj : j < 2 ^ 31) (remainingSize : Word)
    (hneed : Kernel.needed { k with pmm := (allocPage s.pmm).2 } t
      (pageNumber header.vaddr + BitVec.ofNat 64 j * pgSize) ≤ L.length) :
    ∃ pmm ret M g', s.loadPage header perm (BitVec.ofNat 32 j) remainingSize =
        .ok { s with pmm := pmm, loaded := s.loaded ++ [⟨header, j, p, ret⟩] } ∧
      ret = (if (Kernel.leaf { k with pmm := s.pmm } t
        (pageNumber header.vaddr + BitVec.ofNat 64 j * pgSize)).isSome then -1 else 0) ∧
      PageLoaded K t (pageNumber header.vaddr + BitVec.ofNat 64 j * pgSize) perm p M g g'
        { k with pmm := s.pmm } { k with pmm := pmm } := by
  have hchain := h.chain
  rw [hL] at hchain
  have hstep := (allocPage_cons hchain).1
  dsimp only at hstep
  have halloc := h.alloc hL
  have hown := h.own_head hL
  have hpool : PoolPage K p := h.poolPage (by rw [hown]; simp)
  obtain ⟨g', M, hmade, hlen, hret, hleaf⟩ := halloc.add ht p perm hneed
  set va := pageNumber header.vaddr + BitVec.ofNat 64 j * pgSize with hva
  set nb := if remainingSize > pgSize then pgSize else remainingSize with hnb
  set r := s.process.pageTable.add (allocPage s.pmm).2 va p perm with hr
  have hp : (allocPage s.pmm).1 = p := by rw [hstep]
  have hdenied : (allocPage s.pmm).2.denied = s.pmm.denied := by rw [hstep]
  have hnull : (allocPage s.pmm).2.nullMem = s.pmm.nullMem := by rw [hstep]
  -- taking the page does not change a leaf entry
  have hsame : ∀ u vb, Kernel.leaf { k with pmm := (allocPage s.pmm).2 } u vb =
      Kernel.leaf { k with pmm := s.pmm } u vb :=
    Kernel.leaf_of_eq rfl (allocPage_mem s.pmm)
  -- and the copy goes to the page
  have hlow := hpool.2.1
  have hlt := hpool.toNat_lt
  have hbegin := hK.begin_le
  rw [kernelBegin] at hbegin
  have hnble : nb.toNat ≤ 4096 := copied_le_page remainingSize
  obtain ⟨m, hcopy, hw⟩ := memcpy_wrote r.2.mem p (header.off + BitVec.ofNat 64 j * pgSize) nb
    (by omega) (by bv_omega)
  have hwpage : Wrote (page p) r.2.mem m := hw.mono (span_mono hnble)
  have hheld : g'.own p = .held :=
    (hmade.own_eq halloc (by simp)).trans (Function.update_self ..)
  have hnodes := hmade.nodes.wrote hwpage (by rw [hheld]; simp) (by rw [hheld]; simp)
    (by rw [hheld]; simp)
  refine ⟨{ r.2 with mem := m }, r.1, M, g', ?_, hret.trans (by rw [hsame]), hnodes, ?_,
    hlen.trans_le (Kernel.needed_le ..), fun q hqp hqM => ?_, hheld, hmade.made, ?_,
    hmade.denied.trans hdenied, hmade.nullMem.trans hnull, fun u vb => ?_⟩
  · unfold LoadState.loadPage
    rw [signExtend_ofNat hj, counter_toNat hj.le]
    dsimp only
    rw [hp, ← hva, ← hr, ← hnb, hcopy]
  · rw [hL, List.cons_append]
    exact congrArg _ hmade.free
  · rw [hmade.kept q hqM]
    exact Function.update_of_ne hqp _ _
  · have hmem := allocPage_mem s.pmm
    rw [← hmem]
    exact (hmade.wrote.mono Set.subset_union_right).trans (hwpage.mono Set.subset_union_left)
  · rw [hmade.nodes.leaf_wrote hnodes hwpage hpool.1 (by rw [hheld]; simp)
      (fun _ _ _ _ => Iff.rfl)]
    rw [hleaf u vb, hsame, hsame]

/-- An iteration that does not get them stores to free pages and to nodes of the table, until
`alloc_page` returns `NULL`. -/
theorem Nodes.loadPage_null (h : Nodes K g { k with pmm := s.pmm })
    (ht : k.tables[t]? = some s.process.pageTable) (header : ElfProgHeader) (perm : Word) {j : ℕ}
    (hj : j < 2 ^ 31) (remainingSize : Word)
    (hneed : ∀ p L, g.free = p :: L → ¬ Kernel.needed { k with pmm := (allocPage s.pmm).2 } t
      (pageNumber header.vaddr + BitVec.ofNat 64 j * pgSize) ≤ L.length) :
    s.pmm.denied < (finalPmm (s.loadPage header perm (BitVec.ofNat 32 j) remainingSize)).denied ∧
      ∃ m, (finalPmm (s.loadPage header perm (BitVec.ofNat 32 j) remainingSize)).nullMem =
          some (s.pmm.nullMem.getD m) ∧
        Wrote (pagesOf g.free ∪ g.tableBytes t) s.pmm.mem m := by
  have hchain := h.chain
  rw [finalPmm_denied, LoadState.failures_loadPage, LoadState.finalPmm_loadPage_nullMem,
    signExtend_ofNat hj]
  cases hL : g.free with
  | nil =>
    -- there is no page for the segment
    rw [hL] at hchain
    have hnull : (allocPage s.pmm).2.nullMem = some (s.pmm.nullMem.getD s.pmm.mem) := by
      rw [allocPage_nil hchain]
    have hden : (allocPage s.pmm).2.denied = s.pmm.denied + 1 := by rw [allocPage_nil hchain]
    exact ⟨Nat.lt_of_succ_le (hden.symm.le.trans (PageTable.add_denied_le ..)), s.pmm.mem,
      PageTable.add_nullMem_of_some hnull .., Wrote.refl _ _⟩
  | cons p L =>
    -- there is none for a node
    rw [hL] at hchain
    have hnull : (allocPage s.pmm).2.nullMem = s.pmm.nullMem := by rw [(allocPage_cons hchain).1]
    have hden : (allocPage s.pmm).2.denied = s.pmm.denied := by rw [(allocPage_cons hchain).1]
    have halloc := h.alloc hL
    obtain ⟨hlt, m, hm, hw⟩ := halloc.pageWalkAlloc_null ht (hneed p L hL)
    rw [PageTable.add_nullMem, PageTable.add_denied]
    refine ⟨hden.symm.trans_lt hlt, m, hm.trans (by rw [hnull]), ?_⟩
    dsimp only at hw
    rw [allocPage_mem] at hw
    refine hw.mono (Set.union_subset_union ?_ ?_)
    · exact pagesOf_mono (List.subset_cons_self p L)
    · rintro a ⟨q, π, hq, ha⟩
      have hqp : q ≠ p := by
        rintro rfl
        simp at hq
      exact ⟨q, π, (Function.update_of_ne hqp _ _).symm.trans hq, ha⟩

end LoadPage

/-! ### The frame of a load -/

/-- A load into the table `t` that began in the state `k`, whose ghost was `g₀`.  The free pages `M`
have been handed out, and some of them have become nodes of `t`; the loader has stored to these and
to the nodes that `t` had before. -/
structure FrameInv (K : Word) (t : ℕ) (g₀ : Ghost) (k : Kernel) (M : List Word) (g : Ghost)
    (s : LoadState) : Prop where
  nodes : Nodes K g { k with pmm := s.pmm }
  table : k.tables[t]? = some s.process.pageTable
  free : g₀.free = M ++ g.free
  kept : ∀ p ∉ M, g.own p = g₀.own p
  taken : ∀ p ∈ M, g.own p = .held ∨ ∃ π, g.own p = .inTable t π
  wrote : Wrote (pagesOf M ∪ g₀.tableBytes t) k.pmm.mem s.pmm.mem
  denied : s.pmm.denied = k.pmm.denied
  nullMem : s.pmm.nullMem = k.pmm.nullMem

/-- `alloc_page` has returned `NULL`, and before that the load stored to free pages and to nodes of
its table. -/
def Exhausted (t : ℕ) (g₀ : Ghost) (k : Kernel) (s : Pmm) : Prop :=
  k.pmm.denied < s.denied ∧ ∃ m, s.nullMem = some (k.pmm.nullMem.getD m) ∧
    Wrote (pagesOf g₀.free ∪ g₀.tableBytes t) k.pmm.mem m

/-- The result of a part of a load: the invariant and `I` hold, or `alloc_page` has failed. -/
def Framed (K : Word) (t : ℕ) (g₀ : Ghost) (k : Kernel) (I : List Word → Ghost → LoadState → Prop)
    (r : Except Pmm LoadState) : Prop :=
  (∃ s M g, r = .ok s ∧ FrameInv K t g₀ k M g s ∧ I M g s) ∨ Exhausted t g₀ k (finalPmm r)

/-- An iteration for a page of the segment keeps `I`. -/
def KeptByPage (K : Word) (t : ℕ) (g₀ : Ghost) (k : Kernel) (header : ElfProgHeader) (perm : Word)
    (I : List Word → Ghost → LoadState → Prop) : Prop :=
  ∀ M g s j p M' g' pmm, FrameInv K t g₀ k M g s → I M g s →
    PageLoaded K t (pageNumber header.vaddr + BitVec.ofNat 64 j * pgSize) perm p M' g g'
      { k with pmm := s.pmm } { k with pmm := pmm } →
    I (M ++ p :: M') g' { s with
      pmm := pmm
      loaded := s.loaded ++ [⟨header, j, p, if (Kernel.leaf { k with pmm := s.pmm } t
        (pageNumber header.vaddr + BitVec.ofNat 64 j * pgSize)).isSome then -1 else 0⟩] }

theorem keptByPage_true (K : Word) (t : ℕ) (g₀ : Ghost) (k : Kernel) (header : ElfProgHeader)
    (perm : Word) : KeptByPage K t g₀ k header perm fun _ _ _ => True :=
  fun _ _ _ _ _ _ _ _ _ _ _ => trivial

namespace FrameInv

variable {K : Word} {t : ℕ} {g₀ g : Ghost} {k : Kernel} {M : List Word} {s : LoadState}
  {I : List Word → Ghost → LoadState → Prop}

theorem init (h : Nodes K g₀ k) {p : Process} (ht : k.tables[t]? = some p.pageTable) :
    FrameInv K t g₀ k [] g₀ ⟨k.pmm, p, []⟩ :=
  ⟨h, ht, rfl, fun _ _ => rfl, by simp, Wrote.refl _ _, rfl, rfl⟩

/-- Only the page table of the process matters. -/
theorem withProcess (h : FrameInv K t g₀ k M g s) {p : Process}
    (hp : p.pageTable = s.process.pageTable) : FrameInv K t g₀ k M g { s with process := p } :=
  ⟨h.nodes, by rw [hp]; exact h.table, h.free, h.kept, h.taken, h.wrote, h.denied, h.nullMem⟩

/-- The nodes of the table are pages handed out, or were nodes before. -/
theorem tableBytes_subset (h : FrameInv K t g₀ k M g s) :
    g.tableBytes t ⊆ pagesOf M ∪ g₀.tableBytes t := by
  rintro a ⟨p, π, hp, ha⟩
  by_cases hpM : p ∈ M
  · exact Or.inl ⟨p, hpM, ha⟩
  · exact Or.inr ⟨p, π, (h.kept p hpM).symm.trans hp, ha⟩

theorem pagesOf_subset (h : FrameInv K t g₀ k M g s) :
    pagesOf M ∪ g₀.tableBytes t ⊆ pagesOf g₀.free ∪ g₀.tableBytes t :=
  Set.union_subset_union_left _ (pagesOf_mono (by rw [h.free]; simp))

/-- A page has been loaded. -/
theorem extend (h : FrameInv K t g₀ k M g s) {va perm p : Word} {M' : List Word} {g' : Ghost}
    {pmm : Pmm} {loaded : List LoadedPage}
    (hpage : PageLoaded K t va perm p M' g g' { k with pmm := s.pmm } { k with pmm := pmm }) :
    FrameInv K t g₀ k (M ++ p :: M') g' { s with pmm := pmm, loaded := loaded } := by
  have hsub : pagesOf M ∪ g₀.tableBytes t ⊆ pagesOf (M ++ p :: M') ∪ g₀.tableBytes t :=
    Set.union_subset_union_left _ (pagesOf_mono (List.subset_append_left ..))
  -- the new nodes are among the pages that have just been handed out
  have hnew : page p ∪ g'.tableBytes t ⊆ pagesOf (M ++ p :: M') ∪ g₀.tableBytes t := by
    rintro a (ha | ⟨q, π, hq, ha⟩)
    · exact Or.inl ⟨p, by simp, ha⟩
    · by_cases hqM : q ∈ M ++ p :: M'
      · exact Or.inl ⟨q, hqM, ha⟩
      · rw [List.mem_append, List.mem_cons, not_or, not_or] at hqM
        refine Or.inr ⟨q, π, ?_, ha⟩
        rw [← h.kept q hqM.1, ← hpage.kept q hqM.2.1 hqM.2.2, hq]
  refine ⟨hpage.nodes, h.table, ?_, fun q hq => ?_, fun q hq => ?_,
    (h.wrote.mono hsub).trans (hpage.wrote.mono hnew), hpage.denied.trans h.denied,
    hpage.nullMem.trans h.nullMem⟩
  · rw [h.free, hpage.free, List.append_assoc]
  · rw [List.mem_append, List.mem_cons, not_or, not_or] at hq
    rw [hpage.kept q hq.2.1 hq.2.2, h.kept q hq.1]
  · rcases List.mem_append.1 hq with hqM | hqM
    · -- it is not handed out a second time
      obtain ⟨hqp, hqM'⟩ := hpage.ne_of_own h.nodes (q := q) (by
        rcases h.taken q hqM with hrole | ⟨π, hrole⟩ <;> rw [hrole] <;> simp)
      rw [hpage.kept q hqp hqM']
      exact h.taken q hqM
    · rcases List.mem_cons.1 hqM with rfl | hqM
      · exact Or.inl hpage.held
      · exact Or.inr (hpage.made q hqM)

/-- One page. -/
theorem loadPage (hK : KernelEnd K) (h : FrameInv K t g₀ k M g s) (hs : I M g s)
    {header : ElfProgHeader} {perm : Word} (hI : KeptByPage K t g₀ k header perm I) {j : ℕ}
    (hj : j < 2 ^ 31) (remainingSize : Word) :
    Framed K t g₀ k I (s.loadPage header perm (BitVec.ofNat 32 j) remainingSize) := by
  by_cases hneed : ∃ p L, g.free = p :: L ∧ Kernel.needed { k with pmm := (allocPage s.pmm).2 } t
      (pageNumber header.vaddr + BitVec.ofNat 64 j * pgSize) ≤ L.length
  · obtain ⟨p, L, hL, hneed⟩ := hneed
    obtain ⟨pmm, ret, M', g', heq, rfl, hpage⟩ :=
      h.nodes.loadPage hK h.table hL header perm hj remainingSize hneed
    exact Or.inl ⟨_, _, g', heq, h.extend hpage, hI M g s j p M' g' pmm h hs hpage⟩
  · obtain ⟨hden, m, hm, hw⟩ := h.nodes.loadPage_null h.table header perm hj remainingSize
      fun p L hL hle => hneed ⟨p, L, hL, hle⟩
    rw [h.nullMem] at hm
    rw [h.denied] at hden
    have hfree : pagesOf g.free ⊆ pagesOf g₀.free := pagesOf_mono (by rw [h.free]; simp)
    refine Or.inr ⟨hden, m, hm, (h.wrote.mono h.pagesOf_subset).trans (hw.mono ?_)⟩
    exact Set.union_subset (hfree.trans Set.subset_union_left)
      (h.tableBytes_subset.trans h.pagesOf_subset)

/-- After a part of a load comes another one. -/
theorem bind {x : Except Pmm LoadState} {f : LoadState → Except Pmm LoadState}
    {J : List Word → Ghost → LoadState → Prop} (hx : Framed K t g₀ k I x)
    (hf : ∀ s M g, x = .ok s → FrameInv K t g₀ k M g s → I M g s → Framed K t g₀ k J (f s))
    (hden : ∀ s, s.pmm.denied ≤ failures (f s))
    (hnull : ∀ s m, s.pmm.nullMem = some m → (finalPmm (f s)).nullMem = some m) :
    Framed K t g₀ k J (x >>= f) := by
  rcases hx with ⟨s, M, g, rfl, h, hs⟩ | ⟨hlt, m, hm, hw⟩
  · exact hf s M g rfl h hs
  · refine Or.inr ⟨hlt.trans_le ?_, m, LoadState.nullMem_bind (fun s => hnull s _) hm, hw⟩
    rw [finalPmm_denied, finalPmm_denied]
    exact LoadState.failures_le_bind x hden

/-- The loop over the pages of a segment. -/
theorem takePages (hK : KernelEnd K) (h : FrameInv K t g₀ k M g s) (hs : I M g s)
    {header : ElfProgHeader} {perm : Word} (hI : KeptByPage K t g₀ k header perm I) {n j : ℕ}
    (hj : j + n ≤ 2 ^ 31) (remainingSize : Word) :
    Framed K t g₀ k I (s.takePages header perm n j remainingSize) := by
  induction n generalizing s M g j remainingSize with
  | zero => exact Or.inl ⟨s, M, g, rfl, h, hs⟩
  | succ n ih =>
    exact bind (h.loadPage hK hs hI (by omega) remainingSize)
      (fun s' M' g' _ h' hs' => ih h' hs' (by omega) _)
      (fun s' => LoadState.denied_le_takePages header perm n (j + 1) _ s')
      fun s' m => LoadState.nullMem_takePages header perm n (j + 1) _ s'

/-- The body of the loop over the segments. -/
theorem loadSegment (hK : KernelEnd K) (h : FrameInv K t g₀ k M g s) (hs : I M g s) (perm₀ : Word)
    {header : ElfProgHeader}
    (hprocess : ∀ M g s p, I M g s → I M g { s with process := p })
    (hI : header.type = ELF_PROG_LOAD → KeptByPage K t g₀ k header (header.perm perm₀) I) :
    Framed K t g₀ k I (s.loadSegment perm₀ header) := by
  by_cases htype : header.type = ELF_PROG_LOAD
  · rw [LoadState.loadSegment_load perm₀ htype]
    exact (h.withProcess (p := { s.process with
      mappedInfo := header.record s.process.mappedInfo }) rfl).takePages hK (hprocess M g s _ hs)
      (hI htype) ((Nat.zero_add _).trans_le header.pageCount_le) _
  · rw [LoadState.loadSegment_skip perm₀ htype]
    exact Or.inl ⟨s, M, g, rfl, h, hs⟩

/-- The loop over the segments, for headers that may change while it runs. -/
theorem loadSegments (hK : KernelEnd K) (h : FrameInv K t g₀ k M g s) (perm₀ elfBuff : Word)
    (n : ℕ) (off : BitVec 32) :
    Framed K t g₀ k (fun _ _ _ => True) (s.loadSegments perm₀ elfBuff n off) := by
  induction n generalizing s M g off with
  | zero => exact Or.inl ⟨s, M, g, rfl, h, trivial⟩
  | succ n ih =>
    exact bind (h.loadSegment (I := fun _ _ _ => True) hK trivial perm₀
        (fun _ _ _ _ _ => trivial) fun _ => keptByPage_true K t g₀ k _ _)
      (fun s' M' g' _ h' _ => ih h' _)
      (fun s' => LoadState.denied_le_loadSegments perm₀ elfBuff n _ s')
      fun s' m => LoadState.nullMem_loadSegments perm₀ elfBuff n _ s'

/-- A whole load. -/
theorem loadFromElf (hK : KernelEnd K) (h : Nodes K g₀ k) (p : Process)
    (ht : k.tables[t]? = some p.pageTable) (perm₀ elfBuff : Word) :
    Framed K t g₀ k (fun _ _ _ => True) (p.loadFromElf k.pmm perm₀ elfBuff) :=
  bind ((init h ht).loadSegments hK perm₀ elfBuff _ _)
    (fun _ M' g' _ h' _ => Or.inl ⟨_, M', g', rfl, h'.withProcess rfl, trivial⟩)
    (fun _ => le_rfl) fun _ _ hm => hm

/-- The loop over the segments, for headers that are apart from the pages that may be stored to. -/
theorem loadSegments_apart (hK : KernelEnd K) (h : FrameInv K t g₀ k M g s) (hs : I M g s)
    (perm₀ elfBuff : Word) {n : ℕ} {off : BitVec 32}
    (hapart : ∀ a ∈ headerAddrs elfBuff n off,
      Disjoint (span a ElfProgHeader.size) (pagesOf g₀.free ∪ g₀.tableBytes t))
    (hprocess : ∀ M g s p, I M g s → I M g { s with process := p })
    (hI : ∀ header ∈ (headerAddrs elfBuff n off).map (ElfProgHeader.read k.pmm.mem),
      header.type = ELF_PROG_LOAD → KeptByPage K t g₀ k header (header.perm perm₀) I) :
    Framed K t g₀ k (fun M' g' s' => I M' g' s' ∧ s.headersRead perm₀ elfBuff n off =
        (headerAddrs elfBuff n off).map (ElfProgHeader.read k.pmm.mem))
      (s.loadSegments perm₀ elfBuff n off) := by
  induction n generalizing s M g off with
  | zero => exact Or.inl ⟨s, M, g, rfl, h, hs, rfl⟩
  | succ n ih =>
    rw [headerAddrs, List.forall_mem_cons] at hapart
    rw [headerAddrs, List.map_cons, List.forall_mem_cons] at hI
    have hread : ElfProgHeader.read s.pmm.mem (elfBuff + off.signExtend 64) =
        ElfProgHeader.read k.pmm.mem (elfBuff + off.signExtend 64) := by
      refine ElfProgHeader.read_congr fun b hb => h.wrote.byte_eq fun hb' => ?_
      exact Set.disjoint_left.1 hapart.1 hb (h.pagesOf_subset hb')
    rw [LoadState.loadSegments, LoadState.headersRead, hread]
    refine bind (h.loadSegment hK hs perm₀ hprocess hI.1) (fun s' M' g' heq h' hs' => ?_)
      (fun s' => LoadState.denied_le_loadSegments perm₀ elfBuff n _ s')
      fun s' m => LoadState.nullMem_loadSegments perm₀ elfBuff n _ s'
    rw [heq, headerAddrs, List.map_cons]
    simp only [List.cons.injEq, true_and]
    exact ih h' hs' hapart.2 hI.2

/-- A whole load, of an image whose headers are apart from the pages that may be stored to, when
`alloc_page` does not fail: it reads these headers. -/
theorem loadFromElf_apart (hK : KernelEnd K) (h : Nodes K g₀ k) (p : Process)
    (ht : k.tables[t]? = some p.pageTable) (perm₀ elfBuff : Word)
    (hapart : ∀ a ∈ programHeaderAddrs k.pmm.mem elfBuff,
      Disjoint (span a ElfProgHeader.size) (pagesOf g₀.free ∪ g₀.tableBytes t))
    (hsup : failures (p.loadFromElf k.pmm perm₀ elfBuff) = k.pmm.denied)
    (hprocess : ∀ M g s p, I M g s → I M g { s with process := p })
    (hI : ∀ header ∈ segmentHeaders k.pmm.mem elfBuff, header.type = ELF_PROG_LOAD →
      KeptByPage K t g₀ k header (header.perm perm₀) I)
    (hs : I [] g₀ ⟨k.pmm, p, []⟩) :
    ∃ s' M g', p.loadFromElf k.pmm perm₀ elfBuff = .ok s' ∧ FrameInv K t g₀ k M g' s' ∧
      I M g' s' ∧ p.headersRead k.pmm perm₀ elfBuff = segmentHeaders k.pmm.mem elfBuff := by
  have hload := (init h ht).loadSegments_apart hK hs perm₀ elfBuff hapart hprocess hI
  rw [← finalPmm_denied] at hsup
  unfold Process.loadFromElf at hsup ⊢
  rcases hload with ⟨s', M, g', heq, h', hs', hread⟩ | ⟨hlt, -⟩
  · dsimp only
    rw [heq]
    exact ⟨_, M, g', rfl, h'.withProcess rfl, hprocess M g' s' _ hs', hread⟩
  · rw [finalPmm_denied] at hlt hsup
    have hle := LoadState.failures_le_bind (LoadState.loadSegments perm₀ elfBuff
      (ElfHeader.read k.pmm.mem elfBuff).phnum.toNat
      ((ElfHeader.read k.pmm.mem elfBuff).phoff.setWidth 32) ⟨k.pmm, p, []⟩)
      (f := fun s => .ok { s with
        process.trapframe.epc := (ElfHeader.read k.pmm.mem elfBuff).entry }) fun _ => le_rfl
    exact absurd (hlt.trans_le hle) (by rw [← hsup]; exact lt_irrefl _)

end FrameInv

end HxcOS
