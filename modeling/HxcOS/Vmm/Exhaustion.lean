import HxcOS.Vmm.PageRoles

/-!
# Running out of pages

`alloc_empty_page` does not look at what `alloc_page` returns: when the free list is empty it
clears the page at `NULL`, and its callers link that page in.  A call that makes nodes is therefore
contained (`Contained`) exactly when the free list has the pages that it needs, one for the
constructor and one for each missing node for `add` (`contained_iff_room`).
-/

namespace HxcOS

open ByteMem Radix OpSystem

/-- What is asked of a call that may run out of pages: it does not store through `NULL`, it leaves
no valid entry that leads to the page at `NULL`, and if it is an `add` that does not get its pages
then it does not report success, every `lookup` stays what it was, and every free page is still
free or has become a node. -/
structure Contained (s : Kernel) (o : KernelOp) : Prop where
  no_null_store : Wrote (page 0)ᶜ s.pmm.mem (s.step o).2.pmm.mem
  no_null_entry : ∀ t i π, π.length < 3 → (s.step o).2.walk t (i :: π) ≠ some 0
  failed_add : ∀ t va pa perm, o = .add t va pa perm → ¬ s.Room o →
    (s.step o).1 ≠ .int 0 ∧
    (∀ (u : ℕ) (tbl : PageTable) (vb : Word), s.tables[u]? = some tbl →
      tbl.lookup (s.step o).2.pmm.mem vb = tbl.lookup s.pmm.mem vb) ∧
    ∀ p, s.HasRole p .free → (s.step o).2.HasRole p .free ∨ (s.step o).2.HasRole p .node

/-! ### Clearing the page at `NULL` -/

theorem allocEmptyPage_null {s : Pmm} (h : s.freePagesList = 0) :
    (allocEmptyPage s).2.freePagesList = 0 ∧ Touched 0 s.mem (allocEmptyPage s).2.mem ∧
      Wrote Set.univ s.mem (allocEmptyPage s).2.mem := by
  have hfill := memset_filled s.mem 0 0 pgSize (by decide)
  have hstep : allocPage s = (0, { s with
      denied := s.denied + 1
      nullMem := some (s.nullMem.getD s.mem) }) := by simp [allocPage, h]
  simp only [allocEmptyPage, hstep]
  exact ⟨h, hfill.touched 0 (by simp [mem_span, pgSize]), hfill.wrote.mono (Set.subset_univ _)⟩

theorem growNode_null {s : Pmm} (h : s.freePagesList = 0) (e : Word) :
    (growNode s e).2.freePagesList = 0 ∧ Touched 0 s.mem (growNode s e).2.mem ∧
      Wrote Set.univ s.mem (growNode s e).2.mem := by
  obtain ⟨hhead, htouched, hwrote⟩ := allocEmptyPage_null h
  have hstore := Wrote.store64 (Set.subset_univ (span e 8)) (allocEmptyPage s).2.mem
    (PageTableEntry.new (allocEmptyPage s).1 PTEFlags.V).value
  exact ⟨hhead, htouched.trans_wrote hstore, hwrote.trans hstore⟩

namespace Owned

variable {K : Word} {g : Ghost} {s : Kernel} {t : ℕ} {tbl : PageTable} {va : Word}

theorem head_eq_zero (h : Owned K g s) (hL : g.free = []) : s.pmm.freePagesList = 0 := by
  by_contra hne
  exact h.head_ne_zero_iff.1 hne hL

/-- `page_walk_alloc` without the pages that it needs clears the page at `NULL`. -/
theorem pageWalkAlloc_null (h : Owned K g s) (ht : s.tables[t]? = some tbl)
    (hneed : ¬ s.needed t va ≤ g.free.length) :
    Touched 0 s.pmm.mem (tbl.pageWalkAlloc s.pmm va).2.mem := by
  cases hmid : s.walk t [idx2 va] with
  | some mid =>
    cases hlow : s.walk t [idx1 va, idx2 va] with
    | some q => simp [Kernel.needed, hmid, hlow] at hneed
    | none =>
      have hchild : child s.pmm.mem mid (idx1 va) = none := by rw [← h.walk_cons hmid, hlow]
      have hempty : g.free = [] := by
        simp only [Kernel.needed, hmid, hlow, Option.isNone_some, Option.isNone_none, if_true,
          Bool.false_eq_true, if_false] at hneed
        exact List.length_eq_zero_iff.1 (by omega)
      rw [pageWalkAlloc_low ht hmid hchild]
      exact (growNode_null (h.head_eq_zero hempty) _).2.1
  | none =>
    have hroot : s.walk t [] = some tbl.root := forest_root ht s.pmm.mem
    have hchild : child s.pmm.mem tbl.root (idx2 va) = none := by rw [← h.walk_cons hroot, hmid]
    rw [pageWalkAlloc_mid ht hmid]
    cases hL : g.free with
    | nil =>
      -- no page for the middle node, and none for the lowest one
      obtain ⟨hhead, htouched, -⟩ := growNode_null (h.head_eq_zero hL) (entry tbl.root (idx2 va))
      exact htouched.trans_wrote (growNode_null hhead _).2.2
    | cons p L =>
      -- the middle node takes the last page
      obtain ⟨hp, hw, hgrow⟩ := h.grow hL hroot (by simp) hchild
      have hempty : L = [] := by
        simp only [Kernel.needed, hmid, hL, Option.isNone_none, if_true, List.length_cons] at hneed
        exact List.length_eq_zero_iff.1 (by omega)
      exact Touched.of_wrote hw (growNode_null (hgrow.head_eq_zero hempty) _).2.1

end Owned

/-- A growing call without the pages that it needs stores through `NULL`. -/
theorem KernelInv.touched_null {K : Word} {g : Ghost} {s : Kernel} (h : KernelInv K g s)
    {o : KernelOp} (hgrows : Kernel.Grows o) (hok : s.Promise o) (hroom : ¬ s.Room o) :
    Touched 0 s.pmm.mem (s.step o).2.pmm.mem := by
  rw [h.room_iff] at hroom
  cases o with
  | newTable =>
    have hempty : g.free = [] := List.length_eq_zero_iff.1 (by
      rw [Kernel.pagesNeeded] at hroom
      omega)
    exact (allocEmptyPage_null (h.owned.head_eq_zero hempty)).2.1
  | add t va pa perm =>
    obtain ⟨tbl, ht⟩ : ∃ tbl, s.tables[t]? = some tbl := ⟨_, List.getElem?_eq_getElem hok.1⟩
    have htouched := h.owned.pageWalkAlloc_null ht hroom
    have hmem : (s.step (.add t va pa perm)).2.pmm.mem = (tbl.add s.pmm va pa perm).2.mem := by
      simp only [Kernel.step, ht]
      split_ifs <;> rfl
    rw [hmem, PageTable.add]
    dsimp only
    split_ifs
    · exact htouched
    · exact htouched.trans_wrote (Wrote.store64 (Set.subset_univ _) _ _)
  | allocPage => exact hgrows.elim
  | freePage p => exact hgrows.elim
  | write a v => exact hgrows.elim
  | lookup t va => exact hgrows.elim
  | erase t va => exact hgrows.elim

/-- A growing call that gets its pages stores only to pages of the pool. -/
theorem KernelInv.wrote_pool {K : Word} {g : Ghost} {s : Kernel} (h : KernelInv K g s)
    {o : KernelOp} (hgrows : Kernel.Grows o) (hok : s.Promise o) (hroom : s.Room o) :
    Wrote (pool K) s.pmm.mem (s.step o).2.pmm.mem := by
  rw [h.room_iff] at hroom
  cases o with
  | newTable =>
    obtain ⟨p, L, hL⟩ := List.exists_cons_of_length_pos hroom
    have hpool := h.owned.poolPage (p := p) (by rw [(h.owned.free_iff p).1 (by simp [hL])]; simp)
    exact (h.owned.newTable hL).2.1.mono hpool.page_subset
  | add t va pa perm =>
    obtain ⟨htlt, hpa, hperm⟩ := hok
    have ht := List.getElem?_eq_getElem htlt
    obtain ⟨-, hw, -⟩ := h.add ht hroom hpa hperm
    simp only [Kernel.step, ht]
    split_ifs <;> exact hw
  | allocPage => exact hgrows.elim
  | freePage p => exact hgrows.elim
  | write a v => exact hgrows.elim
  | lookup t va => exact hgrows.elim
  | erase t va => exact hgrows.elim

/-- **Exhaustion, one call.** -/
theorem KernelInv.contained_iff {K : Word} (hK : KernelEnd K) {g : Ghost} {s : Kernel}
    (h : KernelInv K g s) {o : KernelOp} (hgrows : Kernel.Grows o) (hok : s.Promise o) :
    Contained s o ↔ s.Room o := by
  constructor
  · intro hc
    by_contra hroom
    exact (h.touched_null hgrows hok hroom).not_wrote (by simp [mem_page_self]) hc.no_null_store
  · intro hroom
    obtain ⟨g', h', -⟩ := h.step hK hok hroom
    refine ⟨(h.wrote_pool hgrows hok hroom).mono fun a ha h0 => notMem_pool_of_null hK h0 ha,
      fun t i π hπ hwalk => ?_, fun _ _ _ _ _ hnot => absurd hroom hnot⟩
    have hown := h'.owned.own_of_walk (by rw [List.length_cons]; omega) hwalk
    exact (h'.owned.poolPage (by rw [hown]; simp)).ne_zero hK rfl

/-- **Running out of pages is contained exactly when it does not happen.**  In every run whose
calls find the pages that they need on the free list, every call that makes nodes is contained;
and after such a run a call that makes nodes is contained if and only if the free list has the pages
that it needs. -/
theorem contained_iff_room {K : Word} (hK : KernelEnd K) (m : Mem) {ops : List KernelOp}
    (hok : roomSystem.Admissible (Kernel.init K m) ops) :
    (∀ pre o post, ops = pre ++ o :: post → Kernel.Grows o →
      Contained (roomSystem.final (Kernel.init K m) pre) o) ∧
    ∀ o, Kernel.Grows o → (roomSystem.final (Kernel.init K m) ops).Promise o →
      (Contained (roomSystem.final (Kernel.init K m) ops) o ↔
        (roomSystem.final (Kernel.init K m) ops).Room o) := by
  have hinv : ∀ ops, roomSystem.Admissible (Kernel.init K m) ops →
      ∃ g, KernelInv K g (roomSystem.final (Kernel.init K m) ops) := fun ops hok => by
    obtain ⟨g, h, -⟩ := KernelInv.init hK m
    refine System.run_inv (I := fun s => ∃ g, KernelInv K g s) ?_ ⟨g, h⟩ hok
    rintro s o ⟨g, h⟩ hok
    obtain ⟨g', h', -⟩ := h.step hK hok.1 hok.2
    exact ⟨g', h'⟩
  refine ⟨?_, fun o hgrows hpromise => ?_⟩
  · rintro pre o post rfl hgrows
    rw [System.admissible_append] at hok
    obtain ⟨g, h⟩ := hinv pre hok.1
    exact (h.contained_iff hK hgrows hok.2.1.1).2 hok.2.1.2
  · obtain ⟨g, h⟩ := hinv ops hok
    exact h.contained_iff hK hgrows hpromise

/-- The obligations of the two systems agree along whole runs. -/
theorem KernelInv.admissible_iff {K : Word} (hK : KernelEnd K) {g : Ghost} {s : Kernel}
    (h : KernelInv K g s) {ops : List KernelOp} :
    kernelSystem.Admissible s ops ↔ roomSystem.Admissible s ops := by
  induction ops generalizing g s with
  | nil => exact Iff.rfl
  | cons o ops ih =>
    rw [System.admissible_cons, System.admissible_cons, h.ok_iff]
    refine and_congr_right fun hok => ?_
    obtain ⟨g', h', -⟩ := h.step hK hok.1 hok.2
    exact ih h'

theorem contained_iff_room_sample :
    Contained (roomSystem.final (Kernel.init kernelBegin Mem.zero) []) .newTable := by
  obtain ⟨g, h, -⟩ := KernelInv.init kernelEnd_kernelBegin Mem.zero
  exact (contained_iff_room kernelEnd_kernelBegin Mem.zero
    ((h.admissible_iff kernelEnd_kernelBegin).1 sampleRun_admissible)).1 [] .newTable _ rfl trivial

/-- One page below the end of the memory. -/
def lastPage : Word := 0x87fff000

theorem kernelEnd_lastPage : KernelEnd lastPage := ⟨by decide, by decide, by decide⟩

/-- With one page in the pool, the second constructor call is not contained. -/
theorem second_constructor_not_contained :
    roomSystem.Admissible (Kernel.init lastPage Mem.zero) [.newTable] ∧
    ¬ Contained (roomSystem.final (Kernel.init lastPage Mem.zero) [.newTable]) .newTable := by
  have hK := kernelEnd_lastPage
  have honly : ∀ p, PoolPage lastPage p → p = lastPage := fun p hp => by
    rw [PoolPage, PageAligned, ramEnd_eq, lastPage] at hp
    rw [lastPage]
    bv_omega
  obtain ⟨g, h, hfree⟩ := KernelInv.init hK Mem.zero
  have hlen : 1 ≤ g.free.length :=
    List.length_pos_of_mem ((hfree lastPage).2 (by decide))
  have hroom := h.room_iff.2 (show (Kernel.init lastPage Mem.zero).pagesNeeded .newTable ≤ _ from hlen)
  obtain ⟨g', h', -⟩ := h.step hK (o := .newTable) trivial hroom
  refine ⟨⟨⟨trivial, hroom⟩, trivial⟩, fun hc => ?_⟩
  -- the only page is the root of the first table, so that none is free
  have hroom' := (h'.contained_iff hK (o := .newTable) trivial trivial).1 hc
  have hlen' : 1 ≤ g'.free.length := h'.room_iff.1 hroom'
  obtain ⟨p, L, hL⟩ := List.exists_cons_of_length_pos hlen'
  have hp : g'.own p = .free := (h'.owned.free_iff p).1 (by simp [hL])
  have hroot : ((Kernel.init lastPage Mem.zero).step .newTable).2.walk 0 [] =
      some (PageTable.new (Kernel.init lastPage Mem.zero).pmm).1.root :=
    forest_root (newTable_table rfl) _
  have hrootown := h'.owned.own_of_walk (by simp) hroot
  have hroot_last := honly _ (h'.owned.poolPage (p := (PageTable.new
    (Kernel.init lastPage Mem.zero).pmm).1.root) (by rw [hrootown]; simp))
  have hp_last := honly p (h'.owned.poolPage (by rw [hp]; simp))
  rw [hroot_last, ← hp_last, hp] at hrootown
  cases hrootown

end HxcOS
