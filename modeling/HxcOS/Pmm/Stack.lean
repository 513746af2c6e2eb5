import HxcOS.Pmm.Pool

/-!
# The allocator is a stack

Which page does `alloc_page` return?  `stackSystem` is a list of pages: an allocation takes the first
one, or `NULL` when there is none, and a page that is freed is put in front.  Every admissible run of
the allocator and its clients is a run of `stackSystem` from the stack that `pmm_init` leaves, which
has the pages of the pool from the last one down (`allocator_is_stack`).  What the clients write makes
no difference to the answers.
-/

namespace HxcOS

open ByteMem Chain OpSystem Loop

/-- A stack of pages. -/
def stackSystem : System (List Word) PoolOp (Option Word) where
  step L
    | .alloc => (some (L.head?.getD 0), L.tail)
    | .free p => (none, p :: L)
    | .write _ _ => (none, L)
  ok _ _ := True

/-- The pages from `kernelEnd` to `p`, the last one first. -/
def pagesBelow (kernelEnd p : Word) : List Word :=
  (List.range ((p - kernelEnd).toNat / 4096)).map fun i => p - pgSize * BitVec.ofNat 64 (i + 1)

theorem pagesBelow_self (kernelEnd : Word) : pagesBelow kernelEnd kernelEnd = [] := by
  rw [pagesBelow, BitVec.sub_self]
  rfl

theorem pagesBelow_next {kernelEnd p : Word} (hle : kernelEnd ≤ p) (hlt : p < ramEnd) :
    pagesBelow kernelEnd (p + pgSize) = p :: pagesBelow kernelEnd p := by
  rw [ramEnd_eq] at hlt
  have hcount : (p + pgSize - kernelEnd).toNat / 4096 = (p - kernelEnd).toNat / 4096 + 1 := by
    rw [pgSize]
    bv_omega
  rw [pagesBelow, pagesBelow, hcount, List.range_succ_eq_map, List.map_cons, List.map_map]
  refine congrArg₂ List.cons ?_ (List.map_congr_left fun i _ => ?_)
  · rw [pgSize]
    bv_omega
  · rw [Function.comp_apply, pgSize]
    bv_omega

/-- An iteration of the loop of `pmm_init` pushes its page. -/
theorem pagesBelow_step {kernelEnd : Word} (hK : KernelEnd kernelEnd) {st : Word × Pmm × ℕ}
    (hinv : InitInv kernelEnd st) (hL : FreeList st.2.1 (pagesBelow kernelEnd st.1))
    (hlt : st.1 < ramEnd) :
    FreeList (pmmInitLoop.body st).2.1 (pagesBelow kernelEnd (pmmInitLoop.body st).1) := by
  obtain ⟨L, hL', -, hmem⟩ := hinv.chain
  obtain rfl := hL'.unique hL
  have hne : st.1 ≠ 0 := fun h0 => by
    have hbegin := hK.begin_le
    have hge := hinv.ge_start
    rw [kernelBegin] at hbegin
    rw [h0] at hge
    bv_omega
  show FreeList (freePage st.2.1 st.1) (pagesBelow kernelEnd (st.1 + pgSize))
  rw [pagesBelow_next hinv.ge_start hlt]
  -- the page is above those on the list
  exact freePage_freeList hL (fun q hq => ((hmem q).1 hq).1) hinv.aligned hne fun hp =>
    absurd ((hmem _).1 hp).2.2 (BitVec.lt_irrefl _)

/-- The stack that `pmm_init` leaves. -/
theorem pmmInit_pagesBelow {kernelEnd : Word} (hK : KernelEnd kernelEnd) (m : Mem) :
    FreeList (pmmInit kernelEnd (Pmm.boot m)).1 (pagesBelow kernelEnd ramEnd) := by
  have hinit : FreeList (Pmm.boot m) (pagesBelow kernelEnd kernelEnd) := by
    rw [pagesBelow_self]
    rfl
  have hrun := pmmInitLoop.run_inv
    (I := fun st => InitInv kernelEnd st ∧ FreeList st.2.1 (pagesBelow kernelEnd st.1))
    (fun st hst hc => by
      have hlt : st.1 < ramEnd := by simpa [pmmInitLoop] using hc
      exact ⟨initInv_step hK hst.1 hlt, pagesBelow_step hK hst.1 hst.2 hlt⟩)
    (⟨InitInv.init hK m, hinit⟩ : InitInv kernelEnd (kernelEnd, Pmm.boot m, 0) ∧ _)
  obtain ⟨⟨hinv, hL⟩, hexit⟩ := hrun
  rw [← hinv.eq_end hexit]
  exact hL

/-- The simulation: the free list is the stack. -/
theorem poolInv_stack_step {kernelEnd : Word} (hK : KernelEnd kernelEnd) {s : PoolState}
    {L : List Word} {o : PoolOp} (h : PoolInv kernelEnd L s) (hok : poolSystem.ok s o) :
    (poolSystem.step s o).1 = (stackSystem.step L o).1 ∧
      PoolInv kernelEnd (stackSystem.step L o).2 (poolSystem.step s o).2 := by
  cases o with
  | alloc =>
    have hret : (poolSystem.step s .alloc).1 = some (allocPage s.pmm).1 := rfl
    cases L with
    | nil => exact ⟨by rw [hret, allocPage_nil h.chain]; rfl, h.alloc_nil⟩
    | cons p L => exact ⟨by rw [hret, (allocPage_cons h.chain).1]; rfl, h.alloc_cons⟩
  | free p => exact ⟨rfl, h.free hK hok⟩
  | write a v =>
    obtain ⟨p, hp, ha⟩ := hok
    exact ⟨rfl, h.write hp ha v⟩

theorem poolInv_stack_run {kernelEnd : Word} (hK : KernelEnd kernelEnd) (m : Mem) {ops : List PoolOp}
    (hok : poolSystem.Admissible (PoolState.init kernelEnd m) ops) :
    poolSystem.results (PoolState.init kernelEnd m) ops =
      stackSystem.results (pagesBelow kernelEnd ramEnd) ops ∧
    PoolInv kernelEnd (stackSystem.final (pagesBelow kernelEnd ramEnd) ops)
      (poolSystem.final (PoolState.init kernelEnd m) ops) := by
  obtain ⟨L, h⟩ := PoolInv.init hK m
  obtain rfl := h.chain.unique (pmmInit_pagesBelow hK m)
  exact System.run_refines_eq (R := fun s L => PoolInv kernelEnd L s)
    (fun _ _ _ h hok => poolInv_stack_step hK h hok) h hok

/-- **The allocator is a stack.**  In every admissible run after `pmm_init` the answers are those of a
stack that holds the pages of the pool at the beginning, from the last one down, and at its end the
stack is the list of the free pages. -/
theorem allocator_is_stack {kernelEnd : Word} (hK : KernelEnd kernelEnd) (m : Mem)
    {ops : List PoolOp} (hok : poolSystem.Admissible (PoolState.init kernelEnd m) ops) :
    poolSystem.results (PoolState.init kernelEnd m) ops =
      stackSystem.results (pagesBelow kernelEnd ramEnd) ops ∧
    FreeList (poolSystem.final (PoolState.init kernelEnd m) ops).pmm
      (stackSystem.final (pagesBelow kernelEnd ramEnd) ops) := by
  obtain ⟨hres, h⟩ := poolInv_stack_run hK m hok
  exact ⟨hres, h.chain⟩

theorem allocator_is_stack_sample :
    poolSystem.results (PoolState.init kernelBegin Mem.zero)
        (takeAndReturn (PoolState.init kernelBegin Mem.zero)) =
      stackSystem.results (pagesBelow kernelBegin ramEnd)
        (takeAndReturn (PoolState.init kernelBegin Mem.zero)) := by
  obtain ⟨L, h⟩ := PoolInv.init kernelEnd_kernelBegin Mem.zero
  have hL : L ≠ [] := by
    rintro rfl
    simpa [PoolState.init] using (h.pool kernelBegin).1 (by decide)
  exact (allocator_is_stack kernelEnd_kernelBegin Mem.zero (h.takeAndReturn_admissible hL)).1

/-! ### Freeing a page that is free -/

/-- Allocations follow the links, as long as these do not lead to `NULL`. -/
theorem results_alloc (s : PoolState) {n : ℕ}
    (hne : ∀ i < n, s.pmm.mem.load64^[i] s.pmm.freePagesList ≠ 0) :
    poolSystem.results s (List.replicate n .alloc) =
      (List.range n).map fun i => some (s.pmm.mem.load64^[i] s.pmm.freePagesList) := by
  induction n generalizing s with
  | zero => rfl
  | succ n ih =>
    have hhead : s.pmm.freePagesList ≠ 0 := hne 0 (Nat.succ_pos n)
    have hstep : allocPage s.pmm = (s.pmm.freePagesList,
        { s.pmm with freePagesList := s.pmm.mem.load64 s.pmm.freePagesList }) := if_pos hhead
    rw [List.replicate_succ, System.results, List.range_succ_eq_map, List.map_cons, List.map_map]
    refine congrArg₂ List.cons ?_ ?_
    · show some (allocPage s.pmm).1 = _
      rw [hstep]
      rfl
    · have hpmm : (poolSystem.step s .alloc).2.pmm = (allocPage s.pmm).2 := rfl
      rw [ih] <;> rw [hpmm, hstep]
      · rfl
      · intro i hi
        exact hne (i + 1) (Nat.succ_lt_succ hi)

/-- The page is linked to the top of the stack, and those above it are linked to it. -/
theorem PoolInv.circular_of_free {kernelEnd : Word} {s : PoolState} {p : Word} {above below : List Word}
    (h : PoolInv kernelEnd (above ++ p :: below) s) :
    Circular (freePage s.pmm p).mem.load64 (p :: above) := by
  have halign := h.aligned_of_free
  have hp : PageAligned p := halign p (by simp)
  refine Linked.close h.chain (Mem.load64_store64_same s.pmm.mem p _) ?_
  intro q hq
  have hne : q ≠ p := by
    rintro rfl
    have hnodup := List.nodup_append.1 h.chain.nodup
    exact hnodup.2.2 q hq q List.mem_cons_self rfl
  have hword := load64_entry_of_wrote (freePage_wrote (s := s.pmm) hp) hp
    (halign q (List.mem_append_left _ hq)) hne 0
  rwa [entry_zero] at hword

/-- **Freeing a free page.**  After any admissible run, when a page is freed that is on the stack already,
`alloc_page` answers for ever with this page and those that were above it, over and over; the pages
below it are not handed out again. -/
theorem double_free_cycles {kernelEnd : Word} (hK : KernelEnd kernelEnd) (m : Mem)
    {ops : List PoolOp} (hok : poolSystem.Admissible (PoolState.init kernelEnd m) ops) {p : Word}
    {above below : List Word}
    (hL : stackSystem.final (pagesBelow kernelEnd ramEnd) ops = above ++ p :: below) (n : ℕ) :
    poolSystem.results (poolSystem.final (PoolState.init kernelEnd m) ops)
        (.free p :: List.replicate n .alloc) =
      none :: (List.range n).map fun i => (p :: above)[i % (above.length + 1)]? := by
  obtain ⟨-, h⟩ := poolInv_stack_run hK m hok
  rw [hL] at h
  generalize poolSystem.final (PoolState.init kernelEnd m) ops = s at h ⊢
  have hring := h.circular_of_free
  have hpages : ∀ q ∈ p :: above, q ≠ 0 := by
    intro q hq
    refine h.chain.ne_zero (List.mem_append.2 ?_)
    rcases List.mem_cons.1 hq with rfl | hq
    · exact Or.inr List.mem_cons_self
    · exact Or.inl hq
  have hallocs := results_alloc (n := n) (poolSystem.step s (.free p)).2 (by
    intro i _
    exact hpages _ (List.mem_of_getElem? (hring.iterate i)))
  rw [System.results, hallocs]
  refine congrArg₂ List.cons rfl (List.map_congr_left ?_)
  intro i _
  exact (hring.iterate i).symm

/-- The page below the last one is freed, and four pages are taken. -/
theorem double_free_cycles_sample :
    poolSystem.results (PoolState.init kernelBegin Mem.zero)
        (.free 0x87FFE000 :: List.replicate 4 .alloc) =
      none :: (List.range 4).map fun i => [0x87FFE000, 0x87FFF000][i % 2]? := by
  have hlast : pagesBelow kernelBegin ramEnd = 0x87FFF000 :: pagesBelow kernelBegin 0x87FFF000 :=
    pagesBelow_next (p := 0x87FFF000) (by decide) (by decide)
  have hnext : pagesBelow kernelBegin 0x87FFF000 = 0x87FFE000 :: pagesBelow kernelBegin 0x87FFE000 :=
    pagesBelow_next (p := 0x87FFE000) (by decide) (by decide)
  have hL : stackSystem.final (pagesBelow kernelBegin ramEnd) [] =
      [0x87FFF000] ++ 0x87FFE000 :: pagesBelow kernelBegin 0x87FFE000 := by
    rw [System.final_nil, hlast, hnext]
    rfl
  have hok : poolSystem.Admissible (PoolState.init kernelBegin Mem.zero) [] := trivial
  exact double_free_cycles kernelEnd_kernelBegin Mem.zero hok hL 4

end HxcOS
