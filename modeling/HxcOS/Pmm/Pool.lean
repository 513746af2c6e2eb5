import HxcOS.Lib.System
import HxcOS.Model.Pmm

/-!
# Runs of the page allocator

The allocator together with its clients: a client takes a page, gives one back that it holds, or
stores a byte inside a page that it holds.  `PoolInv` accounts for every page of the pool: it is
on the free list or held, and not both.  Each operation keeps it, so that it holds after every
admissible run from the state that `pmm_init` leaves, whatever the clients write and in whatever
order they allocate and free.
-/

namespace HxcOS

open ByteMem OpSystem

/-- What a client does: `alloc_page`, `free_page`, or a store of one byte. -/
inductive PoolOp
  | alloc
  | free (p : Word)
  | write (a : Word) (v : Byte)

/-- The allocator and the pages that clients hold. -/
structure PoolState where
  pmm : Pmm
  held : Finset Word

/-- Clients free only pages they hold, and write only inside pages they hold. -/
def poolSystem : System PoolState PoolOp (Option Word) where
  step s
    | .alloc =>
        let (p, pmm) := allocPage s.pmm
        (some p, ⟨pmm, if p = 0 then s.held else insert p s.held⟩)
    | .free p => (none, ⟨freePage s.pmm p, s.held.erase p⟩)
    | .write a v => (none, { s with pmm.mem := s.pmm.mem.store8 a v })
  ok s
    | .alloc => True
    | .free p => p ∈ s.held
    | .write a _ => ∃ p ∈ s.held, a ∈ page p

/-- The state that `pmm_init` leaves: no page is held yet. -/
def PoolState.init (kernelEnd : Word) (m : Mem) : PoolState :=
  ⟨(pmmInit kernelEnd (Pmm.boot m)).1, ∅⟩

/-- Every page of the pool is on the free list `L` or held, and not both. -/
structure PoolInv (kernelEnd : Word) (L : List Word) (s : PoolState) : Prop where
  chain : FreeList s.pmm L
  pool : ∀ p, PoolPage kernelEnd p ↔ p ∈ L ∨ p ∈ s.held
  disjoint : ∀ p ∈ L, p ∉ s.held

namespace PoolInv

variable {kernelEnd : Word} {L : List Word} {s : PoolState} {p : Word}

theorem poolPage_of_free (h : PoolInv kernelEnd L s) (hp : p ∈ L) : PoolPage kernelEnd p :=
  (h.pool p).2 (Or.inl hp)

theorem poolPage_of_held (h : PoolInv kernelEnd L s) (hp : p ∈ s.held) : PoolPage kernelEnd p :=
  (h.pool p).2 (Or.inr hp)

theorem aligned_of_free (h : PoolInv kernelEnd L s) : ∀ q ∈ L, PageAligned q :=
  fun _ hq => (h.poolPage_of_free hq).1

theorem init (hK : KernelEnd kernelEnd) (m : Mem) :
    ∃ L, PoolInv kernelEnd L (PoolState.init kernelEnd m) := by
  obtain ⟨L, hL, -, -, hmem⟩ := pmmInit_freeList hK m
  exact ⟨L, hL, fun p => by simp [hmem, PoolState.init], fun p _ => by simp [PoolState.init]⟩

theorem alloc_nil (h : PoolInv kernelEnd [] s) :
    PoolInv kernelEnd [] (poolSystem.step s .alloc).2 := by
  simp only [poolSystem, allocPage_nil h.chain, if_true]
  exact ⟨h.chain, h.pool, h.disjoint⟩

theorem alloc_cons (h : PoolInv kernelEnd (p :: L) s) :
    PoolInv kernelEnd L (poolSystem.step s .alloc).2 := by
  obtain ⟨hstep, hchain⟩ := allocPage_cons h.chain
  have hne : p ≠ 0 := h.chain.ne_zero (by simp)
  have hnodup := List.nodup_cons.1 h.chain.nodup
  simp only [poolSystem, hstep, if_neg hne] at hchain ⊢
  refine ⟨hchain, fun q => ?_, fun q hq => ?_⟩
  · rw [h.pool q, List.mem_cons, Finset.mem_insert]
    tauto
  · have hqp : q ≠ p := fun heq => hnodup.1 (heq ▸ hq)
    simpa [hqp] using h.disjoint q (List.mem_cons_of_mem _ hq)

theorem free (hK : KernelEnd kernelEnd) (h : PoolInv kernelEnd L s) (hp : p ∈ s.held) :
    PoolInv kernelEnd (p :: L) (poolSystem.step s (.free p)).2 := by
  have hpool := h.poolPage_of_held hp
  have hpL : p ∉ L := fun hmem => h.disjoint p hmem hp
  refine ⟨freePage_freeList h.chain h.aligned_of_free hpool.1 (hpool.ne_zero hK) hpL,
    fun q => ?_, fun q hq => ?_⟩
  · show PoolPage kernelEnd q ↔ q ∈ p :: L ∨ q ∈ s.held.erase p
    rw [h.pool q, List.mem_cons, Finset.mem_erase]
    by_cases hqp : q = p
    · simp [hqp, hp]
    · simp [hqp]
  · show q ∉ s.held.erase p
    rw [Finset.mem_erase]
    rintro ⟨hqp, hheld⟩
    rcases List.mem_cons.1 hq with heq | hmem
    · exact hqp heq
    · exact h.disjoint q hmem hheld

theorem write (h : PoolInv kernelEnd L s) (hp : p ∈ s.held) {a : Word} (ha : a ∈ page p)
    (v : Byte) : PoolInv kernelEnd L (poolSystem.step s (.write a v)).2 :=
  ⟨h.chain.of_wrote h.aligned_of_free (Wrote.store8 ha s.pmm.mem v) (h.poolPage_of_held hp).1
    fun hmem => h.disjoint p hmem hp, h.pool, h.disjoint⟩

/-- Every admissible operation keeps the account. -/
theorem step (hK : KernelEnd kernelEnd) {o : PoolOp} (h : PoolInv kernelEnd L s)
    (hok : poolSystem.ok s o) : ∃ L', PoolInv kernelEnd L' (poolSystem.step s o).2 := by
  cases o with
  | alloc =>
    cases L with
    | nil => exact ⟨[], h.alloc_nil⟩
    | cons p L => exact ⟨L, h.alloc_cons⟩
  | free p => exact ⟨p :: L, h.free hK hok⟩
  | write a v =>
    obtain ⟨p, hp, ha⟩ := hok
    exact ⟨L, h.write hp ha v⟩

end PoolInv

/-- The account holds after every admissible run. -/
theorem poolInv_run {kernelEnd : Word} (hK : KernelEnd kernelEnd) (m : Mem) {ops : List PoolOp}
    (hok : poolSystem.Admissible (PoolState.init kernelEnd m) ops) :
    ∃ L, PoolInv kernelEnd L (poolSystem.final (PoolState.init kernelEnd m) ops) :=
  System.run_inv (I := fun s => ∃ L, PoolInv kernelEnd L s)
    (fun _ _ ⟨_, h⟩ hok => h.step hK hok) (PoolInv.init hK m) hok

/-- **The allocator never loses, duplicates or double-issues a page.**  After every admissible run
the chain from `free_pages_list` is free of cycles and ends with `NULL`, its pages together with
the held ones are the pages of the pool, each once, and the next `alloc_page` returns `NULL`
exactly when all pages are held and otherwise a page that nobody holds. -/
theorem pages_accounted_for {kernelEnd : Word} (hK : KernelEnd kernelEnd) (m : Mem)
    {ops : List PoolOp} (hok : poolSystem.Admissible (PoolState.init kernelEnd m) ops) :
    let s := poolSystem.final (PoolState.init kernelEnd m) ops
    (∃ L, FreeList s.pmm L ∧ (L ++ s.held.toList).Nodup ∧
      ∀ p, p ∈ L ++ s.held.toList ↔ PoolPage kernelEnd p) ∧
    ((allocPage s.pmm).1 = 0 ↔ ∀ p, PoolPage kernelEnd p → p ∈ s.held) ∧
    ((allocPage s.pmm).1 ≠ 0 → PoolPage kernelEnd (allocPage s.pmm).1 ∧
      (allocPage s.pmm).1 ∉ s.held) := by
  intro s
  obtain ⟨L, h⟩ : ∃ L, PoolInv kernelEnd L s := poolInv_run hK m hok
  refine ⟨⟨L, h.chain, ?_, fun p => ?_⟩, ?_, fun hne => ?_⟩
  · refine List.nodup_append.2 ⟨h.chain.nodup, s.held.nodup_toList, fun p hp q hq heq => ?_⟩
    subst heq
    exact h.disjoint p hp (Finset.mem_toList.1 hq)
  · rw [List.mem_append, Finset.mem_toList, h.pool p]
  · rw [allocPage_eq_zero_iff h.chain]
    constructor
    · rintro rfl p hp
      simpa using (h.pool p).1 hp
    · intro hall
      refine List.eq_nil_iff_forall_not_mem.2 fun p hp => ?_
      exact h.disjoint p hp (hall p (h.poolPage_of_free hp))
  · cases L with
    | nil => exact absurd ((allocPage_eq_zero_iff h.chain).2 rfl) hne
    | cons p L =>
      rw [(allocPage_cons h.chain).1]
      exact ⟨h.poolPage_of_free (by simp), h.disjoint p (by simp)⟩

/-- A page is taken, written to, and given back. -/
def takeAndReturn (s : PoolState) : List PoolOp :=
  let p := (allocPage s.pmm).1
  [.alloc, .write p 7, .free p]

theorem PoolInv.takeAndReturn_admissible {kernelEnd : Word} {L : List Word} {s : PoolState}
    (h : PoolInv kernelEnd L s) (hL : L ≠ []) : poolSystem.Admissible s (takeAndReturn s) := by
  have hne : (allocPage s.pmm).1 ≠ 0 := fun h0 => hL ((allocPage_eq_zero_iff h.chain).1 h0)
  have hheld : (allocPage s.pmm).1 ∈ (poolSystem.step s .alloc).2.held := by
    simp only [poolSystem, if_neg hne]
    exact Finset.mem_insert_self _ _
  exact ⟨trivial, ⟨_, hheld, mem_page_self _⟩, hheld, trivial⟩

theorem pages_accounted_for_sample :
    let ops := takeAndReturn (PoolState.init kernelBegin Mem.zero)
    let s := poolSystem.final (PoolState.init kernelBegin Mem.zero) ops
    poolSystem.Admissible (PoolState.init kernelBegin Mem.zero) ops ∧
    ∃ L, FreeList s.pmm L ∧ (L ++ s.held.toList).Nodup ∧
      ∀ p, p ∈ L ++ s.held.toList ↔ PoolPage kernelBegin p := by
  obtain ⟨L, h⟩ := PoolInv.init kernelEnd_kernelBegin Mem.zero
  have hL : L ≠ [] := by
    rintro rfl
    simpa [PoolState.init] using (h.pool kernelBegin).1 (by decide)
  have hok := h.takeAndReturn_admissible hL
  exact ⟨hok, (pages_accounted_for kernelEnd_kernelBegin Mem.zero hok).1⟩

end HxcOS
