import HxcOS.Lib.Chain
import HxcOS.Lib.Loop
import HxcOS.Model.Memlayout

/-!
# `os/src/pmm.cpp`: the physical page allocator

The free pages form a list threaded through their own first words: `free_pages_list` points to the
first one, the word at the start of a free page is the address of the next, and the last holds
`NULL`.  The allocator's state is that pointer together with the memory.

`FreeList s L` ties the state to the list `L` of the free pages, in order.  `allocPage` takes the
head off and `freePage` puts a page in front; both keep the tie, and so does every store that
stays out of the free pages.
-/

namespace HxcOS

open ByteMem Chain Loop

/-- The memory and `free_pages_list`.  `denied` and `nullMem` are ghosts: how often `alloc_page` has
returned `NULL`, and the memory when it first did. -/
structure Pmm where
  mem : Mem
  freePagesList : Word
  denied : ℕ
  nullMem : Option Mem

/-- `void *pmm::alloc_page()`. -/
def allocPage (s : Pmm) : Word × Pmm :=
  let p := s.freePagesList
  if p ≠ 0 then (p, { s with freePagesList := s.mem.load64 p })
  else (p, { s with denied := s.denied + 1, nullMem := some (s.nullMem.getD s.mem) })

/-- `void pmm::free_page(void *page)`. -/
def freePage (s : Pmm) (page : Word) : Pmm :=
  { s with mem := s.mem.store64 page s.freePagesList, freePagesList := page }

/-- `for (void *p = KERNEL_END; p < RAM_END; p += PGSIZE) { free_page(p); num++; }`, with the state
`(p, s, num)`. -/
def pmmInitLoop : While (Word × Pmm × ℕ) where
  cond s := decide (s.1 < ramEnd)
  body s := (s.1 + pgSize, freePage s.2.1 s.1, s.2.2 + 1)
  measure s := ramEnd.toNat - s.1.toNat
  decreases s hs := by
    have hlt : s.1 < 0x88000000 := of_decide_eq_true hs
    rw [ramEnd_eq, pgSize]
    bv_omega

/-- `void pmm::pmm_init()`, with the number of pages it reports. -/
def pmmInit (kernelEnd : Word) (s : Pmm) : Pmm × ℕ := (pmmInitLoop.run (kernelEnd, s, 0)).2

/-- The allocator before `pmm_init`: the static `free_pages_list` is `NULL`. -/
def Pmm.boot (m : Mem) : Pmm := ⟨m, 0, 0, none⟩

/-! ### The free list -/

/-- The free pages, in the order in which `alloc_page` hands them out. -/
def FreeList (s : Pmm) (L : List Word) : Prop := Linked s.mem.load64 0 s.freePagesList L

instance (s : Pmm) (L : List Word) : Decidable (FreeList s L) :=
  inferInstanceAs (Decidable (Linked s.mem.load64 0 s.freePagesList L))

namespace FreeList

variable {s : Pmm} {L : List Word} {p : Word}

theorem nodup (h : FreeList s L) : L.Nodup := Linked.nodup h

theorem unique {L' : List Word} (h : FreeList s L) (h' : FreeList s L') : L = L' :=
  Linked.unique h h'

theorem ne_zero (h : FreeList s L) (hp : p ∈ L) : p ≠ 0 := Linked.ne_nil h p hp

/-- Stores inside a page that is not free leave the free list alone. -/
theorem of_wrote {m : Mem} (h : FreeList s L) (hL : ∀ q ∈ L, PageAligned q)
    (hw : Wrote (page p) s.mem m) (hp : PageAligned p) (hpL : p ∉ L) :
    FreeList { s with mem := m } L := by
  refine Linked.congr (show Linked s.mem.load64 0 s.freePagesList L from h) fun q hq => ?_
  have hne : q ≠ p := fun heq => hpL (heq ▸ hq)
  have hword := load64_entry_of_wrote hw hp (hL q hq) hne 0
  rwa [entry_zero] at hword

end FreeList

@[simp] theorem allocPage_mem (s : Pmm) : (allocPage s).2.mem = s.mem := by
  unfold allocPage
  dsimp only
  split_ifs <;> rfl

theorem allocPage_nil {s : Pmm} (h : FreeList s []) :
    allocPage s = (0, { s with
      denied := s.denied + 1
      nullMem := some (s.nullMem.getD s.mem) }) := by
  have hnull : s.freePagesList = 0 := h
  simp [allocPage, hnull]

theorem allocPage_cons {s : Pmm} {p : Word} {L : List Word} (h : FreeList s (p :: L)) :
    allocPage s = (p, { s with freePagesList := s.mem.load64 p }) ∧ FreeList (allocPage s).2 L := by
  have hne : p ≠ 0 := h.ne_zero (by simp)
  obtain ⟨hhead, hrest⟩ := Linked.pop h
  have hstep : allocPage s = (p, { s with freePagesList := s.mem.load64 p }) := by
    rw [allocPage, hhead]
    exact if_pos hne
  rw [hstep]
  exact ⟨rfl, by rw [hhead] at hrest; exact hrest⟩

/-- `alloc_page` returns `NULL` exactly when no page is free. -/
theorem allocPage_eq_zero_iff {s : Pmm} {L : List Word} (h : FreeList s L) :
    (allocPage s).1 = 0 ↔ L = [] := by
  rw [← Linked.head_eq_nil_iff h]
  unfold allocPage
  dsimp only
  split_ifs with hp
  · exact ⟨fun h0 => absurd h0 hp, fun h0 => absurd h0 hp⟩
  · exact Iff.rfl

/-- The ghost counter moves exactly when no page is free. -/
theorem allocPage_denied {s : Pmm} {L : List Word} (h : FreeList s L) :
    (allocPage s).2.denied = s.denied ↔ L ≠ [] := by
  cases L with
  | nil => simp [allocPage_nil h]
  | cons p L => simp [(allocPage_cons h).1]

theorem freePage_wrote {s : Pmm} {p : Word} (hp : PageAligned p) :
    Wrote (page p) s.mem (freePage s p).mem := by
  have h := wrote_entry hp s.mem 0 s.freePagesList
  rwa [entry_zero] at h

theorem freePage_freeList {s : Pmm} {L : List Word} {p : Word} (h : FreeList s L)
    (hL : ∀ q ∈ L, PageAligned q) (hp : PageAligned p) (hne : p ≠ 0) (hpL : p ∉ L) :
    FreeList (freePage s p) (p :: L) := by
  have hrest := h.of_wrote hL (freePage_wrote hp) hp hpL
  exact ⟨rfl, hne, by rw [show (freePage s p).mem.load64 p = s.freePagesList from
    Mem.load64_store64_same s.mem p _]; exact hrest⟩

/-! ### Initialisation -/

/-- The free list while `pmm_init` runs: the pages below the loop pointer. -/
structure InitInv (kernelEnd : Word) (st : Word × Pmm × ℕ) : Prop where
  aligned : PageAligned st.1
  le_end : st.1 ≤ ramEnd
  ge_start : kernelEnd ≤ st.1
  denied : st.2.1.denied = 0
  chain : ∃ L, FreeList st.2.1 L ∧ st.2.2 = L.length ∧
    ∀ p, p ∈ L ↔ PageAligned p ∧ kernelEnd ≤ p ∧ p < st.1

theorem InitInv.init {kernelEnd : Word} (hK : KernelEnd kernelEnd) (m : Mem) :
    InitInv kernelEnd (kernelEnd, Pmm.boot m, 0) :=
  ⟨hK.aligned, hK.le_end, BitVec.le_refl kernelEnd, rfl, [], rfl, rfl, fun p => by
    simp only [List.not_mem_nil, false_iff]
    rintro ⟨-, h1, h2⟩
    bv_omega⟩

/-- The loop ends at the end of the memory. -/
theorem InitInv.eq_end {kernelEnd : Word} {st : Word × Pmm × ℕ} (h : InitInv kernelEnd st)
    (hexit : ¬ pmmInitLoop.cond st = true) : st.1 = ramEnd := by
  simp only [pmmInitLoop, decide_eq_true_eq] at hexit
  exact BitVec.le_antisymm h.le_end (BitVec.not_lt.1 hexit)

theorem initInv_step {kernelEnd : Word} (hK : KernelEnd kernelEnd) {st : Word × Pmm × ℕ}
    (h : InitInv kernelEnd st) (hlt : st.1 < ramEnd) :
    InitInv kernelEnd (pmmInitLoop.body st) := by
  obtain ⟨p, s, num⟩ := st
  obtain ⟨hal, -, hge, hden, L, hL, hnum, hmem⟩ := h
  have hbegin := hK.begin_le
  rw [kernelBegin] at hbegin
  rw [ramEnd_eq] at hlt
  dsimp only at hal hge hden hL hnum hmem hlt
  have hLal : ∀ q ∈ L, PageAligned q := fun q hq => ((hmem q).1 hq).1
  have hpL : p ∉ L := fun hp => by have := ((hmem p).1 hp).2.2; bv_omega
  have hne : p ≠ 0 := by rintro rfl; bv_omega
  have hnext : PageAligned (p + pgSize) ∧ p + pgSize ≤ ramEnd ∧ kernelEnd ≤ p + pgSize := by
    rw [PageAligned, pgSize, ramEnd_eq] at *
    refine ⟨?_, ?_, ?_⟩ <;> bv_omega
  refine ⟨hnext.1, hnext.2.1, hnext.2.2, hden, p :: L, freePage_freeList hL hLal hal hne hpL,
    by rw [List.length_cons, ← hnum]; rfl, fun q => ?_⟩
  show q ∈ p :: L ↔ PageAligned q ∧ kernelEnd ≤ q ∧ q < p + pgSize
  rw [List.mem_cons, hmem q, pgSize]
  unfold PageAligned at *
  constructor
  · rintro (rfl | ⟨h1, h2, h3⟩)
    · exact ⟨hal, hge, by bv_omega⟩
    · exact ⟨h1, h2, by bv_omega⟩
  · rintro ⟨h1, h2, h3⟩
    by_cases heq : q = p
    · exact Or.inl heq
    · exact Or.inr ⟨h1, h2, by bv_omega⟩

/-- After `pmm_init` the free list is exactly the pages between the kernel and the end of the
memory, and `num` is their number. -/
theorem pmmInit_freeList {kernelEnd : Word} (hK : KernelEnd kernelEnd) (m : Mem) :
    ∃ L, FreeList (pmmInit kernelEnd (Pmm.boot m)).1 L ∧
      (pmmInit kernelEnd (Pmm.boot m)).2 = L.length ∧
      (pmmInit kernelEnd (Pmm.boot m)).1.denied = 0 ∧
      ∀ p, p ∈ L ↔ PoolPage kernelEnd p := by
  obtain ⟨hinv, hexit⟩ := pmmInitLoop.run_inv
    (fun st hst hc => initInv_step hK hst (by simpa [pmmInitLoop] using hc)) (InitInv.init hK m)
  obtain ⟨L, hL, hnum, hmem⟩ := hinv.chain
  rw [hinv.eq_end hexit] at hmem
  exact ⟨L, hL, hnum, hinv.denied, hmem⟩

end HxcOS
