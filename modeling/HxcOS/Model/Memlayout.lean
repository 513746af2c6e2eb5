import HxcOS.Lib.Memory

/-!
# `os/src/memlayout.hpp` and pages as arrays of words

The constants of the physical memory layout, and the page as the unit the allocator and the page
tables work in.  A page is an address divisible by 4096; `page p` is the set of its bytes, and
`entry p i` is the address of the `i`-th of its 512 words, `(PageTableEntry*)p + i` in the source.

Distinct pages do not meet and neither do distinct entries of a page.  A store of one word
therefore changes exactly one entry (`entry_store64`), and stores inside one page change no entry
of another (`Wrote.load64_entry`).
-/

namespace HxcOS

open ByteMem

def ramBase : Word := 0x80000000
def ramShift : ℕ := 7 + 10 + 10
def ramSize : Word := 1 <<< ramShift
def ramEnd : Word := ramBase + ramSize
def kernelBegin : Word := 0x80200000
def pgShift : ℕ := 12
def pgSize : Word := 4096

theorem ramEnd_eq : ramEnd = 0x88000000 := rfl

/-- A page-aligned address. -/
def PageAligned (p : Word) : Prop := p.toNat % 4096 = 0

instance (p : Word) : Decidable (PageAligned p) := inferInstanceAs (Decidable (_ = _))

/-- The bytes of the page at `p`. -/
def page (p : Word) : Set Word := span p 4096

/-- The bytes of some pages. -/
def pagesOf (L : List Word) : Set Word := {a | ∃ p ∈ L, a ∈ page p}

/-- The index of a word in a page. -/
abbrev Idx := BitVec 9

/-- The address of the `i`-th word of a page. -/
def entry (p : Word) (i : Idx) : Word := p + 8 * i.setWidth 64

theorem entry_toNat {p : Word} (hp : PageAligned p) (i : Idx) :
    (entry p i).toNat = p.toNat + 8 * i.toNat := by
  unfold entry PageAligned at *
  have := i.isLt
  bv_omega

@[simp] theorem entry_zero (p : Word) : entry p 0 = p := by simp [entry]

theorem mem_page_self (p : Word) : p ∈ page p := by simp [page, mem_span]

theorem span_entry_subset {p : Word} (hp : PageAligned p) (i : Idx) :
    span (entry p i) 8 ⊆ page p := by
  intro b hb
  have h := entry_toNat hp i
  have := i.isLt
  unfold PageAligned at hp
  rw [mem_span] at hb
  rw [page, mem_span]
  bv_omega

theorem page_disjoint {p q : Word} (hp : PageAligned p) (hq : PageAligned q) (h : p ≠ q) :
    Disjoint (page p) (page q) := by
  rw [Set.disjoint_left]
  intro b hb hb'
  unfold PageAligned at hp hq
  rw [page, mem_span] at hb hb'
  apply h
  bv_omega

theorem eq_of_mem_page {p q b : Word} (hp : PageAligned p) (hq : PageAligned q)
    (hb : b ∈ page p) (hb' : b ∈ page q) : p = q := by
  by_contra h
  exact Set.disjoint_left.1 (page_disjoint hp hq h) hb hb'

theorem span_entry_disjoint {p : Word} (hp : PageAligned p) {i j : Idx} (h : i ≠ j) :
    Disjoint (span (entry p i) 8) (span (entry p j) 8) := by
  rw [Set.disjoint_left]
  intro b hb hb'
  have hi := entry_toNat hp i
  have hj := entry_toNat hp j
  have := i.isLt
  have := j.isLt
  unfold PageAligned at hp
  rw [mem_span] at hb hb'
  apply h
  apply BitVec.eq_of_toNat_eq
  bv_omega

/-! ### Words of pages under stores -/

theorem entry_store64 {p q : Word} (hp : PageAligned p) (hq : PageAligned q) (m : Mem)
    (i j : Idx) (v : Word) :
    (m.store64 (entry p i) v).load64 (entry q j) =
      if q = p ∧ j = i then v else m.load64 (entry q j) := by
  by_cases hqp : q = p
  · subst hqp
    by_cases hji : j = i
    · subst hji
      simp
    · rw [if_neg (by simp [hji]), Mem.load64_store64_of_disjoint]
      exact span_entry_disjoint hp hji
  · rw [if_neg (by simp [hqp]), Mem.load64_store64_of_disjoint]
    exact (page_disjoint hq hp hqp).mono (span_entry_subset hq j) (span_entry_subset hp i)

/-- Stores inside the page `p` leave the words of every other page alone. -/
theorem load64_entry_of_wrote {p q : Word} {m m' : Mem} (h : Wrote (page p) m m')
    (hp : PageAligned p) (hq : PageAligned q) (hne : q ≠ p) (j : Idx) :
    m'.load64 (entry q j) = m.load64 (entry q j) :=
  h.load64_eq ((page_disjoint hq hp hne).mono_left (span_entry_subset hq j))

theorem wrote_entry {p : Word} (hp : PageAligned p) (m : Mem) (i : Idx) (v : Word) :
    Wrote (page p) m (m.store64 (entry p i) v) :=
  Wrote.store64 (span_entry_subset hp i) m v

/-- A page of zero bytes is a page of zero words. -/
theorem load64_entry_eq_zero {p : Word} {m : Mem} (hp : PageAligned p)
    (h : ∀ b ∈ page p, m.byte b = 0) (i : Idx) : m.load64 (entry p i) = 0 :=
  Mem.load64_eq_zero fun b hb => h b (span_entry_subset hp i hb)

/-! ### The pages of the pool -/

/-- The pages of `[kernelEnd, ramEnd)`. -/
def PoolPage (kernelEnd p : Word) : Prop := PageAligned p ∧ kernelEnd ≤ p ∧ p < ramEnd

instance (kernelEnd p : Word) : Decidable (PoolPage kernelEnd p) :=
  inferInstanceAs (Decidable (_ ∧ _ ∧ _))

/-- The kernel ends at a page boundary between `kernelBegin` and the end of the memory. -/
structure KernelEnd (kernelEnd : Word) : Prop where
  aligned : PageAligned kernelEnd
  begin_le : kernelBegin ≤ kernelEnd
  le_end : kernelEnd ≤ ramEnd

theorem kernelEnd_kernelBegin : KernelEnd kernelBegin := ⟨by decide, by decide, by decide⟩

theorem PoolPage.ne_zero {kernelEnd p : Word} (hK : KernelEnd kernelEnd)
    (h : PoolPage kernelEnd p) : p ≠ 0 := by
  obtain ⟨-, hle, -⟩ := h
  have := hK.begin_le
  unfold kernelBegin at this
  rintro rfl
  bv_omega

theorem PoolPage.entry_ne_zero {kernelEnd p : Word} (hK : KernelEnd kernelEnd)
    (h : PoolPage kernelEnd p) (i : Idx) : entry p i ≠ 0 := by
  have hentry := entry_toNat h.1 i
  have hne := h.ne_zero hK
  intro h0
  rw [h0] at hentry
  apply hne
  bv_omega

/-- The bytes of the pages of the pool. -/
def pool (kernelEnd : Word) : Set Word := {a | ∃ p, PoolPage kernelEnd p ∧ a ∈ page p}

theorem PoolPage.page_subset {kernelEnd p : Word} (h : PoolPage kernelEnd p) :
    page p ⊆ pool kernelEnd := fun _ ha => ⟨p, h, ha⟩

/-- No page of the pool meets the page at `NULL`. -/
theorem notMem_pool_of_null {kernelEnd a : Word} (hK : KernelEnd kernelEnd) (ha : a ∈ page 0) :
    a ∉ pool kernelEnd := by
  rintro ⟨p, hp, hap⟩
  exact hp.ne_zero hK (eq_of_mem_page hp.1 (by decide) hap ha)

theorem PoolPage.toNat_lt {kernelEnd p : Word} (h : PoolPage kernelEnd p) :
    p.toNat < 0x88000000 := by
  obtain ⟨-, -, hlt⟩ := h
  rw [ramEnd_eq] at hlt
  bv_omega

end HxcOS
