import HxcOS.Model.Pmm
import HxcOS.Process.Layout

/-!
# The kernel and its processes

Constructor calls of `Process` and calls of `load_from_elf` run among the calls of the other clients of
the allocator and the page tables, in any order.  `Kernel.account` is the record that is kept of a page
of a segment, by the answer of `add` alone: the page is mapped once `add` has answered 0, and is held
otherwise.

The obligations say that the segments of an image are code or data, and that `alloc_page` does not run
out.  Nothing is said about the other fields of an image, whether or not they make sense.  The loader
then keeps the promises of a client: whatever the processes do is a run of the allocator and the page
tables (`processes_are_clients`), and each load returns.
-/

namespace HxcOS

open ByteMem OpSystem

/-- A call of a client, `Process::Process`, or `load_from_elf` of the process `i`. -/
inductive OsOp
  | call (o : KernelOp)
  | construct (trapframe : TrapFrame) (mappedInfo : MappedInfo)
  | loadFromElf (i : ℕ) (perm₀ elfBuff : Word)

/-- The kernel and the processes, each with the number of its page table. -/
structure Os where
  kernel : Kernel
  processes : List (ℕ × Process)

/-- The record of a page that was loaded into the table `t`. -/
def Kernel.account (t : ℕ) (perm₀ : Word) (s : Kernel) (pg : LoadedPage) : Kernel :=
  if pg.ret = 0 then
    { s with bound := s.bound.set t pg.key (some (pg.dest, pg.header.perm perm₀)) }
  else { s with held := insert pg.dest s.held }

namespace Os

def init (kernelEnd : Word) (m : Mem) : Os := ⟨Kernel.init kernelEnd m, []⟩

/-- The answer is `none` for a load that does not return. -/
def step (s : Os) : OsOp → Option Ret × Os
  | .call o =>
      let (r, kernel) := s.kernel.step o
      (some r, { s with kernel := kernel })
  | .construct trapframe mappedInfo =>
      let (p, pmm) := Process.new trapframe mappedInfo s.kernel.pmm
      (some .done, {
        kernel := { s.kernel with pmm := pmm, tables := s.kernel.tables ++ [p.pageTable] }
        processes := s.processes ++ [(s.kernel.tables.length, p)] })
  | .loadFromElf i perm₀ elfBuff =>
      match s.processes[i]? with
      | none => (some .done, s)
      | some (t, p) =>
          match p.loadFromElf s.kernel.pmm perm₀ elfBuff with
          | .error pmm => (none, { s with kernel.pmm := pmm })
          | .ok st => (some .done, {
              kernel := st.loaded.foldl (Kernel.account t perm₀) { s.kernel with pmm := st.pmm }
              processes := s.processes.set i (t, st.process) })

/-- The segments that the load reads are code or data, and `alloc_page` does not fail during it. -/
structure Loadable (s : Pmm) (p : Process) (perm₀ elfBuff : Word) : Prop where
  flags : ∀ header ∈ p.headersRead s perm₀ elfBuff, header.type = ELF_PROG_LOAD → header.ValidFlags
  supplied : failures (p.loadFromElf s perm₀ elfBuff) = s.denied

end Os

/-- Clients keep their promises, and `alloc_page` does not run out. -/
def osSystem : System Os OsOp (Option Ret) where
  step := Os.step
  ok s
    | .call o => kernelSystem.ok s.kernel o
    | .construct .. => s.kernel.Supplied .newTable
    | .loadFromElf i perm₀ elfBuff =>
        ∃ t p, s.processes[i]? = some (t, p) ∧ Os.Loadable s.kernel.pmm p perm₀ elfBuff

namespace Kernel

variable {t u : ℕ} {perm₀ : Word} {s : Kernel} {pgs : List LoadedPage}

@[simp] theorem account_tables (t : ℕ) (perm₀ : Word) (s : Kernel) (pg : LoadedPage) :
    (s.account t perm₀ pg).tables = s.tables := by
  unfold account
  split_ifs <;> rfl

theorem account_setPmm (t : ℕ) (perm₀ : Word) (s : Kernel) (pg : LoadedPage) (pmm : Pmm) :
    ({ s with pmm := pmm }).account t perm₀ pg = { s.account t perm₀ pg with pmm := pmm } := by
  unfold account
  split_ifs <;> rfl

/-- The record of another table is left alone. -/
theorem account_bound_of_ne (h : u ≠ t) (pg : LoadedPage) :
    (s.account t perm₀ pg).bound u = s.bound u := by
  unfold account
  split_ifs
  · funext κ
    exact if_neg fun hat => h hat.1
  · rfl

theorem foldl_account_setPmm (s : Kernel) (pmm : Pmm) :
    pgs.foldl (account t perm₀) { s with pmm := pmm } =
      { pgs.foldl (account t perm₀) s with pmm := pmm } := by
  induction pgs generalizing s with
  | nil => rfl
  | cons pg pgs ih => rw [List.foldl_cons, List.foldl_cons, account_setPmm, ih]

theorem foldl_account_tables : (pgs.foldl (account t perm₀) s).tables = s.tables := by
  induction pgs generalizing s with
  | nil => rfl
  | cons pg pgs ih => rw [List.foldl_cons, ih, account_tables]

theorem foldl_account_bound_of_ne (h : u ≠ t) :
    (pgs.foldl (account t perm₀) s).bound u = s.bound u := by
  induction pgs generalizing s with
  | nil => rfl
  | cons pg pgs ih => rw [List.foldl_cons, ih, account_bound_of_ne h]

end Kernel

/-! ### What a load stores -/

/-- The page is on the free list. -/
def Kernel.Free (s : Kernel) (p : Word) : Prop := ∃ L, FreeList s.pmm L ∧ p ∈ L

/-- A client holds the page, or has mapped it. -/
def Kernel.Mine (s : Kernel) (p : Word) : Prop :=
  p ∈ s.held ∨ ∃ t κ perm, s.bound t κ = some (p, perm)

namespace KernelInv

variable {K : Word} {g : Ghost} {k : Kernel} {p : Word}

theorem free_iff (h : KernelInv K g k) : k.Free p ↔ g.own p = .free := by
  rw [← h.owned.free_iff]
  constructor
  · rintro ⟨L, hL, hp⟩
    rwa [h.owned.chain.unique hL]
  · exact fun hp => ⟨g.free, h.owned.chain, hp⟩

theorem isData_of_mine (h : KernelInv K g k) (hp : k.Mine p) : g.IsData p := by
  rcases hp with hheld | ⟨t, κ, perm, hb⟩
  · exact Or.inl ((h.owned.held_iff p).1 hheld)
  · exact Or.inr ⟨t, κ.path, rfl, ((h.booked t κ p perm).1 hb).1⟩

end KernelInv

/-- The addresses from which the `j`-th page of a segment is copied. -/
def ElfProgHeader.sources (h : ElfProgHeader) (j : ℕ) : Set Word :=
  span (h.off + BitVec.ofNat 64 j * pgSize) (h.copied j).toNat

/-- The pages `pgs` were free, and have been filled.  Pages that are still free, pages of clients, and
the memory outside of the pool keep their bytes. -/
structure FilledPages (K : Word) (k k' : Kernel) (pgs : List LoadedPage) : Prop where
  free : ∀ p, k'.Free p → k.Free p
  mine : ∀ p, k.Mine p → k'.Mine p
  same : ∀ p, k'.Free p ∨ k.Mine p → ∀ a ∈ page p, k'.pmm.mem.byte a = k.pmm.mem.byte a
  outside : ∀ a ∉ pool K, k'.pmm.mem.byte a = k.pmm.mem.byte a
  pages : ∀ pg ∈ pgs, k.Free pg.dest ∧ k'.Mine pg.dest ∧
    (Disjoint (pg.header.sources pg.index) (pool K) → ∀ x < 4096,
      k'.pmm.mem.byte (pg.dest + BitVec.ofNat 64 x) = k.pmm.mem.byte (pg.source x))

namespace FilledPages

variable {K : Word} {k k' k'' : Kernel} {pgs pgs' : List LoadedPage}

theorem refl (K : Word) (k : Kernel) : FilledPages K k k [] :=
  ⟨fun _ hp => hp, fun _ hp => hp, fun _ _ _ _ => rfl, fun _ _ => rfl, by simp⟩

theorem trans (h : FilledPages K k k' pgs) (h' : FilledPages K k' k'' pgs') :
    FilledPages K k k'' (pgs ++ pgs') := by
  refine ⟨fun p hp => h.free p (h'.free p hp), fun p hp => h'.mine p (h.mine p hp),
    fun p hp a ha => ?_, fun a ha => (h'.outside a ha).trans (h.outside a ha), fun pg hpg => ?_⟩
  · rcases hp with hfree | hmine
    · exact (h'.same p (Or.inl hfree) a ha).trans (h.same p (Or.inl (h'.free p hfree)) a ha)
    · exact (h'.same p (Or.inr (h.mine p hmine)) a ha).trans (h.same p (Or.inr hmine) a ha)
  · rcases List.mem_append.1 hpg with hpg | hpg
    · -- the page of a client is left alone afterwards
      obtain ⟨hfree, hmine, hbytes⟩ := h.pages pg hpg
      exact ⟨hfree, h'.mine _ hmine, fun hsource x hx =>
        (h'.same _ (Or.inr hmine) _ (offset_mem_page hx)).trans (hbytes hsource x hx)⟩
    · obtain ⟨hfree, hmine, hbytes⟩ := h'.pages pg hpg
      refine ⟨h.free _ hfree, hmine, fun hsource x hx => (hbytes hsource x hx).trans ?_⟩
      rw [LoadedPage.source]
      split_ifs with hcopied
      · refine h.outside _ (Set.disjoint_left.1 hsource ?_)
        exact mem_span_add hcopied (by omega)
      · exact h.same _ (Or.inl hfree) _ (offset_mem_page hx)

end FilledPages

/-- A page is taken, added to a table, and filled. -/
theorem KernelInv.filled {K : Word} {g : Ghost} {k : Kernel} {p : Word} {L : List Word} {t : ℕ}
    {tbl : PageTable} (hK : KernelEnd K) (h : KernelInv K g k) (hL : g.free = p :: L)
    (ht : k.tables[t]? = some tbl) {header : ElfProgHeader} (hflags : header.ValidFlags)
    (perm₀ va : Word) (j : ℕ) {r : ℤ × Pmm}
    (hr : r = tbl.add (HxcOS.allocPage k.pmm).2 va p (header.perm perm₀))
    (hsup : r.2.denied = (HxcOS.allocPage k.pmm).2.denied)
    (hmine : ∀ q, q = p ∨ k.Mine q → (k.account t perm₀ ⟨header, j, p, r.1⟩).Mine q) {m : Mem}
    (hcopy : memcpy r.2.mem p (header.off + BitVec.ofNat 64 j * pgSize) (header.copied j) =
      some (p, m)) :
    FilledPages K k { k.account t perm₀ ⟨header, j, p, r.1⟩ with pmm := { r.2 with mem := m } }
      [⟨header, j, p, r.1⟩] := by
  have hpfree : g.own p = .free := (h.owned.free_iff p).1 (by simp [hL])
  have hpool : PoolPage K p := h.owned.poolPage (by rw [hpfree]; simp)
  -- the roles of the pages after `add`
  have htaken := h.owned.alloc hL
  rw [hr, PageTable.add_denied] at hsup
  obtain ⟨g', held, h', hdata, hkept, -, hw⟩ := htaken.add_data ht
    ((htaken.pageWalkAlloc_denied ht).1 hsup) (show Function.update g.own p .held p = .held by simp)
    (hflags.perm_bounds perm₀)
  dsimp only at h' hkept hw
  rw [← hr, allocPage_mem] at hw
  rw [← hr] at h'
  have hkept' : ∀ q, g.own q ≠ .free → q ≠ p ∧ g'.own q = g.own q := by
    intro q hq
    have hqp : q ≠ p := by
      rintro rfl
      exact hq hpfree
    have hsame : Function.update g.own p .held q = g.own q := Function.update_of_ne hqp _ _
    exact ⟨hqp, (hkept q hqp (by rwa [hsame])).trans hsame⟩
  -- the page lies in the memory
  have hlow := hpool.2.1
  have hlt := hpool.toNat_lt
  have hbegin := hK.begin_le
  rw [kernelBegin] at hbegin
  have hnb : (header.copied j).toNat ≤ 4096 := header.copied_le j
  obtain ⟨m', hcopy', hwpage⟩ := memcpy_wrote r.2.mem p (header.off + BitVec.ofNat 64 j * pgSize)
    (header.copied j) (by omega) (by bv_omega)
  obtain ⟨-, rfl⟩ := Prod.mk.inj (Option.some.inj (hcopy'.symm.trans hcopy))
  have hafter := h'.wrote (hwpage.mono (span_mono hnb)) hdata
  -- pages that are neither nodes nor the page itself
  have hother : ∀ q, PoolPage K q → q ≠ p →
      (∀ u π, π.length < 3 → g'.own q ≠ .inTable u π) → ∀ a ∈ page q,
      m'.byte a = k.pmm.mem.byte a := by
    intro q hq hqp hno a ha
    have hdisj := page_disjoint hq.1 hpool.1 hqp
    rw [(hwpage.mono (span_mono hnb)).byte_eq (Set.disjoint_left.1 hdisj ha),
      hw.byte_eq (h'.notMem_nodeBytes hq ha hno)]
  have hfree : ∀ q, Kernel.Free { k.account t perm₀ ⟨header, j, p, r.1⟩ with
      pmm := { r.2 with mem := m' } } q → g'.own q = .free := by
    rintro q ⟨L', hL', hq⟩
    rw [← h'.free_iff, ← FreeList.unique hL' hafter.chain]
    exact hq
  refine ⟨fun q hq => ?_, fun q hq => hmine q (Or.inr hq), fun q hq a ha => ?_, fun a ha => ?_, ?_⟩
  · rw [h.free_iff]
    by_contra hne
    rw [← (hkept' q hne).2] at hne
    exact hne (hfree q hq)
  · rcases hq with hq | hq
    · have hqfree := hfree q hq
      have hqp : q ≠ p := by
        rintro rfl
        exact hdata.ne_free hqfree
      exact hother q (h'.poolPage (by rw [hqfree]; simp)) hqp
        (fun u π _ => by rw [hqfree]; simp) a ha
    · have hqdata := h.isData_of_mine hq
      obtain ⟨hqp, hown⟩ := hkept' q hqdata.ne_free
      refine hother q (h.owned.poolPage hqdata.ne_outside) hqp (fun u π hπ => ?_) a ha
      rw [hown]
      exact hqdata.ne_node hπ
  · rw [(hwpage.mono (span_mono hnb)).byte_eq fun hmem => ha (hpool.page_subset hmem)]
    exact hw.byte_eq fun hmem => ha (h'.nodeBytes_subset_pool hmem)
  · rw [List.forall_mem_singleton]
    refine ⟨h.free_iff.2 hpfree, hmine p (Or.inl rfl), fun hsource x hx => ?_⟩
    rw [LoadedPage.source]
    split_ifs with hcopied
    · -- the source is no node
      have hahead : Ahead p (header.off + BitVec.ofNat 64 j * pgSize) (header.copied j).toNat :=
        Ahead.of_disjoint (by omega) (hsource.mono_right
          ((span_mono hnb).trans hpool.page_subset))
      obtain ⟨m'', hcopy'', hexact⟩ := memcpy_copied r.2.mem (by omega) (by bv_omega) hahead
      obtain ⟨-, rfl⟩ := Prod.mk.inj (Option.some.inj (hcopy''.symm.trans hcopy'))
      refine (hexact.copied x hcopied).trans (hw.byte_eq fun hmem => ?_)
      exact Set.disjoint_left.1 hsource (mem_span_add hcopied (by omega))
        (h'.nodeBytes_subset_pool hmem)
    · -- the rest of the page is not stored to
      have hrest : p + BitVec.ofNat 64 x ∉ span p (header.copied j).toNat := by
        rw [mem_span]
        bv_omega
      refine (hwpage.byte_eq hrest).trans (hw.byte_eq ?_)
      exact h'.notMem_nodeBytes hpool (offset_mem_page hx) fun u π hπ => hdata.ne_node hπ

/-! ### The loader is a client -/

/-- The call maps pages with permissions of `Q` only. -/
def KernelOp.AddsOnly (Q : Word → Prop) (o : KernelOp) : Prop :=
  ∀ t va pa perm, o = .add t va pa perm → Q perm

/-- The allocator and the page tables, for clients that use permissions of `Q` only. -/
def permSystem (Q : Word → Prop) : System Kernel KernelOp Ret :=
  kernelSystem.restrict fun _ o => o.AddsOnly Q

/-- `Q` allows what the loader asks for. -/
structure LoaderPerms (Q : Word → Prop) : Prop where
  code : Q (permissionCode false true true true false)
  data : Q (permissionCode true true false true false)

theorem LoaderPerms.perm {Q : Word → Prop} (hQ : LoaderPerms Q) {header : ElfProgHeader}
    (hflags : header.ValidFlags) (perm₀ : Word) :
    Q (header.perm perm₀) ∧ Kernel.IsPermission (header.perm perm₀) := by
  unfold ElfProgHeader.perm
  split_ifs with hcode hdata
  · exact ⟨hQ.code, _, _, _, _, _, rfl⟩
  · exact ⟨hQ.data, _, _, _, _, _, rfl⟩
  · exact (hflags.elim hcode hdata).elim

section Client

variable {K : Word} {Q : Word → Prop} {g : Ghost} {k k' k'' : Kernel} {t : ℕ} {perm₀ : Word}

/-- A call that maps nothing. -/
theorem permSystem_ok {o : KernelOp} (hok : kernelSystem.ok k o)
    (hadd : ∀ t va pa perm, o ≠ .add t va pa perm) : (permSystem Q).ok k o :=
  ⟨hok, fun t va pa perm heq => absurd heq (hadd t va pa perm)⟩

theorem KernelInv.reaches (hK : KernelEnd K) (h : KernelInv K g k)
    (hreach : (permSystem Q).Reaches k k') : ∃ g', KernelInv K g' k' := by
  obtain ⟨os, hok, rfl⟩ := hreach
  refine System.run_inv (S := permSystem Q) (I := fun s => ∃ g, KernelInv K g s) ?_ ⟨g, h⟩ hok
  rintro s o ⟨g, h⟩ ⟨hok, -⟩
  obtain ⟨g', h', -⟩ := h.step hK hok.1 (h.ok_iff.1 hok).2
  exact ⟨g', h'⟩

/-- Stores inside a page that a client may write to. -/
theorem Kernel.reaches_wrote {p : Word}
    (hp : p ∈ k.held ∨ ∃ t κ perm, k.bound t κ = some (p, perm)) {m : Mem}
    (hw : Wrote (page p) k.pmm.mem m) : (permSystem Q).Reaches k { k with pmm.mem := m } := by
  obtain ⟨l, rfl, hl⟩ := hw
  induction l with
  | nil => exact System.Reaches.refl k
  | cons e l ih =>
    rw [List.forall_mem_cons] at hl
    refine (ih hl.2).trans (System.Reaches.step (S := permSystem Q) (o := .write e.1 e.2)
      (permSystem_ok ⟨⟨p, hp, hl.1⟩, fun hgrows => hgrows.elim⟩ (by simp)))

/-- Pages have been loaded into the table `t`: what happened is a run of a client, and the record of it
is that of the pages.  A key is bound to the first page that was loaded for it, unless it was bound
before. -/
structure LoadRun (K : Word) (Q : Word → Prop) (t : ℕ) (perm₀ : Word) (k k' : Kernel)
    (pgs : List LoadedPage) : Prop where
  reaches : (permSystem Q).Reaches k k'
  record : k' = pgs.foldl (Kernel.account t perm₀) { k with pmm := k'.pmm }
  bound : ∀ κ, k'.bound t κ = (k.bound t κ).or
    ((pgs.find? fun pg => pg.key = κ).map fun pg => (pg.dest, pg.header.perm perm₀))
  filled : FilledPages K k k' pgs

namespace LoadRun

variable {pgs pgs' : List LoadedPage}

theorem refl (k : Kernel) : LoadRun K Q t perm₀ k k [] :=
  ⟨System.Reaches.refl k, rfl, fun κ => by simp, FilledPages.refl K k⟩

theorem trans (h : LoadRun K Q t perm₀ k k' pgs) (h' : LoadRun K Q t perm₀ k' k'' pgs') :
    LoadRun K Q t perm₀ k k'' (pgs ++ pgs') := by
  refine ⟨h.reaches.trans h'.reaches, ?_, fun κ => ?_, h.filled.trans h'.filled⟩
  swap
  · rw [h'.bound, h.bound, List.find?_append, Option.map_or, Option.or_assoc]
  calc k'' = pgs'.foldl (Kernel.account t perm₀) { k' with pmm := k''.pmm } := h'.record
    _ = pgs'.foldl (Kernel.account t perm₀)
          { pgs.foldl (Kernel.account t perm₀) { k with pmm := k'.pmm } with pmm := k''.pmm } :=
        congrArg (fun s : Kernel => pgs'.foldl (Kernel.account t perm₀) { s with pmm := k''.pmm })
          h.record
    _ = (pgs ++ pgs').foldl (Kernel.account t perm₀) { k with pmm := k''.pmm } := by
        rw [List.foldl_append, ← Kernel.foldl_account_setPmm]

theorem tables_eq (h : LoadRun K Q t perm₀ k k' pgs) : k'.tables = k.tables := by
  rw [h.record, Kernel.foldl_account_tables]

/-- What was bound stays so. -/
theorem kept (h : LoadRun K Q t perm₀ k k' pgs) {u : ℕ} {κ : Key} {b : Word × Word}
    (hb : k.bound u κ = some b) : k'.bound u κ = some b := by
  rcases eq_or_ne u t with rfl | hu
  · rw [h.bound, hb, Option.some_or]
  · rw [h.record, Kernel.foldl_account_bound_of_ne hu]
    exact hb

end LoadRun

/-- A part of a load, which begins in `s` when the kernel is in `k`, returns, and is a run of a
client. -/
def LoadsAs (K : Word) (Q : Word → Prop) (t : ℕ) (perm₀ : Word) (k : Kernel) (s : LoadState)
    (r : Except Pmm LoadState) : Prop :=
  ∃ s' k' pgs, r = .ok s' ∧ k'.pmm = s'.pmm ∧ s'.process.pageTable = s.process.pageTable ∧
    s'.loaded = s.loaded ++ pgs ∧ LoadRun K Q t perm₀ k k' pgs

/-- The calls for one page of a segment: it is taken, mapped, and filled. -/
theorem KernelInv.loadPage (hK : KernelEnd K) (hQ : LoaderPerms Q) (h : KernelInv K g k)
    {s : LoadState} (ht : k.tables[t]? = some s.process.pageTable) (hpmm : k.pmm = s.pmm)
    {header : ElfProgHeader} (hflags : header.ValidFlags) {j : ℕ} (hj : j < 2 ^ 31)
    {remainingSize : Word} (hsize : remainingSize = header.memsz - BitVec.ofNat 64 j * pgSize)
    (hsup : failures (s.loadPage header (header.perm perm₀) (BitVec.ofNat 32 j) remainingSize) =
      s.pmm.denied) :
    LoadsAs K Q t perm₀ k s
      (s.loadPage header (header.perm perm₀) (BitVec.ofNat 32 j) remainingSize) := by
  obtain ⟨hperm, hisPerm⟩ := hQ.perm hflags perm₀
  -- `alloc_page` gives the first free page
  rw [LoadState.failures_loadPage, signExtend_ofNat hj, ← hpmm] at hsup
  have hdenied : (HxcOS.allocPage k.pmm).2.denied = k.pmm.denied :=
    le_antisymm (hsup ▸ PageTable.add_denied_le ..) (allocPage_denied_le k.pmm)
  obtain ⟨p, L, hL⟩ := List.exists_cons_of_ne_nil ((allocPage_denied h.owned.chain).1 hdenied)
  have hchain := h.owned.chain
  rw [hL] at hchain
  have hp : (HxcOS.allocPage k.pmm).1 = p := by rw [(allocPage_cons hchain).1]
  have hne : p ≠ 0 := hchain.ne_zero (by simp)
  have hfree : g.own p = .free := (h.owned.free_iff p).1 (by simp [hL])
  have hnotHeld : p ∉ k.held := by rw [h.owned.held_iff, hfree]; simp
  have hpool : PoolPage K p := h.owned.poolPage (by rw [hfree]; simp)
  set k₁ : Kernel := { k with pmm := (HxcOS.allocPage k.pmm).2, held := insert p k.held } with hk₁
  have hstep₁ : (k.step .allocPage).2 = k₁ := by simp only [Kernel.step, hp, if_neg hne, hk₁]
  have hreach₁ : (permSystem Q).Reaches k k₁ := by
    rw [← hstep₁]
    exact System.Reaches.step (S := permSystem Q) (o := .allocPage)
      (permSystem_ok ⟨trivial, fun hgrows => hgrows.elim⟩ (by simp))
  obtain ⟨g₁, h₁⟩ := h.reaches hK hreach₁
  -- `add` maps it, or the address was mapped already
  obtain ⟨va, hva⟩ : ∃ va, va = pageNumber header.vaddr + BitVec.ofNat 64 j * pgSize := ⟨_, rfl⟩
  obtain ⟨r, hr⟩ : ∃ r, r = s.process.pageTable.add (HxcOS.allocPage k.pmm).2 va p
    (header.perm perm₀) := ⟨_, rfl⟩
  rw [hp, ← hva, ← hr] at hsup
  set pg : LoadedPage := ⟨header, j, p, r.1⟩ with hpg
  have hkey : pg.key = key va := by rw [hva]; rfl
  set k₂ : Kernel := { k.account t perm₀ pg with pmm := r.2 } with hk₂
  have hstep₂ : (k₁.step (.add t va p (header.perm perm₀))).2 = k₂ := by
    have htables : k₁.tables[t]? = some s.process.pageTable := ht
    have hcall : s.process.pageTable.add k₁.pmm va p (header.perm perm₀) = r := hr.symm
    simp only [Kernel.step, htables, hcall]
    rw [hk₂, Kernel.account, hkey]
    by_cases hzero : r.1 = 0
    · rw [if_pos hzero, if_pos (show pg.ret = 0 from hzero), hk₁]
      dsimp only
      rw [Finset.erase_insert hnotHeld]
    · rw [if_neg hzero, if_neg (show pg.ret ≠ 0 from hzero)]
  have hok₂ : (permSystem Q).ok k₁ (.add t va p (header.perm perm₀)) := by
    refine ⟨⟨⟨(List.getElem?_eq_some_iff.1 ht).1, Finset.mem_insert_self _ _, hisPerm⟩, fun _ => ?_⟩,
      fun _ _ _ _ heq => ?_⟩
    · rw [Kernel.Supplied, hstep₂]
      exact hsup.trans hdenied.symm
    · cases heq
      exact hperm
  have hreach₂ : (permSystem Q).Reaches k₁ k₂ := by
    rw [← hstep₂]
    exact System.Reaches.step (S := permSystem Q) hok₂
  have hret : r.1 = if (k.bound t (key va)).isNone then 0 else -1 := by
    rw [hr]
    exact (h₁.add ht (h₁.room_iff.1 (h₁.ok_iff.1 hok₂.1).2) (Finset.mem_insert_self _ _) hisPerm).1
  -- what was bound before stays so
  have hkept : ∀ u κ b, k.bound u κ = some b → (k.account t perm₀ pg).bound u κ = some b := by
    intro u κ b hb
    unfold Kernel.account
    split_ifs with hzero
    · refine (if_neg ?_).trans hb
      rintro ⟨rfl, rfl⟩
      rw [hkey] at hb
      change r.1 = 0 at hzero
      rw [hret, hb] at hzero
      simp at hzero
    · exact hb
  have hmine : ∀ q, q = p ∨ k.Mine q → (k.account t perm₀ pg).Mine q := by
    rintro q (rfl | hheld | ⟨u, κ, perm, hb⟩)
    · unfold Kernel.account Kernel.Mine
      split_ifs
      · exact Or.inr ⟨t, pg.key, header.perm perm₀, by simp [Bindings.set, hpg]⟩
      · exact Or.inl (Finset.mem_insert_self _ _)
    · unfold Kernel.account Kernel.Mine
      split_ifs
      · exact Or.inl hheld
      · exact Or.inl (Finset.mem_insert_of_mem hheld)
    · exact Or.inr ⟨u, κ, perm, hkept u κ _ hb⟩
  -- the page is filled
  have hlow := hpool.2.1
  have hlt := hpool.toNat_lt
  have hbegin := hK.begin_le
  rw [kernelBegin] at hbegin
  have hnb : (if remainingSize > pgSize then pgSize else remainingSize) = header.copied j := by
    rw [hsize]
    rfl
  have hnble : (header.copied j).toNat ≤ 4096 := header.copied_le j
  obtain ⟨m, hcopy, hw⟩ := memcpy_wrote r.2.mem p (header.off + BitVec.ofNat 64 j * pgSize)
    (header.copied j) (by omega) (by bv_omega)
  have hreach₃ := Kernel.reaches_wrote (Q := Q) (k := k₂) (hmine p (Or.inl rfl))
    (hw.mono (span_mono hnble))
  refine ⟨{ s with pmm := { r.2 with mem := m }, loaded := s.loaded ++ [pg] },
    { k₂ with pmm.mem := m }, [pg], ?_, rfl, rfl, rfl, hreach₁.trans (hreach₂.trans hreach₃),
    ?_, fun κ => ?_, h.filled hK hL ht hflags perm₀ va j hr (hsup.trans hdenied.symm) hmine hcopy⟩
  · unfold LoadState.loadPage
    rw [signExtend_ofNat hj, counter_toNat hj.le]
    dsimp only
    rw [← hpmm, hp, ← hva, ← hr, hnb, hcopy]
  · rw [List.foldl_cons, List.foldl_nil, Kernel.account_setPmm]
  · show (k.account t perm₀ pg).bound t κ = _
    rw [List.find?_singleton]
    by_cases hκ : pg.key = κ
    · rw [if_pos (by simpa using hκ), ← hκ, Kernel.account]
      rw [hkey]
      cases hb : k.bound t (key va) with
      | none =>
        rw [if_pos (show pg.ret = 0 from hret.trans (by rw [hb]; rfl))]
        exact if_pos ⟨rfl, rfl⟩
      | some b =>
        rw [if_neg (show pg.ret ≠ 0 from hret.trans_ne (by simp [hb]))]
        exact hb
    · rw [if_neg (by simpa using hκ), Option.map_none, Option.or_none, Kernel.account]
      split_ifs
      · exact if_neg fun hat => hκ hat.2.symm
      · rfl

/-- After a part of a load comes another one. -/
theorem LoadsAs.bind {s : LoadState} {x : Except Pmm LoadState}
    {f : LoadState → Except Pmm LoadState} (hx : LoadsAs K Q t perm₀ k s x)
    (hf : ∀ s' k' pgs, x = .ok s' → k'.pmm = s'.pmm →
      s'.process.pageTable = s.process.pageTable → LoadRun K Q t perm₀ k k' pgs →
      LoadsAs K Q t perm₀ k' s' (f s')) : LoadsAs K Q t perm₀ k s (x >>= f) := by
  obtain ⟨s', k', pgs, rfl, hpmm, htable, hloaded, hrun⟩ := hx
  obtain ⟨s'', k'', pgs', heq, hpmm', htable', hloaded', hrun'⟩ := hf s' k' pgs rfl hpmm htable hrun
  refine ⟨s'', k'', pgs ++ pgs', heq, hpmm', htable'.trans htable, ?_, hrun.trans hrun'⟩
  rw [hloaded', hloaded, List.append_assoc]

/-- The loop over the pages of a segment. -/
theorem KernelInv.takePages (hK : KernelEnd K) (hQ : LoaderPerms Q) (h : KernelInv K g k)
    {s : LoadState} (ht : k.tables[t]? = some s.process.pageTable) (hpmm : k.pmm = s.pmm)
    {header : ElfProgHeader} (hflags : header.ValidFlags) {n j : ℕ} (hj : j + n ≤ 2 ^ 31)
    {remainingSize : Word}
    (hsize : remainingSize = header.memsz - BitVec.ofNat 64 j * pgSize)
    (hsup : failures (s.takePages header (header.perm perm₀) n j remainingSize) = s.pmm.denied) :
    LoadsAs K Q t perm₀ k s (s.takePages header (header.perm perm₀) n j remainingSize) := by
  induction n generalizing g k s j remainingSize with
  | zero => exact ⟨s, k, [], rfl, hpmm, rfl, by simp, LoadRun.refl k⟩
  | succ n ih =>
    rw [LoadState.takePages] at hsup ⊢
    have hfirst := LoadState.failures_eq_of_bind
      (LoadState.denied_le_takePages header (header.perm perm₀) n _ _)
      (LoadState.denied_le_loadPage header (header.perm perm₀) _ _ s) hsup
    refine (h.loadPage hK hQ ht hpmm hflags (by omega) hsize hfirst).bind
      fun s' k' pgs heq hpmm' htable hrun => ?_
    obtain ⟨g', h'⟩ := h.reaches hK hrun.reaches
    rw [heq] at hsup hfirst
    exact ih h' (by rw [hrun.tables_eq, htable, ht]) hpmm' (by omega)
      (by rw [hsize, LoadInv.remaining_succ]) (hsup.trans hfirst.symm)

/-- The body of the loop over the segments. -/
theorem KernelInv.loadSegment (hK : KernelEnd K) (hQ : LoaderPerms Q) (h : KernelInv K g k)
    {s : LoadState} (ht : k.tables[t]? = some s.process.pageTable) (hpmm : k.pmm = s.pmm)
    {header : ElfProgHeader} (hflags : header.type = ELF_PROG_LOAD → header.ValidFlags)
    (hsup : failures (s.loadSegment perm₀ header) = s.pmm.denied) :
    LoadsAs K Q t perm₀ k s (s.loadSegment perm₀ header) := by
  by_cases htype : header.type = ELF_PROG_LOAD
  · rw [LoadState.loadSegment_load perm₀ htype] at hsup ⊢
    exact h.takePages hK hQ
      (s := { s with process.mappedInfo := header.record s.process.mappedInfo }) ht hpmm
      (hflags htype) ((Nat.zero_add _).trans_le header.pageCount_le) (by simp) hsup
  · rw [LoadState.loadSegment_skip perm₀ htype]
    exact ⟨s, k, [], rfl, hpmm, rfl, by simp, LoadRun.refl k⟩

/-- The loop over the segments. -/
theorem KernelInv.loadSegments (hK : KernelEnd K) (hQ : LoaderPerms Q) (h : KernelInv K g k)
    {s : LoadState} (ht : k.tables[t]? = some s.process.pageTable) (hpmm : k.pmm = s.pmm)
    (elfBuff : Word) (n : ℕ) (off : BitVec 32)
    (hflags : ∀ header ∈ s.headersRead perm₀ elfBuff n off,
      header.type = ELF_PROG_LOAD → header.ValidFlags)
    (hsup : failures (s.loadSegments perm₀ elfBuff n off) = s.pmm.denied) :
    LoadsAs K Q t perm₀ k s (s.loadSegments perm₀ elfBuff n off) := by
  induction n generalizing g k s off with
  | zero => exact ⟨s, k, [], rfl, hpmm, rfl, by simp, LoadRun.refl k⟩
  | succ n ih =>
    rw [LoadState.loadSegments] at hsup ⊢
    rw [LoadState.headersRead] at hflags
    rw [List.forall_mem_cons] at hflags
    have hfirst := LoadState.failures_eq_of_bind
      (LoadState.denied_le_loadSegments perm₀ elfBuff n _)
      (LoadState.denied_le_loadSegment perm₀ _ s) hsup
    refine (h.loadSegment hK hQ ht hpmm hflags.1 hfirst).bind
      fun s' k' pgs heq hpmm' htable hrun => ?_
    obtain ⟨g', h'⟩ := h.reaches hK hrun.reaches
    have hrest := hflags.2
    rw [heq] at hsup hfirst hrest
    exact ih h' (by rw [hrun.tables_eq, htable, ht]) hpmm' _ hrest (hsup.trans hfirst.symm)

/-- A whole load. -/
theorem KernelInv.loadFromElf (hK : KernelEnd K) (hQ : LoaderPerms Q) (h : KernelInv K g k)
    {p : Process} (ht : k.tables[t]? = some p.pageTable) {elfBuff : Word}
    (hload : Os.Loadable k.pmm p perm₀ elfBuff) :
    LoadsAs K Q t perm₀ k ⟨k.pmm, p, []⟩ (p.loadFromElf k.pmm perm₀ elfBuff) := by
  have hsup := hload.supplied
  unfold Process.loadFromElf at hsup ⊢
  have hfirst := LoadState.failures_eq_of_bind (d := k.pmm.denied) (fun _ => le_rfl)
    (LoadState.denied_le_loadSegments perm₀ elfBuff _ _ ⟨k.pmm, p, []⟩) hsup
  exact (h.loadSegments hK hQ (s := ⟨k.pmm, p, []⟩) ht rfl elfBuff _ _ hload.flags hfirst).bind
    fun s' k' pgs heq hpmm' htable hrun => ⟨_, k', [], rfl, hpmm', rfl, by simp, LoadRun.refl k'⟩

end Client

/-! ### Runs -/

/-- The direct calls map pages with permissions of `Q` only. -/
def OsOp.AddsOnly (Q : Word → Prop) (o : OsOp) : Prop := ∀ c, o = .call c → c.AddsOnly Q

/-- The invariant of the runs: that of the kernel, and each process has its own table there. -/
structure OsInv (K : Word) (s : Os) : Prop where
  kernel : ∃ g, KernelInv K g s.kernel
  tables : ∀ (i t : ℕ) (p : Process), s.processes[i]? = some (t, p) →
    s.kernel.tables[t]? = some p.pageTable
  distinct : (s.processes.map Prod.fst).Nodup

namespace OsInv

variable {K : Word} {Q : Word → Prop} {s : Os}

theorem init (hK : KernelEnd K) (m : Mem) : OsInv K (Os.init K m) := by
  obtain ⟨g, h, -⟩ := KernelInv.init hK m
  exact ⟨⟨g, h⟩, fun i t p hp => by simp [Os.init] at hp, List.nodup_nil⟩

theorem call (h : OsInv K s) (hK : KernelEnd K) {c : KernelOp} (hok : kernelSystem.ok s.kernel c)
    (hadds : c.AddsOnly Q) :
    OsInv K (s.step (.call c)).2 ∧ (permSystem Q).Reaches s.kernel (s.step (.call c)).2.kernel := by
  obtain ⟨g, hg⟩ := h.kernel
  have hreach : (permSystem Q).Reaches s.kernel (s.kernel.step c).2 :=
    System.Reaches.step (S := permSystem Q) ⟨hok, hadds⟩
  exact ⟨⟨hg.reaches hK hreach, fun i t p hp => step_tables (h.tables i t p hp), h.distinct⟩, hreach⟩

/-- The numbers of the tables of the processes are those of tables. -/
theorem lt_length (h : OsInv K s) {t : ℕ} (ht : t ∈ s.processes.map Prod.fst) :
    t < s.kernel.tables.length := by
  obtain ⟨⟨t, p⟩, hp, rfl⟩ := List.mem_map.1 ht
  obtain ⟨i, hi⟩ := List.mem_iff_getElem?.1 hp
  exact (List.getElem?_eq_some_iff.1 (h.tables i t p hi)).1

theorem construct (h : OsInv K s) (hK : KernelEnd K) (hok : s.kernel.Supplied .newTable)
    (trapframe : TrapFrame) (mappedInfo : MappedInfo) :
    OsInv K (s.step (.construct trapframe mappedInfo)).2 ∧
      (permSystem Q).Reaches s.kernel (s.step (.construct trapframe mappedInfo)).2.kernel := by
  obtain ⟨g, hg⟩ := h.kernel
  have hreach : (permSystem Q).Reaches s.kernel (s.kernel.step .newTable).2 :=
    System.Reaches.step (S := permSystem Q) (permSystem_ok ⟨trivial, fun _ => hok⟩ (by simp))
  have hdistinct : ((s.processes ++ [(s.kernel.tables.length,
      (Process.new trapframe mappedInfo s.kernel.pmm).1)]).map Prod.fst).Nodup := by
    rw [List.map_append, List.map_singleton, List.nodup_append]
    refine ⟨h.distinct, List.nodup_singleton _, fun t ht u hu heq => ?_⟩
    rw [List.mem_singleton] at hu
    exact absurd (h.lt_length ht) (by rw [heq, hu]; exact lt_irrefl _)
  refine ⟨⟨hg.reaches hK hreach, fun i t p hp => ?_, hdistinct⟩, hreach⟩
  change (s.processes ++ [(s.kernel.tables.length,
    (Process.new trapframe mappedInfo s.kernel.pmm).1)])[i]? = some (t, p) at hp
  rcases lt_or_ge i s.processes.length with hi | hi
  · rw [List.getElem?_append_left hi] at hp
    exact step_tables (o := .newTable) (h.tables i t p hp)
  · -- the new process has the new table
    rw [List.getElem?_append_right hi, List.getElem?_singleton] at hp
    split_ifs at hp
    obtain ⟨rfl, rfl⟩ := Prod.mk.inj (Option.some.inj hp)
    exact List.getElem?_concat_length

/-- What a load does to the kernel. -/
theorem loadFromElf (h : OsInv K s) (hK : KernelEnd K) (hQ : LoaderPerms Q) {i t : ℕ} {p : Process}
    (hp : s.processes[i]? = some (t, p)) {perm₀ elfBuff : Word}
    (hload : Os.Loadable s.kernel.pmm p perm₀ elfBuff) :
    (s.step (.loadFromElf i perm₀ elfBuff)).1 = some .done ∧
      OsInv K (s.step (.loadFromElf i perm₀ elfBuff)).2 ∧
      ∃ st, p.loadFromElf s.kernel.pmm perm₀ elfBuff = .ok st ∧
        LoadRun K Q t perm₀ s.kernel (s.step (.loadFromElf i perm₀ elfBuff)).2.kernel st.loaded := by
  obtain ⟨g, hg⟩ := h.kernel
  obtain ⟨s', k', pgs, heq, hpmm, htable, hloaded, hrun⟩ :=
    hg.loadFromElf hK hQ (h.tables i t p hp) hload
  rw [List.nil_append] at hloaded
  have hkernel : s'.loaded.foldl (Kernel.account t perm₀) { s.kernel with pmm := s'.pmm } = k' := by
    rw [hloaded, ← hpmm]
    exact hrun.record.symm
  have hdistinct : ((s.processes.set i (t, s'.process)).map Prod.fst).Nodup := by
    have hfst : (s.processes.map Prod.fst)[i]? = some t := by rw [List.getElem?_map, hp]; rfl
    obtain ⟨hi, hget⟩ := List.getElem?_eq_some_iff.1 hfst
    have hset : (s.processes.map Prod.fst).set i t = s.processes.map Prod.fst := by
      conv_lhs => rw [← hget]
      exact List.set_getElem_self hi
    rw [List.map_set, hset]
    exact h.distinct
  simp only [Os.step, hp, heq, hkernel, true_and]
  rw [← hloaded] at hrun
  refine ⟨⟨hg.reaches hK hrun.reaches, fun j u q hq => ?_, hdistinct⟩, s', rfl, hrun⟩
  rw [hrun.tables_eq]
  rw [List.getElem?_set] at hq
  split_ifs at hq with hij
  · obtain ⟨rfl, rfl⟩ := Prod.mk.inj (Option.some.inj hq)
    rw [htable]
    exact h.tables i t p hp
  · exact h.tables j u q hq

/-- **Step lemma.** -/
theorem step (h : OsInv K s) (hK : KernelEnd K) (hQ : LoaderPerms Q) {o : OsOp}
    (hok : osSystem.ok s o) (hadds : o.AddsOnly Q) :
    (s.step o).1.isSome ∧ OsInv K (s.step o).2 ∧
      (permSystem Q).Reaches s.kernel (s.step o).2.kernel := by
  cases o with
  | call c => exact ⟨rfl, h.call hK hok (hadds c rfl)⟩
  | construct trapframe mappedInfo => exact ⟨rfl, h.construct hK hok trapframe mappedInfo⟩
  | loadFromElf i perm₀ elfBuff =>
    obtain ⟨t, p, hp, hload⟩ := hok
    obtain ⟨hret, h', st, -, hrun⟩ := h.loadFromElf hK hQ hp hload
    exact ⟨by rw [hret]; rfl, h', hrun.reaches⟩

/-- **Run lemma.** -/
theorem run (hK : KernelEnd K) (hQ : LoaderPerms Q) (m : Mem) {ops : List OsOp}
    (hok : osSystem.Admissible (Os.init K m) ops) (hadds : ∀ o ∈ ops, o.AddsOnly Q) :
    OsInv K (osSystem.final (Os.init K m) ops) ∧
      (permSystem Q).Reaches (Kernel.init K m) (osSystem.final (Os.init K m) ops).kernel := by
  have hrun := System.run_expands (S := osSystem.restrict fun _ o => o.AddsOnly Q)
    (T := permSystem Q) (v := Os.kernel) (I := OsInv K)
    (fun s o h hok => (h.step hK hQ hok.1 hok.2).2) (OsInv.init hK m)
    (osSystem.admissible_restrict hok hadds)
  rwa [System.final_restrict] at hrun

end OsInv

namespace Os

end Os

end HxcOS
