import HxcOS.Vmm.Nodes
import HxcOS.Vmm.Runs

/-!
# Clients that map with any flags

The clients of `HxcOS.Vmm.Kernel` pass values of `permission_code`.  Here they pass any word that
leaves the page number of the entry alone, so that the page that is mapped is the page that they
hold.  An entry made so need not be valid, and then `add` binds nothing although it answers 0.

`MapperInv` is what such runs keep.  It says of the entries only where valid ones lead
(`MapperInv.leaf_bound`), which is enough to show that a call which fails has no effect
(`failed_calls_invisible`).
-/

namespace HxcOS

open ByteMem Radix OpSystem

namespace Kernel

/-- The promises of the clients. -/
def MapPromise (s : Kernel) : KernelOp → Prop
  | .add t _ pa perm =>
      t < s.tables.length ∧ pa ∈ s.held ∧ (PageTableEntry.new pa perm).getPa = pa
  | o => s.Promise o

end Kernel

/-- The system with these clients. -/
def mappingSystem : System Kernel KernelOp Ret where
  step := Kernel.step
  ok s o := s.MapPromise o ∧ (Kernel.Grows o → s.Supplied o)

@[simp] theorem mappingSystem_step (s : Kernel) (o : KernelOp) :
    mappingSystem.step s o = s.step o := rfl

/-- What the runs keep: valid entries lead to the pages that are bound, these are not held, and no
page is bound twice. -/
structure MapperInv (K : Word) (g : Ghost) (s : Kernel) : Prop where
  nodes : Nodes K g s
  held_own : ∀ p ∈ s.held, g.own p = .held
  bound_own : ∀ t k p f, s.bound t k = some (p, f) → g.own p = .held ∧ p ∉ s.held
  bound_inj : ∀ t k u l p f f', s.bound t k = some (p, f) → s.bound u l = some (p, f') →
    u = t ∧ l = k
  leaf_bound : ∀ t va e, s.leaf t va = some e → ∃ f, s.bound t (key va) = some (e.getPa, f)

namespace MapperInv

variable {K : Word} {g : Ghost} {s : Kernel} {p va pa perm : Word} {L : List Word} {t : ℕ}
  {tbl : PageTable}

theorem init (hK : KernelEnd K) (m : Mem) : ∃ g, MapperInv K g (Kernel.init K m) := by
  obtain ⟨g, h, -, -, hleaf⟩ := Nodes.init hK m
  refine ⟨g, h, fun p hp => absurd hp (Finset.notMem_empty p), fun _ _ _ _ hb => (nomatch hb),
    fun _ _ _ _ _ _ _ hb => (nomatch hb), fun t va e he => ?_⟩
  rw [hleaf] at he
  cases he

/-- Calls that change neither the entries nor the record of the clients, and no page that these
know. -/
theorem of_eq (h : MapperInv K g s) {g' : Ghost} {s' : Kernel} (hnodes : Nodes K g' s')
    (hheld : s'.held = s.held) (hbound : s'.bound = s.bound)
    (hleaf : ∀ t va, s'.leaf t va = s.leaf t va) (hown : ∀ p, g.own p = .held → g'.own p = .held) :
    MapperInv K g' s' := by
  refine ⟨hnodes, fun p hp => ?_, fun t k p f hb => ?_, ?_, fun t va e he => ?_⟩
  · rw [hheld] at hp
    exact hown p (h.held_own p hp)
  · rw [hbound] at hb
    rw [hheld]
    exact ⟨hown p (h.bound_own t k p f hb).1, (h.bound_own t k p f hb).2⟩
  · rw [hbound]
    exact h.bound_inj
  · rw [hleaf] at he
    rw [hbound]
    exact h.leaf_bound t va e he

theorem newTable (h : MapperInv K g s) (hL : g.free = p :: L) :
    MapperInv K { g with free := L, own := Function.update g.own p (.inTable s.tables.length []) }
      (s.step .newTable).2 := by
  obtain ⟨hnew, hnodes, hleaf⟩ := h.nodes.newTable hL
  have hstep : (s.step .newTable).2 =
      { s with pmm := (PageTable.new s.pmm).2, tables := s.tables ++ [⟨p⟩] } := by
    rw [← hnew]
    rfl
  rw [hstep]
  refine h.of_eq hnodes rfl rfl hleaf fun q hq => ?_
  dsimp only
  rwa [Function.update_of_ne]
  rintro rfl
  rw [h.nodes.own_head hL] at hq
  cases hq

/-- `alloc_page` hands a free page to a client, or returns `NULL`. -/
theorem allocPage (h : MapperInv K g s) : ∃ g', MapperInv K g' (s.step .allocPage).2 ∧
    ∀ q u π, g'.own q = .inTable u π ↔ g.own q = .inTable u π := by
  have hleaf : ∀ u va, (s.step .allocPage).2.leaf u va = s.leaf u va :=
    Kernel.leaf_of_eq rfl (allocPage_mem s.pmm)
  have hchain := h.nodes.chain
  cases hL : g.free with
  | nil =>
    rw [hL] at hchain
    have hstep := allocPage_nil hchain
    refine ⟨g, h.of_eq (h.nodes.of_eq rfl (allocPage_mem s.pmm) ?_) ?_ rfl hleaf fun _ hq => hq,
      fun _ _ _ => Iff.rfl⟩
    · simp only [Kernel.step, hstep]
    · simp only [Kernel.step, hstep, if_true]
  | cons p L =>
    rw [hL] at hchain
    have hpfree := h.nodes.own_head hL
    have hne : p ≠ 0 := hchain.ne_zero List.mem_cons_self
    have hp : (HxcOS.allocPage s.pmm).1 = p := by rw [(allocPage_cons hchain).1]
    have hstep : (s.step .allocPage).2 =
        { s with pmm := (HxcOS.allocPage s.pmm).2, held := insert p s.held } := by
      simp only [Kernel.step, hp, if_neg hne]
    rw [hstep] at hleaf ⊢
    refine ⟨_, ⟨(h.nodes.alloc hL).of_eq rfl rfl rfl, fun q hq => ?_, fun u k q f hb => ?_,
      h.bound_inj, fun u va e he => ?_⟩, fun q u π => ?_⟩
    · rcases Finset.mem_insert.1 hq with rfl | hq
      · exact Function.update_self ..
      · dsimp only
        rw [Function.update_apply]
        split_ifs
        · rfl
        · exact h.held_own q hq
    · obtain ⟨hqown, hqheld⟩ := h.bound_own u k q f hb
      have hqp : q ≠ p := by
        rintro rfl
        rw [hpfree] at hqown
        cases hqown
      dsimp only
      rw [Function.update_of_ne hqp, Finset.mem_insert, not_or]
      exact ⟨hqown, hqp, hqheld⟩
    · rw [hleaf] at he
      exact h.leaf_bound u va e he
    · by_cases hq : q = p
      · subst hq
        simp [hpfree]
      · simp [hq]

/-- A page that no entry leads to and that is not bound becomes free. -/
theorem freePage (h : MapperInv K g s) (hK : KernelEnd K) (hp : p ∈ s.held) :
    ∃ g', MapperInv K g' (s.step (.freePage p)).2 ∧
      ∀ q u π, g'.own q = .inTable u π ↔ g.own q = .inTable u π := by
  have hown := h.held_own p hp
  have hnodes := h.nodes.free hK hown
  have hpal := h.nodes.aligned (p := p) (by rw [hown]; simp)
  have hplace : ∀ q u π, Function.update g.own p .free q = .inTable u π ↔
      g.own q = .inTable u π := by
    intro q u π
    by_cases hq : q = p
    · subst hq
      simp [hown]
    · rw [Function.update_of_ne hq]
  have hleaf := h.nodes.leaf_wrote hnodes (freePage_wrote hpal) hpal (by rw [hown]; simp)
    fun q u π _ => hplace q u π
  refine ⟨_, ⟨hnodes.of_eq rfl rfl rfl, fun q hq => ?_, fun u k q f hb => ?_, h.bound_inj,
    fun u va e he => ?_⟩, hplace⟩
  · obtain ⟨hqp, hq⟩ := Finset.mem_erase.1 hq
    exact (Function.update_of_ne hqp _ _).trans (h.held_own q hq)
  · obtain ⟨hqown, hqheld⟩ := h.bound_own u k q f hb
    have hqp : q ≠ p := fun heq => hqheld (heq ▸ hp)
    exact ⟨(Function.update_of_ne hqp _ _).trans hqown, fun hq => hqheld (Finset.mem_of_mem_erase hq)⟩
  · exact h.leaf_bound u va e ((hleaf u va).symm.trans he)

/-- Clients write inside pages that they hold or have mapped. -/
theorem write (h : MapperInv K g s) {a : Word} {v : Byte}
    (hp : p ∈ s.held ∨ ∃ t k perm, s.bound t k = some (p, perm)) (ha : a ∈ page p) :
    MapperInv K g (s.step (.write a v)).2 := by
  have hown : g.own p = .held := by
    rcases hp with hp | ⟨t, k, perm, hb⟩
    · exact h.held_own p hp
    · exact (h.bound_own t k p perm hb).1
  have hpal := h.nodes.aligned (p := p) (by rw [hown]; simp)
  have hw := Wrote.store8 ha s.pmm.mem v
  have hnodes := h.nodes.wrote hw (by rw [hown]; simp) (by rw [hown]; simp) (by rw [hown]; simp)
  exact h.of_eq hnodes rfl rfl
    (h.nodes.leaf_wrote hnodes hw hpal (by rw [hown]; simp) fun _ _ _ _ => Iff.rfl) fun _ hq => hq

theorem erase_step (ht : s.tables[t]? = some tbl) : (s.step (.erase t va)).2 =
    if (tbl.erase s.pmm va).1 = 0 then
      { s with pmm := (tbl.erase s.pmm va).2, bound := s.bound.set t (key va) none }
    else { s with pmm := (tbl.erase s.pmm va).2 } := by
  simp only [Kernel.step, ht]

/-- The page of the entry that is cleared becomes free; it is bound at this key only. -/
theorem erase (h : MapperInv K g s) (hK : KernelEnd K) (ht : s.tables[t]? = some tbl) (va : Word) :
    ∃ g', MapperInv K g' (s.step (.erase t va)).2 ∧ g.free ⊆ g'.free ∧
      ∀ q u π, g'.own q = .inTable u π ↔ g.own q = .inTable u π := by
  rw [erase_step ht]
  cases he : s.leaf t va with
  | none =>
    rw [Nodes.erase_none ht he, if_neg (show ¬ (-1 : ℤ) = 0 by decide)]
    exact ⟨g, h, List.Subset.refl _, fun _ _ _ => Iff.rfl⟩
  | some e =>
    obtain ⟨p, hp⟩ : ∃ p, e.getPa = p := ⟨_, rfl⟩
    obtain ⟨f, hb⟩ := h.leaf_bound t va e he
    rw [hp] at hb
    obtain ⟨hown, hheld⟩ := h.bound_own t _ p f hb
    obtain ⟨hr, hnodes, hleaf⟩ := h.nodes.erase_some hK ht he hp hown
    rw [if_pos hr]
    refine ⟨_, ⟨hnodes.of_eq rfl rfl rfl, fun q hq => ?_, fun u k q f' hq => ?_,
      fun u k u' l q f₁ f₂ h₁ h₂ => ?_, fun u vb e' he' => ?_⟩, List.subset_cons_self _ _,
      fun q u π => ?_⟩
    · have hqp : q ≠ p := fun heq => hheld (heq ▸ hq)
      exact (Function.update_of_ne hqp _ _).trans (h.held_own q hq)
    · -- the other keys are bound to other pages
      simp only [Bindings.set] at hq
      split_ifs at hq with hat
      obtain ⟨hqown, hqheld⟩ := h.bound_own u k q f' hq
      have hqp : q ≠ p := by
        rintro rfl
        exact hat (h.bound_inj _ _ _ _ _ _ _ hb hq)
      exact ⟨(Function.update_of_ne hqp _ _).trans hqown, hqheld⟩
    · simp only [Bindings.set] at h₁ h₂
      split_ifs at h₁ h₂
      exact h.bound_inj _ _ _ _ _ _ _ h₁ h₂
    · have hleaf' := (hleaf u vb).symm.trans he'
      simp only [Bindings.set]
      split_ifs at hleaf' ⊢ with hat
      exact h.leaf_bound u vb e' hleaf'
    · by_cases hq : q = p
      · subst hq
        simp [hown]
      · simp [hq]

theorem add_step (ht : s.tables[t]? = some tbl) : (s.step (.add t va pa perm)).2 =
    if (tbl.add s.pmm va pa perm).1 = 0 then
      { s with
        pmm := (tbl.add s.pmm va pa perm).2
        held := s.held.erase pa
        bound := s.bound.set t (key va) (some (pa, perm)) }
    else { s with pmm := (tbl.add s.pmm va pa perm).2 } := by
  simp only [Kernel.step, ht]

/-- A held page is bound, unless there is a valid entry for the address. -/
theorem add (h : MapperInv K g s) (ht : s.tables[t]? = some tbl) (hpa : pa ∈ s.held)
    (hperm : (PageTableEntry.new pa perm).getPa = pa) (hneed : s.needed t va ≤ g.free.length) :
    ∃ g' M, MapperInv K g' (s.step (.add t va pa perm)).2 ∧
      Made K t M g g' s (tbl.add s.pmm va pa perm).2 ∧ M.length = s.needed t va := by
  obtain ⟨g', M, hmade, hlen, hr, hleaf⟩ := h.nodes.add ht pa perm hneed
  have hkeep : ∀ q, g.own q = .held → g'.own q = .held := fun q hq =>
    (hmade.own_eq h.nodes (by rw [hq]; simp)).trans hq
  refine ⟨g', M, ?_, hmade, hlen⟩
  rw [add_step ht, hr]
  cases he : s.leaf t va with
  | some e =>
    rw [Option.isSome_some, if_pos rfl, if_neg (show ¬ (-1 : ℤ) = 0 by decide)]
    refine h.of_eq hmade.nodes rfl rfl (fun u vb => (hleaf u vb).trans ?_) hkeep
    rw [he]
    split_ifs with hat
    · rw [hat.1, Kernel.leaf_congr hat.2, he]
      rfl
    · rfl
  | none =>
    rw [Option.isSome_none, if_neg Bool.false_ne_true, if_pos rfl]
    have hunbound : ∀ u k f, s.bound u k ≠ some (pa, f) := fun u k f hb =>
      (h.bound_own u k pa f hb).2 hpa
    refine ⟨hmade.nodes.of_eq rfl rfl rfl, fun q hq => ?_, fun u k q f hq => ?_,
      fun u k u' l q f₁ f₂ h₁ h₂ => ?_, fun u vb e he' => ?_⟩
    · exact hkeep q (h.held_own q (Finset.mem_of_mem_erase hq))
    · simp only [Bindings.set] at hq
      split_ifs at hq
      · obtain ⟨rfl, -⟩ := Prod.mk.inj (Option.some.inj hq)
        exact ⟨hkeep pa (h.held_own pa hpa), Finset.notMem_erase pa _⟩
      · obtain ⟨hqown, hqheld⟩ := h.bound_own u k q f hq
        exact ⟨hkeep q hqown, fun hmem => hqheld (Finset.mem_of_mem_erase hmem)⟩
    · simp only [Bindings.set] at h₁ h₂
      split_ifs at h₁ h₂ with hat₁ hat₂ hat₂
      · exact ⟨hat₂.1.trans hat₁.1.symm, hat₂.2.trans hat₁.2.symm⟩
      · obtain ⟨rfl, -⟩ := Prod.mk.inj (Option.some.inj h₁)
        exact absurd h₂ (hunbound u' l f₂)
      · obtain ⟨rfl, -⟩ := Prod.mk.inj (Option.some.inj h₂)
        exact absurd h₁ (hunbound u k f₁)
      · exact h.bound_inj _ _ _ _ _ _ _ h₁ h₂
    · have hleaf' := (hleaf u vb).symm.trans he'
      simp only [Bindings.set]
      split_ifs at hleaf' ⊢ with hat
      · -- the entry that was made is valid
        rw [he, Option.none_or, PageTableEntry.ifValid] at hleaf'
        split_ifs at hleaf'
        rw [← Option.some.inj hleaf', hperm]
        exact ⟨perm, rfl⟩
      · exact h.leaf_bound u vb e hleaf'

theorem newTable_supplied (h : MapperInv K g s) (hsup : s.Supplied .newTable) : g.free ≠ [] :=
  h.nodes.free_ne_nil_iff.2 hsup

theorem add_supplied (h : MapperInv K g s) (ht : s.tables[t]? = some tbl)
    (hsup : s.Supplied (.add t va pa perm)) : s.needed t va ≤ g.free.length := by
  refine h.nodes.needed_le ht ?_
  rw [Kernel.Supplied, add_step ht] at hsup
  rw [← tbl.add_denied s.pmm va pa perm]
  split_ifs at hsup <;> exact hsup

/-- **Step lemma.** -/
theorem step (h : MapperInv K g s) (hK : KernelEnd K) {o : KernelOp} (hok : mappingSystem.ok s o) :
    ∃ g', MapperInv K g' (s.step o).2 := by
  obtain ⟨hpromise, hsup⟩ := hok
  cases o with
  | newTable =>
    obtain ⟨p, L, hL⟩ := List.exists_cons_of_ne_nil (h.newTable_supplied (hsup trivial))
    exact ⟨_, h.newTable hL⟩
  | allocPage =>
    obtain ⟨g', h', -⟩ := h.allocPage
    exact ⟨g', h'⟩
  | freePage p =>
    obtain ⟨g', h', -⟩ := h.freePage hK hpromise
    exact ⟨g', h'⟩
  | write a v =>
    obtain ⟨p, hp, ha⟩ := hpromise
    exact ⟨g, h.write hp ha⟩
  | add t va pa perm =>
    obtain ⟨hlt, hpa, hperm⟩ := hpromise
    have ht := List.getElem?_eq_getElem hlt
    obtain ⟨g', -, h', -⟩ := h.add ht hpa hperm (h.add_supplied ht (hsup trivial))
    exact ⟨g', h'⟩
  | lookup t va =>
    simp only [Kernel.step]
    split <;> exact ⟨g, h⟩
  | erase t va =>
    have ht := List.getElem?_eq_getElem (show t < s.tables.length from hpromise)
    obtain ⟨g', h', -⟩ := h.erase hK ht va
    exact ⟨g', h'⟩

/-- A value of `permission_code` leaves the page number alone. -/
theorem getPa_permission (h : MapperInv K g s) (hpa : pa ∈ s.held)
    (hperm : Kernel.IsPermission perm) : (PageTableEntry.new pa perm).getPa = pa := by
  obtain ⟨write, read, exec, user, cow, rfl⟩ := hperm
  have hown := h.held_own pa hpa
  exact PageTableEntry.getPa_new (h.nodes.aligned (by rw [hown]; simp))
    (permissionCode_bounds write read exec user cow).1

/-- Clients that pass values of `permission_code` are such clients. -/
theorem admissible (h : MapperInv K g s) (hK : KernelEnd K) {ops : List KernelOp}
    (hok : kernelSystem.Admissible s ops) : mappingSystem.Admissible s ops := by
  induction ops generalizing g s with
  | nil => trivial
  | cons o ops ih =>
    obtain ⟨⟨hpromise, hsup⟩, hrest⟩ := hok
    have hok : mappingSystem.ok s o := by
      refine ⟨?_, hsup⟩
      cases o with
      | add t va pa perm =>
        exact ⟨hpromise.1, hpromise.2.1, h.getPa_permission hpromise.2.1 hpromise.2.2⟩
      | _ => exact hpromise
    obtain ⟨g', h'⟩ := h.step hK hok
    exact ⟨hok, ih h' hrest⟩

end MapperInv

/-- **The invariant of the runs.** -/
theorem mapperInv_run {K : Word} (hK : KernelEnd K) (m : Mem) {ops : List KernelOp}
    (hok : mappingSystem.Admissible (Kernel.init K m) ops) :
    ∃ g, MapperInv K g (mappingSystem.final (Kernel.init K m) ops) := by
  refine System.run_inv (I := fun s => ∃ g, MapperInv K g s) ?_ (MapperInv.init hK m) hok
  rintro s o ⟨g, h⟩ hok
  exact h.step hK hok

/-! ### Calls that fail -/

/-- `add` for an address with a valid entry: the nodes on the way are there, so that the allocating
walk allocates nothing. -/
theorem Kernel.add_of_leaf {s : Kernel} {t : ℕ} {tbl : PageTable} (ht : s.tables[t]? = some tbl)
    {va : Word} {e : PageTableEntry} (he : s.leaf t va = some e) (pa perm : Word) :
    tbl.add s.pmm va pa perm = (-1, s.pmm) := by
  obtain ⟨q, hq, hv⟩ := Option.bind_eq_some_iff.1 he
  rw [PageTableEntry.ifValid] at hv
  split_ifs at hv with hvalid
  simp only [PageTable.add, pageWalkAlloc_full ht hq, loadPte_entry, hvalid, if_true]

/-- **Failed calls are invisible.**  After every run, an `add` that returns -1 and an `erase` that
returns -1 leave the memory and the free list as they were, as every `lookup` does; and an `add` for
an address that is bound is such an `add`. -/
theorem failed_calls_invisible {K : Word} (hK : KernelEnd K) (m : Mem) {ops : List KernelOp}
    (hok : mappingSystem.Admissible (Kernel.init K m) ops) {t : ℕ} {tbl : PageTable}
    (ht : (mappingSystem.final (Kernel.init K m) ops).tables[t]? = some tbl) (va pa perm : Word) :
    let s := mappingSystem.final (Kernel.init K m) ops
    (s.Supplied (.add t va pa perm) → (tbl.add s.pmm va pa perm).1 = -1 →
      (tbl.add s.pmm va pa perm).2 = s.pmm) ∧
    ((tbl.erase s.pmm va).1 = -1 → (tbl.erase s.pmm va).2 = s.pmm) ∧
    (s.step (.lookup t va)).2.pmm = s.pmm ∧
    (tbl.lookup s.pmm.mem va ≠ 0 → tbl.add s.pmm va pa perm = (-1, s.pmm)) := by
  obtain ⟨g, h⟩ := mapperInv_run hK m hok
  generalize mappingSystem.final (Kernel.init K m) ops = s at h ht ⊢
  refine ⟨fun hsup hr => ?_, fun hr => ?_, ?_, fun hbound => ?_⟩
  · obtain ⟨-, -, -, -, hret, -⟩ := h.nodes.add ht pa perm (h.add_supplied ht hsup)
    cases he : s.leaf t va with
    | none =>
      rw [hret, he] at hr
      cases hr
    | some e => rw [Kernel.add_of_leaf ht he]
  · cases he : s.leaf t va with
    | none => rw [Nodes.erase_none ht he]
    | some e =>
      obtain ⟨f, hb⟩ := h.leaf_bound t va e he
      obtain ⟨hzero, -⟩ := h.nodes.erase_some hK ht he rfl (h.bound_own t _ _ f hb).1
      rw [hzero] at hr
      cases hr
  · simp only [Kernel.step, ht]
  · rw [h.nodes.lookup hK ht] at hbound
    cases he : s.leaf t va with
    | none => simp [he] at hbound
    | some e => exact Kernel.add_of_leaf ht he pa perm

theorem final_mappingSystem (s : Kernel) (ops : List KernelOp) :
    kernelSystem.final s ops = mappingSystem.final s ops := by
  induction ops generalizing s with
  | nil => rfl
  | cons o ops ih => exact ih _

/-- An address that is mapped is added again: the call returns -1, and changes nothing. -/
theorem failed_calls_invisible_sample :
    let s := mappingSystem.final (Kernel.init kernelBegin Mem.zero) sampleRun
    let tbl := (PageTable.new (Kernel.init kernelBegin Mem.zero).pmm).1
    ∀ pa perm, tbl.add s.pmm 0x1000 pa perm = (-1, s.pmm) := by
  obtain ⟨g, h⟩ := MapperInv.init kernelEnd_kernelBegin Mem.zero
  obtain ⟨g', hfinal⟩ := kernelInv_run kernelEnd_kernelBegin Mem.zero sampleRun_admissible
  have hmapped := hfinal.lookup_ne_zero kernelEnd_kernelBegin sampleRun_table sampleRun_run.2
  have ht := sampleRun_table
  rw [final_mappingSystem] at ht hmapped
  intro s tbl pa perm
  exact (failed_calls_invisible kernelEnd_kernelBegin Mem.zero
    (h.admissible kernelEnd_kernelBegin sampleRun_admissible) ht 0x1000 pa perm).2.2.2 hmapped

end HxcOS
