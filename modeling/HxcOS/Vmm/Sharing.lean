import HxcOS.Vmm.Nodes
import HxcOS.Vmm.Runs

/-!
# Pages that are mapped more than once

The clients of `HxcOS.Vmm.Kernel` give a page away when they map it.  Here they keep it, and may map
it again: at another address, or in another table.  `erase` knows nothing of this.  It frees the page
of the entry that it clears, and the page stays mapped through the other entries.

After every `erase` the free pages are unmapped exactly when every `erase` of the run clears the only
entry of its page (`erase_keeps_unmapped_iff`).
-/

namespace HxcOS

open ByteMem Radix OpSystem

/-- The calls of the clients. -/
inductive SharingOp
  | newTable
  | allocPage
  | add (t : ℕ) (va pa perm : Word)
  | erase (t : ℕ) (va : Word)

namespace Kernel

/-- `held` are the pages taken from `alloc_page` that no `erase` has freed, mapped or not. -/
def sharingStep (s : Kernel) : SharingOp → Ret × Kernel
  | .newTable => s.step .newTable
  | .allocPage => s.step .allocPage
  | .add t va pa perm =>
      match s.tables[t]? with
      | none => (.done, s)
      | some tbl =>
          let (r, pmm) := tbl.add s.pmm va pa perm
          (.int r, { s with pmm := pmm })
  | .erase t va =>
      match s.tables[t]? with
      | none => (.done, s)
      | some tbl =>
          let (r, pmm) := tbl.erase s.pmm va
          (.int r, { s with pmm := pmm, held := s.held.erase (tbl.lookup s.pmm.mem va) })

/-- The promises of the clients. -/
def SharingPromise (s : Kernel) : SharingOp → Prop
  | .newTable => True
  | .allocPage => True
  | .add t _ pa perm => t < s.tables.length ∧ pa ∈ s.held ∧ IsPermission perm
  | .erase t _ => t < s.tables.length

/-- `alloc_page` returns no `NULL` in a call that makes nodes. -/
def SharingSupplied (s : Kernel) (o : SharingOp) : Prop :=
  o ≠ .allocPage → (s.sharingStep o).2.pmm.denied = s.pmm.denied

/-- The free pages are a list without repetition, and no entry leads to one of them. -/
def FreeUnmapped (s : Kernel) : Prop :=
  ∃ L, FreeList s.pmm L ∧ L.Nodup ∧ ∀ p ∈ L, ∀ (u : ℕ) (tbl : PageTable) (vb : Word),
    s.tables[u]? = some tbl → tbl.lookup s.pmm.mem vb ≠ p

/-- The page that is mapped at the address is mapped nowhere else. -/
def SoleMapping (s : Kernel) (t : ℕ) (va : Word) : Prop :=
  ∀ tbl, s.tables[t]? = some tbl → tbl.lookup s.pmm.mem va ≠ 0 →
    ∀ (u : ℕ) (tbl' : PageTable) (vb : Word), s.tables[u]? = some tbl' →
      (u ≠ t ∨ key vb ≠ key va) → tbl'.lookup s.pmm.mem vb ≠ tbl.lookup s.pmm.mem va

end Kernel

/-- The clients that share pages. -/
def sharingSystem : System Kernel SharingOp Ret where
  step := Kernel.sharingStep
  ok s o := s.SharingPromise o ∧ s.SharingSupplied o

@[simp] theorem sharingSystem_step (s : Kernel) (o : SharingOp) :
    sharingSystem.step s o = s.sharingStep o := rfl

/-- What a run keeps as long as no page is freed that is mapped elsewhere. -/
structure SharingInv (K : Word) (g : Ghost) (s : Kernel) : Prop where
  nodes : Nodes K g s
  held_iff : ∀ p, p ∈ s.held ↔ g.own p = .held
  targets : ∀ u va e, s.leaf u va = some e → g.own e.getPa = .held

namespace SharingInv

variable {K : Word} {g : Ghost} {s : Kernel} {p va pa perm : Word} {L : List Word} {t : ℕ}
  {tbl : PageTable}

theorem init (hK : KernelEnd K) (m : Mem) :
    ∃ g, SharingInv K g (Kernel.init K m) ∧ ∀ p, p ∈ g.free ↔ PoolPage K p := by
  obtain ⟨g, h, hfree, hheld, hleaf⟩ := Nodes.init hK m
  refine ⟨g, ⟨h, fun p => ?_, fun u va e he => ?_⟩, hfree⟩
  · simp [Kernel.init, hheld p]
  · rw [hleaf] at he
    cases he

/-- The page of an entry is a page of the pool. -/
theorem target_ne_zero (h : SharingInv K g s) (hK : KernelEnd K) {u : ℕ} {e : PageTableEntry}
    (he : s.leaf u va = some e) : e.getPa ≠ 0 :=
  (h.nodes.poolPage (by rw [h.targets u va e he]; simp)).ne_zero hK

/-- It is not free. -/
theorem target_ne_of_free (h : SharingInv K g s) (hp : g.own p = .free) {u : ℕ}
    {e : PageTableEntry} (he : s.leaf u va = some e) : e.getPa ≠ p := by
  rintro rfl
  rw [h.targets u va e he] at hp
  cases hp

/-- `lookup` finds a page where there is an entry. -/
theorem lookup_eq_iff (h : SharingInv K g s) (hK : KernelEnd K) (ht : s.tables[t]? = some tbl)
    (hp : p ≠ 0) : tbl.lookup s.pmm.mem va = p ↔ ∃ e, s.leaf t va = some e ∧ e.getPa = p := by
  rw [h.nodes.lookup hK ht]
  cases s.leaf t va with
  | none =>
    constructor
    · exact fun h0 => absurd h0.symm hp
    · rintro ⟨e, he, -⟩
      cases he
  | some e => simp

/-- Free pages are not mapped. -/
theorem freeUnmapped (h : SharingInv K g s) (hK : KernelEnd K) : s.FreeUnmapped := by
  refine ⟨g.free, h.nodes.chain, h.nodes.chain.nodup, fun p hp u tbl vb ht hlookup => ?_⟩
  rw [h.lookup_eq_iff hK ht (h.nodes.chain.ne_zero hp)] at hlookup
  obtain ⟨e, he, rfl⟩ := hlookup
  have hfree := (h.nodes.free_iff _).1 hp
  rw [h.targets u vb e he] at hfree
  cases hfree

/-- The constructor gets a page exactly when one is free. -/
theorem newTable_supplied (h : SharingInv K g s) :
    s.SharingSupplied .newTable ↔ g.free ≠ [] := by
  rw [h.nodes.free_ne_nil_iff]
  exact ⟨fun hsup => hsup (by simp), fun hsup _ => hsup⟩

theorem newTable (h : SharingInv K g s) (hfree : g.free ≠ []) :
    ∃ g', SharingInv K g' (s.sharingStep .newTable).2 ∧ g.free.length ≤ g'.free.length + 1 ∧
      ∀ u va, (s.sharingStep .newTable).2.leaf u va = s.leaf u va := by
  obtain ⟨p, L, hL⟩ := List.exists_cons_of_ne_nil hfree
  obtain ⟨hnew, hnodes, hleaf⟩ := h.nodes.newTable hL
  have hstep : (s.sharingStep .newTable).2 =
      { s with pmm := (PageTable.new s.pmm).2, tables := s.tables ++ [⟨p⟩] } := by
    rw [← hnew]
    rfl
  have hpfree := h.nodes.own_head hL
  rw [hstep]
  refine ⟨_, ⟨hnodes, fun q => ?_, fun u va e he => ?_⟩, by rw [hL, List.length_cons], hleaf⟩
  · by_cases hq : q = p
    · subst hq
      simp [h.held_iff, hpfree]
    · simp [hq, h.held_iff]
  · rw [hleaf] at he
    dsimp only
    rw [Function.update_of_ne (h.target_ne_of_free hpfree he)]
    exact h.targets u va e he

theorem allocPage (h : SharingInv K g s) :
    ∃ g', SharingInv K g' (s.sharingStep .allocPage).2 ∧ g.free.length ≤ g'.free.length + 1 ∧
      ∀ u va, (s.sharingStep .allocPage).2.leaf u va = s.leaf u va := by
  have hleaf : ∀ u va, (s.sharingStep .allocPage).2.leaf u va = s.leaf u va :=
    Kernel.leaf_of_eq rfl (allocPage_mem s.pmm)
  cases hL : g.free with
  | nil =>
    have hchain := h.nodes.chain
    rw [hL] at hchain
    have hstep := allocPage_nil hchain
    refine ⟨g, ⟨h.nodes.of_eq rfl (allocPage_mem s.pmm) ?_, fun q => ?_, fun u va e he => ?_⟩,
      by simp, hleaf⟩
    · simp only [Kernel.sharingStep, Kernel.step, hstep]
    · simp only [Kernel.sharingStep, Kernel.step, hstep, if_true]
      exact h.held_iff q
    · rw [hleaf] at he
      exact h.targets u va e he
  | cons p L =>
    have hchain := h.nodes.chain
    rw [hL] at hchain
    have hpfree := h.nodes.own_head hL
    have hne : p ≠ 0 := hchain.ne_zero List.mem_cons_self
    have hp : (HxcOS.allocPage s.pmm).1 = p := by rw [(allocPage_cons hchain).1]
    have hstep : (s.sharingStep .allocPage).2 =
        { s with pmm := (HxcOS.allocPage s.pmm).2, held := insert p s.held } := by
      simp only [Kernel.sharingStep, Kernel.step, hp, if_neg hne]
    rw [hstep] at hleaf ⊢
    refine ⟨_, ⟨(h.nodes.alloc hL).of_eq rfl rfl rfl, fun q => ?_, fun u va e he => ?_⟩, le_rfl,
      hleaf⟩
    · by_cases hq : q = p
      · subst hq
        simp
      · simp [hq, h.held_iff]
    · rw [hleaf] at he
      dsimp only
      rw [Function.update_of_ne (h.target_ne_of_free hpfree he)]
      exact h.targets u va e he

/-- A page that is held is mapped, whether or not it is mapped already. -/
theorem add (h : SharingInv K g s) (ht : s.tables[t]? = some tbl) (hpa : pa ∈ s.held)
    (hperm : perm.toNat < 1024 ∧ perm.toNat % 2 = 1) (hneed : s.needed t va ≤ g.free.length) :
    ∃ g', SharingInv K g' (s.sharingStep (.add t va pa perm)).2 ∧
      g.free.length ≤ g'.free.length + 2 ∧
      (s.sharingStep (.add t va pa perm)).2.pmm.denied = s.pmm.denied ∧
      ∀ u vb, (s.sharingStep (.add t va pa perm)).2.leaf u vb =
        if u = t ∧ key vb = key va then (s.leaf t va).or (some (.new pa perm)) else s.leaf u vb := by
  obtain ⟨g', M, hmade, hlen, -, hleaf⟩ := h.nodes.add ht pa perm hneed
  have hheld := (h.held_iff pa).1 hpa
  have hkeep : ∀ q, g'.own q = .held ↔ g.own q = .held := by
    intro q
    by_cases hq : q ∈ M
    · obtain ⟨π, hπ⟩ := hmade.made q hq
      have hqfree := (h.nodes.free_iff q).1 (by rw [hmade.free]; exact List.mem_append_left _ hq)
      rw [hπ, hqfree]
      simp
    · rw [hmade.kept q hq]
  have hvalid : (PageTableEntry.new pa perm).ifValid = some (.new pa perm) :=
    if_pos (PageTableEntry.isValid_new hperm.1 hperm.2)
  have hstep : (s.sharingStep (.add t va pa perm)).2 =
      { s with pmm := (tbl.add s.pmm va pa perm).2 } := by
    simp only [Kernel.sharingStep, ht]
  rw [hvalid] at hleaf
  rw [hstep]
  refine ⟨g', ⟨hmade.nodes, fun q => (h.held_iff q).trans (hkeep q).symm, fun u vb e he => ?_⟩, ?_,
    hmade.denied, hleaf⟩
  · rw [hkeep]
    rw [hleaf] at he
    split_ifs at he with hat
    · rw [Option.or_eq_some_iff] at he
      rcases he with he | ⟨-, he⟩
      · exact h.targets t va e he
      · rw [← Option.some.inj he, PageTableEntry.getPa_new
          (h.nodes.aligned (by rw [hheld]; simp)) hperm.1]
        exact hheld
    · exact h.targets u vb e he
  · have hneeded := s.needed_le t va
    rw [hmade.free, List.length_append]
    omega

theorem erase_step (ht : s.tables[t]? = some tbl) : (s.sharingStep (.erase t va)).2 =
    { s with
      pmm := (tbl.erase s.pmm va).2
      held := s.held.erase (tbl.lookup s.pmm.mem va) } := by
  simp only [Kernel.sharingStep, ht]

/-- `erase` of an address that is not mapped. -/
theorem erase_none (h : SharingInv K g s) (hK : KernelEnd K) (ht : s.tables[t]? = some tbl)
    (he : s.leaf t va = none) : (s.sharingStep (.erase t va)).2 = s := by
  have hzero : (0 : Word) ∉ s.held := by
    rw [h.held_iff]
    intro hheld
    exact (h.nodes.poolPage (by rw [hheld]; simp)).ne_zero hK rfl
  rw [erase_step ht, Nodes.erase_none ht he, h.nodes.lookup hK ht, he, Option.elim_none,
    Finset.erase_eq_of_notMem hzero]

/-- `erase` of an address that is mapped. -/
theorem erase_some (h : SharingInv K g s) (hK : KernelEnd K) (ht : s.tables[t]? = some tbl)
    (hp : tbl.lookup s.pmm.mem va = p) (hne : p ≠ 0) :
    Nodes K { g with free := p :: g.free, own := Function.update g.own p .free }
        (s.sharingStep (.erase t va)).2 ∧
      (∀ q, q ∈ (s.sharingStep (.erase t va)).2.held ↔ q ≠ p ∧ g.own q = .held) ∧
      ∀ u vb, (s.sharingStep (.erase t va)).2.leaf u vb =
        if u = t ∧ key vb = key va then none else s.leaf u vb := by
  obtain ⟨e, he, hpa⟩ := (h.lookup_eq_iff hK ht hne).1 hp
  have hheld := h.targets t va e he
  rw [hpa] at hheld
  obtain ⟨-, hnodes, hleaf⟩ := h.nodes.erase_some hK ht he hpa hheld
  rw [erase_step ht, hp]
  refine ⟨hnodes.of_eq rfl rfl rfl, fun q => ?_, fun u vb => ?_⟩
  · rw [Finset.mem_erase, h.held_iff]
  · exact (Kernel.leaf_of_eq rfl rfl u vb).trans (hleaf u vb)

/-- `erase` of an address whose page is mapped nowhere else. -/
theorem erase_sole (h : SharingInv K g s) (hK : KernelEnd K) (ht : s.tables[t]? = some tbl)
    (hsole : s.SoleMapping t va) : ∃ g', SharingInv K g' (s.sharingStep (.erase t va)).2 := by
  by_cases hne : tbl.lookup s.pmm.mem va = 0
  · have he : s.leaf t va = none := by
      cases he : s.leaf t va with
      | none => rfl
      | some e =>
        have hpa := h.target_ne_zero hK he
        rw [h.nodes.lookup hK ht, he] at hne
        exact absurd hne hpa
    exact ⟨g, by rwa [h.erase_none hK ht he]⟩
  · have hothers := hsole tbl ht hne
    obtain ⟨p, hp⟩ : ∃ p, tbl.lookup s.pmm.mem va = p := ⟨_, rfl⟩
    rw [hp] at hne hothers
    obtain ⟨hnodes, hheld, hleaf⟩ := h.erase_some hK ht hp hne
    refine ⟨_, hnodes, fun q => (hheld q).trans ?_, fun u vb e he => ?_⟩
    · by_cases hq : q = p
      · subst hq
        simp
      · simp [hq]
    · -- the other entries lead to other pages
      rw [hleaf] at he
      split_ifs at he with hat
      obtain ⟨tbl', ht'⟩ := Kernel.table_of_leaf he
      have hep : e.getPa ≠ p := fun heq => hothers u tbl' vb ht' (not_and_or.1 hat)
        ((h.lookup_eq_iff hK ht' hne).2 ⟨e, he, heq⟩)
      dsimp only
      rw [Function.update_of_ne hep]
      exact h.targets u vb e he

/-- **One `erase`.** -/
theorem erase_iff (h : SharingInv K g s) (hK : KernelEnd K) (ht : s.tables[t]? = some tbl) :
    (s.sharingStep (.erase t va)).2.FreeUnmapped ↔ s.SoleMapping t va := by
  constructor
  · rintro ⟨L, hL, -, hunmapped⟩ tbl₁ ht₁ hne u tbl' vb ht' hother heq
    obtain ⟨p, hp⟩ : ∃ p, tbl₁.lookup s.pmm.mem va = p := ⟨_, rfl⟩
    rw [hp] at hne heq
    obtain ⟨e, he, hpa⟩ := (h.lookup_eq_iff hK ht' hne).1 heq
    obtain ⟨hnodes, -, hleaf⟩ := h.erase_some hK ht₁ hp hne
    -- the page is free, and the other entry is still there
    have hmem : p ∈ L := by
      rw [hL.unique hnodes.chain]
      exact List.mem_cons_self
    have ht'' : (s.sharingStep (.erase t va)).2.tables[u]? = some tbl' := by
      rw [erase_step ht₁]
      exact ht'
    refine hunmapped p hmem u tbl' vb ht'' ?_
    rw [hnodes.lookup hK ht'' vb, hleaf u vb, if_neg (not_and_or.2 hother), he, Option.elim_some, hpa]
  · intro hsole
    obtain ⟨g', h'⟩ := h.erase_sole hK ht hsole
    exact h'.freeUnmapped hK

/-- One call: it keeps the invariant, if it is not an `erase` of a page that is mapped elsewhere. -/
theorem step (h : SharingInv K g s) (hK : KernelEnd K) {o : SharingOp} (hok : sharingSystem.ok s o)
    (hsole : ∀ t va, o = .erase t va → s.SoleMapping t va) :
    ∃ g', SharingInv K g' (s.sharingStep o).2 := by
  obtain ⟨hpromise, hsup⟩ := hok
  cases o with
  | newTable =>
    obtain ⟨g', h', -⟩ := h.newTable (h.newTable_supplied.1 hsup)
    exact ⟨g', h'⟩
  | allocPage =>
    obtain ⟨g', h', -⟩ := h.allocPage
    exact ⟨g', h'⟩
  | add t va pa perm =>
    obtain ⟨hlt, hpa, write, read, exec, user, cow, rfl⟩ := hpromise
    have ht := List.getElem?_eq_getElem hlt
    have hneed : s.needed t va ≤ g.free.length := by
      have hsame := hsup (by simp)
      simp only [Kernel.sharingStep, ht, PageTable.add_denied] at hsame
      exact h.nodes.needed_le ht hsame
    obtain ⟨g', h', -⟩ := h.add ht hpa (permissionCode_bounds write read exec user cow) hneed
    exact ⟨g', h'⟩
  | erase t va =>
    exact h.erase_sole hK (List.getElem?_eq_getElem hpromise) (hsole t va rfl)

end SharingInv

/-- A statement about all calls of `erase` in a list, and what goes before each. -/
theorem forall_erase_cons {o : SharingOp} {ops : List SharingOp}
    {Q : List SharingOp → ℕ → Word → Prop} :
    (∀ pre t va post, o :: ops = pre ++ .erase t va :: post → Q pre t va) ↔
      (∀ t va, o = .erase t va → Q [] t va) ∧
        ∀ pre t va post, ops = pre ++ .erase t va :: post → Q (o :: pre) t va := by
  constructor
  · intro h
    refine ⟨fun t va ho => h [] t va ops (by rw [ho]; rfl), fun pre t va post hops => ?_⟩
    exact h (o :: pre) t va post (by rw [hops]; rfl)
  · rintro ⟨hfirst, hrest⟩ pre t va post heq
    cases pre with
    | nil => exact hfirst t va (List.cons.inj heq).1
    | cons o' pre =>
      obtain ⟨rfl, hops⟩ := List.cons.inj heq
      exact hrest pre t va post hops

/-- The run from a state in which all is well. -/
theorem SharingInv.run_iff {K : Word} (hK : KernelEnd K) {g : Ghost} {s : Kernel}
    (h : SharingInv K g s) {ops : List SharingOp} (hok : sharingSystem.Admissible s ops) :
    (∀ pre t va post, ops = pre ++ .erase t va :: post →
        (sharingSystem.final s (pre ++ [.erase t va])).FreeUnmapped) ↔
      ∀ pre t va post, ops = pre ++ .erase t va :: post →
        (sharingSystem.final s pre).SoleMapping t va := by
  induction ops generalizing s g with
  | nil => simp
  | cons o ops ih =>
    obtain ⟨hfirst, hrest⟩ := hok
    rw [forall_erase_cons, forall_erase_cons]
    have hone : (∀ t va, o = .erase t va →
        (sharingSystem.final s [.erase t va]).FreeUnmapped) ↔
        ∀ t va, o = .erase t va → s.SoleMapping t va := by
      refine forall_congr' fun t => forall_congr' fun va => forall_congr' fun ho => ?_
      subst ho
      exact h.erase_iff hK (List.getElem?_eq_getElem hfirst.1)
    -- up to the first call that goes wrong the invariant holds
    refine (and_congr_left' hone).trans (and_congr_right fun hsole => ?_)
    obtain ⟨g', h'⟩ := h.step hK hfirst hsole
    exact ih h' hrest

/-- **Pages that are mapped more than once.**  In a run of constructor calls, `alloc_page`, `add` and
`erase`, in which pages taken from `alloc_page` are mapped any number of times, the free pages are
a list without repetition and unmapped after every `erase` if and only if every `erase` clears the
only entry of its page. -/
theorem erase_keeps_unmapped_iff {K : Word} (hK : KernelEnd K) (m : Mem) {ops : List SharingOp}
    (hok : sharingSystem.Admissible (Kernel.init K m) ops) :
    (∀ pre t va post, ops = pre ++ .erase t va :: post →
        (sharingSystem.final (Kernel.init K m) (pre ++ [.erase t va])).FreeUnmapped) ↔
      ∀ pre t va post, ops = pre ++ .erase t va :: post →
        (sharingSystem.final (Kernel.init K m) pre).SoleMapping t va := by
  obtain ⟨g, h, -⟩ := SharingInv.init hK m
  exact h.run_iff hK hok

/-! ### A page that is mapped twice -/

/-- Permissions with the `COW` bit. -/
def cowPerm : Word := permissionCode true true false true true

/-- A page is taken and mapped at two addresses. -/
def mapTwice (s : Kernel) : List SharingOp :=
  let p := (allocPage (s.sharingStep .newTable).2.pmm).1
  [.newTable, .allocPage, .add 0 0x1000 p cowPerm, .add 0 0x2000 p cowPerm]

/-- And it is unmapped at one of them. -/
def mapTwiceEraseOnce (s : Kernel) : List SharingOp := mapTwice s ++ [.erase 0 0x1000]

namespace SharingInv

variable {K : Word} {g : Ghost} {s : Kernel} {p : Word} {t : ℕ} {tbl : PageTable}

/-- Another mapping of a page that is held, with enough free pages. -/
theorem addCow (h : SharingInv K g s) (ht : s.tables[t]? = some tbl) (hp : p ∈ s.held)
    (hlen : 2 ≤ g.free.length) {va : Word} (hnone : s.leaf t va = none) :
    sharingSystem.ok s (.add t va p cowPerm) ∧
      ∃ s' g', (s.sharingStep (.add t va p cowPerm)).2 = s' ∧ SharingInv K g' s' ∧
        g.free.length ≤ g'.free.length + 2 ∧ s'.tables = s.tables ∧ s'.held = s.held ∧
        ∀ u vb, s'.leaf u vb =
          if u = t ∧ key vb = key va then some (.new p cowPerm) else s.leaf u vb := by
  have hperm : cowPerm.toNat < 1024 ∧ cowPerm.toNat % 2 = 1 := permissionCode_bounds ..
  obtain ⟨g', h', hlen', hden, hleaf⟩ := h.add ht hp hperm ((s.needed_le t va).trans hlen)
  refine ⟨⟨⟨(List.getElem?_eq_some_iff.1 ht).1, hp, _, _, _, _, _, rfl⟩, fun _ => hden⟩,
    _, g', rfl, h', hlen', ?_, ?_, fun u vb => ?_⟩
  · simp only [Kernel.sharingStep, ht]
  · simp only [Kernel.sharingStep, ht]
  · rw [hleaf, hnone]
    rfl

theorem mem_held_of_allocPage (hne : (HxcOS.allocPage s.pmm).1 ≠ 0) :
    (HxcOS.allocPage s.pmm).1 ∈ (s.sharingStep .allocPage).2.held := by
  simp only [Kernel.sharingStep, Kernel.step, if_neg hne]
  exact Finset.mem_insert_self ..

/-- A table and a page, to begin with. -/
theorem tableAndPage (h : SharingInv K g s) (htables : s.tables = []) (hlen : 2 ≤ g.free.length) :
    s.SharingSupplied .newTable ∧ ∃ s₁ s₂ g₂ tbl, (s.sharingStep .newTable).2 = s₁ ∧
      (s₁.sharingStep .allocPage).2 = s₂ ∧ SharingInv K g₂ s₂ ∧
      g.free.length ≤ g₂.free.length + 2 ∧ s₂.tables[0]? = some tbl ∧
      (HxcOS.allocPage s₁.pmm).1 ∈ s₂.held ∧ ∀ va, s₂.leaf 0 va = none := by
  have hfree : g.free ≠ [] := List.ne_nil_of_length_pos (by omega)
  obtain ⟨g₁, h₁, hlen₁, hleaf₁⟩ := h.newTable hfree
  obtain ⟨g₂, h₂, hlen₂, hleaf₂⟩ := h₁.allocPage
  have hne : (HxcOS.allocPage (s.sharingStep .newTable).2.pmm).1 ≠ 0 := fun h0 => by
    rw [(allocPage_eq_zero_iff h₁.nodes.chain).1 h0, List.length_nil] at hlen₁
    omega
  refine ⟨h.newTable_supplied.2 hfree, _, _, g₂, _, rfl, rfl, h₂, by omega,
    newTable_table htables, ?_, fun va => ?_⟩
  · exact mem_held_of_allocPage hne
  · rw [hleaf₂, hleaf₁]
    cases he : s.leaf 0 va with
    | none => rfl
    | some e =>
      obtain ⟨tbl, ht⟩ := Kernel.table_of_leaf he
      rw [htables] at ht
      cases ht

theorem mapTwice_spec (h : SharingInv K g s) (hK : KernelEnd K) (htables : s.tables = [])
    (hlen : 6 ≤ g.free.length) :
    sharingSystem.Admissible s (mapTwiceEraseOnce s) ∧
      ¬ (sharingSystem.final s (mapTwice s ++ [.erase 0 0x1000])).FreeUnmapped := by
  obtain ⟨hok₁, s₁, s₂, g₂, tbl, hs₁, hs₂, h₂, hlen₂, ht₂, hheld₂, hnone₂⟩ :=
    h.tableAndPage htables (by omega)
  obtain ⟨p, hp⟩ : ∃ p, (HxcOS.allocPage s₁.pmm).1 = p := ⟨_, rfl⟩
  rw [hp] at hheld₂
  obtain ⟨hok₃, s₃, g₃, hs₃, h₃, hlen₃, htab₃, hheld₃, hleaf₃⟩ :=
    h₂.addCow ht₂ hheld₂ (by omega) (hnone₂ 0x1000)
  have hnone₃ : s₃.leaf 0 0x2000 = none := by rw [hleaf₃, if_neg (by decide), hnone₂]
  obtain ⟨hok₄, s₄, g₄, hs₄, h₄, -, htab₄, -, hleaf₄⟩ :=
    h₃.addCow (by rw [htab₃]; exact ht₂) (by rw [hheld₃]; exact hheld₂) (by omega) hnone₃
  have ht₄ : s₄.tables[0]? = some tbl := by rw [htab₄, htab₃]; exact ht₂
  have hok₅ : sharingSystem.ok s₄ (.erase 0 0x1000) :=
    ⟨(List.getElem?_eq_some_iff.1 ht₄).1, fun _ => by
      simp only [Kernel.sharingStep, ht₄, PageTable.erase]
      split_ifs <;> rfl⟩
  -- both addresses are mapped to the page
  have hpown : g₂.own p = .held := (h₂.held_iff p).1 hheld₂
  have hpool : PoolPage K p := h₂.nodes.poolPage (by rw [hpown]; simp)
  have hne : p ≠ 0 := hpool.ne_zero hK
  have hpa : (PageTableEntry.new p cowPerm).getPa = p :=
    PageTableEntry.getPa_new hpool.1 (by decide)
  have hfirst : tbl.lookup s₄.pmm.mem 0x1000 = p := (h₄.lookup_eq_iff hK ht₄ hne).2
    ⟨_, by rw [hleaf₄, if_neg (by decide), hleaf₃, if_pos ⟨rfl, rfl⟩], hpa⟩
  have hsecond : tbl.lookup s₄.pmm.mem 0x2000 = p :=
    (h₄.lookup_eq_iff hK ht₄ hne).2 ⟨_, by rw [hleaf₄, if_pos ⟨rfl, rfl⟩], hpa⟩
  have hnot : ¬ s₄.SoleMapping 0 0x1000 := fun hsole =>
    hsole tbl ht₄ (by rw [hfirst]; exact hne) 0 tbl 0x2000 ht₄ (Or.inr (by decide))
      (hsecond.trans hfirst.symm)
  have hfinal : sharingSystem.final s (mapTwice s) = s₄ := by
    simp only [mapTwice, System.final_cons, System.final_nil, sharingSystem_step, hs₁, hp, hs₂, hs₃,
      hs₄]
  rw [System.final_append, hfinal, System.final_cons, System.final_nil, sharingSystem_step,
    h₄.erase_iff hK ht₄]
  refine ⟨?_, hnot⟩
  simp only [mapTwiceEraseOnce, mapTwice, List.cons_append, List.nil_append,
    System.admissible_cons, System.admissible_nil, sharingSystem_step, hs₁, hp, hs₂, hs₃, hs₄]
  exact ⟨⟨trivial, hok₁⟩, ⟨trivial, fun hcon => absurd rfl hcon⟩, hok₃, hok₄, hok₅, trivial⟩

end SharingInv

theorem SharingInv.init_mapTwice :
    let s := Kernel.init kernelBegin Mem.zero
    sharingSystem.Admissible s (mapTwiceEraseOnce s) ∧
      ¬ (sharingSystem.final s (mapTwice s ++ [.erase 0 0x1000])).FreeUnmapped := by
  obtain ⟨g, h, hfree⟩ := SharingInv.init kernelEnd_kernelBegin Mem.zero
  have hten := ten_le_length hfree
  have htables : (Kernel.init kernelBegin Mem.zero).tables = [] := rfl
  generalize Kernel.init kernelBegin Mem.zero = s at h htables ⊢
  exact h.mapTwice_spec kernelEnd_kernelBegin htables (by omega)

theorem erase_keeps_unmapped_iff_sample :
    let s := Kernel.init kernelBegin Mem.zero
    (∀ pre t va post, mapTwiceEraseOnce s = pre ++ .erase t va :: post →
        (sharingSystem.final s (pre ++ [.erase t va])).FreeUnmapped) ↔
      ∀ pre t va post, mapTwiceEraseOnce s = pre ++ .erase t va :: post →
        (sharingSystem.final s pre).SoleMapping t va :=
  erase_keeps_unmapped_iff kernelEnd_kernelBegin Mem.zero SharingInv.init_mapTwice.1

/-- The page goes to the free list and is still mapped at the other address. -/
theorem shared_page_freed_while_mapped :
    let s := Kernel.init kernelBegin Mem.zero
    sharingSystem.Admissible s (mapTwiceEraseOnce s) ∧
      ¬ (sharingSystem.final s (mapTwice s ++ [.erase 0 0x1000])).FreeUnmapped :=
  SharingInv.init_mapTwice

end HxcOS
