import HxcOS.Vmm.Operations

/-!
# The nodes of the page tables, whatever the leaf entries hold

`Owned` asks that leaf entries lead to pages of their own.  That fails when one page is mapped twice,
and when a leaf entry is not made from a value of `permission_code`.  `Nodes` is the part of `Owned`
that does not look at leaf entries: the free list, and the tree of the nodes of each table.  A page
that is neither free nor a node counts as held, mapped or not (`Owned.nodes`).

What the lowest nodes hold is described next to it, by the function `Kernel.leaf`: making nodes does
not change it, and storing a leaf entry changes it at one key.
-/

namespace HxcOS

open ByteMem Radix

/-- The roles when the pages that leaf entries lead to count as held. -/
def Ghost.leavesHeld (g : Ghost) : Ghost where
  free := g.free
  own p := match g.own p with
    | .inTable t π => if π.length = 3 then .held else .inTable t π
    | r => r
  flags := g.flags

/-- The bytes of the nodes of a table. -/
def Ghost.tableBytes (g : Ghost) (t : ℕ) : Set Word :=
  {a | ∃ p π, g.own p = .inTable t π ∧ a ∈ page p}

/-- The free list is as the ghost says, and so are the nodes of the tables. -/
structure Nodes (kernelEnd : Word) (g : Ghost) (s : Kernel) : Prop where
  chain : FreeList s.pmm g.free
  free_iff : ∀ p, p ∈ g.free ↔ g.own p = .free
  pool_iff : ∀ p, PoolPage kernelEnd p ↔ g.own p ≠ .outside
  placed : Placed 2 s.forest (fun p => (g.own p).place)
  depth : ∀ p t π, g.own p = .inTable t π → π.length ≤ 2

namespace Ghost

variable {g : Ghost} {p : Word} {t : ℕ} {π : List Idx}

theorem leavesHeld_inTable :
    g.leavesHeld.own p = .inTable t π ↔ g.own p = .inTable t π ∧ π.length ≠ 3 := by
  unfold leavesHeld
  dsimp only
  cases hp : g.own p with
  | inTable u ρ =>
    dsimp only
    split_ifs with hρ
    · simp only [Role.inTable.injEq, false_iff]
      rintro ⟨⟨-, rfl⟩, hne⟩
      exact hne hρ
    · simp only [Role.inTable.injEq]
      constructor
      · rintro ⟨rfl, rfl⟩
        exact ⟨⟨rfl, rfl⟩, hρ⟩
      · rintro ⟨h, -⟩
        exact h
  | outside => simp
  | free => simp
  | held => simp

theorem leavesHeld_free : g.leavesHeld.own p = .free ↔ g.own p = .free := by
  unfold leavesHeld
  dsimp only
  cases g.own p with
  | inTable u ρ => dsimp only; split_ifs <;> simp
  | outside => simp
  | free => simp
  | held => simp

theorem leavesHeld_outside : g.leavesHeld.own p = .outside ↔ g.own p = .outside := by
  unfold leavesHeld
  dsimp only
  cases g.own p with
  | inTable u ρ => dsimp only; split_ifs <;> simp
  | outside => simp
  | free => simp
  | held => simp

end Ghost

/-- The part of `Owned` that does not look at leaf entries. -/
theorem Owned.nodes {K : Word} {g : Ghost} {s : Kernel} (h : Owned K g s) :
    Nodes K g.leavesHeld s := by
  refine ⟨h.chain, fun p => ?_, fun p => ?_, fun t π p hπ => ?_, fun p t π hp => ?_⟩
  · exact (h.free_iff p).trans Ghost.leavesHeld_free.symm
  · exact (h.pool_iff p).trans Ghost.leavesHeld_outside.symm.not
  · rw [Role.place_eq_some_iff, Ghost.leavesHeld_inTable]
    exact (h.walk_iff (by omega)).trans (and_iff_left (by omega)).symm
  · obtain ⟨hown, hne⟩ := Ghost.leavesHeld_inTable.1 hp
    have hle := h.depth p t π hown
    omega

/-! ### Leaf entries -/

/-- The entry, if it is valid. -/
def PageTableEntry.ifValid (e : PageTableEntry) : Option PageTableEntry :=
  if e.isValid then some e else none

/-- The valid leaf entry for an address. -/
def Kernel.leaf (s : Kernel) (t : ℕ) (va : Word) : Option PageTableEntry :=
  (s.walk t [idx1 va, idx2 va]).bind fun q => (pte s.pmm.mem q (idx0 va)).ifValid

theorem pte_congr {m m' : Mem} {q : Word} {i : Idx}
    (h : m'.load64 (entry q i) = m.load64 (entry q i)) : pte m' q i = pte m q i := by
  unfold pte loadPte
  rw [h]

theorem pte_of_zero {m : Mem} {q : Word} {i : Idx} (h : m.load64 (entry q i) = 0) :
    (pte m q i).ifValid = none := by
  unfold pte loadPte
  rw [h]
  decide

namespace Kernel

variable {s : Kernel} {t : ℕ} {q va vb : Word}

theorem leaf_eq (hq : s.walk t [idx1 va, idx2 va] = some q) :
    s.leaf t va = (pte s.pmm.mem q (idx0 va)).ifValid := by
  rw [leaf, hq, Option.bind_some]

theorem leaf_none (hq : s.walk t [idx1 va, idx2 va] = none) : s.leaf t va = none := by
  rw [leaf, hq, Option.bind_none]

/-- The tables and the memory decide. -/
theorem leaf_of_eq {s' : Kernel} (htables : s'.tables = s.tables) (hmem : s'.pmm.mem = s.pmm.mem)
    (t : ℕ) (va : Word) : s'.leaf t va = s.leaf t va := by
  rw [leaf, leaf, walk, walk, forest, forest, htables, hmem]

/-- The entry depends on the key of the address. -/
theorem leaf_congr (h : key va = key vb) : s.leaf t va = s.leaf t vb := by
  rw [← path_eq_iff] at h
  simp only [path, List.cons.injEq, and_true] at h
  rw [leaf, leaf, h.1, h.2.1, h.2.2]

end Kernel

/-- Only a table has entries. -/
theorem Kernel.table_of_leaf {s : Kernel} {u : ℕ} {va : Word} {e : PageTableEntry}
    (he : s.leaf u va = some e) : ∃ tbl, s.tables[u]? = some tbl := by
  cases ht : s.tables[u]? with
  | some tbl => exact ⟨tbl, rfl⟩
  | none =>
    have hroot : s.walk u [] = none := by simp [walk, forest, HxcOS.forest, ht]
    rw [Kernel.leaf_none (Kernel.walk_none (Kernel.walk_none hroot _) _)] at he
    cases he

namespace Nodes

variable {K : Word} {g : Ghost} {s : Kernel} {p q va vb : Word} {L : List Word} {t u : ℕ}
  {π ρ : List Idx} {i : Idx} {tbl : PageTable}

/-- The start: every page of the pool is free, and there is no table. -/
theorem init (hK : KernelEnd K) (m : Mem) :
    ∃ g, Nodes K g (Kernel.init K m) ∧ (∀ p, p ∈ g.free ↔ PoolPage K p) ∧
      (∀ p, g.own p ≠ .held) ∧ ∀ u va, (Kernel.init K m).leaf u va = none := by
  obtain ⟨L, hL, -, -, hmem⟩ := pmmInit_freeList hK m
  have howned : Owned K _ (Kernel.init K m) :=
    Owned.init hL (fun p => (hmem p).1) fun p => by simp [hmem p]
  refine ⟨_, howned.nodes, hmem, fun p => ?_, fun u va => ?_⟩
  · simp only [Ghost.leavesHeld, hmem p]
    split_ifs <;> simp
  · cases he : (Kernel.init K m).leaf u va with
    | none => rfl
    | some e =>
      obtain ⟨tbl, ht⟩ := Kernel.table_of_leaf he
      cases ht

theorem poolPage (h : Nodes K g s) (hp : g.own p ≠ .outside) : PoolPage K p := (h.pool_iff p).2 hp

theorem aligned (h : Nodes K g s) (hp : g.own p ≠ .outside) : PageAligned p := (h.poolPage hp).1

theorem free_aligned (h : Nodes K g s) : ∀ q ∈ g.free, PageAligned q :=
  fun q hq => h.aligned (by rw [(h.free_iff q).1 hq]; simp)

theorem own_head (h : Nodes K g s) (hL : g.free = p :: L) : g.own p = .free :=
  (h.free_iff p).1 (by simp [hL])

theorem walk_iff (h : Nodes K g s) (hπ : π.length ≤ 2) :
    s.walk t π = some p ↔ g.own p = .inTable t π :=
  (h.placed t π p hπ).trans Role.place_eq_some_iff

theorem walk_cons (_h : Nodes K g s) (hq : s.walk t π = some q) (i : Idx) :
    s.walk t (i :: π) = child s.pmm.mem q i := Forest.walk_cons_of_eq hq i

theorem node_poolPage (h : Nodes K g s) (hp : g.own p = .inTable t π) : PoolPage K p :=
  h.poolPage (by rw [hp]; simp)

theorem head_ne_zero_iff (h : Nodes K g s) : s.pmm.freePagesList ≠ 0 ↔ g.free ≠ [] :=
  (Chain.Linked.head_eq_nil_iff h.chain).not

/-- The record of the mappings, the pages held by clients and the ghosts of the allocator play no
part. -/
theorem of_eq (h : Nodes K g s) {s' : Kernel} (htables : s'.tables = s.tables)
    (hmem : s'.pmm.mem = s.pmm.mem) (hfree : s'.pmm.freePagesList = s.pmm.freePagesList) :
    Nodes K g s' := by
  have hforest : s'.forest = s.forest := by rw [Kernel.forest, Kernel.forest, htables, hmem]
  refine ⟨?_, h.free_iff, h.pool_iff, by rw [hforest]; exact h.placed, h.depth⟩
  have hchain := h.chain
  unfold FreeList at hchain ⊢
  rwa [hmem, hfree]

/-- Pages pass between clients and free list while no inner node changes. -/
theorem reassign (h : Nodes K g s) {g' : Ghost} {s' : Kernel} (htables : s'.tables = s.tables)
    (hnodes : ∀ t π q i, π.length < 2 → s.walk t π = some q →
      s'.pmm.mem.load64 (entry q i) = s.pmm.mem.load64 (entry q i))
    (hplace : ∀ p, (g'.own p).place = (g.own p).place)
    (hout : ∀ p, g'.own p = .outside ↔ g.own p = .outside)
    (hchain : FreeList s'.pmm g'.free) (hfree : ∀ p, p ∈ g'.free ↔ g'.own p = .free) :
    Nodes K g' s' := by
  have hroot : s'.forest.root = s.forest.root := by
    simp only [Kernel.forest, HxcOS.forest, htables]
  have hplaces : (fun p => (g'.own p).place) = fun p => (g.own p).place := funext hplace
  refine ⟨hchain, hfree, fun p => ?_, ?_, fun p t π hp => ?_⟩
  · rw [h.pool_iff p, ne_eq, ne_eq, hout p]
  · rw [hplaces]
    exact h.placed.congr hroot fun t π q hπ hq =>
      funext fun i => child_congr (hnodes t π q i hπ hq)
  · have hp' : (g.own p).place = some (t, π) := by rw [← hplace, hp]; rfl
    exact h.depth p t π (Role.place_eq_some_iff.1 hp')

/-- A node is another page than one that has another role. -/
theorem ne_of_walk (h : Nodes K g s) (hq : s.walk t π = some q) (hπ : π.length ≤ 2)
    (hp : g.own p ≠ .inTable t π) : q ≠ p := by
  rintro rfl
  exact hp ((h.walk_iff hπ).1 hq)

/-- Stores inside a page that is neither free nor an inner node. -/
theorem wrote (h : Nodes K g s) {m : Mem} (hw : Wrote (page p) s.pmm.mem m)
    (hout : g.own p ≠ .outside) (hfree : g.own p ≠ .free)
    (hinner : ∀ t π, π.length < 2 → g.own p ≠ .inTable t π) :
    Nodes K g { s with pmm.mem := m } := by
  have hal := h.aligned hout
  refine h.reassign rfl (fun t π q i hπ hq => ?_) (fun _ => rfl) (fun _ => Iff.rfl)
    (h.chain.of_wrote h.free_aligned hw hal fun hp => hfree ((h.free_iff p).1 hp)) h.free_iff
  have hqown := (h.walk_iff (by omega)).1 hq
  exact load64_entry_of_wrote hw hal (h.node_poolPage hqown).1
    (h.ne_of_walk hq (by omega) (hinner t π hπ)) i

/-- `alloc_page` hands out the first free page. -/
theorem alloc (h : Nodes K g s) (hL : g.free = p :: L) :
    Nodes K { g with free := L, own := Function.update g.own p .held }
      { s with pmm := (allocPage s.pmm).2 } := by
  have hchain := h.chain
  rw [hL] at hchain
  have hown := h.own_head hL
  have hnodup := List.nodup_cons.1 hchain.nodup
  refine h.reassign rfl (fun t π q i _ _ => by rw [allocPage_mem]) (fun r => ?_) (fun r => ?_)
    (allocPage_cons hchain).2 fun r => ?_
  all_goals
    by_cases hr : r = p
    · subst hr
      simp [hown, hnodup.1, Role.place]
    · simp [hr, ← h.free_iff, hL]

/-- `free_page` of a page that is not a node, nor free already. -/
theorem free (hK : KernelEnd K) (h : Nodes K g s) (hp : g.own p = .held) :
    Nodes K { g with free := p :: g.free, own := Function.update g.own p .free }
      { s with pmm := freePage s.pmm p } := by
  have hpool := h.poolPage (by rw [hp]; simp : g.own p ≠ .outside)
  have hpL : p ∉ g.free := by rw [h.free_iff, hp]; simp
  refine h.reassign rfl (fun t π q i hπ hq => ?_) (fun r => ?_) (fun r => ?_)
    (freePage_freeList h.chain h.free_aligned hpool.1 (hpool.ne_zero hK) hpL) fun r => ?_
  · have hqown := (h.walk_iff (by omega)).1 hq
    exact load64_entry_of_wrote (freePage_wrote hpool.1) hpool.1 (h.node_poolPage hqown).1
      (h.ne_of_walk hq (by omega) (by rw [hp]; simp)) i
  all_goals
    by_cases hr : r = p
    · subst hr
      simp [hp, Role.place]
    · simp [hr, ← h.free_iff]

/-- A held page gets a place in a table. -/
theorem place (h : Nodes K g s) {s' : Kernel} (hp : g.own p = .held)
    (hchain : FreeList s'.pmm g.free) (hπ : π.length ≤ 2)
    (hplaced : Placed 2 s'.forest
      (Function.update (fun x => (g.own x).place) p (some (t, π)))) :
    Nodes K { g with own := Function.update g.own p (.inTable t π) } s' := by
  refine ⟨hchain, fun r => ?_, fun r => ?_, by rw [Owned.place_update]; exact hplaced,
    fun r u ρ hr => ?_⟩
  · by_cases hr : r = p
    · subst hr; simp [h.free_iff, hp]
    · simp [hr, h.free_iff]
  · by_cases hr : r = p
    · subst hr; simp [h.pool_iff, hp]
    · simp [hr, h.pool_iff]
  · dsimp only at hr
    by_cases hrp : r = p
    · rw [hrp, Function.update_self, Role.inTable.injEq] at hr
      rwa [← hr.2]
    · rw [Function.update_of_ne hrp] at hr
      exact h.depth r u ρ hr

/-- A zeroed held page is linked in as a node, at an empty entry. -/
theorem link (h : Nodes K g s) (hp : g.own p = .held) (hq : s.walk t π = some q)
    (hπ : π.length < 2) (hnone : child s.pmm.mem q i = none)
    (hzero : ∀ j, s.pmm.mem.load64 (entry p j) = 0) :
    Nodes K { g with own := Function.update g.own p (.inTable t (i :: π)) }
      { s with pmm.mem := storePte s.pmm.mem (entry q i) (.new p PTEFlags.V) } := by
  have hqown := (h.walk_iff (by omega)).1 hq
  have hqal := (h.node_poolPage hqown).1
  have hpal : PageAligned p := h.aligned (by rw [hp]; simp)
  have hqp : q ≠ p := h.ne_of_walk hq (by omega) (by rw [hp]; simp)
  set m := storePte s.pmm.mem (entry q i) (.new p PTEFlags.V) with hm
  have hword : ∀ r j, PageAligned r → m.load64 (entry r j) =
      if r = q ∧ j = i then (PageTableEntry.new p PTEFlags.V).value
      else s.pmm.mem.load64 (entry r j) := fun r j hr => entry_store64 hqal hr _ i j _
  have hchild : child m q i = some p := by
    rw [child_eq_some_iff, pte, loadPte, hword q i hqal, if_pos ⟨rfl, rfl⟩]
    exact ⟨PageTableEntry.isValid_new (by decide) (by decide),
      PageTableEntry.getPa_new hpal (by decide)⟩
  have hempty : ∀ j, child m p j = none := fun j => child_of_zero (by
    rw [hword p j hpal, if_neg (by simp [hqp.symm]), hzero j])
  have hrest : ∀ u ρ r j, ρ.length < 2 → s.walk u ρ = some r → (r ≠ q ∨ j ≠ i) →
      child m r j = child s.pmm.mem r j := fun u ρ r j hρ hr hne => by
    refine child_congr ?_
    rw [hword r j (h.node_poolPage ((h.walk_iff (by omega)).1 hr)).1, if_neg (by tauto)]
  refine h.place hp ?_ (by rw [List.length_cons]; omega)
    (h.placed.link rfl hq hπ hnone (by rw [hp]; rfl) hchild (fun _ => hempty) hrest)
  exact h.chain.of_wrote h.free_aligned (wrote_entry hqal _ i _) hqal
    (by rw [h.free_iff, hqown]; simp)

/-- A zeroed held page becomes the root of a new table. -/
theorem addRoot (h : Nodes K g s) (hp : g.own p = .held)
    (hzero : ∀ j, s.pmm.mem.load64 (entry p j) = 0) :
    Nodes K { g with own := Function.update g.own p (.inTable s.tables.length []) }
      { s with tables := s.tables ++ [⟨p⟩] } := by
  exact h.place hp h.chain (Nat.zero_le _) (h.placed.addRoot
    (by simp [Kernel.forest, HxcOS.forest]) (by rw [hp]; rfl) (forest_root_append s.tables ⟨p⟩ _)
    (fun j => child_of_zero (hzero j)) fun _ _ _ _ _ => rfl)

/-- Where the ghosts agree on a place, so do the walks to it. -/
theorem walk_eq (h : Nodes K g s) {g' : Ghost} {s' : Kernel} (h' : Nodes K g' s')
    (hπ : π.length ≤ 2) (hown : ∀ x, g'.own x = .inTable t π ↔ g.own x = .inTable t π) :
    s'.walk t π = s.walk t π := by
  refine Option.ext fun x => ?_
  rw [h'.walk_iff hπ, h.walk_iff hπ, hown]

/-- Entries of nodes are at the same address only for the same key of the same table. -/
theorem entry_key_iff (h : Nodes K g s) (hp : g.own p = .inTable t [idx1 va, idx2 va])
    (hq : g.own q = .inTable u [idx1 vb, idx2 vb]) :
    q = p ∧ idx0 vb = idx0 va ↔ u = t ∧ key vb = key va := by
  rw [← path_eq_iff]
  simp only [path, List.cons.injEq, and_true]
  constructor
  · rintro ⟨rfl, h0⟩
    rw [hp, Role.inTable.injEq] at hq
    simp only [List.cons.injEq, and_true] at hq
    exact ⟨hq.1.symm, h0, hq.2.1.symm, hq.2.2.symm⟩
  · rintro ⟨rfl, h0, h1, h2⟩
    rw [h1, h2] at hq
    exact ⟨Option.some.inj (((h.walk_iff (by simp)).2 hq).symm.trans
      ((h.walk_iff (by simp)).2 hp)), h0⟩

/-- A leaf entry is stored. -/
theorem storeLeaf (h : Nodes K g s) (hq : g.own q = .inTable t [idx1 va, idx2 va])
    (e : PageTableEntry) :
    Nodes K g { s with pmm.mem := storePte s.pmm.mem (entry q (idx0 va)) e } ∧
      ∀ u vb, Kernel.leaf { s with pmm.mem := storePte s.pmm.mem (entry q (idx0 va)) e } u vb =
        if u = t ∧ key vb = key va then e.ifValid else s.leaf u vb := by
  have hqal := (h.node_poolPage hq).1
  have h' := h.wrote (wrote_entry hqal s.pmm.mem (idx0 va) e.value) (by rw [hq]; simp)
    (by rw [hq]; simp) fun u π hπ heq => by
      rw [hq, Role.inTable.injEq] at heq
      rw [← heq.2] at hπ
      simp at hπ
  refine ⟨h', fun u vb => ?_⟩
  have hwalk := h.walk_eq (t := u) (π := [idx1 vb, idx2 vb]) h' (by simp) fun _ => Iff.rfl
  cases hr : s.walk u [idx1 vb, idx2 vb] with
  | none =>
    rw [hr] at hwalk
    rw [Kernel.leaf_none hr, if_neg]
    · exact Kernel.leaf_none hwalk
    · rintro ⟨rfl, hkey⟩
      rw [← path_eq_iff] at hkey
      simp only [path, List.cons.injEq, and_true] at hkey
      rw [hkey.2.1, hkey.2.2, (h.walk_iff (by simp)).2 hq] at hr
      cases hr
  | some r =>
    rw [hr] at hwalk
    have hrown := (h.walk_iff (by simp)).1 hr
    rw [Kernel.leaf_eq hr]
    refine (Kernel.leaf_eq (s := { s with pmm.mem := _ }) hwalk).trans ?_
    have hword := entry_store64 hqal (h.node_poolPage hrown).1 s.pmm.mem (idx0 va) (idx0 vb) e.value
    simp only [pte, loadPte, hword, h.entry_key_iff hq hrown]
    split_ifs <;> rfl

/-- Stores inside a page that is no lowest node change no leaf entry. -/
theorem leaf_wrote (h : Nodes K g s) {g' : Ghost} {s' : Kernel} (h' : Nodes K g' s')
    (hw : Wrote (page p) s.pmm.mem s'.pmm.mem) (hp : PageAligned p)
    (hno : ∀ t π, π.length = 2 → g.own p ≠ .inTable t π)
    (hown : ∀ x t π, π.length = 2 → (g'.own x = .inTable t π ↔ g.own x = .inTable t π)) (u : ℕ)
    (va : Word) : s'.leaf u va = s.leaf u va := by
  have hwalk := h.walk_eq (t := u) (π := [idx1 va, idx2 va]) h' (by simp) fun x => hown x u _ (by simp)
  cases hr : s.walk u [idx1 va, idx2 va] with
  | none => rw [Kernel.leaf_none hr, Kernel.leaf_none (hwalk.trans hr)]
  | some r =>
    have hrown := (h.walk_iff (by simp)).1 hr
    rw [Kernel.leaf_eq hr, Kernel.leaf_eq (hwalk.trans hr), pte_congr]
    exact load64_entry_of_wrote hw hp (h.node_poolPage hrown).1
      (h.ne_of_walk hr (by simp) (hno u _ (by simp))) _

/-! ### Making nodes -/

/-- `alloc_empty_page` hands out a page of zeros. -/
theorem allocEmpty (h : Nodes K g s) (hL : g.free = p :: L) :
    (allocEmptyPage s.pmm).1 = p ∧
      (∀ j, (allocEmptyPage s.pmm).2.mem.load64 (entry p j) = 0) ∧
      Wrote (page p) s.pmm.mem (allocEmptyPage s.pmm).2.mem ∧
      Nodes K { g with free := L, own := Function.update g.own p .held }
        { s with pmm := (allocEmptyPage s.pmm).2 } := by
  have hpool : PoolPage K p := h.poolPage (by rw [h.own_head hL]; simp)
  have hchain := h.chain
  rw [hL] at hchain
  obtain ⟨m, hstep, hfill⟩ := allocEmptyPage_cons hchain hpool
  rw [hstep]
  refine ⟨rfl, load64_entry_eq_zero hpool.1 hfill.filled, hfill.wrote, ?_⟩
  have hw : Wrote (page p) (allocPage s.pmm).2.mem m := by
    rw [allocPage_mem]
    exact hfill.wrote
  exact (h.alloc hL).wrote hw (by simp) (by simp) (by simp)

/-- A missing node is made. -/
theorem grow (h : Nodes K g s) (hL : g.free = p :: L) (hq : s.walk t π = some q)
    (hπ : π.length < 2) (hnone : child s.pmm.mem q i = none) :
    (growNode s.pmm (entry q i)).1 = p ∧
      Wrote (page p ∪ page q) s.pmm.mem (growNode s.pmm (entry q i)).2.mem ∧
      (∀ j, (growNode s.pmm (entry q i)).2.mem.load64 (entry p j) = 0) ∧
      Nodes K { g with free := L, own := Function.update g.own p (.inTable t (i :: π)) }
        { s with pmm := (growNode s.pmm (entry q i)).2 } := by
  obtain ⟨hp, hzero, hw, halloc⟩ := h.allocEmpty hL
  have hpfree := h.own_head hL
  have hqown := (h.walk_iff (by omega)).1 hq
  have hqpool := h.node_poolPage hqown
  have hppool : PoolPage K p := h.poolPage (by rw [hpfree]; simp)
  have hqp : q ≠ p := h.ne_of_walk hq (by omega) (by rw [hpfree]; simp)
  have hq' : Kernel.walk { s with pmm := (allocEmptyPage s.pmm).2 } t π = some q :=
    (halloc.walk_iff (by omega)).2 ((Function.update_of_ne hqp _ _).trans hqown)
  have hnone' : child (allocEmptyPage s.pmm).2.mem q i = none := by
    rw [child_congr (load64_entry_of_wrote hw hppool.1 hqpool.1 hqp i), hnone]
  have hlink := halloc.link (p := p) (i := i) (by simp) hq' hπ hnone' hzero
  simp only [Function.update_idem] at hlink
  have hstore := wrote_entry hqpool.1 (allocEmptyPage s.pmm).2.mem i
    (PageTableEntry.new p PTEFlags.V).value
  simp only [growNode, hp]
  refine ⟨trivial, (hw.mono Set.subset_union_left).trans (hstore.mono Set.subset_union_right),
    fun j => ?_, hlink⟩
  have hword := entry_store64 hqpool.1 hppool.1 (allocEmptyPage s.pmm).2.mem i j
    (PageTableEntry.new p PTEFlags.V).value
  rw [storePte, hword, if_neg (by simp [hqp.symm]), hzero j]

end Nodes

/-- The first free pages `M` have become nodes of the table `t`, and no other page has changed its
role.  All stores were to nodes of the table. -/
structure Made (K : Word) (t : ℕ) (M : List Word) (g g' : Ghost) (s : Kernel) (pmm : Pmm) :
    Prop where
  nodes : Nodes K g' { s with pmm := pmm }
  free : g.free = M ++ g'.free
  kept : ∀ p ∉ M, g'.own p = g.own p
  made : ∀ p ∈ M, ∃ π, g'.own p = .inTable t π
  wrote : Wrote (g'.tableBytes t) s.pmm.mem pmm.mem
  denied : pmm.denied = s.pmm.denied
  nullMem : pmm.nullMem = s.pmm.nullMem

namespace Made

variable {K : Word} {g g' g'' : Ghost} {s : Kernel} {pmm pmm' : Pmm} {M M' : List Word} {t : ℕ}
  {p : Word}

theorem refl (h : Nodes K g s) (t : ℕ) : Made K t [] g g s s.pmm :=
  ⟨h, rfl, fun _ _ => rfl, by simp, Wrote.refl _ _, rfl, rfl⟩

theorem notMem_of_own (hm : Made K t M g g' s pmm) (h : Nodes K g s) (hp : g.own p ≠ .free) :
    p ∉ M := by
  intro hpM
  exact hp ((h.free_iff p).1 (by rw [hm.free]; exact List.mem_append_left _ hpM))

theorem own_eq (hm : Made K t M g g' s pmm) (h : Nodes K g s) (hp : g.own p ≠ .free) :
    g'.own p = g.own p := hm.kept p (hm.notMem_of_own h hp)

theorem tableBytes_subset (hm : Made K t M g g' s pmm) (h : Nodes K g s) :
    g.tableBytes t ⊆ g'.tableBytes t := by
  rintro a ⟨p, π, hp, ha⟩
  exact ⟨p, π, (hm.own_eq h (by rw [hp]; simp)).trans hp, ha⟩

theorem trans (hm : Made K t M g g' s pmm) (hm' : Made K t M' g' g'' { s with pmm := pmm } pmm') :
    Made K t (M ++ M') g g'' s pmm' := by
  refine ⟨hm'.nodes, by rw [hm.free, hm'.free, List.append_assoc], fun p hp => ?_, fun p hp => ?_,
    (hm.wrote.mono (hm'.tableBytes_subset hm.nodes)).trans hm'.wrote,
    hm'.denied.trans hm.denied, hm'.nullMem.trans hm.nullMem⟩
  · rw [List.mem_append, not_or] at hp
    rw [hm'.kept p hp.2, hm.kept p hp.1]
  · rcases List.mem_append.1 hp with hp | hp
    · obtain ⟨π, hπ⟩ := hm.made p hp
      exact ⟨π, (hm'.own_eq hm.nodes (by rw [hπ]; simp)).trans hπ⟩
    · exact hm'.made p hp

end Made

theorem growNode_nullMem (s : Pmm) (e : Word) : (growNode s e).2.nullMem =
    if s.freePagesList = 0 then some (s.nullMem.getD s.mem) else s.nullMem := by
  simp only [growNode, allocEmptyPage, allocPage]
  split_ifs <;> simp_all

namespace Nodes

variable {K : Word} {g : Ghost} {s : Kernel} {p q va : Word} {L : List Word} {t : ℕ}
  {π : List Idx} {i : Idx} {tbl : PageTable}

/-- Making a node changes no leaf entry: the new node is empty, and the entry that leads to it is in
an inner node. -/
theorem leaf_grow (h : Nodes K g s) (hL : g.free = p :: L) (hq : s.walk t π = some q)
    (hπ : π.length < 2) (hnone : child s.pmm.mem q i = none) (u : ℕ) (va : Word) :
    Kernel.leaf { s with pmm := (growNode s.pmm (entry q i)).2 } u va = s.leaf u va := by
  obtain ⟨-, hw, hzero, h'⟩ := h.grow (i := i) hL hq hπ hnone
  have hpfree := h.own_head hL
  have hqown := (h.walk_iff (by omega)).1 hq
  set s' : Kernel := { s with pmm := (growNode s.pmm (entry q i)).2 }
  cases hr : s.walk u [idx1 va, idx2 va] with
  | some r =>
    have hrown := (h.walk_iff (by simp)).1 hr
    have hrp : r ≠ p := h.ne_of_walk hr (by simp) (by rw [hpfree]; simp)
    have hrq : r ≠ q := by
      refine h.ne_of_walk hr (by simp) ?_
      rw [hqown, ne_eq, Role.inTable.injEq]
      rintro ⟨-, rfl⟩
      simp at hπ
    have hr' : s'.walk u [idx1 va, idx2 va] = some r :=
      (h'.walk_iff (by simp)).2 ((Function.update_of_ne hrp _ _).trans hrown)
    rw [Kernel.leaf_eq hr, Kernel.leaf_eq hr', pte_congr]
    refine hw.load64_eq ?_
    have hral := (h.node_poolPage hrown).1
    have hpal : PageAligned p := h.aligned (by rw [hpfree]; simp)
    rw [Set.disjoint_union_right]
    exact ⟨(page_disjoint hral hpal hrp).mono_left (span_entry_subset hral _),
      (page_disjoint hral (h.node_poolPage hqown).1 hrq).mono_left (span_entry_subset hral _)⟩
  | none =>
    rw [Kernel.leaf_none hr]
    cases hr' : s'.walk u [idx1 va, idx2 va] with
    | none => exact Kernel.leaf_none hr'
    | some r =>
      have hrown := (h'.walk_iff (by simp)).1 hr'
      have hrp : r = p := by
        by_contra hne
        dsimp only at hrown
        rw [Function.update_of_ne hne, ← h.walk_iff (by simp), hr] at hrown
        cases hrown
      rw [Kernel.leaf_eq hr', hrp, pte_of_zero (hzero _)]

/-- A missing node is made from the first free page. -/
theorem grow_made (h : Nodes K g s) (hL : g.free = p :: L) (hq : s.walk t π = some q)
    (hπ : π.length < 2) (hnone : child s.pmm.mem q i = none) :
    Made K t [p] g { g with free := L, own := Function.update g.own p (.inTable t (i :: π)) } s
      (growNode s.pmm (entry q i)).2 := by
  obtain ⟨-, hw, -, h'⟩ := h.grow (i := i) hL hq hπ hnone
  have hqown := (h.walk_iff (by omega)).1 hq
  have hqp : q ≠ p := h.ne_of_walk hq (by omega) (by rw [h.own_head hL]; simp)
  have hhead : s.pmm.freePagesList ≠ 0 := h.head_ne_zero_iff.2 (by simp [hL])
  refine ⟨h', hL, fun r hr => ?_, fun r hr => ?_, hw.mono ?_, ?_, ?_⟩
  · exact Function.update_of_ne (by simpa using hr) _ _
  · rw [List.mem_singleton.1 hr]
    exact ⟨_, Function.update_self ..⟩
  · rintro a (ha | ha)
    · exact ⟨p, _, Function.update_self .., ha⟩
    · exact ⟨q, π, (Function.update_of_ne hqp _ _).trans hqown, ha⟩
  · rw [growNode_denied, if_neg hhead, Nat.add_zero]
  · rw [growNode_nullMem, if_neg hhead]

/-- A node that has just been made is empty. -/
theorem child_made (h : Nodes K g s) (hL : g.free = p :: L) (hq : s.walk t π = some q)
    (hπ : π.length < 2) (hnone : child s.pmm.mem q i = none) (j : Idx) :
    child (growNode s.pmm (entry q i)).2.mem p j = none :=
  child_of_zero ((h.grow hL hq hπ hnone).2.2.1 j)

/-- `page_walk_alloc` with enough free pages: afterwards the nodes on the way are there, and the
pointer returned is that of the entry for `va` in the lowest one. -/
theorem pageWalkAlloc (h : Nodes K g s) (ht : s.tables[t]? = some tbl)
    (hneed : s.needed t va ≤ g.free.length) :
    ∃ g' M q, Made K t M g g' s (tbl.pageWalkAlloc s.pmm va).2 ∧ M.length = s.needed t va ∧
      g'.own q = .inTable t [idx1 va, idx2 va] ∧
      (tbl.pageWalkAlloc s.pmm va).1 = entry q (idx0 va) ∧
      ∀ u vb, Kernel.leaf { s with pmm := (tbl.pageWalkAlloc s.pmm va).2 } u vb = s.leaf u vb := by
  cases hmid : s.walk t [idx2 va] with
  | some mid =>
    cases hlow : s.walk t [idx1 va, idx2 va] with
    | some q =>
      rw [pageWalkAlloc_full ht hlow]
      exact ⟨g, [], q, Made.refl h t, by simp [Kernel.needed, hmid, hlow],
        (h.walk_iff (by simp)).1 hlow, rfl, fun _ _ => rfl⟩
    | none =>
      have hchild : child s.pmm.mem mid (idx1 va) = none := by rw [← h.walk_cons hmid, hlow]
      obtain ⟨p, L, hL⟩ := List.exists_cons_of_length_pos
        (show 0 < g.free.length by simp [Kernel.needed, hmid, hlow] at hneed; omega)
      have hp := (h.grow hL hmid (by simp) hchild).1
      rw [pageWalkAlloc_low ht hmid hchild, hp]
      exact ⟨_, [p], p, h.grow_made hL hmid (by simp) hchild, by simp [Kernel.needed, hmid, hlow],
        Function.update_self .., rfl, h.leaf_grow hL hmid (by simp) hchild⟩
  | none =>
    have hroot : s.walk t [] = some tbl.root := forest_root ht s.pmm.mem
    have hchild : child s.pmm.mem tbl.root (idx2 va) = none := by rw [← h.walk_cons hroot, hmid]
    have hlen : 2 ≤ g.free.length := by simpa [Kernel.needed, hmid] using hneed
    obtain ⟨p, L, hL⟩ := List.exists_cons_of_length_pos (show 0 < g.free.length by omega)
    obtain ⟨p', L', hL'⟩ := List.exists_cons_of_length_pos
      (show 0 < L.length by rw [hL, List.length_cons] at hlen; omega)
    have hp := (h.grow hL hroot (by simp) hchild).1
    have hmade := h.grow_made hL hroot (by simp) hchild
    have hwalk := (hmade.nodes.walk_iff (p := p) (t := t) (π := [idx2 va]) (by simp)).2 (by simp)
    have hchild' := h.child_made hL hroot (by simp) hchild (idx1 va)
    have hp' := (hmade.nodes.grow hL' hwalk (by simp) hchild').1
    have hmade' := hmade.nodes.grow_made hL' hwalk (by simp) hchild'
    rw [pageWalkAlloc_mid ht hmid]
    simp only [hp]
    simp only [hp']
    exact ⟨_, [p] ++ [p'], p', hmade.trans hmade', by simp [Kernel.needed, hmid],
      Function.update_self .., rfl, fun u vb => (hmade.nodes.leaf_grow hL' hwalk (by simp) hchild'
        u vb).trans (h.leaf_grow hL hroot (by simp) hchild u vb)⟩

theorem head_eq_zero (h : Nodes K g s) (hL : g.free = []) : s.pmm.freePagesList = 0 := by
  by_contra hne
  exact h.head_ne_zero_iff.1 hne hL

/-- `page_walk_alloc` without the pages that it needs: `alloc_page` returns `NULL`, and until then
only nodes of the table and free pages are stored to. -/
theorem pageWalkAlloc_null (h : Nodes K g s) (ht : s.tables[t]? = some tbl)
    (hneed : ¬ s.needed t va ≤ g.free.length) :
    s.pmm.denied < (tbl.pageWalkAlloc s.pmm va).2.denied ∧
      ∃ m, (tbl.pageWalkAlloc s.pmm va).2.nullMem = some (s.pmm.nullMem.getD m) ∧
        Wrote (pagesOf g.free ∪ g.tableBytes t) s.pmm.mem m := by
  cases hmid : s.walk t [idx2 va] with
  | some mid =>
    cases hlow : s.walk t [idx1 va, idx2 va] with
    | some q => simp [Kernel.needed, hmid, hlow] at hneed
    | none =>
      have hchild : child s.pmm.mem mid (idx1 va) = none := by rw [← h.walk_cons hmid, hlow]
      have hempty : g.free = [] := by
        simp only [Kernel.needed, hmid, hlow, Option.isNone_some, Option.isNone_none, if_true,
          Bool.false_eq_true, if_false] at hneed
        exact List.length_eq_zero_iff.1 (by omega)
      rw [pageWalkAlloc_low ht hmid hchild]
      dsimp only
      rw [growNode_nullMem, growNode_denied, if_pos (h.head_eq_zero hempty),
        if_pos (h.head_eq_zero hempty)]
      exact ⟨by omega, _, rfl, Wrote.refl _ _⟩
  | none =>
    have hroot : s.walk t [] = some tbl.root := forest_root ht s.pmm.mem
    have hchild : child s.pmm.mem tbl.root (idx2 va) = none := by rw [← h.walk_cons hroot, hmid]
    rw [pageWalkAlloc_mid ht hmid]
    dsimp only
    rw [growNode_nullMem, growNode_denied]
    cases hL : g.free with
    | nil =>
      -- already the page for the middle node is missing
      have hhead := h.head_eq_zero hL
      rw [growNode_denied, growNode_nullMem, if_pos hhead, if_pos hhead]
      refine ⟨by omega, s.pmm.mem, ?_, Wrote.refl _ _⟩
      split_ifs <;> rfl
    | cons p L =>
      -- the middle node takes the last page
      have hmade := h.grow_made hL hroot (by simp) hchild
      have hempty : L = [] := by
        simp only [Kernel.needed, hmid, hL, Option.isNone_none, if_true, List.length_cons] at hneed
        exact List.length_eq_zero_iff.1 (by omega)
      have hhead := hmade.nodes.head_eq_zero hempty
      rw [if_pos hhead, if_pos hhead, hmade.nullMem, hmade.denied]
      refine ⟨by omega, _, rfl, (h.grow hL hroot (by simp) hchild).2.1.mono ?_⟩
      rintro a (ha | ha)
      · exact Or.inl ⟨p, List.mem_cons_self, ha⟩
      · exact Or.inr ⟨tbl.root, [], (h.walk_iff (by simp)).1 hroot, ha⟩

/-- Where `alloc_page` returns no `NULL`, the pages that are needed were free. -/
theorem needed_le (h : Nodes K g s) (ht : s.tables[t]? = some tbl)
    (hsup : (tbl.pageWalkAlloc s.pmm va).2.denied = s.pmm.denied) :
    s.needed t va ≤ g.free.length := by
  by_contra hneed
  have hden := (h.pageWalkAlloc_null ht hneed).1
  omega

/-- The constructor gets a page exactly when one is free. -/
theorem free_ne_nil_iff (h : Nodes K g s) :
    g.free ≠ [] ↔ (PageTable.new s.pmm).2.denied = s.pmm.denied := by
  rw [← h.head_ne_zero_iff, show (PageTable.new s.pmm).2 = (allocEmptyPage s.pmm).2 from rfl,
    allocEmptyPage_denied]
  simp

/-! ### The calls -/

/-- The constructor. -/
theorem newTable (h : Nodes K g s) (hL : g.free = p :: L) :
    (PageTable.new s.pmm).1 = ⟨p⟩ ∧
      Nodes K { g with free := L, own := Function.update g.own p (.inTable s.tables.length []) }
        { s with pmm := (PageTable.new s.pmm).2, tables := s.tables ++ [⟨p⟩] } ∧
      ∀ u va, Kernel.leaf
        { s with pmm := (PageTable.new s.pmm).2, tables := s.tables ++ [⟨p⟩] } u va =
          s.leaf u va := by
  obtain ⟨hp, hzero, hw, halloc⟩ := h.allocEmpty hL
  have hroot := halloc.addRoot (p := p) (by simp) hzero
  simp only [Function.update_idem] at hroot
  have hpfree := h.own_head hL
  refine ⟨by simp only [PageTable.new, hp], hroot, h.leaf_wrote hroot hw
    (h.aligned (by rw [hpfree]; simp)) (by rw [hpfree]; simp) fun x u π hπ => ?_⟩
  by_cases hx : x = p
  · -- the root is no lowest node
    subst hx
    simp only [Function.update_self, Role.inTable.injEq, hpfree, reduceCtorEq, iff_false]
    rintro ⟨-, rfl⟩
    simp at hπ
  · simp [hx]

/-- `add`, for an address that is mapped and for one that is not. -/
theorem add (h : Nodes K g s) (ht : s.tables[t]? = some tbl) (pa perm : Word)
    (hneed : s.needed t va ≤ g.free.length) :
    ∃ g' M, Made K t M g g' s (tbl.add s.pmm va pa perm).2 ∧ M.length = s.needed t va ∧
      (tbl.add s.pmm va pa perm).1 = (if (s.leaf t va).isSome then -1 else 0) ∧
      ∀ u vb, Kernel.leaf { s with pmm := (tbl.add s.pmm va pa perm).2 } u vb =
        if u = t ∧ key vb = key va then (s.leaf t va).or (PageTableEntry.new pa perm).ifValid
        else s.leaf u vb := by
  obtain ⟨g', M, q, hmade, hlen, hq, hptr, hleaf⟩ := h.pageWalkAlloc ht hneed
  have hva := hleaf t va
  rw [Kernel.leaf_eq ((hmade.nodes.walk_iff (by simp)).2 hq)] at hva
  dsimp only at hva
  refine ⟨g', M, ?_⟩
  unfold PageTable.add
  simp only [hptr, loadPte_entry]
  by_cases hv : (pte (tbl.pageWalkAlloc s.pmm va).2.mem q (idx0 va)).isValid = true
  · rw [PageTableEntry.ifValid, if_pos hv] at hva
    rw [if_pos hv, ← hva]
    refine ⟨hmade, hlen, rfl, fun u vb => ?_⟩
    rw [hleaf u vb]
    split_ifs with hat
    · rw [hat.1, Kernel.leaf_congr hat.2, ← hva]
      rfl
    · rfl
  · rw [PageTableEntry.ifValid, if_neg hv] at hva
    rw [if_neg hv, ← hva]
    obtain ⟨hnodes, hstore⟩ := hmade.nodes.storeLeaf hq (.new pa perm)
    have hqal := (hmade.nodes.node_poolPage hq).1
    refine ⟨⟨hnodes, hmade.free, hmade.kept, hmade.made, hmade.wrote.trans ?_, hmade.denied,
      hmade.nullMem⟩, hlen, rfl, fun u vb => ?_⟩
    · exact (wrote_entry hqal _ _ _).mono fun a ha => ⟨q, _, hq, ha⟩
    · refine (hstore u vb).trans ?_
      rw [hleaf u vb]
      rfl

/-- `page_walk` to an entry that is valid. -/
theorem pageWalk_some (h : Nodes K g s) (hK : KernelEnd K) (ht : s.tables[t]? = some tbl)
    {e : PageTableEntry} (he : s.leaf t va = some e) :
    ∃ q, g.own q = .inTable t [idx1 va, idx2 va] ∧ entry q (idx0 va) ≠ 0 ∧
      tbl.pageWalk s.pmm.mem va = entry q (idx0 va) ∧ pte s.pmm.mem q (idx0 va) = e := by
  cases hq : s.walk t [idx1 va, idx2 va] with
  | none =>
    rw [Kernel.leaf_none hq] at he
    cases he
  | some q =>
    have hqown := (h.walk_iff (by simp)).1 hq
    rw [Kernel.leaf_eq hq, PageTableEntry.ifValid] at he
    split_ifs at he with hv
    have hwalk : tbl.pageWalk s.pmm.mem va = entry q (idx0 va) := by
      rw [pageWalk_eq ht, show (forest s.tables s.pmm.mem).walk t [idx1 va, idx2 va] = some q from hq]
      exact if_pos hv
    exact ⟨q, hqown, (h.node_poolPage hqown).entry_ne_zero hK _, hwalk, Option.some.inj he⟩

theorem pageWalk_none (ht : s.tables[t]? = some tbl) (he : s.leaf t va = none) :
    tbl.pageWalk s.pmm.mem va = 0 := by
  rw [pageWalk_eq ht]
  cases hq : (forest s.tables s.pmm.mem).walk t [idx1 va, idx2 va] with
  | none => rfl
  | some q =>
    rw [Kernel.leaf_eq hq, PageTableEntry.ifValid] at he
    split_ifs at he with hv
    exact if_neg hv

/-- `lookup` returns the page of the leaf entry. -/
theorem lookup (h : Nodes K g s) (hK : KernelEnd K) (ht : s.tables[t]? = some tbl) (va : Word) :
    tbl.lookup s.pmm.mem va = (s.leaf t va).elim 0 PageTableEntry.getPa := by
  unfold PageTable.lookup
  cases he : s.leaf t va with
  | none => simp [pageWalk_none ht he]
  | some e =>
    obtain ⟨q, -, hne, hwalk, hpte⟩ := h.pageWalk_some hK ht he
    simp only [hwalk, if_neg hne, loadPte_entry, hpte, Option.elim_some]

/-- `erase` of an address that is mapped to a page that is neither free nor a node. -/
theorem erase_some (h : Nodes K g s) (hK : KernelEnd K) (ht : s.tables[t]? = some tbl)
    {e : PageTableEntry} (he : s.leaf t va = some e) (hpa : e.getPa = p) (hheld : g.own p = .held) :
    (tbl.erase s.pmm va).1 = 0 ∧
      Nodes K { g with free := p :: g.free, own := Function.update g.own p .free }
        { s with pmm := (tbl.erase s.pmm va).2 } ∧
      ∀ u vb, Kernel.leaf { s with pmm := (tbl.erase s.pmm va).2 } u vb =
        if u = t ∧ key vb = key va then none else s.leaf u vb := by
  obtain ⟨q, hqown, hne, hwalk, hpte⟩ := h.pageWalk_some hK ht he
  have hpool : PoolPage K p := h.poolPage (by rw [hheld]; simp)
  have hqp : q ≠ p := by
    rintro rfl
    rw [hheld] at hqown
    cases hqown
  have hfree := h.free hK hheld
  have hleaf := h.leaf_wrote hfree (freePage_wrote hpool.1) hpool.1 (by rw [hheld]; simp)
    fun x u π _ => by
      by_cases hx : x = p
      · simp [hx, hheld]
      · simp [hx]
  have hqown' : Function.update g.own p .free q = .inTable t [idx1 va, idx2 va] :=
    (Function.update_of_ne hqp _ _).trans hqown
  obtain ⟨hnodes, hstore⟩ := hfree.storeLeaf hqown' invalidPte
  simp only [PageTable.erase, hwalk, if_neg hne, loadPte_entry, hpte, hpa]
  refine ⟨trivial, hnodes, fun u vb => (hstore u vb).trans ?_⟩
  rw [hleaf u vb]
  rfl

/-- `erase` of an address that is not mapped. -/
theorem erase_none (ht : s.tables[t]? = some tbl) (he : s.leaf t va = none) :
    tbl.erase s.pmm va = (-1, s.pmm) := by
  simp only [PageTable.erase, pageWalk_none ht he, if_true]

end Nodes

end HxcOS
