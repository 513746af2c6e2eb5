import HxcOS.Vmm.Ownership

/-!
# What the calls do to the owners

The effect of each call on the roles of the pages, in a state in which the free list has the pages
that the call needs.  A call of `page_walk_alloc` needs one page for each node that is missing on
the way (`needed`), the constructor needs one.

`page_walk_alloc` is at most two uses of the same building block: `growNode` takes a zeroed page
and stores the entry that makes it a node.  Such steps turn free pages into nodes and leave all
other roles alone (`Grown`); in particular they change no mapping.
-/

namespace HxcOS

open ByteMem Radix

/-! ### Taking zeroed pages -/

theorem allocEmptyPage_cons {K : Word} {s : Pmm} {p : Word} {L : List Word}
    (h : FreeList s (p :: L)) (hp : PoolPage K p) :
    ∃ m, allocEmptyPage s = (p, { (allocPage s).2 with mem := m }) ∧ Filled s.mem m p 4096 0 := by
  have hlt := hp.toNat_lt
  obtain ⟨hstep, -⟩ := allocPage_cons h
  have hfill := memset_filled s.mem p 0 pgSize (by rw [pgSize]; bv_omega)
  refine ⟨(memset s.mem p 0 pgSize).2, ?_, hfill⟩
  simp only [allocEmptyPage, hstep]
  rw [Prod.mk.injEq]
  exact ⟨memset_fst .., rfl⟩

theorem allocEmptyPage_denied (s : Pmm) :
    (allocEmptyPage s).2.denied = s.denied + if s.freePagesList = 0 then 1 else 0 := by
  simp only [allocEmptyPage, allocPage]
  split_ifs <;> simp_all

/-- One missing node: a zeroed page, and the entry at `e` that leads to it. -/
def growNode (s : Pmm) (e : Word) : Word × Pmm :=
  let (p, s) := allocEmptyPage s
  (p, { s with mem := storePte s.mem e (.new p PTEFlags.V) })

@[simp] theorem growNode_denied (s : Pmm) (e : Word) :
    (growNode s e).2.denied = s.denied + if s.freePagesList = 0 then 1 else 0 :=
  allocEmptyPage_denied s

/-- `add` itself takes no page. -/
theorem PageTable.add_denied (t : PageTable) (s : Pmm) (va pa perm : Word) :
    (t.add s va pa perm).2.denied = (t.pageWalkAlloc s va).2.denied := by
  unfold PageTable.add
  dsimp only
  split_ifs <;> rfl

section WalkAlloc

variable {tables : List PageTable} {t : ℕ} {tbl : PageTable} {s : Pmm} {va q : Word}

theorem walk_one (ht : tables[t]? = some tbl) (i : Idx) :
    (forest tables s.mem).walk t [i] = child s.mem tbl.root i := by
  rw [Forest.walk_cons, Forest.walk_nil, forest_root ht]
  rfl

/-- Both nodes on the way are there. -/
theorem pageWalkAlloc_full (ht : tables[t]? = some tbl)
    (hq : (forest tables s.mem).walk t [idx1 va, idx2 va] = some q) :
    tbl.pageWalkAlloc s va = (entry q (idx0 va), s) := by
  rw [Forest.walk_cons, walk_one ht] at hq
  obtain ⟨q', hq', hq⟩ := Option.bind_eq_some_iff.1 hq
  obtain ⟨hv, hpa⟩ := child_eq_some_iff.1 hq'
  obtain ⟨hv', hpa'⟩ := child_eq_some_iff.1 hq
  simp only [PageTable.pageWalkAlloc, PageTableEntry.step, add_vpn0, add_vpn1, add_vpn2,
    loadPte_entry, hv, hpa, hv', hpa', Bool.not_true, Bool.false_eq_true, if_false]

/-- The lowest node is missing. -/
theorem pageWalkAlloc_low (ht : tables[t]? = some tbl)
    (hq : (forest tables s.mem).walk t [idx2 va] = some q) (hnone : child s.mem q (idx1 va) = none) :
    tbl.pageWalkAlloc s va =
      (entry (growNode s (entry q (idx1 va))).1 (idx0 va),
        (growNode s (entry q (idx1 va))).2) := by
  rw [walk_one ht] at hq
  obtain ⟨hv, hpa⟩ := child_eq_some_iff.1 hq
  have hv' := child_eq_none_iff.1 hnone
  simp only [PageTable.pageWalkAlloc, PageTableEntry.step, add_vpn0, add_vpn1, add_vpn2,
    loadPte_entry, hv, hpa, hv', Bool.not_true, Bool.not_false, Bool.false_eq_true, if_false,
    if_true, growNode]

/-- The middle node is missing, and with it the lowest one. -/
theorem pageWalkAlloc_mid (ht : tables[t]? = some tbl)
    (hnone : (forest tables s.mem).walk t [idx2 va] = none) :
    tbl.pageWalkAlloc s va =
      let (mid, s) := growNode s (entry tbl.root (idx2 va))
      let (low, s) := growNode s (entry mid (idx1 va))
      (entry low (idx0 va), s) := by
  rw [walk_one ht] at hnone
  have hv := child_eq_none_iff.1 hnone
  simp only [PageTable.pageWalkAlloc, add_vpn0, add_vpn1, add_vpn2, loadPte_entry, hv,
    Bool.not_false, if_true, growNode]

end WalkAlloc

/-- How many nodes on the way to the entry for `va` are missing. -/
def Kernel.needed (s : Kernel) (t : ℕ) (va : Word) : ℕ :=
  if (s.walk t [idx2 va]).isNone then 2
  else if (s.walk t [idx1 va, idx2 va]).isNone then 1
  else 0

theorem Kernel.needed_le (s : Kernel) (t : ℕ) (va : Word) : s.needed t va ≤ 2 := by
  unfold Kernel.needed
  split_ifs <;> omega

/-- Below a missing node every walk fails. -/
theorem Kernel.walk_none {s : Kernel} {t : ℕ} {π : List Idx} (hnone : s.walk t π = none)
    (i : Idx) : s.walk t (i :: π) = none := by
  rw [Kernel.walk, Forest.walk_cons, show s.forest.walk t π = none from hnone, Option.bind_none]

/-! ### Growth -/

/-- The bytes of the nodes. -/
def Ghost.nodeBytes (g : Ghost) : Set Word :=
  {a | ∃ p t π, π.length < 3 ∧ g.own p = .inTable t π ∧ a ∈ page p}

/-- Some free pages have become nodes, and nothing else has changed. -/
structure Grown (g g' : Ghost) : Prop where
  flags : g'.flags = g.flags
  kept : ∀ p, g.own p ≠ .free → g'.own p = g.own p
  grown : ∀ p, g.own p = .free → g'.own p = .free ∨ ∃ t π, π.length < 3 ∧ g'.own p = .inTable t π

namespace Grown

variable {g g' g'' : Ghost} {p : Word} {t : ℕ} {π : List Idx}

theorem refl (g : Ghost) : Grown g g := ⟨rfl, fun _ _ => rfl, fun _ h => Or.inl h⟩

theorem trans (h : Grown g g') (h' : Grown g' g'') : Grown g g'' := by
  refine ⟨h'.flags.trans h.flags, fun p hp => ?_, fun p hp => ?_⟩
  · have hkept := h.kept p hp
    rw [h'.kept p (by rw [hkept]; exact hp), hkept]
  · rcases h.grown p hp with hfree | ⟨t, π, hπ, hnode⟩
    · exact h'.grown p hfree
    · exact Or.inr ⟨t, π, hπ, by rw [h'.kept p (by rw [hnode]; simp), hnode]⟩

theorem held_iff (h : Grown g g') : g'.own p = .held ↔ g.own p = .held := by
  by_cases hp : g.own p = .free
  · rcases h.grown p hp with hfree | ⟨t, π, -, hnode⟩
    · rw [hfree, hp]
    · rw [hnode, hp]; simp
  · rw [h.kept p hp]

/-- The targets of leaf entries stay what they are. -/
theorem leaf_iff (h : Grown g g') (hπ : π.length = 3) :
    g'.own p = .inTable t π ↔ g.own p = .inTable t π := by
  by_cases hp : g.own p = .free
  · rcases h.grown p hp with hfree | ⟨u, ρ, hρ, hnode⟩
    · rw [hfree, hp]
    · rw [hnode, hp]
      simp only [Role.inTable.injEq, reduceCtorEq, iff_false]
      rintro ⟨-, rfl⟩
      omega
  · rw [h.kept p hp]

theorem node (h : Grown g g') (hp : g.own p = .inTable t π) : g'.own p = .inTable t π := by
  rw [h.kept p (by rw [hp]; simp), hp]

/-- The nodes only become more. -/
theorem nodeBytes_subset (h : Grown g g') : g.nodeBytes ⊆ g'.nodeBytes := by
  rintro a ⟨p, t, π, hπ, hp, ha⟩
  exact ⟨p, t, π, hπ, h.node hp, ha⟩

end Grown

namespace Owned

variable {K : Word} {g : Ghost} {s : Kernel} {p q va : Word} {L : List Word} {t : ℕ}
  {π : List Idx} {i : Idx} {tbl : PageTable}

/-- A free list with a page in it does not start with `NULL`. -/
theorem head_ne_zero_iff (h : Owned K g s) : s.pmm.freePagesList ≠ 0 ↔ g.free ≠ [] :=
  (Chain.Linked.head_eq_nil_iff h.chain).not

/-- Where the ghosts agree on a place, so do the walks to it. -/
theorem walk_eq_of_own (h : Owned K g s) {g' : Ghost} {s' : Kernel} (h' : Owned K g' s')
    (hπ : π.length ≤ 3) (hown : ∀ x, g'.own x = .inTable t π ↔ g.own x = .inTable t π) :
    s'.walk t π = s.walk t π := by
  refine Option.ext fun x => ?_
  rw [h'.walk_iff hπ, h.walk_iff hπ, hown]

theorem nodeBytes_subset_pool (h : Owned K g s) : g.nodeBytes ⊆ pool K := by
  rintro a ⟨p, t, π, -, hp, ha⟩
  exact (h.poolPage (by rw [hp]; simp)).page_subset ha

/-- A page that is no node has none of these bytes. -/
theorem notMem_nodeBytes (h : Owned K g s) {a : Word} (hpool : PoolPage K p) (ha : a ∈ page p)
    (hp : ∀ t π, π.length < 3 → g.own p ≠ .inTable t π) : a ∉ g.nodeBytes := by
  rintro ⟨q, t, π, hπ, hq, haq⟩
  have hqpool := h.poolPage (by rw [hq]; simp : g.own q ≠ .outside)
  obtain rfl := eq_of_mem_page hpool.1 hqpool.1 ha haq
  exact hp t π hπ hq

/-- `alloc_empty_page` hands a page of zeros to a client. -/
theorem allocEmpty (h : Owned K g s) (hL : g.free = p :: L) :
    (allocEmptyPage s.pmm).1 = p ∧
      (∀ j, (allocEmptyPage s.pmm).2.mem.load64 (entry p j) = 0) ∧
      Wrote (page p) s.pmm.mem (allocEmptyPage s.pmm).2.mem ∧
      Owned K { g with free := L, own := Function.update g.own p .held }
        { s with pmm := (allocEmptyPage s.pmm).2, held := insert p s.held } := by
  have hpool : PoolPage K p := h.poolPage (by rw [(h.free_iff p).1 (by simp [hL])]; simp)
  have hchain := h.chain
  rw [hL] at hchain
  obtain ⟨m, hstep, hfill⟩ := allocEmptyPage_cons hchain hpool
  rw [hstep]
  refine ⟨rfl, load64_entry_eq_zero hpool.1 hfill.filled, hfill.wrote, ?_⟩
  have hw : Wrote (page p) (allocPage s.pmm).2.mem m := by
    rw [allocPage_mem]
    exact hfill.wrote
  exact (h.alloc hL).wrote hw (Or.inl (by simp))

/-- A missing node is made. -/
theorem grow (h : Owned K g s) (hL : g.free = p :: L) (hq : s.walk t π = some q)
    (hπ : π.length < 2) (hnone : child s.pmm.mem q i = none) :
    (growNode s.pmm (entry q i)).1 = p ∧
      Wrote (page p ∪ page q) s.pmm.mem (growNode s.pmm (entry q i)).2.mem ∧
      Owned K { g with free := L, own := Function.update g.own p (.inTable t (i :: π)) }
        { s with pmm := (growNode s.pmm (entry q i)).2 } := by
  obtain ⟨hp, hzero, hw, halloc⟩ := h.allocEmpty hL
  have hpfree : g.own p = .free := (h.free_iff p).1 (by simp [hL])
  have hpheld : p ∉ s.held := by rw [h.held_iff, hpfree]; simp
  have hqown := h.own_of_walk (by omega) hq
  have hqp : q ≠ p := by rintro rfl; rw [hpfree] at hqown; cases hqown
  have hflags : (fun u ρ => if u = t ∧ ρ = i :: π then PTEFlags.V else g.flags u ρ) = g.flags := by
    funext u ρ
    split_ifs with hat
    · rw [hat.2, h.node_flags u (i :: π) (by rw [List.length_cons]; omega)]
    · rfl
  -- the walk to `q` and the empty slot survive the allocation
  have hsame : ∀ u ρ, ρ.length ≤ 3 → Kernel.walk { s with
      pmm := (allocEmptyPage s.pmm).2, held := insert p s.held } u ρ = s.walk u ρ :=
    fun u ρ hρ => h.walk_eq_of_own halloc hρ fun x => by
      by_cases hx : x = p
      · subst hx; simp [hpfree]
      · simp [hx]
  have hq' := (hsame t π (by omega)).trans hq
  have hnone' : child (allocEmptyPage s.pmm).2.mem q i = none := by
    have hw := hsame t (i :: π) (by rw [List.length_cons]; omega)
    rwa [halloc.walk_cons hq', h.walk_cons hq, hnone] at hw
  have hlink := halloc.link (p := p) (i := i) (f := PTEFlags.V) (by simp) hq' (by omega)
    hnone' (by decide) (fun _ => ⟨rfl, hzero⟩)
  simp only [hflags, Function.update_idem, Finset.erase_insert hpheld] at hlink
  refine ⟨hp, ?_⟩
  have hqpool := h.poolPage (by rw [hqown]; simp : g.own q ≠ .outside)
  have hstore := wrote_entry hqpool.1 (allocEmptyPage s.pmm).2.mem i
    (PageTableEntry.new p PTEFlags.V).value
  simp only [growNode, hp]
  exact ⟨(hw.mono Set.subset_union_left).trans (hstore.mono Set.subset_union_right), hlink⟩

/-- What making a node stores to are nodes afterwards. -/
theorem grow_nodeBytes (h : Owned K g s) (hL : g.free = p :: L) (hq : s.walk t π = some q)
    (hπ : π.length < 2) :
    page p ∪ page q ⊆
      Ghost.nodeBytes { g with free := L, own := Function.update g.own p (.inTable t (i :: π)) } := by
  have hpfree : g.own p = .free := (h.free_iff p).1 (by simp [hL])
  have hqown := h.own_of_walk (by omega) hq
  have hqp : q ≠ p := by rintro rfl; rw [hpfree] at hqown; cases hqown
  rintro a (ha | ha)
  · exact ⟨p, t, i :: π, by rw [List.length_cons]; omega, by simp, ha⟩
  · exact ⟨q, t, π, by omega, by simp [hqp, hqown], ha⟩

/-- A missing node is made from a free page. -/
theorem grown (h : Owned K g s) (hL : g.free = p :: L) (hπ : π.length < 3) :
    Grown g { g with free := L, own := Function.update g.own p (.inTable t π) } := by
  have hpfree : g.own p = .free := (h.free_iff p).1 (by simp [hL])
  refine ⟨rfl, fun x hx => ?_, fun x hx => ?_⟩
  · exact Function.update_of_ne (fun hxp => hx (by rw [hxp, hpfree])) _ _
  · by_cases hxp : x = p
    · exact Or.inr ⟨t, π, hπ, by simp [hxp]⟩
    · exact Or.inl (by simp [hxp, hx])

/-- A node that has just been made is empty. -/
theorem child_grown (h : Owned K g s) (hL : g.free = p :: L) {m : Pmm}
    (h' : Owned K { g with free := L, own := Function.update g.own p (.inTable t π) }
      { s with pmm := m }) (hπ : π.length < 3) (hnone : s.walk t π = none) :
    child m.mem p i = none := by
  have hlen : (i :: π).length ≤ 3 := by rw [List.length_cons]; omega
  have hpfree : g.own p = .free := (h.free_iff p).1 (by simp [hL])
  have hp : Kernel.walk { s with pmm := m } t π = some p := (h'.walk_iff (by omega)).2 (by simp)
  have hsame := h.walk_eq_of_own (t := t) h' hlen fun x => by
    by_cases hx : x = p
    · subst hx; simp [hpfree]
    · simp [hx]
  rw [h'.walk_cons hp, Kernel.walk_none hnone] at hsame
  exact hsame

/-- `page_walk_alloc` with enough free pages: afterwards the nodes on the way are there, and the
pointer returned is that of the entry for `va` in the lowest one. -/
theorem pageWalkAlloc (h : Owned K g s) (ht : s.tables[t]? = some tbl)
    (hneed : s.needed t va ≤ g.free.length) :
    ∃ g' q, Owned K g' { s with pmm := (tbl.pageWalkAlloc s.pmm va).2 } ∧ Grown g g' ∧
      g.free.length = g'.free.length + s.needed t va ∧
      Wrote g'.nodeBytes s.pmm.mem (tbl.pageWalkAlloc s.pmm va).2.mem ∧
      g'.own q = .inTable t [idx1 va, idx2 va] ∧
      (tbl.pageWalkAlloc s.pmm va).1 = entry q (idx0 va) := by
  cases hmid : s.walk t [idx2 va] with
  | some mid =>
    cases hlow : s.walk t [idx1 va, idx2 va] with
    | some q =>
      rw [pageWalkAlloc_full ht hlow]
      exact ⟨g, q, h, Grown.refl g, by simp [Kernel.needed, hmid, hlow], Wrote.refl _ _,
        h.own_of_walk (by simp) hlow, rfl⟩
    | none =>
      have hchild : child s.pmm.mem mid (idx1 va) = none := by rw [← h.walk_cons hmid, hlow]
      obtain ⟨p, L, hL⟩ := List.exists_cons_of_length_pos
        (show 0 < g.free.length by simp [Kernel.needed, hmid, hlow] at hneed; omega)
      obtain ⟨hp, hw, hgrow⟩ := h.grow hL hmid (by simp) hchild
      rw [pageWalkAlloc_low ht hmid hchild, hp]
      exact ⟨_, p, hgrow, h.grown hL (by simp), by simp [Kernel.needed, hmid, hlow, hL],
        hw.mono (h.grow_nodeBytes hL hmid (by simp)), by simp, rfl⟩
  | none =>
    have hroot : s.walk t [] = some tbl.root := forest_root ht s.pmm.mem
    have hchild : child s.pmm.mem tbl.root (idx2 va) = none := by rw [← h.walk_cons hroot, hmid]
    have hlen : 2 ≤ g.free.length := by simpa [Kernel.needed, hmid] using hneed
    obtain ⟨p, L, hL⟩ := List.exists_cons_of_length_pos (show 0 < g.free.length by omega)
    obtain ⟨p', L', hL'⟩ := List.exists_cons_of_length_pos
      (show 0 < L.length by rw [hL, List.length_cons] at hlen; omega)
    obtain ⟨hp, hw, hgrow⟩ := h.grow hL hroot (by simp) hchild
    have hwalk := (hgrow.walk_iff (p := p) (t := t) (π := [idx2 va]) (by simp)).2 (by simp)
    obtain ⟨hp', hw', hgrow'⟩ := hgrow.grow (i := idx1 va) hL' hwalk (by simp)
      (h.child_grown hL hgrow (by simp) hmid)
    rw [pageWalkAlloc_mid ht hmid]
    have hgrown' := hgrow.grown (t := t) (π := [idx1 va, idx2 va]) hL' (by simp)
    simp only [hp, hp']
    exact ⟨_, p', hgrow', (h.grown hL (by simp)).trans hgrown',
      by simp [Kernel.needed, hmid, hL, hL'],
      (hw.mono ((h.grow_nodeBytes hL hroot (by simp)).trans hgrown'.nodeBytes_subset)).trans
        (hw'.mono (hgrow.grow_nodeBytes hL' hwalk (by simp))), by simp, rfl⟩

/-- `alloc_page` returns no `NULL` during `page_walk_alloc` exactly when the free list has the pages
that are needed. -/
theorem pageWalkAlloc_denied (h : Owned K g s) (ht : s.tables[t]? = some tbl) :
    (tbl.pageWalkAlloc s.pmm va).2.denied = s.pmm.denied ↔ s.needed t va ≤ g.free.length := by
  cases hmid : s.walk t [idx2 va] with
  | some mid =>
    cases hlow : s.walk t [idx1 va, idx2 va] with
    | some q =>
      rw [pageWalkAlloc_full ht hlow]
      simp [Kernel.needed, hmid, hlow]
    | none =>
      have hchild : child s.pmm.mem mid (idx1 va) = none := by rw [← h.walk_cons hmid, hlow]
      rw [pageWalkAlloc_low ht hmid hchild, growNode_denied]
      simp only [Kernel.needed, hmid, hlow, Option.isNone_some, Option.isNone_none, if_true,
        Bool.false_eq_true, if_false, Nat.add_eq_left]
      rw [Nat.one_le_iff_ne_zero, ne_eq, List.length_eq_zero_iff, ← ne_eq, ← h.head_ne_zero_iff]
      simp
  | none =>
    have hroot : s.walk t [] = some tbl.root := forest_root ht s.pmm.mem
    have hchild : child s.pmm.mem tbl.root (idx2 va) = none := by rw [← h.walk_cons hroot, hmid]
    simp only [pageWalkAlloc_mid ht hmid, growNode_denied, Kernel.needed, hmid, Option.isNone_none,
      if_true]
    cases hL : g.free with
    | nil =>
      have hnull : s.pmm.freePagesList = 0 := by
        by_contra hne
        exact h.head_ne_zero_iff.1 hne hL
      rw [if_pos hnull, List.length_nil]
      omega
    | cons p L =>
      have hne : s.pmm.freePagesList ≠ 0 := h.head_ne_zero_iff.2 (by simp [hL])
      obtain ⟨hp, -, hgrow⟩ := h.grow hL hroot (by simp) hchild
      have hhead := hgrow.head_ne_zero_iff
      dsimp only at hhead
      rw [if_neg hne, List.length_cons]
      cases L with
      | nil => simp_all
      | cons p' L' => simp_all

/-! ### The four calls -/

/-- The constructor. -/
theorem newTable (h : Owned K g s) (hL : g.free = p :: L) :
    (PageTable.new s.pmm).1 = ⟨p⟩ ∧
      Wrote (page p) s.pmm.mem (PageTable.new s.pmm).2.mem ∧
      Owned K { g with free := L, own := Function.update g.own p (.inTable s.tables.length []) }
        { s with pmm := (PageTable.new s.pmm).2, tables := s.tables ++ [⟨p⟩] } := by
  obtain ⟨hp, hzero, hw, halloc⟩ := h.allocEmpty hL
  have hpfree : g.own p = .free := (h.free_iff p).1 (by simp [hL])
  have hpheld : p ∉ s.held := by rw [h.held_iff, hpfree]; simp
  have hroot := halloc.addRoot (p := p) (by simp) hzero
  simp only [Function.update_idem, Finset.erase_insert hpheld] at hroot
  exact ⟨by simp only [PageTable.new, hp], hw, hroot⟩

/-- `add`, for an address that is mapped and for one that is not. -/
theorem add (h : Owned K g s) (ht : s.tables[t]? = some tbl) {pa perm : Word}
    (hneed : s.needed t va ≤ g.free.length) (hpa : g.own pa = .held)
    (hperm : perm.toNat < 1024 ∧ perm.toNat % 2 = 1) :
    ∃ g', Grown g g' ∧ g.free.length ≤ g'.free.length + 2 ∧ g'.nodeBytes ⊆ pool K ∧
      Wrote g'.nodeBytes s.pmm.mem (tbl.add s.pmm va pa perm).2.mem ∧
      ((s.walk t (path va)).isSome → (tbl.add s.pmm va pa perm).1 = -1 ∧
        Owned K g' { s with pmm := (tbl.add s.pmm va pa perm).2 }) ∧
      (s.walk t (path va) = none → (tbl.add s.pmm va pa perm).1 = 0 ∧
        Owned K
          { g' with
            own := Function.update g'.own pa (.inTable t (path va))
            flags := fun u ρ => if u = t ∧ ρ = path va then perm else g'.flags u ρ }
          { s with pmm := (tbl.add s.pmm va pa perm).2, held := s.held.erase pa }) := by
  obtain ⟨g', q, h', hgrown, hlen, hw, hq, hpte⟩ := h.pageWalkAlloc ht hneed
  have hwalkq := (h'.walk_iff (by simp)).2 hq
  have hleaf : s.walk t (path va) =
      child (tbl.pageWalkAlloc s.pmm va).2.mem q (idx0 va) := by
    rw [← h.walk_eq_of_own h' (by simp [path]) fun x => hgrown.leaf_iff (by simp [path])]
    exact h'.walk_cons hwalkq _
  have hneed_le := s.needed_le t va
  refine ⟨g', hgrown, by omega, h'.nodeBytes_subset_pool, ?_, fun hsome => ?_, fun hnone => ?_⟩
  · have hqpool := h'.poolPage (by rw [hq]; simp : g'.own q ≠ .outside)
    simp only [PageTable.add, hpte]
    split_ifs
    · exact hw
    · exact hw.trans ((wrote_entry hqpool.1 _ _ _).mono fun a ha => ⟨q, _, _, by simp, hq, ha⟩)
  · obtain ⟨x, hx⟩ := Option.isSome_iff_exists.1 hsome
    have hv := (child_eq_some_iff.1 (hleaf.symm.trans hx)).1
    simp only [PageTable.add, hpte, loadPte_entry, hv, if_true]
    exact ⟨trivial, h'⟩
  · have hchild := hleaf.symm.trans hnone
    have hv := child_eq_none_iff.1 hchild
    have hlink := h'.link (p := pa) (f := perm) (hgrown.held_iff.2 hpa) hwalkq (by simp) hchild
      hperm (fun hlt => absurd hlt (by simp))
    simp only [PageTable.add, hpte, loadPte_entry, hv, Bool.false_eq_true, if_false]
    exact ⟨trivial, hlink⟩

/-- `lookup` in a state whose owners are known. -/
theorem lookup (h : Owned K g s) (hK : KernelEnd K) (ht : s.tables[t]? = some tbl) (va : Word) :
    tbl.lookup s.pmm.mem va = (s.walk t (path va)).getD 0 := by
  refine lookup_eq_walk ht va fun q hq => ?_
  exact (h.poolPage (by rw [h.own_of_walk (by simp) hq]; simp)).entry_ne_zero hK _

/-- `erase` of an address that is mapped. -/
theorem erase_some (h : Owned K g s) (hK : KernelEnd K) (ht : s.tables[t]? = some tbl)
    (hp : s.walk t (path va) = some p) :
    (tbl.erase s.pmm va).1 = 0 ∧
      Owned K { g with free := p :: g.free, own := Function.update g.own p .free }
        { s with pmm := (tbl.erase s.pmm va).2 } := by
  cases hq : s.walk t [idx1 va, idx2 va] with
  | none => rw [path, Kernel.walk_none hq] at hp; cases hp
  | some q =>
    have hchild : child s.pmm.mem q (idx0 va) = some p := by rw [← h.walk_cons hq, ← hp, path]
    obtain ⟨hv, hpa⟩ := child_eq_some_iff.1 hchild
    have hqpool := h.poolPage (p := q) (by rw [h.own_of_walk (by simp) hq]; simp)
    have hwalk : tbl.pageWalk s.pmm.mem va = entry q (idx0 va) := by
      rw [pageWalk_eq ht, show (forest s.tables s.pmm.mem).walk t [idx1 va, idx2 va] = some q from hq]
      exact if_pos hv
    have hunmap := h.unmap hK hq (by simp) hchild
    simp only [PageTable.erase, hwalk, if_neg (hqpool.entry_ne_zero hK _), loadPte_entry, hpa]
    exact ⟨trivial, hunmap⟩

/-- `erase` of an address that is not mapped. -/
theorem erase_none (ht : s.tables[t]? = some tbl) (hp : s.walk t (path va) = none) :
    tbl.erase s.pmm va = (-1, s.pmm) := by
  have hwalk : tbl.pageWalk s.pmm.mem va = 0 := by
    rw [pageWalk_eq ht]
    cases hq : (forest s.tables s.pmm.mem).walk t [idx1 va, idx2 va] with
    | none => rfl
    | some q =>
      have hchild : child s.pmm.mem q (idx0 va) = none := by
        rw [← hp, path]
        exact (Forest.walk_cons_of_eq hq _).symm
      exact if_neg (child_eq_none_iff.1 hchild)
  simp only [PageTable.erase, hwalk, if_true]

end Owned

end HxcOS
