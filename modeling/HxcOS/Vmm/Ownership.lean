import HxcOS.Vmm.Kernel

/-!
# Who owns a page

Every page of the pool has exactly one role: it is free, held by a client, or at one place in one
table, where a place is a path of at most three indices (a node for up to two, the target of a
leaf entry for three).  The invariant `Owned` keeps the roles in a ghost function `own`, so that a
page cannot have two, and ties the function to the state: the free pages are the free list, and
the pages at places are what the walks through memory find (`Placed` of `HxcOS.Lib.Radix`).

There is one lemma for each way in which a page changes its role:

* `Owned.alloc` (free to held) and `Owned.free` (held to free);
* `Owned.link` (held to a place in a table) and `Owned.addRoot` (held to root);
* `Owned.unmap` (from a leaf entry to free);
* `Owned.wrote`: stores inside a page that is no node change no role.
-/

namespace HxcOS

open ByteMem Radix

/-- What a page is used for. -/
inductive Role
  | outside
  | free
  | held
  | inTable (t : ℕ) (π : List Idx)

def Role.place : Role → Option (ℕ × List Idx)
  | .inTable t π => some (t, π)
  | _ => none

theorem Role.place_eq_some_iff {r : Role} {t : ℕ} {π : List Idx} :
    r.place = some (t, π) ↔ r = .inTable t π := by
  cases r <;> simp [Role.place]

/-- The free list in order, the role of each page, and the flags of the entry at each path. -/
structure Ghost where
  free : List Word
  own : Word → Role
  flags : ℕ → List Idx → Word

/-- The page is held by a client, or the target of a leaf entry. -/
def Ghost.IsData (g : Ghost) (p : Word) : Prop :=
  g.own p = .held ∨ ∃ t π, π.length = 3 ∧ g.own p = .inTable t π

namespace Ghost.IsData

variable {g : Ghost} {p : Word}

theorem ne_outside (h : g.IsData p) : g.own p ≠ .outside := by
  rcases h with h | ⟨t, π, -, h⟩ <;> rw [h] <;> simp

theorem ne_free (h : g.IsData p) : g.own p ≠ .free := by
  rcases h with h | ⟨t, π, -, h⟩ <;> rw [h] <;> simp

theorem ne_node (h : g.IsData p) {t : ℕ} {π : List Idx} (hπ : π.length < 3) :
    g.own p ≠ .inTable t π := by
  intro heq
  rcases h with h | ⟨u, ρ, hρ, h⟩ <;> rw [h] at heq <;> cases heq
  omega

end Ghost.IsData

def Kernel.forest (s : Kernel) : Forest ℕ Word Idx := HxcOS.forest s.tables s.pmm.mem

/-- The page at a path of a table. -/
def Kernel.walk (s : Kernel) (t : ℕ) (π : List Idx) : Option Word := s.forest.walk t π

/-- Every page of the pool has exactly the role that the ghost gives it. -/
structure Owned (kernelEnd : Word) (g : Ghost) (s : Kernel) : Prop where
  chain : FreeList s.pmm g.free
  free_iff : ∀ p, p ∈ g.free ↔ g.own p = .free
  held_iff : ∀ p, p ∈ s.held ↔ g.own p = .held
  pool_iff : ∀ p, PoolPage kernelEnd p ↔ g.own p ≠ .outside
  placed : Placed 3 s.forest (fun p => (g.own p).place)
  depth : ∀ p t π, g.own p = .inTable t π → π.length ≤ 3
  entries : ∀ t i π q p, π.length < 3 → s.walk t π = some q → child s.pmm.mem q i = some p →
    pte s.pmm.mem q i = .new p (g.flags t (i :: π))
  node_flags : ∀ t π, π.length < 3 → g.flags t π = PTEFlags.V

namespace Owned

variable {K : Word} {g : Ghost} {s : Kernel} {p q : Word} {t : ℕ} {π : List Idx} {i : Idx}

theorem poolPage (h : Owned K g s) (hp : g.own p ≠ .outside) : PoolPage K p := (h.pool_iff p).2 hp

theorem aligned (h : Owned K g s) (hp : g.own p ≠ .outside) : PageAligned p := (h.poolPage hp).1

theorem free_aligned (h : Owned K g s) : ∀ q ∈ g.free, PageAligned q :=
  fun q hq => h.aligned (by rw [(h.free_iff q).1 hq]; simp)

theorem walk_iff (h : Owned K g s) (hπ : π.length ≤ 3) :
    s.walk t π = some p ↔ g.own p = .inTable t π :=
  (h.placed t π p hπ).trans Role.place_eq_some_iff

theorem own_of_walk (h : Owned K g s) (hπ : π.length ≤ 3) (hp : s.walk t π = some p) :
    g.own p = .inTable t π := (h.walk_iff hπ).1 hp

theorem aligned_of_walk (h : Owned K g s) (hπ : π.length ≤ 3) (hp : s.walk t π = some p) :
    PageAligned p := h.aligned (by rw [h.own_of_walk hπ hp]; simp)

theorem walk_cons (_h : Owned K g s) (hq : s.walk t π = some q) (i : Idx) :
    s.walk t (i :: π) = child s.pmm.mem q i := Forest.walk_cons_of_eq hq i

/-- The start: no table yet, and the pages that are not free are held. -/
theorem init {pmm : Pmm} {L : List Word} {held : Finset Word} (hL : FreeList pmm L)
    (hpool : ∀ p ∈ L, PoolPage K p) (hheld : ∀ p, p ∈ held ↔ PoolPage K p ∧ p ∉ L) :
    Owned K
      { free := L
        own := fun p => if p ∈ L then .free else if PoolPage K p then .held else .outside
        flags := fun _ _ => PTEFlags.V }
      ⟨pmm, [], held, fun _ _ => none⟩ := by
  have hnone : ∀ t π, Kernel.walk ⟨pmm, [], held, fun _ _ => none⟩ t π = none := by
    intro t π
    cases π with
    | nil => rfl
    | cons i π =>
      induction π generalizing i with
      | nil => rfl
      | cons j π ih =>
        rw [Kernel.walk, Forest.walk_cons]
        exact (congrArg (Option.bind · _) (ih j)).trans rfl
  refine ⟨hL, fun p => ?_, fun p => ?_, fun p => ?_, fun t π p _ => ?_, fun p t π hp => ?_, ?_,
    fun _ _ _ => rfl⟩
  · dsimp only
    split_ifs <;> simp_all
  · rw [hheld p]
    dsimp only
    split_ifs <;> simp_all
  · have := hpool p
    dsimp only
    split_ifs <;> simp_all
  · rw [show Forest.walk _ t π = none from hnone t π]
    dsimp only
    split_ifs <;> simp [Role.place]
  · dsimp only at hp
    split_ifs at hp
  · intro t i π q p _ hq
    rw [hnone] at hq
    cases hq

/-- The record of the mappings plays no part. -/
theorem rebind (h : Owned K g s) (b : Bindings) : Owned K g { s with bound := b } :=
  ⟨h.chain, h.free_iff, h.held_iff, h.pool_iff, h.placed, h.depth, h.entries, h.node_flags⟩

/-- The states agree on the words of all nodes. -/
def SameNodes (s : Kernel) (m : Mem) : Prop :=
  ∀ t π q i, π.length < 3 → s.walk t π = some q →
    m.load64 (entry q i) = s.pmm.mem.load64 (entry q i)

/-- Pages pass between clients and free list while no node changes. -/
theorem reassign (h : Owned K g s) {g' : Ghost} {s' : Kernel} (htables : s'.tables = s.tables)
    (hflags : g'.flags = g.flags) (hnodes : SameNodes s s'.pmm.mem)
    (hplace : ∀ p, (g'.own p).place = (g.own p).place)
    (hout : ∀ p, g'.own p = .outside ↔ g.own p = .outside)
    (hchain : FreeList s'.pmm g'.free) (hfree : ∀ p, p ∈ g'.free ↔ g'.own p = .free)
    (hheld : ∀ p, p ∈ s'.held ↔ g'.own p = .held) : Owned K g' s' := by
  have hroot : s'.forest.root = s.forest.root := by
    simp only [Kernel.forest, HxcOS.forest, htables]
  have hchild : ∀ t π q, π.length < 3 → s.walk t π = some q →
      s'.forest.child q = s.forest.child q := fun t π q hπ hq =>
    funext fun i => child_congr (hnodes t π q i hπ hq)
  have hwalk : ∀ t π, π.length ≤ 3 → s'.walk t π = s.walk t π := fun t π hπ =>
    Forest.walk_congr hroot hchild hπ
  refine ⟨hchain, hfree, hheld, fun p => ?_, ?_, fun p t π hp => ?_, ?_, ?_⟩
  · rw [h.pool_iff p, ne_eq, ne_eq, hout p]
  · have hpl : (fun p => (g'.own p).place) = fun p => (g.own p).place := funext hplace
    rw [hpl]
    exact h.placed.congr hroot hchild
  · have hp' : (g.own p).place = some (t, π) := by rw [← hplace, hp]; rfl
    exact h.depth p t π (Role.place_eq_some_iff.1 hp')
  · intro t i π q p hπ hq hp
    rw [hwalk t π (by omega)] at hq
    have hword := hnodes t π q i hπ hq
    rw [child_congr hword] at hp
    rw [hflags, ← h.entries t i π q p hπ hq hp, pte, pte, loadPte, loadPte, hword]
  · intro t π hπ
    rw [hflags]
    exact h.node_flags t π hπ

/-- Stores inside a page that is no node. -/
theorem sameNodes_of_wrote (h : Owned K g s) {m : Mem} (hw : Wrote (page p) s.pmm.mem m)
    (hp : PageAligned p) (hno : ∀ t π, π.length < 3 → g.own p ≠ .inTable t π) :
    SameNodes s m := by
  intro t π q i hπ hq
  have hne : q ≠ p := by
    rintro rfl
    exact hno t π hπ (h.own_of_walk (by omega) hq)
  exact load64_entry_of_wrote hw hp (h.aligned_of_walk (by omega) hq) hne i

/-- Clients write inside pages they hold or have mapped. -/
theorem wrote (h : Owned K g s) {m : Mem} (hw : Wrote (page p) s.pmm.mem m) (hp : g.IsData p) :
    Owned K g { s with pmm.mem := m } := by
  have hal := h.aligned hp.ne_outside
  have hpL : p ∉ g.free := fun hfree => hp.ne_free ((h.free_iff p).1 hfree)
  exact h.reassign rfl rfl (h.sameNodes_of_wrote hw hal fun _ _ => hp.ne_node) (fun _ => rfl)
    (fun _ => Iff.rfl) (h.chain.of_wrote h.free_aligned hw hal hpL) h.free_iff h.held_iff

/-- `alloc_page` hands out the first free page. -/
theorem alloc (h : Owned K g s) {L : List Word} (hL : g.free = p :: L) :
    Owned K { g with free := L, own := Function.update g.own p .held }
      { s with pmm := (allocPage s.pmm).2, held := insert p s.held } := by
  have hchain := h.chain
  rw [hL] at hchain
  have hown : g.own p = .free := (h.free_iff p).1 (by simp [hL])
  have hnodup := List.nodup_cons.1 hchain.nodup
  refine h.reassign rfl rfl (fun t π q i _ _ => by rw [allocPage_mem]) (fun r => ?_) (fun r => ?_)
    (allocPage_cons hchain).2 (fun r => ?_) fun r => ?_
  all_goals
    by_cases hr : r = p
    · subst hr
      simp [hown, hnodup.1, Role.place]
    · simp [hr, ← h.free_iff, ← h.held_iff, hL]

/-- `free_page` by a client that holds the page. -/
theorem free (hK : KernelEnd K) (h : Owned K g s) (hp : g.own p = .held) :
    Owned K { g with free := p :: g.free, own := Function.update g.own p .free }
      { s with pmm := freePage s.pmm p, held := s.held.erase p } := by
  have hpool := h.poolPage (by rw [hp]; simp : g.own p ≠ .outside)
  have hpL : p ∉ g.free := by rw [h.free_iff, hp]; simp
  have hnodes := h.sameNodes_of_wrote (freePage_wrote hpool.1) hpool.1
    (fun t π _ => by rw [hp]; simp)
  refine h.reassign rfl rfl hnodes (fun r => ?_) (fun r => ?_)
    (freePage_freeList h.chain h.free_aligned hpool.1 (hpool.ne_zero hK) hpL) (fun r => ?_)
    fun r => ?_
  all_goals
    by_cases hr : r = p
    · subst hr
      simp [hp, Role.place]
    · simp [hr, ← h.free_iff, ← h.held_iff]

/-- The place of a page after its role changed. -/
theorem place_update (own : Word → Role) (p : Word) (r : Role) :
    (fun x => (Function.update own p r x).place) =
      Function.update (fun x => (own x).place) p r.place := by
  funext x
  by_cases hx : x = p
  · subst hx; simp
  · simp [hx]

theorem poolPage_update_iff (h : Owned K g s) {r : Role} (hp : g.own p ≠ .outside)
    (hr : r ≠ .outside) (x : Word) : PoolPage K x ↔ Function.update g.own p r x ≠ .outside := by
  by_cases hx : x = p
  · subst hx
    simp [h.pool_iff, hp, hr]
  · simp [hx, h.pool_iff]

theorem depth_update (h : Owned K g s) {r : Role} (hr : ∀ t π, r = .inTable t π → π.length ≤ 3)
    (x : Word) (t : ℕ) (π : List Idx) (hx : Function.update g.own p r x = .inTable t π) :
    π.length ≤ 3 := by
  by_cases hxp : x = p
  · subst hxp
    rw [Function.update_self] at hx
    exact hr t π hx
  · rw [Function.update_of_ne hxp] at hx
    exact h.depth x t π hx

/-- Storing an entry for a held page in an empty slot puts the page at its place.  Where the entry
is not a leaf the page has to be all zero, and the flags have to be just `V`. -/
theorem link (h : Owned K g s) {f : Word} (hp : g.own p = .held)
    (hq : s.walk t π = some q) (hπ : π.length < 3) (hfree : child s.pmm.mem q i = none)
    (hflag : f.toNat < 1024 ∧ f.toNat % 2 = 1)
    (hnode : π.length < 2 → f = PTEFlags.V ∧ ∀ j, s.pmm.mem.load64 (entry p j) = 0) :
    Owned K
      { g with
        own := Function.update g.own p (.inTable t (i :: π))
        flags := fun u ρ => if u = t ∧ ρ = i :: π then f else g.flags u ρ }
      { s with
        pmm.mem := storePte s.pmm.mem (entry q i) (.new p f)
        held := s.held.erase p } := by
  have hqown := h.own_of_walk (by omega) hq
  have hqal := h.aligned_of_walk (by omega) hq
  have hpal : PageAligned p := h.aligned (by rw [hp]; simp)
  have hqp : q ≠ p := by rintro rfl; rw [hp] at hqown; cases hqown
  set m := storePte s.pmm.mem (entry q i) (.new p f) with hm
  have hword : ∀ r j, PageAligned r → m.load64 (entry r j) =
      if r = q ∧ j = i then (PageTableEntry.new p f).value
      else s.pmm.mem.load64 (entry r j) := fun r j hr => entry_store64 hqal hr _ i j _
  have hpte : pte m q i = .new p f := by
    rw [pte, loadPte, hword q i hqal, if_pos ⟨rfl, rfl⟩]
  have hchild : child m q i = some p := by
    rw [child_eq_some_iff, hpte]
    exact ⟨PageTableEntry.isValid_new hflag.1 hflag.2, PageTableEntry.getPa_new hpal hflag.1⟩
  have hpzero : π.length < 2 → ∀ j, child m p j = none := fun hlt j => by
    refine child_of_zero ?_
    rw [hword p j hpal, if_neg (by simp [hqp.symm]), (hnode hlt).2 j]
  have hrest : ∀ u ρ r j, ρ.length < 3 → s.walk u ρ = some r → (r ≠ q ∨ j ≠ i) →
      child m r j = child s.pmm.mem r j := fun u ρ r j hρ hr hne => by
    refine child_congr ?_
    rw [hword r j (h.aligned_of_walk (by omega) hr), if_neg (by tauto)]
  have hplaced : Placed 3 (HxcOS.forest s.tables m)
      (fun x => (Function.update g.own p (.inTable t (i :: π)) x).place) := by
    rw [place_update]
    exact h.placed.link rfl hq hπ hfree (by rw [hp]; rfl) hchild (fun hlt => hpzero (by omega))
      hrest
  refine ⟨?_, fun r => ?_, fun r => ?_, h.poolPage_update_iff (by rw [hp]; simp) (by simp),
    hplaced, h.depth_update fun u ρ hr => ?_, ?_, fun u ρ hρ => ?_⟩
  · exact h.chain.of_wrote h.free_aligned (wrote_entry hqal _ i _) hqal
      (by rw [h.free_iff, hqown]; simp)
  · by_cases hr : r = p
    · subst hr; simp [h.free_iff, hp]
    · simp [hr, h.free_iff]
  · by_cases hr : r = p
    · subst hr; simp
    · simp [hr, h.held_iff]
  · rw [Role.inTable.injEq] at hr
    rw [← hr.2, List.length_cons]
    omega
  · intro u j ρ r x hρ hr hx
    change child m r j = some x at hx
    show pte m r j = .new x (if u = t ∧ j :: ρ = i :: π then f else g.flags u (j :: ρ))
    -- either this is the entry just stored, or it was there before
    have hrown := Role.place_eq_some_iff.1 ((hplaced u ρ r (by omega)).1 hr)
    by_cases hrp : r = p
    · subst hrp
      rw [Function.update_self, Role.inTable.injEq] at hrown
      obtain ⟨rfl, rfl⟩ := hrown
      rw [List.length_cons] at hρ
      rw [hpzero (by omega)] at hx
      cases hx
    · rw [Function.update_of_ne hrp] at hrown
      have hrwalk := (h.walk_iff (by omega)).2 hrown
      by_cases hat : r = q ∧ j = i
      · obtain ⟨rfl, rfl⟩ := hat
        rw [hqown, Role.inTable.injEq] at hrown
        obtain ⟨rfl, rfl⟩ := hrown
        have hxp : x = p := Option.some.inj (hx.symm.trans hchild)
        rw [if_pos ⟨rfl, rfl⟩, hxp]
        exact hpte
      · have hne : ¬ (u = t ∧ j :: ρ = i :: π) := by
          rintro ⟨rfl, heq⟩
          obtain ⟨rfl, rfl⟩ := List.cons.inj heq
          exact hat ⟨Option.some.inj (hrwalk.symm.trans hq), rfl⟩
        have hold : child s.pmm.mem r j = some x := by
          rw [← hrest u ρ r j hρ hrwalk (by tauto)]
          exact hx
        rw [if_neg hne, ← h.entries u j ρ r x hρ hrwalk hold, pte, pte, loadPte, loadPte,
          hword r j (h.aligned_of_walk (by omega) hrwalk), if_neg hat]
  · dsimp only
    split_ifs with hat
    · obtain ⟨rfl, rfl⟩ := hat
      rw [List.length_cons] at hρ
      exact (hnode (by omega)).1
    · exact h.node_flags u ρ hρ

/-- A zeroed held page becomes the root of a new table. -/
theorem addRoot (h : Owned K g s) (hp : g.own p = .held)
    (hzero : ∀ j, s.pmm.mem.load64 (entry p j) = 0) :
    Owned K { g with own := Function.update g.own p (.inTable s.tables.length []) }
      { s with tables := s.tables ++ [⟨p⟩], held := s.held.erase p } := by
  have hempty : ∀ j, child s.pmm.mem p j = none := fun j => child_of_zero (hzero j)
  have hplaced : Placed 3 (HxcOS.forest (s.tables ++ [⟨p⟩]) s.pmm.mem)
      (fun x => (Function.update g.own p (.inTable s.tables.length []) x).place) := by
    rw [place_update]
    exact h.placed.addRoot (by simp [Kernel.forest, HxcOS.forest]) (by rw [hp]; rfl)
      (forest_root_append s.tables ⟨p⟩ _) hempty (fun _ _ _ _ _ => rfl)
  refine ⟨h.chain, fun r => ?_, fun r => ?_, h.poolPage_update_iff (by rw [hp]; simp) (by simp),
    hplaced, h.depth_update fun u ρ hr => ?_, ?_, h.node_flags⟩
  · by_cases hr : r = p
    · subst hr; simp [h.free_iff, hp]
    · simp [hr, h.free_iff]
  · by_cases hr : r = p
    · subst hr; simp
    · simp [hr, h.held_iff]
  · rw [Role.inTable.injEq] at hr
    rw [← hr.2]
    simp
  · intro u j ρ r x hρ hr hx
    have hrown := Role.place_eq_some_iff.1 ((hplaced u ρ r (by omega)).1 hr)
    by_cases hrp : r = p
    · subst hrp
      rw [hempty j] at hx
      cases hx
    · rw [Function.update_of_ne hrp] at hrown
      exact h.entries u j ρ r x hρ ((h.walk_iff (by omega)).2 hrown) hx

/-- `erase`: the page goes back to the free list and its leaf entry is cleared. -/
theorem unmap (hK : KernelEnd K) (h : Owned K g s) (hq : s.walk t π = some q)
    (hπ : π.length = 2) (hp : child s.pmm.mem q i = some p) :
    Owned K { g with free := p :: g.free, own := Function.update g.own p .free }
      { s with
        pmm := { freePage s.pmm p with
          mem := storePte (freePage s.pmm p).mem (entry q i) invalidPte } } := by
  have hwalkp : s.walk t (i :: π) = some p := by rw [h.walk_cons hq, hp]
  have hpown := h.own_of_walk (by rw [List.length_cons]; omega) hwalkp
  have hqown := h.own_of_walk (by omega) hq
  have hqal := h.aligned_of_walk (by omega) hq
  have hpool := h.poolPage (by rw [hpown]; simp : g.own p ≠ .outside)
  have hqp : q ≠ p := by
    rintro rfl
    rw [hpown, Role.inTable.injEq] at hqown
    have := congrArg List.length hqown.2
    simp at this
  have hnodes := h.sameNodes_of_wrote (freePage_wrote hpool.1) hpool.1 (fun u ρ hρ heq => by
    rw [hpown, Role.inTable.injEq] at heq
    rw [← heq.2, List.length_cons] at hρ
    omega)
  set m := storePte (freePage s.pmm p).mem (entry q i) invalidPte with hm
  have hword : ∀ u ρ r j, ρ.length < 3 → s.walk u ρ = some r → m.load64 (entry r j) =
      if r = q ∧ j = i then 0 else s.pmm.mem.load64 (entry r j) := fun u ρ r j hρ hr => by
    rw [hm, storePte, entry_store64 hqal (h.aligned_of_walk (by omega) hr), invalidPte_value,
      hnodes u ρ r j hρ hr]
  have hclear : child m q i = none :=
    child_of_zero (by rw [hword t π q i (by omega) hq, if_pos ⟨rfl, rfl⟩])
  have hrest : ∀ u ρ r j, ρ.length < 3 → s.walk u ρ = some r → (r ≠ q ∨ j ≠ i) →
      child m r j = child s.pmm.mem r j := fun u ρ r j hρ hr hne => by
    refine child_congr ?_
    rw [hword u ρ r j hρ hr, if_neg (not_and_or.2 hne)]
  have hplaced : Placed 3 (HxcOS.forest s.tables m)
      (fun x => (Function.update g.own p .free x).place) := by
    rw [place_update]
    exact h.placed.unlink (forest_root_eq s.tables m s.pmm.mem) hq (by omega) hp hclear hrest
  have hpL : p ∉ g.free := by rw [h.free_iff, hpown]; simp
  have hchain := freePage_freeList h.chain h.free_aligned hpool.1 (hpool.ne_zero hK) hpL
  have hal : ∀ r ∈ p :: g.free, PageAligned r := fun r hr => by
    rcases List.mem_cons.1 hr with rfl | hr
    · exact hpool.1
    · exact h.free_aligned r hr
  refine ⟨hchain.of_wrote hal (wrote_entry hqal _ i _) hqal ?_, fun r => ?_, fun r => ?_,
    h.poolPage_update_iff (by rw [hpown]; simp) (by simp), hplaced,
    h.depth_update (fun u ρ hr => by cases hr), ?_, h.node_flags⟩
  · rw [List.mem_cons, h.free_iff, hqown]
    simp [hqp]
  · by_cases hr : r = p
    · subst hr; simp
    · simp [hr, h.free_iff]
  · by_cases hr : r = p
    · subst hr; simp [h.held_iff, hpown]
    · simp [hr, h.held_iff]
  · intro u j ρ r x hρ hr hx
    change child m r j = some x at hx
    show pte m r j = .new x (g.flags u (j :: ρ))
    have hrown := Role.place_eq_some_iff.1 ((hplaced u ρ r (by omega)).1 hr)
    by_cases hrp : r = p
    · subst hrp; simp at hrown
    · rw [Function.update_of_ne hrp] at hrown
      have hrwalk := (h.walk_iff (by omega)).2 hrown
      by_cases hat : r = q ∧ j = i
      · obtain ⟨rfl, rfl⟩ := hat
        rw [hclear] at hx
        cases hx
      · have hold : child s.pmm.mem r j = some x := by
          rw [← hrest u ρ r j hρ hrwalk (by tauto)]
          exact hx
        rw [← h.entries u j ρ r x hρ hrwalk hold, pte, pte, loadPte, loadPte,
          hword u ρ r j hρ hrwalk, if_neg hat]

end Owned

end HxcOS
