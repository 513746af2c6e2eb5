import HxcOS.Vmm.Mappers
import HxcOS.Vmm.PageRoles

/-!
# How many nodes a table has

A node is made when an address is added that needs it, and it is never given back: `erase` clears an
entry of a lowest node and leaves the node.  So the nodes of a table, apart from its root, are one
middle node for each value of bits 38..30, and one lowest node for each value of bits 38..21, among
all addresses that were ever added (`History`).  The pages that the calls on a table take off the
free list are as many (`nodes_taken_when_needed`).
-/

namespace HxcOS

open ByteMem Radix OpSystem

/-- What is on the free list is what the ghost says. -/
theorem Nodes.hasRole_free_iff {K : Word} {g : Ghost} {s : Kernel} (h : Nodes K g s) {p : Word} :
    s.HasRole p .free ↔ p ∈ g.free := by
  constructor
  · rintro ⟨L, hL, hp⟩
    rwa [hL.unique h.chain] at hp
  · exact fun hp => ⟨g.free, h.chain, hp⟩

namespace Kernel

/-- The calls on a table, its constructor included. -/
def OnTable (s : Kernel) (t : ℕ) : KernelOp → Prop
  | .newTable => s.tables.length = t
  | .add u .. => u = t
  | .lookup u _ => u = t
  | .erase u _ => u = t
  | _ => False

instance (s : Kernel) (t : ℕ) : DecidablePred (s.OnTable t)
  | .newTable => inferInstanceAs (Decidable (s.tables.length = t))
  | .add u .. => inferInstanceAs (Decidable (u = t))
  | .lookup u _ => inferInstanceAs (Decidable (u = t))
  | .erase u _ => inferInstanceAs (Decidable (u = t))
  | .allocPage | .freePage _ | .write .. => inferInstanceAs (Decidable False)

/-- The pages that a call takes off the free list. -/
def taken (s : Kernel) (o : KernelOp) : Set Word :=
  {p | s.HasRole p .free ∧ ¬ (s.step o).2.HasRole p .free}

/-- How many pages the calls on a table take, over a run. -/
noncomputable def nodesTaken (t : ℕ) : Kernel → List KernelOp → ℕ
  | _, [] => 0
  | s, o :: os => (if s.OnTable t o then (s.taken o).ncard else 0) + nodesTaken t (s.step o).2 os

end Kernel

/-- The addresses of the `add` calls on a table. -/
def addedTo (t : ℕ) (ops : List KernelOp) : List Word :=
  ops.filterMap fun
    | .add u va _ _ => if u = t then some va else none
    | _ => none

/-- How many values bits 38..30 have, and how many bits 38..21. -/
def nodeCount (H : List Word) : ℕ :=
  (H.map fun va => va.extractLsb' 30 9).toFinset.card +
    (H.map fun va => va.extractLsb' 21 18).toFinset.card

/-- The first pages of the free list are taken. -/
theorem Nodes.ncard_taken {K : Word} {g g' : Ghost} {s : Kernel} {o : KernelOp} {M : List Word}
    (h : Nodes K g s) (h' : Nodes K g' (s.step o).2) (hfree : g.free = M ++ g'.free) :
    (s.taken o).ncard = M.length := by
  have hnodup := h.chain.nodup
  rw [hfree] at hnodup
  obtain ⟨hM, -, hdisj⟩ := List.nodup_append.1 hnodup
  have hset : s.taken o = M.toFinset := by
    ext p
    simp only [Kernel.taken, Set.mem_ofPred_eq, h.hasRole_free_iff, h'.hasRole_free_iff, hfree,
      List.mem_append, List.coe_toFinset]
    constructor
    · rintro ⟨hp | hp, hnot⟩
      · exact hp
      · exact absurd hp hnot
    · exact fun hp => ⟨Or.inl hp, fun hp' => hdisj p hp p hp' rfl⟩
  rw [hset, Set.ncard_coe_finset, List.toFinset_card_of_nodup hM]

theorem Nodes.ncard_taken_eq_zero {K : Word} {g g' : Ghost} {s : Kernel} {o : KernelOp}
    (h : Nodes K g s) (h' : Nodes K g' (s.step o).2) (hfree : g.free ⊆ g'.free) :
    (s.taken o).ncard = 0 := by
  have hset : s.taken o = ∅ := by
    ext p
    simp only [Kernel.taken, Set.mem_ofPred_eq, h.hasRole_free_iff, h'.hasRole_free_iff,
      Set.mem_empty_iff_false, iff_false, not_and, not_not]
    exact fun hp => hfree hp
  rw [hset, Set.ncard_empty]

/-! ### Where nodes are made -/

section Walks

variable {K : Word} {g g' : Ghost} {s : Kernel} {pmm : Pmm} {M : List Word} {t u : ℕ} {va q : Word}
  {π : List Idx} {tbl : PageTable}

/-- The nodes on the way to a node are there. -/
theorem Kernel.walk_suffix {i j : Idx} (h : (s.walk t [j, i]).isSome) (hπ : π <:+ [j, i]) :
    (s.walk t π).isSome := by
  by_contra hnone
  rw [Option.isSome_iff_ne_none, not_not] at hnone
  obtain ⟨k, hk⟩ := hπ
  have hall : ∀ k : List Idx, s.walk t (k ++ π) = none := fun k => by
    induction k with
    | nil => exact hnone
    | cons l k ih => exact Kernel.walk_none ih l
  rw [← hk, hall k] at h
  cases h

/-- The nodes that were made are those that were missing on the way. -/
theorem Made.on_path (hm : Made K t M g g' s pmm) (h : Nodes K g s)
    (hlen : M.length = s.needed t va) (hq : g'.own q = .inTable t [idx1 va, idx2 va]) {p : Word}
    (hp : p ∈ M) : ∃ π, π <:+ [idx1 va, idx2 va] ∧ g'.own p = .inTable t π := by
  -- a node that was missing before has been made
  have hmade : ∀ r ρ, ρ.length ≤ 2 → s.walk t ρ = none → g'.own r = .inTable t ρ → r ∈ M := by
    intro r ρ hρ hnone hr
    by_contra hrM
    rw [hm.kept r hrM, ← h.walk_iff hρ, hnone] at hr
    cases hr
  cases hmid : s.walk t [idx2 va] with
  | none =>
    have hlow := Kernel.walk_none hmid (idx1 va)
    have hwalk := (hm.nodes.walk_iff (by simp)).2 hq
    obtain ⟨r, hr⟩ := Option.isSome_iff_exists.1 (Kernel.walk_suffix
      (Option.isSome_of_mem hwalk) (List.suffix_cons (idx1 va) [idx2 va]))
    have hrown := (hm.nodes.walk_iff (by simp)).1 hr
    have hrM := hmade r _ (by simp) hmid hrown
    have hqM := hmade q _ (by simp) hlow hq
    have hqr : q ≠ r := by
      rintro rfl
      rw [hq, Role.inTable.injEq] at hrown
      simp at hrown
    obtain ⟨a, b, rfl⟩ : ∃ a b, M = [a, b] := by
      rw [← List.length_eq_two, hlen]
      simp [Kernel.needed, hmid]
    have hpqr : p = q ∨ p = r := by
      simp only [List.mem_cons, List.not_mem_nil, or_false] at hp hqM hrM
      grind
    rcases hpqr with rfl | rfl
    · exact ⟨_, List.suffix_rfl, hq⟩
    · exact ⟨_, List.suffix_cons _ _, hrown⟩
  | some mid =>
    cases hlow : s.walk t [idx1 va, idx2 va] with
    | none =>
      obtain ⟨a, rfl⟩ : ∃ a, M = [a] := by
        rw [← List.length_eq_one_iff, hlen]
        simp [Kernel.needed, hmid, hlow]
      have hqM := hmade q _ (by simp) hlow hq
      rw [List.mem_singleton] at hp hqM
      exact ⟨_, List.suffix_rfl, by rw [hp, ← hqM, hq]⟩
    | some low =>
      have hnil : M = [] := by
        rw [← List.length_eq_zero_iff, hlen]
        simp [Kernel.needed, hmid, hlow]
      rw [hnil] at hp
      cases hp

theorem Made.walk_isSome (hm : Made K t M g g' s pmm) (h : Nodes K g s)
    (hlen : M.length = s.needed t va) (hq : g'.own q = .inTable t [idx1 va, idx2 va])
    (hπ : π.length ≤ 2) :
    (Kernel.walk { s with pmm := pmm } u π).isSome ↔
      (s.walk u π).isSome ∨ (u = t ∧ π <:+ [idx1 va, idx2 va]) := by
  constructor
  · intro hsome
    obtain ⟨p, hp⟩ := Option.isSome_iff_exists.1 hsome
    have hown := (hm.nodes.walk_iff hπ).1 hp
    by_cases hpM : p ∈ M
    · obtain ⟨ρ, hρ, hown'⟩ := hm.on_path h hlen hq hpM
      rw [hown', Role.inTable.injEq] at hown
      exact Or.inr ⟨hown.1.symm, hown.2 ▸ hρ⟩
    · rw [hm.kept p hpM, ← h.walk_iff hπ] at hown
      exact Or.inl (Option.isSome_of_mem hown)
  · rintro (hsome | ⟨rfl, hsuffix⟩)
    · obtain ⟨p, hp⟩ := Option.isSome_iff_exists.1 hsome
      have hown := (h.walk_iff hπ).1 hp
      have hown' := (hm.own_eq h (by rw [hown]; simp)).trans hown
      exact Option.isSome_of_mem ((hm.nodes.walk_iff hπ).2 hown')
    · exact Kernel.walk_suffix (Option.isSome_of_mem ((hm.nodes.walk_iff (by simp)).2 hq)) hsuffix

end Walks

/-- The nodes after an `add`, whether or not it succeeds. -/
theorem Nodes.add_walk {K : Word} {g : Ghost} {s : Kernel} {t u : ℕ} {va : Word} {π : List Idx}
    {tbl : PageTable} (h : Nodes K g s) (ht : s.tables[t]? = some tbl) (pa perm : Word)
    (hneed : s.needed t va ≤ g.free.length) (hπ : π.length ≤ 2) :
    (Kernel.walk { s with pmm := (tbl.add s.pmm va pa perm).2 } u π).isSome ↔
      (s.walk u π).isSome ∨ (u = t ∧ π <:+ [idx1 va, idx2 va]) := by
  obtain ⟨g', M, q, hmade, hlen, hq, hptr, -⟩ := h.pageWalkAlloc ht hneed
  rw [← hmade.walk_isSome h hlen hq hπ]
  simp only [PageTable.add, hptr, loadPte_entry]
  split_ifs
  · rfl
  · -- the leaf entry is in a lowest node
    obtain ⟨hnodes, -⟩ := hmade.nodes.storeLeaf hq (.new pa perm)
    have hwalk := hmade.nodes.walk_eq (t := u) hnodes hπ fun _ => Iff.rfl
    exact iff_of_eq (congrArg (fun w => w.isSome = true) hwalk)

/-! ### The addresses of the past -/

/-- The nodes of a table are those that the addresses `H` need. -/
structure History (s : Kernel) (t : ℕ) (H : List Word) : Prop where
  mid : ∀ i, (s.walk t [i]).isSome ↔ ∃ va ∈ H, idx2 va = i
  low : ∀ j i, (s.walk t [j, i]).isSome ↔ ∃ va ∈ H, idx1 va = j ∧ idx2 va = i

namespace History

variable {s s' : Kernel} {t : ℕ} {H : List Word} {va : Word}

theorem congr (h : History s t H)
    (hwalk : ∀ π : List Idx, π.length ≤ 2 → ((s'.walk t π).isSome ↔ (s.walk t π).isSome)) :
    History s' t H :=
  ⟨fun i => (hwalk _ (by simp)).trans (h.mid i), fun j i => (hwalk _ (by simp)).trans (h.low j i)⟩

theorem add (h : History s t H)
    (hwalk : ∀ π : List Idx, π.length ≤ 2 →
      ((s'.walk t π).isSome ↔ (s.walk t π).isSome ∨ π <:+ [idx1 va, idx2 va])) :
    History s' t (va :: H) := by
  constructor
  · intro i
    rw [hwalk _ (by simp), h.mid i, List.suffix_cons_iff, List.suffix_cons_iff]
    simp only [List.exists_mem_cons_iff]
    constructor
    · rintro (hold | heq | heq | heq)
      · exact Or.inr hold
      · simp at heq
      · simp only [List.cons.injEq, and_true] at heq
        exact Or.inl heq.symm
      · simp at heq
    · rintro (rfl | hold)
      · exact Or.inr (Or.inr (Or.inl rfl))
      · exact Or.inl hold
  · intro j i
    rw [hwalk _ (by simp), h.low j i, List.suffix_cons_iff]
    simp only [List.exists_mem_cons_iff]
    constructor
    · rintro (hold | heq | hshort)
      · exact Or.inr hold
      · simp only [List.cons.injEq, and_true] at heq
        exact Or.inl ⟨heq.1.symm, heq.2.symm⟩
      · have := hshort.length_le
        simp at this
    · rintro (⟨rfl, rfl⟩ | hold)
      · exact Or.inr (Or.inl rfl)
      · exact Or.inl hold

end History

/-- Bits 38..21 are the first two indices. -/
theorem extract_eq_iff {va vb : Word} :
    va.extractLsb' 21 18 = vb.extractLsb' 21 18 ↔ idx1 va = idx1 vb ∧ idx2 va = idx2 vb := by
  simp only [idx1, idx2, ← BitVec.toNat_inj, BitVec.extractLsb'_toNat, Nat.shiftRight_eq_div_pow]
  omega

/-- The pages that an address needs are what it adds to the count. -/
theorem History.nodeCount_cons {s : Kernel} {t : ℕ} {H : List Word} (h : History s t H)
    (va : Word) : nodeCount (va :: H) = nodeCount H + s.needed t va := by
  have hmid : (s.walk t [idx2 va]).isSome ↔
      va.extractLsb' 30 9 ∈ (H.map fun va => va.extractLsb' 30 9).toFinset := by
    rw [h.mid, List.mem_toFinset, List.mem_map]
    rfl
  have hlow : (s.walk t [idx1 va, idx2 va]).isSome ↔
      va.extractLsb' 21 18 ∈ (H.map fun va => va.extractLsb' 21 18).toFinset := by
    rw [h.low, List.mem_toFinset, List.mem_map]
    simp only [extract_eq_iff]
  simp only [nodeCount, List.map_cons, List.toFinset_cons, Finset.card_insert_eq_ite, ← hmid,
    ← hlow, Kernel.needed]
  cases hm : s.walk t [idx2 va] with
  | none =>
    rw [Kernel.walk_none hm]
    simp only [Option.isSome_none, Option.isNone_none, Bool.false_eq_true, if_false, if_true]
    omega
  | some mid =>
    cases hl : s.walk t [idx1 va, idx2 va] with
    | none =>
      simp
      omega
    | some low => simp

theorem nodeCount_perm {H H' : List Word} (h : H.Perm H') : nodeCount H = nodeCount H' := by
  unfold nodeCount
  rw [List.toFinset_eq_of_perm _ _ (h.map _), List.toFinset_eq_of_perm _ _ (h.map _)]

theorem addedTo_cons (t : ℕ) (o : KernelOp) (ops : List KernelOp) :
    addedTo t (o :: ops) = addedTo t [o] ++ addedTo t ops := List.filterMap_append (l := [o])

/-! ### Runs -/

theorem step_tables_length (s : Kernel) {o : KernelOp} (ho : o ≠ .newTable) :
    (s.step o).2.tables = s.tables := by
  cases o with
  | newTable => exact absurd rfl ho
  | allocPage => rfl
  | freePage p => rfl
  | write a v => rfl
  | add u va pa perm =>
    cases ht : s.tables[u]? with
    | none => simp only [Kernel.step, ht]
    | some tbl => rw [MapperInv.add_step ht]; split_ifs <;> rfl
  | lookup u va =>
    simp only [Kernel.step]
    cases s.tables[u]? <;> rfl
  | erase u va =>
    cases ht : s.tables[u]? with
    | none => simp only [Kernel.step, ht]
    | some tbl => rw [MapperInv.erase_step ht]; split_ifs <;> rfl

namespace MapperInv

variable {K : Word} {g : Ghost} {s : Kernel} {t : ℕ} {H : List Word}

/-- One call: the table takes the pages that the address of an `add` needs, and no others. -/
theorem step_count (h : MapperInv K g s) (hK : KernelEnd K) {o : KernelOp}
    (hok : mappingSystem.ok s o) (htlt : t < s.tables.length) (hH : History s t H) :
    (∃ g', MapperInv K g' (s.step o).2) ∧ History (s.step o).2 t (addedTo t [o] ++ H) ∧
      (if s.OnTable t o then (s.taken o).ncard else 0) + nodeCount H =
        nodeCount (addedTo t [o] ++ H) := by
  obtain ⟨hpromise, hsup⟩ := hok
  cases o with
  | newTable =>
    obtain ⟨p, L, hL⟩ := List.exists_cons_of_ne_nil (h.newTable_supplied (hsup trivial))
    have h' := h.newTable hL
    refine ⟨⟨_, h'⟩, hH.congr fun π hπ => ?_, ?_⟩
    · rw [h.nodes.walk_eq h'.nodes hπ fun x => ?_]
      by_cases hx : x = p
      · subst hx
        have hne : s.tables.length ≠ t := by omega
        simp [h.nodes.own_head hL, hne]
      · simp [hx]
    · rw [if_neg (show ¬ s.OnTable t .newTable from htlt.ne'), Nat.zero_add]
      rfl
  | allocPage =>
    obtain ⟨g', h', hplace⟩ := h.allocPage
    refine ⟨⟨g', h'⟩, hH.congr fun π hπ => ?_, Nat.zero_add _⟩
    rw [h.nodes.walk_eq h'.nodes hπ fun x => hplace x t π]
  | freePage p =>
    obtain ⟨g', h', hplace⟩ := h.freePage hK hpromise
    refine ⟨⟨g', h'⟩, hH.congr fun π hπ => ?_, Nat.zero_add _⟩
    rw [h.nodes.walk_eq h'.nodes hπ fun x => hplace x t π]
  | write a v =>
    obtain ⟨p, hp, ha⟩ := hpromise
    have h' := h.write (v := v) hp ha
    refine ⟨⟨g, h'⟩, hH.congr fun π hπ => ?_, Nat.zero_add _⟩
    rw [h.nodes.walk_eq h'.nodes hπ fun x => Iff.rfl]
  | add u va pa perm =>
    obtain ⟨hlt, hpa, hperm⟩ := hpromise
    have ht := List.getElem?_eq_getElem hlt
    have hneed := h.add_supplied ht (hsup trivial)
    obtain ⟨g', M, h', hmade, hlen⟩ := h.add ht hpa hperm hneed
    have hwalk : ∀ π : List Idx, π.length ≤ 2 →
        (((s.step (.add u va pa perm)).2.walk t π).isSome ↔
          (s.walk t π).isSome ∨ (t = u ∧ π <:+ [idx1 va, idx2 va])) := by
      intro π hπ
      rw [← h.nodes.add_walk ht pa perm hneed hπ, add_step ht]
      split_ifs <;> rfl
    refine ⟨⟨g', h'⟩, ?_⟩
    by_cases hut : u = t
    · subst hut
      have hadded : addedTo u [.add u va pa perm] = [va] := by simp [addedTo]
      rw [hadded, List.singleton_append, hH.nodeCount_cons va,
        if_pos (show s.OnTable u (.add u va pa perm) from rfl),
        h.nodes.ncard_taken h'.nodes hmade.free, hlen]
      refine ⟨hH.add fun π hπ => ?_, Nat.add_comm _ _⟩
      rw [hwalk π hπ]
      simp
    · have hadded : addedTo t [.add u va pa perm] = [] := by simp [addedTo, hut]
      rw [hadded, List.nil_append, if_neg (show ¬ s.OnTable t (.add u va pa perm) from hut)]
      refine ⟨hH.congr fun π hπ => ?_, Nat.zero_add _⟩
      rw [hwalk π hπ]
      simp [Ne.symm hut]
  | lookup u va =>
    have hstep : (s.step (.lookup u va)).2 = s := by
      simp only [Kernel.step]
      split <;> rfl
    have h' : MapperInv K g (s.step (.lookup u va)).2 := by rwa [hstep]
    refine ⟨⟨g, h'⟩, by rw [hstep]; exact hH, ?_⟩
    rw [h.nodes.ncard_taken_eq_zero h'.nodes (List.Subset.refl _), ite_self, Nat.zero_add]
    rfl
  | erase u va =>
    obtain ⟨g', h', hfree, hplace⟩ :=
      h.erase hK (List.getElem?_eq_getElem (show u < s.tables.length from hpromise)) va
    refine ⟨⟨g', h'⟩, hH.congr fun π hπ => ?_, ?_⟩
    · rw [h.nodes.walk_eq h'.nodes hπ fun x => hplace x t π]
    · rw [h.nodes.ncard_taken_eq_zero h'.nodes hfree, ite_self, Nat.zero_add]
      rfl

/-- From a state in which the table exists. -/
theorem nodesTaken_add (h : MapperInv K g s) (hK : KernelEnd K) {ops : List KernelOp}
    (hok : mappingSystem.Admissible s ops) (htlt : t < s.tables.length) (hH : History s t H) :
    Kernel.nodesTaken t s ops + nodeCount H = nodeCount (addedTo t ops ++ H) := by
  induction ops generalizing g s H with
  | nil => exact Nat.zero_add _
  | cons o ops ih =>
    obtain ⟨⟨g', h'⟩, hH', hcount⟩ := h.step_count hK hok.1 htlt hH
    have htlt' : t < (s.step o).2.tables.length :=
      (List.getElem?_eq_some_iff.1 (step_tables (List.getElem?_eq_getElem htlt))).1
    have hrest := ih h' hok.2 htlt' hH'
    have hperm : (addedTo t (o :: ops) ++ H).Perm (addedTo t ops ++ (addedTo t [o] ++ H)) := by
      rw [addedTo_cons, ← List.append_assoc]
      exact List.perm_append_comm.append_right H
    rw [nodeCount_perm hperm, ← hrest, ← hcount, Kernel.nodesTaken]
    omega

/-- The constructor takes one page, and makes no other node. -/
theorem newTable_count (h : MapperInv K g s) (hsup : s.Supplied .newTable) :
    (s.taken .newTable).ncard = 1 ∧ History (s.step .newTable).2 s.tables.length [] := by
  obtain ⟨p, L, hL⟩ := List.exists_cons_of_ne_nil (h.newTable_supplied hsup)
  have h' := h.newTable hL
  have hroot : s.walk s.tables.length [] = none := by simp [Kernel.walk, Kernel.forest, forest]
  have hnone : ∀ π : List Idx, π ≠ [] → π.length ≤ 2 →
      (s.step .newTable).2.walk s.tables.length π = none := by
    intro π hne hπ
    rw [h.nodes.walk_eq h'.nodes hπ fun x => ?_]
    · cases π with
      | nil => exact absurd rfl hne
      | cons i π =>
        induction π generalizing i with
        | nil => exact Kernel.walk_none hroot i
        | cons j π ih =>
          exact Kernel.walk_none (ih j (by simp) (by rw [List.length_cons] at hπ; omega)) i
    · by_cases hx : x = p
      · subst hx
        simp [h.nodes.own_head hL, hne.symm]
      · simp [hx]
  refine ⟨h.nodes.ncard_taken (M := [p]) h'.nodes hL, ?_, ?_⟩
  · intro i
    rw [hnone [i] (by simp) (by simp)]
    simp
  · intro j i
    rw [hnone [j, i] (by simp) (by simp)]
    simp

/-- From a state in which the table does not exist yet. -/
theorem nodesTaken_new (h : MapperInv K g s) (hK : KernelEnd K) {ops : List KernelOp}
    (hok : mappingSystem.Admissible s ops) (hle : s.tables.length ≤ t)
    (htlt : t < (mappingSystem.final s ops).tables.length) :
    Kernel.nodesTaken t s ops = 1 + nodeCount (addedTo t ops) := by
  induction ops generalizing g s with
  | nil => exact absurd htlt (not_lt.2 hle)
  | cons o ops ih =>
    obtain ⟨hfirst, hrest⟩ := hok
    obtain ⟨g', h'⟩ := h.step hK hfirst
    rw [Kernel.nodesTaken, addedTo_cons]
    by_cases hnew : o = .newTable
    · subst hnew
      have hadded : addedTo t [.newTable] = [] := rfl
      have hlength : (s.step .newTable).2.tables.length = s.tables.length + 1 := by
        simp [Kernel.step]
      rw [hadded, List.nil_append]
      rcases hle.lt_or_eq with hlt | rfl
      · rw [if_neg (show ¬ s.OnTable t .newTable from hlt.ne), Nat.zero_add]
        exact ih h' hrest (by rw [hlength]; exact hlt) htlt
      · obtain ⟨htaken, hhist⟩ := h.newTable_count (hfirst.2 trivial)
        have hcount := h'.nodesTaken_add hK hrest (by rw [hlength]; omega) hhist
        rw [List.append_nil] at hcount
        rw [if_pos (show s.OnTable s.tables.length .newTable from rfl), htaken, ← hcount]
        rfl
    · -- no call on a table that does not exist
      have hoff : ¬ s.OnTable t o := by
        cases o with
        | newTable => exact absurd rfl hnew
        | allocPage => exact id
        | freePage p => exact id
        | write a v => exact id
        | add u va pa perm => exact fun hu : u = t => absurd hfirst.1.1 (by omega)
        | lookup u va =>
          exact fun hu : u = t => absurd (show u < s.tables.length from hfirst.1) (by omega)
        | erase u va =>
          exact fun hu : u = t => absurd (show u < s.tables.length from hfirst.1) (by omega)
      have hadded : addedTo t [o] = [] := by
        cases o with
        | add u va pa perm =>
          have hu : ¬ u = t := hoff
          simp [addedTo, hu]
        | _ => rfl
      rw [if_neg hoff, hadded, List.nil_append, Nat.zero_add]
      refine ih h' hrest ?_ htlt
      rw [step_tables_length s hnew]
      exact hle

end MapperInv

/-- **Nodes are made exactly when they are needed.**  In every run, whatever the other calls are, the
pages that the calls on a table have taken are one for its root, one for each value of bits 38..30
and one for each value of bits 38..21 among the addresses of all `add` calls on it. -/
theorem nodes_taken_when_needed {K : Word} (hK : KernelEnd K) (m : Mem) {ops : List KernelOp}
    (hok : mappingSystem.Admissible (Kernel.init K m) ops) {t : ℕ}
    (ht : t < (mappingSystem.final (Kernel.init K m) ops).tables.length) :
    Kernel.nodesTaken t (Kernel.init K m) ops = 1 +
      ((addedTo t ops).map fun va => va.extractLsb' 30 9).toFinset.card +
      ((addedTo t ops).map fun va => va.extractLsb' 21 18).toFinset.card := by
  obtain ⟨g, h⟩ := MapperInv.init hK m
  rw [h.nodesTaken_new hK hok (Nat.zero_le t) ht, nodeCount, Nat.add_assoc]

/-- One address: the root, a middle node and a lowest one. -/
theorem nodes_taken_when_needed_sample :
    Kernel.nodesTaken 0 (Kernel.init kernelBegin Mem.zero) sampleRun = 3 := by
  obtain ⟨g, h⟩ := MapperInv.init kernelEnd_kernelBegin Mem.zero
  have hok := h.admissible kernelEnd_kernelBegin sampleRun_admissible
  have ht := sampleRun_table
  rw [final_mappingSystem] at ht
  rw [nodes_taken_when_needed kernelEnd_kernelBegin Mem.zero hok (List.getElem?_eq_some_iff.1 ht).1]
  rfl

end HxcOS
