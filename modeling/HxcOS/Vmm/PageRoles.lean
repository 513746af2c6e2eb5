import HxcOS.Vmm.Runs

/-!
# Every page has one role

The roles of a page, read off the state alone: on the free list, a node of a table, the target of a
valid leaf entry, or held by a client.  In every state that a run reaches each page of the pool has
exactly one of them; the tables' nodes form trees (`pages_have_one_role`).
-/

namespace HxcOS

open ByteMem Radix OpSystem

inductive PageRole
  | free
  | node
  | mapped
  | held

/-- The role that the ghost knows, without the place. -/
def Role.pageRole : Role → Option PageRole
  | .outside => none
  | .free => some .free
  | .held => some .held
  | .inTable _ π => some (if π.length < 3 then .node else .mapped)

namespace Kernel

/-- `p` is a node of the table `t`: its root, a middle or a lowest table. -/
def NodeAt (s : Kernel) (t : ℕ) (π : List Idx) (p : Word) : Prop :=
  π.length < 3 ∧ s.walk t π = some p

/-- The entry `e.2` of the node `e.1`, which is at depth `d`, is valid and points to `p`. -/
def Points (s : Kernel) (d : ℕ) (e : Word × Idx) (p : Word) : Prop :=
  (∃ t ρ, ρ.length = d ∧ s.walk t ρ = some e.1) ∧ child s.pmm.mem e.1 e.2 = some p

/-- The four roles; the entries of nodes at depth 2 are the leaf entries. -/
def HasRole (s : Kernel) (p : Word) : PageRole → Prop
  | .free => ∃ L, FreeList s.pmm L ∧ p ∈ L
  | .node => ∃ t π, s.NodeAt t π p
  | .mapped => ∃ e, s.Points 2 e p
  | .held => p ∈ s.held

/-- The entry that points to the page at a place. -/
theorem exists_points {s : Kernel} {t : ℕ} {i : Idx} {π : List Idx} {p : Word}
    (hp : s.walk t (i :: π) = some p) :
    ∃ q, s.walk t π = some q ∧ s.Points π.length (q, i) p := by
  rw [Kernel.walk, Forest.walk_cons] at hp
  obtain ⟨q, hq, hchild⟩ := Option.bind_eq_some_iff.1 hp
  exact ⟨q, hq, ⟨t, π, rfl, hq⟩, hchild⟩

end Kernel

namespace Owned

variable {K : Word} {g : Ghost} {s : Kernel} {p : Word} {t : ℕ} {π : List Idx} {d : ℕ}
  {e : Word × Idx}

/-- What points to a page is the entry at its place. -/
theorem own_of_points (h : Owned K g s) (hd : d < 3) (he : s.Points d e p) :
    ∃ t ρ, ρ.length = d ∧ s.walk t ρ = some e.1 ∧ g.own p = .inTable t (e.2 :: ρ) := by
  obtain ⟨⟨t, ρ, hρ, hq⟩, hp⟩ := he
  rw [← h.walk_cons hq] at hp
  exact ⟨t, ρ, hρ, hq, h.own_of_walk (by rw [List.length_cons]; omega) hp⟩

/-- No two entries point to one page. -/
theorem points_unique (h : Owned K g s) {d' : ℕ} {e' : Word × Idx} (hd : d < 3) (hd' : d' < 3)
    (he : s.Points d e p) (he' : s.Points d' e' p) : e = e' := by
  obtain ⟨t, ρ, hρ, hq, hp⟩ := h.own_of_points hd he
  obtain ⟨t', ρ', hρ', hq', hp'⟩ := h.own_of_points hd' he'
  rw [hp, Role.inTable.injEq] at hp'
  obtain ⟨rfl, heq⟩ := hp'
  obtain ⟨hi, rfl⟩ := List.cons.inj heq
  exact Prod.ext (Option.some.inj (hq.symm.trans hq')) hi

/-- The roles of the state are those of the ghost. -/
theorem hasRole_iff (h : Owned K g s) {r : PageRole} :
    s.HasRole p r ↔ (g.own p).pageRole = some r := by
  cases r with
  | free =>
    have hfree : s.HasRole p .free ↔ p ∈ g.free := by
      constructor
      · rintro ⟨L, hL, hp⟩
        rwa [hL.unique h.chain] at hp
      · exact fun hp => ⟨g.free, h.chain, hp⟩
    rw [hfree, h.free_iff]
    cases g.own p <;> simp [Role.pageRole]
    split_ifs <;> simp
  | held =>
    rw [Kernel.HasRole, h.held_iff]
    cases g.own p <;> simp [Role.pageRole]
    split_ifs <;> simp
  | node =>
    constructor
    · rintro ⟨t, π, hπ, hp⟩
      rw [h.own_of_walk hπ.le hp, Role.pageRole, if_pos hπ]
    · intro hp
      cases hown : g.own p with
      | inTable t π =>
        rw [hown, Role.pageRole] at hp
        by_cases hπ : π.length < 3
        · exact ⟨t, π, hπ, (h.walk_iff hπ.le).2 hown⟩
        · simp [hπ] at hp
      | _ => simp [hown, Role.pageRole] at hp
  | mapped =>
    constructor
    · rintro ⟨e, he⟩
      obtain ⟨t, ρ, hρ, -, hp⟩ := h.own_of_points (by omega) he
      rw [hp, Role.pageRole, if_neg (by rw [List.length_cons]; omega)]
    · intro hp
      cases hown : g.own p with
      | inTable t π =>
        rw [hown, Role.pageRole] at hp
        have hdepth := h.depth p t π hown
        by_cases hπ : π.length < 3
        · simp [hπ] at hp
        · cases π with
          | nil => simp at hπ
          | cons i ρ =>
            rw [List.length_cons] at hπ hdepth
            obtain ⟨q, -, hq⟩ :=
              Kernel.exists_points ((h.walk_iff (by simpa using hdepth)).2 hown)
            exact ⟨(q, i), by rwa [show ρ.length = 2 by omega] at hq⟩
      | _ => simp [hown, Role.pageRole] at hp

/-- Entries that are not leaves carry just `V`. -/
theorem getFlag_of_points (h : Owned K g s) (hd : d < 2) (he : s.Points d e p) :
    (pte s.pmm.mem e.1 e.2).getFlag = PTEFlags.V := by
  obtain ⟨⟨t, ρ, hρ, hq⟩, hp⟩ := he
  rw [h.entries t e.2 ρ e.1 p (by omega) hq hp,
    h.node_flags t (e.2 :: ρ) (by rw [List.length_cons]; omega)]
  exact PageTableEntry.getFlag_new (by decide)

end Owned

/-- **Page ownership.**  In every state that an admissible run reaches, each page of the pool has
exactly one role; no page is at two places in tables; exactly one leaf entry points to a mapped
page; and exactly one entry points to each node that is not a root, an entry that is no leaf, whose
flags are just `V` and which is in the node one step closer to the root of the same table. -/
theorem pages_have_one_role {K : Word} (hK : KernelEnd K) (m : Mem) {ops : List KernelOp}
    (hok : kernelSystem.Admissible (Kernel.init K m) ops) :
    let s := kernelSystem.final (Kernel.init K m) ops
    (∀ p, PoolPage K p → ∃! r, s.HasRole p r) ∧
    (∀ p t π u ρ, s.NodeAt t π p → s.NodeAt u ρ p → t = u ∧ π = ρ) ∧
    (∀ p, s.HasRole p .mapped → ∃! e, ∃ d < 3, s.Points d e p) ∧
    ∀ p t i π, s.NodeAt t (i :: π) p → ∃ q, s.NodeAt t π q ∧ s.Points π.length (q, i) p ∧
      (pte s.pmm.mem q i).getFlag = PTEFlags.V ∧ ∀ e, ∀ d < 3, s.Points d e p → e = (q, i) := by
  intro s
  obtain ⟨g, h, -⟩ : ∃ g, KernelInv K g s := kernelInv_run hK m hok
  clear_value s
  refine ⟨fun p hp => ?_, fun p t π u ρ hπ hρ => ?_, fun p hp => ?_, fun p t i π hp => ?_⟩
  · cases hr : (g.own p).pageRole with
    | none =>
      have hown := (h.pool_iff p).1 hp
      cases hrole : g.own p with
      | outside => exact absurd hrole hown
      | _ => simp [hrole, Role.pageRole] at hr
    | some r =>
      refine ⟨r, h.hasRole_iff.2 hr, fun r' hr' => ?_⟩
      exact Option.some.inj ((h.hasRole_iff.1 hr').symm.trans hr)
  · have hown := (h.own_of_walk hπ.1.le hπ.2).symm.trans (h.own_of_walk hρ.1.le hρ.2)
    simpa using hown
  · obtain ⟨e, he⟩ := hp
    exact ⟨e, ⟨2, by omega, he⟩, fun e' ⟨d, hd, he'⟩ => h.points_unique hd (by omega) he' he⟩
  · obtain ⟨hlen, hp⟩ := hp
    rw [List.length_cons] at hlen
    obtain ⟨q, hq, hpoints⟩ := Kernel.exists_points hp
    have hflag := h.getFlag_of_points (e := (q, i)) (by omega) hpoints
    exact ⟨q, ⟨by omega, hq⟩, hpoints, hflag,
      fun e d hd he => h.points_unique hd (by omega) he hpoints⟩

/-- The promises can be kept: the roles in a run that maps a page. -/
theorem pages_have_one_role_sample :
    ∃! r, (kernelSystem.final (Kernel.init kernelBegin Mem.zero) sampleRun).HasRole kernelBegin r :=
  (pages_have_one_role kernelEnd_kernelBegin Mem.zero sampleRun_admissible).1 kernelBegin
    (by decide)

end HxcOS
