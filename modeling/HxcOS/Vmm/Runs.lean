import HxcOS.Vmm.Operations

/-!
# Runs of the allocator and the page tables

`KernelInv` is the invariant of whole runs: the owners of all pages are accounted for (`Owned`) and
the record of the mappings is what the leaf entries hold (`Booked`).  Every call that meets the
promises of the clients and for which the free list has enough pages keeps it
(`KernelInv.step`), and so it holds after every admissible run (`kernelInv_run`).
-/

namespace HxcOS

open ByteMem OpSystem Radix

/-- How many pages the call takes for nodes. -/
def Kernel.pagesNeeded (s : Kernel) : KernelOp → ℕ
  | .newTable => 1
  | .add t va _ _ => s.needed t va
  | _ => 0

/-- The free list has the pages that the call takes for nodes. -/
def Kernel.Room (s : Kernel) (o : KernelOp) : Prop :=
  ∃ L, FreeList s.pmm L ∧ s.pagesNeeded o ≤ L.length

/-- The record of the mappings is what the ghost says about leaf entries. -/
def Booked (g : Ghost) (b : Bindings) : Prop :=
  ∀ t k p f, b t k = some (p, f) ↔ g.own p = .inTable t k.path ∧ f = g.flags t k.path

namespace Booked

variable {g g' : Ghost} {b : Bindings} {p : Word} {t : ℕ} {k : Key} {perm : Word}

/-- Only leaf entries matter. -/
theorem congr (h : Booked g b) (hflags : g'.flags = g.flags)
    (hown : ∀ p t π, π.length = 3 → (g'.own p = .inTable t π ↔ g.own p = .inTable t π)) :
    Booked g' b := by
  intro t k p f
  rw [hflags, hown p t k.path rfl]
  exact h t k p f

/-- A page that is in no leaf entry gets a role outside of the leaf entries. -/
theorem update (h : Booked g b) {r : Role} {L : List Word}
    (hp : ∀ t π, π.length = 3 → g.own p ≠ .inTable t π)
    (hr : ∀ t π, π.length = 3 → r ≠ .inTable t π) :
    Booked { g with free := L, own := Function.update g.own p r } b := by
  refine h.congr rfl fun x t π hπ => ?_
  by_cases hx : x = p
  · subst hx
    simp [hp t π hπ, hr t π hπ]
  · simp [hx]

/-- A held page goes to an unbound key. -/
theorem bind (h : Booked g b) (hp : g.own p = .held) (hk : b t k = none) :
    Booked
      { g with
        own := Function.update g.own p (.inTable t k.path)
        flags := fun u ρ => if u = t ∧ ρ = k.path then perm else g.flags u ρ }
      (b.set t k (some (p, perm))) := by
  intro u k' x f
  simp only [Bindings.set, Key.path_injective.eq_iff]
  by_cases hat : u = t ∧ k' = k
  · obtain ⟨rfl, rfl⟩ := hat
    have hnone : g.own x ≠ .inTable u k'.path := fun hx => by
      have hbound := (h u k' x _).2 ⟨hx, rfl⟩
      rw [hk] at hbound
      cases hbound
    by_cases hx : x = p
    · subst hx; simp [eq_comm]
    · simp [hx, hnone, Ne.symm hx]
  · rw [if_neg hat, if_neg hat]
    by_cases hx : x = p
    · subst hx
      rw [h u k' x f, Function.update_self, hp]
      simp only [reduceCtorEq, false_and, Role.inTable.injEq, false_iff, not_and,
        Key.path_injective.eq_iff]
      rintro ⟨rfl, rfl⟩
      exact absurd ⟨rfl, rfl⟩ hat
    · rw [Function.update_of_ne hx, h u k' x f]

/-- A bound page goes back to the free list. -/
theorem unbind (h : Booked g b) {L : List Word} (hp : g.own p = .inTable t k.path) :
    Booked { g with free := L, own := Function.update g.own p .free } (b.set t k none) := by
  intro u k' x f
  simp only [Bindings.set]
  by_cases hat : u = t ∧ k' = k
  · obtain ⟨rfl, rfl⟩ := hat
    rw [if_pos ⟨rfl, rfl⟩]
    by_cases hx : x = p
    · subst hx; simp
    · have hbound := (h u k' p _).2 ⟨hp, rfl⟩
      have hnone : g.own x ≠ .inTable u k'.path := fun hown => by
        have hbound' := (h u k' x _).2 ⟨hown, rfl⟩
        rw [hbound] at hbound'
        exact hx (by simpa using hbound'.symm)
      simp [hx, hnone]
  · rw [if_neg hat]
    by_cases hx : x = p
    · subst hx
      rw [h u k' x f, Function.update_self, hp]
      simp only [reduceCtorEq, false_and, Role.inTable.injEq, iff_false, not_and,
        Key.path_injective.eq_iff]
      rintro ⟨rfl, rfl⟩
      exact absurd ⟨rfl, rfl⟩ hat
    · rw [Function.update_of_ne hx, h u k' x f]

end Booked

/-- The invariant of the runs. -/
structure KernelInv (K : Word) (g : Ghost) (s : Kernel) : Prop where
  owned : Owned K g s
  booked : Booked g s.bound

namespace KernelInv

variable {K : Word} {g : Ghost} {s : Kernel} {t : ℕ} {k : Key} {va : Word} {tbl : PageTable}

theorem init (hK : KernelEnd K) (m : Mem) :
    ∃ g, KernelInv K g (Kernel.init K m) ∧ ∀ p, p ∈ g.free ↔ PoolPage K p := by
  obtain ⟨L, hL, -, -, hmem⟩ := pmmInit_freeList hK m
  refine ⟨_, ⟨Owned.init hL (fun p => (hmem p).1) fun p => ?_, fun t k p f => ?_⟩, hmem⟩
  · simp [hmem p]
  · dsimp only
    split_ifs <;> simp [Kernel.init]

/-- The mapping of a key is what the walk along its path finds. -/
theorem walk_path (h : KernelInv K g s) (t : ℕ) (k : Key) :
    s.walk t k.path = (s.bound t k).map Prod.fst := by
  refine Option.ext fun p => ?_
  rw [h.owned.walk_iff (show k.path.length ≤ 3 from le_rfl), Option.map_eq_some_iff]
  constructor
  · exact fun hp => ⟨(p, g.flags t k.path), (h.booked t k p _).2 ⟨hp, rfl⟩, rfl⟩
  · rintro ⟨⟨p', f⟩, hb, rfl⟩
    exact ((h.booked t k _ f).1 hb).1

theorem room_iff (h : KernelInv K g s) {o : KernelOp} :
    s.Room o ↔ s.pagesNeeded o ≤ g.free.length := by
  constructor
  · rintro ⟨L, hL, hlen⟩
    rwa [hL.unique h.owned.chain] at hlen
  · exact fun hlen => ⟨g.free, h.owned.chain, hlen⟩

/-- `lookup` returns the page that the record has for the key. -/
theorem lookup (h : KernelInv K g s) (hK : KernelEnd K) (ht : s.tables[t]? = some tbl)
    (va : Word) : tbl.lookup s.pmm.mem va = ((s.bound t (key va)).map Prod.fst).getD 0 := by
  rw [h.owned.lookup hK ht, path_eq_key_path, h.walk_path]

/-- A key that is bound is found. -/
theorem lookup_ne_zero (h : KernelInv K g s) (hK : KernelEnd K) (ht : s.tables[t]? = some tbl)
    (hbound : (s.bound t (key va)).isSome) : tbl.lookup s.pmm.mem va ≠ 0 := by
  obtain ⟨⟨p, f⟩, hb⟩ := Option.isSome_iff_exists.1 hbound
  have hown := ((h.booked t (key va) p f).1 hb).1
  have hlookup : tbl.lookup s.pmm.mem va = p := by simp [h.lookup hK ht, hb]
  rw [hlookup]
  exact (h.owned.poolPage (by rw [hown]; simp)).ne_zero hK

/-! ### The steps -/

theorem newTable (h : KernelInv K g s) (hroom : 1 ≤ g.free.length) :
    ∃ g', KernelInv K g' (s.step .newTable).2 ∧ g.free.length ≤ g'.free.length + 2 := by
  obtain ⟨p, L, hL⟩ := List.exists_cons_of_length_pos hroom
  have hp : g.own p = .free := (h.owned.free_iff p).1 (by simp [hL])
  obtain ⟨hnew, -, howned⟩ := h.owned.newTable hL
  have hbooked := h.booked.update (p := p) (r := .inTable s.tables.length []) (L := L)
    (by simp [hp]) (fun t π hπ heq => by cases heq; simp at hπ)
  refine ⟨_, ⟨?_, hbooked⟩, by simp [hL]⟩
  simp only [Kernel.step, hnew]
  exact howned

theorem allocPage (h : KernelInv K g s) :
    ∃ g', KernelInv K g' (s.step .allocPage).2 ∧ g.free.length ≤ g'.free.length + 2 := by
  cases hL : g.free with
  | nil =>
    have hchain := h.owned.chain
    rw [hL] at hchain
    have hstep := allocPage_nil hchain
    refine ⟨g, ⟨?_, h.booked⟩, by simp⟩
    simp only [Kernel.step, hstep, if_true]
    exact h.owned.reassign rfl rfl (fun _ _ _ _ _ _ => rfl) (fun _ => rfl) (fun _ => Iff.rfl)
      h.owned.chain h.owned.free_iff h.owned.held_iff
  | cons p L =>
    have hchain := h.owned.chain
    rw [hL] at hchain
    have hp : g.own p = .free := (h.owned.free_iff p).1 (by simp [hL])
    have hne : p ≠ 0 := hchain.ne_zero (by simp)
    have howned := h.owned.alloc hL
    refine ⟨_, ⟨?_, h.booked.update (p := p) (r := .held) (L := L) (by simp [hp]) (by simp)⟩,
      by simp⟩
    simp only [Kernel.step, (allocPage_cons hchain).1, if_neg hne] at howned ⊢
    exact howned

theorem freePage (h : KernelInv K g s) (hK : KernelEnd K) {p : Word} (hp : p ∈ s.held) :
    ∃ g', KernelInv K g' (s.step (.freePage p)).2 ∧ g.free.length ≤ g'.free.length + 2 := by
  have hown := (h.owned.held_iff p).1 hp
  exact ⟨_, ⟨h.owned.free hK hown, h.booked.update (by simp [hown]) (by simp)⟩,
    by rw [List.length_cons]; omega⟩

theorem write (h : KernelInv K g s) {a : Word} {v : Byte} {p : Word}
    (hp : p ∈ s.held ∨ ∃ t k perm, s.bound t k = some (p, perm)) (ha : a ∈ page p) :
    ∃ g', KernelInv K g' (s.step (.write a v)).2 ∧ g.free.length ≤ g'.free.length + 2 := by
  refine ⟨g, ⟨h.owned.wrote (Wrote.store8 ha s.pmm.mem v) ?_, h.booked⟩, by omega⟩
  rcases hp with hp | ⟨t, k, perm, hb⟩
  · exact Or.inl ((h.owned.held_iff p).1 hp)
  · exact Or.inr ⟨t, k.path, rfl, ((h.booked t k p perm).1 hb).1⟩

theorem add (h : KernelInv K g s) (ht : s.tables[t]? = some tbl) {pa perm : Word}
    (hroom : s.needed t va ≤ g.free.length) (hpa : pa ∈ s.held) (hperm : Kernel.IsPermission perm) :
    (tbl.add s.pmm va pa perm).1 = (if (s.bound t (key va)).isNone then 0 else -1) ∧
      Wrote (pool K) s.pmm.mem (tbl.add s.pmm va pa perm).2.mem ∧
      ∃ g', KernelInv K g' (s.step (.add t va pa perm)).2 ∧
        g.free.length ≤ g'.free.length + 2 := by
  obtain ⟨write, read, exec, user, cow, rfl⟩ := hperm
  obtain ⟨g', hgrown, hlen, hpool, hw, hsome, hnone⟩ := h.owned.add ht hroom
    ((h.owned.held_iff pa).1 hpa) (permissionCode_bounds write read exec user cow)
  have hwalk := h.walk_path t (key va)
  rw [← path_eq_key_path] at hwalk
  have hbooked : Booked g' s.bound := h.booked.congr hgrown.flags fun _ _ _ hπ => hgrown.leaf_iff hπ
  simp only [Kernel.step, ht]
  cases hb : s.bound t (key va) with
  | none =>
    obtain ⟨hr, howned⟩ := hnone (by rw [hwalk, hb]; rfl)
    refine ⟨by simp [hr], hw.mono hpool, ?_⟩
    rw [if_pos hr]
    rw [path_eq_key_path] at howned
    exact ⟨_, ⟨howned.rebind _,
      hbooked.bind (hgrown.held_iff.2 ((h.owned.held_iff pa).1 hpa)) hb⟩, hlen⟩
  | some e =>
    obtain ⟨hr, howned⟩ := hsome (by rw [hwalk, hb]; rfl)
    refine ⟨by simp [hr], hw.mono hpool, ?_⟩
    rw [if_neg (by rw [hr]; decide)]
    exact ⟨g', ⟨howned, hbooked⟩, hlen⟩

/-- After an `add` the key is bound, if it was not before. -/
theorem add_bound (h : KernelInv K g s) (ht : s.tables[t]? = some tbl) {pa perm : Word}
    (hroom : s.needed t va ≤ g.free.length) (hpa : pa ∈ s.held) (hperm : Kernel.IsPermission perm) :
    ((s.step (.add t va pa perm)).2.bound t (key va)).isSome := by
  have hret := (h.add ht hroom hpa hperm).1
  simp only [Kernel.step, ht]
  cases hb : s.bound t (key va) with
  | none =>
    rw [hb] at hret
    simp [hret, Bindings.set]
  | some e =>
    rw [hb] at hret
    simp [hret, hb]

theorem erase (h : KernelInv K g s) (hK : KernelEnd K) (ht : s.tables[t]? = some tbl)
    (va : Word) :
    (tbl.erase s.pmm va).1 = (if (s.bound t (key va)).isNone then -1 else 0) ∧
      ∃ g', KernelInv K g' (s.step (.erase t va)).2 ∧ g.free.length ≤ g'.free.length + 2 := by
  have hwalk := h.walk_path t (key va)
  rw [← path_eq_key_path] at hwalk
  simp only [Kernel.step, ht]
  cases hb : s.bound t (key va) with
  | none =>
    rw [hb, Option.map_none] at hwalk
    have hstep := Owned.erase_none ht hwalk
    rw [hstep]
    exact ⟨rfl, g, h, by omega⟩
  | some e =>
    obtain ⟨p, f⟩ := e
    rw [hb, Option.map_some] at hwalk
    obtain ⟨hr, howned⟩ := h.owned.erase_some hK ht hwalk
    refine ⟨by simp [hr], ?_⟩
    rw [if_pos hr]
    exact ⟨_, ⟨howned.rebind _, h.booked.unbind ((h.booked t _ p f).1 hb).1⟩,
      by rw [List.length_cons]; omega⟩

/-- **Step lemma.** Every call that meets its promises and for which there are enough pages keeps
the invariant, and takes at most two pages off the free list. -/
theorem step (h : KernelInv K g s) (hK : KernelEnd K) {o : KernelOp} (hok : s.Promise o)
    (hroom : s.Room o) :
    ∃ g', KernelInv K g' (s.step o).2 ∧ g.free.length ≤ g'.free.length + 2 := by
  rw [h.room_iff] at hroom
  cases o with
  | newTable => exact h.newTable hroom
  | allocPage => exact h.allocPage
  | freePage p => exact h.freePage hK hok
  | write a v =>
    obtain ⟨p, hp, ha⟩ := hok
    exact h.write hp ha
  | add t va pa perm =>
    obtain ⟨htlt, hpa, hperm⟩ := hok
    exact (h.add (List.getElem?_eq_getElem htlt) hroom hpa hperm).2.2
  | lookup t va =>
    simp only [Kernel.step]
    split <;> exact ⟨g, h, by omega⟩
  | erase t va => exact (h.erase hK (List.getElem?_eq_getElem (show t < s.tables.length from hok)) va).2

end KernelInv

/-- `alloc_page` returns no `NULL` during a call that makes nodes exactly when the free list has
the pages that it needs. -/
theorem KernelInv.supplied_iff {K : Word} {g : Ghost} {s : Kernel} (h : KernelInv K g s)
    {o : KernelOp} (hok : s.Promise o) (hgrows : Kernel.Grows o) : s.Supplied o ↔ s.Room o := by
  rw [h.room_iff]
  cases o with
  | newTable =>
    rw [Kernel.Supplied, show (s.step .newTable).2.pmm = (allocEmptyPage s.pmm).2 from rfl,
      allocEmptyPage_denied, Nat.add_eq_left, Kernel.pagesNeeded, Nat.one_le_iff_ne_zero, ne_eq,
      List.length_eq_zero_iff, ← ne_eq, ← h.owned.head_ne_zero_iff]
    simp
  | add t va pa perm =>
    obtain ⟨tbl, ht⟩ : ∃ tbl, s.tables[t]? = some tbl := ⟨_, List.getElem?_eq_getElem hok.1⟩
    have hpmm : (s.step (.add t va pa perm)).2.pmm.denied =
        (tbl.pageWalkAlloc s.pmm va).2.denied := by
      rw [← tbl.add_denied s.pmm va pa perm]
      simp only [Kernel.step, ht]
      split_ifs <;> rfl
    rw [Kernel.Supplied, hpmm, h.owned.pageWalkAlloc_denied ht]
    rfl
  | allocPage => exact hgrows.elim
  | freePage p => exact hgrows.elim
  | write a v => exact hgrows.elim
  | lookup t va => exact hgrows.elim
  | erase t va => exact hgrows.elim

/-- The system with its obligation read off the free list. -/
def roomSystem : System Kernel KernelOp Ret where
  step := Kernel.step
  ok s o := s.Promise o ∧ s.Room o

/-- That `alloc_page` does not run out can be said in terms of the free list. -/
theorem KernelInv.ok_iff {K : Word} {g : Ghost} {s : Kernel} (h : KernelInv K g s)
    {o : KernelOp} : kernelSystem.ok s o ↔ roomSystem.ok s o := by
  refine and_congr_right fun hok => ?_
  by_cases hgrows : Kernel.Grows o
  · rw [← h.supplied_iff hok hgrows]
    exact ⟨fun hs => hs hgrows, fun hs _ => hs⟩
  · refine ⟨fun _ => h.room_iff.2 ?_, fun _ hg => absurd hg hgrows⟩
    cases o <;> simp_all [Kernel.Grows, Kernel.pagesNeeded]

/-- The key that a call may change. -/
def KernelOp.target : KernelOp → Option (ℕ × Key)
  | .add t va _ _ => some (t, key va)
  | .erase t va => some (t, key va)
  | _ => none

/-- A call changes no other mapping. -/
theorem step_bound_of_ne_target {s : Kernel} {o : KernelOp} {t : ℕ} {k : Key}
    (h : o.target ≠ some (t, k)) :
    (s.step o).2.bound t k = s.bound t k := by
  have hset : ∀ u k' v, (u, k') ≠ (t, k) → s.bound.set u k' v t k = s.bound t k := by
    intro u k' v hne
    refine if_neg ?_
    rintro ⟨rfl, rfl⟩
    exact hne rfl
  cases o with
  | newTable => rfl
  | allocPage => rfl
  | freePage p => rfl
  | write a v => rfl
  | add u va pa perm =>
    have hne : (u, key va) ≠ (t, k) := by simpa [KernelOp.target] using h
    simp only [Kernel.step]
    cases s.tables[u]? with
    | none => rfl
    | some tbl =>
      dsimp only
      split_ifs
      · exact hset u _ _ hne
      · rfl
  | lookup u va =>
    simp only [Kernel.step]
    cases s.tables[u]? <;> rfl
  | erase u va =>
    have hne : (u, key va) ≠ (t, k) := by simpa [KernelOp.target] using h
    simp only [Kernel.step]
    cases s.tables[u]? with
    | none => rfl
    | some tbl =>
      dsimp only
      split_ifs
      · exact hset u _ _ hne
      · rfl

/-- A mapping was there before the call, or the call is the `add` that made it. -/
theorem step_bound_inv {s : Kernel} {o : KernelOp} {t : ℕ} {k : Key} {p f : Word}
    (h : (s.step o).2.bound t k = some (p, f)) :
    s.bound t k = some (p, f) ∨ ∃ va, key va = k ∧ o = .add t va p f := by
  by_cases htarget : o.target = some (t, k)
  · cases o with
    | add u va pa perm =>
      obtain ⟨rfl, rfl⟩ : u = t ∧ key va = k := by simpa [KernelOp.target] using htarget
      simp only [Kernel.step] at h
      cases ht : s.tables[u]? with
      | none => rw [ht] at h; exact Or.inl h
      | some tbl =>
        rw [ht] at h
        dsimp only at h
        split_ifs at h
        · obtain ⟨rfl, rfl⟩ : pa = p ∧ perm = f := by simpa [Bindings.set] using h
          exact Or.inr ⟨va, rfl, rfl⟩
        · exact Or.inl h
    | erase u va =>
      obtain ⟨rfl, rfl⟩ : u = t ∧ key va = k := by simpa [KernelOp.target] using htarget
      simp only [Kernel.step] at h
      cases ht : s.tables[u]? with
      | none => rw [ht] at h; exact Or.inl h
      | some tbl =>
        rw [ht] at h
        dsimp only at h
        split_ifs at h
        · simp [Bindings.set] at h
        · exact Or.inl h
    | _ => simp [KernelOp.target] at htarget
  · rw [step_bound_of_ne_target htarget] at h
    exact Or.inl h

/-- The first table. -/
theorem newTable_table {s : Kernel} (h : s.tables = []) :
    (s.step .newTable).2.tables[0]? = some (PageTable.new s.pmm).1 := by
  simp [Kernel.step, h]

/-- Tables stay where they are. -/
theorem step_tables {s : Kernel} {o : KernelOp} {t : ℕ} {tbl : PageTable}
    (ht : s.tables[t]? = some tbl) :
    (s.step o).2.tables[t]? = some tbl := by
  cases o with
  | newTable =>
    simp only [Kernel.step]
    exact (List.getElem?_append_left (List.getElem?_eq_some_iff.1 ht).1).trans ht
  | allocPage => exact ht
  | freePage p => exact ht
  | write a v => exact ht
  | add u va pa perm =>
    simp only [Kernel.step]
    cases s.tables[u]? with
    | none => exact ht
    | some tbl => dsimp only; split_ifs <;> exact ht
  | lookup u va =>
    simp only [Kernel.step]
    cases s.tables[u]? <;> exact ht
  | erase u va =>
    simp only [Kernel.step]
    cases s.tables[u]? with
    | none => exact ht
    | some tbl => dsimp only; split_ifs <;> exact ht

/-- **The invariant of the runs.** -/
theorem kernelInv_run {K : Word} (hK : KernelEnd K) (m : Mem) {ops : List KernelOp}
    (hok : kernelSystem.Admissible (Kernel.init K m) ops) :
    ∃ g, KernelInv K g (kernelSystem.final (Kernel.init K m) ops) := by
  obtain ⟨g, h, -⟩ := KernelInv.init hK m
  refine System.run_inv (I := fun s => ∃ g, KernelInv K g s) ?_ ⟨g, h⟩ hok
  rintro s o ⟨g, h⟩ hok
  obtain ⟨g', h', -⟩ := h.step hK hok.1 (h.ok_iff.1 hok).2
  exact ⟨g', h'⟩

/-! ### A run -/

/-- With two free pages every call that keeps its promises is admissible. -/
theorem KernelInv.next {K : Word} (hK : KernelEnd K) {g : Ghost} {s : Kernel}
    (h : KernelInv K g s) {o : KernelOp} (hok : s.Promise o) (hlen : 2 ≤ g.free.length) :
    kernelSystem.ok s o ∧
      ∃ g', KernelInv K g' (s.step o).2 ∧ g.free.length ≤ g'.free.length + 2 := by
  have hroom : s.Room o := by
    rw [h.room_iff]
    cases o with
    | add t va pa perm => simp only [Kernel.pagesNeeded, Kernel.needed]; split_ifs <;> omega
    | _ => simp only [Kernel.pagesNeeded]; omega
  exact ⟨h.ok_iff.2 ⟨hok, hroom⟩, h.step hK hok hroom⟩

/-- A page is allocated, written to, mapped, and looked up. -/
def mapAndLookup (s : Kernel) : List KernelOp :=
  let p := (allocPage s.pmm).1
  [.allocPage, .write p 7, .add 0 0x1000 p (permissionCode true true false false false),
    .lookup 0 0x1000]

theorem KernelInv.mapAndLookup_run {K : Word} (hK : KernelEnd K) {g : Ghost} {s : Kernel}
    (h : KernelInv K g s) {tbl : PageTable} (ht : s.tables[0]? = some tbl)
    (hlen : 8 ≤ g.free.length) : kernelSystem.Admissible s (mapAndLookup s) ∧
      ((kernelSystem.final s (mapAndLookup s)).bound 0 (key 0x1000)).isSome := by
  obtain ⟨p, hp⟩ : ∃ p, (HxcOS.allocPage s.pmm).1 = p := ⟨_, rfl⟩
  have hne : p ≠ 0 := fun h0 => by
    have hnil := (allocPage_eq_zero_iff h.owned.chain).1 (hp.trans h0)
    rw [hnil, List.length_nil] at hlen
    omega
  obtain ⟨hok₁, g₁, h₁, hlen₁⟩ := h.next hK (o := .allocPage) trivial (by omega)
  have ht₁ := step_tables (o := .allocPage) ht
  have hheld₁ : p ∈ (s.step .allocPage).2.held := by
    simp only [Kernel.step, hp, if_neg hne]
    exact Finset.mem_insert_self _ _
  simp only [mapAndLookup, hp, System.admissible_cons, System.admissible_nil, and_true,
    System.final_cons, System.final_nil, kernelSystem_step]
  generalize (s.step .allocPage).2 = s₁ at *
  obtain ⟨hok₂, g₂, h₂, hlen₂⟩ :=
    h₁.next hK (o := .write p 7) ⟨p, Or.inl hheld₁, mem_page_self p⟩ (by omega)
  have ht₂ := step_tables (o := .write p 7) ht₁
  have hheld₂ : p ∈ (s₁.step (.write p 7)).2.held := hheld₁
  generalize (s₁.step (.write p 7)).2 = s₂ at *
  obtain ⟨hok₃, g₃, h₃, hlen₃⟩ := h₂.next hK
    (o := .add 0 0x1000 p (permissionCode true true false false false))
    ⟨(List.getElem?_eq_some_iff.1 ht₂).1, hheld₂, _, _, _, _, _, rfl⟩ (by omega)
  have ht₃ := step_tables (o := .add 0 0x1000 p (permissionCode true true false false false)) ht₂
  have hbound := h₂.add_bound ht₂ (h₂.room_iff.1 (h₂.ok_iff.1 hok₃).2) hok₃.1.2.1 hok₃.1.2.2
  generalize (s₂.step (.add 0 0x1000 p (permissionCode true true false false false))).2 = s₃ at *
  refine ⟨⟨hok₁, hok₂, hok₃, (List.getElem?_eq_some_iff.1 ht₃).1, False.elim⟩, ?_⟩
  simpa only [Kernel.step, ht₃] using hbound

/-- The state after the first constructor call, on a machine whose memory is all zeros. -/
def oneTable : Kernel := ((Kernel.init kernelBegin Mem.zero).step .newTable).2

/-- A run in which a table is made, and a page is mapped in it. -/
def sampleRun : List KernelOp := .newTable :: mapAndLookup oneTable

theorem oneTable_table :
    oneTable.tables[0]? = some (PageTable.new (Kernel.init kernelBegin Mem.zero).pmm).1 := by
  rw [oneTable]
  exact newTable_table rfl

/-- There are ten free pages at the beginning. -/
theorem ten_le_length {L : List Word} (hL : ∀ p, p ∈ L ↔ PoolPage kernelBegin p) :
    10 ≤ L.length := by
  have hsub : (List.range 10).map (fun i => kernelBegin + 4096 * BitVec.ofNat 64 i) ⊆ L := by
    intro p hp
    obtain ⟨i, hi, rfl⟩ := List.mem_map.1 hp
    rw [List.mem_range] at hi
    rw [hL, PoolPage, PageAligned, ramEnd_eq, kernelBegin]
    refine ⟨?_, ?_, ?_⟩ <;> bv_omega
  have hnodup : ((List.range 10).map
      (fun i => kernelBegin + 4096 * BitVec.ofNat 64 i)).Nodup := by
    refine List.nodup_range.map_on fun i hi j hj heq => ?_
    rw [List.mem_range] at hi hj
    rw [kernelBegin] at heq
    bv_omega
  exact (List.subperm_of_subset hnodup hsub).length_le

theorem sampleRun_run :
    kernelSystem.Admissible (Kernel.init kernelBegin Mem.zero) sampleRun ∧
      ((kernelSystem.final (Kernel.init kernelBegin Mem.zero) sampleRun).bound 0
        (key 0x1000)).isSome := by
  have hK := kernelEnd_kernelBegin
  obtain ⟨g, h, hfree⟩ := KernelInv.init hK Mem.zero
  have hlen := ten_le_length hfree
  obtain ⟨hok, g₁, h₁, hlen₁⟩ := h.next hK (o := .newTable) trivial (by omega)
  rw [← oneTable] at h₁
  obtain ⟨hrest, hbound⟩ := h₁.mapAndLookup_run hK oneTable_table (by omega)
  rw [sampleRun, System.admissible_cons, System.final_cons, kernelSystem_step, ← oneTable]
  exact ⟨⟨hok, hrest⟩, hbound⟩

theorem sampleRun_admissible :
    kernelSystem.Admissible (Kernel.init kernelBegin Mem.zero) sampleRun := sampleRun_run.1

theorem sampleRun_table :
    (kernelSystem.final (Kernel.init kernelBegin Mem.zero) sampleRun).tables[0]? =
      some (PageTable.new (Kernel.init kernelBegin Mem.zero).pmm).1 := by
  have hadm := sampleRun_admissible
  rw [sampleRun, System.admissible_cons, kernelSystem_step, ← oneTable] at hadm
  rw [sampleRun, System.final_cons, kernelSystem_step, ← oneTable]
  exact System.run_inv (S := kernelSystem)
    (I := fun s => s.tables[0]? = some (PageTable.new (Kernel.init kernelBegin Mem.zero).pmm).1)
    (fun _ _ ht _ => step_tables ht) oneTable_table hadm.2

end HxcOS
