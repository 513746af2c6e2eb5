import HxcOS.Vmm.Runs

/-!
# Page tables are finite maps

`mapSystem` is what the page tables are for: one partial map from keys to pages for each table,
and the answers that `add`, `lookup` and `erase` give about it.  Through `tableView`, which looks
at the answers of these three calls only, every admissible run of the allocator and the page tables
is a run of `mapSystem` (`tables_refine_maps`).
-/

namespace HxcOS

open ByteMem OpSystem

/-- The maps of all tables. -/
abbrev Maps := ℕ → Key → Option Word

def Maps.set (μ : Maps) (t : ℕ) (k : Key) (v : Option Word) : Maps :=
  fun u k' => if u = t ∧ k' = k then v else μ u k'

/-- Partial maps and the three calls on them. -/
def mapSystem : System Maps KernelOp (Option Ret) where
  step μ
    | .add t va pa _ =>
        if (μ t (key va)).isNone then (some (.int 0), μ.set t (key va) (some pa))
        else (some (.int (-1)), μ)
    | .lookup t va => (some (.ptr ((μ t (key va)).getD 0)), μ)
    | .erase t va =>
        if (μ t (key va)).isNone then (some (.int (-1)), μ)
        else (some (.int 0), μ.set t (key va) none)
    | _ => (none, μ)
  ok _ _ := True

/-- The part of an answer that speaks about a map. -/
def tableView : KernelOp → Ret → Option Ret
  | .add .., r => some r
  | .lookup .., r => some r
  | .erase .., r => some r
  | _, _ => none

/-- The maps that the record of the mappings describes. -/
def Bindings.maps (b : Bindings) : Maps := fun t k => (b t k).map Prod.fst

theorem Bindings.maps_set (b : Bindings) (t : ℕ) (k : Key) (v : Option (Word × Word)) :
    (b.set t k v).maps = b.maps.set t k (v.map Prod.fst) := by
  funext u k'
  simp only [Bindings.maps, Bindings.set, Maps.set]
  split_ifs <;> rfl

/-- The simulation relation. -/
def Simulates (K : Word) (s : Kernel) (μ : Maps) : Prop :=
  (∃ g, KernelInv K g s) ∧ μ = s.bound.maps

section Steps

variable {K : Word} {s : Kernel} {o : KernelOp}

/-- One step of the kernel is one step of the maps. -/
theorem simulates_step (hK : KernelEnd K) {μ : Maps} (h : Simulates K s μ)
    (hok : kernelSystem.ok s o) :
    tableView o (kernelSystem.step s o).1 = (mapSystem.step μ o).1 ∧
      Simulates K (kernelSystem.step s o).2 (mapSystem.step μ o).2 := by
  obtain ⟨⟨g, h⟩, rfl⟩ := h
  have hroom := (h.ok_iff.1 hok).2
  obtain ⟨g', h', -⟩ := h.step hK hok.1 hroom
  have hlookup : ∀ t k, (s.bound.maps t k).isNone = (s.bound t k).isNone := fun t k => by
    simp [Bindings.maps]
  suffices hmain : tableView o (kernelSystem.step s o).1 = (mapSystem.step s.bound.maps o).1 ∧
      (mapSystem.step s.bound.maps o).2 = (s.step o).2.bound.maps from
    ⟨hmain.1, ⟨g', h'⟩, hmain.2⟩
  cases o with
  | newTable => exact ⟨rfl, rfl⟩
  | allocPage => exact ⟨rfl, rfl⟩
  | freePage p => exact ⟨rfl, rfl⟩
  | write a v => exact ⟨rfl, rfl⟩
  | add t va pa perm =>
    obtain ⟨⟨htlt, hpa, hperm⟩, -⟩ := hok
    have ht := List.getElem?_eq_getElem htlt
    obtain ⟨hr, -⟩ := h.add ht (h.room_iff.1 hroom) hpa hperm
    simp only [kernelSystem, Kernel.step, mapSystem, ht, tableView, hr, hlookup]
    split_ifs <;> simp_all [Bindings.maps_set]
  | lookup t va =>
    have ht := List.getElem?_eq_getElem (show t < s.tables.length from hok.1)
    simp only [kernelSystem, Kernel.step, mapSystem, ht, tableView, h.lookup hK ht]
    exact ⟨rfl, trivial⟩
  | erase t va =>
    have ht := List.getElem?_eq_getElem (show t < s.tables.length from hok.1)
    obtain ⟨hr, -⟩ := h.erase hK ht va
    simp only [kernelSystem, Kernel.step, mapSystem, ht, tableView, hr, hlookup]
    split_ifs <;> simp_all [Bindings.maps_set]

end Steps

/-- **Page tables refine finite maps.**  In every admissible run the answers of `add`, `lookup`
and `erase` are those of the maps, and at its end `lookup` reads the maps.  The maps never hold
`NULL`, and whatever call comes next changes no `lookup` but that of its own key in its own
table. -/
theorem tables_refine_maps {K : Word} (hK : KernelEnd K) (m : Mem) {ops : List KernelOp}
    (hok : kernelSystem.Admissible (Kernel.init K m) ops) :
    let s := kernelSystem.final (Kernel.init K m) ops
    let μ := mapSystem.final (fun _ _ => none) ops
    List.zipWith tableView ops (kernelSystem.results (Kernel.init K m) ops) =
      mapSystem.results (fun _ _ => none) ops ∧
    (∀ t k, μ t k ≠ some 0) ∧
    ∀ t tbl, s.tables[t]? = some tbl → ∀ va,
      tbl.lookup s.pmm.mem va = (μ t (key va)).getD 0 ∧
      ∀ o, kernelSystem.ok s o → o.target ≠ some (t, key va) →
        (kernelSystem.step s o).2.tables[t]? = some tbl ∧
        tbl.lookup (kernelSystem.step s o).2.pmm.mem va = tbl.lookup s.pmm.mem va := by
  intro s μ
  obtain ⟨g₀, h₀, -⟩ := KernelInv.init hK m
  obtain ⟨hres, ⟨g, h⟩, hμ⟩ := System.run_refines (v := tableView) (R := Simulates K)
    (fun _ _ _ h hok => simulates_step hK h hok)
    (⟨⟨g₀, h₀⟩, rfl⟩ : Simulates K (Kernel.init K m) fun _ _ => none) hok
  refine ⟨hres, fun t k hnull => ?_, fun t tbl ht va => ⟨?_, fun o hoko htarget => ?_⟩⟩
  · -- a bound page is a page of the pool
    rw [show μ t k = (s.bound t k).map Prod.fst from congrFun (congrFun hμ t) k,
      ← h.walk_path, h.owned.walk_iff (show k.path.length ≤ 3 from le_rfl)] at hnull
    exact (h.owned.poolPage (by rw [hnull]; simp)).ne_zero hK rfl
  · rw [h.lookup hK ht, show μ t (key va) = (s.bound t (key va)).map Prod.fst from
      congrFun (congrFun hμ t) (key va)]
  · obtain ⟨g', h', -⟩ := h.step hK hoko.1 (h.ok_iff.1 hoko).2
    have ht' : (kernelSystem.step s o).2.tables[t]? = some tbl := step_tables ht
    have hlater := h'.lookup hK ht' va
    rw [step_bound_of_ne_target htarget, ← h.lookup hK ht] at hlater
    exact ⟨ht', hlater⟩

/-- The clients' promises can be kept, and then the maps are refined. -/
theorem tables_refine_maps_sample :
    kernelSystem.Admissible (Kernel.init kernelBegin Mem.zero) sampleRun ∧
    List.zipWith tableView sampleRun
        (kernelSystem.results (Kernel.init kernelBegin Mem.zero) sampleRun) =
      mapSystem.results (fun _ _ => none) sampleRun :=
  ⟨sampleRun_admissible,
    (tables_refine_maps kernelEnd_kernelBegin Mem.zero sampleRun_admissible).1⟩

end HxcOS
