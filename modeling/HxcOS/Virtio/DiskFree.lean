import HxcOS.Virtio.FreeChain
import HxcOS.Lib.Least
import HxcOS.Lib.System

/-!
# The descriptors of `disk_free`

`alloc_desc` and `alloc3_desc` give out the least free descriptors, one or three of them.  When
`alloc3_desc` finds fewer it gives back those it has marked.  Giving back clears the address of a
descriptor, but the address of a free descriptor is zero already, so that a call that fails leaves no
trace.

* `t.free` is the set of the free descriptors, and `t.marked L` is `t` with those of `L` marked as used.
* `t.Clean`: a free descriptor is as `free_desc` leaves it.
* `descSystem` are the functions, called in any order, between which the driver writes to descriptors
  that are not free; `leastSystem` is a finite set of numbers.
-/

namespace HxcOS

open LeastFirst OpSystem

namespace DiskTable

variable {t : DiskTable} {L : List ℕ}

/-- The free descriptors. -/
def free (t : DiskTable) : Finset ℕ := (Finset.range 8).filter fun i => t.diskFree i ≠ 0

theorem mem_free {i : ℕ} : i ∈ t.free ↔ i < 8 ∧ t.diskFree i ≠ 0 := by
  rw [free, Finset.mem_filter, Finset.mem_range]

/-- A free descriptor is as `free_desc` leaves it. -/
def Clean (t : DiskTable) : Prop := ∀ i ∈ t.free, t.diskFree i = 1 ∧ (t.desc i).addr = 0

/-- The descriptors of `L` are marked as used. -/
def marked (t : DiskTable) (L : List ℕ) : DiskTable :=
  { t with diskFree := fun i => if i ∈ L then 0 else t.diskFree i }

@[simp] theorem marked_nil (t : DiskTable) : t.marked [] = t := by
  simp [marked]

theorem free_marked (t : DiskTable) (L : List ℕ) : (t.marked L).free = t.free \ L.toFinset := by
  ext i
  rw [Finset.mem_sdiff, List.mem_toFinset, mem_free, mem_free]
  by_cases hi : i ∈ L <;> simp [marked, hi]

theorem marked_append (t : DiskTable) (L : List ℕ) (i : ℕ) :
    { t.marked L with diskFree := Function.update (t.marked L).diskFree i 0 } =
      t.marked (L ++ [i]) := by
  refine congrArg (DiskTable.mk t.desc) ?_
  funext j
  rw [Function.update_apply]
  by_cases hj : j = i <;> simp [marked, hj]

/-- The loop of `alloc_desc`. -/
theorem allocDescFrom_cases (t : DiskTable) (i n : ℕ) :
    ((∀ j, i ≤ j → j < i + n → t.diskFree j = 0) ∧ t.allocDescFrom i n = (-1, t)) ∨
    ∃ k, i ≤ k ∧ k < i + n ∧ t.diskFree k ≠ 0 ∧ (∀ j, i ≤ j → j < k → t.diskFree j = 0) ∧
      t.allocDescFrom i n = ((k : ℤ), { t with diskFree := Function.update t.diskFree k 0 }) := by
  induction n generalizing i with
  | zero => exact Or.inl ⟨by omega, rfl⟩
  | succ n ih =>
    by_cases hi : t.diskFree i = 0
    · rw [allocDescFrom, if_neg (not_not.2 hi)]
      have hhead : ∀ {m}, (∀ j, i + 1 ≤ j → j < m → t.diskFree j = 0) →
          ∀ j, i ≤ j → j < m → t.diskFree j = 0 := by
        intro m hm j hij hj
        rcases Nat.eq_or_lt_of_le hij with rfl | hlt
        · exact hi
        · exact hm j hlt hj
      rcases ih (i + 1) with ⟨hnone, hrun⟩ | ⟨k, hik, hk, hfree, hleast, hrun⟩
      · exact Or.inl ⟨hhead (by rwa [show i + (n + 1) = i + 1 + n by omega]), hrun⟩
      · exact Or.inr ⟨k, by omega, by omega, hfree, hhead hleast, hrun⟩
    · exact Or.inr ⟨i, le_rfl, by omega, hi, by omega, if_pos hi⟩

/-- `alloc_desc` marks the least free descriptor. -/
theorem allocDesc_marked (t : DiskTable) (L : List ℕ) :
    (t.free \ L.toFinset = ∅ ∧ (t.marked L).allocDesc = (-1, t.marked L)) ∨
    ∃ i ∈ t.free \ L.toFinset, (∀ j ∈ t.free \ L.toFinset, i ≤ j) ∧
      (t.marked L).allocDesc = ((i : ℤ), t.marked (L ++ [i])) := by
  rw [← free_marked]
  rcases (t.marked L).allocDescFrom_cases 0 8 with ⟨hnone, hrun⟩ | ⟨k, -, hk, hfree, hleast, hrun⟩
  · refine Or.inl ⟨Finset.eq_empty_of_forall_notMem ?_, hrun⟩
    intro i hi
    rw [mem_free] at hi
    exact hi.2 (hnone i (Nat.zero_le i) (by omega))
  · refine Or.inr ⟨k, mem_free.2 ⟨by omega, hfree⟩, ?_, ?_⟩
    · intro j hj
      by_contra hlt
      exact (mem_free.1 hj).2 (hleast j (Nat.zero_le j) (by omega))
    · rw [← marked_append]
      exact hrun

/-- Giving back what was marked in a clean table leaves no trace. -/
theorem freeDescs_marked (h : t.Clean) (hL : L.Nodup) (hfree : ∀ i ∈ L, i ∈ t.free) :
    L.foldlM (fun t i => t.freeDesc i) (t.marked L) = .ok t := by
  induction L with
  | nil => exact congrArg Except.ok t.marked_nil
  | cons i L ih =>
    rw [List.nodup_cons] at hL
    rw [List.forall_mem_cons] at hfree
    obtain ⟨hi, -⟩ := mem_free.1 hfree.1
    obtain ⟨hone, haddr⟩ := h i hfree.1
    have hused : (t.marked (i :: L)).diskFree i = 0 := if_pos List.mem_cons_self
    have hback : DiskTable.mk (Function.update t.desc i { t.desc i with addr := 0 })
        (Function.update (t.marked (i :: L)).diskFree i 1) = t.marked L := by
      refine congrArg₂ DiskTable.mk ?_ ?_
      · rw [← haddr]
        exact Function.update_eq_self i t.desc
      · funext j
        rw [Function.update_apply]
        by_cases hj : j = i
        · rw [if_pos hj, hj, if_neg hL.1, hone]
        · simp [marked, hj]
    rcases (t.marked (i :: L)).freeDesc_cases i with ⟨hge, -⟩ | ⟨-, hne, -⟩ | ⟨-, -, hrun⟩
    · omega
    · exact absurd hused hne
    · rw [List.foldlM_cons, hrun]
      exact (congrArg (fun t => L.foldlM (fun t i => t.freeDesc i) t) hback).trans (ih hL.2 hfree.2)

/-- The array holds `L`. -/
def Holds (idx : ℕ → ℤ) (L : List ℕ) : Prop := ∀ j (hj : j < L.length), idx j = L[j]

theorem Holds.update {idx : ℕ → ℤ} (h : Holds idx L) (r : ℤ) :
    Holds (Function.update idx L.length r) L := by
  intro j hj
  rw [Function.update_of_ne hj.ne]
  exact h j hj

theorem Holds.append {idx : ℕ → ℤ} (h : Holds idx L) (i : ℕ) :
    Holds (Function.update idx L.length i) (L ++ [i]) := by
  intro j hj
  rw [List.length_append, List.length_singleton] at hj
  rcases Nat.lt_succ_iff_lt_or_eq.1 hj with hlt | rfl
  · rw [Function.update_of_ne hlt.ne, List.getElem_append_left hlt]
    exact h j hlt
  · rw [Function.update_self, List.getElem_append_right le_rfl]
    simp

theorem Holds.map_toNat {idx : ℕ → ℤ} (h : Holds idx L) :
    (List.range L.length).map (fun j => (idx j).toNat) = L := by
  refine List.ext_getElem (by simp) ?_
  intro j hj hj'
  rw [List.getElem_map, List.getElem_range, h j hj', Int.toNat_natCast]

theorem freeDescs_eq {idx : ℕ → ℤ} (h : Holds idx L) (t : DiskTable) :
    t.freeDescs idx L.length = L.foldlM (fun t i => t.freeDesc i) t := by
  conv_rhs => rw [← h.map_toNat, List.foldlM_map]
  rfl

/-- The loop of `alloc3_desc` has taken the `i` least descriptors, and takes `n` more or gives back
those. -/
theorem alloc3DescFrom_eq (h : t.Clean) {i n : ℕ} (hi : i ≤ t.free.card) {idx : ℕ → ℤ}
    (hidx : Holds idx (least t.free i)) :
    (i + n ≤ t.free.card ∧ ∃ idx', Holds idx' (least t.free (i + n)) ∧
      (t.marked (least t.free i)).alloc3DescFrom idx i n =
        .ok (0, idx', t.marked (least t.free (i + n)))) ∨
    (t.free.card < i + n ∧ ∃ idx',
      (t.marked (least t.free i)).alloc3DescFrom idx i n = .ok (-1, idx', t)) := by
  induction n generalizing i idx with
  | zero => exact Or.inl ⟨hi, idx, hidx, rfl⟩
  | succ n ih =>
    have hlen := length_least hi
    rcases t.allocDesc_marked (least t.free i) with ⟨hnone, hrun⟩ | ⟨k, hk, hle, hrun⟩
    · -- nothing is left: the rollback
      have hcard : t.free.card ≤ i := by
        have hsub := Finset.card_le_card (Finset.sdiff_eq_empty_iff_subset.1 hnone)
        rwa [List.toFinset_card_of_nodup (nodup_least _ _), hlen] at hsub
      refine Or.inr ⟨by omega, Function.update idx i (-1), ?_⟩
      have hroll : (t.marked (least t.free i)).freeDescs (Function.update idx i (-1)) i = .ok t := by
        have hholds := hidx.update (-1)
        rw [hlen] at hholds
        have heq := freeDescs_eq hholds (t.marked (least t.free i))
        rw [hlen] at heq
        rw [heq]
        exact freeDescs_marked h (nodup_least _ _) fun j hj => mem_of_mem_least hj
      rw [alloc3DescFrom, hrun]
      dsimp only
      rw [if_pos (by norm_num), hroll]
      rfl
    · have hcard : i + 1 ≤ t.free.card := by
        by_contra hge
        rw [least_card (by omega), Finset.sdiff_self] at hk
        exact absurd hk (Finset.notMem_empty k)
      have hholds := hidx.append k
      rw [hlen, ← least_succ hk hle] at hholds
      have hnext : (t.marked (least t.free i)).alloc3DescFrom idx i (n + 1) =
          (t.marked (least t.free (i + 1))).alloc3DescFrom (Function.update idx i k) (i + 1) n := by
        rw [alloc3DescFrom, hrun, ← least_succ hk hle]
        exact if_neg (by omega)
      rw [hnext, show i + (n + 1) = i + 1 + n by omega]
      exact ih hcard hholds

/-- `alloc3_desc` takes the three least free descriptors, or it changes nothing. -/
theorem alloc3Desc_eq (h : t.Clean) (idx : ℕ → ℤ) :
    (3 ≤ t.free.card ∧ ∃ idx', Holds idx' (least t.free 3) ∧
      t.alloc3Desc idx = .ok (0, idx', t.marked (least t.free 3))) ∨
    (t.free.card < 3 ∧ ∃ idx', t.alloc3Desc idx = .ok (-1, idx', t)) := by
  have hrun := alloc3DescFrom_eq (n := 3) h (Nat.zero_le _)
    (show Holds idx (least t.free 0) from fun j hj => absurd hj (Nat.not_lt_zero j))
  rwa [least_zero, marked_nil] at hrun

theorem Clean.marked (h : t.Clean) (L : List ℕ) : (t.marked L).Clean := by
  intro i hi
  rw [free_marked, Finset.mem_sdiff, List.mem_toFinset] at hi
  exact ⟨(if_neg hi.2).trans (h i hi.1).1, (h i hi.1).2⟩

/-- `free_desc` on a clean table: it panics, or the descriptor is free and the table is clean. -/
theorem Clean.freeDesc (h : t.Clean) (i : ℕ) :
    (8 ≤ i ∧ t.freeDesc i = .error "virtio_disk_intr 1") ∨
    (i < 8 ∧ i ∈ t.free ∧ t.freeDesc i = .error "virtio_disk_intr 2") ∨
    (i < 8 ∧ i ∉ t.free ∧ ∃ t', t.freeDesc i = .ok t' ∧ t'.Clean ∧ t'.free = insert i t.free) := by
  rcases t.freeDesc_cases i with ⟨hge, hrun⟩ | ⟨hlt, hne, hrun⟩ | ⟨hlt, hzero, hrun⟩
  · exact Or.inl ⟨hge, hrun⟩
  · exact Or.inr (Or.inl ⟨hlt, mem_free.2 ⟨hlt, hne⟩, hrun⟩)
  · have hfree : DiskTable.free ⟨Function.update t.desc i { t.desc i with addr := 0 },
        Function.update t.diskFree i 1⟩ = insert i t.free := by
      ext j
      rw [Finset.mem_insert, mem_free, mem_free]
      by_cases hj : j = i <;> simp [hj, hlt]
    refine Or.inr (Or.inr ⟨hlt, fun hin => (mem_free.1 hin).2 hzero, _, hrun, ?_, hfree⟩)
    intro j hj
    rw [hfree, Finset.mem_insert] at hj
    by_cases hji : j = i
    · simp [hji]
    · simpa [hji] using h j (hj.resolve_left hji)

/-- What the driver writes to a descriptor that is not free. -/
theorem Clean.write {i : ℕ} (h : t.Clean) (hi : i ∉ t.free) (d : VirtqDesc) :
    DiskTable.Clean { t with desc := Function.update t.desc i d } := by
  intro j hj
  have hne : j ≠ i := by
    rintro rfl
    exact hi hj
  exact ⟨(h j hj).1, (congrArg VirtqDesc.addr (Function.update_of_ne hne d t.desc)).trans (h j hj).2⟩

theorem clean_boot : boot.Clean := by
  intro i hi
  exact absurd rfl (mem_free.1 hi).2

theorem free_boot : boot.free = ∅ :=
  Finset.eq_empty_of_forall_notMem fun _ hi => (mem_free.1 hi).2 rfl

end DiskTable

/-! ### Runs -/

/-- A call, or an assignment to a descriptor. -/
inductive DescOp
  | allocDesc
  | alloc3Desc (idx : ℕ → ℤ)
  | freeDesc (i : ℕ)
  | write (i : ℕ) (d : VirtqDesc)

/-- What a call answers. -/
inductive DescAnswer
  | index (ret : ℤ)
  | three (ret : ℤ) (idx : ℕ → ℤ)
  | done
  | panicked (message : String)

/-- The functions on the table.  A panic does not return: the runs of the code are those in which only the
last call panics. -/
def descSystem : System DiskTable DescOp DescAnswer where
  step t
    | .allocDesc => (.index t.allocDesc.1, t.allocDesc.2)
    | .alloc3Desc idx =>
      match t.alloc3Desc idx with
      | .ok (ret, idx, t) => (.three ret idx, t)
      | .error message => (.panicked message, t)
    | .freeDesc i =>
      match t.freeDesc i with
      | .ok t => (.done, t)
      | .error message => (.panicked message, t)
    | .write i d => (.done, { t with desc := Function.update t.desc i d })
  ok t
    | .write i _ => i ∉ t.free
    | _ => True

/-- A set of numbers, of which the least are taken. -/
def leastSystem : System (Finset ℕ) DescOp (Except String (Option (List ℕ))) where
  step F
    | .allocDesc => ((.ok (takeLeast F 1).1), (takeLeast F 1).2)
    | .alloc3Desc _ => (.ok (takeLeast F 3).1, (takeLeast F 3).2)
    | .freeDesc i =>
      if 8 ≤ i then (.error "virtio_disk_intr 1", F)
      else if i ∈ F then (.error "virtio_disk_intr 2", F)
      else (.ok none, insert i F)
    | .write _ _ => (.ok none, F)
  ok _ _ := True

/-- The indices that a call gives out. -/
def DescAnswer.given : DescAnswer → Except String (Option (List ℕ))
  | .index ret => .ok (if ret < 0 then none else some [ret.toNat])
  | .three ret idx =>
    .ok (if ret < 0 then none else some ((List.range 3).map fun j => (idx j).toNat))
  | .done => .ok none
  | .panicked message => .error message

namespace DiskTable

variable {t : DiskTable}

/-- Some of the free descriptors are marked as used. -/
theorem free_marked_least (t : DiskTable) {n : ℕ} (hn : n ≤ t.free.card) :
    (t.marked (least t.free n)).free = (takeLeast t.free n).2 := by
  rw [takeLeast, if_pos hn, free_marked]

theorem allocDesc_step (h : t.Clean) :
    (DescAnswer.index t.allocDesc.1).given = .ok (takeLeast t.free 1).1 ∧
      t.allocDesc.2.Clean ∧ t.allocDesc.2.free = (takeLeast t.free 1).2 := by
  rcases t.allocDesc_marked [] with ⟨hnone, hrun⟩ | ⟨i, hi, hle, hrun⟩ <;> rw [marked_nil] at hrun
  · have hcard : t.free.card = 0 := by simpa using hnone
    rw [hrun, takeLeast, if_neg (by omega)]
    exact ⟨rfl, h, rfl⟩
  · have hleast : least t.free 1 = [i] := least_succ hi hle
    have hcard : 1 ≤ t.free.card := Finset.card_pos.2 ⟨i, (Finset.mem_sdiff.1 hi).1⟩
    rw [hrun, List.nil_append, ← hleast]
    refine ⟨?_, h.marked _, t.free_marked_least hcard⟩
    rw [takeLeast, if_pos hcard, hleast]
    simp [DescAnswer.given]

theorem alloc3Desc_step (h : t.Clean) (idx : ℕ → ℤ) : ∃ ret idx' t',
    t.alloc3Desc idx = .ok (ret, idx', t') ∧
      (DescAnswer.three ret idx').given = .ok (takeLeast t.free 3).1 ∧
      t'.Clean ∧ t'.free = (takeLeast t.free 3).2 := by
  rcases alloc3Desc_eq h idx with ⟨hcard, idx', hidx, hrun⟩ | ⟨hcard, idx', hrun⟩
  · refine ⟨0, idx', _, hrun, ?_, h.marked _, t.free_marked_least hcard⟩
    have hL : (List.range 3).map (fun j => (idx' j).toNat) = least t.free 3 := by
      have hmap := hidx.map_toNat
      rwa [length_least hcard] at hmap
    rw [takeLeast, if_pos hcard, ← hL]
    rfl
  · refine ⟨-1, idx', t, hrun, ?_, h, ?_⟩ <;> rw [takeLeast, if_neg (by omega)]
    rfl

end DiskTable

/-- One step: the set of the free descriptors is the set of numbers. -/
theorem descSystem_step {t : DiskTable} {o : DescOp} (h : t.Clean) (hok : descSystem.ok t o) :
    (descSystem.step t o).1.given = (leastSystem.step t.free o).1 ∧
      (descSystem.step t o).2.Clean ∧
      (descSystem.step t o).2.free = (leastSystem.step t.free o).2 := by
  cases o with
  | allocDesc => exact DiskTable.allocDesc_step h
  | alloc3Desc idx =>
    obtain ⟨ret, idx', t', hrun, hstep⟩ := DiskTable.alloc3Desc_step h idx
    unfold descSystem
    dsimp only
    rw [hrun]
    exact hstep
  | freeDesc i =>
    unfold descSystem leastSystem
    dsimp only
    rcases h.freeDesc i with ⟨hge, hrun⟩ | ⟨hlt, hin, hrun⟩ | ⟨hlt, hout, t', hrun, hclean, hfree⟩
    · rw [hrun, if_pos hge]
      exact ⟨rfl, h, rfl⟩
    · rw [hrun, if_neg (by omega), if_pos hin]
      exact ⟨rfl, h, rfl⟩
    · rw [hrun, if_neg (by omega), if_neg hout]
      exact ⟨rfl, hclean, hfree⟩
  | write i d => exact ⟨rfl, h.write hok d, rfl⟩

/-- **The least descriptors are given out.**  Whatever the order of the calls, they answer as a set of
numbers does of which the least is taken, or the three least; the set is that of the free descriptors.
A call of `alloc3_desc` that finds fewer than three does not change the table. -/
theorem least_descriptors_first {t : DiskTable} (h : t.Clean) {ops : List DescOp}
    (hok : descSystem.Admissible t ops) :
    (descSystem.results t ops).map DescAnswer.given = leastSystem.results t.free ops ∧
    (descSystem.final t ops).free = leastSystem.final t.free ops ∧
    ∀ idx idx' t', (descSystem.final t ops).alloc3Desc idx = .ok (-1, idx', t') →
      t' = descSystem.final t ops := by
  obtain ⟨hres, hclean, hfree⟩ := System.run_refines_map (S := descSystem) (A := leastSystem)
    (R := fun t F => t.Clean ∧ t.free = F)
    (by
      rintro t F o ⟨hclean, rfl⟩ hok
      exact descSystem_step hclean hok)
    (⟨h, rfl⟩ : t.Clean ∧ t.free = t.free) hok
  refine ⟨hres, hfree, ?_⟩
  intro idx idx' t' hrun
  rcases DiskTable.alloc3Desc_eq hclean idx with ⟨-, idx'', -, hrun'⟩ | ⟨-, idx'', hrun'⟩ <;>
    rw [hrun] at hrun'
  · cases hrun'
  · exact congrArg (fun r => r.2.2) (Except.ok.inj hrun')

/-- Three descriptors are wanted, three are freed, one is freed again, and one is wanted. -/
def bootCalls : List DescOp :=
  [.alloc3Desc fun _ => 0, .freeDesc 3, .freeDesc 1, .freeDesc 6, .freeDesc 1, .allocDesc]

theorem least_descriptors_first_sample :
    (descSystem.results .boot bootCalls).map DescAnswer.given = leastSystem.results ∅ bootCalls := by
  have hok : descSystem.Admissible .boot bootCalls :=
    ⟨trivial, trivial, trivial, trivial, trivial, trivial, trivial⟩
  rw [← DiskTable.free_boot]
  exact (least_descriptors_first DiskTable.clean_boot hok).1

/-! ### A request -/

namespace DiskTable

variable {t : DiskTable} {i : ℕ} {L : List ℕ}

/-- The descriptors are linked, and the last one has no link. -/
def Links (t : DiskTable) : List ℕ → Prop
  | [] => True
  | [i] => (t.desc i).hasNext = false
  | i :: j :: L => (t.desc i).hasNext = true ∧ (t.desc i).next.toNat = j ∧ Links t (j :: L)

/-- Following the links leads along the list. -/
theorem Links.index_eq (h : t.Links (i :: L)) {k : ℕ} (hk : k < (i :: L).length) :
    t.index i k = (i :: L)[k] := by
  induction L generalizing i k with
  | nil =>
    obtain rfl : k = 0 := by simpa using hk
    rfl
  | cons j L ih =>
    cases k with
    | zero => rfl
    | succ k =>
      have hk' : k < (j :: L).length := by simpa using hk
      rw [List.getElem_cons_succ, ← ih h.2.2 hk', index, Function.iterate_succ_apply, h.2.1]
      rfl

theorem Links.hasNext_eq (h : t.Links (i :: L)) {k : ℕ} (hk : k < (i :: L).length) :
    (t.desc (i :: L)[k]).hasNext = decide (k < L.length) := by
  induction L generalizing i k with
  | nil =>
    obtain rfl : k = 0 := by simpa using hk
    exact h
  | cons j L ih =>
    cases k with
    | zero => simpa using h.1
    | succ k => simpa using ih h.2.2 (k := k) (by simpa using hk)

theorem Links.mem_iff (h : t.Links (i :: L)) {j : ℕ} :
    j ∈ i :: L ↔ ∃ k < L.length + 1, t.index i k = j := by
  rw [List.mem_iff_getElem]
  constructor
  · rintro ⟨k, hk, rfl⟩
    exact ⟨k, hk, h.index_eq hk⟩
  · rintro ⟨k, hk, rfl⟩
    exact ⟨k, hk, (h.index_eq hk).symm⟩

/-- A linked list of descriptors in use is a chain that can be freed. -/
theorem Links.ends (h : t.Links (i :: L)) (hnodup : (i :: L).Nodup)
    (hused : ∀ j ∈ i :: L, j < 8 ∧ t.diskFree j = 0) : t.Ends i L.length := by
  have haccepts : ∀ k ≤ L.length, t.Accepts i k := by
    intro k hk
    have hk' : k < (i :: L).length := Nat.lt_succ_of_le hk
    have hmem := hused _ (List.getElem_mem hk')
    rw [← h.index_eq hk'] at hmem
    refine ⟨hmem.1, hmem.2, fun l hl => ?_⟩
    rw [h.index_eq hk', h.index_eq (hl.trans hk'), Ne, hnodup.getElem_inj_iff]
    exact hl.ne
  refine ⟨fun k hk => ⟨haccepts k hk.le, ?_⟩, haccepts _ le_rfl, ?_⟩
  · rw [h.index_eq (hk.trans (Nat.lt_succ_self _)), h.hasNext_eq]
    exact decide_eq_true hk
  · rw [h.index_eq (Nat.lt_succ_self _), h.hasNext_eq]
    exact decide_eq_false (lt_irrefl _)

end DiskTable

/-- `free_chain` frees a linked list of descriptors in use, and nothing else. -/
theorem freeChain_links {t : DiskTable} {i : ℕ} {L : List ℕ} (h : t.Links (i :: L))
    (hnodup : (i :: L).Nodup) (hused : ∀ j ∈ i :: L, j < 8 ∧ t.diskFree j = 0) :
    (freeChain t i).control = .returned ∧
    (∀ j ∈ i :: L, (freeChain t i).table.diskFree j = 1 ∧
      ((freeChain t i).table.desc j).addr = 0) ∧
    ∀ j ∉ i :: L, (freeChain t i).table.desc j = t.desc j ∧
      (freeChain t i).table.diskFree j = t.diskFree j := by
  have hends := h.ends hnodup hused
  have hret := freeChain_returned_of_ends hends
  obtain ⟨hinv, -⟩ := freeChain_inv t i
  obtain ⟨n, hfrees, hends'⟩ := hinv.returned hret
  -- a chain has one end
  obtain rfl : n = L.length := by
    rcases lt_trichotomy n L.length with hlt | heq | hgt
    · exact absurd hends.reaches (hends'.not_reaches hlt)
    · exact heq
    · exact absurd hends'.reaches (hends.not_reaches hgt)
  have hfreed := hinv.freed
  rw [hfrees] at hfreed
  refine ⟨hret, ?_, ?_⟩
  · intro j hj
    obtain ⟨k, hk, rfl⟩ := h.mem_iff.1 hj
    obtain ⟨hdesc, hone⟩ := hfreed.freed k hk
    exact ⟨hone, by rw [hdesc]⟩
  · intro j hj
    exact hfreed.kept j fun k hk heq => hj (h.mem_iff.2 ⟨k, hk, heq⟩)

/-- **A request and its completion.**  The driver links the three descriptors of `alloc3_desc` and fills
them in, and does not write to free ones.  Then `free_chain` frees exactly those three, and the table is
clean as before. -/
theorem free_chain_undoes_alloc3 {t t' t'' : DiskTable} {idx idx' : ℕ → ℤ} (h : t.Clean)
    (halloc : t.alloc3Desc idx = .ok (0, idx', t')) (h'' : t''.Clean)
    (hfree : t''.diskFree = t'.diskFree)
    (hlinks : t''.Links [(idx' 0).toNat, (idx' 1).toNat, (idx' 2).toNat]) :
    (freeChain t'' (idx' 0).toNat).control = .returned ∧
    (freeChain t'' (idx' 0).toNat).table.diskFree = t.diskFree ∧
    (freeChain t'' (idx' 0).toNat).table.Clean := by
  rcases DiskTable.alloc3Desc_eq h idx with ⟨hcard, idx₁, hidx, hrun⟩ | ⟨-, idx₁, hrun⟩ <;>
    rw [halloc] at hrun
  swap
  · cases hrun
  obtain ⟨rfl, rfl⟩ : idx' = idx₁ ∧ t' = t.marked (least t.free 3) := by
    have heq := Prod.mk.inj (Except.ok.inj hrun)
    exact Prod.mk.inj heq.2
  have hL : [(idx' 0).toNat, (idx' 1).toNat, (idx' 2).toNat] = least t.free 3 := by
    have hmap := hidx.map_toNat
    rwa [length_least hcard] at hmap
  have hmem : ∀ j ∈ least t.free 3, j ∈ t.free := fun j hj => mem_of_mem_least hj
  have hnodup := nodup_least t.free 3
  have hdisk : ∀ j, t''.diskFree j = if j ∈ least t.free 3 then 0 else t.diskFree j := by
    intro j
    rw [hfree]
    rfl
  rw [← hL] at hmem hnodup hdisk
  generalize (idx' 0).toNat = i at *
  generalize [(idx' 1).toNat, (idx' 2).toNat] = L at *
  obtain ⟨hret, hin, hout⟩ := freeChain_links hlinks hnodup fun j hj =>
    ⟨(DiskTable.mem_free.1 (hmem j hj)).1, (hdisk j).trans (if_pos hj)⟩
  refine ⟨hret, ?_, ?_⟩
  · funext j
    by_cases hj : j ∈ i :: L
    · rw [(hin j hj).1, (h j (hmem j hj)).1]
    · rw [(hout j hj).2, hdisk, if_neg hj]
  · intro j hj
    by_cases hjL : j ∈ i :: L
    · exact hin j hjL
    · obtain ⟨hdesc, hflag⟩ := hout j hjL
      rw [DiskTable.mem_free, hflag] at hj
      rw [hdesc, hflag]
      exact h'' j (DiskTable.mem_free.2 hj)

/-- All descriptors are free. -/
def allFree : DiskTable := ⟨fun _ => ⟨0, 0, 0, 0⟩, fun _ => 1⟩

/-- The first three descriptors are in use, linked and filled in. -/
def requested : DiskTable where
  desc i :=
    if i < 2 then ⟨0x80300000, 4096, VRING_DESC_F_NEXT, BitVec.ofNat 16 (i + 1)⟩ else ⟨0, 0, 0, 0⟩
  diskFree := Function.update (Function.update (Function.update allFree.diskFree 0 0) 1 0) 2 0

theorem free_chain_undoes_alloc3_sample :
    (freeChain requested 0).control = .returned ∧
    (freeChain requested 0).table.diskFree = allFree.diskFree ∧
    (freeChain requested 0).table.Clean := by
  have hclean : allFree.Clean := by
    intro i _
    exact ⟨rfl, rfl⟩
  have hclean' : requested.Clean := by
    show ∀ i ∈ requested.free, requested.diskFree i = 1 ∧ (requested.desc i).addr = 0
    decide +kernel
  have halloc : allFree.alloc3Desc (fun _ => 0) = .ok (0,
      Function.update (Function.update (Function.update (fun _ => 0) 0 0) 1 1) 2 2,
      ⟨allFree.desc, requested.diskFree⟩) := rfl
  exact free_chain_undoes_alloc3 hclean halloc hclean' rfl ⟨rfl, rfl, rfl, rfl, rfl⟩

end HxcOS
