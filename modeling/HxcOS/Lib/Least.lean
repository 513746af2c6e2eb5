import Mathlib.Tactic
import Mathlib.Data.Finset.Sort

/-!
# The least elements of a finite set

An allocator of numbered resources that looks for a free number from below gives out the least one.
`least F n` are the `n` least elements of `F` in order, all of `F` when there are not so many, and
`takeLeast F n` takes them out of `F` when there are that many and takes nothing otherwise.
-/

namespace LeastFirst

variable {ι : Type*} [LinearOrder ι]

/-- The `n` least elements. -/
def least (F : Finset ι) (n : ℕ) : List ι := F.sort.take n

/-- All of the `n` least elements or nothing. -/
def takeLeast (F : Finset ι) (n : ℕ) : Option (List ι) × Finset ι :=
  if n ≤ F.card then (some (least F n), F \ (least F n).toFinset) else (none, F)

variable {F : Finset ι} {n : ℕ}

@[simp] theorem least_zero (F : Finset ι) : least F 0 = [] := rfl

theorem length_least (h : n ≤ F.card) : (least F n).length = n := by
  rw [least, List.length_take, Finset.length_sort, min_eq_left h]

theorem nodup_least (F : Finset ι) (n : ℕ) : (least F n).Nodup :=
  (F.sort_nodup _).sublist (List.take_sublist n _)

theorem mem_of_mem_least {i : ι} (h : i ∈ least F n) : i ∈ F :=
  (Finset.mem_sort _).1 (List.mem_of_mem_take h)

/-- When the set has no more elements, these are all. -/
theorem least_card (h : F.card ≤ n) : (least F n).toFinset = F := by
  rw [least, List.take_of_length_le (by rwa [Finset.length_sort]), Finset.sort_toFinset]

/-- The next one is the least of those that are left. -/
theorem least_succ {i : ι} (hi : i ∈ F \ (least F n).toFinset)
    (hle : ∀ j ∈ F \ (least F n).toFinset, i ≤ j) : least F (n + 1) = least F n ++ [i] := by
  have hn : n < F.sort.length := by
    by_contra hge
    rw [not_lt, Finset.length_sort] at hge
    rw [least_card hge, Finset.sdiff_self] at hi
    exact absurd hi (Finset.notMem_empty i)
  have hnext : F.sort[n] ∈ F \ (least F n).toFinset := by
    rw [Finset.mem_sdiff, List.mem_toFinset]
    refine ⟨(Finset.mem_sort _).1 (List.getElem_mem hn), ?_⟩
    intro hin
    obtain ⟨k, hk, heq⟩ := List.mem_take_iff_getElem.1 hin
    have := (List.Nodup.getElem_inj_iff (F.sort_nodup _)).1 heq
    omega
  obtain ⟨k, hk, rfl⟩ := List.getElem_of_mem ((Finset.mem_sort (· ≤ ·)).2 (Finset.mem_sdiff.1 hi).1)
  have hnk : n ≤ k := by
    by_contra hlt
    refine (Finset.mem_sdiff.1 hi).2 (List.mem_toFinset.2 ?_)
    exact List.mem_take_iff_getElem.2 ⟨k, by omega, rfl⟩
  have hkn : k = n := by
    by_contra hne
    have hlt := List.pairwise_iff_getElem.1 F.sortedLT_sort.pairwise n k hn hk (by omega)
    exact absurd (hle _ hnext) (not_le.2 hlt)
  subst hkn
  exact (List.take_append_getElem hk).symm

end LeastFirst
