import HxcOS.Lib.System

/-!
# Exploring all runs

For a component whose runs, seen through an abstraction, are finite in number, all of them can be
explored by computation.  `explore succs good n tr a` follows every run from the abstract state `a`,
whose steps so far had the labels `tr`; it holds when `good` does along every one of them and none has
`n` steps or more.  What the exploration finds is true of all admissible runs of the component
(`System.run_explore`).
-/

namespace OpSystem

variable {σ ω ρ α ε : Type*}

/-- Every run from `a` has fewer than `n` steps, and is good all along. -/
def explore (succs : α → List (ε × α)) (good : List ε → α → Bool) : ℕ → List ε → α → Bool
  | 0, _, _ => false
  | n + 1, tr, a => good tr a && (succs a).all fun e => explore succs good n (tr ++ [e.1]) e.2

section Explore

variable {succs : α → List (ε × α)} {good : List ε → α → Bool} {n : ℕ} {tr : List ε} {a a' : α}

theorem good_of_explore (h : explore succs good n tr a = true) : good tr a = true := by
  cases n with
  | zero => cases h
  | succ n => exact (Bool.and_eq_true_iff.1 h).1

/-- A step. -/
theorem explore_succ {e : ε} (h : explore succs good n tr a = true) (ha : (e, a') ∈ succs a) :
    ∃ k, n = k + 1 ∧ explore succs good k (tr ++ [e]) a' = true := by
  cases n with
  | zero => cases h
  | succ n => exact ⟨n, rfl, List.all_eq_true.1 (Bool.and_eq_true_iff.1 h).2 _ ha⟩

end Explore

/-- **Exploration rule.**  When every admissible step is, seen through `R`, one of the steps that are
explored, what was found holds of every admissible run. -/
theorem System.run_explore {S : System σ ω ρ} {succs : α → List (ε × α)}
    {good : List ε → α → Bool} {label : ω → ε} {R : σ → α → Prop}
    (hstep : ∀ s a tr o, R s a → good tr a = true → S.ok s o →
      ∃ a', (label o, a') ∈ succs a ∧ R (S.step s o).2 a')
    {n : ℕ} {tr : List ε} {s : σ} {a : α} (hR : R s a) (h : explore succs good n tr a = true)
    {os : List ω} (hok : S.Admissible s os) :
    os.length < n ∧ ∃ a', R (S.final s os) a' ∧ good (tr ++ os.map label) a' = true := by
  induction os generalizing n tr s a with
  | nil =>
    refine ⟨?_, a, hR, by simpa using good_of_explore h⟩
    rcases n with _ | n
    · cases h
    · exact Nat.succ_pos n
  | cons o os ih =>
    obtain ⟨a₁, hmem, hR₁⟩ := hstep s a tr o hR (good_of_explore h) hok.1
    obtain ⟨k, rfl, hk⟩ := explore_succ h hmem
    obtain ⟨hlen, a', hR', hgood⟩ := ih hR₁ hk hok.2
    refine ⟨by rw [List.length_cons]; omega, a', hR', ?_⟩
    rwa [List.append_assoc, List.singleton_append] at hgood

end OpSystem
