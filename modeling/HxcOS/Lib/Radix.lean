import Mathlib.Data.Option.Basic
import Mathlib.Logic.Function.Basic
import Mathlib.Tactic

/-!
# Forests of radix trees of bounded depth

A `Forest` is a family of trees whose nodes are cells of some store: `root t` is the root of the
tree `t`, and `child q i` is what entry `i` of the node `q` points to.  `walk t π` follows a path
from the root; a path lists its indices from the inside out, the last one taken first, so that
`walk t (i :: π)` is one more step after `walk t π`.

That the trees are trees, and that no two of them share a node, is expressed by an inverse of
`walk`: `Placed n F place` says that for paths of length at most `n` the cell `p` is at `(t, π)`
exactly when `place p = some (t, π)`.  Since `place` is a function, no cell is at two places.
The three ways of changing a forest keep such an inverse:

* `Placed.congr`: changes outside the nodes of depth less than `n`;
* `Placed.link`: an empty entry is made to point to a cell that is at no place yet;
* `Placed.unlink`: an entry of a node of depth `n - 1` is emptied;
* `Placed.addRoot`: a new tree is started.
-/

namespace Radix

variable {ι P I : Type*}

/-- A family of trees: the root of each tree and the entries of each node. -/
structure Forest (ι P I : Type*) where
  root : ι → Option P
  child : P → I → Option P

namespace Forest

/-- Follow a path, given with its last index first. -/
def walk (F : Forest ι P I) (t : ι) : List I → Option P
  | [] => F.root t
  | i :: π => (F.walk t π).bind fun q => F.child q i

@[simp] theorem walk_nil (F : Forest ι P I) (t : ι) : F.walk t [] = F.root t := rfl

theorem walk_cons (F : Forest ι P I) (t : ι) (i : I) (π : List I) :
    F.walk t (i :: π) = (F.walk t π).bind fun q => F.child q i := rfl

theorem walk_cons_of_eq {F : Forest ι P I} {t : ι} {π : List I} {q : P}
    (h : F.walk t π = some q) (i : I) : F.walk t (i :: π) = F.child q i := by
  rw [walk_cons, h]; rfl

/-- Only the entries of the nodes on the way matter. -/
theorem walk_congr {F F' : Forest ι P I} {n : ℕ} (hroot : F'.root = F.root)
    (hchild : ∀ t π q, π.length < n → F.walk t π = some q → F'.child q = F.child q)
    {t : ι} {π : List I} (hπ : π.length ≤ n) : F'.walk t π = F.walk t π := by
  induction π with
  | nil => rw [walk_nil, walk_nil, hroot]
  | cons i π ih =>
    rw [List.length_cons] at hπ
    rw [walk_cons, walk_cons, ih (by omega)]
    cases hq : F.walk t π with
    | none => rfl
    | some q => rw [Option.bind_some, Option.bind_some, hchild t π q (by omega) hq]

end Forest

/-- `place` inverts the walks along paths of length at most `n`. -/
def Placed (n : ℕ) (F : Forest ι P I) (place : P → Option (ι × List I)) : Prop :=
  ∀ t π p, π.length ≤ n → (F.walk t π = some p ↔ place p = some (t, π))

namespace Placed

variable {n : ℕ} {F F' : Forest ι P I} {place : P → Option (ι × List I)} {t : ι} {π : List I}
  {i : I} {p q : P}

theorem place_eq (h : Placed n F place) (hπ : π.length ≤ n) (hp : F.walk t π = some p) :
    place p = some (t, π) := (h t π p hπ).1 hp

/-- No cell is at two places. -/
theorem unique (h : Placed n F place) {u : ι} {ρ : List I} (hπ : π.length ≤ n)
    (hρ : ρ.length ≤ n) (hp : F.walk t π = some p) (hp' : F.walk u ρ = some p) :
    t = u ∧ π = ρ := by
  have heq := (h.place_eq hπ hp).symm.trans (h.place_eq hρ hp')
  simpa using heq

theorem congr (h : Placed n F place) (hroot : F'.root = F.root)
    (hchild : ∀ t π q, π.length < n → F.walk t π = some q → F'.child q = F.child q) :
    Placed n F' place := by
  intro t π p hπ
  rw [Forest.walk_congr hroot hchild hπ]
  exact h t π p hπ

section Entry

variable [DecidableEq ι] [DecidableEq I]

/-- Changing the one entry `i` of the node `q` at `(t, π)` changes the walks that end with it and
no others, provided that nothing hangs below the entry before or after the change. -/
theorem walk_set (h : Placed n F place) (hroot : F'.root = F.root)
    (hq : F.walk t π = some q) (hπ : π.length < n)
    (hold : F.child q i = none ∨ π.length + 1 = n)
    (hnew : ∀ p, F'.child q i = some p → π.length + 1 < n → ∀ j, F'.child p j = none)
    (hrest : ∀ u ρ q' j, ρ.length < n → F.walk u ρ = some q' → (q' ≠ q ∨ j ≠ i) →
      F'.child q' j = F.child q' j)
    {u : ι} {ρ : List I} (hρ : ρ.length ≤ n) :
    F'.walk u ρ = if u = t ∧ ρ = i :: π then F'.child q i else F.walk u ρ := by
  induction ρ with
  | nil => rw [if_neg (by simp), Forest.walk_nil, Forest.walk_nil, hroot]
  | cons j ρ ih =>
    rw [List.length_cons] at hρ
    rw [Forest.walk_cons, ih (by omega)]
    by_cases hat : u = t ∧ ρ = i :: π
    · -- below the changed entry there is nothing, before or after
      obtain ⟨rfl, rfl⟩ := hat
      rw [List.length_cons] at hρ
      have hnone : F.child q i = none := hold.resolve_right (by omega)
      have hne : ¬ (u = u ∧ j :: i :: π = i :: π) := by
        rintro ⟨-, heq⟩
        simpa using congrArg List.length heq
      rw [if_pos ⟨rfl, rfl⟩, if_neg hne, Forest.walk_cons, Forest.walk_cons_of_eq hq, hnone]
      cases hp : F'.child q i with
      | none => rfl
      | some p => rw [Option.bind_some, hnew p hp (by omega), Option.bind_none]
    · rw [if_neg hat]
      cases hq' : F.walk u ρ with
      | none =>
        have hne : ¬ (u = t ∧ j :: ρ = i :: π) := by
          rintro ⟨rfl, heq⟩
          rw [List.cons.injEq] at heq
          rw [heq.2, hq] at hq'
          cases hq'
        rw [if_neg hne, Forest.walk_cons, hq', Option.bind_none, Option.bind_none]
      | some q' =>
        rw [Option.bind_some, Forest.walk_cons, hq', Option.bind_some]
        by_cases hsame : u = t ∧ j :: ρ = i :: π
        · obtain ⟨rfl, heq⟩ := hsame
          obtain ⟨rfl, rfl⟩ := List.cons.inj heq
          rw [if_pos ⟨rfl, rfl⟩, ← Option.some.inj (hq.symm.trans hq')]
        · rw [if_neg hsame]
          refine hrest u ρ q' j (by omega) hq' ?_
          by_contra hcon
          obtain ⟨rfl, rfl⟩ : q' = q ∧ j = i := by
            constructor <;> by_contra hne <;> exact hcon (by simp [hne])
          obtain ⟨rfl, rfl⟩ := h.unique (by omega) (by omega) hq' hq
          exact hsame ⟨rfl, rfl⟩

variable [DecidableEq P]

/-- An empty entry is made to point to a cell that was at no place. -/
theorem link (h : Placed n F place) (hroot : F'.root = F.root)
    (hq : F.walk t π = some q) (hπ : π.length < n) (hfree : F.child q i = none)
    (hp : place p = none) (hchild : F'.child q i = some p)
    (hempty : π.length + 1 < n → ∀ j, F'.child p j = none)
    (hrest : ∀ u ρ q' j, ρ.length < n → F.walk u ρ = some q' → (q' ≠ q ∨ j ≠ i) →
      F'.child q' j = F.child q' j) :
    Placed n F' (Function.update place p (some (t, i :: π))) := by
  intro u ρ p' hρ
  have hnew : ∀ p₁, F'.child q i = some p₁ → π.length + 1 < n → ∀ j, F'.child p₁ j = none := by
    intro p₁ hp₁
    rw [← Option.some.inj (hchild.symm.trans hp₁)]
    exact hempty
  rw [h.walk_set hroot hq hπ (Or.inl hfree) hnew hrest hρ, hchild, Function.update_apply]
  by_cases hat : u = t ∧ ρ = i :: π
  · obtain ⟨rfl, rfl⟩ := hat
    rw [if_pos ⟨rfl, rfl⟩]
    by_cases hpp : p' = p
    · simp [hpp]
    · rw [if_neg hpp, ← h u (i :: π) p' hρ, Forest.walk_cons_of_eq hq, hfree]
      simp [Ne.symm hpp]
  · rw [if_neg hat]
    by_cases hpp : p' = p
    · subst hpp
      rw [if_pos rfl, h u ρ p' hρ, hp]
      simp only [reduceCtorEq, Option.some.injEq, Prod.mk.injEq, false_iff]
      rintro ⟨rfl, rfl⟩
      exact hat ⟨rfl, rfl⟩
    · rw [if_neg hpp, h u ρ p' hρ]

/-- An entry of a node of depth `n - 1` is emptied. -/
theorem unlink (h : Placed n F place) (hroot : F'.root = F.root)
    (hq : F.walk t π = some q) (hπ : π.length + 1 = n) (hold : F.child q i = some p)
    (hchild : F'.child q i = none)
    (hrest : ∀ u ρ q' j, ρ.length < n → F.walk u ρ = some q' → (q' ≠ q ∨ j ≠ i) →
      F'.child q' j = F.child q' j) :
    Placed n F' (Function.update place p none) := by
  intro u ρ p' hρ
  have hnew : ∀ p₁, F'.child q i = some p₁ → π.length + 1 < n → ∀ j, F'.child p₁ j = none := by
    intro p₁ hp₁
    rw [hchild] at hp₁
    cases hp₁
  have hp : F.walk t (i :: π) = some p := by rw [Forest.walk_cons_of_eq hq, hold]
  have hlen : (i :: π).length ≤ n := by rw [List.length_cons]; omega
  rw [h.walk_set hroot hq (by omega) (Or.inr hπ) hnew hrest hρ, hchild, Function.update_apply]
  by_cases hat : u = t ∧ ρ = i :: π
  · obtain ⟨rfl, rfl⟩ := hat
    rw [if_pos ⟨rfl, rfl⟩]
    by_cases hpp : p' = p
    · simp [hpp]
    · rw [if_neg hpp, ← h u (i :: π) p' hlen, hp]
      simp [Ne.symm hpp]
  · rw [if_neg hat]
    by_cases hpp : p' = p
    · subst hpp
      rw [if_pos rfl]
      simp only [reduceCtorEq, iff_false]
      exact fun hw => hat (h.unique hρ hlen hw hp)
    · rw [if_neg hpp, h u ρ p' hρ]

omit [DecidableEq I] in
/-- A new tree is started at a cell that was at no place. -/
theorem addRoot (h : Placed n F place) (ht : F.root t = none) (hp : place p = none)
    (hroot : F'.root = Function.update F.root t (some p)) (hempty : ∀ j, F'.child p j = none)
    (hrest : ∀ u ρ q, ρ.length < n → F.walk u ρ = some q → F'.child q = F.child q) :
    Placed n F' (Function.update place p (some (t, []))) := by
  have hnone : ∀ ρ, F.walk t ρ = none := by
    intro ρ
    induction ρ with
    | nil => exact ht
    | cons j ρ ih => rw [Forest.walk_cons, ih, Option.bind_none]
  have hwalk : ∀ u ρ, ρ.length ≤ n →
      F'.walk u ρ = if u = t ∧ ρ = [] then some p else F.walk u ρ := by
    intro u ρ hρ
    induction ρ with
    | nil =>
      rw [Forest.walk_nil, hroot, Function.update_apply]
      by_cases hu : u = t <;> simp [hu]
    | cons j ρ ih =>
      rw [List.length_cons] at hρ
      rw [if_neg (by simp), Forest.walk_cons, ih (by omega), Forest.walk_cons]
      by_cases hat : u = t ∧ ρ = []
      · obtain ⟨rfl, rfl⟩ := hat
        rw [if_pos ⟨rfl, rfl⟩, Option.bind_some, hempty, hnone, Option.bind_none]
      · rw [if_neg hat]
        cases hq : F.walk u ρ with
        | none => rfl
        | some q => rw [Option.bind_some, Option.bind_some, hrest u ρ q (by omega) hq]
  intro u ρ p' hρ
  rw [hwalk u ρ hρ, Function.update_apply]
  by_cases hat : u = t ∧ ρ = []
  · obtain ⟨rfl, rfl⟩ := hat
    rw [if_pos ⟨rfl, rfl⟩]
    by_cases hpp : p' = p
    · simp [hpp]
    · rw [if_neg hpp, ← h u [] p' hρ, hnone]
      simp [Ne.symm hpp]
  · rw [if_neg hat]
    by_cases hpp : p' = p
    · subst hpp
      rw [if_pos rfl, h u ρ p' hρ, hp]
      simp only [reduceCtorEq, Option.some.injEq, Prod.mk.injEq, false_iff]
      rintro ⟨rfl, rfl⟩
      exact hat ⟨rfl, rfl⟩
    · rw [if_neg hpp, h u ρ p' hρ]

end Entry

end Placed

end Radix
