import Mathlib.Tactic

/-!
# While loops

`While σ` is a loop `while (cond) body` over a state type `σ`, given together with a measure that
every iteration lowers; the proof is a field, so that a loop that might not stop cannot be written.
`While.run` satisfies the unfolding equation of a `while` loop (`While.run_eq`), stops with the
condition false (`While.run_exit`), and keeps every invariant of its body (`While.run_inv`).

Where a loop of a program need not stop, `runFor n` is its first `n` iterations, and `none` when
the condition still holds after them.

A loop can be watched: `observe` adds to the state a log of what the iterations observe, and
`While.run_observe` and `runFor_observe` say that the log does not disturb the run.
-/

namespace Loop

variable {σ τ ε : Type*}

/-- The state in which `while (cond) body` stops, if it does within `n` iterations. -/
def runFor (cond : σ → Bool) (body : σ → σ) : ℕ → σ → Option σ
  | 0, s => if cond s then none else some s
  | n + 1, s => if cond s then runFor cond body n (body s) else some s

/-- A loop whose iterations keep `I` and lower a measure stops within that many iterations. -/
theorem runFor_inv {cond : σ → Bool} {body : σ → σ} {I : σ → Prop} {μ : σ → ℕ}
    (hstep : ∀ s, I s → cond s = true → I (body s) ∧ μ (body s) < μ s) {s : σ} (hs : I s)
    {n : ℕ} (hn : μ s ≤ n) : ∃ s', runFor cond body n s = some s' ∧ I s' ∧ ¬ cond s' = true := by
  induction n generalizing s with
  | zero =>
    have hexit : ¬ cond s = true := fun hc => by have := (hstep s hs hc).2; omega
    exact ⟨s, by rw [runFor, if_neg hexit], hs, hexit⟩
  | succ n ih =>
    by_cases hc : cond s = true
    · obtain ⟨hI, hlt⟩ := hstep s hs hc
      rw [runFor, if_pos hc]
      exact ih hI (by omega)
    · exact ⟨s, by rw [runFor, if_neg hc], hs, hc⟩

/-- When the condition holds for `k` iterations and then fails, the loop stops there. -/
theorem runFor_eq_some {cond : σ → Bool} {body : σ → σ} {n k : ℕ} {s : σ} (hk : k ≤ n)
    (htrue : ∀ i < k, cond (body^[i] s) = true) (hfalse : cond (body^[k] s) = false) :
    runFor cond body n s = some (body^[k] s) := by
  induction k generalizing n s with
  | zero =>
    rw [Function.iterate_zero_apply] at hfalse
    cases n <;> rw [runFor, if_neg (by simp [hfalse]), Function.iterate_zero_apply]
  | succ k ih =>
    obtain ⟨n, rfl⟩ := Nat.exists_eq_succ_of_ne_zero (show n ≠ 0 by omega)
    rw [runFor, if_pos (show cond s = true from htrue 0 (Nat.succ_pos k)),
      Function.iterate_succ_apply]
    exact ih (by omega) (fun i hi => htrue (i + 1) (by omega)) hfalse

/-- A loop whose iterations keep the condition does not stop. -/
theorem runFor_eq_none {cond : σ → Bool} {body : σ → σ} {I : σ → Prop}
    (hstep : ∀ s, I s → cond s = true ∧ I (body s)) {s : σ} (hs : I s) (n : ℕ) :
    runFor cond body n s = none := by
  induction n generalizing s with
  | zero => rw [runFor, if_pos (hstep s hs).1]
  | succ n ih =>
    rw [runFor, if_pos (hstep s hs).1]
    exact ih (hstep s hs).2

/-- Two loops whose states correspond stop together, in corresponding states. -/
theorem runFor_map {cond : σ → Bool} {body : σ → σ} {cond' : τ → Bool} {body' : τ → τ} (f : τ → σ)
    (hcond : ∀ t, cond' t = cond (f t)) (hbody : ∀ t, f (body' t) = body (f t)) (n : ℕ) (t : τ) :
    (runFor cond' body' n t).map f = runFor cond body n (f t) := by
  induction n generalizing t with
  | zero =>
    rw [runFor, runFor, hcond]
    split_ifs <;> rfl
  | succ n ih =>
    rw [runFor, runFor, hcond, ← hbody]
    split_ifs
    · exact ih (body' t)
    · rfl

/-- An iteration, with a log of what the iterations observe; the latest stands first. -/
def observe (body : σ → σ) (obs : σ → List ε) (st : σ × List ε) : σ × List ε :=
  (body st.1, obs st.1 ++ st.2)

theorem runFor_observe (cond : σ → Bool) (body : σ → σ) (obs : σ → List ε) (n : ℕ)
    (st : σ × List ε) :
    (runFor (fun st => cond st.1) (observe body obs) n st).map Prod.fst =
      runFor cond body n st.1 :=
  runFor_map Prod.fst (fun _ => rfl) (fun _ => rfl) n st

/-- A terminating loop: each iteration lowers the measure. -/
structure While (σ : Type*) where
  cond : σ → Bool
  body : σ → σ
  measure : σ → ℕ
  decreases : ∀ s, cond s = true → measure (body s) < measure s

namespace While

variable (w : While σ)

/-- At most `n` iterations. -/
def iterate : ℕ → σ → σ
  | 0, s => s
  | n + 1, s => if w.cond s then iterate n (w.body s) else s

/-- The state in which the loop stops; the measure bounds the number of iterations. -/
def run (s : σ) : σ := w.iterate (w.measure s) s

theorem iterate_of_exit {s : σ} (h : ¬ w.cond s = true) (n : ℕ) : w.iterate n s = s := by
  cases n <;> simp [iterate, h]

/-- Any two sufficient bounds give the same result. -/
theorem iterate_eq_iterate {s : σ} {n k : ℕ} (hn : w.measure s ≤ n) (hk : w.measure s ≤ k) :
    w.iterate n s = w.iterate k s := by
  induction n generalizing s k with
  | zero =>
    have hexit : ¬ w.cond s = true := fun hc => by have := w.decreases s hc; omega
    rw [w.iterate_of_exit hexit, w.iterate_of_exit hexit]
  | succ n ih =>
    by_cases hc : w.cond s = true
    · have hlt := w.decreases s hc
      obtain ⟨k, rfl⟩ := Nat.exists_eq_succ_of_ne_zero (by omega : k ≠ 0)
      rw [iterate, iterate, if_pos hc, if_pos hc]
      exact ih (by omega) (by omega)
    · rw [w.iterate_of_exit hc, w.iterate_of_exit hc]

/-- The unfolding equation of a `while` loop. -/
theorem run_eq (s : σ) : w.run s = if w.cond s then w.run (w.body s) else s := by
  by_cases hc : w.cond s = true
  · have hlt := w.decreases s hc
    rw [if_pos hc, run, w.iterate_eq_iterate le_rfl (Nat.le_succ (w.measure s)), iterate, if_pos hc]
    exact w.iterate_eq_iterate (by omega) le_rfl
  · rw [if_neg hc, run, w.iterate_of_exit hc]

/-- **Invariant rule.** What every iteration keeps holds when the loop stops, and then the
condition is false. -/
theorem run_inv {I : σ → Prop} (hstep : ∀ s, I s → w.cond s = true → I (w.body s)) {s : σ}
    (hs : I s) : I (w.run s) ∧ ¬ w.cond (w.run s) = true := by
  induction hm : w.measure s using Nat.strong_induction_on generalizing s with
  | _ n ih =>
    rw [run_eq]
    by_cases hc : w.cond s = true
    · rw [if_pos hc]
      exact ih _ (by rw [← hm]; exact w.decreases s hc) (hstep s hs hc) rfl
    · rw [if_neg hc]
      exact ⟨hs, hc⟩

/-- Two loops whose states correspond stop in corresponding states. -/
theorem run_map (w' : While τ) (f : τ → σ) (hcond : ∀ t, w'.cond t = w.cond (f t))
    (hbody : ∀ t, f (w'.body t) = w.body (f t)) (t : τ) : f (w'.run t) = w.run (f t) := by
  induction hm : w'.measure t using Nat.strong_induction_on generalizing t with
  | _ n ih =>
    rw [w'.run_eq t, w.run_eq (f t), hcond]
    by_cases hc : w.cond (f t) = true
    · rw [if_pos hc, if_pos hc, ← hbody]
      exact ih _ (by rw [← hm]; exact w'.decreases t (by rw [hcond, hc])) _ rfl
    · rw [if_neg hc, if_neg hc]

/-- The loop with a log of what its iterations observe. -/
def observe (obs : σ → List ε) : While (σ × List ε) where
  cond st := w.cond st.1
  body := Loop.observe w.body obs
  measure st := w.measure st.1
  decreases st h := w.decreases st.1 h

theorem run_observe (obs : σ → List ε) (st : σ × List ε) :
    ((w.observe obs).run st).1 = w.run st.1 :=
  w.run_map (w.observe obs) Prod.fst (fun _ => rfl) (fun _ => rfl) st

end While

end Loop
