import Mathlib.Tactic

/-!
# Components driven by operations

A `System` is a component with a deterministic step for each operation of its interface, together
with the obligation `ok` that the caller of an operation takes on.  A run is the list of the
operations performed; `Admissible` says that every operation of it met its obligation in the state
in which it was performed.

* `System.run_inv`: an invariant kept by every admissible step holds at the end of every
  admissible run.
* `System.run_refines`: if a simulation relation to a second system is kept by every admissible
  step and forces the two results to look the same, then the whole runs look the same.
* `System.run_expands`: if every admissible step is a run of a second system, then so is every
  admissible run.  `System.Reaches` says that there is an admissible run from one state to another.
-/

namespace OpSystem

variable {σ ω ρ α ε τ : Type*}

/-- A component: what an operation does, and what its caller promises. -/
structure System (σ ω ρ : Type*) where
  step : σ → ω → ρ × σ
  ok : σ → ω → Prop

namespace System

variable (S : System σ ω ρ)

/-- The state after a list of operations. -/
def final : σ → List ω → σ
  | s, [] => s
  | s, o :: os => final (S.step s o).2 os

/-- The results of a list of operations, in order. -/
def results : σ → List ω → List ρ
  | _, [] => []
  | s, o :: os => (S.step s o).1 :: results (S.step s o).2 os

/-- Every operation of the list meets its obligation when its turn comes. -/
def Admissible : σ → List ω → Prop
  | _, [] => True
  | s, o :: os => S.ok s o ∧ Admissible (S.step s o).2 os

@[simp] theorem final_nil (s : σ) : S.final s [] = s := rfl

@[simp] theorem final_cons (s : σ) (o : ω) (os : List ω) :
    S.final s (o :: os) = S.final (S.step s o).2 os := rfl

@[simp] theorem admissible_nil (s : σ) : S.Admissible s [] := trivial

@[simp] theorem admissible_cons (s : σ) (o : ω) (os : List ω) :
    S.Admissible s (o :: os) ↔ S.ok s o ∧ S.Admissible (S.step s o).2 os := Iff.rfl

theorem final_append (s : σ) (os os' : List ω) :
    S.final s (os ++ os') = S.final (S.final s os) os' := by
  induction os generalizing s with
  | nil => rfl
  | cons o os ih => exact ih _

theorem admissible_append (s : σ) (os os' : List ω) :
    S.Admissible s (os ++ os') ↔ S.Admissible s os ∧ S.Admissible (S.final s os) os' := by
  induction os generalizing s with
  | nil => simp
  | cons o os ih => simp [ih, and_assoc]

/-- Whether a run is admissible can be computed. -/
instance decidableAdmissible [∀ s o, Decidable (S.ok s o)] :
    ∀ s os, Decidable (S.Admissible s os)
  | _, [] => isTrue trivial
  | s, o :: os =>
      have := decidableAdmissible (S.step s o).2 os
      inferInstanceAs (Decidable (S.ok s o ∧ S.Admissible (S.step s o).2 os))

/-- The same component with a further obligation. -/
def restrict (P : σ → ω → Prop) : System σ ω ρ where
  step := S.step
  ok s o := S.ok s o ∧ P s o

@[simp] theorem restrict_step (P : σ → ω → Prop) : (S.restrict P).step = S.step := rfl

@[simp] theorem final_restrict (P : σ → ω → Prop) (s : σ) (os : List ω) :
    (S.restrict P).final s os = S.final s os := by
  induction os generalizing s with
  | nil => rfl
  | cons o os ih => exact ih _

/-- An invariant from which a further obligation follows. -/
theorem admissible_restrict_of_inv {P : σ → ω → Prop} {I : σ → Prop} {os : List ω}
    (hstep : ∀ s, ∀ o ∈ os, I s → S.ok s o → P s o ∧ I (S.step s o).2) {s : σ} (hs : I s)
    (hok : S.Admissible s os) : (S.restrict P).Admissible s os := by
  induction os generalizing s with
  | nil => trivial
  | cons o os ih =>
    obtain ⟨hP, hnext⟩ := hstep s o List.mem_cons_self hs hok.1
    exact ⟨⟨hok.1, hP⟩, ih (fun s o' ho' => hstep s o' (List.mem_cons_of_mem _ ho')) hnext hok.2⟩

theorem admissible_restrict {Q : ω → Prop} {s : σ} {os : List ω} (hok : S.Admissible s os)
    (hQ : ∀ o ∈ os, Q o) : (S.restrict fun _ o => Q o).Admissible s os :=
  S.admissible_restrict_of_inv (I := fun _ => True) (fun _ o ho _ _ => ⟨hQ o ho, trivial⟩) trivial
    hok

theorem admissible_restrict_and {P Q : σ → ω → Prop} {s : σ} {os : List ω}
    (hP : (S.restrict P).Admissible s os) (hQ : (S.restrict Q).Admissible s os) :
    (S.restrict fun s o => P s o ∧ Q s o).Admissible s os := by
  induction os generalizing s with
  | nil => trivial
  | cons o os ih => exact ⟨⟨hP.1.1, hP.1.2, hQ.1.2⟩, ih hP.2 hQ.2⟩

theorem admissible_of_restrict {P : σ → ω → Prop} {s : σ} {os : List ω}
    (hok : (S.restrict P).Admissible s os) : S.Admissible s os := by
  induction os generalizing s with
  | nil => trivial
  | cons o os ih => exact ⟨hok.1.1, ih hok.2⟩

/-- Some admissible run leads from one state to the other. -/
def Reaches (s s' : σ) : Prop := ∃ os, S.Admissible s os ∧ S.final s os = s'

variable {S}

namespace Reaches

theorem refl (s : σ) : S.Reaches s s := ⟨[], trivial, rfl⟩

theorem step {s : σ} {o : ω} (hok : S.ok s o) : S.Reaches s (S.step s o).2 :=
  ⟨[o], ⟨hok, trivial⟩, rfl⟩

theorem trans {s s' s'' : σ} (h : S.Reaches s s') (h' : S.Reaches s' s'') : S.Reaches s s'' := by
  obtain ⟨os, hok, rfl⟩ := h
  obtain ⟨os', hok', rfl⟩ := h'
  exact ⟨os ++ os', (S.admissible_append s os os').2 ⟨hok, hok'⟩, S.final_append s os os'⟩

end Reaches

/-- **Invariant rule**, for runs all of whose operations are known to be in a list. -/
theorem run_inv_mem {I : σ → Prop} {os : List ω}
    (hstep : ∀ s, ∀ o ∈ os, I s → S.ok s o → I (S.step s o).2) {s : σ} (hs : I s)
    (hok : S.Admissible s os) : I (S.final s os) := by
  induction os generalizing s with
  | nil => exact hs
  | cons o os ih =>
    exact ih (fun s o' ho' => hstep s o' (List.mem_cons_of_mem _ ho'))
      (hstep s o List.mem_cons_self hs hok.1) hok.2

/-- **Invariant rule.** -/
theorem run_inv {I : σ → Prop} (hstep : ∀ s o, I s → S.ok s o → I (S.step s o).2) {s : σ}
    (hs : I s) {os : List ω} (hok : S.Admissible s os) : I (S.final s os) :=
  run_inv_mem (fun s o _ => hstep s o) hs hok

/-- **Refinement rule.** The runs of `S` look, through `v`, like the runs of `A`, and end in
related states. -/
theorem run_refines {A : System α ω τ} {v : ω → ρ → τ} {R : σ → α → Prop}
    (hstep : ∀ s a o, R s a → S.ok s o →
      v o (S.step s o).1 = (A.step a o).1 ∧ R (S.step s o).2 (A.step a o).2)
    {s : σ} {a : α} (hR : R s a) {os : List ω} (hok : S.Admissible s os) :
    List.zipWith v os (S.results s os) = A.results a os ∧ R (S.final s os) (A.final a os) := by
  induction os generalizing s a with
  | nil => exact ⟨rfl, hR⟩
  | cons o os ih =>
    obtain ⟨hres, hnext⟩ := hstep s a o hR hok.1
    obtain ⟨hrest, hfinal⟩ := ih hnext hok.2
    exact ⟨by simp only [results, List.zipWith_cons_cons, hres, hrest], hfinal⟩

theorem zipWith_results (f : ρ → τ) (s : σ) (os : List ω) :
    List.zipWith (fun _ r => f r) os (S.results s os) = (S.results s os).map f := by
  induction os generalizing s with
  | nil => rfl
  | cons o os ih => rw [results, List.zipWith_cons_cons, ih, List.map_cons]

/-- **Refinement rule**, for a view that does not depend on the operation. -/
theorem run_refines_map {A : System α ω τ} {f : ρ → τ} {R : σ → α → Prop}
    (hstep : ∀ s a o, R s a → S.ok s o →
      f (S.step s o).1 = (A.step a o).1 ∧ R (S.step s o).2 (A.step a o).2)
    {s : σ} {a : α} (hR : R s a) {os : List ω} (hok : S.Admissible s os) :
    (S.results s os).map f = A.results a os ∧ R (S.final s os) (A.final a os) := by
  obtain ⟨hres, hfinal⟩ := S.run_refines (v := fun _ r => f r) hstep hR hok
  exact ⟨(S.zipWith_results f s os).symm.trans hres, hfinal⟩

/-- **Refinement rule**, for a system with the same answers. -/
theorem run_refines_eq {A : System α ω ρ} {R : σ → α → Prop}
    (hstep : ∀ s a o, R s a → S.ok s o →
      (S.step s o).1 = (A.step a o).1 ∧ R (S.step s o).2 (A.step a o).2)
    {s : σ} {a : α} (hR : R s a) {os : List ω} (hok : S.Admissible s os) :
    S.results s os = A.results a os ∧ R (S.final s os) (A.final a os) := by
  obtain ⟨hres, hfinal⟩ := S.run_refines_map (f := id) hstep hR hok
  exact ⟨(List.map_id _).symm.trans hres, hfinal⟩

/-- **Expansion rule.**  When every admissible operation of `S` does, seen through `v`, what some
admissible run of `T` does, so does every admissible run of `S`. -/
theorem run_expands {T : System α ε τ} {v : σ → α} {I : σ → Prop}
    (hstep : ∀ s o, I s → S.ok s o → I (S.step s o).2 ∧ T.Reaches (v s) (v (S.step s o).2))
    {s : σ} (hs : I s) {os : List ω} (hok : S.Admissible s os) :
    I (S.final s os) ∧ T.Reaches (v s) (v (S.final s os)) := by
  induction os generalizing s with
  | nil => exact ⟨hs, Reaches.refl _⟩
  | cons o os ih =>
    obtain ⟨hnext, hreach⟩ := hstep s o hs hok.1
    obtain ⟨hfinal, hrest⟩ := ih hnext hok.2
    exact ⟨hfinal, hreach.trans hrest⟩

end System

end OpSystem
