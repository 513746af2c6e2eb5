import HxcOS.Lib.System
import HxcOS.Model.Plic

/-!
# Claiming interrupts

Devices raise interrupts, and hart 0 claims and completes them, in any order, after the calls of
`s_start`.  The calls enable the disk and the UART in the S context of the hart, and source 8, with
the highest priority, in the M context.  `plic_claim` addresses the M context.

`StartInv` has what the calls have set, which no step changes.  Source 8 is claimed before the disk
whatever else is enabled in the M context (`claims_never_serve`).  When neither the disk nor the UART
is enabled there, no claim ever returns one of them, and once raised they stay pending
(`raised_never_claimed`).
-/

namespace HxcOS

open ByteMem OpSystem

inductive PlicOp
  | raise (irq : ℕ)
  | claim
  | complete (irq : BitVec 32)

/-- The controller and its users. -/
def plicSystem : System Plic PlicOp (Option (BitVec 32)) where
  step s
    | .raise irq => (none, s.raise irq)
    | .claim => (some (plicClaim 0 s).1, (plicClaim 0 s).2)
    | .complete irq => (none, plicComplete 0 irq s)
  ok _ _ := True

/-- Before the calls of `s_start` nothing has been claimed. -/
def Plic.boot (priority enable threshold : ℕ → BitVec 32) (pending : Finset ℕ) : Plic where
  priority := priority
  enable := enable
  threshold := threshold
  pending := pending
  claimed := ∅
  waiting := ∅

/-- The sources that are enabled for the S context. -/
def enabledSources : List ℕ := [DISK_IRQ, UART_IRQ]

/-- What `n` rounds of `plic_claim` and `plic_complete` take. -/
def serve : ℕ → Plic → List (BitVec 32)
  | 0, _ => []
  | n + 1, s =>
      let (irq, s) := plicClaim 0 s
      irq :: serve n (plicComplete 0 irq s)

/-- Enabled interrupts can be claimed: when one is deliverable to the S context, `plic_claim`
returns such a source, and repeated claims take each of them once. -/
def Served (s : Plic) : Prop :=
  (∀ irq ∈ enabledSources, s.Deliverable 1 irq → s.Deliverable 1 (plicClaim 0 s).1.toNat) ∧
    ∃ n, ∀ irq ∈ enabledSources, s.Deliverable 1 irq →
      (serve n s).count (BitVec.ofNat 32 irq) = 1

/-! ### Claims -/

namespace Plic

variable {s : Plic} {ctx irq : ℕ}

theorem mem_deliverable : irq ∈ (List.range 32).filter (s.Deliverable ctx) ↔ s.Deliverable ctx irq := by
  rw [List.mem_filter, List.mem_range, decide_eq_true_iff, and_iff_right_iff_imp]
  exact fun h => h.2.2.1

/-- What is claimed is deliverable. -/
theorem deliverable_best (h : s.best ctx ≠ 0) : s.Deliverable ctx (s.best ctx) := by
  unfold best at h ⊢
  cases hmax : ((List.range 32).filter (s.Deliverable ctx)).argmax
      fun irq => (s.priority irq).toNat with
  | none =>
    rw [hmax] at h
    exact absurd rfl h
  | some irq => exact mem_deliverable.1 (List.argmax_mem hmax)

/-- No deliverable source has a higher priority. -/
theorem le_priority_best (h : s.Deliverable ctx irq) :
    s.best ctx ≠ 0 ∧ s.priority irq ≤ s.priority (s.best ctx) := by
  unfold best
  cases hmax : ((List.range 32).filter (s.Deliverable ctx)).argmax
      fun irq => (s.priority irq).toNat with
  | none =>
    rw [List.argmax_eq_none] at hmax
    rw [← mem_deliverable, hmax] at h
    exact absurd h List.not_mem_nil
  | some best =>
    have hbest := mem_deliverable.1 (List.argmax_mem hmax)
    exact ⟨hbest.2.1, List.le_of_mem_argmax (mem_deliverable.2 h) hmax⟩

theorem best_lt (s : Plic) (ctx : ℕ) : s.best ctx < 32 := by
  by_cases h : s.best ctx = 0
  · omega
  · exact (deliverable_best h).2.2.1

theorem plicClaim_eq (s : Plic) :
    plicClaim 0 s = (BitVec.ofNat 32 (s.best 0), s.take (s.best 0)) := rfl

theorem plicClaim_toNat (s : Plic) : (plicClaim 0 s).1.toNat = s.best 0 := by
  have hlt := s.best_lt 0
  rw [plicClaim_eq, BitVec.toNat_ofNat]
  omega

end Plic

/-- What the calls of `s_start` set, when `enable` was the enable word of the M context before. -/
structure StartInv (enable : BitVec 32) (s : Plic) : Prop where
  machine : s.enable 0 = enable ||| 1 <<< 8
  supervisor : s.enable 1 = 1 <<< UART_IRQ ||| 1 <<< DISK_IRQ
  threshold : s.threshold 0 = 0 ∧ s.threshold 1 = 0
  enabled : ∀ irq ∈ enabledSources, s.priority irq = 1
  highest : s.priority 8 = 7

/-- The state that the calls leave. -/
theorem plicStart_eq (s : Plic) :
    plicStart 0 s = .ok { s with
      priority := Function.update (Function.update (Function.update s.priority DISK_IRQ 1)
        UART_IRQ 1) 8 7
      enable := Function.update (Function.update s.enable 1 (1 <<< UART_IRQ ||| 1 <<< DISK_IRQ)) 0
        (s.enable 0 ||| 1 <<< 8)
      threshold := Function.update (Function.update s.threshold 1 0) 0 0 } := by
  have hdisk : PlicReg.decode (PLIC + BitVec.ofNat 64 (DISK_IRQ * 4)) =
      some (.priority DISK_IRQ) := by decide
  have huart : PlicReg.decode (PLIC + BitVec.ofNat 64 (UART_IRQ * 4)) =
      some (.priority UART_IRQ) := by decide
  have henable : PlicReg.decode (PLIC_SENABLE 0) = some (.enable 1) := by decide
  have hthreshold : PlicReg.decode (PLIC_SPRIORITY 0) = some (.threshold 1) := by decide
  have hhighest : PlicReg.decode (PLIC_PRIORITY + 4 * 8) = some (.priority 8) := by decide
  have hmachine : PlicReg.decode (PLIC_ENABLE_BASE + 0x80 * 0) = some (.enable 0) := by decide
  have hzero : PlicReg.decode (PLIC_THRESHOLD_BASE + 0x1000 * 0) = some (.threshold 0) := by decide
  simp only [plicStart, plicinit, plicinithart, plicPriorityInit, plicEnableInterrupt,
    plicThresholdInit, Plic.write, Plic.read, hdisk, huart, henable, hthreshold, hhighest,
    hmachine, hzero]
  rfl

theorem StartInv.init (priority enable threshold : ℕ → BitVec 32) (pending : Finset ℕ) :
    ∃ s, plicStart 0 (Plic.boot priority enable threshold pending) = .ok s ∧
      StartInv (enable 0) s ∧ s.pending = pending ∧ s.claimed = ∅ := by
  refine ⟨_, plicStart_eq _, ⟨rfl, rfl, ⟨rfl, rfl⟩, ?_, rfl⟩, rfl, rfl⟩
  intro irq hirq
  simp only [enabledSources, List.mem_cons, List.not_mem_nil, or_false] at hirq
  rcases hirq with rfl | rfl <;> rfl

namespace StartInv

variable {enable : BitVec 32} {s : Plic} {irq : ℕ}

/-- Claims, completions and interrupts change none of this. -/
theorem congr (h : StartInv enable s) {s' : Plic} (hp : s'.priority = s.priority)
    (he : s'.enable = s.enable) (ht : s'.threshold = s.threshold) : StartInv enable s' := by
  constructor
  · rw [he, h.machine]
  · rw [he, h.supervisor]
  · rw [ht]
    exact h.threshold
  · rw [hp]
    exact h.enabled
  · rw [hp, h.highest]

theorem complete_eq (irq : BitVec 32) (s : Plic) :
    plicComplete 0 irq s = s.complete 0 irq.toNat := rfl

theorem step (h : StartInv enable s) (o : PlicOp) : StartInv enable (plicSystem.step s o).2 := by
  cases o with
  | raise irq =>
    simp only [plicSystem, Plic.raise]
    split_ifs <;> exact h.congr rfl rfl rfl
  | claim =>
    simp only [plicSystem, Plic.plicClaim_eq, Plic.take]
    split_ifs <;> exact h.congr rfl rfl rfl
  | complete irq =>
    simp only [plicSystem, complete_eq, Plic.complete]
    split_ifs <;> exact h.congr rfl rfl rfl

/-- A source of the S context is the disk or the UART. -/
theorem supervisor_iff (h : StartInv enable s) (hirq : irq < 32) :
    (s.enable 1).getLsbD irq = true ↔ irq ∈ enabledSources := by
  rw [h.supervisor]
  revert irq
  decide

theorem deliverable_iff (h : StartInv enable s) (hirq : irq ∈ enabledSources) :
    s.Deliverable 1 irq ↔ irq ∈ s.pending := by
  have hlt : irq ≠ 0 ∧ irq < 32 := by
    revert irq
    decide
  rw [Plic.Deliverable, h.threshold.2, h.enabled irq hirq, h.supervisor_iff hlt.2]
  simp only [hlt, hirq, ne_eq, not_false_eq_true, true_and]
  exact and_iff_left (by decide)

/-- Source 8 is deliverable to the M context. -/
theorem deliverable_eight (h : StartInv enable s) (hpending : 8 ∈ s.pending) :
    s.Deliverable 0 8 := by
  refine ⟨hpending, by decide, by decide, ?_, ?_⟩
  · rw [h.machine, BitVec.getLsbD_or]
    simp
  · rw [h.threshold.1, h.highest]
    decide

/-- While source 8 is pending no claim returns the disk or the UART. -/
theorem not_served (h : StartInv enable s) (height : 8 ∈ s.pending)
    (hdisk : DISK_IRQ ∈ s.pending) : ¬ Served s := by
  rintro ⟨hclaim, -⟩
  have hmem : DISK_IRQ ∈ enabledSources := List.mem_cons_self
  obtain ⟨-, -, hlt, hsource, -⟩ := hclaim DISK_IRQ hmem ((h.deliverable_iff hmem).2 hdisk)
  have hone := h.enabled _ ((h.supervisor_iff hlt).1 hsource)
  obtain ⟨-, hle⟩ := Plic.le_priority_best (h.deliverable_eight height)
  rw [Plic.plicClaim_toNat] at hone
  rw [h.highest, hone] at hle
  exact absurd hle (by decide)

end StartInv

/-- **Enabled interrupts are not served.**  Whatever the controller holds before the calls of
`s_start`, not every run after them leaves the interrupts of the disk and the UART to be claimed. -/
theorem claims_never_serve (priority enable threshold : ℕ → BitVec 32) (pending : Finset ℕ) :
    ¬ ∃ s, plicStart 0 (Plic.boot priority enable threshold pending) = .ok s ∧
      ∀ ops, Served (plicSystem.final s ops) := by
  rintro ⟨s, hstart, hserved⟩
  obtain ⟨s', hstart', hinv, -, hclaimed⟩ := StartInv.init priority enable threshold pending
  obtain rfl : s' = s := Except.ok.inj (hstart'.symm.trans hstart)
  -- source 8 is raised, and then the disk
  have hrun : plicSystem.final s' [.raise 8, .raise DISK_IRQ] =
      { s' with pending := insert DISK_IRQ (insert 8 s'.pending) } := by
    simp [plicSystem, Plic.raise, hclaimed]
  have hinv' : StartInv (enable 0) (plicSystem.final s' [.raise 8, .raise DISK_IRQ]) :=
    (hinv.step (.raise 8)).step (.raise DISK_IRQ)
  refine hinv'.not_served ?_ ?_ (hserved _) <;>
  · rw [hrun]
    simp

/-! ### Interrupts that are lost -/

section Lost

variable {enable : BitVec 32} {s : Plic} {irq : ℕ}

/-- A source that the M context does not enable is not what `plic_claim` returns. -/
theorem best_ne (h : StartInv enable s) (henable : (enable ||| 1 <<< 8).getLsbD irq = false)
    (hirq : irq ≠ 0) : s.best 0 ≠ irq := by
  rintro rfl
  obtain ⟨-, -, -, hsource, -⟩ := Plic.deliverable_best hirq
  rw [h.machine, henable] at hsource
  cases hsource

/-- Such a source is not claimed, and stays pending. -/
theorem pending_step (h : StartInv enable s) (henable : (enable ||| 1 <<< 8).getLsbD irq = false)
    (hirq : irq ≠ 0) (hpending : irq ∈ s.pending) (o : PlicOp) :
    irq ∈ (plicSystem.step s o).2.pending := by
  cases o with
  | raise irq' =>
    simp only [plicSystem, Plic.raise]
    split_ifs
    · exact hpending
    · exact Finset.mem_insert_of_mem hpending
  | claim =>
    simp only [plicSystem, Plic.plicClaim_eq, Plic.take]
    split_ifs
    · exact hpending
    · exact Finset.mem_erase_of_ne_of_mem (best_ne h henable hirq).symm hpending
  | complete irq' =>
    simp only [plicSystem, StartInv.complete_eq, Plic.complete]
    split_ifs
    · exact Finset.mem_insert_of_mem hpending
    · exact hpending
    · exact hpending

theorem unclaimed_step (h : StartInv enable s) (henable : (enable ||| 1 <<< 8).getLsbD irq = false)
    (hirq : irq ≠ 0) (hclaimed : irq ∉ s.claimed) (o : PlicOp) :
    irq ∉ (plicSystem.step s o).2.claimed := by
  cases o with
  | raise irq' =>
    simp only [plicSystem, Plic.raise]
    split_ifs <;> exact hclaimed
  | claim =>
    simp only [plicSystem, Plic.plicClaim_eq, Plic.take]
    split_ifs
    · exact hclaimed
    · rw [Finset.mem_insert, not_or]
      exact ⟨(best_ne h henable hirq).symm, hclaimed⟩
  | complete irq' =>
    simp only [plicSystem, StartInv.complete_eq, Plic.complete]
    split_ifs
    · exact fun hmem => hclaimed (Finset.mem_of_mem_erase hmem)
    · exact fun hmem => hclaimed (Finset.mem_of_mem_erase hmem)
    · exact hclaimed

/-- A raise makes it pending. -/
theorem raised_step (hclaimed : irq ∉ s.claimed) :
    irq ∈ (plicSystem.step s (.raise irq)).2.pending := by
  simp only [plicSystem, Plic.raise, if_neg hclaimed, Finset.mem_insert_self]

/-- No step returns it. -/
theorem result_ne (h : StartInv enable s) (henable : (enable ||| 1 <<< 8).getLsbD irq = false)
    (hirq : irq ≠ 0) (hlt : irq < 32) (o : PlicOp) :
    (plicSystem.step s o).1 ≠ some (BitVec.ofNat 32 irq) := by
  cases o with
  | raise irq' => exact Option.some_ne_none _ |>.symm
  | claim =>
    intro heq
    have hvalue := congrArg BitVec.toNat (Option.some.inj heq)
    rw [Plic.plicClaim_toNat, BitVec.toNat_ofNat, Nat.mod_eq_of_lt (by omega)] at hvalue
    exact best_ne h henable hirq hvalue
  | complete irq' => exact Option.some_ne_none _ |>.symm

/-- In every run from there a pending source that the M context does not enable stays pending. -/
theorem pending_run (h : StartInv enable s) (henable : (enable ||| 1 <<< 8).getLsbD irq = false)
    (hirq : irq ≠ 0) (hpending : irq ∈ s.pending) (ops : List PlicOp) :
    irq ∈ (plicSystem.final s ops).pending := by
  induction ops generalizing s with
  | nil => exact hpending
  | cons o ops ih => exact ih (h.step o) (pending_step h henable hirq hpending o)

/-- It is never claimed, and pending from its first raise on. -/
theorem lost_run (h : StartInv enable s) (henable : (enable ||| 1 <<< 8).getLsbD irq = false)
    (hirq : irq ≠ 0) (hlt : irq < 32) (hclaimed : irq ∉ s.claimed) (ops : List PlicOp) :
    some (BitVec.ofNat 32 irq) ∉ plicSystem.results s ops ∧
      (PlicOp.raise irq ∈ ops → irq ∈ (plicSystem.final s ops).pending) := by
  induction ops generalizing s with
  | nil => exact ⟨List.not_mem_nil, fun hmem => absurd hmem List.not_mem_nil⟩
  | cons o ops ih =>
    obtain ⟨hresults, hpending⟩ := ih (h.step o) (unclaimed_step h henable hirq hclaimed o)
    refine ⟨?_, fun hmem => ?_⟩
    · rw [System.results, List.mem_cons, not_or]
      exact ⟨(result_ne h henable hirq hlt o).symm, hresults⟩
    · rcases List.mem_cons.1 hmem with rfl | hmem
      · exact pending_run (h.step _) henable hirq (raised_step hclaimed) ops
      · exact hpending hmem

end Lost

/-- **The disk and the UART are never served.**  When the M context enables neither of them before
the calls of `s_start`, in every run after these calls no claim returns one of them, and one that has
been raised is pending from then on. -/
theorem raised_never_claimed (priority enable threshold : ℕ → BitVec 32) (pending : Finset ℕ)
    (henable : ∀ irq ∈ enabledSources, (enable 0).getLsbD irq = false) :
    ∃ s, plicStart 0 (Plic.boot priority enable threshold pending) = .ok s ∧
      ∀ irq ∈ enabledSources, ∀ ops, some (BitVec.ofNat 32 irq) ∉ plicSystem.results s ops ∧
        (PlicOp.raise irq ∈ ops → irq ∈ (plicSystem.final s ops).pending) := by
  obtain ⟨s, hstart, hinv, -, hclaimed⟩ := StartInv.init priority enable threshold pending
  refine ⟨s, hstart, fun irq hirq ops => ?_⟩
  have hsource : irq ≠ 0 ∧ irq < 32 ∧ (1 <<< 8 : BitVec 32).getLsbD irq = false := by
    revert irq
    decide
  refine lost_run hinv ?_ hsource.1 hsource.2.1 (by simp [hclaimed]) ops
  rw [BitVec.getLsbD_or, henable irq hirq, hsource.2.2]
  rfl

/-- After a reset, nothing but source 8 is enabled in the M context. -/
def Plic.reset : Plic := Plic.boot (fun _ => 0) (fun _ => 0) (fun _ => 0) ∅

theorem raised_never_claimed_sample :
    ∃ s, plicStart 0 Plic.reset = .ok s ∧
      some (BitVec.ofNat 32 DISK_IRQ) ∉
          plicSystem.results s [.raise DISK_IRQ, .claim, .complete 8, .raise DISK_IRQ, .claim] ∧
      DISK_IRQ ∈ (plicSystem.final s
        [.raise DISK_IRQ, .claim, .complete 8, .raise DISK_IRQ, .claim]).pending := by
  obtain ⟨s, hstart, hlost⟩ := raised_never_claimed (fun _ => 0) (fun _ => 0) (fun _ => 0) ∅ (by simp)
  obtain ⟨hresults, hpending⟩ := hlost DISK_IRQ List.mem_cons_self
    [.raise DISK_IRQ, .claim, .complete 8, .raise DISK_IRQ, .claim]
  exact ⟨s, hstart, hresults, hpending List.mem_cons_self⟩

/-- The disk raises its interrupt, and `plic_claim` returns 0. -/
theorem disk_interrupt_not_claimed :
    ∃ s, plicStart 0 Plic.reset = .ok s ∧
      (plicSystem.final s [.raise DISK_IRQ]).Deliverable 1 DISK_IRQ ∧
      (plicClaim 0 (plicSystem.final s [.raise DISK_IRQ])).1 = 0 ∧
      ¬ Served (plicSystem.final s [.raise DISK_IRQ]) := by
  obtain ⟨s, hstart, hinv, hpending, hclaimed⟩ :=
    StartInv.init (fun _ => 0) (fun _ => 0) (fun _ => 0) ∅
  have hrun : plicSystem.final s [.raise DISK_IRQ] = { s with pending := {DISK_IRQ} } := by
    simp [plicSystem, Plic.raise, hclaimed, hpending]
  have hinv' : StartInv 0 (plicSystem.final s [.raise DISK_IRQ]) := hinv.step _
  have hmem : DISK_IRQ ∈ enabledSources := List.mem_cons_self
  have hdeliverable := (hinv'.deliverable_iff hmem).2 (by rw [hrun]; simp)
  have hzero : (plicClaim 0 (plicSystem.final s [.raise DISK_IRQ])).1.toNat = 0 := by
    rw [Plic.plicClaim_toNat]
    by_contra hne
    obtain ⟨hbest, -, -, hsource, -⟩ := Plic.deliverable_best hne
    rw [hrun, Finset.mem_singleton] at hbest
    rw [hrun, hbest, hinv.machine] at hsource
    revert hsource
    decide
  refine ⟨s, hstart, hdeliverable, BitVec.eq_of_toNat_eq hzero, ?_⟩
  rintro ⟨hclaim, -⟩
  obtain ⟨-, hne, -⟩ := hclaim DISK_IRQ hmem hdeliverable
  exact hne hzero

end HxcOS
