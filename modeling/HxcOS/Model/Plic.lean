import HxcOS.Lib.Memory
import Mathlib.Data.List.MinMax

/-!
# `os/src/PLIC.cpp` and the interrupt controller

The controller is reached through registers in memory.  `Plic` is its state, and `Plic.read` and
`Plic.write` say what an access to an address does: hart `h` has the context `2 * h` for M mode and
`2 * h + 1` for S mode, each with an enable word, a threshold and a register for claims and
completions.

A source that is claimed is not forwarded again before its completion; it waits meanwhile.

The functions of the driver are accesses to the addresses that the macros of `PLIC.hpp` give.
-/

namespace HxcOS

open ByteMem

/-! ### The controller -/

def PLIC : Word := 0x0c000000

/-- `priority` is by source, `enable` and `threshold` are by context. -/
structure Plic where
  priority : ℕ → BitVec 32
  enable : ℕ → BitVec 32
  threshold : ℕ → BitVec 32
  pending : Finset ℕ
  claimed : Finset ℕ
  waiting : Finset ℕ

inductive PlicReg
  | priority (irq : ℕ)
  | enable (ctx : ℕ)
  | threshold (ctx : ℕ)
  | claim (ctx : ℕ)
  deriving DecidableEq

/-- The register at an address. -/
def PlicReg.decode (a : Word) : Option PlicReg :=
  let off := (a - PLIC).toNat
  if off < 0x1000 then some (.priority (off / 4))
  else if off < 0x2000 then none
  else if off < 0x200000 then
    if (off - 0x2000) % 0x80 = 0 then some (.enable ((off - 0x2000) / 0x80)) else none
  else if (off - 0x200000) % 0x1000 = 0 then some (.threshold ((off - 0x200000) / 0x1000))
  else if (off - 0x200000) % 0x1000 = 4 then some (.claim ((off - 0x200000) / 0x1000))
  else none

namespace Plic

/-- The source is pending, and enabled in the context with a priority above the threshold. -/
def Deliverable (s : Plic) (ctx irq : ℕ) : Prop :=
  irq ∈ s.pending ∧ irq ≠ 0 ∧ irq < 32 ∧ (s.enable ctx).getLsbD irq = true ∧
    s.threshold ctx < s.priority irq

instance (s : Plic) (ctx irq : ℕ) : Decidable (s.Deliverable ctx irq) :=
  inferInstanceAs (Decidable (_ ∧ _ ∧ _ ∧ _ ∧ _))

/-- The first deliverable source of the highest priority, or 0. -/
def best (s : Plic) (ctx : ℕ) : ℕ :=
  (((List.range 32).filter (s.Deliverable ctx)).argmax fun irq => (s.priority irq).toNat).getD 0

/-- A device raises its interrupt. -/
def raise (s : Plic) (irq : ℕ) : Plic :=
  if irq ∈ s.claimed then { s with waiting := insert irq s.waiting }
  else { s with pending := insert irq s.pending }

/-- The source is no longer pending. -/
def take (s : Plic) (irq : ℕ) : Plic :=
  if irq = 0 then s
  else { s with pending := s.pending.erase irq, claimed := insert irq s.claimed }

/-- A completion, which is ignored when the source is not enabled in the context. -/
def complete (s : Plic) (ctx irq : ℕ) : Plic :=
  if (s.enable ctx).getLsbD irq then
    { s with
      pending := if irq ∈ s.waiting then insert irq s.pending else s.pending
      claimed := s.claimed.erase irq
      waiting := s.waiting.erase irq }
  else s

def read (s : Plic) (a : Word) : BitVec 32 × Plic :=
  match PlicReg.decode a with
  | some (.priority irq) => (s.priority irq, s)
  | some (.enable ctx) => (s.enable ctx, s)
  | some (.threshold ctx) => (s.threshold ctx, s)
  | some (.claim ctx) => (BitVec.ofNat 32 (s.best ctx), s.take (s.best ctx))
  | none => (0, s)

def write (s : Plic) (a : Word) (v : BitVec 32) : Plic :=
  match PlicReg.decode a with
  | some (.priority irq) => { s with priority := Function.update s.priority irq v }
  | some (.enable ctx) => { s with enable := Function.update s.enable ctx v }
  | some (.threshold ctx) => { s with threshold := Function.update s.threshold ctx v }
  | some (.claim ctx) => s.complete ctx v.toNat
  | none => s

end Plic

/-! ### The driver -/

def PLIC_PRIORITY : Word := PLIC + 0x0
def PLIC_SENABLE (hart : Word) : Word := PLIC + 0x2080 + hart * 0x100
def PLIC_SPRIORITY (hart : Word) : Word := PLIC + 0x201000 + hart * 0x2000
def PLIC_MCLAIM (hart : Word) : Word := PLIC + 0x200004 + hart * 0x2000

def PLIC_ENABLE_BASE : Word := 0x0c002000
def PLIC_THRESHOLD_BASE : Word := 0x0c200000

def UART_IRQ : ℕ := 10
def DISK_IRQ : ℕ := 1

/-- `void plicinit(void)`. -/
def plicinit (s : Plic) : Plic :=
  let s := s.write (PLIC + BitVec.ofNat 64 (DISK_IRQ * 4)) 1
  s.write (PLIC + BitVec.ofNat 64 (UART_IRQ * 4)) 1

/-- `void plicinithart(void)`, on the hart `hart`. -/
def plicinithart (hart : Word) (s : Plic) : Except String Plic :=
  if hart ≠ 0 then .error "hart!=0 ???" else
  let s := s.write (PLIC_SENABLE hart) (1 <<< UART_IRQ ||| 1 <<< DISK_IRQ)
  .ok (s.write (PLIC_SPRIORITY hart) 0)

/-- `int plic_claim(void)`. -/
def plicClaim (hart : Word) (s : Plic) : BitVec 32 × Plic := s.read (PLIC_MCLAIM hart)

/-- `void plic_complete(int irq)`. -/
def plicComplete (hart : Word) (irq : BitVec 32) (s : Plic) : Plic :=
  s.write (PLIC_MCLAIM hart) irq

/-- `void plic_priority_init(void)`. -/
def plicPriorityInit (s : Plic) : Plic := s.write (PLIC_PRIORITY + 4 * 8) 7

/-- `void plic_enable_interrupt()`. -/
def plicEnableInterrupt (s : Plic) : Plic :=
  let (v, s) := s.read (PLIC_ENABLE_BASE + 0x80 * 0)
  s.write (PLIC_ENABLE_BASE + 0x80 * 0) (v ||| 1 <<< 8)

/-- `void plic_threshold_init()`. -/
def plicThresholdInit (s : Plic) : Plic := s.write (PLIC_THRESHOLD_BASE + 0x1000 * 0) 0

/-- The calls of `s_start`. -/
def plicStart (hart : Word) (s : Plic) : Except String Plic := do
  let s := plicinit s
  let s ← plicinithart hart s
  let s := plicPriorityInit s
  let s := plicEnableInterrupt s
  return plicThresholdInit s

end HxcOS
