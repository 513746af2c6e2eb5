import HxcOS.Lib.Memory

/-!
# Sv39 address translation

The page-table walk of the privileged architecture for `satp.MODE = 8`: 39-bit virtual addresses,
three levels, 8-byte entries with the physical page number in bits 53..10 and the flags in bits
9..0.  An entry faults when `V` is clear, when it is writable but not readable, or when one of its
bits 63..54 is set; it is a leaf when `R` or `X` is set.  A leaf above level 0 is a superpage, and
faults when its page number is not aligned to it.  The accessed and dirty bits are left to the
hardware, so that the walk does not depend on them.
-/

namespace Sv39

open ByteMem

/-- `PTE.PPN`. -/
def ppn (e : Word) : BitVec 44 := e.extractLsb' 10 44

/-- The bits 63..54, which have to be zero. -/
def reserved (e : Word) : BitVec 10 := e.extractLsb' 54 10

/-- The bits 9..0: `V`, `R`, `W`, `X`, `U`, `G`, `A`, `D` and the two for software. -/
def flags (e : Word) : BitVec 10 := e.extractLsb' 0 10

def valid (e : Word) : Bool := e.getLsbD 0
def readable (e : Word) : Bool := e.getLsbD 1
def writable (e : Word) : Bool := e.getLsbD 2
def executable (e : Word) : Bool := e.getLsbD 3

/-- The access faults at this entry whatever its level. -/
def faults (e : Word) : Bool := !valid e || (!readable e && writable e) || reserved e != 0

/-- The entry is a leaf. -/
def isLeaf (e : Word) : Bool := readable e || executable e

/-- `va.VPN[i]`. -/
def vpn (va : Word) (i : ℕ) : BitVec 9 := va.extractLsb' (12 + 9 * i) 9

/-- The address of the entry for `va` at level `i` in the table with page number `a`. -/
def entryAddr (a : BitVec 44) (va : Word) (i : ℕ) : Word :=
  a.setWidth 64 <<< 12 + 8 * (vpn va i).setWidth 64

/-- A successful translation: the physical address, and the flags and the level of the leaf. -/
structure Translation where
  pa : Word
  flags : BitVec 10
  level : ℕ

/-- The walk from the table with page number `a` at level `i`. -/
def walkFrom (m : Mem) (va : Word) : ℕ → BitVec 44 → Option Translation
  | 0, a =>
      let e := m.load64 (entryAddr a va 0)
      if faults e then none
      else if isLeaf e then
        some ⟨(ppn e).setWidth 64 <<< 12 + (va.extractLsb' 0 12).setWidth 64, flags e, 0⟩
      else none
  | i + 1, a =>
      let e := m.load64 (entryAddr a va (i + 1))
      if faults e then none
      else if isLeaf e then
        -- a superpage
        if (ppn e).toNat % 2 ^ (9 * (i + 1)) = 0 then
          some ⟨(ppn e).setWidth 64 <<< 12 + (va.extractLsb' 0 (12 + 9 * (i + 1))).setWidth 64,
            flags e, i + 1⟩
        else none
      else walkFrom m va i (ppn e)

/-- Bits 63..39 repeat bit 38. -/
def Canonical (va : Word) : Prop := (va.extractLsb' 0 39).signExtend 64 = va

instance (va : Word) : Decidable (Canonical va) := inferInstanceAs (Decidable (_ = _))

/-- The translation of `va` under `satp`; `none` is a page fault. -/
def translate (m : Mem) (satp va : Word) : Option Translation :=
  if satp.extractLsb' 60 4 = 8 ∧ Canonical va then walkFrom m va 2 (satp.extractLsb' 0 44)
  else none

/-! ### The three ways through one level -/

section Level

variable {m : Mem} {va : Word} {a : BitVec 44} {i : ℕ} {e : Word}

theorem walkFrom_fault (he : m.load64 (entryAddr a va i) = e) (h : faults e = true) :
    walkFrom m va i a = none := by
  cases i <;> simp [walkFrom, he, h]

/-- An entry that points to the next table. -/
theorem walkFrom_descend (he : m.load64 (entryAddr a va (i + 1)) = e) (h : faults e = false)
    (hleaf : isLeaf e = false) : walkFrom m va (i + 1) a = walkFrom m va i (ppn e) := by
  simp [walkFrom, he, h, hleaf]

/-- A leaf at the lowest level. -/
theorem walkFrom_leaf (he : m.load64 (entryAddr a va 0) = e) (h : faults e = false)
    (hleaf : isLeaf e = true) : walkFrom m va 0 a =
      some ⟨(ppn e).setWidth 64 <<< 12 + (va.extractLsb' 0 12).setWidth 64, flags e, 0⟩ := by
  simp [walkFrom, he, h, hleaf]

end Level

end Sv39
