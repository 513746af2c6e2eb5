import HxcOS.Model.Pmm
import HxcOS.Model.String

/-!
# `os/src/vmm.cpp`: page tables

A page table is a three-level tree of 512-entry nodes, each node one page taken from the allocator.
The two walks compute the same three indices from bits 38..12 of the address; `pageWalk` gives up
at the first invalid entry, `pageWalkAlloc` puts a zeroed page there.

Entries are 64-bit words: bits 63..10 hold the page number, bits 9..0 the flags.  The lemmas at
the end are the arithmetic of that packing.
-/

namespace HxcOS

open ByteMem

namespace PTEFlags

def NONE : Word := 0
def V : Word := 1 <<< 0
def R : Word := 1 <<< 1
def W : Word := 1 <<< 2
def X : Word := 1 <<< 3
def U : Word := 1 <<< 4
def COW : Word := 1 <<< 8

end PTEFlags

/-- `permission_code(write, read, exec, user, cow)`. -/
def permissionCode (write read exec user cow : Bool) : Word :=
  let perm := PTEFlags.V
  let perm := if write then perm ||| PTEFlags.W else perm
  let perm := if read then perm ||| PTEFlags.R else perm
  let perm := if exec then perm ||| PTEFlags.X else perm
  let perm := if user then perm ||| PTEFlags.U else perm
  if cow then perm ||| PTEFlags.COW else perm

/-- A wrapper around one 64-bit word. -/
structure PageTableEntry where
  value : Word
  deriving DecidableEq

namespace PageTableEntry

/-- `PageTableEntry(void *pa, uint64 flag)`. -/
def new (pa flag : Word) : PageTableEntry := ⟨pa >>> 12 <<< 10 ||| flag⟩

def getPa (e : PageTableEntry) : Word := e.value >>> 10 <<< pgShift
def getFlag (e : PageTableEntry) : Word := e.value &&& 0x3FF
def isValid (e : PageTableEntry) : Bool := e.value &&& PTEFlags.V != 0

/-- `(PageTableEntry *)getPa() + vpn`. -/
def step (e : PageTableEntry) (vpn : Word) : Word := e.getPa + 8 * vpn

end PageTableEntry

def invalidPte : PageTableEntry := .new 0 PTEFlags.NONE

/-- `*pte`, read and assigned. -/
def loadPte (m : Mem) (pte : Word) : PageTableEntry := ⟨m.load64 pte⟩
def storePte (m : Mem) (pte : Word) (e : PageTableEntry) : Mem := m.store64 pte e.value

/-- `static inline void *alloc_empty_page()`. -/
def allocEmptyPage (s : Pmm) : Word × Pmm :=
  let (p, s) := allocPage s
  let (p, mem) := memset s.mem p 0 pgSize
  (p, { s with mem := mem })

/-- The indices `vpn0`, `vpn1`, `vpn2` as both walks compute them. -/
def vpn0 (va : Word) : Word := va >>> pgShift &&& 0x1FF
def vpn1 (va : Word) : Word := va >>> pgShift >>> 9 &&& 0x1FF
def vpn2 (va : Word) : Word := va >>> pgShift >>> 9 >>> 9 &&& 0x1FF

/-- The object's only field. -/
structure PageTable where
  root : Word

namespace PageTable

/-- `PageTable::PageTable()`. -/
def new (s : Pmm) : PageTable × Pmm :=
  let (p, s) := allocEmptyPage s
  (⟨p⟩, s)

/-- The pointer to the valid entry for `va` in the lowest level, or `NULL`. -/
def pageWalk (t : PageTable) (m : Mem) (va : Word) : Word :=
  let pte := t.root + 8 * vpn2 va
  if !(loadPte m pte).isValid then 0 else
  let pte := (loadPte m pte).step (vpn1 va)
  if !(loadPte m pte).isValid then 0 else
  let pte := (loadPte m pte).step (vpn0 va)
  if !(loadPte m pte).isValid then 0 else
  pte

/-- The pointer to the entry for `va` in the lowest level, whose nodes are made as needed; the
entry itself may be invalid. -/
def pageWalkAlloc (t : PageTable) (s : Pmm) (va : Word) : Word × Pmm :=
  let pte := t.root + 8 * vpn2 va
  if !(loadPte s.mem pte).isValid then
    -- the middle node is missing, and with it the lowest one
    let (newPage, s) := allocEmptyPage s
    let s := { s with mem := storePte s.mem pte (.new newPage PTEFlags.V) }
    let pte := newPage + 8 * vpn1 va
    let (newPage, s) := allocEmptyPage s
    let s := { s with mem := storePte s.mem pte (.new newPage PTEFlags.V) }
    (newPage + 8 * vpn0 va, s)
  else
    let pte := (loadPte s.mem pte).step (vpn1 va)
    if !(loadPte s.mem pte).isValid then
      let (newPage, s) := allocEmptyPage s
      let s := { s with mem := storePte s.mem pte (.new newPage PTEFlags.V) }
      (newPage + 8 * vpn0 va, s)
    else
      ((loadPte s.mem pte).step (vpn0 va), s)

/-- `int PageTable::add(void *va, void *pa, uint64 perm)`. -/
def add (t : PageTable) (s : Pmm) (va pa perm : Word) : ℤ × Pmm :=
  let (pte, s) := t.pageWalkAlloc s va
  if (loadPte s.mem pte).isValid then (-1, s)
  else (0, { s with mem := storePte s.mem pte (.new pa perm) })

/-- `void *PageTable::lookup(void *va) const`. -/
def lookup (t : PageTable) (m : Mem) (va : Word) : Word :=
  let pte := t.pageWalk m va
  if pte = 0 then 0 else (loadPte m pte).getPa

/-- `int PageTable::erase(void *va)`. -/
def erase (t : PageTable) (s : Pmm) (va : Word) : ℤ × Pmm :=
  let pte := t.pageWalk s.mem va
  if pte = 0 then (-1, s) else
  let s := freePage s (loadPte s.mem pte).getPa
  (0, { s with mem := storePte s.mem pte invalidPte })

/-- `uint64 PageTable::make_satp()`. -/
def makeSatp (t : PageTable) : Word := 8 <<< 60 ||| t.root >>> 12

end PageTable

/-! ### Packing and unpacking entries -/

namespace PageTableEntry

theorem toNat_new (pa : Word) {flag : Word} (hf : flag.toNat < 1024) :
    (new pa flag).value.toNat = pa.toNat / 4096 * 1024 + flag.toNat := by
  have hpa := pa.isLt
  have hsum : pa.toNat / 4096 * 1024 < 2 ^ 64 := by omega
  have hor := Nat.shiftLeft_add_eq_or_of_lt (show flag.toNat < 2 ^ 10 from hf) (pa.toNat / 4096)
  rw [new, BitVec.toNat_or, BitVec.toNat_shiftLeft, BitVec.toNat_ushiftRight,
    Nat.shiftRight_eq_div_pow, Nat.shiftLeft_eq, Nat.mod_eq_of_lt hsum]
  rw [Nat.shiftLeft_eq] at hor
  exact hor.symm

theorem getPa_new {pa flag : Word} (hpa : PageAligned pa) (hf : flag.toNat < 1024) :
    (new pa flag).getPa = pa := by
  have hv := toNat_new pa hf
  have hlt := pa.isLt
  unfold PageAligned at hpa
  apply BitVec.eq_of_toNat_eq
  rw [getPa, BitVec.toNat_shiftLeft, BitVec.toNat_ushiftRight, hv, Nat.shiftRight_eq_div_pow,
    Nat.shiftLeft_eq, pgShift]
  omega

theorem getFlag_new {pa flag : Word} (hf : flag.toNat < 1024) : (new pa flag).getFlag = flag := by
  have hv := toNat_new pa hf
  apply BitVec.eq_of_toNat_eq
  rw [getFlag, BitVec.toNat_and, hv, show (0x3FF : Word).toNat = 2 ^ 10 - 1 from rfl,
    Nat.and_two_pow_sub_one_eq_mod]
  omega

theorem isValid_iff (e : PageTableEntry) : e.isValid = true ↔ e.value.toNat % 2 = 1 := by
  have hand : (e.value &&& PTEFlags.V).toNat = e.value.toNat % 2 := by
    rw [BitVec.toNat_and, show PTEFlags.V.toNat = 2 ^ 1 - 1 from rfl,
      Nat.and_two_pow_sub_one_eq_mod]
  rw [isValid, bne_iff_ne, ne_eq, ← BitVec.toNat_inj, hand]
  simp

theorem isValid_new {pa flag : Word} (hf : flag.toNat < 1024) (hv : flag.toNat % 2 = 1) :
    (new pa flag).isValid = true := by
  rw [isValid_iff, toNat_new pa hf]
  omega

end PageTableEntry

@[simp] theorem invalidPte_value : invalidPte.value = 0 := rfl

/-- Every value of `permission_code` fits the flag bits and has `V` set. -/
theorem permissionCode_bounds (write read exec user cow : Bool) :
    (permissionCode write read exec user cow).toNat < 1024 ∧
      (permissionCode write read exec user cow).toNat % 2 = 1 := by
  revert write read exec user cow
  decide

end HxcOS
