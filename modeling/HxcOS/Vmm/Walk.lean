import HxcOS.Lib.Radix
import HxcOS.Model.Vmm

/-!
# The page tables in memory as a forest

`forest tables m` reads the nodes of all page tables off the memory `m`: an entry leads somewhere
when its `V` bit is set.  `page_walk` then is the walk along the three indices of the address, and
`lookup` returns what the walk along all three finds (`lookup_eq_walk`).

Indices are listed from the inside out, so that `path va = [idx0 va, idx1 va, idx2 va]`.  The path
carries the same information as the key, bits 38..12 of the address (`path_eq_iff`).
-/

namespace HxcOS

open ByteMem Radix

/-! ### The key of an address and its three indices -/

/-- Bits 38..12 of an address. -/
abbrev Key := BitVec 27

def key (va : Word) : Key := va.extractLsb' 12 27

def idx0 (va : Word) : Idx := va.extractLsb' 12 9
def idx1 (va : Word) : Idx := va.extractLsb' 21 9
def idx2 (va : Word) : Idx := va.extractLsb' 30 9

/-- The indices on the way to the entry for `va`, the last one first. -/
def path (va : Word) : List Idx := [idx0 va, idx1 va, idx2 va]

/-- The indices of a key. -/
def Key.path (k : Key) : List Idx := [k.extractLsb' 0 9, k.extractLsb' 9 9, k.extractLsb' 18 9]

theorem path_eq_key_path (va : Word) : path va = (key va).path := by
  simp only [path, Key.path, key, idx0, idx1, idx2, List.cons.injEq, and_true]
  refine ⟨?_, ?_, ?_⟩ <;>
  · apply BitVec.eq_of_toNat_eq
    simp only [BitVec.extractLsb'_toNat, Nat.shiftRight_eq_div_pow]
    omega

theorem Key.path_injective : Function.Injective Key.path := by
  intro k k' h
  simp only [Key.path, List.cons.injEq, and_true] at h
  have h0 := congrArg BitVec.toNat h.1
  have h1 := congrArg BitVec.toNat h.2.1
  have h2 := congrArg BitVec.toNat h.2.2
  simp only [BitVec.extractLsb'_toNat, Nat.shiftRight_eq_div_pow] at h0 h1 h2
  apply BitVec.eq_of_toNat_eq
  have := k.isLt
  have := k'.isLt
  omega

theorem path_eq_iff {va vb : Word} : path va = path vb ↔ key va = key vb := by
  rw [path_eq_key_path, path_eq_key_path, Key.path_injective.eq_iff]

theorem vpn0_eq (va : Word) : vpn0 va = (idx0 va).setWidth 64 := by
  apply BitVec.eq_of_toNat_eq
  simp only [vpn0, idx0, pgShift, BitVec.toNat_and, BitVec.toNat_ushiftRight,
    BitVec.toNat_setWidth, BitVec.extractLsb'_toNat, Nat.shiftRight_eq_div_pow]
  rw [show (0x1FF : Word).toNat = 2 ^ 9 - 1 from rfl, Nat.and_two_pow_sub_one_eq_mod]
  omega

theorem vpn1_eq (va : Word) : vpn1 va = (idx1 va).setWidth 64 := by
  apply BitVec.eq_of_toNat_eq
  simp only [vpn1, idx1, pgShift, BitVec.toNat_and, BitVec.toNat_ushiftRight,
    BitVec.toNat_setWidth, BitVec.extractLsb'_toNat, Nat.shiftRight_eq_div_pow]
  rw [show (0x1FF : Word).toNat = 2 ^ 9 - 1 from rfl, Nat.and_two_pow_sub_one_eq_mod]
  omega

theorem vpn2_eq (va : Word) : vpn2 va = (idx2 va).setWidth 64 := by
  apply BitVec.eq_of_toNat_eq
  simp only [vpn2, idx2, pgShift, BitVec.toNat_and, BitVec.toNat_ushiftRight,
    BitVec.toNat_setWidth, BitVec.extractLsb'_toNat, Nat.shiftRight_eq_div_pow]
  rw [show (0x1FF : Word).toNat = 2 ^ 9 - 1 from rfl, Nat.and_two_pow_sub_one_eq_mod]
  omega

theorem add_vpn0 (q va : Word) : q + 8 * vpn0 va = entry q (idx0 va) := by rw [vpn0_eq, entry]
theorem add_vpn1 (q va : Word) : q + 8 * vpn1 va = entry q (idx1 va) := by rw [vpn1_eq, entry]
theorem add_vpn2 (q va : Word) : q + 8 * vpn2 va = entry q (idx2 va) := by rw [vpn2_eq, entry]

/-! ### The forest -/

/-- The entry `i` of the node `q`. -/
def pte (m : Mem) (q : Word) (i : Idx) : PageTableEntry := loadPte m (entry q i)

theorem loadPte_entry (m : Mem) (q : Word) (i : Idx) : loadPte m (entry q i) = pte m q i := rfl

/-- Where the entry `i` of the node `q` leads, if it is valid. -/
def child (m : Mem) (q : Word) (i : Idx) : Option Word :=
  if (pte m q i).isValid then some (pte m q i).getPa else none

/-- The trees of all page tables. -/
def forest (tables : List PageTable) (m : Mem) : Forest ℕ Word Idx where
  root t := (tables[t]?).map PageTable.root
  child := child m

@[simp] theorem forest_child (tables : List PageTable) (m : Mem) :
    (forest tables m).child = child m := rfl

theorem forest_root {tables : List PageTable} {t : ℕ} {tbl : PageTable}
    (h : tables[t]? = some tbl) (m : Mem) : (forest tables m).root t = some tbl.root := by
  simp [forest, h]

/-- The roots do not depend on the memory. -/
theorem forest_root_eq (tables : List PageTable) (m m' : Mem) :
    (forest tables m).root = (forest tables m').root := rfl

/-- A table is added behind the others. -/
theorem forest_root_append (tables : List PageTable) (tbl : PageTable) (m : Mem) :
    (forest (tables ++ [tbl]) m).root =
      Function.update (forest tables m).root tables.length (some tbl.root) := by
  funext u
  rw [Function.update_apply]
  simp only [forest]
  split_ifs with hu
  · simp [hu]
  · rcases Nat.lt_or_ge u tables.length with hlt | hge
    · rw [List.getElem?_append_left hlt]
    · rw [List.getElem?_eq_none (by simp; omega), List.getElem?_eq_none hge]

theorem child_eq_some_iff {m : Mem} {q : Word} {i : Idx} {p : Word} :
    child m q i = some p ↔ (pte m q i).isValid = true ∧ (pte m q i).getPa = p := by
  unfold child
  split_ifs with h <;> simp [h]

theorem child_eq_none_iff {m : Mem} {q : Word} {i : Idx} :
    child m q i = none ↔ ¬ (pte m q i).isValid = true := by
  unfold child
  split_ifs with h <;> simp [h]

/-- Entries that hold the same words lead to the same places. -/
theorem child_congr {m m' : Mem} {q : Word} {i : Idx}
    (h : m'.load64 (entry q i) = m.load64 (entry q i)) : child m' q i = child m q i := by
  unfold child pte loadPte
  rw [h]

theorem child_of_zero {m : Mem} {q : Word} {i : Idx} (h : m.load64 (entry q i) = 0) :
    child m q i = none := by
  rw [child_eq_none_iff, pte, loadPte, h]
  decide

/-! ### The walks of the source -/

section Walks

variable {tables : List PageTable} {t : ℕ} {tbl : PageTable} {m : Mem}

/-- `page_walk` reaches the valid entry at the end of the path, if there is one. -/
theorem pageWalk_eq (ht : tables[t]? = some tbl) (va : Word) :
    tbl.pageWalk m va = match (forest tables m).walk t [idx1 va, idx2 va] with
      | none => 0
      | some q => if (pte m q (idx0 va)).isValid then entry q (idx0 va) else 0 := by
  have hroot := forest_root ht m
  have hwalk : (forest tables m).walk t [idx1 va, idx2 va] =
      (child m tbl.root (idx2 va)).bind fun q => child m q (idx1 va) := by
    rw [Forest.walk_cons, Forest.walk_cons, Forest.walk_nil, hroot]
    rfl
  rw [hwalk]
  simp only [PageTable.pageWalk, PageTableEntry.step, add_vpn0, add_vpn1, add_vpn2, loadPte_entry]
  by_cases hv2 : (pte m tbl.root (idx2 va)).isValid = true
  · rw [show child m tbl.root (idx2 va) = some (pte m tbl.root (idx2 va)).getPa from
      child_eq_some_iff.2 ⟨hv2, rfl⟩, Option.bind_some]
    by_cases hv1 : (pte m (pte m tbl.root (idx2 va)).getPa (idx1 va)).isValid = true
    · rw [show child m (pte m tbl.root (idx2 va)).getPa (idx1 va) =
        some (pte m (pte m tbl.root (idx2 va)).getPa (idx1 va)).getPa from
          child_eq_some_iff.2 ⟨hv1, rfl⟩]
      by_cases hv0 : (pte m (pte m (pte m tbl.root (idx2 va)).getPa (idx1 va)).getPa
        (idx0 va)).isValid = true <;> simp [hv2, hv1, hv0]
    · rw [child_eq_none_iff.2 hv1]
      simp [hv2, hv1]
  · rw [child_eq_none_iff.2 hv2]
    simp [hv2]

/-- `lookup` returns the page at the end of the path, or `NULL`. -/
theorem lookup_eq_walk (ht : tables[t]? = some tbl) (va : Word)
    (hnode : ∀ q, (forest tables m).walk t [idx1 va, idx2 va] = some q →
      entry q (idx0 va) ≠ 0) :
    tbl.lookup m va = ((forest tables m).walk t (path va)).getD 0 := by
  rw [PageTable.lookup, pageWalk_eq ht, path]
  cases hq : (forest tables m).walk t [idx1 va, idx2 va] with
  | none =>
    rw [Forest.walk_cons, hq]
    rfl
  | some q =>
    have hentry := hnode q hq
    rw [Forest.walk_cons_of_eq hq, forest_child]
    by_cases hv : (pte m q (idx0 va)).isValid = true
    · rw [show child m q (idx0 va) = some (pte m q (idx0 va)).getPa from
        child_eq_some_iff.2 ⟨hv, rfl⟩]
      simp only [hv, if_true]
      rw [if_neg hentry, loadPte_entry, Option.getD_some]
    · rw [child_eq_none_iff.2 hv]
      simp [hv]

end Walks

end HxcOS
