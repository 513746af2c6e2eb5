import HxcOS.Lib.Memory

/-!
# Characters and strings

A `char` is a byte, without a sign as on RISC-V.  A string is a sequence of characters other than
NUL in memory, with a NUL behind it.
-/

namespace HxcOS

open ByteMem

/-- A character constant. -/
def ascii (c : Char) : Byte := BitVec.ofNat 8 c.toNat

/-- A digit, as it is written. -/
def digitChar (d : ℕ) : Byte :=
  if d < 10 then BitVec.ofNat 8 (0x30 + d) else BitVec.ofNat 8 (0x61 + (d - 10))

/-- The characters `s` are stored at `p`, and then a NUL. -/
def StringAt (m : Mem) : Word → List Byte → Prop
  | p, [] => m.byte p = 0
  | p, c :: s => m.byte p = c ∧ c ≠ 0 ∧ StringAt m (p + 1) s

namespace StringAt

instance decidable (m : Mem) : ∀ p s, Decidable (StringAt m p s)
  | p, [] => inferInstanceAs (Decidable (m.byte p = 0))
  | p, c :: s =>
    have := decidable m (p + 1) s
    inferInstanceAs (Decidable (m.byte p = c ∧ c ≠ 0 ∧ StringAt m (p + 1) s))

variable {m : Mem} {p : Word} {s : List Byte}

/-- The first byte is the first character, or the NUL. -/
theorem byte_eq (h : StringAt m p s) : m.byte p = s.headD 0 := by
  cases s with
  | nil => exact h
  | cons c s => exact h.1

/-- A string is in memory behind the characters in front of it. -/
theorem right {t : List Byte} (h : StringAt m p (s ++ t)) :
    StringAt m (p + BitVec.ofNat 64 s.length) t := by
  induction s generalizing p with
  | nil => simpa using h
  | cons c s ih =>
    rw [List.length_cons, ← add_one_add]
    exact ih h.2.2

theorem nul (h : StringAt m p s) : m.byte (p + BitVec.ofNat 64 s.length) = 0 := by
  induction s generalizing p with
  | nil =>
    rw [List.length_nil, BitVec.add_zero]
    exact h
  | cons c s ih =>
    rw [List.length_cons, ← add_one_add]
    exact ih h.2.2

theorem ne_nul (h : StringAt m p s) {i : ℕ} (hi : i < s.length) :
    m.byte (p + BitVec.ofNat 64 i) ≠ 0 := by
  induction s generalizing p i with
  | nil => simp at hi
  | cons c s ih =>
    obtain ⟨hc, hne, hrest⟩ := h
    cases i with
    | zero => simpa [hc] using hne
    | succ i =>
      rw [← add_one_add]
      exact ih hrest (by simpa using hi)

/-- A string ends before it comes back to its beginning. -/
theorem length_lt (h : StringAt m p s) : s.length < 2 ^ 64 := by
  by_contra hlong
  obtain ⟨i, hi⟩ := Nat.exists_eq_add_of_le (not_lt.1 hlong)
  refine h.ne_nul (i := i) (by omega) ?_
  have hnul := h.nul
  rwa [hi, BitVec.ofNat_add, show BitVec.ofNat 64 (2 ^ 64) = 0#64 from rfl, BitVec.zero_add] at hnul

end StringAt

/-- A memory with a text at `0x1000`. -/
def textMem (s : List Byte) : Mem := ⟨fun b => s.getD (b - 0x1000).toNat 0, []⟩

end HxcOS
