import HxcOS.Lib.Numeral
import HxcOS.Model.KernelPrint

/-!
# What the conversions of `printf` emit

The digit loop of `%d` is right for every number but the least one: its negation is itself, so that
the loop sees a negative number and stops after one digit, which is none (`printInt_intMin`).  The
loop of `%p` emits sixteen digits, the loop of `%s` the characters of a string.
-/

namespace HxcOS

open ByteMem Numeral

/-- A signed number in base ten. -/
def decimal (num : BitVec 32) : List Byte :=
  (if num.toInt < 0 then [ascii '-'] else []) ++ (numeral 10 num.toInt.natAbs).map digitChar

/-- A word in base sixteen, with zeros in front. -/
def hexadecimal (ptr : Word) : List Byte :=
  [ascii '0', ascii 'x'] ++ (padded 16 ptr.toNat 16).map digitChar

/-- The notation is canonical: a sign for negative numbers only, digits from `0` to `9`, and no zero in
front. -/
theorem decimal_canonical (num : BitVec 32) :
    ∃ ds : List ℕ, decimal num = (if num.toInt < 0 then [ascii '-'] else []) ++
        ds.map (fun d => BitVec.ofNat 8 (0x30 + d)) ∧
      (∀ d ∈ ds, d < 10) ∧ (ds.head? = some 0 → ds = [0]) ∧
      Nat.ofDigits 10 ds.reverse = num.toInt.natAbs := by
  have hdigit : ∀ d ∈ numeral 10 num.toInt.natAbs, d < 10 := numeral_digit_lt (by norm_num)
  refine ⟨numeral 10 num.toInt.natAbs, ?_, hdigit, numeral_of_head_zero, ofDigits_numeral⟩
  have hchars : (numeral 10 num.toInt.natAbs).map digitChar =
      (numeral 10 num.toInt.natAbs).map fun d => BitVec.ofNat 8 (0x30 + d) :=
    List.map_congr_left fun d hd => if_pos (hdigit d hd)
  rw [decimal, hchars]

/-- The notation has sixteen digits, which denote the word. -/
theorem hexadecimal_canonical (ptr : Word) :
    ∃ ds : List ℕ, hexadecimal ptr = [ascii '0', ascii 'x'] ++ ds.map digitChar ∧
      ds.length = 16 ∧ Nat.ofDigits 16 ds.reverse = ptr.toNat := by
  refine ⟨padded 16 ptr.toNat 16, rfl, padded_length, ?_⟩
  rw [ofDigits_padded]
  exact Nat.mod_eq_of_lt ptr.isLt

/-! ### `%d` -/

section Division

variable {num : BitVec 32}

theorem toNat_sdiv_ten (h : num.toNat < 2 ^ 31) : (num.sdiv 10).toNat = num.toNat / 10 := by
  have hmsb : num.msb = false := BitVec.msb_eq_false_iff_two_mul_lt.2 (by omega)
  rw [BitVec.sdiv_eq, hmsb, show (10 : BitVec 32).msb = false from rfl]
  exact BitVec.toNat_udiv

theorem toNat_srem_ten (h : num.toNat < 2 ^ 31) : (num.srem 10).toNat = num.toNat % 10 := by
  have hmsb : num.msb = false := BitVec.msb_eq_false_iff_two_mul_lt.2 (by omega)
  rw [BitVec.srem_eq, hmsb, show (10 : BitVec 32).msb = false from rfl]
  exact BitVec.toNat_umod

theorem toInt_pos_iff (h : num.toNat < 2 ^ 31) : 0 < num.toInt ↔ num.toNat ≠ 0 := by
  rw [BitVec.toInt_eq_toNat_cond, if_pos (by omega)]
  omega

/-- The character of the last digit. -/
theorem digit_srem_ten (h : num.toNat < 2 ^ 31) :
    (0x30 + num.srem 10).setWidth 8 = digitChar (num.toNat % 10) := by
  have hrem := toNat_srem_ten h
  have hlt := Nat.mod_lt num.toNat (show 10 > 0 by omega)
  apply BitVec.eq_of_toNat_eq
  rw [digitChar, if_pos hlt, BitVec.toNat_setWidth, BitVec.toNat_add, hrem, BitVec.toNat_ofNat]
  rw [show (0x30 : BitVec 32).toNat = 0x30 from rfl]
  omega

end Division

/-- The digits are found from the back. -/
theorem printDigits_eq {room : ℕ} {num : BitVec 32} (h : num.toNat < 2 ^ 31)
    (hroom : num.toNat < 10 ^ room) (hpos : 0 < room) (buffer : List Byte) :
    printDigits room num buffer =
      some (buffer ++ ((numeral 10 num.toNat).map digitChar).reverse) := by
  induction room generalizing num buffer with
  | zero => omega
  | succ room ih =>
    have hquot := toNat_sdiv_ten h
    have hquot_lt : (num.sdiv 10).toNat < 2 ^ 31 := by omega
    rw [printDigits]
    simp only [digit_srem_ten h, toInt_pos_iff hquot_lt, hquot]
    split_ifs with hmore
    · have hten : 10 ≤ num.toNat := by omega
      have hroom' : num.toNat / 10 < 10 ^ room := by
        rw [pow_succ] at hroom
        omega
      have hpos' : 0 < room := Nat.pos_of_ne_zero fun h0 => by
        rw [h0, pow_zero] at hroom'
        omega
      rw [ih hquot_lt (by rw [hquot]; exact hroom') hpos', hquot, numeral_of_le (by norm_num) hten]
      simp
    · rw [numeral_of_lt (by omega), Nat.mod_eq_of_lt (by omega)]
      rfl

/-- Every number but the least one is printed in base ten, and fits into the buffer. -/
theorem printInt_eq {num : BitVec 32} (h : num ≠ BitVec.intMin 32) :
    printInt num = some (decimal num) := by
  have hmin : num.toNat ≠ 2 ^ 31 := fun h' => h (BitVec.eq_of_toNat_eq (by rw [h']; rfl))
  have hlt := num.isLt
  have hint := BitVec.toInt_eq_toNat_cond num
  unfold printInt decimal
  by_cases hneg : num.toInt < 0
  · have habs : (-num).toNat = num.toInt.natAbs := by
      rw [hint] at hneg ⊢
      rw [BitVec.toNat_neg]
      split_ifs at hneg ⊢ <;> omega
    have hsmall : (-num).toNat < 2 ^ 31 := by
      rw [hint] at hneg
      rw [BitVec.toNat_neg]
      split_ifs at hneg <;> omega
    simp only [if_pos hneg]
    rw [printDigits_eq hsmall (by omega) (by omega), habs]
    simp
  · have habs : num.toNat = num.toInt.natAbs := by
      rw [hint] at hneg ⊢
      split_ifs at hneg ⊢ <;> omega
    have hsmall : num.toNat < 2 ^ 31 := by
      rw [hint] at hneg
      split_ifs at hneg <;> omega
    simp only [if_neg hneg]
    rw [printDigits_eq hsmall (by omega) (by omega), habs]
    simp

/-- The least number is its own negative, and the remainder is -8. -/
theorem printInt_intMin : printInt (BitVec.intMin 32) = some [ascii '-', ascii '('] := by decide

theorem decimal_intMin_length : (decimal (BitVec.intMin 32)).length = 11 := by decide

/-! ### `%p` -/

theorem hexDigits_getD {d : ℕ} (hd : d < 16) : hexDigits.getD d 0 = digitChar d := by
  revert d
  decide

theorem toNat_nibble (ptr : Word) (k : ℕ) :
    (ptr >>> (4 * k) &&& 0xF).toNat = ptr.toNat / 16 ^ k % 16 := by
  rw [BitVec.toNat_and, BitVec.toNat_ushiftRight, show (0xF : Word).toNat = 2 ^ 4 - 1 from rfl,
    Nat.and_two_pow_sub_one_eq_mod, Nat.shiftRight_eq_div_pow, pow_mul]
  norm_num

theorem printNibbles_eq (ptr : Word) (k : ℕ) :
    printNibbles ptr k = (padded 16 ptr.toNat k).map digitChar := by
  induction k with
  | zero => rfl
  | succ k ih =>
    rw [printNibbles, padded_succ, List.map_cons, ih, toNat_nibble,
      hexDigits_getD (Nat.mod_lt _ (by norm_num))]

theorem printP_eq (ptr : Word) : printP ptr = hexadecimal ptr := by
  rw [printP, printNibbles_eq, hexadecimal]

/-! ### `%s` -/

theorem putsFor_eq {m : Mem} {p : Word} {s : List Byte} (h : StringAt m p s) {n : ℕ}
    (hn : s.length < n) : putsFor m n p = some s := by
  induction s generalizing p n with
  | nil =>
    obtain ⟨n, rfl⟩ := Nat.exists_eq_succ_of_ne_zero (Nat.ne_of_gt (Nat.zero_lt_of_lt hn))
    exact if_pos h
  | cons c s ih =>
    obtain ⟨hc, hne, hrest⟩ := h
    obtain ⟨n, rfl⟩ := Nat.exists_eq_succ_of_ne_zero (Nat.ne_of_gt (Nat.zero_lt_of_lt hn))
    rw [putsFor, if_neg (by rw [hc]; exact hne), hc, ih hrest (by simpa using hn)]
    rfl

/-- `puts` emits the string. -/
theorem puts_eq {m : Mem} {p : Word} {s : List Byte} (h : StringAt m p s) : puts m p = some s :=
  putsFor_eq h h.length_lt

end HxcOS
