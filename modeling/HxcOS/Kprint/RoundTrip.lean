import HxcOS.Kprint.Printf
import HxcOS.String.Atol

/-!
# `printf` and `atol`

`atol` reads back what `%d` emits, spaces in front included, for every number but the least one
(`printf_atol_iff`).  For the least number `%d` emits `-(`, and `atol` takes the bracket for a digit.
-/

namespace HxcOS

open ByteMem Numeral

/-- `k` spaces and `%d`. -/
def paddedFormat (k : ℕ) : List Byte := List.replicate k (ascii ' ') ++ [ascii '%', ascii 'd']

theorem renders_paddedFormat (m : Mem) (k : ℕ) (num : BitVec 32) :
    Renders emitted m (paddedFormat k) [.int num] [num]
      (List.replicate k (ascii ' ') ++ emitted num) := by
  induction k with
  | zero =>
    have hnil : Renders emitted m [] [] [] [] := .nil
    have hd := Renders.conversion (.d num) hnil
    simp only [List.append_nil] at hd
    exact hd
  | succ k ih => exact .char (by decide) ih

/-- The notation of a number, behind `k` spaces. -/
def numberText (k : ℕ) (num : BitVec 32) : NumberText where
  spaces := k
  sign := if num.toInt < 0 then .minus else .absent
  digits := numeral 10 num.toInt.natAbs
  rest := []
  digits_ne_nil := numeral_ne_nil
  digits_lt := numeral_digit_lt (by decide)
  rest_head := by
    intro c hc
    cases hc

theorem numberText_text (k : ℕ) (num : BitVec 32) :
    (numberText k num).text = List.replicate k (ascii ' ') ++ decimal num := by
  unfold NumberText.text NumberText.body decimal numberText
  dsimp only
  rw [List.append_nil]
  split_ifs <;> rfl

theorem numberText_magnitude (k : ℕ) (num : BitVec 32) :
    (numberText k num).magnitude = num.toInt.natAbs := ofDigits_numeral

theorem numberText_value (k : ℕ) (num : BitVec 32) : (numberText k num).value = num.toInt := by
  rw [NumberText.value, Sign.apply, numberText_magnitude]
  by_cases hneg : num.toInt < 0
  · have hsign : (numberText k num).sign = .minus := if_pos hneg
    rw [hsign, if_pos rfl]
    omega
  · have hsign : (numberText k num).sign = .absent := if_neg hneg
    rw [hsign, if_neg (by decide)]
    omega

/-- The notation of a number is read back. -/
theorem atol_decimal (k : ℕ) (num : BitVec 32) {m : Mem} {p : Word}
    (hp : StringAt m p (List.replicate k (ascii ' ') ++ decimal num)) :
    ∃ res, atol m p = some res ∧ res.overflow = false ∧ res.val.toInt = num.toInt := by
  rw [← numberText_text] at hp
  have hsmall : ((numberText k num).magnitude : ℤ) < 2 ^ 63 := by
    have hlow := num.le_toInt
    have hhigh := num.toInt_lt
    rw [numberText_magnitude]
    omega
  have hbody := (numberText k num).body_overflow.2 ⟨hsmall, trivial⟩
  obtain ⟨hover, hval⟩ :=
    (finish_iff (numberText k num).sign hbody).2 ((numberText k num).toInt_body hbody)
  exact ⟨_, atol_eq _ hp, hover, hval.trans (numberText_value k num)⟩

/-- The bracket is pushed as the digit -8. -/
theorem atol_bracket (k : ℕ) {m : Mem} {p : Word}
    (hp : StringAt m p (List.replicate k (ascii ' ') ++ [ascii '-', ascii '('])) :
    atol m p = some ⟨8, false⟩ := by
  have hlen := hp.length_lt
  rw [List.length_append, List.length_replicate] at hlen
  have hrest := StringAt.right hp
  rw [List.length_replicate] at hrest
  rw [atol, skipSpaces_eq hp (by decide) (by omega), Option.bind_some]
  dsimp only
  rw [hrest.1, if_pos (Or.inl rfl), atolFor_eq hrest.2.2 (by decide), Option.map_some, if_pos rfl]
  decide

/-- **Numbers are printed so that they can be read back**, spaces in front included.  The call of
`printf` returns for every number; `atol` finds the number again in what it has emitted exactly when the
number is not the least one. -/
theorem printf_atol_iff {m : Mem} {a : Word} {k : ℕ} (hF : StringAt m a (paddedFormat k))
    (num : BitVec 32) (rest : List VaArg) :
    ∃ st, printf m a (.int num :: rest) = some st ∧ st.args = rest ∧
      ∀ m' p, StringAt m' p st.out →
        ((∃ res, atol m' p = some res ∧ res.overflow = false ∧ res.val.toInt = num.toInt) ↔
          num ≠ BitVec.intMin 32) := by
  obtain ⟨reads, hrun, -⟩ := printf_renders hF (renders_paddedFormat m k num) rest
  refine ⟨_, hrun, rfl, ?_⟩
  intro m' p hp
  dsimp only at hp
  unfold emitted at hp
  split_ifs at hp with hmin
  · refine iff_of_false ?_ (not_not.2 hmin)
    rintro ⟨res, hres, -, hval⟩
    rw [atol_bracket k hp] at hres
    obtain rfl := Option.some.inj hres
    rw [hmin] at hval
    exact absurd hval (by decide)
  · exact iff_of_true (atol_decimal k num hp) hmin

theorem printf_atol_iff_sample :
    ∃ st, printf (textMem (paddedFormat 2)) 0x1000 [.int (-42)] = some st ∧ st.args = [] ∧
      ∀ m' p, StringAt m' p st.out →
        ((∃ res, atol m' p = some res ∧ res.overflow = false ∧
            res.val.toInt = (-42 : BitVec 32).toInt) ↔
          (-42 : BitVec 32) ≠ BitVec.intMin 32) :=
  printf_atol_iff (k := 2) (by decide) (-42) []

end HxcOS
