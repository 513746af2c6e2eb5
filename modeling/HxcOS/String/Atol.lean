import HxcOS.Lib.Numeral
import HxcOS.Model.String

/-!
# `atol`

The loop pushes every character up to the NUL, digit or not (`atol_eq`), and it builds the number
before the sign is applied.  A text that starts with a number is read rightly when it ends with the
number and the number is not the least one.  A remainder is pushed as if it were digits; since its
characters differ from `'0'` by at most 207, only a number up to five can come back to itself, and
it does so when the characters take away what the factors of ten add (`atol_exact_iff`).
-/

namespace HxcOS

open ByteMem Numeral

/-- The range of `long`. -/
def InLong (x : ℤ) : Prop := -2 ^ 63 ≤ x ∧ x < 2 ^ 63

/-- `c - '0'` -/
def digitValue (c : Byte) : ℤ := c.toNat - 0x30

theorem digitValue_bounds (c : Byte) : -0x30 ≤ digitValue c ∧ digitValue c ≤ 207 := by
  have hc := c.isLt
  unfold digitValue
  omega

theorem digitValue_digitChar {d : ℕ} (hd : d < 10) : digitValue (digitChar d) = d := by
  unfold digitValue digitChar
  rw [if_pos hd, BitVec.toNat_ofNat]
  omega

/-! ### One digit -/

section Overflow

variable {x y : BitVec 64}

theorem saddOverflow_iff : x.saddOverflow y = false ↔ InLong (x.toInt + y.toInt) := by
  simp [BitVec.saddOverflow, InLong]
  omega

theorem smulOverflow_iff : x.smulOverflow y = false ↔ InLong (x.toInt * y.toInt) := by
  simp [BitVec.smulOverflow, InLong]
  omega

end Overflow

theorem toInt_digit (c : Byte) :
    ((c.setWidth 32 - (ascii '0').setWidth 32).signExtend 64).toInt = digitValue c := by
  have hc := c.isLt
  rw [BitVec.toInt_signExtend_of_le (by norm_num), BitVec.toInt_eq_toNat_cond, digitValue]
  rw [BitVec.toNat_sub, BitVec.toNat_setWidth, BitVec.toNat_setWidth,
    show (ascii '0').toNat = 0x30 from rfl]
  omega

namespace Long

variable {res : Long} {c : Byte} {s : List Byte}

theorem push_overflow : (res.push c).overflow = false ↔ res.overflow = false ∧
    InLong (res.val.toInt * 10) ∧ InLong (res.val.toInt * 10 + digitValue c) := by
  have hmul : res.val.smulOverflow 10 = false ↔ InLong (res.val.toInt * 10) := smulOverflow_iff
  simp only [push, Bool.or_eq_false_iff, and_assoc, hmul, saddOverflow_iff, toInt_digit]
  refine and_congr_right fun _ => and_congr_right fun hten => ?_
  rw [BitVec.toInt_mul_of_not_smulOverflow (Bool.eq_false_iff.1 (hmul.2 hten))]
  rfl

theorem toInt_push (h : (res.push c).overflow = false) :
    (res.push c).val.toInt = res.val.toInt * 10 + digitValue c := by
  simp only [push, Bool.or_eq_false_iff] at h
  obtain ⟨⟨-, hmul⟩, hadd⟩ := h
  simp only [push]
  rw [BitVec.toInt_add_of_not_saddOverflow (Bool.eq_false_iff.1 hadd),
    BitVec.toInt_mul_of_not_smulOverflow (Bool.eq_false_iff.1 hmul), toInt_digit]
  rfl

/-- The loop computes the number, as long as all numbers on the way are in the range. -/
theorem foldl_push_overflow : (s.foldl push res).overflow = false ↔
    res.overflow = false ∧ Passes InLong 10 res.val.toInt (s.map digitValue) := by
  induction s generalizing res with
  | nil => simp [Passes]
  | cons c s ih =>
    rw [List.foldl_cons, ih, push_overflow, List.map_cons, Passes, and_assoc, and_assoc]
    refine and_congr_right fun hres => and_congr_right fun hten => and_congr_right fun hsum => ?_
    rw [toInt_push (push_overflow.2 ⟨hres, hten, hsum⟩)]

theorem toInt_foldl_push (h : (s.foldl push res).overflow = false) :
    (s.foldl push res).val.toInt = horner 10 res.val.toInt (s.map digitValue) := by
  induction s generalizing res with
  | nil => rfl
  | cons c s ih =>
    rw [List.foldl_cons] at h ⊢
    have hpush := (foldl_push_overflow.1 h).1
    rw [ih h, toInt_push hpush, List.map_cons, horner_cons]

theorem neg_overflow : res.neg.overflow = false ↔
    res.overflow = false ∧ res.val.toInt ≠ -2 ^ 63 := by
  simp [neg, BitVec.negOverflow]

theorem toInt_neg (h : res.neg.overflow = false) : res.neg.val.toInt = -res.val.toInt := by
  simp only [neg, Bool.or_eq_false_iff] at h
  exact BitVec.toInt_neg_of_not_negOverflow (Bool.eq_false_iff.1 h.2)

end Long

/-! ### The loops -/

theorem skipSpaces_eq {m : Mem} {p : Word} {s : List Byte} {k : ℕ}
    (h : StringAt m p (List.replicate k (ascii ' ') ++ s)) (hs : s.headD 0 ≠ ascii ' ') {n : ℕ}
    (hn : k < n) : skipSpaces m n p = some (p + BitVec.ofNat 64 k) := by
  induction k generalizing p n with
  | zero =>
    obtain ⟨n, rfl⟩ := Nat.exists_eq_succ_of_ne_zero (Nat.ne_of_gt hn)
    have hbyte : m.byte p = s.headD 0 := StringAt.byte_eq h
    rw [skipSpaces, if_neg (by rw [hbyte]; exact hs), BitVec.add_zero]
  | succ k ih =>
    obtain ⟨n, rfl⟩ := Nat.exists_eq_succ_of_ne_zero (Nat.ne_of_gt (Nat.zero_lt_of_lt hn))
    obtain ⟨hbyte, -, hrest⟩ := h
    rw [skipSpaces, if_pos hbyte, ih hrest (by omega), add_one_add]

theorem atolFor_eq {m : Mem} {p : Word} {s : List Byte} (h : StringAt m p s) {n : ℕ}
    (hn : s.length < n) (res : Long) : atolFor m n p res = some (s.foldl Long.push res) := by
  induction s generalizing p n res with
  | nil =>
    obtain ⟨n, rfl⟩ := Nat.exists_eq_succ_of_ne_zero (Nat.ne_of_gt hn)
    exact if_pos h
  | cons c s ih =>
    obtain ⟨hbyte, hnul, hrest⟩ := h
    obtain ⟨n, rfl⟩ := Nat.exists_eq_succ_of_ne_zero (Nat.ne_of_gt (Nat.zero_lt_of_lt hn))
    rw [atolFor, if_neg (by rw [hbyte]; exact hnul), hbyte, ih hrest (by simpa using hn),
      List.foldl_cons]

/-! ### A text that starts with a number -/

/-- The sign in front of a number. -/
inductive Sign
  | absent
  | plus
  | minus
  deriving DecidableEq

namespace Sign

def chars : Sign → List Byte
  | absent => []
  | plus => [ascii '+']
  | minus => [ascii '-']

def apply (sign : Sign) (n : ℕ) : ℤ := if sign = minus then -n else n

/-- What the code does to the number that it has found. -/
def finish (sign : Sign) (res : Long) : Long := if sign = minus then res.neg else res

end Sign

/-- Spaces, a sign, digits, and a remainder that does not go on with a digit. -/
structure NumberText where
  spaces : ℕ
  sign : Sign
  digits : List ℕ
  rest : List Byte
  digits_ne_nil : digits ≠ []
  digits_lt : ∀ d ∈ digits, d < 10
  rest_head : ∀ c ∈ rest.head?, ¬ (0x30 ≤ c.toNat ∧ c.toNat ≤ 0x39)

namespace NumberText

variable (t : NumberText)

/-- The characters from the first digit on. -/
def body : List Byte := t.digits.map digitChar ++ t.rest

def text : List Byte := List.replicate t.spaces (ascii ' ') ++ (t.sign.chars ++ t.body)

/-- The number without its sign. -/
def magnitude : ℕ := Nat.ofDigits 10 t.digits.reverse

/-- The number that the text starts with. -/
def value : ℤ := t.sign.apply t.magnitude

end NumberText

theorem digitChar_ne {d : ℕ} (hd : d < 10) :
    digitChar d ≠ ascii ' ' ∧ digitChar d ≠ ascii '-' ∧ digitChar d ≠ ascii '+' := by
  revert d
  decide

/-- `atol` pushes everything from the first digit on, and then applies the sign. -/
theorem atol_eq (t : NumberText) {m : Mem} {p : Word} (h : StringAt m p t.text) :
    atol m p = some (t.sign.finish (t.body.foldl Long.push ⟨0, false⟩)) := by
  obtain ⟨d, ds, hds⟩ := List.exists_cons_of_ne_nil t.digits_ne_nil
  have hbody : t.body.headD 0 = digitChar d := by rw [NumberText.body, hds]; rfl
  obtain ⟨hspace, hminus, hplus⟩ := digitChar_ne (t.digits_lt d (by rw [hds]; exact List.mem_cons_self))
  have hhead : (t.sign.chars ++ t.body).headD 0 ≠ ascii ' ' := by
    cases t.sign with
    | absent => rw [Sign.chars, List.nil_append, hbody]; exact hspace
    | plus =>
      show ascii '+' ≠ ascii ' '
      decide
    | minus =>
      show ascii '-' ≠ ascii ' '
      decide
  have hlen := h.length_lt
  rw [NumberText.text, List.length_append, List.length_append, List.length_replicate] at hlen
  have hrest := StringAt.right h
  rw [List.length_replicate] at hrest
  have hfor := fun {q} (hq : StringAt m q t.body) =>
    atolFor_eq hq (show t.body.length < 2 ^ 64 by omega) ⟨0, false⟩
  rw [atol, skipSpaces_eq h hhead (by omega), Option.bind_some]
  dsimp only
  cases hsign : t.sign with
  | absent =>
    rw [hsign] at hrest
    have hbyte := hrest.byte_eq
    rw [Sign.chars, List.nil_append, hbody] at hbyte
    rw [hbyte, if_neg (not_or.2 ⟨hminus, hplus⟩), hfor hrest, Option.map_some, if_neg hminus]
    rfl
  | plus =>
    rw [hsign] at hrest
    have hbyte := hrest.1
    rw [hbyte, if_pos (Or.inr rfl), hfor hrest.2.2, Option.map_some, if_neg (by decide)]
    rfl
  | minus =>
    rw [hsign] at hrest
    have hbyte := hrest.1
    rw [hbyte, if_pos (Or.inl rfl), hfor hrest.2.2, Option.map_some, if_pos rfl]
    rfl

/-! ### The digits -/

/-- Digits do not bring a number down, so that it does not overflow before the end. -/
theorem passes_digits {l : List ℤ} {x : ℤ} (hx : 0 ≤ x) (hl : ∀ d ∈ l, 0 ≤ d)
    (hend : horner 10 x l < 2 ^ 63) : Passes InLong 10 x l := by
  induction l generalizing x with
  | nil => trivial
  | cons d l ih =>
    have hd := hl d List.mem_cons_self
    have hl' : ∀ d' ∈ l, 0 ≤ d' := fun d' hd' => hl d' (List.mem_cons_of_mem _ hd')
    have hle : x * 10 + d ≤ horner 10 (x * 10 + d) l :=
      le_horner (by norm_num) hl' (by omega)
    rw [horner_cons] at hend
    refine ⟨⟨by omega, by omega⟩, ⟨by omega, by omega⟩, ih (by omega) hl' hend⟩

/-! ### The remainder -/

section Remainder

variable {s : List Byte} {x n : ℤ}

theorem forall_digitValue_ge (s : List Byte) : ∀ d ∈ s.map digitValue, -0x30 ≤ d := by
  rw [List.forall_mem_map]
  exact fun c _ => (digitValue_bounds c).1

theorem forall_digitValue_le (s : List Byte) : ∀ d ∈ s.map digitValue, d ≤ 207 := by
  rw [List.forall_mem_map]
  exact fun c _ => (digitValue_bounds c).2

/-- A number that comes to an end near zero is near zero. -/
theorem bounds_of_horner (hnonneg : 0 ≤ horner 10 x (s.map digitValue))
    (hle : horner 10 x (s.map digitValue) ≤ 5) : -23 < x ∧ x < 6 := by
  constructor
  · by_contra hx
    have := horner_le (B := 10) (x := x) (by norm_num) (forall_digitValue_le s) (by omega)
    omega
  · by_contra hx
    have := le_horner (B := 10) (x := x) (by norm_num) (forall_digitValue_ge s) (by omega)
    omega

theorem passes_of_horner (hnonneg : 0 ≤ horner 10 x (s.map digitValue))
    (hle : horner 10 x (s.map digitValue) ≤ 5) : Passes InLong 10 x (s.map digitValue) := by
  induction s generalizing x with
  | nil => trivial
  | cons c s ih =>
    obtain ⟨hlow, hhigh⟩ := bounds_of_horner hnonneg hle
    rw [List.map_cons, horner_cons] at hnonneg hle
    obtain ⟨hlow', hhigh'⟩ := bounds_of_horner hnonneg hle
    exact ⟨⟨by omega, by omega⟩, ⟨by omega, by omega⟩, ih hnonneg hle⟩

/-- Only a small number comes back to itself. -/
theorem le_five_of_returns (hs : s ≠ []) (hreturn : horner 10 n (s.map digitValue) = n) :
    n ≤ 5 := by
  by_contra hn
  have := lt_horner (B := 10) (x := n) (by norm_num) (forall_digitValue_ge s) (by omega)
    (by simpa using hs)
  omega

/-- A remainder that leads back to the number does so without an overflow. -/
theorem passes_of_returns (hn : 0 ≤ n) (hreturn : horner 10 n (s.map digitValue) = n) :
    Passes InLong 10 n (s.map digitValue) := by
  by_cases hs : s = []
  · rw [hs]
    trivial
  · have hle := le_five_of_returns hs hreturn
    exact passes_of_horner (by omega) (by omega)

end Remainder

/-- What the remainder takes away from a number of which the digits are in front of it. -/
def deficit : List Byte → ℤ
  | [] => 0
  | c :: s => (0x30 - c.toNat) * 10 ^ s.length + deficit s

theorem horner_zero_eq (s : List Byte) : horner 10 0 (s.map digitValue) = -deficit s := by
  induction s with
  | nil => rfl
  | cons c s ih =>
    rw [List.map_cons, horner_cons, horner_eq, ih, List.length_map, deficit, digitValue]
    ring

theorem returns_iff (s : List Byte) (n : ℤ) :
    horner 10 n (s.map digitValue) = n ↔ n * (10 ^ s.length - 1) = deficit s := by
  rw [horner_eq, horner_zero_eq, List.length_map]
  constructor <;> intro h <;> linear_combination h

/-! ### The result -/

namespace NumberText

variable (t : NumberText)

theorem digits_map : (t.digits.map digitChar).map digitValue = t.digits.map (Nat.cast : ℕ → ℤ) := by
  rw [List.map_map]
  exact List.map_congr_left fun d hd => digitValue_digitChar (t.digits_lt d hd)

theorem horner_digits : horner 10 0 (t.digits.map (Nat.cast : ℕ → ℤ)) = t.magnitude :=
  horner_ofDigits 10 t.digits

/-- The digits alone overflow exactly when the number without its sign is out of range. -/
theorem passes_digits_iff :
    Passes InLong 10 0 (t.digits.map (Nat.cast : ℕ → ℤ)) ↔ (t.magnitude : ℤ) < 2 ^ 63 := by
  rw [← t.horner_digits]
  constructor
  · intro h
    exact (h.last ⟨by norm_num, by norm_num⟩).2
  · refine passes_digits le_rfl ?_
    rw [List.forall_mem_map]
    exact fun d _ => Int.natCast_nonneg d

theorem body_overflow : (t.body.foldl Long.push ⟨0, false⟩).overflow = false ↔
    (t.magnitude : ℤ) < 2 ^ 63 ∧ Passes InLong 10 t.magnitude (t.rest.map digitValue) := by
  rw [Long.foldl_push_overflow, body, List.map_append, passes_append, t.digits_map,
    show (0 : BitVec 64).toInt = 0 from rfl, t.passes_digits_iff, t.horner_digits]
  simp

theorem toInt_body (h : (t.body.foldl Long.push ⟨0, false⟩).overflow = false) :
    (t.body.foldl Long.push ⟨0, false⟩).val.toInt =
      horner 10 t.magnitude (t.rest.map digitValue) := by
  rw [Long.toInt_foldl_push h, body, List.map_append, horner_append, t.digits_map,
    show (0 : BitVec 64).toInt = 0 from rfl, t.horner_digits]

end NumberText

/-- The sign can be applied to every number from zero on, and is not lost. -/
theorem finish_iff (sign : Sign) {res : Long} {n : ℕ} (h : res.overflow = false) :
    ((sign.finish res).overflow = false ∧ (sign.finish res).val.toInt = sign.apply n) ↔
      res.val.toInt = n := by
  unfold Sign.finish Sign.apply
  split_ifs with hsign
  · constructor
    · rintro ⟨hneg, hval⟩
      rw [Long.toInt_neg hneg] at hval
      omega
    · intro hval
      have hneg : res.neg.overflow = false := Long.neg_overflow.2 ⟨h, by omega⟩
      exact ⟨hneg, by rw [Long.toInt_neg hneg, hval]⟩
  · exact and_iff_right h

/-- `atol` returns the number that the text starts with, and does not overflow on the way, exactly
when the number is not the least one and the remainder leads back to it. -/
theorem atol_exact_iff (t : NumberText) {m : Mem} {p : Word} (hstr : StringAt m p t.text)
    (hrange : InLong t.value) :
    (∃ res, atol m p = some res ∧ res.overflow = false ∧ res.val.toInt = t.value) ↔
      t.value ≠ -2 ^ 63 ∧ t.magnitude * (10 ^ t.rest.length - 1) = deficit t.rest := by
  rw [atol_eq t hstr, ← returns_iff]
  have hmagnitude : (t.magnitude : ℤ) < 2 ^ 63 ↔ t.value ≠ -2 ^ 63 := by
    obtain ⟨hlow, hhigh⟩ := hrange
    unfold NumberText.value Sign.apply at hlow hhigh ⊢
    split_ifs at hlow hhigh ⊢ <;> omega
  constructor
  · rintro ⟨res, heq, hover, hval⟩
    obtain rfl := Option.some.inj heq
    have hbody : (t.body.foldl Long.push ⟨0, false⟩).overflow = false := by
      unfold Sign.finish at hover
      split_ifs at hover
      · exact (Long.neg_overflow.1 hover).1
      · exact hover
    refine ⟨hmagnitude.1 (t.body_overflow.1 hbody).1, ?_⟩
    rw [← t.toInt_body hbody]
    exact (finish_iff t.sign hbody).1 ⟨hover, hval⟩
  · rintro ⟨hleast, hreturn⟩
    have hpasses := passes_of_returns (Int.natCast_nonneg _) hreturn
    have hbody := t.body_overflow.2 ⟨hmagnitude.2 hleast, hpasses⟩
    exact ⟨_, rfl, (finish_iff t.sign hbody).2 ((t.toInt_body hbody).trans hreturn)⟩

/-- The text `" -42"`. -/
def minusFortyTwo : NumberText :=
  ⟨1, .minus, [4, 2], [], by decide, by decide, by simp⟩

theorem atol_exact_iff_sample :
    (∃ res, atol (textMem minusFortyTwo.text) 0x1000 = some res ∧ res.overflow = false ∧
      res.val.toInt = minusFortyTwo.value) ↔
      minusFortyTwo.value ≠ -2 ^ 63 ∧
        minusFortyTwo.magnitude * (10 ^ minusFortyTwo.rest.length - 1) =
          deficit minusFortyTwo.rest :=
  atol_exact_iff minusFortyTwo (by decide) ⟨by decide, by decide⟩

/-- The text `"12 "`. -/
def twelveAndSpace : NumberText :=
  ⟨0, .absent, [1, 2], [ascii ' '], by decide, by decide, by simp [ascii]⟩

/-- A space behind the number is taken for a digit. -/
theorem trailing_space_pushed :
    StringAt (textMem twelveAndSpace.text) 0x1000 twelveAndSpace.text ∧
      InLong twelveAndSpace.value ∧ twelveAndSpace.value = 12 ∧
      atol (textMem twelveAndSpace.text) 0x1000 = some ⟨104, false⟩ := by
  have hstr : StringAt (textMem twelveAndSpace.text) 0x1000 twelveAndSpace.text := by decide
  refine ⟨hstr, ⟨by decide, by decide⟩, by decide, ?_⟩
  rw [atol_eq twelveAndSpace hstr]
  decide

end HxcOS
