import Mathlib.Data.Nat.Digits.Defs
import Mathlib.Tactic

/-!
# Numerals

`numeral b n` lists the digits of `n` in base `b` in the order in which they are written, the most
significant first and no zero in front; the number 0 has the digit 0.  `padded b n k` lists the last
`k` digits, with zeros in front.

A loop that divides by `b` finds the digits of a numeral from the back (`numeral_of_le`), one that
shifts finds the digits of a padded numeral from the front (`padded_succ`).

The other way, `horner b x l` is the number that a loop has in hand which starts with `x` and pushes
the digits `l` behind it.  The digits may be any integers, so that the number can come down; once it
is far enough from zero it moves away for good (`le_horner`, `horner_le`).
-/

namespace Numeral

variable {b n k : ℕ}

/-- The digits of a number, the most significant first. -/
def numeral (b n : ℕ) : List ℕ := if n = 0 then [0] else (Nat.digits b n).reverse

/-- The last `k` digits of a number, the most significant first. -/
def padded (b n : ℕ) : ℕ → List ℕ
  | 0 => []
  | k + 1 => n / b ^ k % b :: padded b n k

/-- A number below the base is its own digit. -/
theorem numeral_of_lt (h : n < b) : numeral b n = [n] := by
  unfold numeral
  split_ifs with hn
  · rw [hn]
  · rw [Nat.digits_of_lt b n hn h, List.reverse_singleton]

/-- The last digit of any other number is its remainder. -/
theorem numeral_of_le (hb : 1 < b) (h : b ≤ n) : numeral b n = numeral b (n / b) ++ [n % b] := by
  have hquot : n / b ≠ 0 := (Nat.div_pos h (by omega)).ne'
  rw [numeral, if_neg (by omega), numeral, if_neg hquot, Nat.digits_def' hb (by omega),
    List.reverse_cons]

theorem padded_succ : padded b n (k + 1) = n / b ^ k % b :: padded b n k := rfl

/-! ### What the digits denote -/

theorem numeral_digit_lt (hb : 1 < b) : ∀ d ∈ numeral b n, d < b := by
  intro d hd
  unfold numeral at hd
  split_ifs at hd with hn
  · rw [List.mem_singleton.1 hd]
    omega
  · exact Nat.digits_lt_base hb (List.mem_reverse.1 hd)

theorem numeral_ne_nil : numeral b n ≠ [] := by
  unfold numeral
  split_ifs with hn
  · exact List.cons_ne_nil 0 []
  · exact List.reverse_ne_nil_iff.2 (Nat.digits_ne_nil_iff_ne_zero.2 hn)

/-- A zero in front is the number zero. -/
theorem numeral_of_head_zero (hhead : (numeral b n).head? = some 0) : numeral b n = [0] := by
  unfold numeral at hhead ⊢
  split_ifs at hhead ⊢ with hn
  · rfl
  · rw [List.head?_reverse, List.getLast?_eq_getLast_of_ne_nil
      (Nat.digits_ne_nil_iff_ne_zero.2 hn)] at hhead
    exact absurd (Option.some.inj hhead) (Nat.getLast_digit_ne_zero b hn)

theorem ofDigits_numeral : Nat.ofDigits b (numeral b n).reverse = n := by
  unfold numeral
  split_ifs with hn
  · rw [hn, List.reverse_singleton, Nat.ofDigits_singleton]
  · rw [List.reverse_reverse, Nat.ofDigits_digits]

theorem padded_length : (padded b n k).length = k := by
  induction k with
  | zero => rfl
  | succ k ih => rw [padded_succ, List.length_cons, ih]

theorem ofDigits_padded : Nat.ofDigits b (padded b n k).reverse = n % b ^ k := by
  induction k with
  | zero => rw [pow_zero, Nat.mod_one]; rfl
  | succ k ih =>
    rw [padded_succ, List.reverse_cons, Nat.ofDigits_append, ih, List.length_reverse,
      padded_length, Nat.ofDigits_singleton, Nat.mod_pow_succ]

/-! ### Pushing digits -/

section Horner

variable {B x lo hi : ℤ} {l l' : List ℤ} {P : ℤ → Prop}

/-- Horner's rule, from the number `x` on. -/
def horner (B x : ℤ) (l : List ℤ) : ℤ := l.foldl (fun x d => x * B + d) x

@[simp] theorem horner_nil : horner B x [] = x := rfl

@[simp] theorem horner_cons (d : ℤ) : horner B x (d :: l) = horner B (x * B + d) l := rfl

theorem horner_append : horner B x (l ++ l') = horner B (horner B x l) l' := List.foldl_append

/-- What the digits add does not depend on the number in front of them. -/
theorem horner_eq (B x : ℤ) (l : List ℤ) : horner B x l = x * B ^ l.length + horner B 0 l := by
  induction l generalizing x with
  | nil => simp
  | cons d l ih =>
    rw [horner_cons, horner_cons, ih (x * B + d), ih (0 * B + d), List.length_cons]
    ring

theorem horner_ofDigits (b : ℕ) (ds : List ℕ) :
    horner b 0 (ds.map (Nat.cast : ℕ → ℤ)) = (Nat.ofDigits b ds.reverse : ℕ) := by
  induction ds using List.reverseRecOn with
  | nil => rfl
  | append_singleton ds d ih =>
    rw [List.map_append, horner_append, ih, List.reverse_append, List.map_singleton, horner_cons,
      horner_nil, List.reverse_singleton, List.singleton_append, Nat.ofDigits_cons]
    push_cast
    ring

/-- A number that the least digit does not bring down is not brought down. -/
theorem le_horner (hB : 1 ≤ B) (hlo : ∀ d ∈ l, lo ≤ d) (hx : x ≤ x * B + lo) :
    x ≤ horner B x l := by
  induction l generalizing x with
  | nil => exact le_rfl
  | cons d l ih =>
    have hd := hlo d List.mem_cons_self
    have hstep : x ≤ x * B + d := by linarith
    have hnext : x * B + d ≤ (x * B + d) * B + lo := by nlinarith
    exact hstep.trans (ih (fun d' hd' => hlo d' (List.mem_cons_of_mem _ hd')) hnext)

theorem lt_horner (hB : 1 ≤ B) (hlo : ∀ d ∈ l, lo ≤ d) (hx : x < x * B + lo) (hl : l ≠ []) :
    x < horner B x l := by
  cases l with
  | nil => exact absurd rfl hl
  | cons d l =>
    have hd := hlo d List.mem_cons_self
    have hstep : x < x * B + d := by linarith
    have hnext : x * B + d ≤ (x * B + d) * B + lo := by nlinarith
    exact hstep.trans_le
      (le_horner hB (fun d' hd' => hlo d' (List.mem_cons_of_mem _ hd')) hnext)

theorem horner_le (hB : 1 ≤ B) (hhi : ∀ d ∈ l, d ≤ hi) (hx : x * B + hi ≤ x) :
    horner B x l ≤ x := by
  induction l generalizing x with
  | nil => exact le_rfl
  | cons d l ih =>
    have hd := hhi d List.mem_cons_self
    have hstep : x * B + d ≤ x := by linarith
    have hnext : (x * B + d) * B + hi ≤ x * B + d := by nlinarith
    exact (ih (fun d' hd' => hhi d' (List.mem_cons_of_mem _ hd')) hnext).trans hstep

/-- Every number on the way has the property, before and after the digit is added. -/
def Passes (P : ℤ → Prop) (B : ℤ) : ℤ → List ℤ → Prop
  | _, [] => True
  | x, d :: l => P (x * B) ∧ P (x * B + d) ∧ Passes P B (x * B + d) l

theorem passes_append :
    Passes P B x (l ++ l') ↔ Passes P B x l ∧ Passes P B (horner B x l) l' := by
  induction l generalizing x with
  | nil => simp [Passes]
  | cons d l ih => simp only [List.cons_append, Passes, ih, horner_cons, and_assoc]

theorem Passes.last (h : Passes P B x l) (hx : P x) : P (horner B x l) := by
  induction l generalizing x with
  | nil => exact hx
  | cons d l ih => exact ih h.2.2 h.2.1

end Horner

end Numeral
