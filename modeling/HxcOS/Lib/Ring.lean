import Mathlib.Data.List.Infix
import Mathlib.Tactic

/-!
# A ring of slots between two free-running counters

A producer stores a value in the slot `idx % N` and then increments its counter `idx`; a consumer
whose counter `seen` differs from `idx` takes the value in the slot `seen % N` and increments
`seen`.  The counters are `w` bits wide and wrap around, and `N` divides `2 ^ w`.

`Fifo` relates the slots and the counters to the history: the list of all values ever stored, the
number `p` of those that have been published, and the list of all values taken.  It allows the
state between the store and the increment, where one more value is stored than published.  As long
as at most `N` values are stored and not taken, each of the three steps keeps it (`Fifo.write`,
`Fifo.publish`, `Fifo.take`), and equal counters mean that everything published has been taken
(`Fifo.seen_eq_idx_iff`).
-/

namespace Ring

variable {α : Type*} {w N : ℕ}

/-- The slots and counters hold what the history says: `written` are the values stored so far, the
first `p` of which are published, and `read` those taken. -/
structure Fifo (N : ℕ) (start : BitVec w) (slots : ℕ → α) (idx seen : BitVec w) (written : List α)
    (p : ℕ) (read : List α) : Prop where
  idx_eq : idx = start + BitVec.ofNat w p
  seen_eq : seen = start + BitVec.ofNat w read.length
  published_le : p ≤ written.length
  read_prefix : read <+: written.take p
  room : written.length ≤ read.length + N
  slots_eq : ∀ k (hk : k < written.length), read.length ≤ k →
    slots ((start.toNat + k) % N) = written[k]

/-- The slot of a wrapped counter. -/
theorem add_ofNat_mod (hdvd : N ∣ 2 ^ w) (start : BitVec w) (k : ℕ) :
    (start + BitVec.ofNat w k).toNat % N = (start.toNat + k) % N := by
  rw [BitVec.toNat_add, BitVec.toNat_ofNat, Nat.add_mod_mod, Nat.mod_mod_of_dvd _ hdvd]

/-- Two positions less than `N` apart have different slots. -/
theorem slot_ne {s k n : ℕ} (hk : k < n) (hn : n < k + N) : (s + k) % N ≠ (s + n) % N := by
  intro heq
  have hdvd : N ∣ n - k := (Nat.modEq_iff_dvd' hk.le).1 (Nat.ModEq.add_left_cancel' s heq)
  have hzero := Nat.eq_zero_of_dvd_of_lt hdvd (by omega)
  omega

namespace Fifo

variable {start idx seen : BitVec w} {slots : ℕ → α} {written read : List α} {p : ℕ}

theorem init (N : ℕ) (start : BitVec w) (slots : ℕ → α) :
    Fifo N start slots start start ([] : List α) 0 [] :=
  ⟨by simp, by simp, by simp, by simp, by simp, by simp⟩

theorem read_length_le (h : Fifo N start slots idx seen written p read) : read.length ≤ p :=
  h.read_prefix.length_le.trans (by rw [List.length_take]; exact Nat.min_le_left _ _)

/-- The producer stores a value in the slot of its counter. -/
theorem write (h : Fifo N start slots idx seen written p read) (hdvd : N ∣ 2 ^ w)
    (hp : p = written.length) (hroom : written.length + 1 ≤ read.length + N) (a : α) :
    Fifo N start (Function.update slots (idx.toNat % N) a) idx seen (written ++ [a]) p read := by
  have hread := h.read_length_le
  refine ⟨h.idx_eq, h.seen_eq, by simp [hp], ?_, by simpa using hroom, fun k hk hle => ?_⟩
  · rw [List.take_append_of_le_length h.published_le]
    exact h.read_prefix
  · rw [h.idx_eq, add_ofNat_mod hdvd, hp]
    rw [List.length_append, List.length_singleton] at hk
    by_cases hlast : k = written.length
    · subst hlast
      simp
    · have hlt : k < written.length := by omega
      rw [Function.update_of_ne (slot_ne hlt (by omega)), h.slots_eq k hlt hle,
        List.getElem_append_left hlt]

/-- The producer increments its counter. -/
theorem publish (h : Fifo N start slots idx seen written p read)
    (hp : written.length = p + 1) : Fifo N start slots (idx + 1) seen written (p + 1) read := by
  refine ⟨?_, h.seen_eq, hp.ge, ?_, h.room, h.slots_eq⟩
  · rw [h.idx_eq, BitVec.ofNat_add, BitVec.add_assoc]
    rfl
  · exact h.read_prefix.trans (List.take_prefix_take_left (by omega))

/-- The counters agree exactly when everything published has been taken. -/
theorem seen_eq_idx_iff (h : Fifo N start slots idx seen written p read) (hN : N < 2 ^ w) :
    seen = idx ↔ read.length = p := by
  have hread := h.read_length_le
  have hroom := h.room
  have hple := h.published_le
  rw [h.seen_eq, h.idx_eq, BitVec.add_right_inj, ← BitVec.toNat_inj, BitVec.toNat_ofNat,
    BitVec.toNat_ofNat]
  refine ⟨fun heq => ?_, fun heq => by rw [heq]⟩
  have hdvd : 2 ^ w ∣ p - read.length := (Nat.modEq_iff_dvd' hread).1 heq
  have hzero := Nat.eq_zero_of_dvd_of_lt hdvd (by omega)
  omega

/-- What the consumer finds in the slot of its counter is the oldest value not yet taken. -/
theorem slot_seen (h : Fifo N start slots idx seen written p read) (hdvd : N ∣ 2 ^ w)
    (hlt : read.length < written.length) :
    slots (seen.toNat % N) = written[read.length] := by
  rw [h.seen_eq, add_ofNat_mod hdvd]
  exact h.slots_eq _ hlt le_rfl

/-- The consumer takes a value and increments its counter. -/
theorem take (h : Fifo N start slots idx seen written p read) (hdvd : N ∣ 2 ^ w)
    (hN : N < 2 ^ w) (hne : seen ≠ idx) :
    Fifo N start slots idx (seen + 1) written p (read ++ [slots (seen.toNat % N)]) := by
  have hread := h.read_length_le
  have hple := h.published_le
  have hlt : read.length < p := lt_of_le_of_ne hread fun heq => hne ((h.seen_eq_idx_iff hN).2 heq)
  have hslot := h.slot_seen hdvd (by omega)
  refine ⟨h.idx_eq, ?_, hple, ?_, ?_, fun k hk hle => h.slots_eq k hk ?_⟩
  · rw [h.seen_eq, List.length_append, List.length_singleton, BitVec.ofNat_add, BitVec.add_assoc]
    rfl
  · obtain ⟨rest, hrest⟩ := h.read_prefix
    have hget : (read ++ rest)[read.length]? = written[read.length]? := by
      rw [hrest, List.getElem?_take, if_pos hlt]
    rw [List.getElem?_append_right le_rfl, Nat.sub_self,
      List.getElem?_eq_getElem (show read.length < written.length by omega)] at hget
    cases rest with
    | nil => simp at hget
    | cons b rest =>
      rw [List.getElem?_cons_zero, Option.some.injEq] at hget
      rw [hslot, ← hget, ← hrest]
      exact ⟨rest, by simp⟩
  · have := h.room
    rw [List.length_append, List.length_singleton]
    omega
  · rw [List.length_append, List.length_singleton] at hle
    omega

end Fifo

end Ring
