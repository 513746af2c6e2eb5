import Mathlib.Tactic

/-!
# Linked lists threaded through a successor function

`Linked next nil h l` says that starting at `h` and following `next` one meets exactly the
elements of `l`, none of them `nil`, and then `nil`.  The successor function stands for whatever
holds the links: a field of an array of records, or the first word of a block of memory.

Since the elements are determined by the head (`Linked.unique`), a chain that ends is free of
repetitions (`Linked.nodup`): there are no cyclic chains to exclude.  A chain is closed to a ring when
one of its elements is linked to the head (`Linked.close`).
-/

namespace Chain

variable {α : Type*} {next next' : α → α} {nil h : α} {l l' : List α}

/-- Following `next` from `h` lists `l` and then reaches `nil`. -/
def Linked (next : α → α) (nil : α) : α → List α → Prop
  | h, [] => h = nil
  | h, a :: l => h = a ∧ a ≠ nil ∧ Linked next nil (next a) l

@[simp] theorem linked_nil : Linked next nil h [] ↔ h = nil := Iff.rfl

@[simp] theorem linked_cons {a : α} :
    Linked next nil h (a :: l) ↔ h = a ∧ a ≠ nil ∧ Linked next nil (next a) l := Iff.rfl

namespace Linked

instance decidable [DecidableEq α] (next : α → α) (nil : α) :
    ∀ h l, Decidable (Linked next nil h l)
  | h, [] => inferInstanceAs (Decidable (h = nil))
  | h, a :: l =>
    have := decidable next nil (next a) l
    inferInstanceAs (Decidable (h = a ∧ a ≠ nil ∧ Linked next nil (next a) l))

theorem ne_nil (hl : Linked next nil h l) : ∀ a ∈ l, a ≠ nil := by
  induction l generalizing h with
  | nil => simp
  | cons b l ih =>
    obtain ⟨-, hb, hrest⟩ := hl
    exact List.forall_mem_cons.2 ⟨hb, ih hrest⟩

/-- The head is `nil` exactly for the empty chain. -/
theorem head_eq_nil_iff (hl : Linked next nil h l) : h = nil ↔ l = [] := by
  cases l with
  | nil => simpa using hl
  | cons a l =>
    obtain ⟨rfl, ha, -⟩ := hl
    simpa using ha

/-- Only the links of the chain's own elements matter. -/
theorem congr (hl : Linked next nil h l) (heq : ∀ a ∈ l, next' a = next a) :
    Linked next' nil h l := by
  induction l generalizing h with
  | nil => exact hl
  | cons a l ih =>
    obtain ⟨rfl, ha, hrest⟩ := hl
    refine ⟨rfl, ha, ?_⟩
    rw [heq h (by simp)]
    exact ih hrest fun b hb => heq b (List.mem_cons_of_mem _ hb)

/-- The head determines the chain. -/
theorem unique (hl : Linked next nil h l) (hl' : Linked next nil h l') : l = l' := by
  induction l generalizing h l' with
  | nil => exact ((hl'.head_eq_nil_iff).1 hl).symm
  | cons a l ih =>
    obtain ⟨rfl, ha, hrest⟩ := hl
    cases l' with
    | nil => exact absurd hl' ha
    | cons b l' =>
      obtain ⟨rfl, -, hrest'⟩ := hl'
      rw [ih hrest hrest']

theorem of_append {k : List α} {a : α} (hl : Linked next nil h (k ++ a :: l)) :
    Linked next nil a (a :: l) := by
  induction k generalizing h with
  | nil => exact ⟨rfl, hl.2⟩
  | cons b k ih => exact ih hl.2.2

/-- A chain that reaches `nil` never meets an element twice. -/
theorem nodup (hl : Linked next nil h l) : l.Nodup := by
  induction l generalizing h with
  | nil => exact List.nodup_nil
  | cons a l ih =>
    refine List.nodup_cons.2 ⟨fun hmem => ?_, ih hl.2.2⟩
    obtain ⟨k, r, rfl⟩ := List.append_of_mem hmem
    -- both the whole chain and its suffix at the second `a` start at `a`
    have hshort : Linked next nil a (a :: r) := of_append (k := a :: k) hl
    have hlong : Linked next nil a (a :: (k ++ a :: r)) := by
      rw [linked_cons] at hl ⊢
      exact ⟨rfl, hl.2⟩
    have hlen := congrArg List.length (hlong.unique hshort)
    simp at hlen
    omega

/-- Put a new element in front. -/
theorem push {a : α} (hl : Linked next nil h l) (ha : a ≠ nil) (hlink : next' a = h)
    (heq : ∀ b ∈ l, next' b = next b) : Linked next' nil a (a :: l) :=
  ⟨rfl, ha, by rw [hlink]; exact hl.congr heq⟩

/-- Put a whole chain in front, the last element of which is linked to the head. -/
theorem splice {k : List α} {a : α} (hl : Linked next nil h l)
    (hk : (a :: k).IsChain fun b c => next' b = c) (hne : ∀ b ∈ a :: k, b ≠ nil)
    (hlast : next' ((a :: k).getLast (List.cons_ne_nil a k)) = h)
    (heq : ∀ b ∈ l, next' b = next b) : Linked next' nil a (a :: k ++ l) := by
  induction k generalizing a with
  | nil => exact hl.push (hne a List.mem_cons_self) hlast heq
  | cons b k ih =>
    rw [List.isChain_cons_cons] at hk
    rw [List.forall_mem_cons] at hne
    rw [List.getLast_cons_cons] at hlast
    exact ⟨rfl, hne.1, by rw [hk.1]; exact ih hk.2 hne.2 hlast⟩

/-- Take the first element off. -/
theorem pop {a : α} (hl : Linked next nil h (a :: l)) : h = a ∧ Linked next nil (next h) l := by
  obtain ⟨rfl, -, hrest⟩ := hl
  exact ⟨rfl, hrest⟩

theorem isChain (hl : Linked next nil h l) : l.IsChain fun a b => next a = b := by
  induction l generalizing h with
  | nil => exact List.IsChain.nil
  | cons a l ih =>
    obtain ⟨-, -, hrest⟩ := hl
    cases l with
    | nil => exact List.isChain_singleton a
    | cons b l => exact List.isChain_cons_cons.2 ⟨hrest.1, ih hrest⟩

end Linked

/-! ### Rings -/

/-- Following `next` leads around `l`. -/
def Circular (next : α → α) (l : List α) : Prop :=
  ∀ i (hi : i < l.length), l[(i + 1) % l.length]? = some (next l[i])

/-- Linking an element of a chain to the head closes the part in front of it to a ring, and cuts off
the rest. -/
theorem Linked.close {k : List α} {a : α} (hl : Linked next nil h (k ++ a :: l)) (hlink : next' a = h)
    (heq : ∀ b ∈ k, next' b = next b) : Circular next' (a :: k) := by
  intro i hi
  cases i with
  | zero =>
    rw [List.getElem_cons_zero, hlink]
    cases k with
    | nil => simpa using hl.1.symm
    | cons b k =>
      rw [Nat.mod_eq_of_lt (by simp)]
      exact congrArg some hl.1.symm
  | succ i =>
    have hik : i < k.length := by simpa using hi
    have hbound : i + 1 < (k ++ a :: l).length := by
      rw [List.length_append, List.length_cons]
      omega
    have hnext := List.isChain_iff_getElem.1 hl.isChain i hbound
    rw [List.getElem_append_left hik] at hnext
    rw [List.getElem_cons_succ, heq _ (List.getElem_mem hik), hnext, List.length_cons]
    by_cases hlast : i + 1 = k.length
    · rw [show (k ++ a :: l)[i + 1] = a by simp [hlast], hlast, Nat.mod_self]
      rfl
    · rw [Nat.mod_eq_of_lt (by omega), List.getElem_append_left (by omega)]
      simp

/-- Where `n` links lead to. -/
theorem Circular.iterate {a : α} (h : Circular next (a :: l)) (n : ℕ) :
    (a :: l)[n % (l.length + 1)]? = some (next^[n] a) := by
  induction n with
  | zero => rfl
  | succ n ih =>
    have hlt : n % (l.length + 1) < (a :: l).length := Nat.mod_lt _ (by simp)
    rw [List.getElem?_eq_getElem hlt, Option.some.injEq] at ih
    rw [Function.iterate_succ_apply', ← ih, ← h _ hlt, List.length_cons, Nat.mod_add_mod]

end Chain
