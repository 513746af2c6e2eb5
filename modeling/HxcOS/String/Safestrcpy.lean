import HxcOS.String.Copies

/-!
# `safestrcpy`

The loop copies the string up to and including its NUL, or the first `n - 1` bytes, whichever is
less (`safestrcpyLoop_spec`); the store behind it is then still inside the buffer.
-/

namespace HxcOS

open ByteMem

/-- The string at `t`, cut off after `bound` bytes, has `k` characters. -/
structure StrLen (m : Mem) (t : Word) (bound k : ℕ) : Prop where
  le : k ≤ bound
  char : ∀ i < k, m.byte (t + BitVec.ofNat 64 i) ≠ 0
  nul : k < bound → m.byte (t + BitVec.ofNat 64 k) = 0

namespace StrLen

variable {m m' : Mem} {t : Word} {bound k : ℕ}

theorem cons (hchar : m.byte t ≠ 0) (h : StrLen m (t + 1) bound k) :
    StrLen m t (bound + 1) (k + 1) := by
  refine ⟨Nat.succ_le_succ h.le, fun i hi => ?_, fun hlt => ?_⟩
  · cases i with
    | zero => simpa using hchar
    | succ i =>
      rw [← add_one_add]
      exact h.char i (by omega)
  · rw [← add_one_add]
    exact h.nul (by omega)

theorem tail (h : StrLen m t (bound + 1) (k + 1)) : StrLen m (t + 1) bound k := by
  refine ⟨Nat.le_of_succ_le_succ h.le, fun i hi => ?_, fun hlt => ?_⟩
  · rw [add_one_add]
    exact h.char (i + 1) (by omega)
  · rw [add_one_add]
    exact h.nul (by omega)

/-- The length depends on the characters and the NUL only. -/
theorem congr (h : StrLen m t bound k)
    (heq : ∀ i < min (k + 1) bound, m'.byte (t + BitVec.ofNat 64 i) = m.byte (t + BitVec.ofNat 64 i)) :
    StrLen m' t bound k := by
  refine ⟨h.le, fun i hi => ?_, fun hlt => ?_⟩
  · rw [heq i (by have := h.le; omega)]
    exact h.char i hi
  · rw [heq k (by omega)]
    exact h.nul hlt

end StrLen

/-- Every string has a length. -/
theorem exists_strLen (m : Mem) (t : Word) (bound : ℕ) : ∃ k, StrLen m t bound k := by
  induction bound generalizing t with
  | zero => exact ⟨0, le_rfl, by omega, by omega⟩
  | succ bound ih =>
    by_cases hchar : m.byte t = 0
    · exact ⟨0, Nat.zero_le _, by omega, fun _ => by simpa using hchar⟩
    · obtain ⟨k, hk⟩ := ih (t + 1)
      exact ⟨k + 1, hk.cons hchar⟩

/-- The loop of `safestrcpy` copies the string with its NUL, but not more than `n` bytes. -/
theorem safestrcpyLoop_spec {m : Mem} {s t : Word} {n k : ℕ} (hn : n + 1 < 2 ^ 64)
    (hk : StrLen m t n k) (hdisj : Disjoint (span s (n + 1)) (span t (min (k + 1) n)))
    (reads : List Word) :
    Copied m (safestrcpyLoop (n + 1) s t m reads).mem s t (min (k + 1) n) ∧
      (safestrcpyLoop (n + 1) s t m reads).ret = s + BitVec.ofNat 64 (min (k + 1) n) ∧
      (safestrcpyLoop (n + 1) s t m reads).reads.length = reads.length + min (k + 1) n ∧
      ∀ a ∈ (safestrcpyLoop (n + 1) s t m reads).reads, a ∈ reads ∨ a ∈ span t (min (k + 1) n) := by
  induction n generalizing m s t k reads with
  | zero =>
    rw [Nat.min_zero]
    exact ⟨Copied.zero m s t, by simp [safestrcpyLoop], rfl, fun a ha => Or.inl ha⟩
  | succ n ih =>
    rw [safestrcpyLoop, if_pos (Nat.succ_pos n)]
    have hone := Copied.store8 m s t
    by_cases hchar : m.byte t = 0
    · -- the NUL is copied, and the loop stops
      obtain rfl : k = 0 := by
        by_contra hpos
        exact hk.char 0 (Nat.pos_of_ne_zero hpos) (by simpa using hchar)
      rw [if_neg (not_not.2 hchar), show min (0 + 1) (n + 1) = 1 by omega]
      refine ⟨hone, rfl, rfl, fun a ha => ?_⟩
      rcases List.mem_cons.1 ha with rfl | ha
      · exact Or.inr (by simp [mem_span])
      · exact Or.inl ha
    · obtain ⟨j, rfl⟩ : ∃ j, k = j + 1 := by
        refine Nat.exists_eq_succ_of_ne_zero fun h0 => hchar ?_
        subst h0
        simpa using hk.nul (Nat.succ_pos n)
      rw [if_pos hchar, show min (j + 1 + 1) (n + 1) = 1 + min (j + 1) n by omega]
      rw [show min (j + 1 + 1) (n + 1) = 1 + min (j + 1) n by omega] at hdisj
      -- the rest of the string is not stored to
      have hsrc : span (t + 1) (min (j + 1) n) ⊆ span t (1 + min (j + 1) n) :=
        span_offset_subset (k := 1) le_rfl (by omega)
      have hbuf : span (s + 1) (n + 1) ⊆ span s (n + 1 + 1) :=
        span_offset_subset (k := 1) (by omega) (by omega)
      have hrest : StrLen (m.store8 s (m.byte t)) (t + 1) n j := by
        refine hk.tail.congr fun i hi => ?_
        rw [Mem.byte_store8, if_neg]
        rintro heq
        exact Set.disjoint_left.1 hdisj (show s ∈ span s (n + 1 + 1) by simp [mem_span])
          (heq ▸ hsrc (mem_span_add hi (by omega)))
      obtain ⟨hcopy, hret, hlength, hreads⟩ :=
        ih (by omega) hrest (hdisj.mono hbuf hsrc) (t :: reads)
      refine ⟨hone.append hcopy (by omega) ?_, ?_, ?_, fun a ha => ?_⟩
      · exact (hdisj.mono (span_mono (by omega)) hsrc).symm
      · rw [hret, BitVec.ofNat_add, ← BitVec.add_assoc]
        rfl
      · rw [hlength, List.length_cons]
        omega
      · rcases hreads a ha with ha | ha
        · rcases List.mem_cons.1 ha with rfl | ha
          · exact Or.inr (by simp [mem_span])
          · exact Or.inl ha
        · exact Or.inr (hsrc ha)

/-- The store behind the loop ends the copy, inside the buffer. -/
theorem safestrcpy_spec {m : Mem} {s t : Word} {n : BitVec 32} {k : ℕ} (hn : 0 < n.toInt)
    (hk : StrLen m t (n.toInt.toNat - 1) k)
    (hdisj : Disjoint (span s n.toInt.toNat) (span t (min (k + 1) (n.toInt.toNat - 1)))) :
    (∀ i < k, (safestrcpy m s t n).mem.byte (s + BitVec.ofNat 64 i) =
        m.byte (t + BitVec.ofNat 64 i)) ∧
      (safestrcpy m s t n).mem.byte (s + BitVec.ofNat 64 k) = 0 ∧
      Wrote (span s n.toInt.toNat) m (safestrcpy m s t n).mem ∧
      (safestrcpy m s t n).reads.length ≤ n.toInt.toNat - 1 ∧
      ∀ a ∈ (safestrcpy m s t n).reads, a ∈ span t (min (k + 1) (n.toInt.toNat - 1)) := by
  have hlt : n.toInt.toNat < 2 ^ 32 := by
    have := n.isLt
    rw [BitVec.toInt_eq_toNat_cond]
    split_ifs <;> omega
  obtain ⟨N, hN⟩ : ∃ N, n.toInt.toNat = N + 1 := ⟨n.toInt.toNat - 1, by omega⟩
  unfold safestrcpy
  rw [if_neg (not_le.2 hn)]
  rw [hN, Nat.add_sub_cancel] at hk hdisj ⊢
  obtain ⟨hcopy, hret, hlength, hreads⟩ := safestrcpyLoop_spec (by omega) hk hdisj []
  dsimp only
  have hle := hk.le
  refine ⟨fun i hi => ?_, ?_, ?_, ?_, fun a ha => ?_⟩
  · rw [Mem.byte_store8, hret, if_neg (by bv_omega), hcopy.copied i (by omega)]
  · rw [Mem.byte_store8, hret]
    split_ifs with hlast
    · rfl
    · have hstop : k < N := by
        by_contra hfull
        exact hlast (by rw [show min (k + 1) N = k by omega])
      rw [hcopy.copied k (by omega)]
      exact hk.nul hstop
  · refine (hcopy.wrote.mono (span_mono (by omega))).trans (Wrote.store8 ?_ _ _)
    rw [hret]
    exact mem_span_add (by omega) (by omega)
  · rw [hlength, List.length_nil]
    omega
  · exact (hreads a ha).resolve_left (List.not_mem_nil)

/-- `safestrcpy` does nothing without room; otherwise it copies the string as far as it fits, ends it
with a NUL, stays inside the buffer, and reads the source up to its NUL at most. -/
theorem safestrcpy_exact (m : Mem) (s t : Word) (n : BitVec 32) :
    (n.toInt ≤ 0 → (safestrcpy m s t n).mem = m) ∧
    (0 < n.toInt → ∃ k, StrLen m t (n.toInt.toNat - 1) k ∧
      (Disjoint (span s n.toInt.toNat) (span t (min (k + 1) (n.toInt.toNat - 1))) →
        (∀ i < k, (safestrcpy m s t n).mem.byte (s + BitVec.ofNat 64 i) =
          m.byte (t + BitVec.ofNat 64 i)) ∧
        (safestrcpy m s t n).mem.byte (s + BitVec.ofNat 64 k) = 0 ∧
        Wrote (span s n.toInt.toNat) m (safestrcpy m s t n).mem ∧
        (safestrcpy m s t n).reads.length ≤ n.toInt.toNat - 1 ∧
        ∀ a ∈ (safestrcpy m s t n).reads,
          a ∈ span t (min (k + 1) (n.toInt.toNat - 1)))) := by
  constructor
  · intro hle
    rw [safestrcpy, if_pos hle]
  · intro hn
    obtain ⟨k, hk⟩ := exists_strLen m t (n.toInt.toNat - 1)
    exact ⟨k, hk, fun hdisj => safestrcpy_spec hn hk hdisj⟩

/-- Three characters of `abc...` fit into four bytes. -/
theorem safestrcpy_exact_sample :
    (∀ i < 3, (safestrcpy countingMem 0x2010 0x1061 4).mem.byte (0x2010 + BitVec.ofNat 64 i) =
        BitVec.ofNat 8 (0x61 + i)) ∧
      (safestrcpy countingMem 0x2010 0x1061 4).mem.byte 0x2013 = 0 ∧
      (safestrcpy countingMem 0x2010 0x1061 4).mem.byte 0x2014 = 0x14 ∧
      ∀ a ∈ (safestrcpy countingMem 0x2010 0x1061 4).reads, a ∈ span 0x1061 3 := by
  obtain ⟨k, hk, hcopy⟩ := (safestrcpy_exact countingMem 0x2010 0x1061 4).2 (by decide)
  -- there is no NUL among the first three bytes
  have hchar : ∀ i < 3, countingMem.byte (0x1061 + BitVec.ofNat 64 i) ≠ 0 := by decide
  obtain rfl : k = 3 := le_antisymm hk.le (not_lt.1 fun hlt => hchar k hlt (hk.nul hlt))
  have hdisj : Disjoint (span 0x2010 4) (span 0x1061 3) :=
    (span_disjoint_of_le (by decide) (by decide)).symm
  obtain ⟨hchars, hnul, hwrote, -, hreads⟩ := hcopy hdisj
  refine ⟨fun i hi => ?_, hnul, hwrote.byte_eq (by decide), hreads⟩
  rw [hchars i hi]
  revert i
  decide

end HxcOS
