import HxcOS.Model.Mmio

/-!
# Freeing a chain of descriptors

`free_chain` follows links that the device can write, so that the links may leave the table or come
back to a descriptor passed before.  Every iteration frees a descriptor that was not free, and a
descriptor freed twice panics; hence the loop stops, whatever the links are.

* `t.index i k` is where `k` links lead from `i`; the links are those of the table before the call,
  because `free_desc` changes the addresses only.
* `t.Accepts i k`: the call of `free_desc` at that point does not panic.
* `t.Reaches i n`: the first `n` calls do not panic, and each is followed by a link.
* `t.Freed t' i n`: the first `n` descriptors of the chain are freed in `t'`, and nothing else is
  different.
-/

namespace HxcOS

open ByteMem Loop

namespace DiskTable

variable {t t' : DiskTable} {i n : ℕ}

/-- The index that following `k` links from `i` leads to. -/
def index (t : DiskTable) (i k : ℕ) : ℕ := (fun j => (t.desc j).next.toNat)^[k] i

theorem index_succ (t : DiskTable) (i k : ℕ) :
    t.index i (k + 1) = (t.desc (t.index i k)).next.toNat :=
  Function.iterate_succ_apply' _ k i

/-- The descriptor after `k` links is in range, is not free and was not passed before. -/
structure Accepts (t : DiskTable) (i k : ℕ) : Prop where
  inRange : t.index i k < 8
  used : t.diskFree (t.index i k) = 0
  fresh : ∀ l < k, t.index i l ≠ t.index i k

/-- The first `n` descriptors can be freed one after the other, and each has a link. -/
def Reaches (t : DiskTable) (i n : ℕ) : Prop :=
  ∀ k < n, t.Accepts i k ∧ (t.desc (t.index i k)).hasNext = true

/-- The chain from `i` has the `n + 1` descriptors that can be freed one after the other, and ends. -/
structure Ends (t : DiskTable) (i n : ℕ) : Prop where
  reaches : t.Reaches i n
  accepts : t.Accepts i n
  last : (t.desc (t.index i n)).hasNext = false

/-- `t'` is `t` with the first `n` descriptors of the chain freed. -/
structure Freed (t t' : DiskTable) (i n : ℕ) : Prop where
  freed : ∀ k < n, t'.desc (t.index i k) = { t.desc (t.index i k) with addr := 0 } ∧
    t'.diskFree (t.index i k) = 1
  kept : ∀ j, (∀ k < n, t.index i k ≠ j) → t'.desc j = t.desc j ∧ t'.diskFree j = t.diskFree j

theorem Reaches.succ (h : t.Reaches i n) (hn : t.Accepts i n)
    (hnext : (t.desc (t.index i n)).hasNext = true) : t.Reaches i (n + 1) := by
  intro k hk
  rcases Nat.lt_succ_iff_lt_or_eq.1 hk with hlt | rfl
  · exact h k hlt
  · exact ⟨hn, hnext⟩

/-- Pairwise distinct descriptors that are not free: there are at most as many as the table has. -/
theorem le_card_used (h : ∀ k < n, t.Accepts i k) : n ≤ t.used.card := by
  have hinj : Set.InjOn (t.index i) (Finset.range n) := by
    intro k hk l hl heq
    simp only [Finset.coe_range, Set.mem_Iio] at hk hl
    rcases lt_trichotomy k l with hlt | rfl | hgt
    · exact absurd heq ((h l hl).fresh k hlt)
    · rfl
    · exact absurd heq.symm ((h k hk).fresh l hgt)
  calc n = ((Finset.range n).image (t.index i)).card := by
        rw [Finset.card_image_of_injOn hinj, Finset.card_range]
    _ ≤ t.used.card := Finset.card_le_card fun j hj => by
        obtain ⟨k, hk, rfl⟩ := Finset.mem_image.1 hj
        have hacc := h k (Finset.mem_range.1 hk)
        exact Finset.mem_filter.2 ⟨Finset.mem_range.2 hacc.inRange, hacc.used⟩

/-- A chain has one end. -/
theorem Ends.not_reaches {m : ℕ} (h : t.Ends i n) (hlt : n < m) : ¬ t.Reaches i m := fun hm => by
  have hnext := (hm n hlt).2
  rw [h.last] at hnext
  cases hnext

theorem Ends.accepts_of_le {m : ℕ} (h : t.Ends i n) (hle : m ≤ n) : t.Accepts i m := by
  rcases Nat.lt_or_eq_of_le hle with hlt | rfl
  · exact (h.reaches m hlt).1
  · exact h.accepts

namespace Freed

theorem zero (t : DiskTable) (i : ℕ) : Freed t t i 0 := ⟨by omega, fun _ _ => ⟨rfl, rfl⟩⟩

/-- Only addresses change, so that the flags and the links are those of the table before. -/
theorem desc_eq (h : Freed t t' i n) (j : ℕ) :
    (t'.desc j).hasNext = (t.desc j).hasNext ∧ (t'.desc j).next = (t.desc j).next := by
  by_cases hj : ∃ k < n, t.index i k = j
  · obtain ⟨k, hk, rfl⟩ := hj
    rw [(h.freed k hk).1]
    exact ⟨rfl, rfl⟩
  · rw [(h.kept j fun k hk heq => hj ⟨k, hk, heq⟩).1]
    exact ⟨rfl, rfl⟩

/-- After `n` frees a descriptor is not free when it was not free before and was not passed. -/
theorem diskFree_eq_zero_iff (h : Freed t t' i n) (j : ℕ) :
    t'.diskFree j = 0 ↔ t.diskFree j = 0 ∧ ∀ k < n, t.index i k ≠ j := by
  by_cases hj : ∃ k < n, t.index i k = j
  · obtain ⟨k, hk, rfl⟩ := hj
    rw [(h.freed k hk).2]
    exact iff_of_false (by decide) fun h' => h'.2 k hk rfl
  · have hout : ∀ k < n, t.index i k ≠ j := fun k hk heq => hj ⟨k, hk, heq⟩
    rw [(h.kept j hout).2]
    exact (and_iff_left hout).symm

/-- One more descriptor is freed. -/
theorem succ (h : Freed t t' i n) (hn : t.Accepts i n) : Freed t
    { desc := Function.update t'.desc (t.index i n) { t'.desc (t.index i n) with addr := 0 }
      diskFree := Function.update t'.diskFree (t.index i n) 1 } i (n + 1) := by
  refine ⟨fun k hk => ?_, fun j hj => ?_⟩
  · rcases Nat.lt_succ_iff_lt_or_eq.1 hk with hlt | rfl
    · dsimp only
      rw [Function.update_of_ne (hn.fresh k hlt), Function.update_of_ne (hn.fresh k hlt)]
      exact h.freed k hlt
    · dsimp only
      rw [Function.update_self, Function.update_self, (h.kept _ hn.fresh).1]
      exact ⟨rfl, rfl⟩
  · have hne : j ≠ t.index i n := (hj n (Nat.lt_succ_self n)).symm
    dsimp only
    rw [Function.update_of_ne hne, Function.update_of_ne hne]
    exact h.kept j fun k hk => hj k (hk.trans (Nat.lt_succ_self n))

end Freed

/-- What `free_desc` does to the next descriptor of the chain. -/
theorem freeDesc_index (h : Freed t t' i n) :
    (t.Accepts i n ∧ ∃ t'', t'.freeDesc (t.index i n) = .ok t'' ∧ Freed t t'' i (n + 1)) ∨
    (¬ t.Accepts i n ∧ t'.freeDesc (t.index i n) =
      .error (if 8 ≤ t.index i n then "virtio_disk_intr 1" else "virtio_disk_intr 2")) := by
  rcases t'.freeDesc_cases (t.index i n) with ⟨hrange, he⟩ | ⟨hrange, hfree, he⟩ | ⟨hrange, hfree, he⟩
  · refine Or.inr ⟨fun hacc => ?_, by rw [he, if_pos hrange]⟩
    have := hacc.inRange
    omega
  · refine Or.inr ⟨fun hacc => hfree ?_, by rw [he, if_neg (not_le.2 hrange)]⟩
    exact (h.diskFree_eq_zero_iff _).2 ⟨hacc.used, hacc.fresh⟩
  · obtain ⟨hused, hfresh⟩ := (h.diskFree_eq_zero_iff _).1 hfree
    have hacc : t.Accepts i n := ⟨hrange, hused, hfresh⟩
    exact Or.inl ⟨hacc, _, he, h.succ hacc⟩

end DiskTable

/-- A state of the loop of `free_chain t i`. -/
structure ChainInv (t : DiskTable) (i : ℕ) (st : FreeState) : Prop where
  freed : t.Freed st.table i st.frees
  running : st.control = .running → t.Reaches i st.frees ∧ st.i = t.index i st.frees
  returned : st.control = .returned → ∃ n, st.frees = n + 1 ∧ t.Ends i n
  panicked : ∀ message, st.control = .panicked message →
    t.Reaches i st.frees ∧ ¬ t.Accepts i st.frees ∧ st.i = t.index i st.frees ∧
      message = if 8 ≤ st.i then "virtio_disk_intr 1" else "virtio_disk_intr 2"

theorem ChainInv.init (t : DiskTable) (i : ℕ) : ChainInv t i ⟨.running, i, t, 0⟩ where
  freed := DiskTable.Freed.zero t i
  running _ := ⟨fun k hk => absurd hk (Nat.not_lt_zero k), rfl⟩
  returned h := by cases h
  panicked _ h := by cases h

theorem ChainInv.step {t : DiskTable} {i : ℕ} {st : FreeState} (h : ChainInv t i st)
    (hcond : freeChainLoop.cond st = true) : ChainInv t i (freeChainLoop.body st) := by
  obtain ⟨hreach, hi⟩ := h.running (of_decide_eq_true hcond)
  unfold freeChainLoop
  dsimp only
  rcases DiskTable.freeDesc_index h.freed with ⟨hacc, t'', he, hfreed⟩ | ⟨hacc, he⟩
  · rw [hi, he]
    dsimp only
    obtain ⟨hflag, hnext⟩ := hfreed.desc_eq (t.index i st.frees)
    rw [hflag, hnext]
    split_ifs with hlink
    · refine ⟨hfreed, fun _ => ⟨hreach.succ hacc hlink, (t.index_succ i st.frees).symm⟩, ?_, ?_⟩
      · intro hc
        cases hc
      · intro _ hc
        cases hc
    · refine ⟨hfreed, ?_, fun _ => ⟨st.frees, rfl, hreach, hacc, ?_⟩, ?_⟩
      · intro hc
        cases hc
      · simpa using hlink
      · intro _ hc
        cases hc
  · rw [hi, he]
    refine ⟨h.freed, ?_, ?_, fun message hm => ⟨hreach, hacc, rfl, ?_⟩⟩
    · intro hc
      cases hc
    · intro hc
      cases hc
    · exact (Control.panicked.inj hm).symm

/-- The state in which `free_chain` stops. -/
theorem freeChain_inv (t : DiskTable) (i : ℕ) :
    ChainInv t i (freeChain t i) ∧ (freeChain t i).control ≠ .running := by
  obtain ⟨hinv, hexit⟩ := freeChainLoop.run_inv (I := ChainInv t i) (fun st h hc => h.step hc)
    (ChainInv.init t i)
  exact ⟨hinv, fun hrun => hexit (decide_eq_true hrun)⟩

/-- A call whose chain ends returns. -/
theorem freeChain_returned_of_ends {t : DiskTable} {i n : ℕ} (h : t.Ends i n) :
    (freeChain t i).control = .returned := by
  obtain ⟨hinv, hstop⟩ := freeChain_inv t i
  cases hc : (freeChain t i).control with
  | running => exact absurd hc hstop
  | returned => rfl
  | panicked message =>
    obtain ⟨hreach, hacc, -⟩ := hinv.panicked message hc
    rcases le_or_gt (freeChain t i).frees n with hle | hgt
    · exact absurd (h.accepts_of_le hle) hacc
    · exact absurd hreach (h.not_reaches hgt)

/-- **`free_chain` on any table.**  It stops after at most as many frees as there were used
descriptors.  It returns exactly when the chain ends, and then the descriptors of the chain are free;
otherwise it panics at the first index that is out of range or already free, with the descriptors
before it freed. -/
theorem freeChain_exact (t : DiskTable) (i : ℕ) :
    (freeChain t i).frees ≤ t.used.card ∧
    ((freeChain t i).control = .returned ↔ ∃ n, t.Ends i n) ∧
    (∀ n, t.Ends i n → (freeChain t i).frees = n + 1 ∧
      t.Freed (freeChain t i).table i (n + 1)) ∧
    ((¬ ∃ n, t.Ends i n) → ∃ n, (freeChain t i).frees = n ∧ t.Reaches i n ∧ ¬ t.Accepts i n ∧
      (freeChain t i).control = .panicked
        (if 8 ≤ t.index i n then "virtio_disk_intr 1" else "virtio_disk_intr 2") ∧
      (freeChain t i).i = t.index i n ∧ t.Freed (freeChain t i).table i n) := by
  obtain ⟨hinv, hstop⟩ := freeChain_inv t i
  refine ⟨?_, ⟨fun hret => ?_, fun ⟨n, hn⟩ => freeChain_returned_of_ends hn⟩, fun n hn => ?_,
    fun hnone => ?_⟩
  · cases hc : (freeChain t i).control with
    | running => exact absurd hc hstop
    | returned =>
      obtain ⟨n, hfrees, hends⟩ := hinv.returned hc
      rw [hfrees]
      exact DiskTable.le_card_used fun k hk => hends.accepts_of_le (Nat.le_of_lt_succ hk)
    | panicked message =>
      exact DiskTable.le_card_used fun k hk => ((hinv.panicked message hc).1 k hk).1
  · obtain ⟨n, -, hends⟩ := hinv.returned hret
    exact ⟨n, hends⟩
  · obtain ⟨m, hfrees, hends⟩ := hinv.returned (freeChain_returned_of_ends hn)
    obtain rfl : m = n := by
      rcases lt_trichotomy m n with hlt | rfl | hgt
      · exact absurd hn.reaches (hends.not_reaches hlt)
      · rfl
      · exact absurd hends.reaches (hn.not_reaches hgt)
    have hfreed := hinv.freed
    rw [hfrees] at hfreed
    exact ⟨hfrees, hfreed⟩
  · cases hc : (freeChain t i).control with
    | running => exact absurd hc hstop
    | returned =>
      obtain ⟨n, -, hends⟩ := hinv.returned hc
      exact absurd ⟨n, hends⟩ hnone
    | panicked message =>
      obtain ⟨hreach, hacc, hi, hm⟩ := hinv.panicked message hc
      rw [hi] at hm
      exact ⟨_, rfl, hreach, hacc, by rw [hm], hi, hinv.freed⟩

end HxcOS
