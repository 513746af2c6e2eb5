import HxcOS.Lib.Loop
import HxcOS.Model.CString

/-!
# `os/src/string.cpp`

`memset` and `memcpy` choose between a loop over 8-byte words and a loop over bytes by the alignment of
their arguments, and both bound the loops by a comparison of pointers.  The loops of `memset` stop
for all arguments: in the word loop the distance to the end stays a multiple of eight, so that
the pointer cannot step over the end (this is the subtype in `memsetWords`).  The word loop of
`memcpy` compares with `dest + len - 7`, which wraps around for `dest = NULL` and short lengths;
`memcpy` is therefore an `Option`, with `none` for a call that does not return.  The loop's
condition depends on a 64-bit pointer that moves by a fixed amount, so a loop that has not stopped
after `2 ^ 64` iterations never does.

`memmove` and `safestrcpy` count down and stop for all arguments.  `safestrcpy` also returns the
addresses of the source that it has read.

The loops of `strlen`, `strcmp`, `strcpy` and `strchr` run until they meet a NUL, and are bounded as that
of `memcpy` is.  After `2 ^ 64` iterations `strcpy` has stored a character other than NUL everywhere, and
goes on for ever.

`atol` computes with a signed number.  The value is what the machine has, modulo `2 ^ 64`; an
overflow on the way is recorded beside it.
-/

namespace HxcOS

open ByteMem Loop

/-! ### `memset` -/

/-- `while (d < dest + len) *d++ = word;` over words; the state is the pointer `d`. -/
def memsetWords (stop word : Word) : While ({d : Word // (stop - d).toNat % 8 = 0} × Mem) where
  cond s := decide (s.1.1 < stop)
  body s := (⟨s.1.1 + 8, by have := s.1.2; bv_omega⟩, s.2.store64 s.1.1 word)
  measure s := (stop - s.1.1).toNat
  decreases s hs := by
    have := s.1.2
    simp only [decide_eq_true_eq] at hs
    bv_omega

/-- `while (d < dest + len) *d++ = byte;` over bytes. -/
def memsetBytes (stop : Word) (byte : Byte) : While (Word × Mem) where
  cond s := decide (s.1 < stop)
  body s := (s.1 + 1, s.2.store8 s.1 byte)
  measure s := (stop - s.1).toNat
  decreases s hs := by
    simp only [decide_eq_true_eq] at hs
    bv_omega

/-- The word holding eight copies of the low byte of `byte`. -/
def memsetPattern (byte : BitVec 32) : Word :=
  let word : Word := (byte &&& 0xFF).setWidth 64
  let word := word ||| word <<< 8
  let word := word ||| word <<< 16
  word ||| word <<< 16 <<< 16

/-- Alignment of the length, as the test of the fast path checks it. -/
theorem aligned_len {dest len : Word} (h : (dest ||| len) &&& 7 = 0) : len.toNat % 8 = 0 := by
  have hlen : len &&& 7 = 0 := by
    rw [BitVec.and_or_distrib_right] at h
    exact (BitVec.or_eq_zero_iff.1 h).2
  have := congrArg BitVec.toNat hlen
  rw [BitVec.toNat_and] at this
  simpa [Nat.and_two_pow_sub_one_eq_mod len.toNat 3] using this

/-- `void *memset(void *dest, int byte, size_t len)`: the pointer returned and the memory. -/
def memset (m : Mem) (dest : Word) (byte : BitVec 32) (len : Word) : Word × Mem :=
  if h : (dest ||| len) &&& 7 = 0 then
    let d : {d : Word // (dest + len - d).toNat % 8 = 0} :=
      ⟨dest, by have := aligned_len h; rw [BitVec.add_comm, BitVec.add_sub_cancel]; exact this⟩
    (dest, ((memsetWords (dest + len) (memsetPattern byte)).run (d, m)).2)
  else
    (dest, ((memsetBytes (dest + len) (byte.setWidth 8)).run (dest, m)).2)

/-- `m'` is `m` with the `n` bytes from `dest` on set to `v` and nothing else stored to. -/
structure Filled (m m' : Mem) (dest : Word) (n : ℕ) (v : Byte) : Prop where
  wrote : Wrote (span dest n) m m'
  touched : ∀ a ∈ span dest n, Touched a m m'
  filled : ∀ a ∈ span dest n, m'.byte a = v

theorem Filled.zero (m : Mem) (dest : Word) (v : Byte) : Filled m m dest 0 v :=
  ⟨Wrote.refl _ m, fun a ha => by simp [mem_span] at ha, fun a ha => by simp [mem_span] at ha⟩

theorem Filled.append {m m' m'' : Mem} {dest : Word} {n k : ℕ} {v : Byte}
    (h : Filled m m' dest n v) (h' : Filled m' m'' (dest + BitVec.ofNat 64 n) k v)
    (hnk : n + k < 2 ^ 64) : Filled m m'' dest (n + k) v := by
  have hsplit : ∀ a, a ∈ span dest (n + k) ↔
      a ∈ span dest n ∨ a ∈ span (dest + BitVec.ofNat 64 n) k := by
    intro a
    simp only [mem_span]
    bv_omega
  refine ⟨(h.wrote.mono fun a ha => (hsplit a).2 (Or.inl ha)).trans
    (h'.wrote.mono fun a ha => (hsplit a).2 (Or.inr ha)), fun a ha => ?_, fun a ha => ?_⟩
  · rcases (hsplit a).1 ha with hin | hin
    · exact (h.touched a hin).trans_wrote h'.wrote
    · exact Touched.of_wrote h.wrote (h'.touched a hin)
  by_cases hin : a ∈ span (dest + BitVec.ofNat 64 n) k
  · exact h'.filled a hin
  · rw [h'.wrote.byte_eq hin]
    exact h.filled a (((hsplit a).1 ha).resolve_right hin)

theorem Filled.store8 (m : Mem) (a : Word) (v : Byte) : Filled m (m.store8 a v) a 1 v := by
  refine ⟨Wrote.store8 (by simp [mem_span]) m v, fun b hb => ?_, fun b hb => ?_⟩ <;>
    rw [span_one, Set.mem_singleton_iff] at hb
  · exact hb ▸ Touched.store8 m b v
  · rw [Mem.byte_store8, if_pos hb]

theorem ofNat_div_pow (w : Word) (k : ℕ) :
    BitVec.ofNat 8 (w.toNat / 256 ^ k) = (w >>> (8 * k)).setWidth 8 := by
  apply BitVec.eq_of_toNat_eq
  simp [Nat.shiftRight_eq_div_pow, pow_mul]

theorem and_low_byte (byte : BitVec 32) :
    (byte &&& 0xFF).setWidth 64 = (byte.setWidth 8).setWidth 64 := by
  apply BitVec.eq_of_toNat_eq
  rw [BitVec.toNat_setWidth, BitVec.toNat_and, BitVec.toNat_setWidth, BitVec.toNat_setWidth,
    show (0xFF : BitVec 32).toNat = 2 ^ 8 - 1 by rfl, Nat.and_two_pow_sub_one_eq_mod]

/-- Every byte of the pattern is the low byte of `byte`. -/
theorem memsetPattern_byte (byte : BitVec 32) {k : ℕ} (hk : k < 8) :
    BitVec.ofNat 8 ((memsetPattern byte).toNat / 256 ^ k) = byte.setWidth 8 := by
  rw [ofNat_div_pow, memsetPattern, and_low_byte]
  generalize byte.setWidth 8 = low
  apply BitVec.eq_of_getLsbD_eq
  intro i hi
  interval_cases k <;> simp (disch := omega) [BitVec.getLsbD_of_ge] <;> grind

theorem Filled.store64 (m : Mem) (a : Word) (byte : BitVec 32) :
    Filled m (m.store64 a (memsetPattern byte)) a 8 (byte.setWidth 8) := by
  refine ⟨Wrote.store64 subset_rfl m _, fun b hb => Touched.store (by norm_num) hb m _,
    fun b hb => ?_⟩
  rw [Mem.store64, Mem.byte_store m (by norm_num), if_pos (mem_span.1 hb)]
  exact memsetPattern_byte byte (mem_span.1 hb)

theorem memsetWords_spec (m : Mem) (dest : Word) (byte : BitVec 32) (len : Word)
    (hlen : dest.toNat + len.toNat < 2 ^ 64)
    (halign : (dest + len - dest).toNat % 8 = 0) :
    Filled m ((memsetWords (dest + len) (memsetPattern byte)).run (⟨dest, halign⟩, m)).2
      dest len.toNat (byte.setWidth 8) := by
  have hrun := (memsetWords (dest + len) (memsetPattern byte)).run_inv
    (I := fun s => ∃ k ≤ len.toNat, s.1.1 = dest + BitVec.ofNat 64 k ∧
      Filled m s.2 dest k (byte.setWidth 8))
    (by
      rintro ⟨⟨d, hd⟩, m'⟩ ⟨k, hk, rfl, hfill⟩ hcond
      simp only [memsetWords, decide_eq_true_eq] at hcond ⊢
      -- the distance to the end is a positive multiple of eight
      have hdist : (dest + len - (dest + BitVec.ofNat 64 k)).toNat % 8 = 0 := hd
      have hroom : k + 8 ≤ len.toNat := by
        clear hfill hd
        bv_omega
      exact ⟨k + 8, hroom, by bv_omega,
        hfill.append (Filled.store64 m' _ byte) (by omega)⟩)
    (s := (⟨dest, halign⟩, m)) ⟨0, Nat.zero_le _, by simp, Filled.zero m dest _⟩
  obtain ⟨⟨k, hk, hd, hfill⟩, hexit⟩ := hrun
  simp only [memsetWords, decide_eq_true_eq] at hexit hd
  have : k = len.toNat := by
    rw [hd] at hexit
    bv_omega
  rwa [this] at hfill

theorem memsetBytes_spec (m : Mem) (dest : Word) (v : Byte) (len : Word)
    (hlen : dest.toNat + len.toNat < 2 ^ 64) :
    Filled m ((memsetBytes (dest + len) v).run (dest, m)).2 dest len.toNat v := by
  have hrun := (memsetBytes (dest + len) v).run_inv
    (I := fun s => ∃ k ≤ len.toNat, s.1 = dest + BitVec.ofNat 64 k ∧ Filled m s.2 dest k v)
    (by
      rintro ⟨d, m'⟩ ⟨k, hk, rfl, hfill⟩ hcond
      simp only [memsetBytes, decide_eq_true_eq] at hcond ⊢
      have hroom : k + 1 ≤ len.toNat := by bv_omega
      exact ⟨k + 1, hroom, by bv_omega, hfill.append (Filled.store8 m' _ v) (by omega)⟩)
    (s := (dest, m)) ⟨0, Nat.zero_le _, by simp, Filled.zero m dest _⟩
  obtain ⟨⟨k, hk, hd, hfill⟩, hexit⟩ := hrun
  simp only [memsetBytes, decide_eq_true_eq] at hexit hd
  have : k = len.toNat := by
    rw [hd] at hexit
    bv_omega
  rwa [this] at hfill

@[simp] theorem memset_fst (m : Mem) (dest : Word) (byte : BitVec 32) (len : Word) :
    (memset m dest byte len).1 = dest := by
  unfold memset
  split_ifs <;> rfl

/-- `memset` fills exactly its range, on the word path and on the byte path. -/
theorem memset_filled (m : Mem) (dest : Word) (byte : BitVec 32) (len : Word)
    (hlen : dest.toNat + len.toNat < 2 ^ 64) :
    Filled m (memset m dest byte len).2 dest len.toNat (byte.setWidth 8) := by
  unfold memset
  split_ifs with h
  · exact memsetWords_spec m dest byte len hlen _
  · exact memsetBytes_spec m dest _ len hlen

/-! ### `memcpy` -/

/-- `while (d < dest + len) *d++ = *s++;` over bytes; the state is `(d, s)` and the memory. -/
def memcpyBytes (stop : Word) : While (Word × Word × Mem) where
  cond st := decide (st.1 < stop)
  body st := (st.1 + 1, st.2.1 + 1, st.2.2.store8 st.1 (st.2.2.byte st.2.1))
  measure st := (stop - st.1).toNat
  decreases st hst := by
    simp only [decide_eq_true_eq] at hst
    bv_omega

/-- `while (d < dest + len - 7)` over words. -/
def memcpyWords (stop : Word) : Word × Word × Mem → Option (Word × Word × Mem) :=
  runFor (fun st => decide (st.1 < stop))
    (fun st => (st.1 + 8, st.2.1 + 8, st.2.2.store64 st.1 (st.2.2.load64 st.2.1))) (2 ^ 64)

/-- `void *memcpy(void *dest, const void *src, size_t len)`: the pointer returned and the memory. -/
def memcpy (m : Mem) (dest src len : Word) : Option (Word × Mem) :=
  let words :=
    if (dest ||| src) &&& 7 = 0 then memcpyWords (dest + len - (8 - 1)) (dest, src, m)
    else some (dest, src, m)
  words.map fun st => (dest, ((memcpyBytes (dest + len)).run st).2.2)

/-- `m'` is `m` with the `n` bytes from `src` on copied to `dest` and nothing else stored to. -/
structure Copied (m m' : Mem) (dest src : Word) (n : ℕ) : Prop where
  wrote : Wrote (span dest n) m m'
  copied : ∀ k < n, m'.byte (dest + BitVec.ofNat 64 k) = m.byte (src + BitVec.ofNat 64 k)

namespace Copied

variable {m m' m'' : Mem} {dest src : Word} {n k : ℕ}

theorem zero (m : Mem) (dest src : Word) : Copied m m dest src 0 := ⟨Wrote.refl _ m, by omega⟩

theorem store8 (m : Mem) (d s : Word) : Copied m (m.store8 d (m.byte s)) d s 1 := by
  refine ⟨Wrote.store8 (by simp [mem_span]) m _, fun k hk => ?_⟩
  obtain rfl : k = 0 := by omega
  simp

theorem store64 (m : Mem) (d s : Word) : Copied m (m.store64 d (m.load64 s)) d s 8 := by
  refine ⟨Wrote.store64 subset_rfl m _, fun k hk => ?_⟩
  have hoffset : (d + BitVec.ofNat 64 k - d).toNat = k := by bv_omega
  have hload := m.load_lt 8 s
  rw [Mem.store64, Mem.byte_store m (by norm_num), hoffset, if_pos hk, Mem.load64,
    BitVec.toNat_ofNat, Nat.mod_eq_of_lt (by omega), Mem.ofNat_load_div m hk]

/-- Copying goes on behind what is copied, when the rest of the source is not stored to. -/
theorem append (h : Copied m m' dest src n)
    (h' : Copied m' m'' (dest + BitVec.ofNat 64 n) (src + BitVec.ofNat 64 n) k)
    (hnk : n + k ≤ 2 ^ 64) (hdisj : Disjoint (span (src + BitVec.ofNat 64 n) k) (span dest n)) :
    Copied m m'' dest src (n + k) := by
  have hleft : span dest n ⊆ span dest (n + k) := span_mono (by omega)
  have hright : span (dest + BitVec.ofNat 64 n) k ⊆ span dest (n + k) :=
    span_offset_subset (by omega) (by omega)
  refine ⟨(h.wrote.mono hleft).trans (h'.wrote.mono hright), fun i hi => ?_⟩
  by_cases hin : i < n
  · have hout : dest + BitVec.ofNat 64 i ∉ span (dest + BitVec.ofNat 64 n) k := by
      rw [mem_span]
      bv_omega
    rw [h'.wrote.byte_eq hout, h.copied i hin]
  · obtain ⟨j, rfl⟩ := Nat.exists_eq_add_of_le (Nat.le_of_not_lt hin)
    have hcopy := h'.copied j (by omega)
    rw [BitVec.add_assoc, BitVec.add_assoc, ← BitVec.ofNat_add] at hcopy
    have hsrc : src + BitVec.ofNat 64 (n + j) ∉ span dest n := by
      refine Set.disjoint_left.1 hdisj ?_
      rw [mem_span]
      bv_omega
    rw [hcopy, h.wrote.byte_eq hsrc]

end Copied

/-- Copying upwards from `src` to `dest` never reads a byte that it has stored to before. -/
def Ahead (dest src : Word) (N : ℕ) : Prop :=
  ∀ n k, n + k ≤ N → Disjoint (span (src + BitVec.ofNat 64 n) k) (span dest n)

theorem Ahead.of_disjoint {dest src : Word} {N : ℕ} (hN : N ≤ 2 ^ 64)
    (h : Disjoint (span src N) (span dest N)) : Ahead dest src N := fun _ _ hnk =>
  h.mono (span_offset_subset hnk hN) (span_mono (by omega))

/-- The ranges may meet when the source is not below the destination. -/
theorem Ahead.of_le {dest src : Word} {N : ℕ} (hN : src.toNat + N ≤ 2 ^ 64) (h : dest ≤ src) :
    Ahead dest src N := by
  intro n k hnk
  rw [Set.disjoint_left]
  intro b hb hb'
  rw [mem_span] at hb hb'
  bv_omega

section Memcpy

variable {m : Mem} {dest src len : Word} {st : Word × Word × Mem}

/-- A state of the loops: so much is copied. -/
def CopyInv (m : Mem) (dest src len : Word) (st : Word × Word × Mem) : Prop :=
  ∃ k ≤ len.toNat, st.1 = dest + BitVec.ofNat 64 k ∧ st.2.1 = src + BitVec.ofNat 64 k ∧
    Copied m st.2.2 dest src k

theorem CopyInv.init (m : Mem) (dest src len : Word) : CopyInv m dest src len (dest, src, m) :=
  ⟨0, Nat.zero_le _, by simp, by simp, Copied.zero m dest src⟩

/-- A word is copied when eight more bytes fit; it is read from the source. -/
theorem CopyInv.word (hlen : dest.toNat + len.toNat < 2 ^ 64) (hdest : 7 ≤ dest.toNat)
    (hahead : Ahead dest src len.toNat) (h : CopyInv m dest src len st)
    (hcond : st.1 < dest + len - (8 - 1)) :
    CopyInv m dest src len
        (st.1 + 8, st.2.1 + 8, st.2.2.store64 st.1 (st.2.2.load64 st.2.1)) ∧
      span st.2.1 8 ⊆ span src len.toNat ∧
      (dest + len - (st.1 + 8)).toNat < (dest + len - st.1).toNat := by
  obtain ⟨d, s, m'⟩ := st
  obtain ⟨k, hk, hd, hs, hcopy⟩ := h
  dsimp only at hd hs hcopy hcond ⊢
  subst hd hs
  have hroom : k + 8 ≤ len.toNat := by
    clear hcopy hahead
    bv_omega
  refine ⟨⟨k + 8, hroom, ?_, ?_, ?_⟩, span_offset_subset hroom (by omega), ?_⟩
  · rw [BitVec.ofNat_add, ← BitVec.add_assoc]
    rfl
  · rw [BitVec.ofNat_add, ← BitVec.add_assoc]
    rfl
  · exact hcopy.append (Copied.store64 m' _ _) (by omega) (hahead k 8 hroom)
  · clear hcopy hahead hcond
    bv_omega

/-- A byte is copied when the end is not reached; it is read from the source. -/
theorem CopyInv.byte (hahead : Ahead dest src len.toNat) (h : CopyInv m dest src len st)
    (hcond : st.1 < dest + len) :
    CopyInv m dest src len ((memcpyBytes (dest + len)).body st) ∧
      st.2.1 ∈ span src len.toNat := by
  obtain ⟨d, s, m'⟩ := st
  obtain ⟨k, hk, hd, hs, hcopy⟩ := h
  dsimp only at hd hs hcopy hcond ⊢
  subst hd hs
  have hroom : k + 1 ≤ len.toNat := by
    clear hcopy hahead
    bv_omega
  refine ⟨⟨k + 1, hroom, ?_, ?_, ?_⟩, ?_⟩
  · rw [BitVec.ofNat_add, ← BitVec.add_assoc]
    rfl
  · rw [BitVec.ofNat_add, ← BitVec.add_assoc]
    rfl
  · exact hcopy.append (Copied.store8 m' _ _) (by omega) (hahead k 1 hroom)
  · rw [mem_span]
    clear hcopy hahead hcond
    bv_omega

/-- When the byte loop has stopped, everything is copied. -/
theorem CopyInv.done (hlen : dest.toNat + len.toNat < 2 ^ 64) (h : CopyInv m dest src len st)
    (hexit : ¬ st.1 < dest + len) : Copied m st.2.2 dest src len.toNat := by
  obtain ⟨k, hk, hd, -, hcopy⟩ := h
  have : k = len.toNat := by
    rw [hd] at hexit
    clear hcopy hd
    bv_omega
  rwa [this] at hcopy

/-- The word loop stops, with part of the range copied. -/
theorem memcpyWords_spec (hlen : dest.toNat + len.toNat < 2 ^ 64) (hdest : 7 ≤ dest.toNat)
    (hahead : Ahead dest src len.toNat) :
    ∃ st, memcpyWords (dest + len - (8 - 1)) (dest, src, m) = some st ∧
      CopyInv m dest src len st := by
  refine (runFor_inv (I := CopyInv m dest src len) (μ := fun st => (dest + len - st.1).toNat) ?_
    (CopyInv.init m dest src len) (by omega)).imp fun st h => ⟨h.1, h.2.1⟩
  intro st hst hcond
  obtain ⟨hinv, -, hlt⟩ := hst.word hlen hdest hahead (of_decide_eq_true hcond)
  exact ⟨hinv, hlt⟩

/-- The byte loop copies the rest. -/
theorem memcpyBytes_spec (hlen : dest.toNat + len.toNat < 2 ^ 64)
    (hahead : Ahead dest src len.toNat) (hst : CopyInv m dest src len st) :
    Copied m ((memcpyBytes (dest + len)).run st).2.2 dest src len.toNat := by
  obtain ⟨hinv, hexit⟩ := (memcpyBytes (dest + len)).run_inv (I := CopyInv m dest src len)
    (fun st hst hcond => (hst.byte hahead (of_decide_eq_true hcond)).1) hst
  exact hinv.done hlen fun hlt => hexit (decide_eq_true hlt)

/-- Both pointers are multiples of eight on the word path. -/
theorem aligned_dest (h : (dest ||| src) &&& 7 = 0) : dest.toNat % 8 = 0 := by
  rw [BitVec.or_comm] at h
  exact aligned_len h

/-- `memcpy` copies exactly its range, on the word path and on the byte path, when it never reads
what it has stored. -/
theorem memcpy_copied (m : Mem) {dest src len : Word} (hlen : dest.toNat + len.toNat < 2 ^ 64)
    (hdest : dest ≠ 0) (hahead : Ahead dest src len.toNat) :
    ∃ m', memcpy m dest src len = some (dest, m') ∧ Copied m m' dest src len.toNat := by
  unfold memcpy
  split_ifs with halign
  · have hdest : 7 ≤ dest.toNat := by
      have := aligned_dest halign
      bv_omega
    obtain ⟨st, hrun, hinv⟩ := memcpyWords_spec (m := m) hlen hdest hahead
    rw [hrun]
    exact ⟨_, rfl, memcpyBytes_spec hlen hahead hinv⟩
  · exact ⟨_, rfl, memcpyBytes_spec hlen hahead (CopyInv.init m dest src len)⟩

/-- A state of the loops, whatever the source is: the pointer is in the destination or at its end, and
nothing else was stored to. -/
def StoreInv (m : Mem) (dest len : Word) (st : Word × Word × Mem) : Prop :=
  ∃ k ≤ len.toNat, st.1 = dest + BitVec.ofNat 64 k ∧ Wrote (span dest len.toNat) m st.2.2

theorem StoreInv.init (m : Mem) (dest src len : Word) : StoreInv m dest len (dest, src, m) :=
  ⟨0, Nat.zero_le _, by simp, Wrote.refl _ m⟩

theorem StoreInv.word (hlen : dest.toNat + len.toNat < 2 ^ 64) (hdest : 7 ≤ dest.toNat)
    (h : StoreInv m dest len st) (hcond : st.1 < dest + len - (8 - 1)) :
    StoreInv m dest len (st.1 + 8, st.2.1 + 8, st.2.2.store64 st.1 (st.2.2.load64 st.2.1)) ∧
      (dest + len - (st.1 + 8)).toNat < (dest + len - st.1).toNat := by
  obtain ⟨d, s, m'⟩ := st
  obtain ⟨k, hk, hd, hw⟩ := h
  dsimp only at hd hw hcond ⊢
  subst hd
  have hroom : k + 8 ≤ len.toNat := by
    clear hw
    bv_omega
  refine ⟨⟨k + 8, hroom, ?_, ?_⟩, ?_⟩
  · rw [BitVec.ofNat_add, ← BitVec.add_assoc]
    rfl
  · exact hw.trans (Wrote.store64 (span_offset_subset hroom (by omega)) m' _)
  · clear hw hcond
    bv_omega

theorem StoreInv.byte (h : StoreInv m dest len st) (hcond : st.1 < dest + len) :
    StoreInv m dest len ((memcpyBytes (dest + len)).body st) := by
  obtain ⟨d, s, m'⟩ := st
  obtain ⟨k, hk, hd, hw⟩ := h
  dsimp only at hd hw hcond ⊢
  subst hd
  have hroom : k + 1 ≤ len.toNat := by
    clear hw
    bv_omega
  refine ⟨k + 1, hroom, ?_, hw.trans (Wrote.store8 ?_ m' _)⟩
  · rw [BitVec.ofNat_add, ← BitVec.add_assoc]
    rfl
  · exact mem_span_add hroom (by omega)

theorem memcpyWords_wrote (m : Mem) (src : Word) (hlen : dest.toNat + len.toNat < 2 ^ 64)
    (hdest : 7 ≤ dest.toNat) :
    ∃ st, memcpyWords (dest + len - (8 - 1)) (dest, src, m) = some st ∧ StoreInv m dest len st := by
  refine (runFor_inv (I := StoreInv m dest len) (μ := fun st => (dest + len - st.1).toNat) ?_
    (StoreInv.init m dest src len) (by omega)).imp fun st h => ⟨h.1, h.2.1⟩
  exact fun st hst hcond => hst.word hlen hdest (of_decide_eq_true hcond)

theorem memcpyBytes_wrote (hst : StoreInv m dest len st) :
    Wrote (span dest len.toNat) m ((memcpyBytes (dest + len)).run st).2.2 := by
  obtain ⟨⟨_, -, -, hw⟩, -⟩ := (memcpyBytes (dest + len)).run_inv (I := StoreInv m dest len)
    (fun st hst hcond => hst.byte (of_decide_eq_true hcond)) hst
  exact hw

/-- Whatever the source is, `memcpy` stores to its destination. -/
theorem memcpy_wrote (m : Mem) (dest src len : Word) (hlen : dest.toNat + len.toNat < 2 ^ 64)
    (hdest : 7 ≤ dest.toNat) :
    ∃ m', memcpy m dest src len = some (dest, m') ∧ Wrote (span dest len.toNat) m m' := by
  unfold memcpy
  split_ifs
  · obtain ⟨st, hrun, hinv⟩ := memcpyWords_wrote m src hlen hdest
    rw [hrun]
    exact ⟨_, rfl, memcpyBytes_wrote hinv⟩
  · exact ⟨_, rfl, memcpyBytes_wrote (StoreInv.init m dest src len)⟩

end Memcpy

/-! ### `memmove` -/

/-- The variables of `memmove`: the counter, the two pointers and the memory. -/
structure MoveState where
  n : Word
  d : Word
  s : Word
  mem : Mem

/-- `while (n-- > 0) *--d = *--s;` -/
def memmoveDown : While MoveState where
  cond st := decide (0 < st.n)
  body st := ⟨st.n - 1, st.d - 1, st.s - 1, st.mem.store8 (st.d - 1) (st.mem.byte (st.s - 1))⟩
  measure st := st.n.toNat
  decreases st hst := by
    simp only [decide_eq_true_eq] at hst
    bv_omega

/-- `while (n-- > 0) *d++ = *s++;` -/
def memmoveUp : While MoveState where
  cond st := decide (0 < st.n)
  body st := ⟨st.n - 1, st.d + 1, st.s + 1, st.mem.store8 st.d (st.mem.byte st.s)⟩
  measure st := st.n.toNat
  decreases st hst := by
    simp only [decide_eq_true_eq] at hst
    bv_omega

/-- `void *memmove(void *dst, const void *src, size_t n)`: the pointer returned and the memory. -/
def memmove (m : Mem) (dst src n : Word) : Word × Mem :=
  if src < dst ∧ dst < src + n then (dst, (memmoveDown.run ⟨n, dst + n, src + n, m⟩).mem)
  else (dst, (memmoveUp.run ⟨n, dst, src, m⟩).mem)

/-! ### `safestrcpy` -/

/-- The result of `safestrcpy`: the pointer it returns, the memory, and the addresses of the source
that it has read, the latest first. -/
structure StrcpyResult where
  ret : Word
  mem : Mem
  reads : List Word

/-- `while (--n > 0 && (*s++ = *t++) != 0);`: `ret` is the pointer `s` after the loop. -/
def safestrcpyLoop : ℕ → Word → Word → Mem → List Word → StrcpyResult
  | 0, s, _, m, reads => ⟨s, m, reads⟩
  | n + 1, s, t, m, reads =>
    if 0 < n then
      if m.byte t ≠ 0 then
        safestrcpyLoop n (s + 1) (t + 1) (m.store8 s (m.byte t)) (t :: reads)
      else ⟨s + 1, m.store8 s (m.byte t), t :: reads⟩
    else ⟨s, m, reads⟩

/-- `char *safestrcpy(char *s, const char *t, int n)` -/
def safestrcpy (m : Mem) (s t : Word) (n : BitVec 32) : StrcpyResult :=
  if n.toInt ≤ 0 then ⟨s, m, []⟩
  else
    let r := safestrcpyLoop n.toInt.toNat s t m []
    ⟨s, r.mem.store8 r.ret 0, r.reads⟩

/-! ### `strlen`, `strcmp`, `strcpy`, `strchr` and `strcat` -/

/-- `size_t strlen(const char *s)`. -/
def strlen (m : Mem) (s : Word) : Option Word :=
  (runFor (fun p => m.byte p != 0) (· + 1) (2 ^ 64) s).map (· - s)

/-- The variables of `strcmp`. -/
structure StrcmpState where
  s1 : Word
  s2 : Word
  c1 : Byte
  c2 : Byte

/-- `c1 = *s1++; c2 = *s2++;` -/
def StrcmpState.next (m : Mem) (st : StrcmpState) : StrcmpState :=
  ⟨st.s1 + 1, st.s2 + 1, m.byte st.s1, m.byte st.s2⟩

/-- `int strcmp(const char *s1, const char *s2)`, a loop whose body comes before its condition. -/
def strcmp (m : Mem) (s1 s2 : Word) : Option ℤ :=
  (runFor (fun st => st.c1 != 0 && st.c1 == st.c2) (StrcmpState.next m) (2 ^ 64)
    (StrcmpState.next m ⟨s1, s2, 0, 0⟩)).map fun st => (st.c1.toNat : ℤ) - st.c2.toNat

/-- The variables of `strcpy`, the memory, and the character that was copied last. -/
structure StrcpyState where
  d : Word
  src : Word
  mem : Mem
  c : Byte

/-- `*d++ = *src++` -/
def StrcpyState.next (st : StrcpyState) : StrcpyState :=
  ⟨st.d + 1, st.src + 1, st.mem.store8 st.d (st.mem.byte st.src), st.mem.byte st.src⟩

/-- `char *strcpy(char *dest, const char *src)`: the pointer returned and the memory. -/
def strcpy (m : Mem) (dest src : Word) : Option (Word × Mem) :=
  (runFor (fun st => st.c != 0) StrcpyState.next (2 ^ 64)
    (StrcpyState.next ⟨dest, src, m, 0⟩)).map fun st => (dest, st.mem)

/-- `char *strchr(const char *p, int ch)`. -/
def strchr (m : Mem) (p : Word) (ch : BitVec 32) : Option Word :=
  let c : Byte := ch.setWidth 8
  (runFor (fun p => m.byte p != c && m.byte p != 0) (· + 1) (2 ^ 64) p).map fun p =>
    if m.byte p = c then p else 0

/-- `char *strcat(char *dst, const char *src)`. -/
def strcat (m : Mem) (dst src : Word) : Option (Word × Mem) := do
  let n ← strlen m dst
  let (_, m) ← strcpy m (dst + n) src
  return (dst, m)

/-! ### `atol` -/

/-- A `long`, and whether the computation of it has overflowed. -/
structure Long where
  val : BitVec 64
  overflow : Bool
  deriving DecidableEq

/-- `res *= 10; res += *str++ - '0';` where `c` is the character. -/
def Long.push (res : Long) (c : Byte) : Long :=
  let ten := res.val * 10
  let digit := (c.setWidth 32 - (ascii '0').setWidth 32).signExtend 64
  ⟨ten + digit, res.overflow || res.val.smulOverflow 10 || ten.saddOverflow digit⟩

/-- `-res` -/
def Long.neg (res : Long) : Long := ⟨-res.val, res.overflow || res.val.negOverflow⟩

/-- `while (*str == ' ') str++;`, at most `n` tests of the condition. -/
def skipSpaces (m : Mem) : ℕ → Word → Option Word
  | 0, _ => none
  | n + 1, str => if m.byte str = ascii ' ' then skipSpaces m n (str + 1) else some str

/-- `while (*str)`, at most `n` tests of the condition. -/
def atolFor (m : Mem) : ℕ → Word → Long → Option Long
  | 0, _, _ => none
  | n + 1, str, res =>
    if m.byte str = 0 then some res else atolFor m n (str + 1) (res.push (m.byte str))

/-- `long atol(const char *str)`, with `none` for a call that does not return. -/
def atol (m : Mem) (str : Word) : Option Long :=
  (skipSpaces m (2 ^ 64) str).bind fun str =>
    let c := m.byte str
    let sign := c = ascii '-'
    let str := if c = ascii '-' ∨ c = ascii '+' then str + 1 else str
    (atolFor m (2 ^ 64) str ⟨0, false⟩).map fun res => if sign then res.neg else res

end HxcOS
