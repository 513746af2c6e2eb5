import HxcOS.Model.String

/-!
# Filling and copying memory

The word loops of `memset` and `memcpy` do what their byte loops do, for every value, alignment and
length, and `memmove` copies between ranges that meet in any way.

* `memcpyReading` is `memcpy` with the addresses that its loops read; they all lie in the source.
* Copying upwards is right when the source is not below the destination (`Ahead.of_le`), copying
  downwards when it is below (`Copied.prepend`); the test of `memmove` chooses between the two.
-/

namespace HxcOS

open ByteMem Loop

/-! ### `memset` -/

/-- The byte that `memset` stores: `byte` modulo 256, also when it is negative. -/
theorem toNat_low_byte (byte : BitVec 32) : ((byte.setWidth 8).toNat : ℤ) = byte.toInt % 256 := by
  rw [BitVec.toNat_setWidth, BitVec.toInt_eq_toNat_cond]
  have := byte.isLt
  split_ifs <;> omega

/-- Two ways of filling one range leave the same bytes. -/
theorem Filled.byte_eq {m m' m'' : Mem} {dest : Word} {n : ℕ} {v : Byte}
    (h : Filled m m' dest n v) (h' : Filled m m'' dest n v) (a : Word) : m'.byte a = m''.byte a := by
  by_cases ha : a ∈ span dest n
  · rw [h.filled a ha, h'.filled a ha]
  · rw [h.wrote.byte_eq ha, h'.wrote.byte_eq ha]

/-- `memset` sets every byte of its range to `byte` modulo 256 and no other, on the word path as on
the byte path. -/
theorem memset_exact (m : Mem) (dest : Word) (byte : BitVec 32) (len : Word)
    (hlen : dest.toNat + len.toNat < 2 ^ 64) :
    (memset m dest byte len).1 = dest ∧
    (∀ i < len.toNat, (((memset m dest byte len).2.byte (dest + BitVec.ofNat 64 i)).toNat : ℤ) =
      byte.toInt % 256) ∧
    (∀ a ∉ span dest len.toNat, (memset m dest byte len).2.byte a = m.byte a) ∧
    ∀ a, (memset m dest byte len).2.byte a =
      ((memsetBytes (dest + len) (byte.setWidth 8)).run (dest, m)).2.byte a := by
  have hfill := memset_filled m dest byte len hlen
  refine ⟨memset_fst m dest byte len, fun i hi => ?_, fun a ha => hfill.wrote.byte_eq ha,
    hfill.byte_eq (memsetBytes_spec m dest _ len hlen)⟩
  rw [hfill.filled _ (mem_span_add hi (by omega)), toNat_low_byte]

/-- The last byte of a page set to a negative value, and of three bytes set to one above 255. -/
theorem memset_exact_sample :
    ((memset Mem.zero 0x1000 (-1) 4096).2.byte 0x1fff).toNat = 255 ∧
      ((memset Mem.zero 0x1001 0x1ff 3).2.byte 0x1003).toNat = 255 :=
  ⟨Int.ofNat_inj.1 ((memset_exact Mem.zero 0x1000 (-1) 4096 (by decide)).2.1 4095 (by decide)),
    Int.ofNat_inj.1 ((memset_exact Mem.zero 0x1001 0x1ff 3 (by decide)).2.1 2 (by decide))⟩

/-! ### `memcpy` -/

/-- The word loop with the addresses that it reads. -/
def memcpyWordsReading (stop : Word) :
    (Word × Word × Mem) × List Word → Option ((Word × Word × Mem) × List Word) :=
  runFor (fun st => decide (st.1.1 < stop))
    (observe (fun st => (st.1 + 8, st.2.1 + 8, st.2.2.store64 st.1 (st.2.2.load64 st.2.1)))
      fun st => (List.range 8).map fun i => st.2.1 + BitVec.ofNat 64 i) (2 ^ 64)

/-- `memcpy` with the addresses that it reads, the latest first. -/
def memcpyReading (m : Mem) (dest src len : Word) : Option ((Word × Mem) × List Word) :=
  let words :=
    if (dest ||| src) &&& 7 = 0 then memcpyWordsReading (dest + len - (8 - 1)) ((dest, src, m), [])
    else some ((dest, src, m), [])
  words.map fun st =>
    let st := ((memcpyBytes (dest + len)).observe fun st => [st.2.1]).run st
    ((dest, st.1.2.2), st.2)

theorem memcpyReading_fst (m : Mem) (dest src len : Word) :
    (memcpyReading m dest src len).map Prod.fst = memcpy m dest src len := by
  unfold memcpyReading memcpy
  split_ifs
  · have hwords := runFor_observe (fun st => decide (st.1 < dest + len - (8 - 1)))
      (fun st : Word × Word × Mem =>
        (st.1 + 8, st.2.1 + 8, st.2.2.store64 st.1 (st.2.2.load64 st.2.1)))
      (fun st => (List.range 8).map fun i => st.2.1 + BitVec.ofNat 64 i) (2 ^ 64)
      ((dest, src, m), [])
    rw [memcpyWords, ← hwords, memcpyWordsReading, Option.map_map, Option.map_map]
    congr 1
    funext st
    simp only [Function.comp_apply]
    rw [While.run_observe]
  · simp only [Option.map_some]
    rw [While.run_observe]

/-- A state of the loops: so much is copied, and nothing but the source was read. -/
def ReadInv (m : Mem) (dest src len : Word) (st : (Word × Word × Mem) × List Word) : Prop :=
  CopyInv m dest src len st.1 ∧ ∀ a ∈ st.2, a ∈ span src len.toNat

theorem ReadInv.init (m : Mem) (dest src len : Word) :
    ReadInv m dest src len ((dest, src, m), []) :=
  ⟨CopyInv.init m dest src len, by simp⟩

section Memcpy

variable {m : Mem} {dest src len : Word}

theorem memcpyWordsReading_spec (hlen : dest.toNat + len.toNat < 2 ^ 64) (hdest : 7 ≤ dest.toNat)
    (hahead : Ahead dest src len.toNat) :
    ∃ st, memcpyWordsReading (dest + len - (8 - 1)) ((dest, src, m), []) = some st ∧
      ReadInv m dest src len st := by
  refine (runFor_inv (I := ReadInv m dest src len)
    (μ := fun st => (dest + len - st.1.1).toNat) ?_ (ReadInv.init m dest src len)
    (by omega)).imp fun st h => ⟨h.1, h.2.1⟩
  rintro st ⟨hcopy, hreads⟩ hcond
  obtain ⟨hcopy', hword, hlt⟩ := hcopy.word hlen hdest hahead (of_decide_eq_true hcond)
  refine ⟨⟨hcopy', fun a ha => ?_⟩, hlt⟩
  rcases List.mem_append.1 ha with ha | ha
  · obtain ⟨i, hi, rfl⟩ := List.mem_map.1 ha
    exact hword (mem_span_add (List.mem_range.1 hi) (by norm_num))
  · exact hreads a ha

theorem memcpyBytesReading_spec (hlen : dest.toNat + len.toNat < 2 ^ 64)
    (hahead : Ahead dest src len.toNat) {st : (Word × Word × Mem) × List Word}
    (hst : ReadInv m dest src len st) :
    Copied m (((memcpyBytes (dest + len)).observe fun st => [st.2.1]).run st).1.2.2
        dest src len.toNat ∧
      ∀ a ∈ (((memcpyBytes (dest + len)).observe fun st => [st.2.1]).run st).2,
        a ∈ span src len.toNat := by
  obtain ⟨⟨hcopy, hreads⟩, hexit⟩ :=
    ((memcpyBytes (dest + len)).observe fun st => [st.2.1]).run_inv (I := ReadInv m dest src len)
      (by
        rintro st ⟨hcopy, hreads⟩ hcond
        obtain ⟨hcopy', hbyte⟩ := hcopy.byte hahead (of_decide_eq_true hcond)
        refine ⟨hcopy', fun a ha => ?_⟩
        rcases List.mem_append.1 ha with ha | ha
        · rw [List.mem_singleton.1 ha]
          exact hbyte
        · exact hreads a ha)
      hst
  exact ⟨hcopy.done hlen fun hlt => hexit (decide_eq_true hlt), hreads⟩

end Memcpy

/-- Where the ranges are disjoint or the source is not below the destination, copying upwards never
reads what it has stored. -/
theorem Ahead.of_apart {dest src : Word} {N : ℕ} (hN : src.toNat + N < 2 ^ 64)
    (h : Disjoint (span src N) (span dest N) ∨ dest ≤ src) : Ahead dest src N := by
  rcases h with hdisj | hle
  · exact Ahead.of_disjoint (by omega) hdisj
  · exact Ahead.of_le (by omega) hle

/-- `memcpy` copies exactly its range and reads nothing but the source, for every alignment and
every length. -/
theorem memcpy_exact (m : Mem) (dest src len : Word) (hdest : dest ≠ 0)
    (hdlen : dest.toNat + len.toNat < 2 ^ 64) (hslen : src.toNat + len.toNat < 2 ^ 64)
    (hlap : Disjoint (span src len.toNat) (span dest len.toNat) ∨ dest ≤ src) :
    ∃ m' reads, memcpy m dest src len = some (dest, m') ∧
      memcpyReading m dest src len = some ((dest, m'), reads) ∧
      (∀ i < len.toNat, m'.byte (dest + BitVec.ofNat 64 i) = m.byte (src + BitVec.ofNat 64 i)) ∧
      (∀ a ∉ span dest len.toNat, m'.byte a = m.byte a) ∧
      ∀ a ∈ reads, a ∈ span src len.toNat := by
  have hahead := Ahead.of_apart hslen hlap
  obtain ⟨m', reads, hrun, hcopy, hreads⟩ :
      ∃ m' reads, memcpyReading m dest src len = some ((dest, m'), reads) ∧
        Copied m m' dest src len.toNat ∧ ∀ a ∈ reads, a ∈ span src len.toNat := by
    unfold memcpyReading
    split_ifs with halign
    · have haligned := aligned_dest halign
      obtain ⟨st, hrun, hinv⟩ := memcpyWordsReading_spec (m := m) hdlen (by bv_omega) hahead
      rw [hrun]
      exact ⟨_, _, rfl, memcpyBytesReading_spec hdlen hahead hinv⟩
    · exact ⟨_, _, rfl, memcpyBytesReading_spec hdlen hahead (ReadInv.init m dest src len)⟩
  refine ⟨m', reads, ?_, hrun, hcopy.copied, fun a ha => hcopy.wrote.byte_eq ha, hreads⟩
  rw [← memcpyReading_fst, hrun]
  rfl

/-- A memory in which every byte has the last eight bits of its address. -/
def countingMem : Mem := ⟨fun a => a.setWidth 8, []⟩

/-- Two words and four bytes are copied to an aligned address; and nine bytes are moved down by four,
in a range that begins at an odd address. -/
theorem memcpy_exact_sample :
    (∃ m' reads, memcpy countingMem 0x2000 0x1010 20 = some (0x2000, m') ∧
      memcpyReading countingMem 0x2000 0x1010 20 = some ((0x2000, m'), reads) ∧
      (∀ i < 20, m'.byte (0x2000 + BitVec.ofNat 64 i) = BitVec.ofNat 8 (0x10 + i)) ∧
      m'.byte 0x2014 = 0x14 ∧ ∀ a ∈ reads, a ∈ span 0x1010 20) ∧
    ∃ m' reads, memcpy countingMem 0x1001 0x1005 9 = some (0x1001, m') ∧
      memcpyReading countingMem 0x1001 0x1005 9 = some ((0x1001, m'), reads) ∧
      (∀ i < 9, m'.byte (0x1001 + BitVec.ofNat 64 i) = BitVec.ofNat 8 (0x05 + i)) ∧
      m'.byte 0x100a = 0x0a ∧ ∀ a ∈ reads, a ∈ span 0x1005 9 := by
  have hapart : Disjoint (span 0x1010 20) (span 0x2000 20) :=
    span_disjoint_of_le (by decide) (by decide)
  constructor
  · obtain ⟨m', reads, hrun, hreading, hcopied, hkept, hreads⟩ := memcpy_exact countingMem 0x2000
      0x1010 20 (by decide) (by decide) (by decide) (Or.inl hapart)
    refine ⟨m', reads, hrun, hreading, fun i hi => ?_, hkept _ (by decide), hreads⟩
    rw [hcopied i hi]
    revert i
    decide
  · obtain ⟨m', reads, hrun, hreading, hcopied, hkept, hreads⟩ := memcpy_exact countingMem 0x1001
      0x1005 9 (by decide) (by decide) (by decide) (Or.inr (by decide))
    refine ⟨m', reads, hrun, hreading, fun i hi => ?_, hkept _ (by decide), hreads⟩
    rw [hcopied i hi]
    revert i
    decide

/-! ### `memmove` -/

namespace Copied

variable {m m' m'' : Mem} {dest src : Word} {n k : ℕ}

/-- Copying goes on below what is copied, when the rest of the source is not stored to. -/
theorem prepend (h : Copied m m' (dest + BitVec.ofNat 64 n) (src + BitVec.ofNat 64 n) k)
    (h' : Copied m' m'' dest src n) (hnk : n + k < 2 ^ 64)
    (hdisj : Disjoint (span src n) (span (dest + BitVec.ofNat 64 n) k)) :
    Copied m m'' dest src (n + k) := by
  have hleft : span dest n ⊆ span dest (n + k) := span_mono (by omega)
  have hright : span (dest + BitVec.ofNat 64 n) k ⊆ span dest (n + k) :=
    span_offset_subset (by omega) (by omega)
  refine ⟨(h.wrote.mono hright).trans (h'.wrote.mono hleft), fun i hi => ?_⟩
  by_cases hin : i < n
  · rw [h'.copied i hin,
      h.wrote.byte_eq (Set.disjoint_left.1 hdisj (mem_span_add hin (by omega)))]
  · obtain ⟨j, rfl⟩ := Nat.exists_eq_add_of_le (Nat.le_of_not_lt hin)
    have hout : dest + BitVec.ofNat 64 (n + j) ∉ span dest n := by
      rw [mem_span]
      bv_omega
    rw [h'.wrote.byte_eq hout, BitVec.ofNat_add, ← BitVec.add_assoc, ← BitVec.add_assoc,
      h.copied j (by omega)]

/-- Two ways of copying one range leave the same bytes. -/
theorem byte_eq (h : Copied m m' dest src n) (h' : Copied m m'' dest src n) (a : Word) :
    m'.byte a = m''.byte a := by
  by_cases ha : a ∈ span dest n
  · have hoffset : a = dest + BitVec.ofNat 64 (a - dest).toNat := by
      rw [BitVec.ofNat_toNat, BitVec.setWidth_eq, BitVec.add_comm, BitVec.sub_add_cancel]
    rw [hoffset, h.copied _ (mem_span.1 ha), h'.copied _ (mem_span.1 ha)]
  · rw [h.wrote.byte_eq ha, h'.wrote.byte_eq ha]

end Copied

section Memmove

variable {m : Mem} {dst src n : Word}

/-- Going down: the last `k` bytes are copied and `j` are left. -/
def DownInv (m : Mem) (dst src n : Word) (st : MoveState) : Prop :=
  ∃ j k, j + k = n.toNat ∧ st.n = BitVec.ofNat 64 j ∧ st.d = dst + BitVec.ofNat 64 j ∧
    st.s = src + BitVec.ofNat 64 j ∧
    Copied m st.mem (dst + BitVec.ofNat 64 j) (src + BitVec.ofNat 64 j) k

theorem DownInv.init (m : Mem) (dst src n : Word) :
    DownInv m dst src n ⟨n, dst + n, src + n, m⟩ :=
  ⟨n.toNat, 0, rfl, by simp, by simp, by simp, Copied.zero m _ _⟩

/-- A byte of the source below the destination is read before it is stored to. -/
theorem DownInv.step (hdst : dst.toNat + n.toNat < 2 ^ 64) (hlt : src < dst) {st : MoveState}
    (h : DownInv m dst src n st) (hcond : memmoveDown.cond st = true) :
    DownInv m dst src n (memmoveDown.body st) := by
  obtain ⟨c, d, s, m'⟩ := st
  obtain ⟨j, k, hjk, hn, hd, hs, hcopy⟩ := h
  have hpos : 0 < c := of_decide_eq_true hcond
  dsimp only at hn hd hs hcopy
  obtain ⟨i, rfl⟩ := Nat.exists_eq_succ_of_ne_zero (n := j) (by bv_omega)
  rw [Nat.succ_eq_add_one, BitVec.ofNat_add] at hn hd hs hcopy
  rw [← BitVec.add_assoc] at hd hs
  rw [← BitVec.add_assoc, ← BitVec.add_assoc] at hcopy
  refine ⟨i, 1 + k, by omega, ?_, ?_, ?_, ?_⟩
  · rw [memmoveDown, hn]
    exact BitVec.add_sub_cancel _ _
  · rw [memmoveDown, hd]
    exact BitVec.add_sub_cancel _ _
  · rw [memmoveDown, hs]
    exact BitVec.add_sub_cancel _ _
  · have hd' : d - 1 = dst + BitVec.ofNat 64 i := by rw [hd]; exact BitVec.add_sub_cancel _ _
    have hs' : s - 1 = src + BitVec.ofNat 64 i := by rw [hs]; exact BitVec.add_sub_cancel _ _
    simp only [memmoveDown, hd', hs']
    refine hcopy.prepend (Copied.store8 m' _ _) (by omega) ?_
    rw [span_one, Set.disjoint_singleton_left, mem_span]
    clear hcopy hn hd hs hcond hd' hs'
    bv_omega

/-- Going up: the first `k` bytes are copied. -/
def UpInv (m : Mem) (dst src n : Word) (st : MoveState) : Prop :=
  ∃ j k, j + k = n.toNat ∧ st.n = BitVec.ofNat 64 j ∧ st.d = dst + BitVec.ofNat 64 k ∧
    st.s = src + BitVec.ofNat 64 k ∧ Copied m st.mem dst src k

theorem UpInv.init (m : Mem) (dst src n : Word) : UpInv m dst src n ⟨n, dst, src, m⟩ :=
  ⟨n.toNat, 0, rfl, by simp, by simp, by simp, Copied.zero m _ _⟩

theorem UpInv.step (hahead : Ahead dst src n.toNat) {st : MoveState} (h : UpInv m dst src n st)
    (hcond : memmoveUp.cond st = true) : UpInv m dst src n (memmoveUp.body st) := by
  obtain ⟨c, d, s, m'⟩ := st
  obtain ⟨j, k, hjk, hn, hd, hs, hcopy⟩ := h
  have hpos : 0 < c := of_decide_eq_true hcond
  dsimp only at hn hd hs hcopy
  subst hd hs
  obtain ⟨i, rfl⟩ := Nat.exists_eq_succ_of_ne_zero (n := j) (by bv_omega)
  refine ⟨i, k + 1, by omega, ?_, ?_, ?_, ?_⟩
  · rw [memmoveUp, hn, Nat.succ_eq_add_one, BitVec.ofNat_add]
    exact BitVec.add_sub_cancel _ _
  · rw [BitVec.ofNat_add, ← BitVec.add_assoc]
    rfl
  · rw [BitVec.ofNat_add, ← BitVec.add_assoc]
    rfl
  · exact hcopy.append (Copied.store8 m' _ _) (by omega) (hahead k 1 (by omega))

/-- `memmove` copies exactly its range, however the ranges lie. -/
theorem memmove_copied (m : Mem) (dst src n : Word) (hdst : dst.toNat + n.toNat < 2 ^ 64)
    (hsrc : src.toNat + n.toNat < 2 ^ 64) :
    Copied m (memmove m dst src n).2 dst src n.toNat := by
  unfold memmove
  split_ifs with hdown
  · obtain ⟨⟨j, k, hjk, hn, -, -, hcopy⟩, hexit⟩ := memmoveDown.run_inv
      (I := DownInv m dst src n) (fun st h hc => h.step hdst hdown.1 hc)
      (DownInv.init m dst src n)
    obtain rfl : j = 0 := by
      simp only [memmoveDown, decide_eq_true_eq] at hexit hn
      rw [hn] at hexit
      bv_omega
    obtain rfl : k = n.toNat := by omega
    simpa using hcopy
  · have hahead : Ahead dst src n.toNat := by
      by_cases hlt : src < dst
      · refine Ahead.of_disjoint (by omega) (Set.disjoint_left.2 fun a ha ha' => hdown ⟨hlt, ?_⟩)
        rw [mem_span] at ha ha'
        bv_omega
      · exact Ahead.of_le (by omega) (BitVec.not_lt.1 hlt)
    obtain ⟨⟨j, k, hjk, hn, -, -, hcopy⟩, hexit⟩ := memmoveUp.run_inv
      (I := UpInv m dst src n) (fun st h hc => h.step hahead hc) (UpInv.init m dst src n)
    obtain rfl : j = 0 := by
      simp only [memmoveUp, decide_eq_true_eq] at hexit hn
      rw [hn] at hexit
      bv_omega
    obtain rfl : k = n.toNat := by omega
    exact hcopy

end Memmove

/-- `memmove` is right under every overlap, and it agrees with `memcpy` wherever `memcpy` may be
called. -/
theorem memmove_exact (m : Mem) (dst src n : Word) (hdst : dst.toNat + n.toNat < 2 ^ 64)
    (hsrc : src.toNat + n.toNat < 2 ^ 64) :
    (∀ i < n.toNat, (memmove m dst src n).2.byte (dst + BitVec.ofNat 64 i) =
      m.byte (src + BitVec.ofNat 64 i)) ∧
    (∀ a ∉ span dst n.toNat, (memmove m dst src n).2.byte a = m.byte a) ∧
    (dst ≠ 0 → (Disjoint (span src n.toNat) (span dst n.toNat) ∨ dst ≤ src) →
      ∃ m', memcpy m dst src n = some (dst, m') ∧
        ∀ a, m'.byte a = (memmove m dst src n).2.byte a) := by
  have hcopy := memmove_copied m dst src n hdst hsrc
  refine ⟨hcopy.copied, fun a ha => hcopy.wrote.byte_eq ha, fun hnull hlap => ?_⟩
  obtain ⟨m', hrun, hcopy'⟩ := memcpy_copied m hdst hnull (Ahead.of_apart hsrc hlap)
  exact ⟨m', hrun, hcopy'.byte_eq hcopy⟩

/-- Two words moved up by one, and two words moved elsewhere, as `memcpy` does. -/
theorem memmove_exact_sample :
    ((∀ i < 16, (memmove countingMem 0x1008 0x1000 16).2.byte (0x1008 + BitVec.ofNat 64 i) =
        BitVec.ofNat 8 i) ∧
      (memmove countingMem 0x1008 0x1000 16).2.byte 0x1018 = 0x18) ∧
    ∃ m', memcpy countingMem 0x2010 0x1000 16 = some (0x2010, m') ∧
      ∀ a, m'.byte a = (memmove countingMem 0x2010 0x1000 16).2.byte a := by
  have hapart : Disjoint (span 0x1000 16) (span 0x2010 16) :=
    span_disjoint_of_le (by decide) (by decide)
  obtain ⟨hcopied, hkept, -⟩ := memmove_exact countingMem 0x1008 0x1000 16 (by decide) (by decide)
  refine ⟨⟨fun i hi => ?_, hkept _ (by decide)⟩,
    (memmove_exact countingMem 0x2010 0x1000 16 (by decide) (by decide)).2.2 (by decide)
      (Or.inl hapart)⟩
  rw [hcopied i hi]
  revert i
  decide

end HxcOS
