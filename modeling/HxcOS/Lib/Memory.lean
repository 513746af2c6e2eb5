import Mathlib

/-!
# Byte memory with a store log

A 64-bit byte-addressed memory is kept as its initial contents together with the list of all
stores made since, the latest first.  Reading looks the address up in the log and falls back on
the initial contents, so that the log is the memory and at the same time the record of which
addresses were ever stored to.

* `Mem.load n a` and `Mem.store n a v` read and write `n` bytes in little-endian order;
  `load16`, `load32`, `load64` and the matching stores are their fixed-width forms.
* `span a n` is the set of the `n` addresses from `a` on (modulo `2 ^ 64`).
* `Wrote S m m'` says that `m'` is `m` after stores that all land in `S`.  It is reflexive,
  transitive and monotone in `S`, and every byte outside `S` is unchanged (`Wrote.byte_eq`):
  the frame rule of this development.
* `Touched a m m'` says that one of the stores between `m` and `m'` was to `a`, whether or not it
  changed the byte there.
-/

namespace ByteMem

abbrev Byte := BitVec 8
abbrev Word := BitVec 64

/-- A memory: the initial bytes and the stores since then, the latest first. -/
structure Mem where
  init : Word → Byte
  log : List (Word × Byte)

/-- The `n` addresses `a, a + 1, …`, wrapping at the end of the address space. -/
def span (a : Word) (n : ℕ) : Set Word := {b | (b - a).toNat < n}

theorem mem_span {a b : Word} {n : ℕ} : b ∈ span a n ↔ (b - a).toNat < n := Iff.rfl

instance (a : Word) (n : ℕ) : DecidablePred (· ∈ span a n) :=
  fun b => inferInstanceAs (Decidable ((b - a).toNat < n))

theorem mem_span_add {a : Word} {i n : ℕ} (hi : i < n) (hn : n < 2 ^ 64) :
    a + BitVec.ofNat 64 i ∈ span a n := by
  rw [mem_span]
  bv_omega

theorem add_one_add (a : Word) (i : ℕ) : a + 1 + BitVec.ofNat 64 i = a + BitVec.ofNat 64 (i + 1) := by
  rw [Nat.add_comm, BitVec.ofNat_add, ← BitVec.add_assoc]
  rfl

theorem span_mono {a : Word} {k n : ℕ} (h : k ≤ n) : span a k ⊆ span a n :=
  fun _ hb => lt_of_lt_of_le (mem_span.1 hb) h

theorem span_offset_subset {a : Word} {k n N : ℕ} (h : k + n ≤ N) (hN : N ≤ 2 ^ 64) :
    span (a + BitVec.ofNat 64 k) n ⊆ span a N := by
  intro b hb
  rw [mem_span] at hb ⊢
  bv_omega

theorem span_offset_disjoint {a : Word} {j k n n' : ℕ} (h : j + n ≤ k) (h' : k + n' ≤ 2 ^ 64) :
    Disjoint (span (a + BitVec.ofNat 64 j) n) (span (a + BitVec.ofNat 64 k) n') := by
  rw [Set.disjoint_left]
  intro b hb hb'
  rw [mem_span] at hb hb'
  bv_omega

/-- Ranges that do not wrap around, one behind the other. -/
theorem span_disjoint_of_le {a b : Word} {n k : ℕ} (h : a.toNat + n ≤ b.toNat)
    (hb : b.toNat + k ≤ 2 ^ 64) : Disjoint (span a n) (span b k) := by
  rw [Set.disjoint_left]
  intro c hc hc'
  rw [mem_span] at hc hc'
  bv_omega

theorem span_one (a : Word) : span a 1 = {a} := by
  ext b
  rw [mem_span, Set.mem_singleton_iff]
  constructor <;> intro h <;> bv_omega

theorem span_succ {n : ℕ} (hn : n < 2 ^ 64) (a : Word) :
    span a (n + 1) = insert a (span (a + 1) n) := by
  ext b
  rw [Set.mem_insert_iff, mem_span, mem_span]
  constructor
  · intro h
    by_cases hb : b = a
    · exact Or.inl hb
    · exact Or.inr (by bv_omega)
  · rintro (rfl | h)
    · simp
    · bv_omega

namespace Mem

/-- The memory of zeros. -/
def zero : Mem := ⟨fun _ => 0, []⟩

/-- The byte at `a`: the latest store there, or the initial contents. -/
def byte (m : Mem) (a : Word) : Byte := (m.log.lookup a).getD (m.init a)

/-- Store one byte. -/
def store8 (m : Mem) (a : Word) (v : Byte) : Mem := { m with log := (a, v) :: m.log }

@[simp] theorem byte_store8 (m : Mem) (a b : Word) (v : Byte) :
    (m.store8 a v).byte b = if b = a then v else m.byte b := by
  unfold byte store8
  by_cases h : b = a
  · subst h; simp
  · rw [List.lookup_cons, show (b == a) = false by simpa using h, if_neg h]

/-- Read `n` bytes from `a` as a little-endian number. -/
def load (m : Mem) : ℕ → Word → ℕ
  | 0, _ => 0
  | n + 1, a => (m.byte a).toNat + 256 * m.load n (a + 1)

/-- Store the low `n` bytes of `v` from `a` on, in little-endian order. -/
def store (m : Mem) : ℕ → Word → ℕ → Mem
  | 0, _, _ => m
  | n + 1, a, v => (m.store8 a (BitVec.ofNat 8 v)).store n (a + 1) (v / 256)

def load16 (m : Mem) (a : Word) : BitVec 16 := BitVec.ofNat 16 (m.load 2 a)
def load32 (m : Mem) (a : Word) : BitVec 32 := BitVec.ofNat 32 (m.load 4 a)
def load64 (m : Mem) (a : Word) : Word := BitVec.ofNat 64 (m.load 8 a)

def store16 (m : Mem) (a : Word) (v : BitVec 16) : Mem := m.store 2 a v.toNat
def store32 (m : Mem) (a : Word) (v : BitVec 32) : Mem := m.store 4 a v.toNat
def store64 (m : Mem) (a v : Word) : Mem := m.store 8 a v.toNat

/-! ### Bytes of a multi-byte store -/

theorem byte_store (m : Mem) {n : ℕ} (hn : n ≤ 2 ^ 64) (a b : Word) (v : ℕ) :
    (m.store n a v).byte b =
      if (b - a).toNat < n then BitVec.ofNat 8 (v / 256 ^ (b - a).toNat) else m.byte b := by
  induction n generalizing m a v with
  | zero => simp [store]
  | succ n ih =>
    rw [store, ih _ (by omega), byte_store8]
    by_cases hb : b = a
    · subst hb
      have hlast : ¬ (b - (b + 1)).toNat < n := by bv_omega
      rw [if_neg hlast, if_pos rfl, if_pos (by simp)]
      simp
    · by_cases hin : (b - (a + 1)).toNat < n
      · have hs : (b - a).toNat = (b - (a + 1)).toNat + 1 := by bv_omega
        rw [if_pos hin, if_pos (by omega), hs, pow_succ', Nat.div_div_eq_div_mul]
      · rw [if_neg hin, if_neg hb, if_neg (by bv_omega)]

theorem byte_store_of_notMem (m : Mem) {n : ℕ} (hn : n ≤ 2 ^ 64) {a b : Word} (v : ℕ)
    (h : b ∉ span a n) : (m.store n a v).byte b = m.byte b := by
  rw [byte_store m hn, if_neg (mem_span.not.1 h)]

theorem byte_store_zero (m : Mem) {n : ℕ} (hn : n ≤ 2 ^ 64) (a b : Word) :
    (m.store n a 0).byte b = if (b - a).toNat < n then 0 else m.byte b := by
  rw [byte_store m hn]
  split_ifs
  · rw [Nat.zero_div]
    rfl
  · rfl

/-! ### Reading -/

theorem load_congr {m m' : Mem} {n : ℕ} (hn : n ≤ 2 ^ 64) {a : Word}
    (h : ∀ b ∈ span a n, m.byte b = m'.byte b) : m.load n a = m'.load n a := by
  induction n generalizing a with
  | zero => rfl
  | succ n ih =>
    rw [span_succ (by omega)] at h
    rw [load, load, h a (Set.mem_insert _ _),
      ih (by omega) fun b hb => h b (Set.mem_insert_of_mem _ hb)]

theorem load_lt (m : Mem) (n : ℕ) (a : Word) : m.load n a < 256 ^ n := by
  induction n generalizing a with
  | zero => simp [load]
  | succ n ih =>
    have hbyte := (m.byte a).isLt
    have htail := ih (a + 1)
    rw [load, pow_succ]
    omega

/-- A number read byte by byte from a memory that holds its digits in base 256. -/
theorem load_eq_of_digits {m : Mem} {n : ℕ} (hn : n ≤ 2 ^ 64) {a : Word} {v : ℕ}
    (h : ∀ b ∈ span a n, m.byte b = BitVec.ofNat 8 (v / 256 ^ (b - a).toNat)) :
    m.load n a = v % 256 ^ n := by
  induction n generalizing a v with
  | zero => simp [load, Nat.mod_one]
  | succ n ih =>
    have hhead : (m.byte a).toNat = v % 256 := by
      rw [h a (by rw [mem_span]; simp)]; simp
    have htail : m.load n (a + 1) = v / 256 % 256 ^ n := by
      refine ih (by omega) fun b hb => ?_
      have hb' : b ∈ span a (n + 1) := by
        rw [span_succ (by omega)]; exact Set.mem_insert_of_mem _ hb
      have hs : (b - a).toNat = (b - (a + 1)).toNat + 1 := by
        rw [mem_span] at hb; bv_omega
      rw [h b hb', hs, pow_succ', Nat.div_div_eq_div_mul]
    rw [load, hhead, htail, pow_succ', Nat.mod_mul]

/-- The bytes of a number that was read. -/
theorem ofNat_load_div (m : Mem) {n k : ℕ} (hk : k < n) (a : Word) :
    BitVec.ofNat 8 (m.load n a / 256 ^ k) = m.byte (a + BitVec.ofNat 64 k) := by
  induction n generalizing a k with
  | zero => omega
  | succ n ih =>
    have hbyte := (m.byte a).isLt
    rw [load]
    cases k with
    | zero =>
      apply BitVec.eq_of_toNat_eq
      simpa [Nat.add_mod] using hbyte
    | succ k =>
      rw [pow_succ', ← Nat.div_div_eq_div_mul, Nat.add_mul_div_left _ _ (by norm_num),
        Nat.div_eq_of_lt hbyte, Nat.zero_add, ih (by omega), BitVec.add_assoc, Nat.add_comm k 1,
        BitVec.ofNat_add]
      rfl

theorem load_store_same (m : Mem) {n : ℕ} (hn : n ≤ 2 ^ 64) (a : Word) (v : ℕ) :
    (m.store n a v).load n a = v % 256 ^ n :=
  load_eq_of_digits hn fun b hb => by rw [byte_store m hn, if_pos (mem_span.1 hb)]

theorem load_store_of_disjoint (m : Mem) {k n : ℕ} (hk : k ≤ 2 ^ 64) (hn : n ≤ 2 ^ 64)
    {a c : Word} (v : ℕ) (h : Disjoint (span a n) (span c k)) :
    (m.store k c v).load n a = m.load n a :=
  load_congr hn fun _ hb => byte_store_of_notMem m hk v (Set.disjoint_left.1 h hb)

@[simp] theorem load64_store64_same (m : Mem) (a v : Word) : (m.store64 a v).load64 a = v := by
  unfold load64 store64
  rw [load_store_same m (by norm_num)]
  apply BitVec.eq_of_toNat_eq
  have := v.isLt
  simp
  omega

@[simp] theorem load32_store32_same (m : Mem) (a : Word) (v : BitVec 32) :
    (m.store32 a v).load32 a = v := by
  unfold load32 store32
  rw [load_store_same m (by norm_num)]
  apply BitVec.eq_of_toNat_eq
  have := v.isLt
  simp
  omega

theorem load64_store64_of_disjoint (m : Mem) {a c : Word} (v : Word)
    (h : Disjoint (span a 8) (span c 8)) : (m.store64 c v).load64 a = m.load64 a := by
  unfold load64 store64
  rw [load_store_of_disjoint m (by norm_num) (by norm_num) _ h]

theorem load64_congr {m m' : Mem} {a : Word} (h : ∀ b ∈ span a 8, m.byte b = m'.byte b) :
    m.load64 a = m'.load64 a := by
  unfold load64; rw [load_congr (by norm_num) h]

/-- Eight zero bytes are the word zero. -/
theorem load64_eq_zero {m : Mem} {a : Word} (h : ∀ b ∈ span a 8, m.byte b = 0) :
    m.load64 a = 0 := by
  unfold load64
  rw [load_eq_of_digits (v := 0) (by norm_num) fun b hb => by rw [h b hb]; simp]
  rfl

end Mem

/-! ### Footprints -/

/-- `m'` is `m` after some stores, all of them to addresses of `S`. -/
def Wrote (S : Set Word) (m m' : Mem) : Prop :=
  ∃ l, m' = { m with log := l ++ m.log } ∧ ∀ e ∈ l, e.1 ∈ S

namespace Wrote

variable {S T : Set Word} {m m' m'' : Mem}

theorem refl (S : Set Word) (m : Mem) : Wrote S m m := ⟨[], rfl, by simp⟩

theorem trans (h : Wrote S m m') (h' : Wrote S m' m'') : Wrote S m m'' := by
  obtain ⟨l, rfl, hl⟩ := h
  obtain ⟨k, rfl, hk⟩ := h'
  refine ⟨k ++ l, by simp, fun e he => ?_⟩
  rcases List.mem_append.1 he with he | he
  · exact hk e he
  · exact hl e he

theorem mono (hST : S ⊆ T) (h : Wrote S m m') : Wrote T m m' := by
  obtain ⟨l, rfl, hl⟩ := h
  exact ⟨l, rfl, fun e he => hST (hl e he)⟩

theorem store8 {a : Word} (ha : a ∈ S) (m : Mem) (v : Byte) : Wrote S m (m.store8 a v) :=
  ⟨[(a, v)], rfl, by simpa using ha⟩

theorem store {n : ℕ} (hn : n ≤ 2 ^ 64) {a : Word} (h : span a n ⊆ S) (m : Mem) (v : ℕ) :
    Wrote S m (m.store n a v) := by
  induction n generalizing m a v with
  | zero => exact refl S m
  | succ n ih =>
    rw [span_succ (by omega)] at h
    have hhead : a ∈ S := h (Set.mem_insert _ _)
    exact (store8 hhead m _).trans (ih (by omega) (fun b hb => h (Set.mem_insert_of_mem _ hb)) _ _)

theorem store32 {a : Word} (h : span a 4 ⊆ S) (m : Mem) (v : BitVec 32) :
    Wrote S m (m.store32 a v) := store (by norm_num) h m _

theorem store64 {a : Word} (h : span a 8 ⊆ S) (m : Mem) (v : Word) : Wrote S m (m.store64 a v) :=
  store (by norm_num) h m _

theorem store16 {a : Word} (h : span a 2 ⊆ S) (m : Mem) (v : BitVec 16) :
    Wrote S m (m.store16 a v) := store (by norm_num) h m _

/-- Stores made one after another. -/
theorem foldl {ι : Type*} {f : Mem → ι → Mem} {l : List ι}
    (h : ∀ m, ∀ i ∈ l, Wrote S m (f m i)) (m : Mem) : Wrote S m (l.foldl f m) := by
  induction l generalizing m with
  | nil => exact refl S m
  | cons i l ih =>
    exact (h m i List.mem_cons_self).trans (ih (fun m j hj => h m j (List.mem_cons_of_mem _ hj)) _)

/-- **Frame rule.** A byte outside the footprint is unchanged. -/
theorem byte_eq (h : Wrote S m m') {a : Word} (ha : a ∉ S) : m'.byte a = m.byte a := by
  obtain ⟨l, rfl, hl⟩ := h
  induction l with
  | nil => rfl
  | cons e l ih =>
    have hne : a ≠ e.1 := fun heq => ha (heq ▸ hl e (by simp))
    have hrest := ih fun e' he' => hl e' (List.mem_cons_of_mem _ he')
    change (Mem.store8 ⟨m.init, l ++ m.log⟩ e.1 e.2).byte a = m.byte a
    rw [Mem.byte_store8, if_neg hne, hrest]

theorem load_eq (h : Wrote S m m') {n : ℕ} (hn : n ≤ 2 ^ 64) {a : Word}
    (ha : Disjoint (span a n) S) : m'.load n a = m.load n a :=
  Mem.load_congr hn fun _ hb => h.byte_eq (Set.disjoint_left.1 ha hb)

theorem load32_eq (h : Wrote S m m') {a : Word} (ha : Disjoint (span a 4) S) :
    m'.load32 a = m.load32 a := by
  unfold Mem.load32
  rw [h.load_eq (by norm_num) ha]

theorem load64_eq (h : Wrote S m m') {a : Word} (ha : Disjoint (span a 8) S) :
    m'.load64 a = m.load64 a := by
  unfold Mem.load64
  rw [h.load_eq (by norm_num) ha]

end Wrote

/-! ### What was stored to -/

/-- `m'` is `m` after some stores, one of them to the address `a`. -/
def Touched (a : Word) (m m' : Mem) : Prop :=
  ∃ l, m' = { m with log := l ++ m.log } ∧ a ∈ l.map Prod.fst

namespace Touched

variable {S : Set Word} {a : Word} {m m' m'' : Mem}

theorem store8 (m : Mem) (a : Word) (v : Byte) : Touched a m (m.store8 a v) :=
  ⟨[(a, v)], rfl, by simp⟩

theorem trans_wrote (h : Touched a m m') (h' : Wrote S m' m'') : Touched a m m'' := by
  obtain ⟨l, rfl, hl⟩ := h
  obtain ⟨k, rfl, -⟩ := h'
  exact ⟨k ++ l, by simp, by rw [List.map_append, List.mem_append]; exact Or.inr hl⟩

theorem of_wrote (h : Wrote S m m') (h' : Touched a m' m'') : Touched a m m'' := by
  obtain ⟨l, rfl, -⟩ := h
  obtain ⟨k, rfl, hk⟩ := h'
  exact ⟨k ++ l, by simp, by rw [List.map_append, List.mem_append]; exact Or.inl hk⟩

/-- A store to `a` does not fit a footprint without `a`. -/
theorem not_wrote (h : Touched a m m') (ha : a ∉ S) : ¬ Wrote S m m' := by
  rintro ⟨k, hk, hin⟩
  obtain ⟨l, rfl, hl⟩ := h
  have heq : l = k := by simpa using hk
  subst heq
  obtain ⟨e, he, rfl⟩ := List.mem_map.1 hl
  exact ha (hin e he)

theorem store {n : ℕ} (hn : n ≤ 2 ^ 64) {a b : Word} (hb : b ∈ span a n) (m : Mem) (v : ℕ) :
    Touched b m (m.store n a v) := by
  induction n generalizing m a v with
  | zero => simp [mem_span] at hb
  | succ n ih =>
    rw [span_succ (by omega), Set.mem_insert_iff] at hb
    rcases hb with rfl | hb
    · exact (store8 m b _).trans_wrote (Wrote.store (by omega) (Set.subset_univ _) _ _)
    · exact of_wrote (Wrote.store8 (Set.mem_univ a) m _) (ih (by omega) hb _ _)

end Touched

end ByteMem
