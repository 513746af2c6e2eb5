import HxcOS.Model.String

/-!
# `strlen`, `strcmp`, `strcpy`, `strchr` and `strcat`

These functions look for a NUL, so that they return on strings only.  `strcpy` and `strcat` store while
they look: when the destination is one of the bytes that are still to be read, the NUL is overwritten
before it is reached, and the call does not return (`strcpy_exact`, `strcat_exact`).  `strcmp` is the
lexicographic order (`strcmp_orders`).
-/

namespace HxcOS

open ByteMem Loop

/-! ### Scans -/

theorem iterate_add_one (p : Word) (i : ℕ) : (· + 1)^[i] p = p + BitVec.ofNat 64 i := by
  induction i generalizing p with
  | zero => simp
  | succ i ih => rw [Function.iterate_succ_apply, ih, add_one_add]

section Strings

variable {m : Mem} {p src dest : Word} {s t : List Byte}

/-- The characters of a string. -/
theorem StringAt.byte_get (h : StringAt m p s) {i : ℕ} (hi : i < s.length) :
    m.byte (p + BitVec.ofNat 64 i) = s[i] := by
  induction s generalizing p i with
  | nil => simp at hi
  | cons c s ih =>
    cases i with
    | zero => simpa using h.1
    | succ i =>
      rw [← add_one_add, List.getElem_cons_succ]
      exact ih h.2.2 (by simpa using hi)

/-- A pointer that moves along a string as long as `f` holds of the characters. -/
theorem scan_eq (h : StringAt m p s) {f : Byte → Bool} {k : ℕ} (hk : k ≤ s.length)
    (htrue : ∀ i (hi : i < k), f s[i] = true)
    (hfalse : f (m.byte (p + BitVec.ofNat 64 k)) = false) :
    runFor (fun p => f (m.byte p)) (· + 1) (2 ^ 64) p = some (p + BitVec.ofNat 64 k) := by
  have hlt := h.length_lt
  rw [← iterate_add_one]
  refine runFor_eq_some (by omega) (fun i hi => ?_) ?_
  · rw [iterate_add_one, h.byte_get (by omega)]
    exact htrue i hi
  · rwa [iterate_add_one]

/-- `strlen` returns the length. -/
theorem strlen_eq (h : StringAt m p s) : strlen m p = some (BitVec.ofNat 64 s.length) := by
  rw [strlen, scan_eq (f := fun c => c != 0) h le_rfl (fun i hi => ?_) (by simp [h.nul])]
  · rw [Option.map_some, BitVec.add_comm, BitVec.add_sub_cancel]
  · simpa [← h.byte_get hi] using h.ne_nul hi

/-- **`strchr` finds the first occurrence.**  The argument is cut down to a `char`; the NUL behind the
string counts as one of its characters, and a character that is not there is answered by `NULL`. -/
theorem strchr_eq (h : StringAt m p s) (ch : BitVec 32) : strchr m p ch = some
    (if ch.setWidth 8 ∈ s ∨ ch.setWidth 8 = 0 then p + BitVec.ofNat 64 (s.idxOf (ch.setWidth 8))
    else 0) := by
  rw [strchr]
  generalize ch.setWidth 8 = c
  have hstop : m.byte (p + BitVec.ofNat 64 (s.idxOf c)) = if c ∈ s then c else 0 := by
    split_ifs with hc
    · rw [h.byte_get (List.idxOf_lt_length_of_mem hc), List.getElem_idxOf]
    · rw [List.idxOf_eq_length hc, h.nul]
  rw [scan_eq (f := fun b => b != c && b != 0) h List.idxOf_le_length (fun i hi => ?_)
    (by rw [hstop]; split_ifs <;> simp), Option.map_some, hstop]
  · split_ifs with hc <;> simp_all
  · have hlt : i < s.length := hi.trans_le List.idxOf_le_length
    have hne : s[i] ≠ 0 := by
      rw [← h.byte_get hlt]
      exact h.ne_nul hlt
    have hnot : s[i] ≠ c := by simpa using List.not_of_lt_findIdx hi
    simp only [bne_iff_ne, ne_eq, Bool.and_eq_true]
    exact ⟨hnot, hne⟩

/-- At a NUL, or where the strings differ, the loop of `strcmp` stops. -/
theorem strcmpLoop_exit {p q : Word} (hstop : m.byte p = 0 ∨ m.byte p ≠ m.byte q) (n : ℕ)
    (x y : Byte) : runFor (fun st => st.c1 != 0 && st.c1 == st.c2) (StrcmpState.next m) n
      (StrcmpState.next m ⟨p, q, x, y⟩) = some ⟨p + 1, q + 1, m.byte p, m.byte q⟩ :=
  runFor_eq_some (k := 0) (Nat.zero_le n) (by simp)
    (by rcases hstop with hstop | hstop <;> simp [StrcmpState.next, hstop])

/-- The loop of `strcmp` on two strings. -/
theorem strcmpLoop_spec {a b : List Byte} {p q : Word} (ha : StringAt m p a) (hb : StringAt m q b)
    {n : ℕ} (hn : a.length ≤ n) (x y : Byte) : ∃ st,
    runFor (fun st => st.c1 != 0 && st.c1 == st.c2) (StrcmpState.next m) n
      (StrcmpState.next m ⟨p, q, x, y⟩) = some st ∧
    (st.c1 < st.c2 ↔ a < b) ∧ (st.c1 = st.c2 ↔ a = b) ∧ (st.c2 < st.c1 ↔ b < a) := by
  induction a generalizing p q b n x y with
  | nil =>
    have hp : m.byte p = 0 := ha
    refine ⟨_, strcmpLoop_exit (Or.inl hp) n x y, ?_⟩
    cases b with
    | nil =>
      have hq : m.byte q = 0 := hb
      simp [hp, hq]
    | cons d b =>
      have hd := hb.2.1
      rw [hp, hb.1]
      simp only [List.nil_lt_cons, List.nil_eq, reduceCtorEq, List.not_lt_nil, iff_true, iff_false]
      bv_omega
  | cons c a ih =>
    have hc := ha.2.1
    cases b with
    | nil =>
      have hq : m.byte q = 0 := hb
      refine ⟨_, strcmpLoop_exit (Or.inr (by rw [ha.1, hq]; exact hc)) n x y, ?_⟩
      rw [hq, ha.1]
      simp only [List.nil_lt_cons, reduceCtorEq, List.not_lt_nil, iff_true, iff_false]
      bv_omega
    | cons d b =>
      by_cases hcd : c = d
      · subst hcd
        obtain ⟨n, rfl⟩ := Nat.exists_eq_succ_of_ne_zero (show n ≠ 0 by simp at hn; omega)
        have hgo : ((StrcmpState.next m ⟨p, q, x, y⟩).c1 != 0 &&
            (StrcmpState.next m ⟨p, q, x, y⟩).c1 == (StrcmpState.next m ⟨p, q, x, y⟩).c2) = true := by
          show (m.byte p != 0 && m.byte p == m.byte q) = true
          rw [ha.1, hb.1, beq_self_eq_true, Bool.and_true]
          exact bne_iff_ne.2 hc
        rw [runFor, if_pos hgo]
        obtain ⟨st, hst, hlt, heq, hgt⟩ :=
          ih ha.2.2 hb.2.2 (by simpa using hn) (m.byte p) (m.byte q)
        exact ⟨st, hst, by simp [hlt], by simp [heq], by simp [hgt]⟩
      · refine ⟨_, strcmpLoop_exit (Or.inr (by rw [ha.1, hb.1]; exact hcd)) n x y, ?_⟩
        simp [ha.1, hb.1, List.cons_lt_cons_iff, hcd, Ne.symm hcd]

/-- **`strcmp` orders strings.** -/
theorem strcmp_orders {a b : List Byte} {s1 s2 : Word} (ha : StringAt m s1 a)
    (hb : StringAt m s2 b) : ∃ r, strcmp m s1 s2 = some r ∧
      (r < 0 ↔ a < b) ∧ (r = 0 ↔ a = b) ∧ (0 < r ↔ b < a) := by
  obtain ⟨st, hst, hlt, heq, hgt⟩ := strcmpLoop_spec ha hb ha.length_lt.le 0 0
  refine ⟨_, by rw [strcmp, hst, Option.map_some], ?_, ?_, ?_⟩
  · rw [← hlt, BitVec.lt_def]
    omega
  · rw [← heq, ← BitVec.toNat_inj]
    omega
  · rw [← hgt, BitVec.lt_def]
    omega

theorem strcmp_orders_sample :
    ∃ r, strcmp (textMem [ascii 'a', ascii 'b', 0, ascii 'a', ascii 'c']) 0x1000 0x1003 = some r ∧
      r < 0 := by
  have hab : StringAt (textMem [ascii 'a', ascii 'b', 0, ascii 'a', ascii 'c']) 0x1000
    [ascii 'a', ascii 'b'] := by decide
  have hac : StringAt (textMem [ascii 'a', ascii 'b', 0, ascii 'a', ascii 'c']) 0x1003
    [ascii 'a', ascii 'c'] := by decide
  obtain ⟨r, hr, hlt, -⟩ := strcmp_orders hab hac
  exact ⟨r, hr, hlt.2 (by decide)⟩

/-- The same bytes at another place are the same string. -/
theorem StringAt.congr {m' : Mem} {q : Word} (h : StringAt m p s)
    (heq : ∀ i ≤ s.length, m'.byte (q + BitVec.ofNat 64 i) = m.byte (p + BitVec.ofNat 64 i)) :
    StringAt m' q s := by
  have hhead : m'.byte q = m.byte p := by simpa using heq 0 (Nat.zero_le _)
  induction s generalizing p q with
  | nil => exact hhead.trans h
  | cons c s ih =>
    have htail : ∀ i ≤ s.length,
        m'.byte (q + 1 + BitVec.ofNat 64 i) = m.byte (p + 1 + BitVec.ofNat 64 i) := fun i hi => by
      rw [add_one_add, add_one_add]
      exact heq (i + 1) (Nat.succ_le_succ hi)
    exact ⟨hhead.trans h.1, h.2.1, ih h.2.2 htail (by simpa using htail 0 (Nat.zero_le _))⟩

/-- Copying upwards does not meet what it has stored, unless the destination begins behind the first of
the bytes that are copied. -/
theorem Ahead.of_notMem {n : ℕ} (hn : n < 2 ^ 64) (h : dest ∉ span (src + 1) n) :
    Ahead dest src (n + 1) := by
  intro i k hik
  rw [Set.disjoint_left]
  intro b hb hb'
  rw [mem_span] at h hb hb'
  bv_omega

/-- So many characters are copied, the last of which is `c`. -/
def StrcpyInv (m : Mem) (dest src : Word) (len : ℕ) (st : StrcpyState) : Prop :=
  ∃ i ≤ len, st.d = dest + BitVec.ofNat 64 (i + 1) ∧ st.src = src + BitVec.ofNat 64 (i + 1) ∧
    Copied m st.mem dest src (i + 1) ∧ st.c = m.byte (src + BitVec.ofNat 64 i)

/-- The next character is copied; it is read from the source. -/
theorem strcpyInv_next {len i : ℕ} {m' : Mem} (hlen : len < 2 ^ 64)
    (hahead : Ahead dest src (len + 1)) (hi : i ≤ len) (hcopy : Copied m m' dest src i) (c : Byte) :
    StrcpyInv m dest src len
      (StrcpyState.next ⟨dest + BitVec.ofNat 64 i, src + BitVec.ofNat 64 i, m', c⟩) := by
  have hout : src + BitVec.ofNat 64 i ∉ span dest i := by
    refine Set.disjoint_left.1 (hahead i 1 (by omega)) ?_
    rw [span_one]
    exact Set.mem_singleton _
  have hsucc (p : Word) : p + BitVec.ofNat 64 i + 1 = p + BitVec.ofNat 64 (i + 1) := by
    rw [BitVec.ofNat_add, ← BitVec.add_assoc]
    rfl
  exact ⟨i, hi, hsucc dest, hsucc src,
    hcopy.append (Copied.store8 m' _ _) (by omega) (hahead i 1 (by omega)),
    hcopy.wrote.byte_eq hout⟩

/-- The loop of `strcpy`, when it does not meet what it has stored. -/
theorem strcpy_ahead (h : StringAt m src s) (hahead : Ahead dest src (s.length + 1)) :
    ∃ m', strcpy m dest src = some (dest, m') ∧ Copied m m' dest src (s.length + 1) := by
  have hlen := h.length_lt
  have hfirst := strcpyInv_next (i := 0) hlen hahead (Nat.zero_le _) (Copied.zero m dest src) 0
  rw [BitVec.add_zero, BitVec.add_zero] at hfirst
  have hstep : ∀ st, StrcpyInv m dest src s.length st → (st.c != 0) = true →
      StrcpyInv m dest src s.length st.next ∧
        (src + BitVec.ofNat 64 (s.length + 1) - st.next.src).toNat <
          (src + BitVec.ofNat 64 (s.length + 1) - st.src).toNat := by
    rintro ⟨d, q, m', c⟩ ⟨i, hi, rfl, rfl, hcopy, rfl⟩ hcond
    -- a character other than NUL is not the last
    have hlt : i < s.length := by
      refine lt_of_le_of_ne hi ?_
      rintro rfl
      simp [h.nul] at hcond
    refine ⟨strcpyInv_next hlen hahead hlt hcopy _, ?_⟩
    show (src + BitVec.ofNat 64 (s.length + 1) - (src + BitVec.ofNat 64 (i + 1) + 1)).toNat <
      (src + BitVec.ofNat 64 (s.length + 1) - (src + BitVec.ofNat 64 (i + 1))).toNat
    clear hcopy hahead hfirst hcond
    bv_omega
  obtain ⟨st, hrun, ⟨i, hi, -, -, hcopy, hc⟩, hexit⟩ :=
    runFor_inv (I := StrcpyInv m dest src s.length)
      (μ := fun st => (src + BitVec.ofNat 64 (s.length + 1) - st.src).toNat) (n := 2 ^ 64) hstep hfirst
      (BitVec.isLt _).le
  have hlast : i = s.length := by
    by_contra hne
    refine hexit (bne_iff_ne.2 ?_)
    rw [hc]
    exact h.ne_nul (by omega)
  rw [hlast] at hcopy
  exact ⟨st.mem, by rw [strcpy, hrun, Option.map_some], hcopy⟩

/-- The characters between the two pointers of `strcpy` are not NUL. -/
def Chases (δ : ℕ) (st : StrcpyState) : Prop :=
  st.d = st.src + BitVec.ofNat 64 δ ∧ ∀ i < δ, st.mem.byte (st.src + BitVec.ofNat 64 i) ≠ 0

/-- The character that is stored is one of those, and the pointers keep their distance. -/
theorem Chases.next {δ : ℕ} {st : StrcpyState} (hpos : 0 < δ) (hδ : δ < 2 ^ 64) (h : Chases δ st) :
    st.next.c ≠ 0 ∧ Chases δ st.next := by
  obtain ⟨hd, hchars⟩ := h
  have hc : st.mem.byte st.src ≠ 0 := by simpa using hchars 0 hpos
  refine ⟨hc, ?_, fun i hi => ?_⟩
  · show st.d + 1 = st.src + 1 + BitVec.ofNat 64 δ
    rw [hd]
    bv_omega
  · show (st.mem.store8 st.d (st.mem.byte st.src)).byte (st.src + 1 + BitVec.ofNat 64 i) ≠ 0
    rw [Mem.byte_store8, add_one_add]
    split_ifs with heq
    · exact hc
    · refine hchars (i + 1) (lt_of_le_of_ne hi ?_)
      rintro rfl
      exact heq hd.symm

/-- The loop of `strcpy`, when it meets what it has stored: the NUL is overwritten before it is read. -/
theorem strcpy_chases (h : StringAt m src s) (hin : dest ∈ span (src + 1) s.length) :
    strcpy m dest src = none := by
  have hlen := h.length_lt
  rw [mem_span] at hin
  have hpos : 0 < (dest - src).toNat := by bv_omega
  have hle : (dest - src).toNat ≤ s.length := by bv_omega
  have hstart : Chases (dest - src).toNat ⟨dest, src, m, 0⟩ :=
    ⟨by rw [BitVec.ofNat_toNat, BitVec.setWidth_eq, BitVec.add_comm, BitVec.sub_add_cancel],
      fun i hi => h.ne_nul (hi.trans_le hle)⟩
  have hrun : runFor (fun st => st.c != 0) StrcpyState.next (2 ^ 64)
      (StrcpyState.next ⟨dest, src, m, 0⟩) = none :=
    runFor_eq_none (I := fun st => st.c ≠ 0 ∧ Chases (dest - src).toNat st)
      (fun st hst => ⟨bne_iff_ne.2 hst.1, hst.2.next hpos (BitVec.isLt _)⟩)
      (hstart.next hpos (BitVec.isLt _)) (2 ^ 64)
  rw [strcpy, hrun, Option.map_none]

/-- **`strcpy` copies the string or never returns.**  It does not return when the destination is one of
the bytes of the source behind its first character.  Otherwise it stores the string with its NUL at the
destination, and nothing else. -/
theorem strcpy_exact (h : StringAt m src s) (dest : Word) :
    (strcpy m dest src = none ↔ dest ∈ span (src + 1) s.length) ∧
    ∀ r m', strcpy m dest src = some (r, m') →
      r = dest ∧ StringAt m' dest s ∧ ∀ a ∉ span dest (s.length + 1), m'.byte a = m.byte a := by
  have hlen := h.length_lt
  by_cases hin : dest ∈ span (src + 1) s.length
  · rw [strcpy_chases h hin]
    exact ⟨iff_of_true rfl hin, by simp⟩
  · obtain ⟨m', hrun, hcopy⟩ := strcpy_ahead h (Ahead.of_notMem hlen hin)
    rw [hrun]
    refine ⟨iff_of_false (by simp) hin, fun r m'' heq => ?_⟩
    obtain ⟨rfl, rfl⟩ := Prod.mk.inj (Option.some.inj heq)
    exact ⟨rfl, h.congr fun i hi => hcopy.copied i (by omega),
      fun a ha => hcopy.wrote.byte_eq ha⟩

theorem strcpy_exact_sample :
    strcpy (textMem [ascii 'a', ascii 'b']) 0x1001 0x1000 = none ∧
    ∀ r m', strcpy (textMem [ascii 'a', ascii 'b']) 0x0FFF 0x1000 = some (r, m') →
      StringAt m' 0x0FFF [ascii 'a', ascii 'b'] :=
  have hab : StringAt (textMem [ascii 'a', ascii 'b']) 0x1000 [ascii 'a', ascii 'b'] := by decide
  ⟨(strcpy_exact hab 0x1001).1.2 (by rw [mem_span]; decide),
    fun r m' hrun => ((strcpy_exact hab 0x0FFF).2 r m' hrun).2.1⟩

/-- There is one string at a place. -/
theorem StringAt.unique (h : StringAt m p s) (h' : StringAt m p t) : s = t := by
  induction s generalizing p t with
  | nil =>
    cases t with
    | nil => rfl
    | cons c t => exact absurd (h'.1.symm.trans h) h'.2.1
  | cons c s ih =>
    cases t with
    | nil => exact absurd (h.1.symm.trans h') h.2.1
    | cons d t => rw [h.1.symm.trans h'.1, ih h.2.2 h'.2.2]

/-- A string that begins in another one ends with it. -/
theorem StringAt.end_eq {q : Word} (h : StringAt m p s) (h' : StringAt m q t)
    (hin : p ∈ span q (t.length + 1)) :
    p + BitVec.ofNat 64 s.length = q + BitVec.ofNat 64 t.length := by
  rw [mem_span] at hin
  obtain ⟨i, hi⟩ : ∃ i, i = (p - q).toNat := ⟨_, rfl⟩
  rw [← hi] at hin
  have hp : p = q + BitVec.ofNat 64 (t.take i).length := by
    rw [List.length_take, min_eq_left (by omega), hi]
    bv_omega
  rw [hp] at h ⊢
  have hdrop : StringAt m (q + BitVec.ofNat 64 (t.take i).length) (t.drop i) :=
    StringAt.right (by rwa [List.take_append_drop])
  rw [h.unique hdrop, BitVec.add_assoc, ← BitVec.ofNat_add, ← List.length_append,
    List.take_append_drop]

/-- Two strings that do not end together lie apart. -/
theorem StringAt.length_add_lt {q : Word} (h : StringAt m p s) (h' : StringAt m q t)
    (hne : p + BitVec.ofNat 64 s.length ≠ q + BitVec.ofNat 64 t.length) :
    s.length + t.length < 2 ^ 64 := by
  have hp : p ∉ span q (t.length + 1) := fun hin => hne (h.end_eq h' hin)
  have hq : q ∉ span p (s.length + 1) := fun hin => hne (h'.end_eq h hin).symm
  rw [mem_span] at hp hq
  bv_omega

/-- A string behind the characters of another one. -/
theorem StringAt.append {m' : Mem} (h : StringAt m p s)
    (hkept : ∀ i < s.length, m'.byte (p + BitVec.ofNat 64 i) = m.byte (p + BitVec.ofNat 64 i))
    (ht : StringAt m' (p + BitVec.ofNat 64 s.length) t) : StringAt m' p (s ++ t) := by
  induction s generalizing p with
  | nil => simpa using ht
  | cons c s ih =>
    have hhead : m'.byte p = m.byte p := by simpa using hkept 0 (Nat.succ_pos _)
    refine ⟨hhead.trans h.1, h.2.1, ih h.2.2 (fun i hi => ?_) ?_⟩
    · rw [add_one_add]
      exact hkept (i + 1) (Nat.succ_lt_succ hi)
    · rwa [add_one_add]

/-- The end of one string is a byte of another one behind its first character when it is its end. -/
theorem StringAt.end_mem_iff {q : Word} (h : StringAt m p s) (h' : StringAt m q t) :
    p + BitVec.ofNat 64 s.length ∈ span (q + 1) t.length ↔
      t ≠ [] ∧ p + BitVec.ofNat 64 s.length = q + BitVec.ofNat 64 t.length := by
  have hlen := h'.length_lt
  have hnul := h.nul
  rw [mem_span, ← List.length_pos_iff]
  generalize p + BitVec.ofNat 64 s.length = e at hnul ⊢
  constructor
  · intro hin
    obtain ⟨i, hi⟩ : ∃ i, i = (e - q).toNat := ⟨_, rfl⟩
    have he : e = q + BitVec.ofNat 64 i := by
      rw [hi]
      bv_omega
    have hle : i ≤ t.length := by bv_omega
    -- the characters before the end are not NUL
    have hlast : i = t.length := by
      by_contra hlt
      exact h'.ne_nul (lt_of_le_of_ne hle hlt) (he ▸ hnul)
    exact ⟨by omega, by rw [he, hlast]⟩
  · rintro ⟨hpos, rfl⟩
    bv_omega

/-- **`strcat` appends or never returns.**  It does not return when the source is not empty and ends with
the NUL of the destination, as it does when both are the same string.  Otherwise it stores behind the
destination, and nowhere else. -/
theorem strcat_exact {dst : Word} (hs : StringAt m dst s) (ht : StringAt m src t) :
    (strcat m dst src = none ↔
      t ≠ [] ∧ dst + BitVec.ofNat 64 s.length = src + BitVec.ofNat 64 t.length) ∧
    ∀ r m', strcat m dst src = some (r, m') → r = dst ∧ StringAt m' dst (s ++ t) ∧
      ∀ a ∉ span (dst + BitVec.ofNat 64 s.length) (t.length + 1), m'.byte a = m.byte a := by
  have hcat : strcat m dst src =
      (strcpy m (dst + BitVec.ofNat 64 s.length) src).map fun r => (dst, r.2) := by
    rw [strcat, strlen_eq hs, Option.bind_eq_bind, Option.bind_some]
    cases strcpy m (dst + BitVec.ofNat 64 s.length) src <;> rfl
  rw [hcat, Option.map_eq_none_iff, ← hs.end_mem_iff ht]
  by_cases hin : dst + BitVec.ofNat 64 s.length ∈ span (src + 1) t.length
  · rw [strcpy_chases ht hin]
    exact ⟨iff_of_true rfl hin, by simp⟩
  · obtain ⟨m', hrun, hcopy⟩ := strcpy_ahead ht (Ahead.of_notMem ht.length_lt hin)
    rw [hrun]
    refine ⟨iff_of_false (by simp) hin, fun r m'' heq => ?_⟩
    obtain ⟨rfl, rfl⟩ := Prod.mk.inj (Option.some.inj heq)
    have hlen : s.length + t.length < 2 ^ 64 := by
      by_cases hnil : t = []
      · rw [hnil]
        exact hs.length_lt
      · exact hs.length_add_lt ht fun heq => hin ((hs.end_mem_iff ht).2 ⟨hnil, heq⟩)
    refine ⟨rfl, hs.append (fun i hi => hcopy.wrote.byte_eq ?_) ?_, fun a ha => hcopy.wrote.byte_eq ha⟩
    · rw [mem_span]
      clear hcat hrun hcopy
      bv_omega
    · exact ht.congr fun i hi => hcopy.copied i (by omega)

theorem strcat_exact_sample :
    strcat (textMem [ascii 'a', ascii 'b']) 0x1000 0x1000 = none ∧
    ∀ r m', strcat (textMem [ascii 'a', 0, ascii 'b']) 0x1000 0x1002 = some (r, m') →
      StringAt m' 0x1000 [ascii 'a', ascii 'b'] :=
  have hab : StringAt (textMem [ascii 'a', ascii 'b']) 0x1000 [ascii 'a', ascii 'b'] := by decide
  have ha : StringAt (textMem [ascii 'a', 0, ascii 'b']) 0x1000 [ascii 'a'] := by decide
  have hb : StringAt (textMem [ascii 'a', 0, ascii 'b']) 0x1002 [ascii 'b'] := by decide
  ⟨(strcat_exact hab hab).1.2 ⟨by simp, rfl⟩,
    fun r m' hrun => ((strcat_exact ha hb).2 r m' hrun).2.1⟩

end Strings

end HxcOS
