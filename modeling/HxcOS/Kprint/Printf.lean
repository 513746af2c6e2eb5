import HxcOS.Kprint.Numbers

/-!
# `printf`

`Renders` says what a format is to emit, one conversion at a time, and which arguments it takes.  The
scan follows it (`printfFor_renders`), but for the least number, which `%d` does not render.

The format is followed up to its NUL exactly when it is well formed.  After a `%` at the very end
the NUL is taken for the character of a conversion, and the scan goes on behind it
(`printfFor_past_nul`).
-/

namespace HxcOS

open ByteMem

/-- A conversion takes the arguments `A`, of which the signed numbers are `ds`, and emits `O`; `dec`
is the notation of signed numbers. -/
inductive Conversion (dec : BitVec 32 → List Byte) (m : Mem) :
    Byte → List VaArg → List (BitVec 32) → List Byte → Prop
  | c (x : BitVec 32) : Conversion dec m (ascii 'c') [.int x] [] [x.setWidth 8]
  | s {p : Word} {s : List Byte} : StringAt m p s → Conversion dec m (ascii 's') [.ptr p] [] s
  | d (x : BitVec 32) : Conversion dec m (ascii 'd') [.int x] [x] (dec x)
  | p (q : Word) : Conversion dec m (ascii 'p') [.ptr q] [] (hexadecimal q)
  | percent : Conversion dec m (ascii '%') [] [] [ascii '%']
  | other {c : Byte} : c ∉ [ascii 'c', ascii 's', ascii 'd', ascii 'p', ascii '%'] →
      Conversion dec m c [] [] [ascii '%', c]

/-- The format takes the arguments `A`, of which `ds` are those of `%d`, and emits `O`. -/
inductive Renders (dec : BitVec 32 → List Byte) (m : Mem) :
    List Byte → List VaArg → List (BitVec 32) → List Byte → Prop
  | nil : Renders dec m [] [] [] []
  | char {c : Byte} {F O : List Byte} {A : List VaArg} {ds : List (BitVec 32)} :
      c ≠ ascii '%' → Renders dec m F A ds O → Renders dec m (c :: F) A ds (c :: O)
  | conversion {c : Byte} {F O₁ O₂ : List Byte} {A₁ A₂ : List VaArg} {ds₁ ds₂ : List (BitVec 32)} :
      Conversion dec m c A₁ ds₁ O₁ → Renders dec m F A₂ ds₂ O₂ →
        Renders dec m (ascii '%' :: c :: F) (A₁ ++ A₂) (ds₁ ++ ds₂) (O₁ ++ O₂)

/-! ### The notation of the code -/

/-- What the code emits for a signed number. -/
def emitted (num : BitVec 32) : List Byte :=
  if num = BitVec.intMin 32 then [ascii '-', ascii '('] else decimal num

theorem printInt_emitted (num : BitVec 32) : printInt num = some (emitted num) := by
  unfold emitted
  split_ifs with hmin
  · rw [hmin, printInt_intMin]
  · exact printInt_eq hmin

theorem Conversion.emitted {m : Mem} {c : Byte} {A : List VaArg} {ds : List (BitVec 32)}
    {O : List Byte} (h : Conversion decimal m c A ds O) :
    ∃ O', Conversion emitted m c A ds O' ∧
      O'.length + 9 * ds.count (BitVec.intMin 32) = O.length ∧
      (BitVec.intMin 32 ∉ ds → O' = O) := by
  cases h with
  | c x => exact ⟨_, .c x, by simp, fun _ => rfl⟩
  | s hs => exact ⟨_, .s hs, by simp, fun _ => rfl⟩
  | d x =>
    refine ⟨_, .d x, ?_, fun hmem => if_neg fun hx => hmem (by simp [hx])⟩
    unfold HxcOS.emitted
    split_ifs with hx
    · rw [hx, decimal_intMin_length]
      simp
    · simp [hx]
  | p q => exact ⟨_, .p q, by simp, fun _ => rfl⟩
  | percent => exact ⟨_, .percent, by simp, fun _ => rfl⟩
  | other hc => exact ⟨_, .other hc, by simp, fun _ => rfl⟩

/-- Each least number among the arguments of `%d` costs nine characters. -/
theorem Renders.emitted {m : Mem} {F : List Byte} {A : List VaArg} {ds : List (BitVec 32)}
    {O : List Byte} (h : Renders decimal m F A ds O) :
    ∃ O', Renders emitted m F A ds O' ∧
      O'.length + 9 * ds.count (BitVec.intMin 32) = O.length ∧
      (BitVec.intMin 32 ∉ ds → O' = O) := by
  induction h with
  | nil => exact ⟨[], .nil, rfl, fun _ => rfl⟩
  | char hc _ ih =>
    obtain ⟨O', hO', hlength, heq⟩ := ih
    refine ⟨_ :: O', .char hc hO', ?_, fun hmem => by rw [heq hmem]⟩
    rw [List.length_cons, List.length_cons]
    omega
  | conversion hc _ ih =>
    obtain ⟨O₁', hO₁', hlength₁, heq₁⟩ := hc.emitted
    obtain ⟨O₂', hO₂', hlength₂, heq₂⟩ := ih
    refine ⟨O₁' ++ O₂', .conversion hO₁' hO₂', ?_, fun hmem => ?_⟩
    · rw [List.length_append, List.length_append, List.count_append]
      omega
    · rw [List.mem_append, not_or] at hmem
      rw [heq₁ hmem.1, heq₂ hmem.2]

theorem printConversion_eq {m : Mem} {c : Byte} {A : List VaArg} {ds : List (BitVec 32)}
    {O : List Byte} (h : Conversion emitted m c A ds O) (rest : List VaArg) :
    printConversion m c (A ++ rest) = some (O, rest) := by
  cases h with
  | c x => rfl
  | s hs =>
    rw [printConversion, if_neg (by decide), if_pos rfl]
    simp [vaPtr, puts_eq hs]
  | d x =>
    rw [printConversion, if_neg (by decide), if_neg (by decide), if_pos rfl]
    simp [vaInt, printInt_emitted]
  | p q =>
    rw [printConversion, if_neg (by decide), if_neg (by decide), if_neg (by decide), if_pos rfl]
    simp [vaPtr, printP_eq]
  | percent => rfl
  | other hc =>
    simp only [List.mem_cons, List.not_mem_nil, or_false, not_or] at hc
    simp [printConversion, hc]

/-! ### The scan -/

section Steps

variable {m : Mem} {a : Word} {n : ℕ}

theorem printfFor_nul (h : m.byte a = 0) (args : List VaArg) (out : List Byte) (reads : List Word) :
    printfFor m (n + 1) ⟨a, args, out, reads⟩ = some ⟨a, args, out, a :: reads⟩ := by
  rw [printfFor, if_pos h]

theorem printfFor_char {c : Byte} (h : m.byte a = c) (hnul : c ≠ 0) (hc : c ≠ ascii '%')
    (args : List VaArg) (out : List Byte) (reads : List Word) :
    printfFor m (n + 1) ⟨a, args, out, reads⟩ =
      printfFor m n ⟨a + 1, args, out ++ [c], a :: reads⟩ := by
  rw [printfFor, if_neg (by rw [h]; exact hnul)]
  simp [printfBody, h, hc]

theorem printfFor_conversion (h : m.byte a = ascii '%') {args args' : List VaArg} {O : List Byte}
    (hconv : printConversion m (m.byte (a + 1)) args = some (O, args')) (out : List Byte)
    (reads : List Word) :
    printfFor m (n + 1) ⟨a, args, out, reads⟩ =
      printfFor m n ⟨a + 1 + 1, args', out ++ O, (a + 1) :: a :: reads⟩ := by
  rw [printfFor, if_neg (by rw [h]; decide)]
  simp only [printfBody, if_pos h, hconv, Option.map_some, Option.bind_some]

end Steps

/-- The scan takes the arguments of the format, emits what the format is to emit, and reads the
format up to its NUL. -/
theorem printfFor_renders {m : Mem} {F : List Byte} {A : List VaArg} {ds : List (BitVec 32)}
    {O : List Byte} (h : Renders emitted m F A ds O) {a : Word} (hF : StringAt m a F) {n : ℕ}
    (hn : F.length < n) (rest : List VaArg) (out : List Byte) (reads : List Word) :
    ∃ reads', printfFor m n ⟨a, A ++ rest, out, reads⟩ =
        some ⟨a + BitVec.ofNat 64 F.length, rest, out ++ O, reads'⟩ ∧
      ∀ r ∈ reads', r ∈ reads ∨ ∃ i ≤ F.length, r = a + BitVec.ofNat 64 i := by
  induction h generalizing a n out reads with
  | nil =>
    obtain ⟨n, rfl⟩ := Nat.exists_eq_succ_of_ne_zero (Nat.ne_of_gt hn)
    refine ⟨a :: reads, ?_, fun r hr => ?_⟩
    · rw [List.nil_append, printfFor_nul hF, List.append_nil, List.length_nil, BitVec.add_zero]
    · rcases List.mem_cons.1 hr with rfl | hr
      · exact Or.inr ⟨0, le_rfl, by simp⟩
      · exact Or.inl hr
  | @char c F O A ds hc _ ih =>
    obtain ⟨hbyte, hnul, hF⟩ := hF
    obtain ⟨n, rfl⟩ := Nat.exists_eq_succ_of_ne_zero (Nat.ne_of_gt (Nat.zero_lt_of_lt hn))
    obtain ⟨reads', hrun, hreads⟩ := ih hF (by simpa using hn) (out ++ [c]) (a :: reads)
    refine ⟨reads', ?_, fun r hr => ?_⟩
    · rw [printfFor_char hbyte hnul hc, hrun, List.append_assoc, List.length_cons, ← add_one_add]
      rfl
    · rcases hreads r hr with hr | ⟨i, hi, rfl⟩
      · rcases List.mem_cons.1 hr with rfl | hr
        · exact Or.inr ⟨0, Nat.zero_le _, by simp⟩
        · exact Or.inl hr
      · exact Or.inr ⟨i + 1, Nat.succ_le_succ hi, add_one_add a i⟩
  | @conversion c F O₁ O₂ A₁ A₂ ds₁ ds₂ hc _ ih =>
    obtain ⟨hbyte, _, hchar, _, hF⟩ := hF
    obtain ⟨n, rfl⟩ := Nat.exists_eq_succ_of_ne_zero (Nat.ne_of_gt (Nat.zero_lt_of_lt hn))
    obtain ⟨reads', hrun, hreads⟩ := ih hF (n := n) (by simp at hn; omega) (out ++ O₁)
      ((a + 1) :: a :: reads)
    have hconv := printConversion_eq hc (A₂ ++ rest)
    rw [← hchar, ← List.append_assoc] at hconv
    refine ⟨reads', ?_, fun r hr => ?_⟩
    · rw [printfFor_conversion hbyte hconv, hrun, List.append_assoc, List.length_cons,
        List.length_cons, ← add_one_add, ← add_one_add]
    · rcases hreads r hr with hr | ⟨i, hi, rfl⟩
      · rcases List.mem_cons.1 hr with rfl | hr
        · exact Or.inr ⟨1, by simp, rfl⟩
        · rcases List.mem_cons.1 hr with rfl | hr
          · exact Or.inr ⟨0, Nat.zero_le _, by simp⟩
          · exact Or.inl hr
      · exact Or.inr ⟨i + 2, by simpa using hi, by rw [add_one_add, add_one_add]⟩

/-- A call with the arguments of the format. -/
theorem printf_renders {m : Mem} {a : Word} {F : List Byte} {A : List VaArg}
    {ds : List (BitVec 32)} {O : List Byte} (hF : StringAt m a F) (h : Renders emitted m F A ds O)
    (rest : List VaArg) :
    ∃ reads, printf m a (A ++ rest) = some ⟨a + BitVec.ofNat 64 F.length, rest, O, reads⟩ ∧
      ∀ r ∈ reads, r ∈ span a (F.length + 1) := by
  have hlt := hF.length_lt
  obtain ⟨reads, hrun, hreads⟩ := printfFor_renders h hF hlt rest [] []
  refine ⟨reads, hrun, fun r hr => ?_⟩
  obtain ⟨i, hi, rfl⟩ := (hreads r hr).resolve_left List.not_mem_nil
  rw [mem_span]
  bv_omega

/-- `printf` renders a format faithfully exactly when no `%d` is given the least number. -/
theorem printf_faithful_iff {m : Mem} {a : Word} {F : List Byte} {A : List VaArg}
    {ds : List (BitVec 32)} {O : List Byte} (hF : StringAt m a F) (h : Renders decimal m F A ds O)
    (rest : List VaArg) :
    (∃ reads, printf m a (A ++ rest) = some ⟨a + BitVec.ofNat 64 F.length, rest, O, reads⟩) ↔
      BitVec.intMin 32 ∉ ds := by
  obtain ⟨O', hO', hlength, heq⟩ := h.emitted
  obtain ⟨reads, hrun, -⟩ := printf_renders hF hO' rest
  constructor
  · rintro ⟨reads', hrun'⟩ hmem
    have hout : O' = O := congrArg PrintState.out (Option.some.inj (hrun.symm.trans hrun'))
    have hcount := List.count_pos_iff.2 hmem
    rw [hout] at hlength
    omega
  · intro hmem
    exact ⟨reads, by rw [hrun, heq hmem]⟩

/-- A format with the five conversions.  The string for `%s` is behind it. -/
def loadFormat : List Byte := "%s: %d%% of %p%c".toList.map ascii

def loadMem : Mem := textMem (loadFormat ++ [0] ++ "cpu".toList.map ascii)

theorem loadFormat_renders : Renders decimal loadMem loadFormat
    [.ptr 0x1011, .int (-42), .ptr 0x80200000, .int 0x21] [-42]
    ("cpu: -42% of 0x0000000080200000!".toList.map ascii) :=
  .conversion (.s (s := "cpu".toList.map ascii) (by decide)) <| .char (by decide) <|
    .char (by decide) <| .conversion (.d (-42)) <| .conversion .percent <| .char (by decide) <|
    .char (by decide) <| .char (by decide) <| .char (by decide) <| .conversion (.p 0x80200000) <|
    .conversion (.c 0x21) .nil

/-- A call with one argument more than the format takes. -/
theorem printf_faithful_iff_sample :
    (∃ reads, printf loadMem 0x1000
        [.ptr 0x1011, .int (-42), .ptr 0x80200000, .int 0x21, .int 7] =
      some ⟨0x1010, [.int 7], "cpu: -42% of 0x0000000080200000!".toList.map ascii, reads⟩) ↔
      BitVec.intMin 32 ∉ [(-42 : BitVec 32)] :=
  printf_faithful_iff (a := 0x1000) (F := loadFormat) (by decide) loadFormat_renders [.int 7]

/-- The least number is printed without its digits. -/
theorem least_number_misprinted :
    StringAt (textMem [ascii '%', ascii 'd']) 0x1000 [ascii '%', ascii 'd'] ∧
      Renders decimal (textMem [ascii '%', ascii 'd']) [ascii '%', ascii 'd']
        [.int (BitVec.intMin 32)] [BitVec.intMin 32] ("-2147483648".toList.map ascii) ∧
      (∃ reads, printf (textMem [ascii '%', ascii 'd']) 0x1000 [.int (BitVec.intMin 32)] =
        some ⟨0x1002, [], [ascii '-', ascii '('], reads⟩) ∧
      [ascii '-', ascii '('] ≠ "-2147483648".toList.map ascii := by
  have hF : StringAt (textMem [ascii '%', ascii 'd']) 0x1000 [ascii '%', ascii 'd'] := by
    decide
  refine ⟨hF, .conversion (.d (BitVec.intMin 32)) .nil, ?_, by decide⟩
  obtain ⟨reads, hrun, -⟩ :=
    printf_renders hF (.conversion (.d (BitVec.intMin 32)) .nil) []
  exact ⟨reads, hrun⟩

/-! ### The end of the format -/

/-- Every `%` that begins a conversion has a character after it. -/
def WellFormed : List Byte → Prop
  | [] => True
  | [c] => c ≠ ascii '%'
  | c :: c' :: F => if c = ascii '%' then WellFormed F else WellFormed (c' :: F)

theorem wellFormed_char {c : Byte} (hc : c ≠ ascii '%') (F : List Byte) :
    WellFormed (c :: F) ↔ WellFormed F := by
  cases F with
  | nil => simp [WellFormed, hc]
  | cons c' F => rw [WellFormed, if_neg hc]

theorem wellFormed_conversion (c : Byte) (F : List Byte) :
    WellFormed (ascii '%' :: c :: F) ↔ WellFormed F := by
  rw [WellFormed, if_pos rfl]

/-- The arguments are sufficient for the format; a `%` at the very end asks for none. -/
inductive Supplies (m : Mem) : List Byte → List VaArg → Prop
  | nil (args : List VaArg) : Supplies m [] args
  | char {c : Byte} {F : List Byte} {args : List VaArg} :
      c ≠ ascii '%' → Supplies m F args → Supplies m (c :: F) args
  | conversion {c : Byte} {F O : List Byte} {A args : List VaArg} {ds : List (BitVec 32)} :
      Conversion decimal m c A ds O → Supplies m F args →
        Supplies m (ascii '%' :: c :: F) (A ++ args)
  | last (args : List VaArg) : Supplies m [ascii '%'] args

/-- A well-formed format with sufficient arguments is rendered. -/
theorem Supplies.renders {m : Mem} {F : List Byte} {args : List VaArg} (h : Supplies m F args)
    (hF : WellFormed F) :
    ∃ A rest ds O, args = A ++ rest ∧ Renders decimal m F A ds O := by
  induction h with
  | nil args => exact ⟨[], args, [], [], rfl, .nil⟩
  | char hc _ ih =>
    obtain ⟨A, rest, ds, O, rfl, hO⟩ := ih ((wellFormed_char hc _).1 hF)
    exact ⟨A, rest, ds, _ :: O, rfl, .char hc hO⟩
  | @conversion c F O₁ A₁ args ds₁ hconv _ ih =>
    obtain ⟨A, rest, ds, O, rfl, hO⟩ := ih ((wellFormed_conversion _ _).1 hF)
    exact ⟨A₁ ++ A, rest, ds₁ ++ ds, O₁ ++ O, (List.append_assoc _ _ _).symm, .conversion hconv hO⟩
  | last args => exact absurd rfl hF

section Scan

variable {m : Mem} {n : ℕ} {st st' : PrintState}

/-- Where the next test of the condition is. -/
theorem printfFor_next (h : printfFor m n st = some st') (hnul : m.byte st.format ≠ 0) :
    ∃ n' < n, ∃ st₁, printfFor m n' st₁ = some st' ∧ st.format :: st.reads ⊆ st₁.reads ∧
      st₁.format = if m.byte st.format = ascii '%' then st.format + 1 + 1 else st.format + 1 := by
  cases n with
  | zero => cases h
  | succ n =>
    rw [printfFor, if_neg hnul, Option.bind_eq_some_iff] at h
    obtain ⟨st₁, hbody, hrun⟩ := h
    refine ⟨n, Nat.lt_succ_self n, st₁, hrun, ?_⟩
    unfold printfBody at hbody
    split_ifs at hbody ⊢ with hpercent
    · obtain ⟨_, _, rfl⟩ := Option.map_eq_some_iff.1 hbody
      exact ⟨List.subset_cons_self _ _, rfl⟩
    · cases hbody
      exact ⟨List.Subset.refl _, rfl⟩

/-- The scan reads where it stands, and forgets nothing that it has read. -/
theorem printfFor_reads (h : printfFor m n st = some st') : st.format :: st.reads ⊆ st'.reads := by
  induction n using Nat.strong_induction_on generalizing st with
  | _ n ih =>
    by_cases hnul : m.byte st.format = 0
    · cases n with
      | zero => cases h
      | succ n =>
        rw [printfFor, if_pos hnul] at h
        cases h
        exact List.Subset.refl _
    · obtain ⟨n', hn, st₁, hrun, hreads, -⟩ := printfFor_next h hnul
      exact List.Subset.trans hreads (List.Subset.trans (List.subset_cons_self _ _) (ih n' hn hrun))

/-- The scan of an ill-formed format goes on behind the NUL. -/
theorem printfFor_past_nul {F : List Byte} (hill : ¬WellFormed F) (hF : StringAt m st.format F)
    (h : printfFor m n st = some st') :
    ∃ n' < n, ∃ st₁, printfFor m n' st₁ = some st' ∧
      st₁.format = st.format + BitVec.ofNat 64 (F.length + 1) := by
  induction F using WellFormed.induct generalizing n st with
  | case1 => exact absurd trivial hill
  | case2 c =>
    obtain rfl : c = ascii '%' := not_not.1 hill
    obtain ⟨n', hn, st₁, hrun, -, hnext⟩ := printfFor_next h (hF.1 ▸ hF.2.1)
    refine ⟨n', hn, st₁, hrun, ?_⟩
    rw [hnext, if_pos hF.1]
    exact add_one_add _ 1
  | case3 c' F ih =>
    obtain ⟨n₁, hn₁, st₁, hrun₁, -, hnext⟩ := printfFor_next h (hF.1 ▸ hF.2.1)
    rw [if_pos hF.1] at hnext
    obtain ⟨n₂, hn₂, st₂, hrun₂, hend⟩ :=
      ih (fun hwf => hill ((wellFormed_conversion _ _).2 hwf)) (hnext ▸ hF.2.2.2.2) hrun₁
    refine ⟨n₂, hn₂.trans hn₁, st₂, hrun₂, ?_⟩
    rw [hend, hnext, add_one_add, add_one_add]
    rfl
  | case4 c c' F hc ih =>
    obtain ⟨n₁, hn₁, st₁, hrun₁, -, hnext⟩ := printfFor_next h (hF.1 ▸ hF.2.1)
    rw [if_neg (hF.1 ▸ hc)] at hnext
    obtain ⟨n₂, hn₂, st₂, hrun₂, hend⟩ :=
      ih (fun hwf => hill ((wellFormed_char hc _).2 hwf)) (hnext ▸ hF.2.2) hrun₁
    refine ⟨n₂, hn₂.trans hn₁, st₂, hrun₂, ?_⟩
    rw [hend, hnext, add_one_add]
    rfl

/-- If the string fills the address space, the scan of an ill-formed format never ends. -/
theorem printfFor_around {F : List Byte} (hill : ¬WellFormed F) (hF : StringAt m st.format F)
    (hfull : F.length + 1 = 2 ^ 64) : printfFor m n st = none := by
  rw [Option.eq_none_iff_forall_ne_some]
  intro st' h
  induction n using Nat.strong_induction_on generalizing st with
  | _ n ih =>
    obtain ⟨n', hn, st₁, hrun, hend⟩ := printfFor_past_nul hill hF h
    rw [hfull, show BitVec.ofNat 64 (2 ^ 64) = 0#64 from rfl, BitVec.add_zero] at hend
    exact ih n' hn (hend ▸ hF) hrun

end Scan

/-- `printf` stops at the NUL of its format exactly when the format is well formed. -/
theorem printf_within_iff {m : Mem} {a : Word} {F : List Byte} {args : List VaArg}
    (hF : StringAt m a F) (hargs : Supplies m F args) :
    (∃ st, printf m a args = some st ∧ ∀ r ∈ st.reads, r ∈ span a (F.length + 1)) ↔
      WellFormed F := by
  constructor
  · rintro ⟨st, hrun, hreads⟩
    by_contra hill
    have hlt := hF.length_lt
    obtain ⟨n', -, st₁, hrun₁, hend⟩ := printfFor_past_nul hill hF hrun
    have hbehind := hreads _ (printfFor_reads hrun₁ (List.mem_cons_self ..))
    rw [hend, mem_span] at hbehind
    by_cases hfull : F.length + 1 = 2 ^ 64
    · rw [printf, printfFor_around hill hF hfull] at hrun
      cases hrun
    · dsimp only at hbehind
      bv_omega
  · intro hwf
    obtain ⟨A, rest, ds, O, rfl, hO⟩ := hargs.renders hwf
    obtain ⟨O', hO', -, -⟩ := hO.emitted
    obtain ⟨reads, hrun, hreads⟩ := printf_renders hF hO' rest
    exact ⟨_, hrun, hreads⟩

/-- An unknown conversion at the end. -/
theorem printf_within_iff_sample :
    (∃ st, printf (textMem [ascii '%', ascii 'q']) 0x1000 [] = some st ∧
      ∀ r ∈ st.reads, r ∈ span 0x1000 3) ↔ WellFormed [ascii '%', ascii 'q'] :=
  printf_within_iff (F := [ascii '%', ascii 'q'])
    (by decide)
    (.conversion (.other (by decide)) (.nil []))

/-- The NUL after a `%` is taken for the character of a conversion, and two bytes behind it are
read. -/
theorem trailing_percent_overruns :
    StringAt (textMem [ascii '%', 0, ascii 'x']) 0x1000 [ascii '%'] ∧
      Supplies (textMem [ascii '%', 0, ascii 'x']) [ascii '%'] [] ∧
      printf (textMem [ascii '%', 0, ascii 'x']) 0x1000 [] =
        some ⟨0x1003, [], [ascii '%', 0, ascii 'x'], [0x1003, 0x1002, 0x1001, 0x1000]⟩ ∧
      (0x1002 : Word) ∉ span 0x1000 2 := by
  have hconv : printConversion (textMem [ascii '%', 0, ascii 'x'])
      ((textMem [ascii '%', 0, ascii 'x']).byte (0x1000 + 1)) [] = some ([ascii '%', 0], []) := by
    decide
  refine ⟨by decide, .last [], ?_, by decide⟩
  rw [printf, show 2 ^ 64 = 18446744073709551613 + 1 + 1 + 1 from rfl,
    printfFor_conversion (by decide) hconv,
    printfFor_char (c := ascii 'x') (by decide) (by decide) (by decide),
    printfFor_nul (by decide)]
  rfl

end HxcOS
