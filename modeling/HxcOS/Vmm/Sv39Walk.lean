import HxcOS.Lib.Sv39
import HxcOS.Vmm.Runs

/-!
# The hardware walks what the software built

For tables whose mappings are readable, or executable and not writable, the Sv39 walk from
`make_satp()` finds exactly what `lookup` finds: the page bound to the key, the flags given to the
`add` that bound it, at level 0 (`lookup_agrees_with_sv39`).

The reason is the shape of the entries: an entry that leads to a node carries just `V`, so that
the hardware descends where `page_walk` does, and the entry of a mapping is a leaf.  An invalid
entry faults in both walks.
-/

namespace HxcOS

open ByteMem Radix OpSystem

/-! ### Entries as the hardware reads them -/

namespace PageTableEntry

variable {p flag : Word}

theorem sv39_reserved (hp : p.toNat < 2 ^ 56) (hf : flag.toNat < 1024) :
    Sv39.reserved (new p flag).value = 0 := by
  apply BitVec.eq_of_toNat_eq
  rw [Sv39.reserved, BitVec.extractLsb'_toNat, toNat_new p hf, Nat.shiftRight_eq_div_pow]
  simp
  omega

theorem sv39_ppn (p : Word) (hf : flag.toNat < 1024) :
    Sv39.ppn (new p flag).value = (p >>> 12).setWidth 44 := by
  apply BitVec.eq_of_toNat_eq
  rw [Sv39.ppn, BitVec.extractLsb'_toNat, toNat_new p hf, BitVec.toNat_setWidth,
    BitVec.toNat_ushiftRight, Nat.shiftRight_eq_div_pow, Nat.shiftRight_eq_div_pow]
  omega

theorem sv39_bit (p : Word) (hf : flag.toNat < 1024) {i : ℕ} (hi : i < 10) :
    (new p flag).value.getLsbD i = flag.getLsbD i := by
  rw [BitVec.getLsbD, BitVec.getLsbD, toNat_new p hf, mul_comm,
    show 1024 = 2 ^ 10 from rfl, Nat.testBit_two_pow_mul_add _ hf]
  simp [hi]

theorem sv39_flags (p : Word) (hf : flag.toNat < 1024) :
    Sv39.flags (new p flag).value = flag.setWidth 10 := by
  apply BitVec.eq_of_toNat_eq
  rw [Sv39.flags, BitVec.extractLsb'_toNat, toNat_new p hf, BitVec.toNat_setWidth,
    Nat.shiftRight_zero]
  omega

theorem sv39_valid (e : PageTableEntry) : Sv39.valid e.value = e.isValid := by
  rw [Bool.eq_iff_iff, isValid_iff, Sv39.valid, BitVec.getLsbD, Nat.testBit_zero, decide_eq_true_eq]

end PageTableEntry

/-- The page number that `ppn` and `satp` hold leads back to the page. -/
theorem page_of_ppn {p : Word} (hal : PageAligned p) (hp : p.toNat < 2 ^ 56) :
    ((p >>> 12).setWidth 44).setWidth 64 <<< 12 = p := by
  unfold PageAligned at hal
  apply BitVec.eq_of_toNat_eq
  simp only [BitVec.toNat_shiftLeft, BitVec.toNat_setWidth, BitVec.toNat_ushiftRight,
    Nat.shiftRight_eq_div_pow, Nat.shiftLeft_eq]
  omega

theorem entryAddr_eq {p : Word} (hal : PageAligned p) (hp : p.toNat < 2 ^ 56) (va : Word) (i : ℕ) :
    Sv39.entryAddr ((p >>> 12).setWidth 44) va i = entry p (Sv39.vpn va i) := by
  rw [Sv39.entryAddr, page_of_ppn hal hp, entry]

theorem toNat_makeSatp (tbl : PageTable) :
    tbl.makeSatp.toNat = 2 ^ 63 + tbl.root.toNat / 4096 := by
  have hroot : (tbl.root >>> 12).toNat < 2 ^ 60 := by
    rw [BitVec.toNat_ushiftRight, Nat.shiftRight_eq_div_pow]
    have := tbl.root.isLt
    omega
  have hor := Nat.shiftLeft_add_eq_or_of_lt hroot 8
  rw [PageTable.makeSatp, BitVec.toNat_or, show (8 <<< 60 : Word).toNat = 8 <<< 60 from rfl, ← hor,
    BitVec.toNat_ushiftRight, Nat.shiftRight_eq_div_pow]
  rfl

/-- `make_satp` selects Sv39 and the root. -/
theorem makeSatp_fields (tbl : PageTable) :
    tbl.makeSatp.extractLsb' 60 4 = 8 ∧
      tbl.makeSatp.extractLsb' 0 44 = (tbl.root >>> 12).setWidth 44 := by
  have hsatp := toNat_makeSatp tbl
  have hroot := tbl.root.isLt
  constructor <;> apply BitVec.eq_of_toNat_eq
  · rw [BitVec.extractLsb'_toNat, hsatp, Nat.shiftRight_eq_div_pow]
    simp
    omega
  · rw [BitVec.extractLsb'_toNat, hsatp, BitVec.toNat_setWidth, BitVec.toNat_ushiftRight,
      Nat.shiftRight_zero, Nat.shiftRight_eq_div_pow]
    omega

/-- Permissions for which the hardware takes the entry for a leaf. -/
def Accessible (perm : Word) : Prop :=
  ∃ write read exec user cow, perm = permissionCode write read exec user cow ∧
    (read = true ∨ exec = true ∧ write = false)

/-- Everything that the call adds to the table `t` is accessible. -/
def KernelOp.AccessibleIn (t : ℕ) (o : KernelOp) : Prop :=
  ∀ va pa perm, o = .add t va pa perm → Accessible perm

theorem Accessible.leaf {p perm : Word} (h : Accessible perm) (hp : p.toNat < 2 ^ 56) :
    Sv39.faults (PageTableEntry.new p perm).value = false ∧
      Sv39.isLeaf (PageTableEntry.new p perm).value = true := by
  obtain ⟨write, read, exec, user, cow, rfl, hacc⟩ := h
  have hf := (permissionCode_bounds write read exec user cow).1
  simp only [Sv39.faults, Sv39.isLeaf, Sv39.valid, Sv39.readable, Sv39.writable, Sv39.executable,
    PageTableEntry.sv39_bit p hf (show 0 < 10 by omega), PageTableEntry.sv39_bit p hf (show 1 < 10 by omega),
    PageTableEntry.sv39_bit p hf (show 2 < 10 by omega), PageTableEntry.sv39_bit p hf (show 3 < 10 by omega),
    PageTableEntry.sv39_reserved hp hf]
  revert hacc
  revert write read exec user cow
  decide

/-- An entry that leads to a node. -/
theorem sv39_node {p : Word} (hp : p.toNat < 2 ^ 56) :
    Sv39.faults (PageTableEntry.new p PTEFlags.V).value = false ∧
      Sv39.isLeaf (PageTableEntry.new p PTEFlags.V).value = false := by
  have hf : PTEFlags.V.toNat < 1024 := by decide
  simp only [Sv39.faults, Sv39.isLeaf, Sv39.valid, Sv39.readable, Sv39.writable, Sv39.executable,
    PageTableEntry.sv39_bit p hf (show 0 < 10 by omega),
    PageTableEntry.sv39_bit p hf (show 1 < 10 by omega),
    PageTableEntry.sv39_bit p hf (show 2 < 10 by omega),
    PageTableEntry.sv39_bit p hf (show 3 < 10 by omega), PageTableEntry.sv39_reserved hp hf]
  decide

/-! ### The two walks -/

namespace Owned

variable {K : Word} {g : Ghost} {s : Kernel} {t : ℕ} {π : List Idx} {q va : Word} {i : ℕ}

theorem toNat_lt (h : Owned K g s) (hπ : π.length ≤ 3) (hq : s.walk t π = some q) :
    q.toNat < 2 ^ 56 := by
  have hlt := (h.poolPage (by rw [h.own_of_walk hπ hq]; simp)).toNat_lt
  omega

theorem load64_entryAddr (h : Owned K g s) (hπ : π.length ≤ 3) (hq : s.walk t π = some q)
    (va : Word) (i : ℕ) :
    s.pmm.mem.load64 (Sv39.entryAddr ((q >>> 12).setWidth 44) va i) =
      (pte s.pmm.mem q (Sv39.vpn va i)).value := by
  rw [entryAddr_eq (h.aligned_of_walk hπ hq) (h.toNat_lt hπ hq)]
  rfl

/-- Where `page_walk` finds an invalid entry, the hardware faults. -/
theorem walkFrom_none (h : Owned K g s) (hπ : π.length < 3) (hq : s.walk t π = some q)
    (hnone : child s.pmm.mem q (Sv39.vpn va i) = none) :
    Sv39.walkFrom s.pmm.mem va i ((q >>> 12).setWidth 44) = none := by
  refine Sv39.walkFrom_fault (h.load64_entryAddr hπ.le hq va i) ?_
  have hv := child_eq_none_iff.1 hnone
  rw [Sv39.faults, PageTableEntry.sv39_valid]
  simp [hv]

/-- Where `page_walk` goes on to the next node, so does the hardware. -/
theorem walkFrom_node (h : Owned K g s) (hπ : π.length < 2) (hq : s.walk t π = some q) {p : Word}
    (hp : child s.pmm.mem q (Sv39.vpn va (i + 1)) = some p) :
    Sv39.walkFrom s.pmm.mem va (i + 1) ((q >>> 12).setWidth 44) =
      Sv39.walkFrom s.pmm.mem va i ((p >>> 12).setWidth 44) := by
  have hlen : (Sv39.vpn va (i + 1) :: π).length < 3 := by rw [List.length_cons]; omega
  have hwalk : s.walk t (Sv39.vpn va (i + 1) :: π) = some p := by rw [h.walk_cons hq, hp]
  have hentry := h.entries t _ π q p (by omega) hq hp
  rw [h.node_flags t _ hlen] at hentry
  have hload := h.load64_entryAddr (by omega) hq va (i + 1)
  rw [hentry] at hload
  obtain ⟨hfault, hleaf⟩ := sv39_node (h.toNat_lt hlen.le hwalk)
  rw [Sv39.walkFrom_descend hload hfault hleaf, PageTableEntry.sv39_ppn p (by decide)]

/-- The entry of an accessible mapping is a leaf. -/
theorem walkFrom_mapped (h : Owned K g s) (hπ : π.length = 2) (hq : s.walk t π = some q) {p : Word}
    (hp : child s.pmm.mem q (Sv39.vpn va 0) = some p)
    (hacc : Accessible (g.flags t (Sv39.vpn va 0 :: π))) :
    Sv39.walkFrom s.pmm.mem va 0 ((q >>> 12).setWidth 44) =
      some ⟨p + (va.extractLsb' 0 12).setWidth 64,
        (g.flags t (Sv39.vpn va 0 :: π)).setWidth 10, 0⟩ := by
  have hlen : (Sv39.vpn va 0 :: π).length ≤ 3 := by rw [List.length_cons]; omega
  have hwalk : s.walk t (Sv39.vpn va 0 :: π) = some p := by rw [h.walk_cons hq, hp]
  have hlt := h.toNat_lt hlen hwalk
  have hload := h.load64_entryAddr (by omega) hq va 0
  rw [h.entries t _ π q p (by omega) hq hp] at hload
  have hf : (g.flags t (Sv39.vpn va 0 :: π)).toNat < 1024 := by
    obtain ⟨write, read, exec, user, cow, heq, -⟩ := hacc
    rw [heq]
    exact (permissionCode_bounds write read exec user cow).1
  obtain ⟨hfault, hleaf⟩ := hacc.leaf hlt
  rw [Sv39.walkFrom_leaf hload hfault hleaf, PageTableEntry.sv39_ppn p hf,
    PageTableEntry.sv39_flags p hf, page_of_ppn (h.aligned_of_walk hlen hwalk) hlt]

end Owned

/-- The hardware's walk from `make_satp()` finds what the record of the mappings says. -/
theorem KernelInv.translate_eq {K : Word} {g : Ghost} {s : Kernel} (h : KernelInv K g s) {t : ℕ}
    {tbl : PageTable} (ht : s.tables[t]? = some tbl)
    (hacc : ∀ k p f, s.bound t k = some (p, f) → Accessible f) {va : Word}
    (hva : Sv39.Canonical va) :
    Sv39.translate s.pmm.mem tbl.makeSatp va = (s.bound t (key va)).map fun b =>
      ⟨b.1 + (va.extractLsb' 0 12).setWidth 64, b.2.setWidth 10, 0⟩ := by
  obtain ⟨hmode, hppn⟩ := makeSatp_fields tbl
  have hroot : s.walk t [] = some tbl.root := forest_root ht s.pmm.mem
  have hwalk : s.walk t [Sv39.vpn va 0, Sv39.vpn va 1, Sv39.vpn va 2] =
      (s.bound t (key va)).map Prod.fst := by
    rw [← h.walk_path, ← path_eq_key_path]
    rfl
  rw [Sv39.translate, if_pos ⟨hmode, hva⟩, hppn]
  cases hmid : child s.pmm.mem tbl.root (Sv39.vpn va 2) with
  | none =>
    have hnone : s.walk t [Sv39.vpn va 2] = none := by rw [h.owned.walk_cons hroot, hmid]
    rw [Kernel.walk_none (Kernel.walk_none hnone _) _, eq_comm, Option.map_eq_none_iff] at hwalk
    rw [h.owned.walkFrom_none (by simp) hroot hmid, hwalk]
    rfl
  | some mid =>
    have hmid' : s.walk t [Sv39.vpn va 2] = some mid := by rw [h.owned.walk_cons hroot, hmid]
    rw [h.owned.walkFrom_node (i := 1) (by simp) hroot hmid]
    cases hlow : child s.pmm.mem mid (Sv39.vpn va 1) with
    | none =>
      have hnone : s.walk t [Sv39.vpn va 1, Sv39.vpn va 2] = none := by
        rw [h.owned.walk_cons hmid', hlow]
      rw [Kernel.walk_none hnone _, eq_comm, Option.map_eq_none_iff] at hwalk
      rw [h.owned.walkFrom_none (by simp) hmid' hlow, hwalk]
      rfl
    | some low =>
      have hlow' : s.walk t [Sv39.vpn va 1, Sv39.vpn va 2] = some low := by
        rw [h.owned.walk_cons hmid', hlow]
      rw [h.owned.walkFrom_node (i := 0) (by simp) hmid' hlow]
      rw [h.owned.walk_cons hlow'] at hwalk
      cases hb : s.bound t (key va) with
      | none =>
        rw [hb] at hwalk
        rw [h.owned.walkFrom_none (by simp) hlow' hwalk]
        rfl
      | some b =>
        obtain ⟨p, f⟩ := b
        rw [hb] at hwalk
        have hf : f = g.flags t [Sv39.vpn va 0, Sv39.vpn va 1, Sv39.vpn va 2] := by
          have hbooked := ((h.booked t (key va) p f).1 hb).2
          rw [← path_eq_key_path] at hbooked
          exact hbooked
        have hleaf := h.owned.walkFrom_mapped (by simp) hlow' hwalk (hf ▸ hacc _ _ _ hb)
        rw [hleaf, ← hf]
        rfl

/-- In a run that adds only accessible mappings to a table, all its mappings are accessible. -/
theorem accessible_run {K : Word} (m : Mem) {ops : List KernelOp}
    (hok : kernelSystem.Admissible (Kernel.init K m) ops) {t : ℕ}
    (hacc : ∀ o ∈ ops, o.AccessibleIn t) {k : Key} {p f : Word}
    (hb : (kernelSystem.final (Kernel.init K m) ops).bound t k = some (p, f)) : Accessible f := by
  refine System.run_inv_mem (S := kernelSystem)
    (I := fun s => ∀ k p f, s.bound t k = some (p, f) → Accessible f) ?_ ?_ hok k p f hb
  · intro s o ho hs _ k p f hb
    rcases step_bound_inv hb with hb | ⟨va, -, heq⟩
    · exact hs k p f hb
    · exact hacc o ho va p f heq
  · intro k p f hb
    cases hb

/-- **Software lookup agrees with the hardware walk.**  After every admissible run, for every table
to which only accessible mappings were added and every canonical address: the Sv39 walk from
`make_satp()` succeeds exactly when `lookup` returns a page, and then yields that page with the
offset of the address, the flags given to the `add` that bound the address, and level 0. -/
theorem lookup_agrees_with_sv39 {K : Word} (hK : KernelEnd K) (m : Mem) {ops : List KernelOp}
    (hok : kernelSystem.Admissible (Kernel.init K m) ops) {t : ℕ}
    (hacc : ∀ o ∈ ops, o.AccessibleIn t) {tbl : PageTable}
    (ht : (kernelSystem.final (Kernel.init K m) ops).tables[t]? = some tbl) {va : Word}
    (hva : Sv39.Canonical va) :
    let s := kernelSystem.final (Kernel.init K m) ops
    let pa := tbl.lookup s.pmm.mem va
    ((Sv39.translate s.pmm.mem tbl.makeSatp va).isSome ↔ pa ≠ 0) ∧
    ∀ tr, Sv39.translate s.pmm.mem tbl.makeSatp va = some tr →
      tr.pa = pa + (va.extractLsb' 0 12).setWidth 64 ∧ tr.level = 0 ∧
      s.bound t (key va) = some (pa, tr.flags.setWidth 64) := by
  intro s pa
  obtain ⟨g, h⟩ : ∃ g, KernelInv K g s := kernelInv_run hK m hok
  have hacc' : ∀ k p f, s.bound t k = some (p, f) → Accessible f :=
    fun k p f hb => accessible_run m hok hacc hb
  have ht' : s.tables[t]? = some tbl := ht
  clear_value s
  have hlookup : pa = ((s.bound t (key va)).map Prod.fst).getD 0 := h.lookup hK ht' va
  rw [h.translate_eq ht' hacc' hva]
  cases hb : s.bound t (key va) with
  | none => simp [hlookup, hb]
  | some b =>
    obtain ⟨p, f⟩ := b
    have hpa : pa = p := by rw [hlookup, hb]; rfl
    have hown := ((h.booked t (key va) p f).1 hb).1
    have hne : p ≠ 0 := (h.owned.poolPage (by rw [hown]; simp)).ne_zero hK
    obtain ⟨write, read, exec, user, cow, hf, -⟩ := hacc' _ _ _ hb
    have hflt : f.toNat < 1024 := hf ▸ (permissionCode_bounds write read exec user cow).1
    have hflags : (f.setWidth 10).setWidth 64 = f := by
      apply BitVec.eq_of_toNat_eq
      simp only [BitVec.toNat_setWidth]
      omega
    rw [hpa]
    refine ⟨⟨fun _ => hne, fun _ => rfl⟩, ?_⟩
    rintro tr htr
    obtain rfl := Option.some.inj htr
    exact ⟨rfl, rfl, by rw [hflags]⟩

theorem sampleRun_accessible : ∀ o ∈ sampleRun, o.AccessibleIn 0 := by
  intro o ho va pa perm heq
  subst heq
  simp only [sampleRun, mapAndLookup, List.mem_cons, reduceCtorEq, KernelOp.add.injEq,
    List.not_mem_nil, false_or, or_false] at ho
  exact ⟨true, true, false, false, false, ho.2.2.2, Or.inl rfl⟩

theorem lookup_agrees_with_sv39_sample :
    let s := kernelSystem.final (Kernel.init kernelBegin Mem.zero) sampleRun
    let tbl := (PageTable.new (Kernel.init kernelBegin Mem.zero).pmm).1
    (Sv39.translate s.pmm.mem tbl.makeSatp 0x1234).isSome ↔ tbl.lookup s.pmm.mem 0x1234 ≠ 0 :=
  (lookup_agrees_with_sv39 kernelEnd_kernelBegin Mem.zero sampleRun_admissible
    sampleRun_accessible sampleRun_table (by decide)).1

end HxcOS
