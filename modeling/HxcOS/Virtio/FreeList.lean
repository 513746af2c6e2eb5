import HxcOS.Virtio.Queue
import HxcOS.Lib.System

/-!
# The list of free descriptors

`alloc_desc_chain` takes descriptors off the front of a list, and `free_desc_chain` puts a whole chain
back there: it follows the links of the chain, which the driver has written, to its last descriptor and
links that one to the list.  The list is threaded through the same `next` fields.

`chainSystem` are the two functions, called in any order, and the driver writing to descriptors that are
not on the list.  Its runs are those of `spliceSystem`, which is a list (`free_list_spliced`), as long as
what is given back is a chain of descriptors that are not on it.  A call of `alloc_desc_chain` that finds
too few loses those that it finds.
-/

namespace HxcOS

open ByteMem Chain Loop OpSystem

namespace Driver

variable {s : Driver} {head : BitVec 16} {C L : List (BitVec 16)}

/-- The descriptor behind one in a chain. -/
def chainNext (s : Driver) (o : Option (BitVec 16)) : Option (BitVec 16) :=
  o.bind fun i => if (s.desc i.toNat).hasNext then some (s.nextOf i) else none

theorem chainNext_eq_some {i j : BitVec 16} :
    s.chainNext (some i) = some j ↔ (s.desc i.toNat).hasNext = true ∧ s.nextOf i = j := by
  rw [chainNext, Option.bind_some]
  split_ifs with hflag <;> simp [hflag]

theorem chainNext_eq_none {i : BitVec 16} :
    s.chainNext (some i) = none ↔ (s.desc i.toNat).hasNext = false := by
  rw [chainNext, Option.bind_some]
  split_ifs with hflag <;> simp [hflag]

/-- The chain from `head` has the descriptors `C`; the last one has no link. -/
def ChainAt (s : Driver) (head : BitVec 16) (C : List (BitVec 16)) : Prop :=
  Linked s.chainNext none (some head) (C.map some)

instance (s : Driver) (head : BitVec 16) (C : List (BitVec 16)) : Decidable (s.ChainAt head C) :=
  inferInstanceAs (Decidable (Linked s.chainNext none (some head) (C.map some)))

namespace ChainAt

theorem head_eq {i : BitVec 16} (h : s.ChainAt head (i :: C)) : head = i := Option.some.inj h.1

theorem ne_nil (h : s.ChainAt head C) : C ≠ [] := by
  rintro rfl
  cases h

/-- The last descriptor. -/
theorem singleton {i : BitVec 16} (h : s.ChainAt head [i]) : (s.desc i.toNat).hasNext = false :=
  chainNext_eq_none.1 h.2.2

/-- A descriptor that is not the last. -/
theorem cons {i j : BitVec 16} (h : s.ChainAt head (i :: j :: C)) :
    (s.desc i.toNat).hasNext = true ∧ s.nextOf i = j ∧ s.ChainAt j (j :: C) := by
  obtain ⟨-, -, hlink, hrest⟩ := h
  obtain ⟨hflag, hnext⟩ := chainNext_eq_some.1 hlink
  exact ⟨hflag, hnext, rfl, hrest⟩

theorem nodup (h : s.ChainAt head C) : C.Nodup := List.Nodup.of_map some (Linked.nodup h)

/-- The loop of `free_desc_chain` stops at the last descriptor. -/
theorem runFor_eq (h : s.ChainAt head C) {n : ℕ} (hn : C.length ≤ n) :
    runFor (fun last : BitVec 16 => (s.desc last.toNat).hasNext)
      (fun last => (s.desc last.toNat).next) n head = some (C.getLast h.ne_nil) := by
  induction C generalizing head n with
  | nil => exact absurd rfl h.ne_nil
  | cons i C ih =>
    obtain rfl := h.head_eq
    obtain ⟨n, rfl⟩ := Nat.exists_eq_succ_of_ne_zero (Nat.ne_of_gt (Nat.zero_lt_of_lt hn))
    cases C with
    | nil => rw [runFor, if_neg (by simp [h.singleton]), List.getLast_singleton]
    | cons j C =>
      obtain ⟨hflag, hnext, hrest⟩ := h.cons
      rw [runFor, if_pos hflag, List.getLast_cons_cons]
      rw [← ih hrest (Nat.le_of_succ_le_succ hn), ← hnext]
      rfl

theorem isChain (h : s.ChainAt head C) : C.IsChain fun i j => s.nextOf i = j := by
  have hlinks := (List.isChain_map some).1 (Linked.isChain h)
  exact hlinks.imp fun _ _ hlink => (chainNext_eq_some.1 hlink).2

theorem length_le (h : s.ChainAt head C) : C.length ≤ 2 ^ 16 := by
  have hcard := h.nodup.length_le_card
  rwa [Fintype.card_congr (BitVec.equivFin (m := 16)).toEquiv, Fintype.card_fin] at hcard

end ChainAt

/-- `free_desc_chain` links the last descriptor of the chain to the list. -/
theorem freeDescChain_eq (h : s.ChainAt head C) : s.freeDescChain head = some
    { s.setDesc (C.getLast h.ne_nil).toNat fun d => { d with next := s.freeDescHead } with
      freeDescHead := head } := by
  rw [freeDescChain, h.runFor_eq h.length_le, Option.map_some]

/-- The chain is then in front of the list. -/
theorem freeDescs_splice (h : s.ChainAt head C) (hL : s.FreeDescs L) (hne : ∀ i ∈ C, i ≠ 0xFFFF)
    (hdisj : ∀ i ∈ C, i ∉ L) : FreeDescs
      { s.setDesc (C.getLast h.ne_nil).toNat fun d => { d with next := s.freeDescHead } with
        freeDescHead := head } (C ++ L) := by
  obtain ⟨last, hlast⟩ : ∃ last, last = C.getLast h.ne_nil := ⟨_, rfl⟩
  rw [← hlast]
  obtain ⟨s', hs'⟩ : ∃ s' : Driver, s' =
    { s.setDesc last.toNat fun d => { d with next := s.freeDescHead } with freeDescHead := head } :=
    ⟨_, rfl⟩
  rw [← hs']
  have hself : s'.nextOf last = s.freeDescHead := by
    simp [hs', nextOf, setDesc]
  have hother : ∀ i, i ≠ last → s'.nextOf i = s.nextOf i := by
    intro i hi
    have hne : i.toNat ≠ last.toNat := fun heq => hi (BitVec.eq_of_toNat_eq heq)
    simp [hs', nextOf, setDesc, hne]
  have hmem : last ∈ C := hlast ▸ List.getLast_mem h.ne_nil
  cases C with
  | nil => exact absurd rfl h.ne_nil
  | cons i C =>
    have hhead : s'.freeDescHead = i := by
      rw [hs']
      exact h.head_eq
    show Linked s'.nextOf 0xFFFF s'.freeDescHead (i :: C ++ L)
    rw [hhead]
    refine Linked.splice hL ?_ hne (by rw [← hlast, hself]) ?_
    · -- only the last link is new, and it is not one of the chain
      rw [List.isChain_iff_getElem]
      intro k hk
      rw [hother]
      · exact List.isChain_iff_getElem.1 h.isChain k hk
      · rw [hlast, List.getLast_eq_getElem, Ne, h.nodup.getElem_inj_iff]
        omega
    · intro j hj
      exact hother j fun heq => hdisj last hmem (heq ▸ hj)

/-- What the driver writes to a descriptor that is not on the list. -/
theorem FreeDescs.write {i : BitVec 16} (hL : s.FreeDescs L) (hi : i ∉ L) (d : VirtqDesc) :
    (s.setDesc i.toNat fun _ => d).FreeDescs L := by
  refine Linked.congr hL ?_
  intro j hj
  have hne : j.toNat ≠ i.toNat := by
    intro heq
    exact hi (BitVec.eq_of_toNat_eq heq ▸ hj)
  simp [nextOf, setDesc, hne]

theorem init_freeDescs (m : Mem) : (init m).FreeDescs [0, 1, 2, 3, 4, 5, 6, 7] := by
  simp [FreeDescs, nextOf, init, initFreeList, setDesc, boot, VIRTIO_QUEUE_SIZE]

end Driver

/-! ### Runs -/

/-- A call, or an assignment to a descriptor.  The chain that is given back stands for its head. -/
inductive ChainOp
  | alloc (num : ℕ)
  | write (i : BitVec 16) (d : VirtqDesc)
  | free (C : List (BitVec 16))

/-- What a call answers. -/
inductive ChainAnswer
  | head (i : BitVec 16)
  | returned
  | stuck
  deriving DecidableEq

/-- The two functions on the queue.  What is written or given back is not on the list. -/
def chainSystem : System Driver ChainOp ChainAnswer where
  step s
    | .alloc num => (.head (s.allocDescChain num).1, (s.allocDescChain num).2)
    | .write i d => (.returned, s.setDesc i.toNat fun _ => d)
    | .free C =>
      match s.freeDescChain (C.headD 0) with
      | some s => (.returned, s)
      | none => (.stuck, s)
  ok s
    | .alloc _ => True
    | .write i _ => i.toNat < 8 ∧ ∃ L, s.FreeDescs L ∧ i ∉ L
    | .free C => s.ChainAt (C.headD 0) C ∧ (∀ i ∈ C, i.toNat < 8) ∧
        ∃ L, s.FreeDescs L ∧ ∀ i ∈ C, i ∉ L

/-- A list of descriptors. -/
def spliceSystem : System (List (BitVec 16)) ChainOp ChainAnswer where
  step L
    | .alloc num => (.head (if num ≤ L.length then L.headD 0xFFFF else 0xFFFF), L.drop num)
    | .write _ _ => (.returned, L)
    | .free C => (.returned, C ++ L)
  ok _ _ := True

open Driver in
theorem chainSystem_step {s : Driver} {L : List (BitVec 16)} {o : ChainOp} (hL : s.FreeDescs L)
    (hok : chainSystem.ok s o) :
    (chainSystem.step s o).1 = (spliceSystem.step L o).1 ∧
      (chainSystem.step s o).2.FreeDescs (spliceSystem.step L o).2 := by
  cases o with
  | alloc num =>
    have hhead : s.freeDescHead = L.headD 0xFFFF := by
      rw [List.headD_eq_head?_getD, hL.head_eq]
    have hrun := allocDescChain_eq hL num
    have hlist := (takeDescs_eq hL num).2
    rw [(takeDescs_eq hL num).1] at hlist
    refine ⟨?_, ?_⟩
    · show ChainAnswer.head (s.allocDescChain num).1 = _
      rw [hrun, hhead]
      rfl
    · show (s.allocDescChain num).2.FreeDescs (L.drop num)
      rw [hrun]
      exact hlist
  | write i d =>
    obtain ⟨-, L', hL', hi⟩ := hok
    obtain rfl := Linked.unique hL' hL
    exact ⟨rfl, hL.write hi d⟩
  | free C =>
    obtain ⟨hC, hrange, L', hL', hdisj⟩ := hok
    obtain rfl := Linked.unique hL' hL
    have hne : ∀ i ∈ C, i ≠ 0xFFFF := by
      rintro i hi rfl
      exact absurd (hrange _ hi) (by decide)
    have hlist := freeDescs_splice hC hL hne hdisj
    unfold chainSystem
    dsimp only
    rw [freeDescChain_eq hC]
    exact ⟨rfl, hlist⟩

/-- **The free descriptors are a list.**  After the boot, in whatever order chains are allocated, filled
in and given back, `alloc_desc_chain` answers with the first element of a list and takes off as many as
were asked for, all of them when there are fewer, and `free_desc_chain` returns and puts its chain in
front.  The list is the one in memory. -/
theorem free_list_spliced (m : Mem) {ops : List ChainOp}
    (hok : chainSystem.Admissible (Driver.init m) ops) :
    chainSystem.results (Driver.init m) ops = spliceSystem.results [0, 1, 2, 3, 4, 5, 6, 7] ops ∧
    (chainSystem.final (Driver.init m) ops).FreeDescs
      (spliceSystem.final [0, 1, 2, 3, 4, 5, 6, 7] ops) := by
  exact System.run_refines_eq (fun _ _ _ hL hok => chainSystem_step hL hok) (Driver.init_freeDescs m) hok

section Sample

variable {s : Driver} {L : List (BitVec 16)} {os : List ChainOp}

theorem admissible_write {i : BitVec 16} {d : VirtqDesc} (hL : s.FreeDescs L) (hi : i.toNat < 8)
    (hout : i ∉ L) (h : chainSystem.Admissible (s.setDesc i.toNat fun _ => d) os) :
    chainSystem.Admissible s (.write i d :: os) :=
  ⟨⟨hi, L, hL, hout⟩, h⟩

theorem admissible_free {C : List (BitVec 16)} (hL : s.FreeDescs L) (hC : s.ChainAt (C.headD 0) C)
    (hrange : ∀ i ∈ C, i.toNat < 8) (hdisj : ∀ i ∈ C, i ∉ L) :
    chainSystem.Admissible s [.free C] :=
  ⟨⟨hC, hrange, L, hL, hdisj⟩, trivial⟩

/-- Two descriptors in use are linked and given back, the last one first. -/
def backToFront : List ChainOp :=
  [.write 1 ⟨0x80300000, 4096, VRING_DESC_F_NEXT, 0⟩, .write 0 ⟨0x80300000, 1, 0, 0⟩, .free [1, 0]]

theorem backToFront_admissible (hL : s.FreeDescs [2, 3, 4, 5, 6, 7]) :
    chainSystem.Admissible s backToFront := by
  have hL₁ := hL.write (i := 1) (by decide) ⟨0x80300000, 4096, VRING_DESC_F_NEXT, 0⟩
  have hL₂ := hL₁.write (i := 0) (by decide) ⟨0x80300000, 1, 0, 0⟩
  refine admissible_write hL (by decide) (by decide) (admissible_write hL₁ (by decide) (by decide) ?_)
  refine admissible_free hL₂ ?_ (by simp) (by simp)
  simp [Driver.ChainAt, Driver.chainNext, Driver.setDesc, Driver.nextOf, VirtqDesc.hasNext,
    VRING_DESC_F_NEXT]

theorem free_list_spliced_sample :
    chainSystem.results (Driver.init Mem.zero) (.alloc 2 :: backToFront) =
      spliceSystem.results [0, 1, 2, 3, 4, 5, 6, 7] (.alloc 2 :: backToFront) := by
  have htaken := (chainSystem_step (Driver.init_freeDescs Mem.zero) (o := .alloc 2) trivial).2
  have hok : chainSystem.Admissible (Driver.init Mem.zero) (.alloc 2 :: backToFront) :=
    ⟨trivial, backToFront_admissible htaken⟩
  exact (free_list_spliced Mem.zero hok).1

end Sample

end HxcOS
