import HxcOS.Lib.Chain
import HxcOS.Model.Mmio

/-!
# What the queue operations do

One lemma for each operation of the driver on the descriptor table.  The free descriptors form a
list through the `next` fields (`FreeDescs`); `alloc_desc_chain` takes its first entries, whatever
they are.  `enqueue_ok` says everything that a successful `virtio_submit_request` does before the
notification.
-/

namespace HxcOS

open ByteMem Chain Loop

namespace Driver

variable {s : Driver}

/-- The link of a descriptor. -/
def nextOf (s : Driver) (i : BitVec 16) : BitVec 16 := (s.desc i.toNat).next

/-- The free descriptors, in the order in which they are handed out. -/
def FreeDescs (s : Driver) (L : List (BitVec 16)) : Prop :=
  Linked s.nextOf 0xFFFF s.freeDescHead L

instance (s : Driver) (L : List (BitVec 16)) : Decidable (s.FreeDescs L) :=
  inferInstanceAs (Decidable (Linked s.nextOf 0xFFFF s.freeDescHead L))

/-! ### The list of free descriptors -/

theorem FreeDescs.head_eq {L : List (BitVec 16)} (h : s.FreeDescs L) :
    L.head?.getD 0xFFFF = s.freeDescHead := by
  cases L with
  | nil => exact Eq.symm h
  | cons a L => exact h.1.symm

/-- The loop of `alloc_desc_chain` on a list: it succeeds when the list is long enough. -/
theorem takeDescs_eq {L : List (BitVec 16)} (h : s.FreeDescs L) (n : ℕ) :
    s.takeDescs n =
      (decide (n ≤ L.length), { s with freeDescHead := (L.drop n).head?.getD 0xFFFF }) ∧
    (s.takeDescs n).2.FreeDescs (L.drop n) := by
  induction n generalizing s L with
  | zero =>
    refine ⟨?_, h⟩
    rw [takeDescs, List.drop_zero, h.head_eq, decide_eq_true (Nat.zero_le _)]
  | succ n ih =>
    cases L with
    | nil =>
      have hnil : s.freeDescHead = 0xFFFF := h
      rw [takeDescs, if_pos hnil]
      exact ⟨by simp [← hnil], h⟩
    | cons a L =>
      obtain ⟨hhead, hne, hrest⟩ := h
      rw [takeDescs, if_neg (hhead ▸ hne)]
      obtain ⟨heq, hlist⟩ := ih (s := { s with freeDescHead := (s.desc s.freeDescHead.toNat).next })
        (L := L) (by rw [hhead]; exact hrest)
      exact ⟨by rw [heq]; simp, hlist⟩

/-- The loop changes only the head. -/
theorem takeDescs_snd (s : Driver) (n : ℕ) :
    ∃ h, (s.takeDescs n).2 = { s with freeDescHead := h } := by
  induction n generalizing s with
  | zero => exact ⟨s.freeDescHead, rfl⟩
  | succ n ih =>
    rw [takeDescs]
    split_ifs
    · exact ⟨s.freeDescHead, rfl⟩
    · obtain ⟨h, heq⟩ := ih { s with freeDescHead := (s.desc s.freeDescHead.toNat).next }
      exact ⟨h, heq⟩

/-- `alloc_desc_chain` moves the head of the list, whether or not it succeeds. -/
theorem allocDescChain_eq {L : List (BitVec 16)} (h : s.FreeDescs L) (num : ℕ) :
    s.allocDescChain num =
      (if num ≤ L.length then s.freeDescHead else 0xFFFF,
        { s with freeDescHead := (L.drop num).head?.getD 0xFFFF }) := by
  rw [allocDescChain, (takeDescs_eq h num).1]
  simp only [decide_eq_true_eq]

/-- A request for `num` descriptors takes the first `num` of the free list, or, when there are
fewer, returns `0xFFFF` and changes nothing. -/
def AllOrNothing (s : Driver) (L : List (BitVec 16)) (num : ℕ) : Prop :=
  (num ≤ L.length → s.allocDescChain num =
    (L.head?.getD 0xFFFF, { s with freeDescHead := (L.drop num).head?.getD 0xFFFF })) ∧
  (L.length < num → s.allocDescChain num = (0xFFFF, s))

/-- A failing request empties the free list. -/
theorem not_allOrNothing {L : List (BitVec 16)} {num : ℕ} (h : s.FreeDescs L)
    (hlt : L.length < num) (hL : L ≠ []) : ¬ s.AllOrNothing L num := by
  intro hall
  have hstate := congrArg (fun r => r.2.freeDescHead) (hall.2 hlt)
  rw [allocDescChain_eq h, List.drop_of_length_le hlt.le] at hstate
  exact hL ((Linked.head_eq_nil_iff h).1 hstate.symm)

/-- A request is all or nothing exactly when the list is long enough or already empty. -/
theorem allOrNothing_iff {L : List (BitVec 16)} (h : s.FreeDescs L) (num : ℕ) :
    s.AllOrNothing L num ↔ num ≤ L.length ∨ L = [] := by
  constructor
  · intro hall
    by_contra hshort
    obtain ⟨hlt, hL⟩ := not_or.1 hshort
    exact not_allOrNothing h (not_le.1 hlt) hL hall
  · intro hlong
    refine ⟨fun hle => ?_, fun hlt => ?_⟩
    · rw [allocDescChain_eq h, if_pos hle, h.head_eq]
    · obtain rfl := hlong.resolve_left (not_le.2 hlt)
      rw [allocDescChain_eq h, if_neg (not_le.2 hlt), List.drop_nil, h.head_eq]

/-- After the boot, a request for three takes them. -/
theorem allOrNothing_iff_init :
    (init Mem.zero).AllOrNothing [0, 1, 2, 3, 4, 5, 6, 7] 3 ↔
      3 ≤ ([0, 1, 2, 3, 4, 5, 6, 7] : List (BitVec 16)).length ∨
        ([0, 1, 2, 3, 4, 5, 6, 7] : List (BitVec 16)) = [] :=
  allOrNothing_iff (by decide) 3

/-- Two descriptors are left after two requests; a third request loses them. -/
theorem two_descriptors_lost :
    (((init Mem.zero).allocDescChain 3).2.allocDescChain 3).2.FreeDescs [6, 7] ∧
      ¬ (((init Mem.zero).allocDescChain 3).2.allocDescChain 3).2.AllOrNothing [6, 7] 3 := by
  have hfree : (((init Mem.zero).allocDescChain 3).2.allocDescChain 3).2.FreeDescs [6, 7] := by
    decide
  exact ⟨hfree, not_allOrNothing hfree (by decide) (by decide)⟩

/-- `free_desc_chain` on a chain of two: both go in front of the free list. -/
theorem freeDescChain_two {head : BitVec 16} (h : (s.desc head.toNat).hasNext = true)
    (h' : (s.desc (s.nextOf head).toNat).hasNext = false) :
    s.freeDescChain head = some
      { s.setDesc (s.nextOf head).toNat fun d => { d with next := s.freeDescHead } with
        freeDescHead := head } := by
  rw [freeDescChain, show 2 ^ 16 = 65535 + 1 from rfl, runFor, if_pos h, runFor,
    if_neg (by rw [show (s.desc head.toNat).next = s.nextOf head from rfl, h']; simp)]
  rfl

/-! ### Submitting -/

section WriteDescs

variable (s) (l : Layout) (head : BitVec 16) (hdr : Word) (req : DiskRequest)

theorem writeDescs_head :
    (s.writeDescs l head hdr req).desc head.toNat =
      ⟨hdr, 16, VRING_DESC_F_NEXT, BitVec.ofNat 16 (head.toNat + 1)⟩ := by
  simp [writeDescs, setDesc]

theorem writeDescs_data :
    (s.writeDescs l head hdr req).desc (head.toNat + 1) =
      { addr := req.buffer
        len := 4096
        flags := if req.doWrite ≠ 0 then 0 else VRING_DESC_F_WRITE
        next := (s.desc (head.toNat + 1)).next } := by
  simp [writeDescs, setDesc]

theorem writeDescs_status :
    (s.writeDescs l head hdr req).desc (head.toNat + 2) =
      ⟨l.statusAddr head.toNat, 1, VRING_DESC_F_WRITE, 0⟩ := by
  simp [writeDescs, setDesc]

theorem writeDescs_of_ne {i : ℕ} (h : i ≠ head.toNat) (h' : i ≠ head.toNat + 1)
    (h'' : i ≠ head.toNat + 2) : (s.writeDescs l head hdr req).desc i = s.desc i := by
  simp [writeDescs, setDesc, h, h', h'']

end WriteDescs

section WriteHdr

variable (m : Mem) (hdr : Word) (req : DiskRequest)

/-- Only the 16 bytes of the header are stored to. -/
theorem writeHdr_wrote : Wrote (span hdr 16) m (writeHdr m hdr req) := by
  have htype : span hdr 4 ⊆ span hdr 16 := span_mono (by omega)
  have hreserved : span (hdr + 4) 4 ⊆ span hdr 16 := span_offset_subset (k := 4) (by omega) (by omega)
  have hsector : span (hdr + 8) 8 ⊆ span hdr 16 := span_offset_subset (k := 8) (by omega) (by omega)
  exact (Wrote.store32 htype _ _).trans <| (Wrote.store32 hreserved _ _).trans <|
    (Wrote.store64 hsector _ _).trans <| (Wrote.store32 htype _ _).trans <|
    (Wrote.store32 hreserved _ _).trans (Wrote.store64 hsector _ _)

/-- The three fields read back. -/
theorem writeHdr_loads : (writeHdr m hdr req).load32 hdr = reqType req ∧
    (writeHdr m hdr req).load32 (hdr + 4) = 0 ∧
    (writeHdr m hdr req).load64 (hdr + 8) = sector req := by
  have htype : Disjoint (span hdr 4) (span (hdr + 4) 4) := by
    have h := span_offset_disjoint (a := hdr) (j := 0) (n := 4) (k := 4) (show 0 + 4 ≤ 4 by omega)
      (show 4 + 4 ≤ 2 ^ 64 by omega)
    simpa using h
  have htype' : Disjoint (span hdr 4) (span (hdr + 8) 8) := by
    have h := span_offset_disjoint (a := hdr) (j := 0) (n := 4) (k := 8) (show 0 + 4 ≤ 8 by omega)
      (show 8 + 8 ≤ 2 ^ 64 by omega)
    simpa using h
  have hreserved : Disjoint (span (hdr + 4) 4) (span (hdr + 8) 8) :=
    span_offset_disjoint (j := 4) (k := 8) (by omega) (by omega)
  refine ⟨?_, ?_, Mem.load64_store64_same _ _ _⟩
  · rw [writeHdr, (Wrote.store64 subset_rfl _ _).load32_eq htype',
      (Wrote.store32 subset_rfl _ _).load32_eq htype, Mem.load32_store32_same]
  · rw [writeHdr, (Wrote.store64 subset_rfl _ _).load32_eq hreserved, Mem.load32_store32_same]

end WriteHdr

/-- Everything that a successful call does up to the notification. -/
theorem enqueue_ok {l : Layout} {sp : Word} {req : DiskRequest} {head : BitVec 16} {s' : Driver}
    (h : s.enqueue l sp req = .ok (head, s')) :
    head = s.freeDescHead ∧ head ≠ 0xFFFF ∧ (s.takeDescs 3).1 = true ∧
      s'.freeDescHead = (s.takeDescs 3).2.freeDescHead ∧
      s'.desc = (s.writeDescs l head (l.hdrAddr sp) req).desc ∧
      s'.mem = writeHdr s.mem (l.hdrAddr sp) req ∧
      s'.avail = (s.avail.writeRing head).incIdx := by
  obtain ⟨f, hf⟩ := s.takeDescs_snd 3
  simp only [enqueue, allocDescChain] at h
  split_ifs at h with hok hnone hfull
  · obtain ⟨rfl, rfl⟩ := Prod.mk.inj (Except.ok.inj h)
    rw [hf]
    exact ⟨rfl, hnone, hok, rfl, rfl, rfl, rfl⟩
  · exact absurd rfl hfull

/-- The entry of the request in `disk_info`. -/
theorem diskInfo_of_enqueue {l : Layout} {sp : Word} {req : DiskRequest} {head : BitVec 16}
    {s' : Driver} (h : s.enqueue l sp req = .ok (head, s')) :
    s'.diskInfo = Function.update s.diskInfo head.toNat ⟨req.userdata, 0⟩ := by
  obtain ⟨f, hf⟩ := s.takeDescs_snd 3
  simp only [enqueue, allocDescChain] at h
  split_ifs at h with hok hnone hfull
  · obtain ⟨rfl, rfl⟩ := Prod.mk.inj (Except.ok.inj h)
    simp [hf, writeDescs, setDesc]
  · exact absurd rfl hfull

/-- With three free descriptors the call succeeds up to the notification. -/
theorem enqueue_isOk {L : List (BitVec 16)} (h : s.FreeDescs L) (hlen : 3 ≤ L.length) (l : Layout)
    (sp : Word) (req : DiskRequest) : ∃ s', s.enqueue l sp req = .ok (s.freeDescHead, s') := by
  have hok : (s.takeDescs 3).1 = true := by rw [(takeDescs_eq h 3).1]; simpa using hlen
  have hhead : s.freeDescHead ≠ 0xFFFF := fun hnil => by
    rw [(Linked.head_eq_nil_iff h).1 hnil] at hlen
    simp at hlen
  simp only [enqueue, allocDescChain, hok, if_true, if_neg hhead]
  exact ⟨_, rfl⟩

/-- A successful call found three free descriptors. -/
theorem three_le_of_enqueue_ok {L : List (BitVec 16)} (h : s.FreeDescs L) {l : Layout} {sp : Word}
    {req : DiskRequest} {head : BitVec 16} {s' : Driver}
    (hok : s.enqueue l sp req = .ok (head, s')) : 3 ≤ L.length := by
  obtain ⟨-, -, htake, -⟩ := enqueue_ok hok
  rw [(takeDescs_eq h 3).1] at htake
  simpa using htake

end Driver

/-- A successful call of `virtio_submit_request` enqueues. -/
theorem virtioSubmitRequest_ok {δ : Type} {M : Mmio δ} {d d' : δ} {s s' : Driver} {l : Layout}
    {sp : Word} {req : DiskRequest} {head : BitVec 16}
    (h : s.virtioSubmitRequest M d l sp req = .ok (d', head, s')) :
    s.enqueue l sp req = .ok (head, s') := by
  unfold Driver.virtioSubmitRequest at h
  cases hq : s.enqueue l sp req with
  | error e => rw [hq] at h; cases h
  | ok r =>
    rw [hq] at h
    cases hn : writeMmio32 M d VIRTIO_MMIO_QUEUE_NOTIFY 0 with
    | error e =>
      simp only [bind, Except.bind, hn] at h
      cases h
    | ok d₁ =>
      simp only [bind, Except.bind, hn, pure, Except.pure, Except.ok.injEq, Prod.mk.injEq] at h
      obtain ⟨-, rfl, rfl⟩ := h
      rfl

end HxcOS
