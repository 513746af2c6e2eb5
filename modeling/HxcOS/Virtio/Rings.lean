import HxcOS.Model.Memlayout
import HxcOS.Virtio.Descriptors
import HxcOS.Virtio.Init

/-!
# Where the device looks for the rings

The driver keeps the three parts of the queue in three objects of their own, each at a page
boundary.  A legacy device is told one address; it looks for the available ring right after the
descriptors there, and for the used ring at the next page boundary.

The available ring of the device is therefore in the middle of a page, and the driver's is at the
start of one: nothing that the driver publishes ever gets there (`rings_never_same`).
-/

namespace HxcOS

open ByteMem

/-- Where the linker puts `vq_desc`, `vq_avail` and `vq_used`. -/
structure Placement where
  vqDesc : Word
  vqAvail : Word
  vqUsed : Word
  aligned : PageAligned vqDesc ∧ PageAligned vqAvail ∧ PageAligned vqUsed
  apart : vqDesc ≠ vqAvail ∧ vqDesc ≠ vqUsed ∧ vqAvail ≠ vqUsed

/-- The registers from which the device computes addresses. -/
structure QueueRegs where
  guestPageSize : BitVec 32
  queueNum : BitVec 32
  queuePfn : BitVec 32

def queueRegs (regs : Word → BitVec 32) : QueueRegs :=
  ⟨regs VIRTIO_MMIO_GUEST_PAGE_SIZE, regs VIRTIO_MMIO_QUEUE_NUM, regs VIRTIO_MMIO_QUEUE_PFN⟩

namespace QueueRegs

def descAddr (r : QueueRegs) : Word := r.queuePfn.setWidth 64 * r.guestPageSize.setWidth 64

/-- After the descriptors, which have 16 bytes each. -/
def availAddr (r : QueueRegs) : Word := r.descAddr + 16 * r.queueNum.setWidth 64

/-- At the next page boundary after the available ring, which has three fields of two bytes besides
the entries. -/
def usedAddr (r : QueueRegs) : Word :=
  (r.availAddr + 2 * r.queueNum.setWidth 64 + 6 + 4095) / 4096 * 4096

end QueueRegs

/-! ### The queue in memory -/

def VirtqDesc.store (d : VirtqDesc) (m : Mem) (a : Word) : Mem :=
  (((m.store64 a d.addr).store32 (a + 8) d.len).store16 (a + 12) d.flags).store16 (a + 14) d.next

namespace Driver

def storeDiskInfo (s : Driver) (l : Layout) (m : Mem) (i : ℕ) : Mem :=
  (m.store64 (l.diskInfo + 16 * BitVec.ofNat 64 i) (s.diskInfo i).information).store8
    (l.statusAddr i) (s.diskInfo i).status

def storeDesc (s : Driver) (p : Placement) (m : Mem) (i : ℕ) : Mem :=
  (s.desc i).store m (p.vqDesc + BitVec.ofNat 64 (16 * i))

def storeRing (s : Driver) (p : Placement) (m : Mem) (i : ℕ) : Mem :=
  m.store16 (p.vqAvail + BitVec.ofNat 64 (4 + 2 * i)) (s.avail.ring i)

/-- The memory with all that the driver keeps in it. -/
def image (s : Driver) (l : Layout) (p : Placement) : Mem :=
  let m := (List.range 8).foldl (s.storeDiskInfo l) s.mem
  let m := (List.range VIRTIO_QUEUE_SIZE).foldl (s.storeDesc p) m
  let m := m.store16 (p.vqAvail + BitVec.ofNat 64 2) s.avail.idx
  (List.range VIRTIO_QUEUE_SIZE).foldl (s.storeRing p) m

/-- Calls of `virtio_submit_request`, each up to its notification. -/
def enqueueAll (l : Layout) : Driver → List (Word × DiskRequest) → Except String Driver
  | s, [] => .ok s
  | s, (sp, req) :: reqs => do
      let (_, s) ← s.enqueue l sp req
      s.enqueueAll l reqs

end Driver

/-- The device finds in memory what the driver has in `vq.avail`, and its used ring is `vq.used`. -/
def SameRings (r : QueueRegs) (l : Layout) (p : Placement) (s : Driver) : Prop :=
  let m := s.image l p
  m.load16 (r.availAddr + 2) = s.avail.idx ∧
    (∀ i < VIRTIO_QUEUE_SIZE,
      m.load16 (r.availAddr + BitVec.ofNat 64 (4 + 2 * i)) = s.avail.ring i) ∧
    r.usedAddr = p.vqUsed

/-! ### The memory between the objects -/

/-- The 16 bytes of a descriptor are stored to. -/
theorem VirtqDesc.store_wrote (d : VirtqDesc) {S : Set Word} {a : Word} (ha : span a 16 ⊆ S)
    (m : Mem) : Wrote S m (d.store m a) := by
  have haddr : span a 8 ⊆ S := (span_mono (by omega)).trans ha
  have hlen : span (a + 8) 4 ⊆ S :=
    (span_offset_subset (k := 8) (by omega) (by omega)).trans ha
  have hflags : span (a + 12) 2 ⊆ S :=
    (span_offset_subset (k := 12) (by omega) (by omega)).trans ha
  have hnext : span (a + 14) 2 ⊆ S :=
    (span_offset_subset (k := 14) (by omega) (by omega)).trans ha
  exact (Wrote.store64 haddr _ _).trans <| (Wrote.store32 hlen _ _).trans <|
    (Wrote.store16 hflags _ _).trans (Wrote.store16 hnext _ _)

namespace Driver

variable {s s' : Driver} {l : Layout} {p : Placement} {b : Word}

/-- The descriptors have 128 bytes, and what is used of `vq_avail` has less. -/
theorem image_byte (hb : b ∉ span p.vqDesc 128) (hb' : b ∉ span p.vqAvail 128) :
    (s.image l p).byte b = ((List.range 8).foldl (s.storeDiskInfo l) s.mem).byte b := by
  have hdesc : Wrote (span p.vqDesc 128) ((List.range 8).foldl (s.storeDiskInfo l) s.mem)
      ((List.range VIRTIO_QUEUE_SIZE).foldl (s.storeDesc p)
        ((List.range 8).foldl (s.storeDiskInfo l) s.mem)) := by
    refine Wrote.foldl (fun m i hi => ?_) _
    rw [List.mem_range, VIRTIO_QUEUE_SIZE] at hi
    exact (s.desc i).store_wrote (span_offset_subset (by omega) (by omega)) m
  have hidx : ∀ m, Wrote (span p.vqAvail 128) m
      (m.store16 (p.vqAvail + BitVec.ofNat 64 2) s.avail.idx) := fun m =>
    Wrote.store16 (span_offset_subset (by omega) (by omega)) _ _
  have hring : ∀ m, Wrote (span p.vqAvail 128) m
      ((List.range VIRTIO_QUEUE_SIZE).foldl (s.storeRing p) m) := fun m => by
    refine Wrote.foldl (fun m i hi => ?_) _
    rw [List.mem_range, VIRTIO_QUEUE_SIZE] at hi
    exact Wrote.store16 (span_offset_subset (by omega) (by omega)) _ _
  rw [image, ((hidx _).trans (hring _)).byte_eq hb', hdesc.byte_eq hb]

/-- One of the memories has zero where the other has something else. -/
theorem foldl_storeDiskInfo (h : ∀ i, s.diskInfo i = ⟨0, 0⟩) (h' : ∀ i, s'.diskInfo i = ⟨0, 0⟩)
    (L : List ℕ) {m m' : Mem} (hm : m'.byte b = m.byte b ∨ m'.byte b = 0) :
    (L.foldl (s'.storeDiskInfo l) m').byte b = (L.foldl (s.storeDiskInfo l) m).byte b ∨
      (L.foldl (s'.storeDiskInfo l) m').byte b = 0 := by
  induction L generalizing m m' with
  | nil => exact hm
  | cons i L ih =>
    refine ih ?_
    have hword : ∀ m : Mem, ∀ a, (m.store64 a 0).byte b =
        if (b - a).toNat < 8 then 0 else m.byte b := fun m a => m.byte_store_zero (by norm_num) a b
    simp only [storeDiskInfo, h, h', Mem.byte_store8, hword]
    split_ifs
    · exact Or.inl rfl
    · exact Or.inl rfl
    · exact hm

/-- The header of a request of zeros. -/
theorem writeHdr_zero (m : Mem) (hdr b : Word) :
    (writeHdr m hdr ⟨0, 0, 0, 0⟩).byte b = m.byte b ∨ (writeHdr m hdr ⟨0, 0, 0, 0⟩).byte b = 0 := by
  have hstep : ∀ {m' : Mem} {n : ℕ} {a : Word}, n ≤ 2 ^ 64 →
      (m'.byte b = m.byte b ∨ m'.byte b = 0) →
      ((m'.store n a 0).byte b = m.byte b ∨ (m'.store n a 0).byte b = 0) := by
    intro m' n a hn hm'
    rw [m'.byte_store_zero hn]
    split_ifs
    · exact Or.inr rfl
    · exact hm'
  have hword : 8 ≤ 2 ^ 64 := by norm_num
  have hhalf : 4 ≤ 2 ^ 64 := by norm_num
  exact hstep hword (hstep hhalf (hstep hhalf (hstep hword (hstep hhalf (hstep hhalf
    (Or.inl rfl))))))

end Driver

/-- The device's available ring is in the middle of a page. -/
theorem availAddr_toNat {regs : Word → BitVec 32} {features : BitVec 32} {vqDesc : Word}
    (h : SetUp regs features vqDesc) : (queueRegs regs).availAddr.toNat % 4096 = 128 := by
  rw [QueueRegs.availAddr, QueueRegs.descAddr, queueRegs, h.guestPageSize, h.queueNum]
  dsimp only
  rw [show (4096 : BitVec 32).setWidth 64 = (4096 : Word) from rfl,
    show (16 : Word) * (8 : BitVec 32).setWidth 64 = 128 from rfl, BitVec.toNat_add, BitVec.toNat_mul]
  generalize (BitVec.setWidth 64 (regs VIRTIO_MMIO_QUEUE_PFN)).toNat = pfn
  rw [show (4096 : Word).toNat = 4096 from rfl, show (128 : Word).toNat = 128 from rfl]
  omega

/-- Two bytes are zero. -/
theorem load16_eq_zero_iff {m : Mem} {a : Word} :
    m.load16 a = 0 ↔ m.byte a = 0 ∧ m.byte (a + 1) = 0 := by
  have hlow := (m.byte a).isLt
  have hhigh := (m.byte (a + 1)).isLt
  have hzero : (0 : Byte).toNat = 0 ∧ (0 : BitVec 16).toNat = 0 := ⟨rfl, rfl⟩
  rw [Mem.load16, ← BitVec.toNat_inj, ← BitVec.toNat_inj, ← BitVec.toNat_inj, BitVec.toNat_ofNat,
    hzero.1, hzero.2]
  simp only [Mem.load]
  omega

/-- After a request of zeros the device still finds zero for the index. -/
theorem index_stays_zero {regs : Word → BitVec 32} {features : BitVec 32} {p : Placement}
    (h : SetUp regs features p.vqDesc) (l : Layout) {s s' : Driver} {sp : Word} {head : BitVec 16}
    (hok : s.enqueue l sp ⟨0, 0, 0, 0⟩ = .ok (head, s')) (hinfo : ∀ i, s.diskInfo i = ⟨0, 0⟩)
    (hzero : (s.image l p).load16 ((queueRegs regs).availAddr + 2) = 0) :
    (s'.image l p).load16 ((queueRegs regs).availAddr + 2) = 0 := by
  obtain ⟨hdesc, havail, -⟩ := p.aligned
  have hmod := availAddr_toNat h
  have hinfo' : ∀ i, s'.diskInfo i = ⟨0, 0⟩ := by
    intro i
    rw [Driver.diskInfo_of_enqueue hok, Function.update_apply]
    split_ifs
    · rfl
    · exact hinfo i
  obtain ⟨-, -, -, -, -, hmem, -⟩ := Driver.enqueue_ok hok
  have hbyte : ∀ k, (k = 2 ∨ k = 3) →
      (s'.image l p).byte ((queueRegs regs).availAddr + BitVec.ofNat 64 k) =
        (s.image l p).byte ((queueRegs regs).availAddr + BitVec.ofNat 64 k) ∨
      (s'.image l p).byte ((queueRegs regs).availAddr + BitVec.ofNat 64 k) = 0 := by
    intro k hk
    have hout : ∀ q, PageAligned q →
        (queueRegs regs).availAddr + BitVec.ofNat 64 k ∉ span q 128 := by
      intro q hq
      unfold PageAligned at hq
      rw [mem_span]
      rcases hk with rfl | rfl <;> bv_omega
    rw [Driver.image_byte (hout _ hdesc) (hout _ havail),
      Driver.image_byte (hout _ hdesc) (hout _ havail)]
    refine Driver.foldl_storeDiskInfo hinfo hinfo' _ ?_
    rw [hmem]
    exact Driver.writeHdr_zero _ _ _
  have hsucc : (queueRegs regs).availAddr + 2 + 1 = (queueRegs regs).availAddr + 3 := by
    rw [BitVec.add_assoc]
    rfl
  rw [load16_eq_zero_iff, hsucc] at hzero ⊢
  constructor
  · rcases hbyte 2 (Or.inl rfl) with heq | heq
    · exact heq.trans hzero.1
    · exact heq
  · rcases hbyte 3 (Or.inr rfl) with heq | heq
    · exact heq.trans hzero.2
    · exact heq

/-- **Driver and device never look at the same rings.**  Wherever the three objects are, the device
does not find all that the driver publishes. -/
theorem rings_never_same (p : Placement) (l : Layout) (regs : Word → BitVec 32)
    (features : BitVec 32) (h : SetUp regs features p.vqDesc) (m : Mem) :
    ¬ ∀ reqs s, (Driver.init m).enqueueAll l reqs = .ok s →
      SameRings (queueRegs regs) l p s := by
  intro hsame
  obtain ⟨s, hok⟩ := Driver.enqueue_isOk (SubmitInv.init () m).free (by decide) l 0 ⟨0, 0, 0, 0⟩
  obtain ⟨hbefore, -, -⟩ := hsame [] _ rfl
  obtain ⟨hafter, -, -⟩ := hsame [(0, ⟨0, 0, 0, 0⟩)] s (by rw [Driver.enqueueAll, hok]; rfl)
  have hzero := index_stays_zero h l hok (fun i => rfl) hbefore
  obtain ⟨-, -, -, -, -, -, havail⟩ := Driver.enqueue_ok hok
  rw [hzero, havail] at hafter
  exact absurd hafter (show (0 : BitVec 16) ≠ 0 + 1 by decide)

/-! ### A placement -/

/-- The objects follow each other. -/
def samplePlacement : Placement where
  vqDesc := 0x80220000
  vqAvail := 0x80221000
  vqUsed := 0x80222000
  aligned := ⟨by decide, by decide, by decide⟩
  apart := ⟨by decide, by decide, by decide⟩

/-- What `virtio_blk_init` leaves in the registers of a device that it can set up. -/
def sampleRegs (r : Word) : BitVec 32 :=
  if r = VIRTIO_MMIO_GUEST_PAGE_SIZE then 4096
  else if r = VIRTIO_MMIO_QUEUE_NUM then 8
  else if r = VIRTIO_MMIO_QUEUE_PFN then 0x80220
  else if r = VIRTIO_MMIO_STATUS then 15
  else 0

theorem sampleRegs_setUp : SetUp sampleRegs 0 0x80220000 := by
  constructor <;> decide +kernel

theorem rings_never_same_sample :
    ¬ ∀ reqs s, (Driver.init Mem.zero).enqueueAll sampleLayout reqs = .ok s →
      SameRings (queueRegs sampleRegs) sampleLayout samplePlacement s :=
  rings_never_same samplePlacement sampleLayout sampleRegs 0 sampleRegs_setUp Mem.zero

/-- The used ring of the device is the driver's `vq.avail`, and its available ring gets nothing: it
finds the index zero when the driver has published a request. -/
theorem published_request_not_found :
    SetUp sampleRegs 0 samplePlacement.vqDesc ∧
      (queueRegs sampleRegs).usedAddr = samplePlacement.vqAvail ∧
      ∃ s, (Driver.init Mem.zero).enqueueAll sampleLayout [(0x80400000, ⟨0, 0, 0, 0⟩)] = .ok s ∧
        s.avail.idx = 1 ∧
        (s.image sampleLayout samplePlacement).load16 ((queueRegs sampleRegs).availAddr + 2) = 0 ∧
        ¬ SameRings (queueRegs sampleRegs) sampleLayout samplePlacement s := by
  obtain ⟨s, hok⟩ := Driver.enqueue_isOk (SubmitInv.init () Mem.zero).free (by decide) sampleLayout
    0x80400000 ⟨0, 0, 0, 0⟩
  obtain ⟨-, -, -, -, -, -, havail⟩ := Driver.enqueue_ok hok
  have hidx : s.avail.idx = 1 := by
    rw [havail]
    rfl
  have hzero := index_stays_zero (p := samplePlacement) sampleRegs_setUp sampleLayout hok
    (fun i => rfl) (by decide +kernel)
  refine ⟨sampleRegs_setUp, by decide +kernel, s, by rw [Driver.enqueueAll, hok]; rfl, hidx, hzero,
    fun hsame => ?_⟩
  obtain ⟨hfound, -, -⟩ := hsame
  rw [hzero, hidx] at hfound
  exact absurd hfound (by decide)

end HxcOS
