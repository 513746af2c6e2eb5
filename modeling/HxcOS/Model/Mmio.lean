import HxcOS.Lib.Loop
import HxcOS.Lib.Memory

/-!
# `os/src/FS/MMIO.cpp`: the driver of the virtio block device

The queue is kept as the driver sees it: the descriptor table, the available ring, the head of the
list of free descriptors, and the per-request table `disk_info`.  The request header is a local
variable of `virtio_submit_request`, so it lives in memory, at a fixed distance below the stack
pointer of the caller; `Layout` has that distance and the address of `disk_info`.

The registers of the device are reached through `Mmio`, which says what a read and a write of a
register do.  `write_mmio_32` reads back what it wrote and panics on a difference.  A panic does not
return, and is an `Except` error that carries its message.  `virtio_blk_init` is the sequence of such
reads and writes in the source's order, after the loop that links the free descriptors.

`free_desc_chain` follows links that may form a cycle; it is an `Option`, with `none` for a call
that does not return.  The loop's state is one 16-bit index, so a loop that has not stopped after
`2 ^ 16` iterations never does.
-/

namespace HxcOS

open ByteMem Loop

/-! ### Registers -/

/-- What reading and writing the 32-bit registers of a device does to it. -/
structure Mmio (δ : Type) where
  read : δ → Word → BitVec 32 × δ
  write : δ → Word → BitVec 32 → δ

def VIRTIO_MMIO_MAGIC_VALUE : Word := 0x000
def VIRTIO_MMIO_VERSION : Word := 0x004
def VIRTIO_MMIO_DEVICE_ID : Word := 0x008
def VIRTIO_MMIO_VENDOR_ID : Word := 0x00c
def VIRTIO_MMIO_DEVICE_FEATURES : Word := 0x010
def VIRTIO_MMIO_DRIVER_FEATURES : Word := 0x020
def VIRTIO_MMIO_GUEST_PAGE_SIZE : Word := 0x028
def VIRTIO_MMIO_QUEUE_SEL : Word := 0x030
def VIRTIO_MMIO_QUEUE_NUM_MAX : Word := 0x034
def VIRTIO_MMIO_QUEUE_NUM : Word := 0x038
def VIRTIO_MMIO_QUEUE_ALIGN : Word := 0x03c
def VIRTIO_MMIO_QUEUE_PFN : Word := 0x040
def VIRTIO_MMIO_QUEUE_READY : Word := 0x044
def VIRTIO_MMIO_QUEUE_NOTIFY : Word := 0x050
def VIRTIO_MMIO_INTERRUPT_STATUS : Word := 0x060
def VIRTIO_MMIO_INTERRUPT_ACK : Word := 0x064
def VIRTIO_MMIO_STATUS : Word := 0x070

def VIRTIO_STATUS_ACKNOWLEDGE : Byte := 1 <<< 0
def VIRTIO_STATUS_DRIVER : Byte := 1 <<< 1
def VIRTIO_STATUS_DRIVER_OK : Byte := 1 <<< 2
def VIRTIO_STATUS_FEATURES_OK : Byte := 1 <<< 3

def VIRTIO_BLK_F_RO : ℕ := 5
def VIRTIO_BLK_F_SCSI : ℕ := 7
def VIRTIO_BLK_F_CONFIG_WCE : ℕ := 11
def VIRTIO_BLK_F_MQ : ℕ := 12
def VIRTIO_F_ANY_LAYOUT : ℕ := 27
def VIRTIO_RING_F_INDIRECT_DESC : ℕ := 28
def VIRTIO_RING_F_EVENT_IDX : ℕ := 29

/-- `void write_mmio_32(uintptr_t reg_offset, uint32_t value)`. -/
def writeMmio32 {δ : Type} (M : Mmio δ) (d : δ) (regOffset : Word) (value : BitVec 32) :
    Except String δ :=
  let d := M.write d regOffset value
  let (r, d) := M.read d regOffset
  if r ≠ value then .error "Error on write_mmio_32\n" else .ok d

/-- `uint32_t read_mmio_32(uintptr_t reg_offset)`. -/
def readMmio32 {δ : Type} (M : Mmio δ) (d : δ) (regOffset : Word) : BitVec 32 × δ :=
  M.read d regOffset

/-- `void write_mmio_64(uintptr_t reg_offset, uint64_t value)`, two writes to neighbouring
registers. -/
def writeMmio64 {δ : Type} (M : Mmio δ) (d : δ) (regOffset value : Word) : Except String δ := do
  let d ← writeMmio32 M d regOffset ((value &&& 0xFFFFFFFF).setWidth 32)
  writeMmio32 M d (regOffset + 4) ((value >>> 32).setWidth 32)

/-- `void virtio_set_status(uint8_t status)`. -/
def virtioSetStatus {δ : Type} (M : Mmio δ) (d : δ) (status : Byte) : Except String δ :=
  writeMmio32 M d VIRTIO_MMIO_STATUS (status.setWidth 32)

/-- `if (c) panic(message);` -/
def panicIf (c : Prop) [Decidable c] (message : String) : Except String Unit :=
  if c then .error message else .ok ()

/-! ### The queue -/

def VRING_DESC_F_NEXT : BitVec 16 := 1 <<< 0
def VRING_DESC_F_WRITE : BitVec 16 := 1 <<< 1

def VIRTIO_QUEUE_SIZE : ℕ := 8

def VIRTIO_BLK_T_IN : BitVec 32 := 0
def VIRTIO_BLK_T_OUT : BitVec 32 := 1

/-- `struct virtq_desc`. -/
structure VirtqDesc where
  addr : Word
  len : BitVec 32
  flags : BitVec 16
  next : BitVec 16
  deriving DecidableEq

/-- The flag `VRING_DESC_F_NEXT` is set. -/
def VirtqDesc.hasNext (d : VirtqDesc) : Bool := d.flags &&& VRING_DESC_F_NEXT != 0

/-- The flag `VRING_DESC_F_WRITE` is set. -/
def VirtqDesc.isWrite (d : VirtqDesc) : Bool := d.flags &&& VRING_DESC_F_WRITE != 0

/-- `struct virtq_avail`. -/
structure VirtqAvail where
  flags : BitVec 16
  idx : BitVec 16
  ring : ℕ → BitVec 16

/-- An entry of `disk_info`. -/
structure DiskInfo where
  information : Word
  status : Byte

/-- `struct disk_request`, the fields that `virtio_submit_request` reads. -/
structure DiskRequest where
  doWrite : Byte
  blkno : Word
  buffer : Word
  userdata : Word

/-- Addresses that the compiler and the linker choose: the header is at this distance below the
caller's stack pointer. -/
structure Layout where
  hdrOffset : Word
  diskInfo : Word

/-- `&disk_info[i].status`. -/
def Layout.statusAddr (l : Layout) (i : ℕ) : Word := l.diskInfo + 16 * BitVec.ofNat 64 i + 8

/-- `&hdr`, when the caller's stack pointer is `sp`. -/
def Layout.hdrAddr (l : Layout) (sp : Word) : Word := sp - l.hdrOffset

/-- The state of the driver: the global `vq`, `disk_info`, and the memory that holds the stack. -/
structure Driver where
  desc : ℕ → VirtqDesc
  avail : VirtqAvail
  freeDescHead : BitVec 16
  diskInfo : ℕ → DiskInfo
  mem : Mem

namespace Driver

/-- An assignment to the fields of `vq.desc[i]`. -/
def setDesc (s : Driver) (i : ℕ) (f : VirtqDesc → VirtqDesc) : Driver :=
  { s with desc := Function.update s.desc i (f (s.desc i)) }

/-- `for (i = 0; i < vq.queue_size; i++) vq.desc[i].next = (i == vq.queue_size-1) ? 0xFFFF : i+1;`
from `virtio_blk_init`, the iterations from `i` on. -/
def initFreeList (s : Driver) : ℕ → ℕ → Driver
  | _, 0 => s
  | i, n + 1 =>
      (s.setDesc i fun d =>
        { d with next := if i = VIRTIO_QUEUE_SIZE - 1 then 0xFFFF else BitVec.ofNat 16 (i + 1) })
        |>.initFreeList (i + 1) n

/-- The globals before `virtio_blk_init`, all zero. -/
def boot (m : Mem) : Driver where
  desc _ := ⟨0, 0, 0, 0⟩
  avail := ⟨0, 0, fun _ => 0⟩
  freeDescHead := 0
  diskInfo _ := ⟨0, 0⟩
  mem := m

/-- What the free-list loop of `virtio_blk_init` leaves. -/
def init (m : Mem) : Driver := (boot m).initFreeList 0 VIRTIO_QUEUE_SIZE

end Driver

/-! ### Initialisation -/

/-- `features &= ~(1 << …);`, seven times. -/
def driverFeatures (features : BitVec 32) : BitVec 32 :=
  let features := features &&& ~~~(1 <<< VIRTIO_BLK_F_RO : BitVec 32)
  let features := features &&& ~~~(1 <<< VIRTIO_BLK_F_SCSI : BitVec 32)
  let features := features &&& ~~~(1 <<< VIRTIO_BLK_F_CONFIG_WCE : BitVec 32)
  let features := features &&& ~~~(1 <<< VIRTIO_BLK_F_MQ : BitVec 32)
  let features := features &&& ~~~(1 <<< VIRTIO_F_ANY_LAYOUT : BitVec 32)
  let features := features &&& ~~~(1 <<< VIRTIO_RING_F_EVENT_IDX : BitVec 32)
  features &&& ~~~(1 <<< VIRTIO_RING_F_INDIRECT_DESC : BitVec 32)

section VirtioBlkInit

variable {δ : Type} (M : Mmio δ)

/-- The device is what the driver expects. -/
def checkDevice (d : δ) : Except String δ := do
  let (magic, d) := readMmio32 M d VIRTIO_MMIO_MAGIC_VALUE
  panicIf (magic ≠ 0x74726976) "Bad VirtIO magic"
  let (version, d) := readMmio32 M d VIRTIO_MMIO_VERSION
  panicIf (version ≠ 1) "Bad version!"
  let (devId, d) := readMmio32 M d VIRTIO_MMIO_DEVICE_ID
  panicIf (devId ≠ 2) "Bad dev_id!"
  let (vendorId, d) := readMmio32 M d VIRTIO_MMIO_VENDOR_ID
  panicIf (vendorId ≠ 0x554d4551) "Bad vendor_id!"
  return d

/-- The device is reset, and the features are agreed on. -/
def setFeatures (d : δ) : Except String δ := do
  let d ← virtioSetStatus M d 0
  let d ← virtioSetStatus M d (VIRTIO_STATUS_ACKNOWLEDGE ||| VIRTIO_STATUS_DRIVER)
  let (features, d) := readMmio32 M d VIRTIO_MMIO_DEVICE_FEATURES
  writeMmio32 M d VIRTIO_MMIO_DRIVER_FEATURES (driverFeatures features)

/-- Queue 0 is set up after the page size, at `&vq_desc`, and the driver is ready. -/
def setQueue (d : δ) (vqDesc : Word) : Except String δ := do
  let d ← writeMmio32 M d VIRTIO_MMIO_QUEUE_SEL 0
  let (maxQueueSize, d) := readMmio32 M d VIRTIO_MMIO_QUEUE_NUM_MAX
  panicIf (maxQueueSize < 8) "Queue too small"
  let d ← writeMmio32 M d VIRTIO_MMIO_QUEUE_NUM 8
  let d ← writeMmio64 M d VIRTIO_MMIO_QUEUE_PFN (vqDesc / 4096)
  let d ← writeMmio32 M d VIRTIO_MMIO_QUEUE_READY 1
  let (queueReady, d) := readMmio32 M d VIRTIO_MMIO_QUEUE_READY
  panicIf (queueReady ≠ 1) "队列未就绪1"
  let d ← virtioSetStatus M d (VIRTIO_STATUS_ACKNOWLEDGE ||| VIRTIO_STATUS_DRIVER |||
    VIRTIO_STATUS_FEATURES_OK ||| VIRTIO_STATUS_DRIVER_OK)
  let (queueReady, d) := readMmio32 M d VIRTIO_MMIO_QUEUE_READY
  panicIf (queueReady ≠ 1) "队列未就绪2"
  return d

/-- `void virtio_blk_init()`. -/
def virtioBlkInit (d : δ) (s : Driver) (vqDesc : Word) : Except String (δ × Driver) := do
  let s := s.initFreeList 0 VIRTIO_QUEUE_SIZE
  let d ← checkDevice M d
  let d ← setFeatures M d
  let d ← writeMmio32 M d VIRTIO_MMIO_GUEST_PAGE_SIZE 4096
  let d ← setQueue M d vqDesc
  return (d, s)

end VirtioBlkInit

namespace Driver

/-- The loop of `alloc_desc_chain`, which takes one descriptor in each iteration; `false` when it
returns early because the list is empty. -/
def takeDescs (s : Driver) : ℕ → Bool × Driver
  | 0 => (true, s)
  | n + 1 =>
      if s.freeDescHead = 0xFFFF then (false, s)
      else takeDescs { s with freeDescHead := (s.desc s.freeDescHead.toNat).next } n

/-- `static uint16_t alloc_desc_chain(int num)`. -/
def allocDescChain (s : Driver) (num : ℕ) : BitVec 16 × Driver :=
  let head := s.freeDescHead
  let (ok, s) := s.takeDescs num
  (if ok then head else 0xFFFF, s)

/-- `static void free_desc_chain(uint16_t head)`. -/
def freeDescChain (s : Driver) (head : BitVec 16) : Option Driver :=
  (runFor (fun last : BitVec 16 => (s.desc last.toNat).hasNext)
    (fun last => (s.desc last.toNat).next) (2 ^ 16) head).map fun last =>
    { s.setDesc last.toNat fun d => { d with next := s.freeDescHead } with freeDescHead := head }

/-! ### Submitting a request -/

/-- `req->blkno * (4096 / 512)`. -/
def sector (req : DiskRequest) : Word := req.blkno * (4096 / 512)

/-- `hdr.type`. -/
def reqType (req : DiskRequest) : BitVec 32 :=
  if req.doWrite ≠ 0 then VIRTIO_BLK_T_OUT else VIRTIO_BLK_T_IN

/-- The header is initialised, and then its three fields are assigned. -/
def writeHdr (m : Mem) (hdr : Word) (req : DiskRequest) : Mem :=
  let m := m.store32 hdr 0
  let m := m.store32 (hdr + 4) 0
  let m := m.store64 (hdr + 8) (sector req)
  let m := m.store32 hdr (reqType req)
  let m := m.store32 (hdr + 4) 0
  m.store64 (hdr + 8) (sector req)

/-- The descriptor chain is filled in.  `next` of the second descriptor is not assigned. -/
def writeDescs (s : Driver) (l : Layout) (head : BitVec 16) (hdr : Word) (req : DiskRequest) :
    Driver :=
  let i := head.toNat
  let s := s.setDesc i fun _ =>
    ⟨hdr, 16, VRING_DESC_F_NEXT, BitVec.ofNat 16 (i + 1)⟩
  let s := s.setDesc (i + 1) fun d =>
    { d with
      addr := req.buffer
      len := 4096
      flags := if req.doWrite ≠ 0 then 0 else VRING_DESC_F_WRITE }
  let s := { s with
    diskInfo := Function.update s.diskInfo i { s.diskInfo i with status := 0 } }
  let s := s.setDesc (i + 2) fun _ => ⟨l.statusAddr i, 1, VRING_DESC_F_WRITE, 0⟩
  { s with
    diskInfo := Function.update s.diskInfo i { s.diskInfo i with information := req.userdata } }

end Driver

namespace VirtqAvail

/-- `vq.avail->ring[vq.avail->idx % vq.queue_size] = head;` -/
def writeRing (a : VirtqAvail) (head : BitVec 16) : VirtqAvail :=
  { a with ring := Function.update a.ring (a.idx.toNat % VIRTIO_QUEUE_SIZE) head }

/-- `vq.avail->idx++;` -/
def incIdx (a : VirtqAvail) : VirtqAvail := { a with idx := a.idx + 1 }

end VirtqAvail

namespace Driver

/-- `void virtio_submit_request(struct disk_request* req)` up to the notification, called with the
stack pointer `sp`; the head that is published and the state. -/
def enqueue (s : Driver) (l : Layout) (sp : Word) (req : DiskRequest) :
    Except String (BitVec 16 × Driver) :=
  let (head, s) := s.allocDescChain 3
  if head = 0xFFFF then .error "No free descriptors" else
  let s := { s with mem := writeHdr s.mem (l.hdrAddr sp) req }
  let s := s.writeDescs l head (l.hdrAddr sp) req
  let s := { s with avail := s.avail.writeRing head }
  let s := { s with avail := s.avail.incIdx }
  .ok (head, s)

/-- `void virtio_submit_request(struct disk_request* req)`. -/
def virtioSubmitRequest {δ : Type} (M : Mmio δ) (d : δ) (s : Driver) (l : Layout) (sp : Word)
    (req : DiskRequest) : Except String (δ × BitVec 16 × Driver) := do
  let (head, s) ← s.enqueue l sp req
  let d ← writeMmio32 M d VIRTIO_MMIO_QUEUE_NOTIFY 0
  return (d, head, s)

end Driver

/-! ### Freeing a chain

The functions `alloc_desc`, `alloc3_desc`, `free_desc` and `free_chain` keep the free descriptors in the
array `disk_free`, not in the list that `alloc_desc_chain` takes from.
-/

/-- What these functions read and write. -/
structure DiskTable where
  desc : ℕ → VirtqDesc
  diskFree : ℕ → Byte

/-- How far a call has come: it is in its loop, it has returned, or it has panicked. -/
inductive Control
  | running
  | returned
  | panicked (message : String)
  deriving DecidableEq

/-- The variables of `free_chain`, and the number of calls of `free_desc` that have returned. -/
structure FreeState where
  control : Control
  i : ℕ
  table : DiskTable
  frees : ℕ

namespace DiskTable

/-- `static void free_desc(int i)`. -/
def freeDesc (t : DiskTable) (i : ℕ) : Except String DiskTable := do
  panicIf (i ≥ 8) "virtio_disk_intr 1"
  panicIf (t.diskFree i ≠ 0) "virtio_disk_intr 2"
  return {
    desc := Function.update t.desc i { t.desc i with addr := 0 }
    diskFree := Function.update t.diskFree i 1 }

/-- The descriptors that are not free. -/
def used (t : DiskTable) : Finset ℕ := (Finset.range 8).filter fun i => t.diskFree i = 0

/-- `free_desc` panics, or it frees a descriptor that was not free. -/
theorem freeDesc_cases (t : DiskTable) (i : ℕ) :
    (8 ≤ i ∧ t.freeDesc i = .error "virtio_disk_intr 1") ∨
    (i < 8 ∧ t.diskFree i ≠ 0 ∧ t.freeDesc i = .error "virtio_disk_intr 2") ∨
    (i < 8 ∧ t.diskFree i = 0 ∧ t.freeDesc i = .ok {
      desc := Function.update t.desc i { t.desc i with addr := 0 }
      diskFree := Function.update t.diskFree i 1 }) := by
  unfold freeDesc panicIf
  by_cases hrange : i ≥ 8
  · exact Or.inl ⟨hrange, by rw [if_pos hrange]; rfl⟩
  · by_cases hfree : t.diskFree i ≠ 0
    · exact Or.inr (Or.inl ⟨by omega, hfree, by rw [if_neg hrange, if_pos hfree]; rfl⟩)
    · exact Or.inr (Or.inr ⟨by omega, not_not.1 hfree, by rw [if_neg hrange, if_neg hfree]; rfl⟩)

/-- A successful `free_desc` leaves one used descriptor less. -/
theorem card_used_freeDesc {t t' : DiskTable} {i : ℕ} (h : t.freeDesc i = .ok t') :
    t'.used.card < t.used.card := by
  rcases t.freeDesc_cases i with ⟨-, he⟩ | ⟨-, -, he⟩ | ⟨hi, hfree, he⟩
  · rw [he] at h
    cases h
  · rw [he] at h
    cases h
  · rw [he] at h
    obtain rfl := Except.ok.inj h
    refine Finset.card_lt_card (Finset.ssubset_iff_of_subset (fun j hj => ?_) |>.2 ⟨i, ?_, ?_⟩)
    · simp only [used, Finset.mem_filter] at hj ⊢
      obtain ⟨hj, hj'⟩ := hj
      by_cases hji : j = i
      · simp [hji] at hj'
      · rw [Function.update_of_ne hji] at hj'
        exact ⟨hj, hj'⟩
    · simp [used, hi, hfree]
    · simp [used]

end DiskTable

/-- The `while (1)` of `free_chain`; the used descriptors bound the number of iterations. -/
def freeChainLoop : While FreeState where
  cond st := decide (st.control = .running)
  body st :=
    match st.table.freeDesc st.i with
    | .error message => { st with control := .panicked message }
    | .ok t =>
      if (t.desc st.i).hasNext then ⟨.running, (t.desc st.i).next.toNat, t, st.frees + 1⟩
      else ⟨.returned, st.i, t, st.frees + 1⟩
  measure st := if st.control = .running then st.table.used.card + 1 else 0
  decreases st hst := by
    have hrun : st.control = .running := of_decide_eq_true hst
    cases h : st.table.freeDesc st.i with
    | error message => simp [hrun]
    | ok t =>
      have hlt := DiskTable.card_used_freeDesc h
      dsimp only
      split_ifs <;> simp_all

/-- `static void free_chain(int i)`. -/
def freeChain (t : DiskTable) (i : ℕ) : FreeState := freeChainLoop.run ⟨.running, i, t, 0⟩

/-! ### Allocating three descriptors -/

namespace DiskTable

/-- The globals at the start, all zero: no descriptor is free. -/
def boot : DiskTable := ⟨fun _ => ⟨0, 0, 0, 0⟩, fun _ => 0⟩

/-- The loop of `alloc_desc`, its `n` iterations from `i` on. -/
def allocDescFrom (t : DiskTable) : ℕ → ℕ → ℤ × DiskTable
  | _, 0 => (-1, t)
  | i, n + 1 =>
      if t.diskFree i ≠ 0 then (i, { t with diskFree := Function.update t.diskFree i 0 })
      else t.allocDescFrom (i + 1) n

/-- `static int alloc_desc()`. -/
def allocDesc (t : DiskTable) : ℤ × DiskTable := t.allocDescFrom 0 8

/-- `for (int j = 0; j < i; j++) free_desc(idx[j]);`, for an array of indices that are not negative. -/
def freeDescs (t : DiskTable) (idx : ℕ → ℤ) (i : ℕ) : Except String DiskTable :=
  (List.range i).foldlM (fun t j => t.freeDesc (idx j).toNat) t

/-- The loop of `alloc3_desc`, its `n` iterations from `i` on; the value returned and the array. -/
def alloc3DescFrom (t : DiskTable) (idx : ℕ → ℤ) :
    ℕ → ℕ → Except String (ℤ × (ℕ → ℤ) × DiskTable)
  | _, 0 => .ok (0, idx, t)
  | i, n + 1 =>
      let (r, t) := t.allocDesc
      let idx := Function.update idx i r
      if r < 0 then do
        let t ← t.freeDescs idx i
        return (-1, idx, t)
      else t.alloc3DescFrom idx (i + 1) n

/-- `static int alloc3_desc(int *idx)`. -/
def alloc3Desc (t : DiskTable) (idx : ℕ → ℤ) : Except String (ℤ × (ℕ → ℤ) × DiskTable) :=
  t.alloc3DescFrom idx 0 3

end DiskTable

end HxcOS
