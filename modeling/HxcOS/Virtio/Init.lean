import HxcOS.Model.Mmio

/-!
# Initialising the device

`Conforms` is a legacy block device: it identifies itself as the driver expects, and its registers
follow access modes.  `access` are the modes that `MMIO.hpp` gives.

Whether `virtio_blk_init` runs to its end depends on two registers alone, since `write_mmio_32`
panics when what it wrote does not read back: it does exactly when the page size and the size of the
queue can be read (`virtioBlkInit_ok`, `virtioBlkInit_error`).  The modes of `MMIO.hpp` make both
write-only.
-/

namespace HxcOS

open ByteMem

inductive Access
  | readOnly
  | writeOnly
  | readWrite
  deriving DecidableEq

/-- The modes of `MMIO.hpp`.  What identifies the device does not change. -/
def access (r : Word) : Access :=
  if r ∈ [VIRTIO_MMIO_MAGIC_VALUE, VIRTIO_MMIO_VERSION, VIRTIO_MMIO_DEVICE_ID,
      VIRTIO_MMIO_VENDOR_ID, VIRTIO_MMIO_DEVICE_FEATURES, VIRTIO_MMIO_QUEUE_NUM_MAX,
      VIRTIO_MMIO_INTERRUPT_STATUS] then .readOnly
  else if r ∈ [VIRTIO_MMIO_GUEST_PAGE_SIZE, VIRTIO_MMIO_QUEUE_SEL, VIRTIO_MMIO_QUEUE_NUM,
      VIRTIO_MMIO_QUEUE_ALIGN, VIRTIO_MMIO_QUEUE_NOTIFY, VIRTIO_MMIO_INTERRUPT_ACK] then .writeOnly
  else .readWrite

/-- A legacy block device with the register contents `reg`, which offers `features`.  A write of zero
to the status resets it, and may change any register. -/
structure Conforms {δ : Type} (M : Mmio δ) (mode : Word → Access) (reg : δ → Word → BitVec 32)
    (features : BitVec 32) : Prop where
  magic : ∀ d, reg d VIRTIO_MMIO_MAGIC_VALUE = 0x74726976
  version : ∀ d, reg d VIRTIO_MMIO_VERSION = 1
  deviceId : ∀ d, reg d VIRTIO_MMIO_DEVICE_ID = 2
  vendorId : ∀ d, reg d VIRTIO_MMIO_VENDOR_ID = 0x554d4551
  deviceFeatures : ∀ d, reg d VIRTIO_MMIO_DEVICE_FEATURES = features
  queueNumMax : ∀ d, 8 ≤ reg d VIRTIO_MMIO_QUEUE_NUM_MAX
  identity : ∀ r ∈ [VIRTIO_MMIO_MAGIC_VALUE, VIRTIO_MMIO_VERSION, VIRTIO_MMIO_DEVICE_ID,
    VIRTIO_MMIO_VENDOR_ID, VIRTIO_MMIO_DEVICE_FEATURES, VIRTIO_MMIO_QUEUE_NUM_MAX],
    mode r = .readOnly
  read : ∀ d r, (M.read d r).1 = if mode r = .writeOnly then 0 else reg d r
  read_keeps : ∀ d r, reg (M.read d r).2 = reg d
  write : ∀ d r v, (r = VIRTIO_MMIO_STATUS → v ≠ 0) →
    reg (M.write d r v) = if mode r = .readOnly then reg d else Function.update (reg d) r v
  reset : ∀ d, reg (M.write d VIRTIO_MMIO_STATUS 0) VIRTIO_MMIO_STATUS = 0

/-- The registers that the driver writes can be written, and those that it has to read can be
read. -/
structure Usable (mode : Word → Access) : Prop where
  readWrite : ∀ r ∈ [VIRTIO_MMIO_STATUS, VIRTIO_MMIO_DRIVER_FEATURES, VIRTIO_MMIO_QUEUE_PFN,
    VIRTIO_MMIO_QUEUE_READY], mode r = .readWrite
  writable : ∀ r ∈ [VIRTIO_MMIO_GUEST_PAGE_SIZE, VIRTIO_MMIO_QUEUE_SEL, VIRTIO_MMIO_QUEUE_NUM],
    mode r ≠ .readOnly

/-- A register that can be read and written. -/
theorem Usable.modes {mode : Word → Access} (hm : Usable mode) {r : Word}
    (hr : r ∈ [VIRTIO_MMIO_STATUS, VIRTIO_MMIO_DRIVER_FEATURES, VIRTIO_MMIO_QUEUE_PFN,
      VIRTIO_MMIO_QUEUE_READY]) : mode r ≠ .writeOnly ∧ mode r ≠ .readOnly := by
  rw [hm.readWrite r hr]
  decide

/-- The device is set up: features are agreed on, queue 0 has eight entries and is at `vqDesc`, and
the driver has said that it is ready. -/
structure SetUp (regs : Word → BitVec 32) (features : BitVec 32) (vqDesc : Word) : Prop where
  driverFeatures : regs VIRTIO_MMIO_DRIVER_FEATURES = driverFeatures features
  guestPageSize : regs VIRTIO_MMIO_GUEST_PAGE_SIZE = 4096
  queueSel : regs VIRTIO_MMIO_QUEUE_SEL = 0
  queueNum : regs VIRTIO_MMIO_QUEUE_NUM = 8
  queuePfn : regs VIRTIO_MMIO_QUEUE_PFN = (vqDesc / 4096).setWidth 32
  driverOk : regs VIRTIO_MMIO_STATUS &&& VIRTIO_STATUS_DRIVER_OK.setWidth 32 ≠ 0

/-! ### Single accesses -/

namespace Conforms

variable {δ : Type} {M : Mmio δ} {mode : Word → Access} {reg : δ → Word → BitVec 32}
  {features : BitVec 32} {r : Word} {v : BitVec 32}

/-- A register that can be read is read. -/
theorem read_eq (h : Conforms M mode reg features) (d : δ) (hr : mode r ≠ .writeOnly) :
    ∃ d', readMmio32 M d r = (reg d r, d') ∧ reg d' = reg d := by
  refine ⟨(M.read d r).2, ?_, h.read_keeps d r⟩
  have hval := h.read d r
  rw [if_neg hr] at hval
  rw [readMmio32, ← hval]

/-- What reads back can be written. -/
theorem write_eq (h : Conforms M mode reg features) (d : δ) (hr : mode r ≠ .readOnly)
    (hback : mode r = .writeOnly → v = 0) (hstatus : r = VIRTIO_MMIO_STATUS → v ≠ 0) :
    ∃ d', writeMmio32 M d r v = .ok d' ∧ reg d' = Function.update (reg d) r v := by
  have hwrite := h.write d r v hstatus
  rw [if_neg hr] at hwrite
  refine ⟨(M.read (M.write d r v) r).2, ?_, by rw [h.read_keeps, hwrite]⟩
  have hval : (M.read (M.write d r v) r).1 = v := by
    rw [h.read, hwrite, Function.update_self]
    split_ifs with hw
    · exact (hback hw).symm
    · rfl
  rw [writeMmio32]
  dsimp only
  rw [hval, if_neg (not_not.2 rfl)]

/-- The driver panics when a write-only register should read back something else than zero. -/
theorem write_error (h : Conforms M mode reg features) (d : δ) (hr : mode r = .writeOnly)
    (hv : v ≠ 0) : writeMmio32 M d r v = .error "Error on write_mmio_32\n" := by
  have hval := h.read (M.write d r v) r
  rw [if_pos hr] at hval
  rw [writeMmio32]
  dsimp only
  rw [hval, if_pos hv.symm]

theorem reset_eq (h : Conforms M mode reg features) (d : δ)
    (hr : mode VIRTIO_MMIO_STATUS = .readWrite) :
    ∃ d', virtioSetStatus M d 0 = .ok d' := by
  refine ⟨(M.read (M.write d VIRTIO_MMIO_STATUS 0) VIRTIO_MMIO_STATUS).2, ?_⟩
  have hval := h.read (M.write d VIRTIO_MMIO_STATUS 0) VIRTIO_MMIO_STATUS
  rw [hr, if_neg (by decide), h.reset] at hval
  rw [virtioSetStatus, writeMmio32]
  dsimp only
  rw [show (0 : Byte).setWidth 32 = 0 from rfl, hval, if_neg (not_not.2 rfl)]

end Conforms

/-! ### The whole initialisation -/

section Whole

variable {δ : Type} {M : Mmio δ} {mode : Word → Access} {reg : δ → Word → BitVec 32}
  {features : BitVec 32}

theorem checkDevice_ok (h : Conforms M mode reg features) (d : δ) :
    ∃ d', checkDevice M d = .ok d' ∧ reg d' = reg d := by
  have hid : ∀ r ∈ _, mode r ≠ .writeOnly := fun r hr => by rw [h.identity r hr]; decide
  obtain ⟨d₁, hmagic, hr₁⟩ := h.read_eq d (hid VIRTIO_MMIO_MAGIC_VALUE (by simp))
  obtain ⟨d₂, hversion, hr₂⟩ := h.read_eq d₁ (hid VIRTIO_MMIO_VERSION (by simp))
  obtain ⟨d₃, hdevice, hr₃⟩ := h.read_eq d₂ (hid VIRTIO_MMIO_DEVICE_ID (by simp))
  obtain ⟨d₄, hvendor, hr₄⟩ := h.read_eq d₃ (hid VIRTIO_MMIO_VENDOR_ID (by simp))
  refine ⟨d₄, ?_, hr₄.trans (hr₃.trans (hr₂.trans hr₁))⟩
  simp only [checkDevice, panicIf, hmagic, hversion, hdevice, hvendor, h.magic, h.version,
    h.deviceId, h.vendorId]
  rfl

theorem setFeatures_ok (h : Conforms M mode reg features) (hm : Usable mode) (d : δ) :
    ∃ d', setFeatures M d = .ok d' ∧
      reg d' VIRTIO_MMIO_DRIVER_FEATURES = driverFeatures features := by
  obtain ⟨hread, hwrite⟩ := hm.modes (r := VIRTIO_MMIO_STATUS) (by simp)
  obtain ⟨d₁, hreset⟩ := h.reset_eq d (hm.readWrite _ (by simp))
  obtain ⟨d₂, hstatus, -⟩ := h.write_eq d₁ (r := VIRTIO_MMIO_STATUS) (v := 3) hwrite
    (fun heq => absurd heq hread) (by decide)
  obtain ⟨d₃, hfeatures, -⟩ := h.read_eq d₂ (r := VIRTIO_MMIO_DEVICE_FEATURES)
    (by rw [h.identity _ (by simp)]; decide)
  obtain ⟨hread', hwrite'⟩ := hm.modes (r := VIRTIO_MMIO_DRIVER_FEATURES) (by simp)
  obtain ⟨d₄, hagreed, hr⟩ := h.write_eq d₃ (v := driverFeatures features) hwrite'
    (fun heq => absurd heq hread') (fun heq => absurd heq (by decide))
  refine ⟨d₄, ?_, by rw [hr, Function.update_self]⟩
  rw [h.deviceFeatures] at hfeatures
  change virtioSetStatus M d₁ (VIRTIO_STATUS_ACKNOWLEDGE ||| VIRTIO_STATUS_DRIVER) = _ at hstatus
  simp only [setFeatures, hreset, hstatus, hfeatures, hagreed, bind, Except.bind]

/-- The low half of the page number goes to its register, and the high half to the next one. -/
theorem writeMmio64_ok (h : Conforms M mode reg features) (hm : Usable mode) (d : δ)
    (value : Word) :
    ∃ d', writeMmio64 M d VIRTIO_MMIO_QUEUE_PFN value = .ok d' ∧
      reg d' = Function.update (Function.update (reg d) VIRTIO_MMIO_QUEUE_PFN (value.setWidth 32))
        VIRTIO_MMIO_QUEUE_READY ((value >>> 32).setWidth 32) := by
  obtain ⟨hread, hwrite⟩ := hm.modes (r := VIRTIO_MMIO_QUEUE_PFN) (by simp)
  obtain ⟨hread', hwrite'⟩ := hm.modes (r := VIRTIO_MMIO_QUEUE_READY) (by simp)
  have hlow : (value &&& 0xFFFFFFFF).setWidth 32 = value.setWidth 32 := by
    apply BitVec.eq_of_toNat_eq
    rw [BitVec.toNat_setWidth, BitVec.toNat_setWidth, BitVec.toNat_and,
      show (0xFFFFFFFF : Word).toNat = 2 ^ 32 - 1 from rfl, Nat.and_two_pow_sub_one_eq_mod]
    omega
  obtain ⟨d₁, hpfn, hr₁⟩ := h.write_eq d (v := value.setWidth 32) hwrite
    (fun heq => absurd heq hread) (fun heq => absurd heq (by decide))
  obtain ⟨d₂, hready, hr₂⟩ := h.write_eq d₁ (v := (value >>> 32).setWidth 32) hwrite'
    (fun heq => absurd heq hread') (fun heq => absurd heq (by decide))
  refine ⟨d₂, ?_, by rw [hr₂, hr₁]⟩
  rw [writeMmio64, hlow, hpfn]
  exact hready

/-- The queue is selected, and its greatest size is enough. -/
theorem selectQueue_ok (h : Conforms M mode reg features) (hm : Usable mode) (d : δ) :
    ∃ d₁ d₂ n, writeMmio32 M d VIRTIO_MMIO_QUEUE_SEL 0 = .ok d₁ ∧
      readMmio32 M d₁ VIRTIO_MMIO_QUEUE_NUM_MAX = (n, d₂) ∧ ¬ n < 8 ∧
      reg d₂ = Function.update (reg d) VIRTIO_MMIO_QUEUE_SEL 0 := by
  obtain ⟨d₁, hsel, hr₁⟩ := h.write_eq d (r := VIRTIO_MMIO_QUEUE_SEL) (v := 0)
    (hm.writable _ (by simp)) (fun _ => rfl) (fun heq => absurd heq (by decide))
  obtain ⟨d₂, hmax, hr₂⟩ := h.read_eq d₁ (r := VIRTIO_MMIO_QUEUE_NUM_MAX)
    (by rw [h.identity _ (by simp)]; decide)
  exact ⟨d₁, d₂, _, hsel, hmax, BitVec.not_lt.2 (h.queueNumMax d₁), hr₂.trans hr₁⟩

theorem setQueue_ok (h : Conforms M mode reg features) (hm : Usable mode)
    (hnum : mode VIRTIO_MMIO_QUEUE_NUM ≠ .writeOnly) (d : δ) (vqDesc : Word) :
    ∃ d', setQueue M d vqDesc = .ok d' ∧
      (∀ r ∈ [VIRTIO_MMIO_DRIVER_FEATURES, VIRTIO_MMIO_GUEST_PAGE_SIZE], reg d' r = reg d r) ∧
      reg d' VIRTIO_MMIO_QUEUE_SEL = 0 ∧ reg d' VIRTIO_MMIO_QUEUE_NUM = 8 ∧
      reg d' VIRTIO_MMIO_QUEUE_PFN = (vqDesc / 4096).setWidth 32 ∧
      reg d' VIRTIO_MMIO_STATUS &&& VIRTIO_STATUS_DRIVER_OK.setWidth 32 ≠ 0 := by
  obtain ⟨hread, hwrite⟩ := hm.modes (r := VIRTIO_MMIO_QUEUE_READY) (by simp)
  obtain ⟨hread', hwrite'⟩ := hm.modes (r := VIRTIO_MMIO_STATUS) (by simp)
  obtain ⟨d₁, d₂, n, hsel, hmax, hn, hr₂⟩ := selectQueue_ok h hm d
  obtain ⟨d₃, hsize, hr₃⟩ := h.write_eq d₂ (v := 8) (hm.writable VIRTIO_MMIO_QUEUE_NUM (by simp))
    (fun heq => absurd heq hnum) (fun heq => absurd heq (by decide))
  obtain ⟨d₄, hpfn, hr₄⟩ := writeMmio64_ok h hm d₃ (vqDesc / 4096)
  obtain ⟨d₅, hready, hr₅⟩ := h.write_eq d₄ (v := 1) hwrite (fun heq => absurd heq hread)
    (fun heq => absurd heq (by decide))
  obtain ⟨d₆, hback, hr₆⟩ := h.read_eq d₅ hread
  obtain ⟨d₇, hstatus, hr₇⟩ := h.write_eq d₆ (v := 15) hwrite' (fun heq => absurd heq hread')
    (fun _ => by decide)
  obtain ⟨d₈, hback', hr₈⟩ := h.read_eq d₇ hread
  have hone : reg d₅ VIRTIO_MMIO_QUEUE_READY = 1 := by rw [hr₅, Function.update_self]
  have hone' : reg d₇ VIRTIO_MMIO_QUEUE_READY = 1 := by
    rw [hr₇, Function.update_of_ne (by decide), hr₆, hone]
  rw [hone] at hback
  rw [hone'] at hback'
  have hregs : reg d₈ = Function.update (Function.update (Function.update (Function.update
      (Function.update (Function.update (reg d) VIRTIO_MMIO_QUEUE_SEL 0) VIRTIO_MMIO_QUEUE_NUM 8)
      VIRTIO_MMIO_QUEUE_PFN ((vqDesc / 4096).setWidth 32))
      VIRTIO_MMIO_QUEUE_READY (((vqDesc / 4096) >>> 32).setWidth 32)) VIRTIO_MMIO_QUEUE_READY 1)
      VIRTIO_MMIO_STATUS 15 := by
    rw [hr₈, hr₇, hr₆, hr₅, hr₄, hr₃, hr₂]
  refine ⟨d₈, ?_, fun r hr => ?_, ?_, ?_, ?_, ?_⟩
  · change virtioSetStatus M d₆ (VIRTIO_STATUS_ACKNOWLEDGE ||| VIRTIO_STATUS_DRIVER |||
      VIRTIO_STATUS_FEATURES_OK ||| VIRTIO_STATUS_DRIVER_OK) = _ at hstatus
    simp only [setQueue, panicIf, hsel, hmax, if_neg hn, hsize, hpfn, hready, hback, hstatus,
      hback', bind, Except.bind]
    rfl
  · rw [hregs]
    simp only [List.mem_cons, List.not_mem_nil, or_false] at hr
    rcases hr with rfl | rfl <;> rfl
  · rw [hregs]
    rfl
  · rw [hregs]
    rfl
  · rw [hregs]
    rfl
  · rw [hregs, Function.update_self]
    decide

theorem setQueue_error (h : Conforms M mode reg features) (hm : Usable mode)
    (hnum : mode VIRTIO_MMIO_QUEUE_NUM = .writeOnly) (d : δ) (vqDesc : Word) :
    setQueue M d vqDesc = .error "Error on write_mmio_32\n" := by
  obtain ⟨d₁, d₂, n, hsel, hmax, hn, -⟩ := selectQueue_ok h hm d
  simp only [setQueue, panicIf, hsel, hmax, if_neg hn, h.write_error d₂ hnum (v := 8) (by decide),
    bind, Except.bind]

/-- When the page size and the size of the queue can be read, the device is set up. -/
theorem virtioBlkInit_ok (h : Conforms M mode reg features) (hm : Usable mode)
    (hsize : mode VIRTIO_MMIO_GUEST_PAGE_SIZE ≠ .writeOnly)
    (hnum : mode VIRTIO_MMIO_QUEUE_NUM ≠ .writeOnly) (d : δ) (s : Driver) (vqDesc : Word) :
    ∃ d', virtioBlkInit M d s vqDesc = .ok (d', s.initFreeList 0 VIRTIO_QUEUE_SIZE) ∧
      SetUp (reg d') features vqDesc := by
  obtain ⟨d₁, hcheck, -⟩ := checkDevice_ok h d
  obtain ⟨d₂, hfeatures, hr₂⟩ := setFeatures_ok h hm d₁
  obtain ⟨d₃, hpage, hr₃⟩ := h.write_eq d₂ (r := VIRTIO_MMIO_GUEST_PAGE_SIZE) (v := 4096)
    (hm.writable _ (by simp)) (fun heq => absurd heq hsize) (fun heq => absurd heq (by decide))
  obtain ⟨d₄, hqueue, hkept, hsel, hnumber, hpfn, hstatus⟩ := setQueue_ok h hm hnum d₃ vqDesc
  refine ⟨d₄, ?_, ⟨?_, ?_, hsel, hnumber, hpfn, hstatus⟩⟩
  · simp only [virtioBlkInit, hcheck, hfeatures, hpage, hqueue, bind, Except.bind]
    rfl
  · rw [hkept _ (by simp), hr₃, Function.update_of_ne (by decide), hr₂]
  · rw [hkept _ (by simp), hr₃, Function.update_self]

/-- When one of the two cannot be read, the driver panics. -/
theorem virtioBlkInit_error (h : Conforms M mode reg features) (hm : Usable mode)
    (hwo : mode VIRTIO_MMIO_GUEST_PAGE_SIZE = .writeOnly ∨
      mode VIRTIO_MMIO_QUEUE_NUM = .writeOnly) (d : δ) (s : Driver) (vqDesc : Word) :
    virtioBlkInit M d s vqDesc = .error "Error on write_mmio_32\n" := by
  obtain ⟨d₁, hcheck, -⟩ := checkDevice_ok h d
  obtain ⟨d₂, hfeatures, -⟩ := setFeatures_ok h hm d₁
  by_cases hsize : mode VIRTIO_MMIO_GUEST_PAGE_SIZE = .writeOnly
  · simp only [virtioBlkInit, hcheck, hfeatures, h.write_error d₂ hsize (v := 4096) (by decide),
      bind, Except.bind]
  · obtain ⟨d₃, hpage, -⟩ := h.write_eq d₂ (r := VIRTIO_MMIO_GUEST_PAGE_SIZE) (v := 4096)
      (hm.writable _ (by simp)) (fun heq => absurd heq hsize) (fun heq => absurd heq (by decide))
    simp only [virtioBlkInit, hcheck, hfeatures, hpage,
      setQueue_error h hm (hwo.resolve_left hsize) d₃ vqDesc, bind, Except.bind]

end Whole

theorem usable_access : Usable access := by
  constructor <;> intro r hr <;> simp only [List.mem_cons, List.not_mem_nil, or_false] at hr
  · rcases hr with rfl | rfl | rfl | rfl <;> rfl
  · rcases hr with rfl | rfl | rfl <;> decide

/-- **Initialisation never succeeds on a device with the modes of `MMIO.hpp`.**  Whatever features
it offers and wherever the queue is, the driver does not get to the end. -/
theorem init_never_succeeds {δ : Type} (M : Mmio δ) (reg : δ → Word → BitVec 32)
    (features : BitVec 32) (h : Conforms M access reg features) (d : δ) (s : Driver)
    (vqDesc : Word) :
    ¬ ∃ d' s', virtioBlkInit M d s vqDesc = .ok (d', s') ∧ SetUp (reg d') features vqDesc := by
  rintro ⟨d', s', hok, -⟩
  rw [virtioBlkInit_error h usable_access (Or.inl (by decide)) d s vqDesc] at hok
  cases hok

/-! ### A register file -/

/-- The registers of a device that keeps what is written to it. -/
def fileRegs (features : BitVec 32) (d : Word → BitVec 32) (r : Word) : BitVec 32 :=
  if r = VIRTIO_MMIO_MAGIC_VALUE then 0x74726976
  else if r = VIRTIO_MMIO_VERSION then 1
  else if r = VIRTIO_MMIO_DEVICE_ID then 2
  else if r = VIRTIO_MMIO_VENDOR_ID then 0x554d4551
  else if r = VIRTIO_MMIO_DEVICE_FEATURES then features
  else if r = VIRTIO_MMIO_QUEUE_NUM_MAX then 1024
  else d r

def fileDevice (features : BitVec 32) : Mmio (Word → BitVec 32) where
  read d r := (if access r = .writeOnly then 0 else fileRegs features d r, d)
  write d r v := if access r = .readOnly then d else Function.update d r v

theorem fileDevice_conforms (features : BitVec 32) :
    Conforms (fileDevice features) access (fileRegs features) features where
  magic _ := rfl
  version _ := rfl
  deviceId _ := rfl
  vendorId _ := rfl
  deviceFeatures _ := rfl
  queueNumMax _ := show (8 : BitVec 32) ≤ 1024 by decide
  identity r hr := by
    simp only [List.mem_cons, List.not_mem_nil, or_false] at hr
    rcases hr with rfl | rfl | rfl | rfl | rfl | rfl <;> rfl
  read _ _ := rfl
  read_keeps _ _ := rfl
  write d r v _ := by
    by_cases hr : access r = .readOnly
    · simp [fileDevice, hr]
    · have hid : r ≠ VIRTIO_MMIO_MAGIC_VALUE ∧ r ≠ VIRTIO_MMIO_VERSION ∧
          r ≠ VIRTIO_MMIO_DEVICE_ID ∧ r ≠ VIRTIO_MMIO_VENDOR_ID ∧
          r ≠ VIRTIO_MMIO_DEVICE_FEATURES ∧ r ≠ VIRTIO_MMIO_QUEUE_NUM_MAX := by
        refine ⟨?_, ?_, ?_, ?_, ?_, ?_⟩ <;>
        · rintro rfl
          exact hr (by decide)
      funext r'
      by_cases hrr : r' = r
      · subst hrr
        simp [fileDevice, fileRegs, hr, hid]
      · simp [fileDevice, fileRegs, hr, hrr]
  reset _ := rfl

theorem init_never_succeeds_sample :
    ¬ ∃ d' s', virtioBlkInit (fileDevice 0x31006ed4) (fun _ => 0) (Driver.boot Mem.zero)
      0x80210000 = .ok (d', s') ∧ SetUp (fileRegs 0x31006ed4 d') 0x31006ed4 0x80210000 :=
  init_never_succeeds _ _ _ (fileDevice_conforms 0x31006ed4) _ _ _

/-- The driver panics when it has written the page size. -/
theorem page_size_does_not_read_back :
    Conforms (fileDevice 0x31006ed4) access (fileRegs 0x31006ed4) 0x31006ed4 ∧
      virtioBlkInit (fileDevice 0x31006ed4) (fun _ => 0) (Driver.boot Mem.zero) 0x80210000 =
        .error "Error on write_mmio_32\n" ∧
      ¬ ∃ d' s', virtioBlkInit (fileDevice 0x31006ed4) (fun _ => 0) (Driver.boot Mem.zero)
        0x80210000 = .ok (d', s') ∧ SetUp (fileRegs 0x31006ed4 d') 0x31006ed4 0x80210000 := by
  have herror := virtioBlkInit_error (fileDevice_conforms 0x31006ed4) usable_access
    (Or.inl (by decide)) (fun _ => 0) (Driver.boot Mem.zero) 0x80210000
  refine ⟨fileDevice_conforms _, herror, ?_⟩
  rintro ⟨d', s', hok, -⟩
  rw [herror] at hok
  cases hok

end HxcOS
