import HxcOS.Virtio.Descriptors

/-!
# What the device sees of a request

`deviceWalk` reads a descriptor chain as a device does: it follows `next` while `VRING_DESC_F_NEXT`
is set.  `DeviceSees` is what a request should look like from there: a header, the data, and a
status byte.

`virtio_submit_request` sets the flag on the first descriptor only, so that the device meets two
descriptors and never the third (`deviceWalk_submitted`), whatever the request, the state of the
driver and the values left in the table.
-/

namespace HxcOS

open ByteMem

/-- The descriptors from index `i` on; `none` when the chain does not end within `n` of them. -/
def deviceWalk (desc : ℕ → VirtqDesc) : ℕ → ℕ → Option (List VirtqDesc)
  | 0, _ => none
  | n + 1, i =>
      if (desc i).hasNext then (deviceWalk desc n (desc i).next.toNat).map (desc i :: ·)
      else some [desc i]

/-- The head in the slot of the available ring that was filled last. -/
def Driver.publishedHead (s : Driver) : BitVec 16 :=
  s.avail.ring ((s.avail.idx - 1).toNat % VIRTIO_QUEUE_SIZE)

/-- A header of 16 bytes that the device reads. -/
def IsHeader (m : Mem) (req : DiskRequest) (d : VirtqDesc) : Prop :=
  d.len = 16 ∧ d.isWrite = false ∧ m.load32 d.addr = (if req.doWrite ≠ 0 then 1 else 0) ∧
    m.load32 (d.addr + 4) = 0 ∧ m.load64 (d.addr + 8) = 8 * req.blkno

/-- The 4096 bytes at the buffer, which the device writes when the request is a read. -/
def IsData (req : DiskRequest) (d : VirtqDesc) : Prop :=
  d.addr = req.buffer ∧ d.len = 4096 ∧ (d.isWrite = true ↔ req.doWrite = 0)

/-- The status byte of the request, which the device writes. -/
def IsStatus (l : Layout) (head : BitVec 16) (d : VirtqDesc) : Prop :=
  d.addr = l.statusAddr head.toNat ∧ d.len = 1 ∧ d.isWrite = true

/-- The device meets exactly the header, the data and the status byte of the request. -/
def DeviceSees (l : Layout) (s : Driver) (req : DiskRequest) : Prop :=
  ∃ n d₀ d₁ d₂, deviceWalk s.desc n s.publishedHead.toNat = some [d₀, d₁, d₂] ∧
    IsHeader s.mem req d₀ ∧ IsData req d₁ ∧ IsStatus l s.publishedHead d₂

section Submitted

variable {s s' : Driver} {l : Layout} {sp : Word} {req : DiskRequest} {head : BitVec 16}

theorem publishedHead_of_enqueue (h : s.enqueue l sp req = .ok (head, s')) :
    s'.publishedHead = head := by
  obtain ⟨-, -, -, -, -, -, havail⟩ := Driver.enqueue_ok h
  rw [Driver.publishedHead, havail]
  show Function.update s.avail.ring (s.avail.idx.toNat % VIRTIO_QUEUE_SIZE) head
    ((s.avail.idx + 1 - 1).toNat % VIRTIO_QUEUE_SIZE) = head
  rw [BitVec.add_sub_cancel, Function.update_self]

/-- The device's walk from a head that was just published: two descriptors. -/
theorem deviceWalk_submitted (h : s.enqueue l sp req = .ok (head, s')) (n : ℕ) :
    deviceWalk s'.desc (n + 2) head.toNat =
      some [s'.desc head.toNat, s'.desc (head.toNat + 1)] := by
  obtain ⟨-, hne, -, -, hdesc, -, -⟩ := Driver.enqueue_ok h
  have hfirst : s'.desc head.toNat = _ :=
    hdesc ▸ s.writeDescs_head l head (l.hdrAddr sp) req
  have hsecond : s'.desc (head.toNat + 1) = _ :=
    hdesc ▸ s.writeDescs_data l head (l.hdrAddr sp) req
  have hlt : head.toNat + 1 < 2 ^ 16 := by
    have := head.isLt
    have hne' : head.toNat ≠ 65535 := fun heq => hne (BitVec.eq_of_toNat_eq heq)
    omega
  have hnext : (s'.desc head.toNat).hasNext = true := by
    rw [hfirst]
    show (VRING_DESC_F_NEXT &&& VRING_DESC_F_NEXT != 0) = true
    decide
  have hlink : (s'.desc head.toNat).next.toNat = head.toNat + 1 := by
    rw [hfirst]
    exact (BitVec.toNat_ofNat _ _).trans (Nat.mod_eq_of_lt hlt)
  have hlast : (s'.desc (head.toNat + 1)).hasNext = false := by
    rw [hsecond, VirtqDesc.hasNext]
    dsimp only
    split_ifs <;> decide
  rw [deviceWalk, if_pos hnext, hlink, deviceWalk, if_neg (by rw [hlast]; simp)]
  rfl

theorem not_deviceSees_of_enqueue (h : s.enqueue l sp req = .ok (head, s')) :
    ¬ DeviceSees l s' req := by
  rintro ⟨n, d₀, d₁, d₂, hwalk, -⟩
  rw [publishedHead_of_enqueue h] at hwalk
  have hfull := fun n => deviceWalk_submitted h n
  -- a walk with too little fuel finds nothing, and any other finds two descriptors
  cases n with
  | zero => cases hwalk
  | succ n =>
    cases n with
    | zero =>
      have htwo := hfull 0
      rw [deviceWalk] at hwalk htwo
      split_ifs at hwalk htwo
      · simp [deviceWalk] at hwalk
      · simp at hwalk
    | succ n =>
      rw [hfull n] at hwalk
      simpa using congrArg (Option.map List.length) hwalk

end Submitted

/-- **The device never sees a whole request.**  After a successful `virtio_submit_request` in any
state the chain from the published head does not consist of a header, the data and a status byte:
it ends after two descriptors. -/
theorem device_never_sees_request {δ : Type} (M : Mmio δ) (d d' : δ) (s s' : Driver) (l : Layout)
    (sp : Word) (req : DiskRequest) (head : BitVec 16)
    (h : s.virtioSubmitRequest M d l sp req = .ok (d', head, s')) : ¬ DeviceSees l s' req :=
  not_deviceSees_of_enqueue (virtioSubmitRequest_ok h)

theorem device_never_sees_request_sample :
    ∃ s', (Driver.init Mem.zero).virtioSubmitRequest silent () sampleLayout 0x80400000 readOne =
        .ok ((), 0, s') ∧ ¬ DeviceSees sampleLayout s' readOne := by
  obtain ⟨s', hok⟩ := (SubmitInv.init () Mem.zero).submit_silent (by omega) sampleLayout
    0x80400000 readOne
  exact ⟨s', hok, device_never_sees_request silent () () _ s' sampleLayout _ readOne _ hok⟩

/-- The first request after initialisation, a read of block 1: the device meets its header and its
data, and does not see a whole request. -/
theorem first_request_ends_early :
    ∃ s', (Driver.init Mem.zero).virtioSubmitRequest silent () sampleLayout 0x80400000 readOne =
        .ok ((), 0, s') ∧
      deviceWalk s'.desc 8 0 = some [s'.desc 0, s'.desc 1] ∧ ¬ DeviceSees sampleLayout s' readOne := by
  obtain ⟨s', hok⟩ := (SubmitInv.init () Mem.zero).submit_silent (by omega) sampleLayout
    0x80400000 readOne
  have hq := virtioSubmitRequest_ok hok
  exact ⟨s', hok, deviceWalk_submitted hq 6, not_deviceSees_of_enqueue hq⟩

end HxcOS
