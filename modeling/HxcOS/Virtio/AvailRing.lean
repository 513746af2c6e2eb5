import HxcOS.Lib.Ring
import HxcOS.Virtio.Descriptors

/-!
# The available ring

`virtio_submit_request` publishes a head in two steps, the store into the ring and the increment of
`idx`.  The device has a 16-bit counter of its own; while it differs from `idx` the device reads the
ring at its counter.  The steps come in any order, and both counters wrap around.

While at most `VIRTIO_QUEUE_SIZE` heads are in the ring and not read, the device reads exactly what is
published, in order (`avail_ring_fifo`).  The head that is stored and not yet published is among these:
without it the bound is too weak, since its store can hit the head that is to be read next
(`ring_write_overwrites_unread`).
-/

namespace HxcOS

open ByteMem OpSystem Ring

inductive AvailOp
  | ringWrite (head : BitVec 16)
  | idxIncrement
  | deviceRead

/-- The ring, the device's counter, and what has happened so far: `stored` is a head whose `idx`
increment is still to come. -/
structure AvailRun where
  avail : VirtqAvail
  seen : BitVec 16
  stored : Option (BitVec 16)
  published : List (BitVec 16)
  read : List (BitVec 16)

/-- The device's counter starts equal to `idx`. -/
def AvailRun.start (a : VirtqAvail) : AvailRun := ⟨a, a.idx, none, [], []⟩

/-- At most `VIRTIO_QUEUE_SIZE` heads are unread, where a head counts from its ring write on. -/
def availSystem : System AvailRun AvailOp Unit where
  step s
    | .ringWrite head => ((), { s with avail := s.avail.writeRing head, stored := some head })
    | .idxIncrement =>
        ((), { s with
          avail := s.avail.incIdx
          stored := none
          published := s.published ++ s.stored.toList })
    | .deviceRead =>
        ((), { s with
          seen := s.seen + 1
          read := s.read ++ [s.avail.ring (s.seen.toNat % VIRTIO_QUEUE_SIZE)] })
  ok s
    | .ringWrite _ => s.stored = none ∧ s.published.length + 1 ≤ s.read.length + VIRTIO_QUEUE_SIZE
    | .idxIncrement => s.stored ≠ none
    | .deviceRead => s.seen ≠ s.avail.idx

/-- What a successful `virtio_submit_request` does to the ring are the two steps. -/
theorem avail_of_enqueue {s s' : Driver} {l : Layout} {sp : Word} {req : DiskRequest}
    {head : BitVec 16} (h : s.enqueue l sp req = .ok (head, s')) {r : AvailRun}
    (hr : r.avail = s.avail) :
    (availSystem.final r [.ringWrite head, .idxIncrement]).avail = s'.avail := by
  obtain ⟨-, -, -, -, -, -, havail⟩ := Driver.enqueue_ok h
  rw [havail, ← hr]
  rfl

/-- The ring between the driver and the device is a queue. -/
def AvailInv (start : BitVec 16) (s : AvailRun) : Prop :=
  Fifo VIRTIO_QUEUE_SIZE start s.avail.ring s.avail.idx s.seen
    (s.published ++ s.stored.toList) s.published.length s.read

namespace AvailInv

variable {start : BitVec 16} {s : AvailRun}

theorem init (a : VirtqAvail) : AvailInv a.idx (AvailRun.start a) := Fifo.init _ _ _

/-- Each of the three steps keeps the queue. -/
theorem step (h : AvailInv start s) {o : AvailOp} (hok : availSystem.ok s o) :
    AvailInv start (availSystem.step s o).2 := by
  have hdvd : VIRTIO_QUEUE_SIZE ∣ 2 ^ 16 := by decide
  have hsize : VIRTIO_QUEUE_SIZE < 2 ^ 16 := by decide
  cases o with
  | ringWrite head =>
    obtain ⟨hnone, hroom⟩ := hok
    rw [AvailInv, hnone, Option.toList_none, List.append_nil] at h
    exact h.write hdvd rfl hroom head
  | idxIncrement =>
    obtain ⟨head, hhead⟩ := Option.ne_none_iff_exists'.1 hok
    rw [AvailInv, hhead] at h
    have hnext := h.publish (by simp)
    simpa [AvailInv, availSystem, hhead, VirtqAvail.incIdx] using hnext
  | deviceRead => exact Fifo.take h hdvd hsize hok

/-- What has been read is the first part of what has been published. -/
theorem read_prefix (h : AvailInv start s) : s.read <+: s.published := by
  have hprefix := Fifo.read_prefix h
  rwa [List.take_left' rfl] at hprefix

theorem seen_eq_idx_iff (h : AvailInv start s) :
    s.seen = s.avail.idx ↔ s.read = s.published := by
  rw [Fifo.seen_eq_idx_iff h (by decide)]
  exact ⟨fun hlength => h.read_prefix.eq_of_length hlength, fun heq => by rw [heq]⟩

end AvailInv

/-- **The available ring is a lossless queue.**  After any interleaving of publications and device
reads the heads that the device has read are a prefix of those published, and the whole of them
whenever its counter equals `idx`. -/
theorem avail_ring_fifo (a : VirtqAvail) {ops : List AvailOp}
    (hok : availSystem.Admissible (AvailRun.start a) ops) :
    let s := availSystem.final (AvailRun.start a) ops
    s.read <+: s.published ∧ (s.seen = s.avail.idx ↔ s.read = s.published) := by
  intro s
  have h : AvailInv a.idx s :=
    System.run_inv (fun _ _ h hok => AvailInv.step h hok) (AvailInv.init a) hok
  exact ⟨h.read_prefix, h.seen_eq_idx_iff⟩

/-- Two heads across the wrap of `idx`, the second one stored and not yet published when the device
reads the first. -/
theorem avail_ring_fifo_sample :
    let s := availSystem.final (AvailRun.start ⟨0, 0xFFFF, fun _ => 0⟩)
      [.ringWrite 3, .idxIncrement, .ringWrite 6, .deviceRead, .idxIncrement]
    s.read <+: s.published ∧ (s.seen = s.avail.idx ↔ s.read = s.published) :=
  avail_ring_fifo _ ⟨⟨rfl, by decide⟩, Option.some_ne_none _, ⟨rfl, by decide⟩,
    show (0xFFFF : BitVec 16) ≠ 0xFFFF + 1 by decide, Option.some_ne_none _, trivial⟩

/-- The same steps, when a head counts as unread from its publication on. -/
def lateSystem : System AvailRun AvailOp Unit where
  step := availSystem.step
  ok s
    | .ringWrite _ => s.stored = none
    | .idxIncrement =>
        s.stored ≠ none ∧ s.published.length + 1 ≤ s.read.length + VIRTIO_QUEUE_SIZE
    | .deviceRead => s.seen ≠ s.avail.idx

instance (s : AvailRun) : ∀ o, Decidable (lateSystem.ok s o)
  | .ringWrite _ => inferInstanceAs (Decidable (s.stored = none))
  | .idxIncrement => inferInstanceAs (Decidable
      (s.stored ≠ none ∧ s.published.length + 1 ≤ s.read.length + VIRTIO_QUEUE_SIZE))
  | .deviceRead => inferInstanceAs (Decidable (s.seen ≠ s.avail.idx))

/-- Eight heads are published, and the head `5` is stored before the device reads the first one. -/
def lateRun : List AvailOp :=
  ([0, 1, 2, 3, 4, 5, 6, 7].flatMap fun head => [.ringWrite head, .idxIncrement]) ++
    [.ringWrite 5, .deviceRead]

/-- No more than eight published heads are unread at any time, and the device reads `5` where `0` was
published. -/
theorem ring_write_overwrites_unread :
    let s := lateSystem.final (AvailRun.start ⟨0, 0, fun _ => 0⟩) lateRun
    lateSystem.Admissible (AvailRun.start ⟨0, 0, fun _ => 0⟩) lateRun ∧
      s.published = [0, 1, 2, 3, 4, 5, 6, 7] ∧ s.read = [5] ∧ ¬ s.read <+: s.published := by
  decide +kernel

end HxcOS
