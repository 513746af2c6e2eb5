import HxcOS.Virtio.DeviceWalk
import HxcOS.Virtio.Lifetime

/-!
# The request header on the stack

The header of a request is a local variable of `virtio_submit_request`, which returns before the
device acts.  Here the driver submits requests from any stack depth and completes them, the stack is
used for other things, and the device fetches the headers of published requests, in any order.

A fetched header is that of the request as long as nobody stores into the slot between publication
and fetch, or into the descriptor that points to it (`headers_intact`).  A second submission from the
same depth stores into the slot.  The descriptor is safe while no request is completed
(`descKept_run`); afterwards a submission may program descriptors that it has not allocated.
-/

namespace HxcOS

open ByteMem OpSystem

/-- A request that the device has not fetched, with the stack pointer of the caller. -/
structure Published where
  head : BitVec 16
  sp : Word
  req : DiskRequest

/-- The three fields of `struct virtio_blk_req` at an address. -/
def headerAt (m : Mem) (a : Word) : BitVec 32 × BitVec 32 × Word :=
  (m.load32 a, m.load32 (a + 4), m.load64 (a + 8))

/-- The fields that belong to a request. -/
def headerOf (req : DiskRequest) : BitVec 32 × BitVec 32 × Word :=
  (Driver.reqType req, 0, Driver.sector req)

inductive HeaderOp
  | submit (sp : Word) (req : DiskRequest)
  | complete (head : BitVec 16)
  | stackWrite (sp a : Word) (v : Byte)
  | fetch (head : BitVec 16)

structure HeaderRun (δ : Type) where
  run : VirtioRun δ
  pending : List Published

/-- Submissions are successful, the chains freed are those of requests in flight, the stack is used
below the stack pointer, and the device fetches what has been published. -/
def headerSystem {δ : Type} (M : Mmio δ) (l : Layout) :
    System (HeaderRun δ) HeaderOp (Option (BitVec 32 × BitVec 32 × Word)) where
  step s
    | .submit sp req =>
        match s.run.driver.virtioSubmitRequest M s.run.device l sp req with
        | .ok (d, head, drv) =>
            (none, ⟨⟨d, drv, head :: s.run.inFlight⟩, ⟨head, sp, req⟩ :: s.pending⟩)
        | .error _ => (none, s)
    | .complete head =>
        match s.run.driver.freeDescChain head with
        | some drv =>
            (none, { s with run.driver := drv, run.inFlight := s.run.inFlight.erase head })
        | none => (none, s)
    | .stackWrite _ a v => (none, { s with run.driver.mem := s.run.driver.mem.store8 a v })
    | .fetch head =>
        (some (headerAt s.run.driver.mem (s.run.driver.desc head.toNat).addr),
          { s with pending := s.pending.filter (·.head ≠ head) })
  ok s
    | .submit sp req => ∃ r, s.run.driver.virtioSubmitRequest M s.run.device l sp req = .ok r
    | .complete head => head ∈ s.run.inFlight
    | .stackWrite sp a _ => a.toNat < sp.toNat
    | .fetch head => ∃ e ∈ s.pending, e.head = head

/-- The step stores into no slot of a header that the device has not fetched. -/
def SlotKept {δ : Type} (l : Layout) (s : HeaderRun δ) : HeaderOp → Prop
  | .submit sp _ => ∀ e ∈ s.pending, Disjoint (span (l.hdrAddr e.sp) 16) (span (l.hdrAddr sp) 16)
  | .stackWrite _ a _ => ∀ e ∈ s.pending, a ∉ span (l.hdrAddr e.sp) 16
  | .complete _ | .fetch _ => True

/-- The step does not program the descriptor that points to such a header. -/
def DescKept {δ : Type} (s : HeaderRun δ) : HeaderOp → Prop
  | .submit _ _ => ∀ e ∈ s.pending, e.head.toNat ∉ programmed s.run.driver.freeDescHead
  | .complete _ | .stackWrite _ _ _ | .fetch _ => True

/-- Stores outside a slot leave the header in it alone. -/
theorem headerAt_of_wrote {S : Set Word} {m m' : Mem} (h : Wrote S m m') {a : Word}
    (ha : Disjoint (span a 16) S) : headerAt m' a = headerAt m a := by
  have htype : span a 4 ⊆ span a 16 := span_mono (by omega)
  have hreserved : span (a + 4) 4 ⊆ span a 16 := span_offset_subset (k := 4) (by omega) (by omega)
  have hsector : span (a + 8) 8 ⊆ span a 16 := span_offset_subset (k := 8) (by omega) (by omega)
  simp only [headerAt, h.load32_eq (ha.mono_left htype), h.load32_eq (ha.mono_left hreserved),
    h.load64_eq (ha.mono_left hsector)]

/-- The header that a submission leaves in its slot. -/
theorem headerAt_writeHdr (m : Mem) (a : Word) (req : DiskRequest) :
    headerAt (Driver.writeHdr m a req) a = headerOf req := by
  obtain ⟨htype, hreserved, hsector⟩ := Driver.writeHdr_loads m a req
  rw [headerAt, headerOf, htype, hreserved, hsector]

/-- The header of the request `e` is where its descriptor says, and has the fields of `e`. -/
structure Intact {δ : Type} (l : Layout) (s : HeaderRun δ) (e : Published) : Prop where
  addr : (s.run.driver.desc e.head.toNat).addr = l.hdrAddr e.sp
  header : headerAt s.run.driver.mem (l.hdrAddr e.sp) = headerOf e.req

/-- Every header that is not yet fetched is intact. -/
def HeaderInv {δ : Type} (l : Layout) (s : HeaderRun δ) : Prop := ∀ e ∈ s.pending, Intact l s e

namespace HeaderInv

variable {δ : Type} {l : Layout} {s : HeaderRun δ}

theorem init (l : Layout) (d : δ) (m : Mem) :
    HeaderInv l (⟨⟨d, Driver.init m, []⟩, []⟩ : HeaderRun δ) := by simp [HeaderInv]

/-- The device reads the right header. -/
theorem fetch (h : HeaderInv l s) {e : Published} (he : e ∈ s.pending) :
    headerAt s.run.driver.mem (s.run.driver.desc e.head.toNat).addr = headerOf e.req := by
  obtain ⟨haddr, hheader⟩ := h e he
  rw [haddr, hheader]

theorem submit (h : HeaderInv l s) {sp : Word} {req : DiskRequest} {head : BitVec 16}
    {drv : Driver} (hok : s.run.driver.enqueue l sp req = .ok (head, drv)) (d : δ)
    (hslot : SlotKept l s (.submit sp req)) (hdescKept : DescKept s (.submit sp req)) :
    HeaderInv l ⟨⟨d, drv, head :: s.run.inFlight⟩, ⟨head, sp, req⟩ :: s.pending⟩ := by
  obtain ⟨hhead, -, -, -, hdesc, hmem, -⟩ := Driver.enqueue_ok hok
  intro e he
  rcases List.mem_cons.1 he with rfl | he
  · refine ⟨?_, ?_⟩
    · rw [hdesc, Driver.writeDescs_head]
    · rw [hmem]
      exact headerAt_writeHdr _ _ _
  · -- an earlier request: its descriptor and its slot are left alone
    obtain ⟨haddr, hheader⟩ := h e he
    have hother := hdescKept e he
    rw [← hhead] at hother
    simp only [programmed, List.mem_cons, List.not_mem_nil, or_false, not_or] at hother
    refine ⟨?_, ?_⟩
    · rw [hdesc, Driver.writeDescs_of_ne _ _ _ _ _ hother.1 hother.2.1 hother.2.2, haddr]
    · rw [hmem, headerAt_of_wrote (Driver.writeHdr_wrote _ _ _) (hslot e he), hheader]

/-- Freeing a chain changes links only. -/
theorem complete (h : HeaderInv l s) {head : BitVec 16} {drv : Driver}
    (hok : s.run.driver.freeDescChain head = some drv) (inFlight : List (BitVec 16)) :
    HeaderInv l { s with run.driver := drv, run.inFlight := inFlight } := by
  obtain ⟨last, -, rfl⟩ := Option.map_eq_some_iff.1 hok
  intro e he
  obtain ⟨haddr, hheader⟩ := h e he
  refine ⟨?_, hheader⟩
  rw [← haddr]
  by_cases hlast : e.head.toNat = last.toNat <;> simp [Driver.setDesc, hlast]

theorem stackWrite (h : HeaderInv l s) {sp a : Word} {v : Byte}
    (hkept : SlotKept l s (.stackWrite sp a v)) :
    HeaderInv l { s with run.driver.mem := s.run.driver.mem.store8 a v } := by
  intro e he
  obtain ⟨haddr, hheader⟩ := h e he
  refine ⟨haddr, ?_⟩
  rw [← hheader]
  exact headerAt_of_wrote (Wrote.store8 (Set.mem_singleton a) _ v)
    (Set.disjoint_singleton_right.2 (hkept e he))

/-- Every step that stores into no slot and no descriptor keeps the headers intact. -/
theorem step (h : HeaderInv l s) (M : Mmio δ) {o : HeaderOp} (hok : (headerSystem M l).ok s o)
    (hslot : SlotKept l s o) (hdesc : DescKept s o) :
    HeaderInv l ((headerSystem M l).step s o).2 := by
  cases o with
  | submit sp req =>
    obtain ⟨⟨d, head, drv⟩, hsubmit⟩ := hok
    simp only [headerSystem, hsubmit]
    exact h.submit (virtioSubmitRequest_ok hsubmit) d hslot hdesc
  | complete head =>
    simp only [headerSystem]
    cases hfree : s.run.driver.freeDescChain head with
    | none => exact h
    | some drv => exact h.complete hfree _
  | stackWrite sp a v => exact h.stackWrite hslot
  | fetch head =>
    intro e he
    obtain ⟨haddr, hheader⟩ := h e (List.mem_filter.1 he).1
    exact ⟨haddr, hheader⟩

end HeaderInv

/-- After `n` submissions and no completion, the heads that the device has not fetched are among the
first `n`. -/
structure QueuedInv {δ : Type} (n : ℕ) (s : HeaderRun δ) : Prop where
  submitted : SubmitInv n s.run
  head : ∀ e ∈ s.pending, ∃ k < n, e.head.toNat = 3 * k

/-- While no request is completed, a submission programs new descriptors. -/
theorem QueuedInv.step {δ : Type} {M : Mmio δ} {l : Layout} {n : ℕ} {s : HeaderRun δ}
    (h : QueuedInv n s) {o : HeaderOp} (ho : ∀ head, o ≠ .complete head)
    (hok : (headerSystem M l).ok s o) :
    DescKept s o ∧ ∃ n', QueuedInv n' ((headerSystem M l).step s o).2 := by
  cases o with
  | submit sp req =>
    obtain ⟨⟨d, head, drv⟩, hsubmit⟩ := hok
    have henqueue := virtioSubmitRequest_ok hsubmit
    obtain ⟨hn, hhead, hnext⟩ := h.submitted.enqueue henqueue d
    have hnat : head.toNat = 3 * n := by
      rw [hhead, BitVec.toNat_ofNat]
      omega
    constructor
    · intro e he
      obtain ⟨k, hk, heq⟩ := h.head e he
      rw [← (Driver.enqueue_ok henqueue).1, programmed, hnat, heq]
      simp only [List.mem_cons, List.not_mem_nil, or_false]
      omega
    · refine ⟨n + 1, ?_⟩
      simp only [headerSystem, hsubmit]
      refine ⟨hnext, List.forall_mem_cons.2 ⟨⟨n, by omega, hnat⟩, fun e he => ?_⟩⟩
      obtain ⟨k, hk, heq⟩ := h.head e he
      exact ⟨k, by omega, heq⟩
  | complete head => exact absurd rfl (ho head)
  | stackWrite sp a v =>
    obtain ⟨⟨hle, hfree, hflight, hlinks⟩, hhead⟩ := h
    exact ⟨trivial, n, ⟨hle, hfree, hflight, hlinks⟩, hhead⟩
  | fetch head =>
    exact ⟨trivial, n, h.submitted, fun e he => h.head e (List.mem_filter.1 he).1⟩

theorem descKept_run {δ : Type} (M : Mmio δ) (l : Layout) (d : δ) (m : Mem) {ops : List HeaderOp}
    (hnone : ∀ head, HeaderOp.complete head ∉ ops)
    (hok : (headerSystem M l).Admissible ⟨⟨d, Driver.init m, []⟩, []⟩ ops) :
    ((headerSystem M l).restrict DescKept).Admissible ⟨⟨d, Driver.init m, []⟩, []⟩ ops := by
  refine System.admissible_restrict_of_inv _ (I := fun s => ∃ n, QueuedInv n s) ?_
    ⟨0, SubmitInv.init d m, by simp⟩ hok
  rintro s o ho ⟨n, h⟩ hok
  exact h.step (fun head heq => hnone head (heq ▸ ho)) hok

/-- **Headers stay intact while nobody stores into their slots.**  In every run in which no
submission and no other use of the stack stores into the slot of a published header that the device
has not fetched, and no submission after a completion programs the descriptor of one, each fetch
reads the fields of the request that published the head. -/
theorem headers_intact {δ : Type} (M : Mmio δ) (l : Layout) (d : δ) (m : Mem)
    {ops : List HeaderOp}
    (hok : ((headerSystem M l).restrict (SlotKept l)).Admissible ⟨⟨d, Driver.init m, []⟩, []⟩ ops)
    (hdesc : (∀ head, HeaderOp.complete head ∉ ops) ∨
      ((headerSystem M l).restrict DescKept).Admissible ⟨⟨d, Driver.init m, []⟩, []⟩ ops)
    {pre post : List HeaderOp} {head : BitVec 16} (hops : ops = pre ++ .fetch head :: post) :
    let s := (headerSystem M l).final ⟨⟨d, Driver.init m, []⟩, []⟩ pre
    ∀ e ∈ s.pending, e.head = head →
      ((headerSystem M l).step s (.fetch head)).1 = some (headerOf e.req) := by
  intro s e he hhead
  have hboth := System.admissible_restrict_and _ hok
    (hdesc.elim (fun hnone => descKept_run M l d m hnone (System.admissible_of_restrict _ hok)) id)
  rw [hops] at hboth
  have h : HeaderInv l s := by
    have hrun := System.run_inv
      (S := (headerSystem M l).restrict fun s o => SlotKept l s o ∧ DescKept s o)
      (I := HeaderInv l) (fun _ _ h hok => h.step M hok.1 hok.2.1 hok.2.2) (HeaderInv.init l d m)
      ((System.admissible_append _ _ _ _).1 hboth).1
    rwa [System.final_restrict] at hrun
  rw [← hhead]
  exact congrArg some (h.fetch he)

/-! ### Requests from one depth -/

/-- A read of block 2. -/
def readTwo : DiskRequest := ⟨0, 2, 0x80301000, 0⟩

section Silent

variable {drv : Driver} {inFlight : List (BitVec 16)} {v v' : QueueView} {head : BitVec 16}

/-- With three free descriptors a submission succeeds. -/
theorem headerSystem_submit (hview : VirtioRun.view (⟨(), drv, inFlight⟩ : VirtioRun Unit) = v)
    (hv : v.submit = some v') (hhead : v.head = head) (pending : List Published) (sp : Word)
    (req : DiskRequest) :
    ∃ drv', drv.enqueue sampleLayout sp req = .ok (head, drv') ∧
      (headerSystem silent sampleLayout).ok ⟨⟨(), drv, inFlight⟩, pending⟩ (.submit sp req) ∧
      (headerSystem silent sampleLayout).step ⟨⟨(), drv, inFlight⟩, pending⟩ (.submit sp req) =
        (none, ⟨⟨(), drv', head :: inFlight⟩, ⟨head, sp, req⟩ :: pending⟩) ∧
      VirtioRun.view (⟨(), drv', head :: inFlight⟩ : VirtioRun Unit) = v' := by
  subst hview
  obtain ⟨⟨⟨d, head', drv'⟩, hsubmit⟩, hview⟩ := VirtioRun.submit_of_view hv sampleLayout sp req
  have henqueue := virtioSubmitRequest_ok hsubmit
  obtain rfl : head' = head := (Driver.enqueue_ok henqueue).1.trans hhead
  simp only [virtioSystem, hsubmit] at hview
  exact ⟨drv', henqueue, ⟨_, hsubmit⟩, by simp only [headerSystem, hsubmit], hview⟩

theorem headerSystem_complete (hview : VirtioRun.view (⟨(), drv, inFlight⟩ : VirtioRun Unit) = v)
    (hv : v.complete head = some v') (pending : List Published) :
    ∃ drv', (headerSystem silent sampleLayout).step ⟨⟨(), drv, inFlight⟩, pending⟩
        (.complete head) = (none, ⟨⟨(), drv', inFlight.erase head⟩, pending⟩) ∧
      VirtioRun.view (⟨(), drv', inFlight.erase head⟩ : VirtioRun Unit) = v' := by
  subst hview
  obtain ⟨drv', hdrv, rfl⟩ := VirtioRun.complete_view hv
  exact ⟨drv', by simp only [headerSystem, hdrv], rfl⟩

end Silent

/-- A request is read by the device and completed while a second one waits, and its slot and its
descriptors are used for a third. -/
def threeRequests : List HeaderOp :=
  [.submit 0x80400000 readOne, .submit 0x80500000 readTwo, .fetch 0, .complete 0,
    .submit 0x80400000 readTwo]

/-- The queue in this run. -/
theorem threeRequests_view : ∃ v₁ v₂ v₃ v₄, QueueView.init.submit = some v₁ ∧ v₁.head = 3 ∧
    v₁.submit = some v₂ ∧ v₂.complete 0 = some v₃ ∧ v₃.head = 0 ∧ v₃.submit = some v₄ :=
  ⟨_, _, _, _, rfl, rfl, rfl, rfl, rfl, rfl⟩

theorem slots_disjoint : Disjoint (span (sampleLayout.hdrAddr 0x80400000) 16)
    (span (sampleLayout.hdrAddr 0x80500000) 16) :=
  span_disjoint_of_le (by decide) (by decide)

/-- The run keeps the slots and the descriptors, and the third request waits in the end. -/
theorem threeRequests_kept {drv : Driver}
    (hview : VirtioRun.view (⟨(), drv, []⟩ : VirtioRun Unit) = QueueView.init) :
    (((headerSystem silent sampleLayout).restrict (SlotKept sampleLayout)).Admissible
        ⟨⟨(), drv, []⟩, []⟩ (threeRequests ++ [.fetch 0]) ∧
      ((headerSystem silent sampleLayout).restrict DescKept).Admissible
        ⟨⟨(), drv, []⟩, []⟩ (threeRequests ++ [.fetch 0])) ∧
      ⟨0, 0x80400000, readTwo⟩ ∈
        ((headerSystem silent sampleLayout).final ⟨⟨(), drv, []⟩, []⟩ threeRequests).pending := by
  obtain ⟨v₁, v₂, v₃, v₄, hv₁, hhead₁, hv₂, hv₃, hhead₃, hv₄⟩ := threeRequests_view
  obtain ⟨drv₁, -, hok₁, hstep₁, hview₁⟩ := headerSystem_submit hview hv₁ (rfl : _ = (0 : BitVec 16)) []
    0x80400000 readOne
  obtain ⟨drv₂, -, hok₂, hstep₂, hview₂⟩ := headerSystem_submit hview₁ hv₂ hhead₁
    [⟨0, 0x80400000, readOne⟩] 0x80500000 readTwo
  have hfetch : (headerSystem silent sampleLayout).step ⟨⟨(), drv₂, [3, 0]⟩,
      [⟨3, 0x80500000, readTwo⟩, ⟨0, 0x80400000, readOne⟩]⟩ (.fetch 0) =
        (some (headerAt drv₂.mem (drv₂.desc 0).addr),
          ⟨⟨(), drv₂, [3, 0]⟩, [⟨3, 0x80500000, readTwo⟩]⟩) := rfl
  obtain ⟨drv₃, hstep₃, hview₃⟩ := headerSystem_complete hview₂ hv₃ [⟨3, 0x80500000, readTwo⟩]
  obtain ⟨drv₄, -, hok₄, hstep₄, -⟩ := headerSystem_submit hview₃ hv₄ hhead₃
    [⟨3, 0x80500000, readTwo⟩] 0x80400000 readTwo
  have hfree₁ : drv₁.freeDescHead = 3 := (congrArg QueueView.head hview₁).trans hhead₁
  have hfree₃ : drv₃.freeDescHead = 0 := (congrArg QueueView.head hview₃).trans hhead₃
  simp only [threeRequests, List.cons_append, List.nil_append, System.admissible_cons,
    System.restrict_step, System.final_cons, hstep₁, hstep₂, hfetch, hstep₃, hstep₄]
  have hfetched : ∃ e ∈ [⟨3, 0x80500000, readTwo⟩, ⟨0, 0x80400000, readOne⟩], Published.head e = 0 :=
    ⟨_, List.mem_cons_of_mem _ (List.mem_singleton_self _), rfl⟩
  have hcompleted : (0 : BitVec 16) ∈ ([3, 0] : List (BitVec 16)) := by decide
  have hwaiting : ∃ e ∈ [⟨0, 0x80400000, readTwo⟩, ⟨3, 0x80500000, readTwo⟩], Published.head e = 0 :=
    ⟨_, List.mem_cons_self, rfl⟩
  refine ⟨⟨⟨⟨hok₁, ?_⟩, ⟨hok₂, ?_⟩, ⟨hfetched, trivial⟩, ⟨hcompleted, trivial⟩, ⟨hok₄, ?_⟩,
    ⟨hwaiting, trivial⟩, trivial⟩, ⟨hok₁, ?_⟩, ⟨hok₂, ?_⟩, ⟨hfetched, trivial⟩, ⟨hcompleted, trivial⟩,
    ⟨hok₄, ?_⟩, ⟨hwaiting, trivial⟩, trivial⟩, List.mem_cons_self⟩
  · simp [SlotKept]
  · exact List.forall_mem_singleton.2 slots_disjoint
  · exact List.forall_mem_singleton.2 slots_disjoint.symm
  · simp [DescKept]
  · refine List.forall_mem_singleton.2 ?_
    rw [hfree₁]
    decide
  · refine List.forall_mem_singleton.2 ?_
    rw [hfree₃]
    decide

theorem headers_intact_sample :
    ((headerSystem silent sampleLayout).step ((headerSystem silent sampleLayout).final
      ⟨⟨(), Driver.init Mem.zero, []⟩, []⟩ threeRequests) (.fetch 0)).1 =
        some (headerOf readTwo) := by
  obtain ⟨⟨hslot, hdesc⟩, hwaits⟩ := threeRequests_kept (VirtioRun.view_init () Mem.zero)
  exact headers_intact silent sampleLayout () Mem.zero hslot (Or.inr hdesc) rfl
    ⟨0, 0x80400000, readTwo⟩ hwaits rfl

/-- Two reads are submitted from the same depth before the device fetches the first: it finds the
header of the second. -/
theorem second_request_overwrites_header :
    let pre : List HeaderOp := [.submit 0x80400000 readOne, .submit 0x80400000 readTwo]
    let s := (headerSystem silent sampleLayout).final ⟨⟨(), Driver.init Mem.zero, []⟩, []⟩ pre
    (headerSystem silent sampleLayout).Admissible ⟨⟨(), Driver.init Mem.zero, []⟩, []⟩
        (pre ++ [.fetch 0]) ∧
      ⟨0, 0x80400000, readOne⟩ ∈ s.pending ∧
      ((headerSystem silent sampleLayout).step s (.fetch 0)).1 = some (headerOf readTwo) ∧
      headerOf readTwo ≠ headerOf readOne := by
  intro pre s
  obtain ⟨v₁, v₂, -, -, hv₁, hhead₁, hv₂, -⟩ := threeRequests_view
  obtain ⟨drv, hq, hok, hstep, hview⟩ := headerSystem_submit (VirtioRun.view_init () Mem.zero) hv₁
    (rfl : _ = (0 : BitVec 16)) [] 0x80400000 readOne
  obtain ⟨drv', hq', hok', hstep', -⟩ := headerSystem_submit hview hv₂ hhead₁
    [⟨0, 0x80400000, readOne⟩] 0x80400000 readTwo
  have hs : s = ⟨⟨(), drv', [3, 0]⟩, [⟨3, 0x80400000, readTwo⟩, ⟨0, 0x80400000, readOne⟩]⟩ := by
    show (headerSystem silent sampleLayout).final _ [_, _] = _
    rw [System.final_cons, hstep, System.final_cons, hstep']
    rfl
  -- the descriptor of the first request still points to the slot, which the second one filled
  obtain ⟨-, -, -, -, hdesc, -, -⟩ := Driver.enqueue_ok hq
  obtain ⟨-, -, -, -, hdesc', hmem', -⟩ := Driver.enqueue_ok hq'
  have haddr : (drv'.desc 0).addr = sampleLayout.hdrAddr 0x80400000 := by
    rw [hdesc', Driver.writeDescs_of_ne _ _ _ _ _ (by decide) (by decide) (by decide), hdesc]
    exact congrArg VirtqDesc.addr (Driver.writeDescs_head _ _ _ _ _)
  refine ⟨?_, ?_, ?_, ?_⟩
  · show (headerSystem silent sampleLayout).Admissible _ [_, _, _]
    rw [System.admissible_cons, hstep, System.admissible_cons, hstep']
    exact ⟨hok, hok', ⟨_, List.mem_cons_of_mem _ (List.mem_singleton_self _), rfl⟩, trivial⟩
  · rw [hs]
    simp
  · rw [hs]
    show some (headerAt drv'.mem (drv'.desc 0).addr) = some (headerOf readTwo)
    rw [haddr, hmem', headerAt_writeHdr]
  · decide

end HxcOS
