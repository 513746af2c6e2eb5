import HxcOS.Lib.System
import HxcOS.Virtio.Queue

/-!
# Descriptors get lost

Runs of the driver from the state that the free-list loop of `virtio_blk_init` leaves: requests are
submitted, and `free_desc_chain` is called on the heads of requests in flight.  The descriptors are
`Partitioned` when each of the eight is either on the free list or one of the three that a request
in flight has programmed.

A request programs three descriptors, but the middle one is not flagged as having a successor, and
`free_desc_chain` finds the chain by the flags.  It frees the first two; the third is on no list
afterwards.  The partition therefore holds along a run exactly as long as no request is completed
(`descriptors_partitioned_iff`).
-/

namespace HxcOS

open ByteMem Chain OpSystem

/-- A call of `virtio_submit_request` with stack pointer `sp`, or of `free_desc_chain`. -/
inductive VirtioOp
  | submit (sp : Word) (req : DiskRequest)
  | complete (head : BitVec 16)

/-- The device, the driver, and the heads of the requests in flight. -/
structure VirtioRun (δ : Type) where
  device : δ
  driver : Driver
  inFlight : List (BitVec 16)

/-- Submissions are successful, and the chains freed are those of requests in flight. -/
def virtioSystem {δ : Type} (M : Mmio δ) (l : Layout) : System (VirtioRun δ) VirtioOp Unit where
  step s
    | .submit sp req =>
        match s.driver.virtioSubmitRequest M s.device l sp req with
        | .ok (d, head, drv) => ((), ⟨d, drv, head :: s.inFlight⟩)
        | .error _ => ((), s)
    | .complete head =>
        match s.driver.freeDescChain head with
        | some drv => ((), { s with driver := drv, inFlight := s.inFlight.erase head })
        | none => ((), s)
  ok s
    | .submit sp req => ∃ r, s.driver.virtioSubmitRequest M s.device l sp req = .ok r
    | .complete head => head ∈ s.inFlight

/-- The descriptors that the request with this head has programmed. -/
def programmed (head : BitVec 16) : List ℕ := [head.toNat, head.toNat + 1, head.toNat + 2]

/-- Each of the eight descriptors is on the free list, or one of the three of one request. -/
def VirtioRun.Partitioned {δ : Type} (s : VirtioRun δ) : Prop :=
  ∃ L, s.driver.FreeDescs L ∧
    (L.map BitVec.toNat ++ s.inFlight.flatMap programmed).Perm (List.range VIRTIO_QUEUE_SIZE)

/-- The descriptors from `3 * n` on, in order. -/
def descsFrom (n : ℕ) : List (BitVec 16) :=
  (List.range' (3 * n) (8 - 3 * n)).map (BitVec.ofNat 16)

/-- The first `n` requests, which have the heads `0`, `3`, …; the latest one first. -/
def headsTo : ℕ → List (BitVec 16)
  | 0 => []
  | n + 1 => BitVec.ofNat 16 (3 * n) :: headsTo n

/-- After `n` submissions and no completion. -/
structure SubmitInv {δ : Type} (n : ℕ) (s : VirtioRun δ) : Prop where
  le_two : n ≤ 2
  free : s.driver.FreeDescs (descsFrom n)
  inFlight : s.inFlight = headsTo n
  links : ∀ k < n, (s.driver.desc (3 * k)).hasNext = true ∧
    (s.driver.desc (3 * k)).next = BitVec.ofNat 16 (3 * k + 1) ∧
    (s.driver.desc (3 * k + 1)).hasNext = false

namespace SubmitInv

variable {δ : Type} {n : ℕ} {s : VirtioRun δ}

theorem init (d : δ) (m : Mem) : SubmitInv 0 (⟨d, Driver.init m, []⟩ : VirtioRun δ) := by
  refine ⟨by omega, ?_, rfl, fun k hk => absurd hk (by omega)⟩
  refine ⟨rfl, by decide, ?_⟩
  simp [Driver.nextOf, Driver.init, Driver.initFreeList, Driver.setDesc, Driver.boot,
    VIRTIO_QUEUE_SIZE, Linked, List.range']

theorem partitioned (h : SubmitInv n s) : s.Partitioned := by
  refine ⟨_, h.free, ?_⟩
  rw [h.inFlight]
  have hn := h.le_two
  interval_cases n <;> decide

/-- A successful submission takes the next three descriptors. -/
theorem enqueue (h : SubmitInv n s) {l : Layout} {sp : Word} {req : DiskRequest}
    {head : BitVec 16} {drv : Driver} (hok : s.driver.enqueue l sp req = .ok (head, drv)) (d : δ) :
    n ≤ 1 ∧ head = BitVec.ofNat 16 (3 * n) ∧ SubmitInv (n + 1) ⟨d, drv, head :: s.inFlight⟩ := by
  have hroom := Driver.three_le_of_enqueue_ok h.free hok
  obtain ⟨hhead, -, -, hfree, hdesc, -, -⟩ := Driver.enqueue_ok hok
  have hn : n ≤ 1 := by
    rw [descsFrom, List.length_map, List.length_range'] at hroom
    omega
  have hheadn : head = BitVec.ofNat 16 (3 * n) := by
    rw [hhead]
    have hlist := h.free
    interval_cases n <;> exact hlist.1
  have hnat : head.toNat = 3 * n := by
    rw [hheadn, BitVec.toNat_ofNat]
    omega
  refine ⟨hn, hheadn, by omega, ?_, by rw [h.inFlight, hheadn]; rfl, fun k hk => ?_⟩
  · -- the links of the descriptors that stay free are not touched
    have hlist := (Driver.takeDescs_eq h.free 3).2
    have hdrop : (descsFrom n).drop 3 = descsFrom (n + 1) := by interval_cases n <;> rfl
    obtain ⟨f, hf⟩ := s.driver.takeDescs_snd 3
    rw [hdrop, Driver.FreeDescs] at hlist
    rw [Driver.FreeDescs, hfree]
    refine hlist.congr fun a ha => ?_
    have hge : 3 * n + 3 ≤ a.toNat := by
      obtain ⟨i, hi, rfl⟩ := List.mem_map.1 ha
      rw [List.mem_range'_1] at hi
      rw [BitVec.toNat_ofNat]
      omega
    rw [Driver.nextOf, Driver.nextOf, hdesc, hf, Driver.writeDescs_of_ne] <;> omega
  · rcases Nat.lt_succ_iff_lt_or_eq.1 hk with hlt | rfl
    · have hold := h.links k hlt
      rw [hdesc, Driver.writeDescs_of_ne _ _ _ _ _ (by omega) (by omega) (by omega),
        Driver.writeDescs_of_ne _ _ _ _ _ (by omega) (by omega) (by omega)]
      exact hold
    · have hfirst := s.driver.writeDescs_head l head (l.hdrAddr sp) req
      have hsecond := s.driver.writeDescs_data l head (l.hdrAddr sp) req
      rw [hnat] at hfirst hsecond
      rw [hdesc, hfirst, hsecond]
      refine ⟨?_, rfl, ?_⟩ <;> rw [VirtqDesc.hasNext]
      · show (VRING_DESC_F_NEXT &&& VRING_DESC_F_NEXT != 0) = true
        decide
      · dsimp only
        split_ifs <;> decide

/-- After a completion the third descriptor of the request is nowhere. -/
theorem not_partitioned_of_complete (h : SubmitInv n s) (M : Mmio δ) (l : Layout)
    {head : BitVec 16} (hhead : head ∈ s.inFlight) :
    ¬ ((virtioSystem M l).step s (.complete head)).2.Partitioned := by
  have hn := h.le_two
  obtain ⟨k, hk, rfl⟩ : ∃ k < n, head = BitVec.ofNat 16 (3 * k) := by
    rw [h.inFlight] at hhead
    interval_cases n <;> simp [headsTo] at hhead
    · exact ⟨0, by omega, hhead⟩
    · rcases hhead with rfl | rfl
      · exact ⟨1, by omega, rfl⟩
      · exact ⟨0, by omega, rfl⟩
  obtain ⟨hnext, hlink, hlast⟩ := h.links k hk
  have hnat : (BitVec.ofNat 16 (3 * k)).toNat = 3 * k := by rw [BitVec.toNat_ofNat]; omega
  have hnat' : (BitVec.ofNat 16 (3 * k + 1)).toNat = 3 * k + 1 := by rw [BitVec.toNat_ofNat]; omega
  have hnextOf : s.driver.nextOf (BitVec.ofNat 16 (3 * k)) = BitVec.ofNat 16 (3 * k + 1) := by
    rw [Driver.nextOf, hnat, hlink]
  have hnext' : (s.driver.desc (BitVec.ofNat 16 (3 * k)).toNat).hasNext = true := by
    rw [hnat]; exact hnext
  have hfreed := Driver.freeDescChain_two hnext' (by rw [hnextOf, hnat']; exact hlast)
  rw [hnextOf, hnat'] at hfreed
  simp only [virtioSystem, hfreed]
  rintro ⟨L, hL, hperm⟩
  -- the free list: the two descriptors of the chain, and what was free before
  set drv := s.driver.setDesc (3 * k + 1) fun d => { d with next := s.driver.freeDescHead } with hdrv
  have hsecond : drv.nextOf (BitVec.ofNat 16 (3 * k + 1)) = s.driver.freeDescHead := by
    simp [hdrv, Driver.nextOf, Driver.setDesc, hnat']
  have hother : ∀ a : BitVec 16, a.toNat ≠ 3 * k + 1 → drv.nextOf a = s.driver.nextOf a := by
    intro a ha
    simp [hdrv, Driver.nextOf, Driver.setDesc, ha]
  have hrest : Linked drv.nextOf 0xFFFF (BitVec.ofNat 16 (3 * k + 1))
      (BitVec.ofNat 16 (3 * k + 1) :: descsFrom n) := by
    refine Linked.push h.free (fun hnil => ?_) hsecond fun a ha => hother a ?_
    · rw [hnil] at hnat'
      change 65535 = 3 * k + 1 at hnat'
      omega
    · obtain ⟨i, hi, rfl⟩ := List.mem_map.1 ha
      rw [List.mem_range'_1] at hi
      rw [BitVec.toNat_ofNat]
      omega
  have hchain : Linked drv.nextOf 0xFFFF (BitVec.ofNat 16 (3 * k))
      (BitVec.ofNat 16 (3 * k) :: BitVec.ofNat 16 (3 * k + 1) :: descsFrom n) := by
    refine Linked.push hrest (fun hnil => ?_) ?_ fun _ _ => rfl
    · rw [hnil] at hnat
      change 65535 = 3 * k at hnat
      omega
    · rw [hother _ (by omega), hnextOf]
  have hlist := Linked.unique hL hchain
  subst hlist
  have hmem := hperm.mem_iff (a := 3 * k + 2)
  rw [h.inFlight] at hmem
  clear_value drv
  clear hperm hL hrest hchain hother hsecond hfreed
  dsimp only at hmem
  interval_cases n <;> interval_cases k <;> revert hmem <;> decide

end SubmitInv

/-- **The partition and completions.**  In an admissible run from the initial free list, the
descriptors are partitioned in every state if and only if `free_desc_chain` is never called. -/
theorem descriptors_partitioned_iff {δ : Type} (M : Mmio δ) (l : Layout) (d : δ) (m : Mem)
    {ops : List VirtioOp} (hok : (virtioSystem M l).Admissible ⟨d, Driver.init m, []⟩ ops) :
    (∀ pre, pre <+: ops →
      ((virtioSystem M l).final ⟨d, Driver.init m, []⟩ pre).Partitioned) ↔
    ∀ head, VirtioOp.complete head ∉ ops := by
  obtain ⟨n, hinit⟩ : ∃ n, SubmitInv n (⟨d, Driver.init m, []⟩ : VirtioRun δ) :=
    ⟨0, SubmitInv.init d m⟩
  generalize (⟨d, Driver.init m, []⟩ : VirtioRun δ) = s at hok hinit ⊢
  induction ops generalizing s n with
  | nil =>
    simp only [List.not_mem_nil, not_false_iff, implies_true, iff_true, List.prefix_nil]
    rintro pre rfl
    exact hinit.partitioned
  | cons o ops ih =>
    rw [System.admissible_cons] at hok
    cases o with
    | submit sp req =>
      obtain ⟨⟨⟨d', head, drv⟩, hsubmit⟩, hrest⟩ := hok
      obtain ⟨-, -, hnext⟩ := hinit.enqueue (virtioSubmitRequest_ok hsubmit) d'
      have hstep : ((virtioSystem M l).step s (.submit sp req)).2 = ⟨d', drv, head :: s.inFlight⟩ := by
        simp only [virtioSystem, hsubmit]
      rw [hstep] at hrest
      have hcons := ih (n + 1) _ hrest hnext
      constructor
      · intro hall head' hmem
        rcases List.mem_cons.1 hmem with heq | hmem
        · cases heq
        · refine hcons.1 (fun pre hpre => ?_) head' hmem
          have hpart := hall (.submit sp req :: pre) (List.cons_prefix_cons.2 ⟨rfl, hpre⟩)
          rwa [System.final_cons, hstep] at hpart
      · intro hnone pre hpre
        cases pre with
        | nil => exact hinit.partitioned
        | cons o' pre =>
          obtain ⟨rfl, hpre'⟩ := List.cons_prefix_cons.1 hpre
          rw [System.final_cons, hstep]
          exact hcons.2 (fun head' hmem => hnone head' (List.mem_cons_of_mem _ hmem)) pre hpre'
    | complete head =>
      have hnot := hinit.not_partitioned_of_complete M l hok.1
      constructor
      · intro hall
        exact absurd (hall [.complete head] (List.cons_prefix_cons.2 ⟨rfl, List.nil_prefix⟩)) hnot
      · intro hnone
        exact absurd List.mem_cons_self (hnone head)

/-! ### One request -/

/-- A device whose registers read 0. -/
def silent : Mmio Unit := ⟨fun d _ => (0, d), fun d _ _ => d⟩

/-- A read of block 1. -/
def readOne : DiskRequest := ⟨0, 1, 0x80300000, 0⟩

/-- Some placement of the header and of `disk_info`. -/
def sampleLayout : Layout := ⟨64, 0x80210000⟩

theorem SubmitInv.submit_silent {n : ℕ} {s : VirtioRun Unit} (h : SubmitInv n s) (hn : n ≤ 1)
    (l : Layout) (sp : Word) (req : DiskRequest) :
    ∃ drv, s.driver.virtioSubmitRequest silent s.device l sp req =
      .ok ((), BitVec.ofNat 16 (3 * n), drv) := by
  have hlen : 3 ≤ (descsFrom n).length := by rw [descsFrom, List.length_map, List.length_range']; omega
  obtain ⟨drv, hq⟩ := Driver.enqueue_isOk h.free hlen l sp req
  rw [(h.enqueue hq s.device).2.1] at hq
  exact ⟨drv, by simp only [Driver.virtioSubmitRequest, hq]; rfl⟩

theorem one_submission_admissible :
    (virtioSystem silent sampleLayout).Admissible ⟨(), Driver.init Mem.zero, []⟩
      [.submit 0x80400000 readOne] := by
  obtain ⟨drv, hok⟩ := (SubmitInv.init () Mem.zero).submit_silent (by omega) sampleLayout
    0x80400000 readOne
  exact ⟨⟨_, hok⟩, trivial⟩

theorem descriptors_partitioned_iff_sample :
    ((virtioSystem silent sampleLayout).final ⟨(), Driver.init Mem.zero, []⟩
      [VirtioOp.submit 0x80400000 readOne]).Partitioned :=
  (descriptors_partitioned_iff silent sampleLayout () Mem.zero one_submission_admissible).2
    (by simp) _ (List.prefix_refl _)

/-- One request is submitted and its chain freed: the run is admissible, and the descriptors are
not partitioned. -/
theorem completion_loses_descriptor :
    (virtioSystem silent sampleLayout).Admissible ⟨(), Driver.init Mem.zero, []⟩
        [.submit 0x80400000 readOne, .complete 0] ∧
      ¬ ((virtioSystem silent sampleLayout).final ⟨(), Driver.init Mem.zero, []⟩
        [.submit 0x80400000 readOne, .complete 0]).Partitioned := by
  have hinit := SubmitInv.init () Mem.zero
  obtain ⟨drv, hok⟩ := hinit.submit_silent (by omega) sampleLayout 0x80400000 readOne
  obtain ⟨-, -, hnext⟩ := hinit.enqueue (virtioSubmitRequest_ok hok) ()
  have hstep : ((virtioSystem silent sampleLayout).step ⟨(), Driver.init Mem.zero, []⟩
      (.submit 0x80400000 readOne)).2 = ⟨(), drv, [0]⟩ := by
    simp only [virtioSystem, hok]
    rfl
  rw [System.admissible_cons, System.final_cons, hstep]
  exact ⟨⟨⟨_, hok⟩, List.mem_singleton_self _, trivial⟩,
    hnext.not_partitioned_of_complete silent sampleLayout (List.mem_singleton_self _)⟩

end HxcOS
