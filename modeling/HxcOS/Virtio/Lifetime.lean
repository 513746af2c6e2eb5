import HxcOS.Lib.Explore
import HxcOS.Virtio.Descriptors

/-!
# How many requests the driver can serve

Completions give back fewer descriptors than submissions take, and in some orders a submission
overwrites the descriptors of a request in flight.  All the same no run goes on for long.
`QueueView` keeps the links and the flags of the eight descriptors, the head of the free list and
the requests in flight; seen through it there are few runs, and each of them is explored.  At most
six submissions succeed, in whatever order requests are completed; the free list is a list all
along, and the driver never leaves its table (`at_most_six_submissions`).
-/

namespace HxcOS

open ByteMem Chain Loop OpSystem

/-- The eight values of a function. -/
def table {α : Type} (f : ℕ → α) : List α := (List.range VIRTIO_QUEUE_SIZE).map f

section Table

variable {α β : Type}

theorem getElem?_table (f : ℕ → α) (i : ℕ) :
    (table f)[i]? = if i < VIRTIO_QUEUE_SIZE then some (f i) else none := by
  rw [table, List.getElem?_map]
  split_ifs with hi
  · rw [List.getElem?_range hi, Option.map_some]
  · rw [List.getElem?_eq_none_iff.2 (by simpa using hi), Option.map_none]

theorem table_modify (f : ℕ → α) (i : ℕ) (g : α → α) :
    (table f).modify i g = table (Function.update f i (g (f i))) := by
  refine List.ext_getElem? fun j => ?_
  rw [List.getElem?_modify, getElem?_table, getElem?_table, Function.update_apply]
  split_ifs with hj hij hji <;> simp_all

theorem table_set (f : ℕ → α) (i : ℕ) (x : α) :
    (table f).set i x = table (Function.update f i x) := by
  rw [List.set_eq_modify, table_modify]

end Table

/-- The links and the `NEXT` flags of the descriptors, the head of the free list, and the heads of
the requests in flight. -/
structure QueueView where
  links : List (BitVec 16 × Bool)
  head : BitVec 16
  inFlight : List (BitVec 16)

namespace QueueView

variable (v : QueueView)

def next (i : BitVec 16) : BitVec 16 := (v.links[i.toNat]?.map Prod.fst).getD 0

def hasNext (i : BitVec 16) : Bool := (v.links[i.toNat]?.map Prod.snd).getD false

/-- The free list from `h` on, if it ends and stays in the table. -/
def chain : ℕ → BitVec 16 → Option (List (BitVec 16))
  | 0, _ => none
  | n + 1, h =>
      if h = 0xFFFF then some []
      else if h.toNat < VIRTIO_QUEUE_SIZE then (chain n (v.next h)).map (h :: ·)
      else none

/-- The last descriptor of the chain from `i` on. -/
def last : ℕ → BitVec 16 → Option (BitVec 16)
  | 0, _ => none
  | n + 1, i =>
      if i.toNat < VIRTIO_QUEUE_SIZE then if v.hasNext i then last n (v.next i) else some i
      else none

/-- `virtio_submit_request`. -/
def submit : Option QueueView :=
  match v.chain 9 v.head with
  | some (h :: _ :: _ :: L) => some {
      links := ((v.links.set h.toNat (BitVec.ofNat 16 (h.toNat + 1), true)).modify (h.toNat + 1)
        fun l => (l.1, false)).set (h.toNat + 2) (0, false)
      head := L.head?.getD 0xFFFF
      inFlight := h :: v.inFlight }
  | _ => none

/-- `free_desc_chain`. -/
def complete (h : BitVec 16) : Option QueueView :=
  (v.last 9 h).map fun i =>
    { links := v.links.modify i.toNat fun l => (v.head, l.2)
      head := h
      inFlight := v.inFlight.erase h }

/-- The steps, labelled with whether they are submissions. -/
def succs : List (Bool × QueueView) :=
  v.submit.toList.map (true, ·) ++ v.inFlight.filterMap fun h => (v.complete h).map (false, ·)

/-- The free list ends, requests in flight are inside the table and can be completed, and there were
at most six submissions. -/
def good (tr : List Bool) : Bool :=
  decide (tr.count true ≤ 6) && (v.chain 9 v.head).isSome &&
    v.inFlight.all fun h => decide (h.toNat + 2 < VIRTIO_QUEUE_SIZE) && (v.complete h).isSome

/-- What the free-list loop of `virtio_blk_init` leaves. -/
def init : QueueView where
  links := table fun i =>
    (if i = VIRTIO_QUEUE_SIZE - 1 then 0xFFFF else BitVec.ofNat 16 (i + 1), false)
  head := 0
  inFlight := []

/-- The driver, seen so, can take these steps. -/
def runs : QueueView → List VirtioOp → Bool
  | _, [] => true
  | v, .submit _ _ :: ops => v.submit.any fun v' => runs v' ops
  | v, .complete h :: ops => decide (h ∈ v.inFlight) && (v.complete h).any fun v' => runs v' ops

/-- All runs. -/
theorem explore_init : explore succs (fun tr v => good v tr) 13 [] init = true := by decide +kernel

theorem good_iff {tr : List Bool} : v.good tr = true ↔ tr.count true ≤ 6 ∧
    (∃ L, v.chain 9 v.head = some L) ∧
    ∀ h ∈ v.inFlight, h.toNat + 2 < VIRTIO_QUEUE_SIZE ∧ ∃ v', v.complete h = some v' := by
  simp only [good, Bool.and_eq_true, decide_eq_true_eq, Option.isSome_iff_exists, List.all_eq_true,
    and_assoc]

end QueueView

/-! ### The view of a run -/

/-- A submission, not a completion. -/
def VirtioOp.isSubmit : VirtioOp → Bool
  | .submit _ _ => true
  | .complete _ => false

def VirtqDesc.link (d : VirtqDesc) : BitVec 16 × Bool := (d.next, d.hasNext)

theorem link_update (desc : ℕ → VirtqDesc) (i : ℕ) (d : VirtqDesc) :
    (fun j => (Function.update desc i d j).link) =
      Function.update (fun j => (desc j).link) i d.link := by
  funext j
  rw [Function.update_apply, Function.update_apply]
  split_ifs <;> rfl

/-- What `virtio_submit_request` does to the links: the flag of the second descriptor is cleared. -/
theorem link_writeDescs (s : Driver) (l : Layout) (head : BitVec 16) (hdr : Word)
    (req : DiskRequest) :
    (fun j => ((s.writeDescs l head hdr req).desc j).link) =
      Function.update (Function.update (Function.update (fun j => (s.desc j).link) head.toNat
        (BitVec.ofNat 16 (head.toNat + 1), true)) (head.toNat + 1)
        ((s.desc (head.toNat + 1)).next, false)) (head.toNat + 2) (0, false) := by
  have hdata : VirtqDesc.hasNext ⟨req.buffer, 4096,
      if req.doWrite ≠ 0 then 0 else VRING_DESC_F_WRITE,
      (s.desc (head.toNat + 1)).next⟩ = false := by
    rw [VirtqDesc.hasNext]
    dsimp only
    split_ifs <;> decide
  funext j
  rcases eq_or_ne j (head.toNat + 2) with rfl | h₂
  · rw [Driver.writeDescs_status, Function.update_self]
    exact congrArg (Prod.mk 0)
      (show (VRING_DESC_F_WRITE &&& VRING_DESC_F_NEXT != 0) = false by decide)
  · rcases eq_or_ne j (head.toNat + 1) with rfl | h₁
    · rw [Driver.writeDescs_data, Function.update_of_ne h₂, Function.update_self, VirtqDesc.link,
        hdata]
    · rcases eq_or_ne j head.toNat with rfl | h₀
      · rw [Driver.writeDescs_head, Function.update_of_ne h₂, Function.update_of_ne h₁,
          Function.update_self]
        exact congrArg (Prod.mk _)
          (show (VRING_DESC_F_NEXT &&& VRING_DESC_F_NEXT != 0) = true by decide)
      · rw [Driver.writeDescs_of_ne _ _ _ _ _ h₀ h₁ h₂, Function.update_of_ne h₂,
          Function.update_of_ne h₁, Function.update_of_ne h₀]

def VirtioRun.view {δ : Type} (s : VirtioRun δ) : QueueView where
  links := table fun i => (s.driver.desc i).link
  head := s.driver.freeDescHead
  inFlight := s.inFlight

namespace VirtioRun

variable {δ : Type} {s : VirtioRun δ} {i h : BitVec 16} {n : ℕ}

theorem view_next (hi : i.toNat < VIRTIO_QUEUE_SIZE) : s.view.next i = s.driver.nextOf i := by
  rw [QueueView.next, view, getElem?_table, if_pos hi]
  rfl

theorem view_hasNext (hi : i.toNat < VIRTIO_QUEUE_SIZE) :
    s.view.hasNext i = (s.driver.desc i.toNat).hasNext := by
  rw [QueueView.hasNext, view, getElem?_table, if_pos hi]
  rfl

/-- The free list. -/
theorem linked_of_chain {L : List (BitVec 16)} (hL : s.view.chain n h = some L) :
    Linked s.driver.nextOf 0xFFFF h L ∧ ∀ a ∈ L, a.toNat < VIRTIO_QUEUE_SIZE := by
  induction n generalizing h L with
  | zero => cases hL
  | succ n ih =>
    rw [QueueView.chain] at hL
    split_ifs at hL with hnil hlt
    · obtain rfl := Option.some.inj hL
      exact ⟨hnil, by simp⟩
    · obtain ⟨L', hL', rfl⟩ := Option.map_eq_some_iff.1 hL
      obtain ⟨hlinked, hmem⟩ := ih hL'
      rw [view_next hlt] at hlinked
      exact ⟨⟨rfl, hnil, hlinked⟩, List.forall_mem_cons.2 ⟨hlt, hmem⟩⟩

/-- The loop of `free_desc_chain` stops. -/
theorem runFor_of_last {last : BitVec 16} (hlast : s.view.last n i = some last) {N : ℕ}
    (hN : n ≤ N + 1) : runFor (fun last : BitVec 16 => (s.driver.desc last.toNat).hasNext)
      (fun last => (s.driver.desc last.toNat).next) N i = some last := by
  induction n generalizing i N with
  | zero => cases hlast
  | succ n ih =>
    rw [QueueView.last] at hlast
    split_ifs at hlast with hlt hnext
    · rw [view_hasNext hlt] at hnext
      rw [view_next hlt] at hlast
      rcases n with _ | n
      · cases hlast
      · obtain ⟨N, rfl⟩ := Nat.exists_eq_succ_of_ne_zero (show N ≠ 0 by omega)
        rw [runFor, if_pos hnext]
        exact ih hlast (by omega)
    · rw [view_hasNext hlt] at hnext
      obtain rfl := Option.some.inj hlast
      rcases N with _ | N <;> rw [runFor, if_neg hnext]

/-- A completion. -/
theorem complete_view {v' : QueueView} (hv : s.view.complete h = some v') :
    ∃ drv, s.driver.freeDescChain h = some drv ∧
      v' = view { s with driver := drv, inFlight := s.inFlight.erase h } := by
  obtain ⟨last, hlast, rfl⟩ := Option.map_eq_some_iff.1 hv
  refine ⟨_, by rw [Driver.freeDescChain, runFor_of_last hlast (by norm_num)]; rfl, ?_⟩
  simp only [view, table_modify, QueueView.mk.injEq, and_true]
  exact congrArg table (link_update s.driver.desc last.toNat
    { s.driver.desc last.toNat with next := s.driver.freeDescHead }).symm

/-- A successful submission. -/
theorem submit_view {L : List (BitVec 16)} (hL : s.view.chain 9 s.view.head = some L) {l : Layout}
    {sp : Word} {req : DiskRequest} {head : BitVec 16} {drv : Driver}
    (hok : s.driver.enqueue l sp req = .ok (head, drv)) (d : δ) :
    s.view.submit = some (view ⟨d, drv, head :: s.inFlight⟩) := by
  have hfree : s.driver.FreeDescs L := (linked_of_chain hL).1
  have hlen := Driver.three_le_of_enqueue_ok hfree hok
  obtain ⟨hhead, -, -, hdrv, hdesc, -, -⟩ := Driver.enqueue_ok hok
  rw [(Driver.takeDescs_eq hfree 3).1] at hdrv
  obtain ⟨a, b, c, L, rfl⟩ : ∃ a b c L', L = a :: b :: c :: L' := by
    rcases L with _ | ⟨a, _ | ⟨b, _ | ⟨c, L⟩⟩⟩
    · simp at hlen
    · simp at hlen
    · simp at hlen
    · exact ⟨a, b, c, L, rfl⟩
  obtain rfl : head = a := hhead.trans hfree.1
  have hlinks : s.view.links = table fun i => (s.driver.desc i).link := rfl
  have hfst : (Function.update (fun i => (s.driver.desc i).link) head.toNat
      (BitVec.ofNat 16 (head.toNat + 1), true) (head.toNat + 1)).1 =
      (s.driver.desc (head.toNat + 1)).next := by
    rw [Function.update_of_ne (by omega)]
    rfl
  rw [QueueView.submit, hL]
  simp only [hlinks, table_modify, table_set, hfst]
  have hview : view ⟨d, drv, head :: s.inFlight⟩ =
      ⟨table fun i => (drv.desc i).link, drv.freeDescHead, head :: s.inFlight⟩ := rfl
  rw [← link_writeDescs s.driver l head (l.hdrAddr sp) req, hview, hdesc, hdrv]
  rfl

/-- An admissible step is one of those that are explored. -/
theorem step_mem_succs {M : Mmio δ} {l : Layout} {o : VirtioOp} {tr : List Bool}
    (hgood : s.view.good tr = true) (hok : (virtioSystem M l).ok s o) :
    (o.isSubmit, view ((virtioSystem M l).step s o).2) ∈ s.view.succs := by
  obtain ⟨-, ⟨L, hL⟩, hflight⟩ := s.view.good_iff.1 hgood
  rw [QueueView.succs, List.mem_append]
  cases o with
  | submit sp req =>
    obtain ⟨⟨d, head, drv⟩, hsubmit⟩ := hok
    have hview := submit_view hL (virtioSubmitRequest_ok hsubmit) d
    simp only [virtioSystem, hsubmit, VirtioOp.isSubmit, hview, Option.toList_some, List.map_cons,
      List.mem_cons, true_or]
  | complete head =>
    obtain ⟨v', hv'⟩ := (hflight head hok).2
    obtain ⟨drv, hdrv, rfl⟩ := complete_view hv'
    refine Or.inr (List.mem_filterMap.2 ⟨head, hok, ?_⟩)
    simp only [virtioSystem, hdrv, VirtioOp.isSubmit, hv', Option.map_some]

/-- With three free descriptors a submission succeeds. -/
theorem submit_of_view {s : VirtioRun Unit} {v' : QueueView} (hv : s.view.submit = some v')
    (l : Layout) (sp : Word) (req : DiskRequest) :
    (virtioSystem silent l).ok s (.submit sp req) ∧
      view ((virtioSystem silent l).step s (.submit sp req)).2 = v' := by
  obtain ⟨L, hL, hlen⟩ : ∃ L, s.view.chain 9 s.view.head = some L ∧ 3 ≤ L.length := by
    rw [QueueView.submit] at hv
    split at hv
    · exact ⟨_, ‹_›, by simp⟩
    · cases hv
  obtain ⟨drv, hq⟩ := Driver.enqueue_isOk (linked_of_chain hL).1 hlen l sp req
  have hsubmit : s.driver.virtioSubmitRequest silent s.device l sp req =
      .ok ((), s.driver.freeDescHead, drv) := by
    simp only [Driver.virtioSubmitRequest, hq]
    rfl
  refine ⟨⟨_, hsubmit⟩, Option.some.inj ?_⟩
  rw [← hv, submit_view hL hq ()]
  simp only [virtioSystem, hsubmit]

theorem admissible_of_runs {s : VirtioRun Unit} {l : Layout} {ops : List VirtioOp}
    (h : s.view.runs ops = true) : (virtioSystem silent l).Admissible s ops := by
  induction ops generalizing s with
  | nil => trivial
  | cons o ops ih =>
    cases o with
    | submit sp req =>
      rw [QueueView.runs] at h
      cases hv : s.view.submit with
      | none => rw [hv] at h; cases h
      | some v' =>
        rw [hv, Option.any_some] at h
        obtain ⟨hsubmit, rfl⟩ := submit_of_view hv l sp req
        exact ⟨hsubmit, ih h⟩
    | complete head =>
      rw [QueueView.runs, Bool.and_eq_true, decide_eq_true_eq] at h
      obtain ⟨hmem, h⟩ := h
      cases hv : s.view.complete head with
      | none => rw [hv] at h; cases h
      | some v' =>
        rw [hv, Option.any_some] at h
        obtain ⟨drv, hdrv, rfl⟩ := complete_view hv
        refine ⟨hmem, ih ?_⟩
        simp only [virtioSystem, hdrv]
        exact h

theorem view_init (d : δ) (m : Mem) :
    view (⟨d, Driver.init m, []⟩ : VirtioRun δ) = QueueView.init := by
  simp [view, QueueView.init, table, VIRTIO_QUEUE_SIZE, Driver.init, Driver.initFreeList,
    Driver.setDesc, Driver.boot, VirtqDesc.link, VirtqDesc.hasNext, List.range_succ]

end VirtioRun

/-- **At most six requests.**  In every admissible run from the initial free list, whatever the
order of submissions and completions, at most six submissions succeed and at most twelve steps are
taken; the descriptors on the free list are distinct entries of the table; and so are the three of
each request in flight, whose completion returns. -/
theorem at_most_six_submissions {δ : Type} (M : Mmio δ) (l : Layout) (d : δ) (m : Mem)
    {ops : List VirtioOp} (hok : (virtioSystem M l).Admissible ⟨d, Driver.init m, []⟩ ops) :
    let s := (virtioSystem M l).final ⟨d, Driver.init m, []⟩ ops
    ops.countP VirtioOp.isSubmit ≤ 6 ∧ ops.length ≤ 12 ∧
      (∃ L, s.driver.FreeDescs L ∧ L.Nodup ∧ ∀ i ∈ L, i.toNat < VIRTIO_QUEUE_SIZE) ∧
      ∀ head ∈ s.inFlight, head.toNat + 2 < VIRTIO_QUEUE_SIZE ∧
        ∃ drv, s.driver.freeDescChain head = some drv := by
  intro s
  obtain ⟨hlen, v, rfl, hgood⟩ := System.run_explore (R := fun s v => VirtioRun.view s = v)
    (fun s v tr o hR hgood ho => ⟨_, by subst hR; exact VirtioRun.step_mem_succs hgood ho, rfl⟩)
    (VirtioRun.view_init d m) QueueView.explore_init hok
  obtain ⟨hcount, ⟨L, hL⟩, hflight⟩ := (QueueView.good_iff _).1 hgood
  obtain ⟨hfree, hmem⟩ := VirtioRun.linked_of_chain hL
  refine ⟨?_, by omega, ⟨L, hfree, hfree.nodup, hmem⟩, fun head hhead => ?_⟩
  · rw [List.nil_append, List.count, List.countP_map] at hcount
    simpa only [Function.comp_def, beq_true] using hcount
  · obtain ⟨hin, v, hv⟩ := hflight head hhead
    obtain ⟨drv, hdrv, -⟩ := VirtioRun.complete_view hv
    exact ⟨hin, drv, hdrv⟩

/-- A request is submitted, and completed, six times. -/
def oneAfterAnother : List VirtioOp :=
  (List.replicate 6 [.submit 0x80400000 readOne, .complete 0]).flatten

theorem oneAfterAnother_admissible :
    (virtioSystem silent sampleLayout).Admissible ⟨(), Driver.init Mem.zero, []⟩ oneAfterAnother :=
  VirtioRun.admissible_of_runs (by rw [VirtioRun.view_init]; decide +kernel)

theorem at_most_six_submissions_sample :
    oneAfterAnother.countP VirtioOp.isSubmit = 6 ∧ oneAfterAnother.countP VirtioOp.isSubmit ≤ 6 :=
  ⟨by decide, (at_most_six_submissions silent sampleLayout () Mem.zero
    oneAfterAnother_admissible).1⟩

end HxcOS
