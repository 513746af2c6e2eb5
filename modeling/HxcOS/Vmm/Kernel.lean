import HxcOS.Lib.System
import HxcOS.Vmm.Walk

/-!
# The allocator, the page tables and their clients

The component whose runs are studied: the allocator, any number of `PageTable` objects built on
it, and the clients that call both.  `held` are the pages that clients own, and `bound` is the
clients' own record of their mappings; both are kept by the answers of the calls alone (a page is
mapped once `add` has answered 0, and gone once `erase` has).

The obligations say what clients promise: they free and map only pages they hold, they pass values
of `permission_code`, they write only inside pages they hold or have mapped, and `alloc_page` does
not run out inside the calls that make nodes.
-/

namespace HxcOS

open ByteMem OpSystem

/-- The calls of the clients, and a store of one byte. -/
inductive KernelOp
  | newTable
  | allocPage
  | freePage (p : Word)
  | write (a : Word) (v : Byte)
  | add (t : ℕ) (va pa perm : Word)
  | lookup (t : ℕ) (va : Word)
  | erase (t : ℕ) (va : Word)

/-- What a call returns. -/
inductive Ret
  | done
  | ptr (p : Word)
  | int (r : ℤ)
  deriving DecidableEq

/-- The mappings of the clients: the page and the permissions of each key of each table. -/
abbrev Bindings := ℕ → Key → Option (Word × Word)

def Bindings.set (b : Bindings) (t : ℕ) (k : Key) (v : Option (Word × Word)) : Bindings :=
  fun u k' => if u = t ∧ k' = k then v else b u k'

structure Kernel where
  pmm : Pmm
  tables : List PageTable
  held : Finset Word
  bound : Bindings

namespace Kernel

/-- The state that `pmm_init` leaves. -/
def init (kernelEnd : Word) (m : Mem) : Kernel :=
  ⟨(pmmInit kernelEnd (Pmm.boot m)).1, [], ∅, fun _ _ => none⟩

def step (s : Kernel) : KernelOp → Ret × Kernel
  | .newTable =>
      let (tbl, pmm) := PageTable.new s.pmm
      (.done, { s with pmm := pmm, tables := s.tables ++ [tbl] })
  | .allocPage =>
      let (p, pmm) := HxcOS.allocPage s.pmm
      (.ptr p, { s with pmm := pmm, held := if p = 0 then s.held else insert p s.held })
  | .freePage p => (.done, { s with pmm := HxcOS.freePage s.pmm p, held := s.held.erase p })
  | .write a v => (.done, { s with pmm.mem := s.pmm.mem.store8 a v })
  | .add t va pa perm =>
      match s.tables[t]? with
      | none => (.done, s)
      | some tbl =>
          let (r, pmm) := tbl.add s.pmm va pa perm
          (.int r, if r = 0 then
              { s with
                pmm := pmm
                held := s.held.erase pa
                bound := s.bound.set t (key va) (some (pa, perm)) }
            else { s with pmm := pmm })
  | .lookup t va =>
      match s.tables[t]? with
      | none => (.done, s)
      | some tbl => (.ptr (tbl.lookup s.pmm.mem va), s)
  | .erase t va =>
      match s.tables[t]? with
      | none => (.done, s)
      | some tbl =>
          let (r, pmm) := tbl.erase s.pmm va
          (.int r, if r = 0 then
              { s with pmm := pmm, bound := s.bound.set t (key va) none }
            else { s with pmm := pmm })

/-- `perm` is a value of `permission_code`. -/
def IsPermission (perm : Word) : Prop :=
  ∃ write read exec user cow, perm = permissionCode write read exec user cow

/-- The promises of the clients, for calls during which `alloc_page` may fail. -/
def Promise (s : Kernel) : KernelOp → Prop
  | .newTable => True
  | .allocPage => True
  | .freePage p => p ∈ s.held
  | .write a _ => ∃ p, (p ∈ s.held ∨ ∃ t k perm, s.bound t k = some (p, perm)) ∧ a ∈ page p
  | .add t _ pa perm => t < s.tables.length ∧ pa ∈ s.held ∧ IsPermission perm
  | .lookup t _ => t < s.tables.length
  | .erase t _ => t < s.tables.length

/-- The call makes nodes, and for these it needs pages. -/
def Grows : KernelOp → Prop
  | .newTable => True
  | .add .. => True
  | _ => False

/-- `alloc_page` returns no `NULL` during the call. -/
def Supplied (s : Kernel) (o : KernelOp) : Prop := (s.step o).2.pmm.denied = s.pmm.denied

end Kernel

/-- The allocator, the tables and their clients: these keep their promises, and `alloc_page` does not
run out. -/
def kernelSystem : System Kernel KernelOp Ret where
  step := Kernel.step
  ok s o := s.Promise o ∧ (Kernel.Grows o → s.Supplied o)

@[simp] theorem kernelSystem_step (s : Kernel) (o : KernelOp) :
    kernelSystem.step s o = s.step o := rfl

end HxcOS
