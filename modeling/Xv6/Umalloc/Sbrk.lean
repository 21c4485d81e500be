import Xv6.Umalloc.Malloc
import Xv6.Vm.Sbrk

/-!
# `malloc` over the `sbrk` of the kernel

`sys_sbrk` returns the size of the process before `growproc`, which takes the increment as a signed
number.  Where the increment is positive, what `malloc` returns is memory of the process.
-/

namespace Xv6.Umalloc

open Vm (Addr Layout Mem Has pteP kernBase pgSize pgRoundUp)

variable {base nbytes : Nat} {s : State} {L : Layout} {m : Mem} {p : Vm.Proc}

end Xv6.Umalloc
