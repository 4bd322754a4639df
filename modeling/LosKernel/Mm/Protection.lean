import LosKernel.Mm.Sharing

/-!
# What every run keeps

Results about all runs of a booted system, also those that exhaust the pools.
-/

namespace LosKernel.Mm

variable {ram : Nat → Nat → Nat} {slack : Bytes} {allMem : Nat} {a : Sys}

section

variable (hrun : Sys.Run (fun _ _ _ => True) (Sys.boot ram slack allMem) a)

include hrun

end

end LosKernel.Mm
