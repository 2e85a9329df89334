import Cserv.Process.Connection
import Cserv.Foundations.Transition

/-!
# The count of connections

`connection_count` against the handlers that have not closed their descriptor, along the runs
of a worker; and the room that the admission test leaves in the pool of coroutines.
-/
namespace Cserv.Process

open Coro Relation

/-! ## The invariant -/

def Acceptor.coros : Acceptor → List ℕ
  | alive c _ => [c]
  | _ => []

/-- The part of `connection_count` that stands for the accept loop. A handler is dispatched before
it is counted. -/
def Acceptor.weight : Acceptor → ℤ
  | unborn | failed => 1
  | alive _ .increaseConn | alive _ .ended => 0
  | alive _ _ => 1
  | gone => 0

def Acceptor.pending : Acceptor → List ℕ
  | alive _ (.dispatchCoro conn) | alive _ (.close conn) => [conn]
  | _ => []

def Acceptor.left : Acceptor → Bool
  | alive _ .ended | gone => true
  | _ => false

/-- Where the accept loop may be suspended. -/
def AcceptPc.waits : AcceptPc → Bool
  | testStop | accept => true
  | _ => false

def Handler.weight (h : Handler) : ℤ := if h.pc = .ended then 0 else 1

def Handler.opened (h : Handler) : List ℕ :=
  match h.pc with
  | .requestHandler | .close => [h.conn]
  | .decreaseConn | .ended => []

namespace Service

variable (v : Service)

def live : List ℕ := v.acceptor.coros ++ v.handlers.map Handler.coro

/-- The descriptors of the connections in flight. -/
def inFlight : List ℕ := v.handlers.flatMap Handler.opened

end Service

structure ServiceInv (workerProcesses : ℕ) (v : Service) : Prop where
  live : (v.sched.idle ++ v.live).Perm (List.range' 1 v.sched.currCoroSize)
  next : v.sched.nextCoroId = v.sched.currCoroSize
  size : v.sched.currCoroSize ≤ v.sched.maxCoroSize
  current : ∀ c, v.sched.current = some c → c ∈ v.live
  handlersWait : ∀ h ∈ v.handlers, v.sched.current ≠ some h.coro → h.pc = .requestHandler
  acceptorWaits : ∀ c pc, v.acceptor = .alive c pc → v.sched.current ≠ some c → pc.waits = true
  count : v.connectionCount = (v.handlers.map Handler.weight).sum + v.acceptor.weight
  conns : (v.closed ++ (v.acceptor.pending ++ v.inFlight)).Perm (List.range v.accepted)
  admitted : 1 < workerProcesses →
    (∀ c, v.acceptor = .alive c .accept → v.connectionCount < v.sched.maxCoroSize) ∧
    ∀ c conn, v.acceptor = .alive c (.dispatchCoro conn) →
      v.connectionCount < v.sched.maxCoroSize
  positive : v.exited = none → 0 < v.connectionCount
  drained : v.exited = some .drained →
    v.acceptor.left = true ∧ ∀ h ∈ v.handlers, h.pc = .ended

section Steps

variable {workerProcesses : ℕ} {v v' : Service} {c : ℕ}

theorem ServiceInv.nodup (h : ServiceInv workerProcesses v) : (v.sched.idle ++ v.live).Nodup :=
  h.live.nodup_iff.mpr (List.nodup_range' 1)

theorem ServiceInv.acceptor_ne_handler (h : ServiceInv workerProcesses v) {d : ℕ} {pc : AcceptPc}
    (hpc : v.acceptor = .alive d pc) {k : Handler} (hk : k ∈ v.handlers) : d ≠ k.coro := by
  have hnodup := List.Nodup.of_append_right h.nodup
  simp only [Service.live, hpc, Acceptor.coros, List.cons_append, List.nil_append,
    List.nodup_cons] at hnodup
  intro hsame
  apply hnodup.1
  rw [hsame]
  exact List.mem_map_of_mem hk

/-- While the accept loop runs, the handlers are suspended. -/
theorem ServiceInv.handlers_wait (h : ServiceInv workerProcesses v) {pc : AcceptPc}
    (hcurrent : v.sched.current = some c) (hpc : v.acceptor = .alive c pc) :
    ∀ k ∈ v.handlers, k.pc = .requestHandler := by
  intro k hk
  apply h.handlersWait k hk
  intro hsame
  exact h.acceptor_ne_handler hpc hk (Option.some.inj (hcurrent.symm.trans hsame))

theorem ServiceInv.acceptor_waits (h : ServiceInv workerProcesses v) {k : Handler}
    (hcurrent : v.sched.current = some k.coro) (hk : k ∈ v.handlers) {d : ℕ} {pc : AcceptPc}
    (hpc : v.acceptor = .alive d pc) : pc.waits = true := by
  apply h.acceptorWaits d pc hpc
  intro hsame
  exact h.acceptor_ne_handler hpc hk (Option.some.inj (hsame.symm.trans hcurrent))

theorem ServiceInv.others_wait (h : ServiceInv workerProcesses v) {conn : ℕ}
    {hs hs' : List Handler} {pc : HandlePc} (hcurrent : v.sched.current = some c)
    (hpc : v.handlers = hs ++ ⟨c, conn, pc⟩ :: hs') :
    ∀ k ∈ hs ++ hs', k.pc = .requestHandler := by
  have hnodup := List.Nodup.of_append_right (List.Nodup.of_append_right h.nodup)
  rw [hpc, List.map_append, List.map_cons] at hnodup
  have hperm : (hs.map Handler.coro ++ c :: hs'.map Handler.coro).Perm
      (c :: (hs ++ hs').map Handler.coro) := by
    rw [List.map_append]
    exact List.perm_middle
  have hnotin := (List.nodup_cons.mp (hperm.nodup_iff.mp hnodup)).1
  intro k hk
  apply h.handlersWait k
  · rw [hpc]
    simp only [List.mem_append, List.mem_cons] at hk ⊢
    tauto
  · rw [hcurrent]
    intro hsame
    apply hnotin
    rw [Option.some.inj hsame]
    exact List.mem_map_of_mem hk

theorem ServiceInv.setSched (h : ServiceInv workerProcesses v) {s : Sched}
    (hpool : SamePool v.sched s) (hcurrent : ∀ d, s.current = some d → d ∈ v.live)
    (hhandlers : ∀ k ∈ v.handlers, s.current ≠ some k.coro → k.pc = .requestHandler)
    (hacceptor : ∀ d pc, v.acceptor = .alive d pc → s.current ≠ some d → pc.waits = true) :
    ServiceInv workerProcesses { v with sched := s } where
  live := by
    dsimp only
    rw [hpool.idle, hpool.size]
    exact h.live
  next := by
    dsimp only
    rw [hpool.next, hpool.size]
    exact h.next
  size := by
    dsimp only
    rw [hpool.size, hpool.max]
    exact h.size
  current := hcurrent
  handlersWait := hhandlers
  acceptorWaits := hacceptor
  count := h.count
  conns := h.conns
  admitted := by
    dsimp only
    rw [hpool.max]
    exact h.admitted
  positive := h.positive
  drained := h.drained

theorem busy_mem_live (h : ServiceInv workerProcesses v) (hbusy : v.sched.Busy c) :
    c ∈ v.live := by
  have hmem := h.live.mem_iff.mpr hbusy.1
  rw [List.mem_append] at hmem
  exact hmem.resolve_left hbusy.2

theorem not_drained (hexited : v.exited = none) : v.exited ≠ some .drained := by
  rw [hexited]
  exact nofun

theorem admitted_elsewhere {a : Acceptor} {P : Prop} (haccept : ∀ d, a ≠ .alive d .accept)
    (hdispatch : ∀ d conn, a ≠ .alive d (.dispatchCoro conn)) :
    (∀ d, a = .alive d .accept → P) ∧ ∀ d conn, a = .alive d (.dispatchCoro conn) → P :=
  ⟨fun d hd => absurd hd (haccept d), fun d conn hd => absurd hd (hdispatch d conn)⟩

theorem ServiceInv.acceptLoop (h : ServiceInv workerProcesses v) {pc pc' : AcceptPc}
    (hexited : v.exited = none) (hcurrent : v.sched.current = some c)
    (hpc : v.acceptor = .alive c pc) {count : ℤ} {accepted : ℕ} {closed : List ℕ}
    (hcount : count - (Acceptor.alive c pc').weight =
      v.connectionCount - (Acceptor.alive c pc).weight)
    (hconns : ∀ conns, (v.closed ++ ((Acceptor.alive c pc).pending ++ conns)).Perm
        (List.range v.accepted) →
      (closed ++ ((Acceptor.alive c pc').pending ++ conns)).Perm (List.range accepted))
    (hadmitted : 1 < workerProcesses → (pc' = .accept ∨ ∃ conn, pc' = .dispatchCoro conn) →
      count < v.sched.maxCoroSize)
    (hpositive : 0 < count) :
    ServiceInv workerProcesses { v.goto c pc' with
      connectionCount := count
      accepted := accepted
      closed := closed } where
  live := by
    have hlive := h.live
    simp only [Service.live, hpc] at hlive
    exact hlive
  next := h.next
  size := h.size
  current d hd := by
    have hmem := h.current d hd
    simp only [Service.live, hpc] at hmem
    exact hmem
  handlersWait := h.handlersWait
  acceptorWaits d pc hd hne := by
    cases hd
    exact absurd hcurrent hne
  count := by
    have hold := h.count
    rw [hpc] at hold
    simp only [Service.goto]
    omega
  conns := by
    have hold := h.conns
    rw [hpc] at hold
    exact hconns _ hold
  admitted hP := by
    constructor
    · intro d hd
      cases hd
      exact hadmitted hP (Or.inl rfl)
    · intro d conn hd
      cases hd
      exact hadmitted hP (Or.inr ⟨conn, rfl⟩)
  positive _ := hpositive
  drained hdrained := absurd hdrained (not_drained hexited)

theorem ServiceInv.goto (h : ServiceInv workerProcesses v) {pc pc' : AcceptPc}
    (hexited : v.exited = none) (hcurrent : v.sched.current = some c)
    (hpc : v.acceptor = .alive c pc)
    (hweight : (Acceptor.alive c pc').weight = (Acceptor.alive c pc).weight)
    (hpending : (Acceptor.alive c pc').pending = (Acceptor.alive c pc).pending)
    (hadmitted : 1 < workerProcesses → (pc' = .accept ∨ ∃ conn, pc' = .dispatchCoro conn) →
      v.connectionCount < v.sched.maxCoroSize) :
    ServiceInv workerProcesses (v.goto c pc') := by
  apply h.acceptLoop hexited hcurrent hpc
  · rw [hweight]
  · intro conns hconns
    rw [hpending]
    exact hconns
  · exact hadmitted
  · exact h.positive hexited

theorem ServiceInv.handler (h : ServiceInv workerProcesses v) {conn : ℕ} {hs hs' : List Handler}
    {pc pc' : HandlePc} (hcurrent : v.sched.current = some c)
    (hpc : v.handlers = hs ++ ⟨c, conn, pc⟩ :: hs') {count : ℤ} {closed : List ℕ}
    {exited : Option Exit} (hle : count ≤ v.connectionCount)
    (hcount : count - Handler.weight ⟨c, conn, pc'⟩ =
      v.connectionCount - Handler.weight ⟨c, conn, pc⟩)
    (hconns : (closed ++ Handler.opened ⟨c, conn, pc'⟩).Perm
      (v.closed ++ Handler.opened ⟨c, conn, pc⟩))
    (hpositive : exited = none → 0 < count)
    (hdrained : exited = some .drained →
      v.acceptor.left = true ∧ ∀ k ∈ hs ++ ⟨c, conn, pc'⟩ :: hs', k.pc = .ended) :
    ServiceInv workerProcesses { v with
      connectionCount := count
      handlers := hs ++ ⟨c, conn, pc'⟩ :: hs'
      closed := closed
      exited := exited } where
  live := by
    have hlive := h.live
    simp only [Service.live, hpc, List.map_append, List.map_cons] at hlive ⊢
    exact hlive
  next := h.next
  size := h.size
  current d hd := by
    have hmem := h.current d hd
    simp only [Service.live, hpc, List.map_append, List.map_cons] at hmem ⊢
    exact hmem
  handlersWait k hk hne := by
    simp only [List.mem_append, List.mem_cons] at hk
    rcases hk with hk | hk | hk
    · exact h.handlersWait k (by simp [hpc, hk]) hne
    · subst hk
      exact absurd hcurrent hne
    · exact h.handlersWait k (by simp [hpc, hk]) hne
  acceptorWaits := h.acceptorWaits
  count := by
    have hold := h.count
    simp only [hpc, List.map_append, List.map_cons, List.sum_append, List.sum_cons] at hold ⊢
    omega
  conns := by
    have hold := h.conns
    simp only [Service.inFlight, hpc, List.flatMap_append, List.flatMap_cons] at hold ⊢
    refine List.Perm.trans ?_ hold
    rw [List.perm_iff_count] at hconns ⊢
    intro x
    have hx := hconns x
    simp only [List.count_append] at hx ⊢
    omega
  admitted hP := by
    obtain ⟨haccept, hdispatch⟩ := h.admitted hP
    constructor
    · intro d hd
      exact lt_of_le_of_lt hle (haccept d hd)
    · intro d conn' hd
      exact lt_of_le_of_lt hle (hdispatch d conn' hd)
  positive := hpositive
  drained := hdrained

theorem Handler.weight_nonneg (k : Handler) : 0 ≤ k.weight := by
  unfold Handler.weight
  split_ifs <;> decide

theorem sum_weight_nonneg (hs : List Handler) : 0 ≤ (hs.map Handler.weight).sum := by
  apply List.sum_nonneg
  intro x hx
  obtain ⟨k, _, rfl⟩ := List.mem_map.mp hx
  exact k.weight_nonneg

theorem ended_of_sum_weight {hs : List Handler} (h : (hs.map Handler.weight).sum = 0) :
    ∀ k ∈ hs, k.pc = .ended := by
  induction hs with
  | nil => simp
  | cons k hs ih =>
    have hk := k.weight_nonneg
    have hrest := sum_weight_nonneg hs
    rw [List.map_cons, List.sum_cons] at h
    intro m hm
    rcases List.mem_cons.mp hm with rfl | hm
    · have hzero : m.weight = 0 := by omega
      unfold Handler.weight at hzero
      by_contra hne
      simp [hne] at hzero
    · exact ih (by omega) m hm

/-- A suspended accept loop counts unless it has been left. -/
theorem left_of_weight {a : Acceptor} (h : a.weight = 0)
    (hwaits : ∀ d pc, a = .alive d pc → pc.waits = true) : a.left = true := by
  cases a with
  | unborn => cases h
  | failed => cases h
  | gone => rfl
  | alive d pc =>
    have hpc := hwaits d pc rfl
    cases pc with
    | testStop => cases h
    | accept => cases h
    | _ => cases hpc

theorem Acceptor.weight_nonneg (a : Acceptor) : 0 ≤ a.weight := by
  rcases a with _ | _ | ⟨_, pc⟩ | _
  · decide
  · decide
  · cases pc <;> simp [Acceptor.weight]
  · decide

theorem leave_inv (h : ServiceInv workerProcesses v) (hexited : v.exited = none)
    (hcurrent : v.sched.current = some c) (hpc : v.acceptor = .alive c .decreaseConn) :
    ServiceInv workerProcesses (v.decreaseConnAndCheck.goto c .ended) := by
  have hcount := h.count
  have hsum := sum_weight_nonneg v.handlers
  have hwait := h.handlers_wait hcurrent hpc
  rw [hpc] at hcount
  simp only [Acceptor.weight] at hcount
  constructor
  · have hlive := h.live
    simp only [Service.live, hpc] at hlive
    exact hlive
  · exact h.next
  · exact h.size
  · intro d hd
    have hmem := h.current d hd
    simp only [Service.live, hpc] at hmem
    exact hmem
  · exact h.handlersWait
  · intro d pc hd hne
    cases hd
    exact absurd hcurrent hne
  · simp only [Service.goto, Service.decreaseConnAndCheck, Acceptor.weight]
    omega
  · have hconns := h.conns
    rw [hpc] at hconns
    exact hconns
  · exact fun _ => admitted_elsewhere (by simp [Service.goto]) (by simp [Service.goto])
  · intro hnone
    simp only [Service.goto, Service.decreaseConnAndCheck, hexited] at hnone ⊢
    split_ifs at hnone with hzero
    omega
  · intro hdrained
    simp only [Service.goto, Service.decreaseConnAndCheck, hexited] at hdrained ⊢
    split_ifs at hdrained with hzero
    refine ⟨rfl, ended_of_sum_weight ?_⟩
    omega

theorem decreaseConn_inv (h : ServiceInv workerProcesses v) (hexited : v.exited = none)
    {conn : ℕ} {hs hs' : List Handler} (hcurrent : v.sched.current = some c)
    (hpc : v.handlers = hs ++ ⟨c, conn, .decreaseConn⟩ :: hs') :
    ServiceInv workerProcesses
      { v.decreaseConnAndCheck with handlers := hs ++ ⟨c, conn, .ended⟩ :: hs' } := by
  have hcount := h.count
  have hsum := sum_weight_nonneg (hs ++ hs')
  have hacceptor := v.acceptor.weight_nonneg
  simp only [hpc, List.map_append, List.map_cons, List.sum_append, List.sum_cons,
    Handler.weight] at hcount hsum
  simp only [reduceCtorEq, if_false] at hcount
  apply h.handler hcurrent hpc
  · simp only [Service.decreaseConnAndCheck]
    omega
  · simp [Service.decreaseConnAndCheck, Handler.weight]
  · exact List.Perm.refl _
  · intro hnone
    simp only [Service.decreaseConnAndCheck, hexited] at hnone ⊢
    split_ifs at hnone with hzero
    omega
  · intro hdrained
    simp only [Service.decreaseConnAndCheck, hexited] at hdrained
    split_ifs at hdrained with hzero
    constructor
    · apply left_of_weight
      · omega
      · intro d pc hd
        exact h.acceptor_waits (k := ⟨c, conn, .decreaseConn⟩) hcurrent (by simp [hpc]) hd
    · apply ended_of_sum_weight
      simp only [List.map_append, List.map_cons, List.sum_append, List.sum_cons, Handler.weight,
        if_true]
      omega

theorem dispatch_inv (h : ServiceInv workerProcesses v) {conn : ℕ} {mem : Bool} {id : ℕ}
    {s : Sched} (hexited : v.exited = none) (hcurrent : v.sched.current = some c)
    (hpc : v.acceptor = .alive c (.dispatchCoro conn))
    (hget : v.sched.getCoroutine mem = some (id, s)) :
    ServiceInv workerProcesses { v.goto c .increaseConn with
      sched := (v.sched.dispatchCoro mem).2
      handlers := v.handlers ++ [⟨id, conn, .requestHandler⟩] } := by
  obtain ⟨hlive, hnext, hsize⟩ := dispatchCoro_pool hget h.live h.next h.size
  have hwait := h.handlers_wait hcurrent hpc
  simp only [Service.live, hpc, Acceptor.coros] at hlive
  constructor
  · refine List.Perm.trans ?_ hlive
    simp only [Service.live, Service.goto, Acceptor.coros, List.map_append, List.map_cons,
      List.map_nil]
    grind
  · exact hnext
  · simp only [dispatchCoro_max]
    exact hsize
  · intro d hd
    simp only [dispatchCoro_current, hcurrent] at hd
    cases hd
    simp [Service.live, Service.goto, Acceptor.coros]
  · intro k hk _
    rcases List.mem_append.mp hk with hk | hk
    · exact hwait k hk
    · rw [List.mem_singleton.mp hk]
  · intro d pc hd hne
    cases hd
    simp only [dispatchCoro_current] at hne
    exact absurd hcurrent hne
  · have hcount := h.count
    rw [hpc] at hcount
    simp only [Service.goto, Acceptor.weight, List.map_append, List.map_cons, List.map_nil,
      List.sum_append, List.sum_singleton, Handler.weight, reduceCtorEq, if_false] at hcount ⊢
    omega
  · have hconns := h.conns
    rw [hpc] at hconns
    refine List.Perm.trans ?_ hconns
    simp only [Service.goto, Acceptor.pending, Service.inFlight, List.flatMap_append,
      List.flatMap_singleton, Handler.opened]
    grind
  · exact fun _ => admitted_elsewhere (by simp [Service.goto]) (by simp [Service.goto])
  · exact h.positive
  · intro hdrained
    exact absurd hdrained (not_drained hexited)

theorem boot_inv (h : ServiceInv workerProcesses v) {mem : Bool} {id : ℕ} {s : Sched}
    (hexited : v.exited = none) (hacceptor : v.acceptor = .unborn)
    (hget : v.sched.getCoroutine mem = some (id, s)) :
    ServiceInv workerProcesses
      { v.goto id .testStop with sched := (v.sched.dispatchCoro mem).2 } := by
  obtain ⟨hlive, hnext, hsize⟩ := dispatchCoro_pool hget h.live h.next h.size
  simp only [Service.live, hacceptor, Acceptor.coros] at hlive
  constructor
  · exact hlive
  · exact hnext
  · simp only [dispatchCoro_max]
    exact hsize
  · intro d hd
    simp only [dispatchCoro_current] at hd
    have hmem := h.current d hd
    simp only [Service.live, hacceptor, Acceptor.coros, List.nil_append] at hmem
    simp [Service.live, Service.goto, hmem]
  · intro k hk hne
    simp only [dispatchCoro_current] at hne
    exact h.handlersWait k hk hne
  · intro d pc hd _
    cases hd
    rfl
  · have hcount := h.count
    rw [hacceptor] at hcount
    exact hcount
  · have hconns := h.conns
    rw [hacceptor] at hconns
    exact hconns
  · exact fun _ => admitted_elsewhere (by simp [Service.goto]) (by simp [Service.goto])
  · exact h.positive
  · intro hdrained
    exact absurd hdrained (not_drained hexited)

theorem finish_live {live : List ℕ} (h : ServiceInv workerProcesses v)
    (hlive : v.live.Perm (c :: live)) :
    ((v.sched.finishCoroutine c).idle ++ live).Perm
      (List.range' 1 (v.sched.finishCoroutine c).currCoroSize) := by
  refine List.Perm.trans ?_ h.live
  simp only [Sched.finishCoroutine, List.append_assoc, List.singleton_append]
  exact hlive.symm.append_left _

theorem acceptorEnds_inv (h : ServiceInv workerProcesses v) (hexited : v.exited = none)
    (hcurrent : v.sched.current = some c) (hpc : v.acceptor = .alive c .ended) :
    ServiceInv workerProcesses
      { v with sched := v.sched.finishCoroutine c, acceptor := .gone } := by
  have hwait := h.handlers_wait hcurrent hpc
  constructor
  · apply finish_live h
    simp [Service.live, hpc, Acceptor.coros]
  · exact h.next
  · exact h.size
  · intro d hd
    cases hd
  · intro k hk _
    exact hwait k hk
  · intro d pc hd
    cases hd
  · have hcount := h.count
    rw [hpc] at hcount
    exact hcount
  · have hconns := h.conns
    rw [hpc] at hconns
    exact hconns
  · exact fun _ => admitted_elsewhere (by simp) (by simp)
  · exact h.positive
  · intro hdrained
    exact absurd hdrained (not_drained hexited)

theorem handlerEnds_inv (h : ServiceInv workerProcesses v) (hexited : v.exited = none)
    {conn : ℕ} {hs hs' : List Handler} (hcurrent : v.sched.current = some c)
    (hpc : v.handlers = hs ++ ⟨c, conn, .ended⟩ :: hs') :
    ServiceInv workerProcesses
      { v with sched := v.sched.finishCoroutine c, handlers := hs ++ hs' } := by
  constructor
  · apply finish_live h
    simp only [Service.live, hpc, List.map_append, List.map_cons]
    grind
  · exact h.next
  · exact h.size
  · intro d hd
    cases hd
  · intro k hk _
    exact h.others_wait hcurrent hpc k hk
  · intro d pc hd _
    exact h.acceptor_waits (k := ⟨c, conn, .ended⟩) hcurrent (by simp [hpc]) hd
  · have hcount := h.count
    simp only [hpc, List.map_append, List.map_cons, List.sum_append, List.sum_cons] at hcount ⊢
    simp only [Handler.weight, if_true, zero_add] at hcount ⊢
    exact hcount
  · have hconns := h.conns
    simp only [Service.inFlight, hpc, List.flatMap_append, List.flatMap_cons, Handler.opened,
      List.nil_append] at hconns ⊢
    exact hconns
  · exact h.admitted
  · exact h.positive
  · intro hdrained
    exact absurd hdrained (not_drained hexited)

theorem bootFailed_inv (h : ServiceInv workerProcesses v) (hacceptor : v.acceptor = .unborn)
    (hexited : v.exited = none) :
    ServiceInv workerProcesses { v with acceptor := .failed } := by
  have hlive := h.live
  have hmem := h.current
  have hcount := h.count
  have hconns := h.conns
  simp only [Service.live, hacceptor] at hlive hmem hcount hconns
  exact
    { h with
      live := hlive
      current := hmem
      acceptorWaits := nofun
      count := hcount
      conns := hconns
      admitted := fun _ => ⟨nofun, nofun⟩
      drained := fun hdrained => absurd hdrained (not_drained hexited) }

theorem workerAccept_inv (h : ServiceInv workerProcesses v) (hexited : v.exited = none)
    (lock : Bool) (hcurrent : v.sched.current = some c)
    (hpc : v.acceptor = .alive c .workerAccept) :
    ServiceInv workerProcesses (v.goto c (v.workerAccept workerProcesses lock)) := by
  unfold Service.workerAccept
  split_ifs with hP hcan
  · apply h.goto hexited hcurrent hpc
    · rfl
    · rfl
    · intro _ _
      rw [Bool.and_eq_true] at hcan
      exact of_decide_eq_true hcan.1
  · exact h.goto hexited hcurrent hpc rfl rfl (by simp)
  · apply h.goto hexited hcurrent hpc
    · rfl
    · rfl
    · intro hmany
      exact absurd hmany hP

theorem acceptorSuspend_inv (h : ServiceInv workerProcesses v) {s : Sched} {pc : AcceptPc}
    (hcurrent : v.sched.current = some c) (hpc : v.acceptor = .alive c pc)
    (hwaits : pc.waits = true) (hpool : SamePool v.sched s) (hnone : s.current = none) :
    ServiceInv workerProcesses { v with sched := s } := by
  have hwait := h.handlers_wait hcurrent hpc
  apply h.setSched hpool
  · intro d hd
    rw [hnone] at hd
    cases hd
  · intro k hk _
    exact hwait k hk
  · intro d pc' hd _
    rw [hpc] at hd
    cases hd
    exact hwaits

theorem handlerSuspend_inv (h : ServiceInv workerProcesses v) {s : Sched} {conn : ℕ}
    (hcurrent : v.sched.current = some c)
    (hpc : (⟨c, conn, .requestHandler⟩ : Handler) ∈ v.handlers) (hpool : SamePool v.sched s)
    (hnone : s.current = none) : ServiceInv workerProcesses { v with sched := s } := by
  apply h.setSched hpool
  · intro d hd
    rw [hnone] at hd
    cases hd
  · intro m hm _
    obtain ⟨hs, hs', hsplit⟩ := List.append_of_mem hpc
    rw [hsplit, List.mem_append, List.mem_cons] at hm
    rcases hm with hm | rfl | hm
    · exact h.others_wait hcurrent hsplit m (List.mem_append_left _ hm)
    · rfl
    · exact h.others_wait hcurrent hsplit m (List.mem_append_right _ hm)
  · intro d pc hd _
    exact h.acceptor_waits hcurrent hpc hd

theorem move_inv (h : ServiceInv workerProcesses v) (hexited : v.exited = none)
    (hmove : Move workerProcesses v v') : ServiceInv workerProcesses v' := by
  cases hmove with
  | sigStop => exact { h with }
  | sigExit => exact { h with }
  | stay s hpool hcurrent =>
    apply h.setSched hpool
    · rw [hcurrent]
      exact h.current
    · rw [hcurrent]
      exact h.handlersWait
    · rw [hcurrent]
      exact h.acceptorWaits
  | resume s c hpool hnone hbusy hcurrent =>
    apply h.setSched hpool
    · intro d hd
      cases hcurrent.symm.trans hd
      exact busy_mem_live h hbusy
    · intro k hk _
      exact h.handlersWait k hk (by simp [hnone])
    · intro d pc hd _
      exact h.acceptorWaits d pc hd (by simp [hnone])
  | boot mem id s hacceptor hget => exact boot_inv h hexited hacceptor hget
  | bootFailed mem hacceptor hget => exact bootFailed_inv h hacceptor hexited
  | stop c hcurrent hpc hflag =>
    exact h.goto hexited hcurrent hpc rfl rfl (by simp)
  | noStop c hcurrent hpc hflag =>
    exact h.goto hexited hcurrent hpc rfl rfl (by simp)
  | exit c hcurrent hpc hflag => exact { h with positive := nofun, drained := nofun }
  | noExit c hcurrent hpc hflag =>
    exact h.goto hexited hcurrent hpc rfl rfl (by simp)
  | workerAccept c lock hcurrent hpc => exact workerAccept_inv h hexited lock hcurrent hpc
  | acceptSuspend c s hcurrent hpc hpool hnone =>
    exact acceptorSuspend_inv h hcurrent hpc rfl hpool hnone
  | acceptFailed c hcurrent hpc =>
    exact h.goto hexited hcurrent hpc rfl rfl (by simp)
  | acceptClosed c hcurrent hpc =>
    apply h.acceptLoop hexited hcurrent hpc
    · rfl
    · intro conns hconns
      rw [List.range_succ]
      simp only [Acceptor.pending, List.nil_append] at hconns ⊢
      refine List.Perm.trans ?_ (hconns.append_right [v.accepted])
      simp only [Service.close, Service.goto]
      grind
    · simp
    · exact h.positive hexited
  | accepted c hcurrent hpc =>
    apply h.acceptLoop hexited hcurrent hpc
    · rfl
    · intro conns hconns
      rw [List.range_succ]
      simp only [Acceptor.pending, List.nil_append] at hconns ⊢
      refine List.Perm.trans ?_ (hconns.append_right [v.accepted])
      simp only [Service.goto]
      grind
    · intro hP _
      exact (h.admitted hP).1 c hpc
    · exact h.positive hexited
  | dispatch c conn mem id s hcurrent hpc hget => exact dispatch_inv h hexited hcurrent hpc hget
  | dispatchFailed c conn mem hcurrent hpc hget =>
    exact h.goto hexited hcurrent hpc rfl rfl (by simp)
  | increaseConn c hcurrent hpc =>
    have hpositive := h.positive hexited
    apply h.acceptLoop hexited hcurrent hpc
    · simp [Service.increaseConn, Acceptor.weight]
    · intro conns hconns
      exact hconns
    · simp
    · simp only [Service.increaseConn]
      omega
  | closeFailed c conn hcurrent hpc =>
    apply h.acceptLoop hexited hcurrent hpc
    · rfl
    · intro conns hconns
      simp only [Acceptor.pending, Service.close, List.append_assoc] at hconns ⊢
      exact hconns
    · simp
    · exact h.positive hexited
  | sleep c s hcurrent hpc hpool hnone =>
    have hgoto : ServiceInv workerProcesses (v.goto c .testStop) :=
      h.goto hexited hcurrent hpc rfl rfl (by simp)
    exact acceptorSuspend_inv hgoto hcurrent rfl rfl hpool hnone
  | leave c hcurrent hpc => exact leave_inv h hexited hcurrent hpc
  | acceptorEnds c hcurrent hpc => exact acceptorEnds_inv h hexited hcurrent hpc
  | handlerSuspend c conn s hcurrent hpc hpool hnone =>
    exact handlerSuspend_inv h hcurrent hpc hpool hnone
  | handled c conn hs hs' hcurrent hpc =>
    apply h.handler hcurrent hpc
    · exact le_rfl
    · rfl
    · exact List.Perm.refl _
    · exact h.positive
    · intro hdrained
      exact absurd hdrained (not_drained hexited)
  | closeHandled c conn hs hs' hcurrent hpc =>
    apply h.handler hcurrent hpc
    · exact le_rfl
    · rfl
    · simp [Service.close, Handler.opened]
    · exact h.positive
    · intro hdrained
      exact absurd hdrained (not_drained hexited)
  | decreaseConn c conn hs hs' hcurrent hpc => exact decreaseConn_inv h hexited hcurrent hpc
  | handlerEnds c conn hs hs' hcurrent hpc => exact handlerEnds_inv h hexited hcurrent hpc

theorem serviceStep_inv (h : ServiceInv workerProcesses v)
    (hstep : ServiceStep workerProcesses v v') : ServiceInv workerProcesses v' :=
  move_inv h hstep.1 hstep.2

end Steps

theorem serviceInit_inv (workerProcesses workerConnections : ℕ) (mem : ℕ → Coroutine)
    (hmax : workerConnections < 2 ^ 31) :
    ServiceInv workerProcesses (serviceInit workerConnections mem hmax) where
  live := by simp [serviceInit, scheduleInit, Service.live, Acceptor.coros]
  next := rfl
  size := by simp [serviceInit, scheduleInit]
  current := nofun
  handlersWait := nofun
  acceptorWaits := nofun
  count := rfl
  conns := by simp [serviceInit, Acceptor.pending, Service.inFlight]
  admitted _ := ⟨nofun, nofun⟩
  positive _ := by simp [serviceInit]
  drained := nofun

/-! ## Accounting -/

/-- Handlers that have not reached `close` each have a descriptor. -/
theorem inFlight_of_waiting {hs : List Handler} (h : ∀ k ∈ hs, k.pc = .requestHandler) :
    (hs.flatMap Handler.opened).length = hs.length := by
  rw [List.length_flatMap, List.sum_eq_card_nsmul _ 1]
  · simp
  · intro n hn
    obtain ⟨k, hk, rfl⟩ := List.mem_map.mp hn
    simp [Handler.opened, h k hk]

theorem sum_weight_of_waiting {hs : List Handler} (h : ∀ k ∈ hs, k.pc = .requestHandler) :
    (hs.map Handler.weight).sum = hs.length := by
  rw [List.sum_eq_card_nsmul _ 1]
  · simp
  · intro n hn
    obtain ⟨k, hk, rfl⟩ := List.mem_map.mp hn
    simp [Handler.weight, h k hk]

theorem weight_of_waiting {a : Acceptor} (h : ∀ d pc, a = .alive d pc → pc.waits = true) :
    a.weight = if a.left then 0 else 1 := by
  cases a with
  | alive d pc =>
    have hpc := h d pc rfl
    cases pc with
    | testStop => rfl
    | accept => rfl
    | _ => cases hpc
  | _ => rfl

theorem inFlight_of_ended {hs : List Handler} (h : ∀ k ∈ hs, k.pc = .ended) :
    hs.flatMap Handler.opened = [] := by
  rw [List.flatMap_eq_nil_iff]
  intro k hk
  simp [Handler.opened, h k hk]

/-- What the count says in the main coroutine, when the process exits, and what becomes of the
descriptors: each that was accepted is closed once, or waits for its handler, or is in
flight. -/
structure Accounted (v : Service) : Prop where
  count : v.sched.current = none →
    v.connectionCount = v.inFlight.length + if v.acceptor.left then 0 else 1
  exit : v.exited = some .drained →
    v.acceptor.left = true ∧ v.inFlight = [] ∧ v.closed.Perm (List.range v.accepted)
  alive : v.sched.current = none → v.exited = none → ¬ (v.acceptor.left = true ∧ v.inFlight = [])
  closed : v.closed.Nodup ∧
    (v.closed ++ (v.acceptor.pending ++ v.inFlight)).Perm (List.range v.accepted)

section Accounting

variable {workerProcesses : ℕ} {v v' : Service}

theorem Acceptor.pending_of_left {a : Acceptor} (h : a.left = true) : a.pending = [] := by
  cases a with
  | alive d pc => cases pc <;> simp_all [Acceptor.left, Acceptor.pending]
  | _ => rfl

theorem ServiceInv.count_main (h : ServiceInv workerProcesses v)
    (hnone : v.sched.current = none) :
    v.connectionCount = v.inFlight.length + if v.acceptor.left then 0 else 1 := by
  have hhandlers : ∀ k ∈ v.handlers, k.pc = .requestHandler := by
    intro k hk
    exact h.handlersWait k hk (by simp [hnone])
  have hacceptor : ∀ d pc, v.acceptor = .alive d pc → pc.waits = true := by
    intro d pc hd
    exact h.acceptorWaits d pc hd (by simp [hnone])
  rw [h.count, Service.inFlight, inFlight_of_waiting hhandlers, sum_weight_of_waiting hhandlers,
    weight_of_waiting hacceptor]

theorem ServiceInv.accounted (h : ServiceInv workerProcesses v) : Accounted v where
  count := h.count_main
  exit hdrained := by
    obtain ⟨hleft, hended⟩ := h.drained hdrained
    have hconns := h.conns
    have hnone : v.inFlight = [] := inFlight_of_ended hended
    rw [Acceptor.pending_of_left hleft, hnone, List.append_nil, List.append_nil] at hconns
    exact ⟨hleft, hnone, hconns⟩
  alive hnone hexited hboth := by
    have hcount := h.count_main hnone
    have hpositive := h.positive hexited
    rw [hboth.1, hboth.2] at hcount
    simp at hcount
    omega
  closed := by
    have hnodup := h.conns.nodup_iff.mpr List.nodup_range
    exact ⟨List.Nodup.of_append_left hnodup, h.conns⟩

/-- A step that lowers the count exits if and only if the accept loop has been left and no
connection is in flight. -/
theorem ServiceInv.exit_iff (h : ServiceInv workerProcesses v)
    (hstep : ServiceStep workerProcesses v v')
    (hlower : v'.connectionCount < v.connectionCount) :
    v'.exited = some .drained ↔ v'.acceptor.left = true ∧ v'.inFlight = [] := by
  have hafter := serviceStep_inv h hstep
  constructor
  · intro hdrained
    have hexit := hafter.accounted.exit hdrained
    exact ⟨hexit.1, hexit.2.1⟩
  · intro hboth
    have hcount := hafter.count
    obtain ⟨hexited, hmove⟩ := hstep
    cases hmove with
    | leave c hcurrent hpc =>
      have hwait := h.handlers_wait hcurrent hpc
      have hlength := inFlight_of_waiting hwait
      have hnone : v.handlers.flatMap Handler.opened = [] := hboth.2
      rw [hnone] at hlength
      have hsum := sum_weight_of_waiting hwait
      rw [← hlength] at hsum
      have hzero : v.connectionCount - 1 = 0 := by
        simp only [Service.goto, Service.decreaseConnAndCheck, Acceptor.weight, hsum] at hcount
        exact hcount
      simp [Service.goto, Service.decreaseConnAndCheck, hzero]
    | decreaseConn c conn hs hs' hcurrent hpc =>
      have hwait := h.others_wait hcurrent hpc
      have hlength := inFlight_of_waiting hwait
      have hsum := sum_weight_of_waiting hwait
      have hweight := weight_of_waiting fun d pc => h.acceptor_waits (k := ⟨c, conn, .decreaseConn⟩)
        hcurrent (by simp [hpc])
      have hleft : v.acceptor.left = true := hboth.1
      have hnone := hboth.2
      simp only [Service.inFlight, List.flatMap_append, List.flatMap_cons, Handler.opened,
        List.nil_append] at hnone
      rw [List.flatMap_append, hnone] at hlength
      rw [hleft] at hweight
      have hzero : v.connectionCount - 1 = 0 := by
        simp only [Service.decreaseConnAndCheck, List.map_append, List.map_cons, List.sum_append,
          List.sum_cons, Handler.weight, if_true] at hcount hsum hweight
        simp only [List.length_nil] at hlength
        omega
      simp [Service.decreaseConnAndCheck, hzero]
    | increaseConn c hcurrent hpc =>
      simp only [Service.goto, Service.increaseConn] at hlower
      omega
    | _ => exact absurd hlower (lt_irrefl _)

/-- A dispatch after an admitted `accept` finds a coroutine. -/
theorem ServiceInv.dispatch_ok (h : ServiceInv workerProcesses v) (hP : 1 < workerProcesses)
    {c conn : ℕ} (hpc : v.acceptor = .alive c (.dispatchCoro conn)) :
    (v.sched.dispatchCoro true).1 = 0 := by
  have hcurrent : v.sched.current = some c := by
    by_contra hne
    cases h.acceptorWaits c _ hpc hne
  have hsum := sum_weight_of_waiting (h.handlers_wait hcurrent hpc)
  have hcount := h.count
  have hadmitted := (h.admitted hP).2 c conn hpc
  have hlive := h.live.length_eq
  apply dispatchCoro_ok
  by_cases hidle : v.sched.idle = []
  · right
    -- nothing is idle: the coroutines are the accept loop and the handlers that count
    rw [hpc] at hcount
    simp only [Service.live, hpc, hidle, Acceptor.coros, Acceptor.weight, List.nil_append,
      List.length_append, List.length_map, List.length_singleton, List.length_range'] at hlive hcount
    omega
  · exact Or.inl hidle

end Accounting

/-! ## A first connection -/

theorem firstConnections_lt : 2 < 2 ^ 31 := by decide

/-- One of two workers, with room for two coroutines, before any statement. -/
def firstWorker : Service := serviceInit 2 (fun _ => ⟨0, false⟩) firstConnections_lt

def firstLoop : Service :=
  { firstWorker.goto 1 .testStop with
    sched := { (firstWorker.sched.dispatchCoro true).2 with current := some 1 } }

def firstAccepted : Service :=
  { firstLoop.goto 1 (.dispatchCoro 0) with accepted := 1 }

theorem firstAccepted_run : ReflTransGen (ServiceStep 2) firstWorker firstAccepted := by
  have h₁ : ServiceStep 2 firstWorker _ := ⟨rfl, Move.boot _ true 1 _ rfl rfl⟩
  have h₂ : ServiceStep 2 _ firstLoop :=
    ⟨rfl, Move.resume { firstWorker.goto 1 .testStop with
        sched := (firstWorker.sched.dispatchCoro true).2 } _ 1 ⟨rfl, rfl, rfl, rfl⟩ rfl
      ⟨by decide, by decide⟩ rfl⟩
  have h₃ : ServiceStep 2 firstLoop _ := ⟨rfl, Move.noStop _ 1 rfl rfl rfl⟩
  have h₄ : ServiceStep 2 (firstLoop.goto 1 .testExit) _ := ⟨rfl, Move.noExit _ 1 rfl rfl rfl⟩
  have h₅ : ServiceStep 2 (firstLoop.goto 1 .workerAccept) (firstLoop.goto 1 .accept) :=
    ⟨rfl, Move.workerAccept _ 1 true rfl rfl⟩
  have h₆ : ServiceStep 2 (firstLoop.goto 1 .accept) firstAccepted :=
    ⟨rfl, Move.accepted _ 1 rfl rfl⟩
  exact (((((ReflTransGen.single h₁).tail h₂).tail h₃).tail h₄).tail h₅).tail h₆

def firstCounted : Service :=
  { firstAccepted.increaseConn.goto 1 .testStop with
    sched := (firstAccepted.sched.dispatchCoro true).2
    handlers := [⟨2, 0, .requestHandler⟩] }

def firstServed : Service :=
  firstCounted.suspend { firstCounted.sched with current := none }

theorem firstServed_run : ReflTransGen (ServiceStep 2) firstAccepted firstServed := by
  have h₁ : ServiceStep 2 firstAccepted
      { firstCounted.goto 1 .increaseConn with connectionCount := 1 } :=
    ⟨rfl, Move.dispatch _ 1 0 true 2 _ rfl rfl rfl⟩
  have h₂ : ServiceStep 2 { firstCounted.goto 1 .increaseConn with connectionCount := 1 }
      firstCounted := ⟨rfl, Move.increaseConn _ 1 rfl rfl⟩
  have h₃ : ServiceStep 2 firstCounted _ := ⟨rfl, Move.noStop _ 1 rfl rfl rfl⟩
  have h₄ : ServiceStep 2 (firstCounted.goto 1 .testExit) _ :=
    ⟨rfl, Move.noExit _ 1 rfl rfl rfl⟩
  have h₅ : ServiceStep 2 (firstCounted.goto 1 .workerAccept)
      (firstCounted.goto 1 .scheduleTimeout) := ⟨rfl, Move.workerAccept _ 1 true rfl rfl⟩
  have h₆ : ServiceStep 2 (firstCounted.goto 1 .scheduleTimeout) firstServed :=
    ⟨rfl, Move.sleep _ 1 _ rfl rfl ⟨rfl, rfl, rfl, rfl⟩ rfl⟩
  exact (((((ReflTransGen.single h₁).tail h₂).tail h₃).tail h₄).tail h₅).tail h₆

/-- In every run of a worker the count is right, the last decrease exits, and every accepted
descriptor is closed once. -/
theorem service_accounted (workerProcesses workerConnections : ℕ) (mem : ℕ → Coroutine)
    (hmax : workerConnections < 2 ^ 31) (v : Service)
    (hrun : ReflTransGen (ServiceStep workerProcesses)
      (serviceInit workerConnections mem hmax) v) :
    Accounted v ∧ ∀ v', ServiceStep workerProcesses v v' →
      v'.connectionCount < v.connectionCount →
      (v'.exited = some .drained ↔ v'.acceptor.left = true ∧ v'.inFlight = []) := by
  have hinv := Foundations.run_invariant (ServiceInv workerProcesses)
    (fun _ _ => serviceStep_inv) (serviceInit_inv workerProcesses workerConnections mem hmax) hrun
  exact ⟨hinv.accounted, fun v' => hinv.exit_iff⟩

theorem service_accounted_first : firstServed.sched.current = none ∧
    firstServed.connectionCount = 2 ∧ firstServed.inFlight = [0] ∧ Accounted firstServed :=
  ⟨rfl, rfl, rfl, (service_accounted 2 2 _ firstConnections_lt firstServed
    (firstAccepted_run.trans firstServed_run)).1⟩

/-- In every run of one of several workers, a coroutine can be dispatched for every accepted
connection; and the coroutines are the idle and the live ones. -/
theorem service_admission (workerProcesses workerConnections : ℕ) (mem : ℕ → Coroutine)
    (hmax : workerConnections < 2 ^ 31) (hP : 1 < workerProcesses) (v : Service)
    (hrun : ReflTransGen (ServiceStep workerProcesses)
      (serviceInit workerConnections mem hmax) v) :
    (∀ c conn, v.acceptor = .alive c (.dispatchCoro conn) → (v.sched.dispatchCoro true).1 = 0) ∧
      v.sched.currCoroSize ≤ v.sched.maxCoroSize ∧
      v.sched.currCoroSize = v.sched.idle.length + v.live.length := by
  have hinv := Foundations.run_invariant (ServiceInv workerProcesses)
    (fun _ _ => serviceStep_inv) (serviceInit_inv workerProcesses workerConnections mem hmax) hrun
  refine ⟨fun c conn => hinv.dispatch_ok hP, hinv.size, ?_⟩
  have hlength := hinv.live.length_eq
  simp only [List.length_append, List.length_range'] at hlength
  exact hlength.symm

theorem service_admission_first : (firstAccepted.sched.dispatchCoro true).1 = 0 :=
  (service_admission 2 2 _ firstConnections_lt (by decide) firstAccepted firstAccepted_run).1 1 0 rfl

end Cserv.Process
