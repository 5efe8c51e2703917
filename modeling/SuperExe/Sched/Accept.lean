import SuperExe.Sched.Timeout
import Mathlib.Data.Set.Card

/-! # Accepting connections, and counting them

Model of `mk_server_listen_handler` (`mk_server/mk_server.c`) with every way in which
`mk_sched_add_connection` and the registration of the event can fail, of the counters
of `struct mk_sched_worker`, and of `_next_target` (`mk_server/mk_scheduler.c`), which
takes the load of a worker from them.

`failed_accept_iff` says when a failed accept leaves no trace, `accounting_iff` in
which runs the counters are right.
-/

namespace SuperExe.Sched

open SuperExe.Core SuperExe.Lib SuperExe.Http

/-! ## Accepting -/

/-- `struct mk_sched_worker` with its two counters, `unsigned long long`. -/
structure SchedWorker extends Worker where
  acceptedConnections : UInt64
  closedConnections : UInt64

/-- `mk_sched_init` -/
def schedWorkerStart (now : Nat) : SchedWorker where
  toWorker := workerStart now
  acceptedConnections := 0
  closedConnections := 0

/-- What the kernel, the plugins and the allocator answer while a connection is
accepted. -/
structure AcceptAnswers where
  /-- the descriptor of `mk_socket_accept`, or `-1` -/
  accept : Option Nat
  /-- what the stage 10 handlers return -/
  stage10 : List PluginRet
  /-- there is memory for the `mk_sched_conn` -/
  malloc : Bool
  /-- `mk_event_add` returns `0` -/
  eventAdd : Bool
deriving DecidableEq, Repr

/-- `mk_plugin_stage_run_10` returns `MK_PLUGIN_RET_CLOSE_CONX`. -/
def mkPluginStageRun10 (rets : List PluginRet) : Bool := rets.any (· = .closeConx)

/-- The end of `mk_sched_add_connection` and of `mk_server_listen_handler`: the worker,
whether there is a connection, and the calls of `network->close`. -/
structure Listened where
  worker : SchedWorker
  conn : Bool
  closes : List Nat

/-- `mk_sched_add_connection` with its failures. -/
def addConnection (w : SchedWorker) (fd : Nat) (a : AcceptAnswers) : Listened :=
  if mkPluginStageRun10 a.stage10 then { worker := w, conn := false, closes := [fd] }
  else if a.malloc = false then { worker := w, conn := false, closes := [] }
  else
    { worker := { w with toWorker := mkSchedAddConnection w.toWorker fd }, conn := true,
      closes := [] }

/-- `mk_server_listen_handler` -/
def mkServerListenHandler (w : SchedWorker) (a : AcceptAnswers) : Listened :=
  match a.accept with
  | none => { worker := w, conn := false, closes := [] }
  | some fd =>
    let r := addConnection w fd a
    -- `error:` closes the descriptor, whoever has closed it before
    if r.conn = false then { r with closes := r.closes ++ [fd] }
    else if a.eventAdd = false then { r with conn := false, closes := r.closes ++ [fd] }
    else
      { r with worker := { r.worker with
          acceptedConnections := r.worker.acceptedConnections + 1 } }

/-- What is expected of an accept that fails: the accepted descriptor is closed once, and
the worker is as it was. -/
def LeavesNoTrace (w : SchedWorker) (a : AcceptAnswers) : Prop :=
  (mkServerListenHandler w a).conn = false →
    (mkServerListenHandler w a).closes = a.accept.toList ∧
      (mkServerListenHandler w a).worker = w

/-- The plugins let the connection in and there is memory for it, but the event loop
does not take it. -/
def Unregistered (a : AcceptAnswers) : Prop :=
  mkPluginStageRun10 a.stage10 = false ∧ a.malloc = true ∧ a.eventAdd = false

instance (a : AcceptAnswers) : Decidable (Unregistered a) := inferInstanceAs (Decidable (_ ∧ _))

section Accept

variable {w : SchedWorker} {a : AcceptAnswers} {fd : Nat}

/-- The five ends of `mk_server_listen_handler`. -/
theorem listenHandler_cases (w : SchedWorker) (a : AcceptAnswers) :
    (a.accept = none ∧ mkServerListenHandler w a = { worker := w, conn := false, closes := [] }) ∨
    ∃ fd, a.accept = some fd ∧
      (mkPluginStageRun10 a.stage10 = true ∧
          mkServerListenHandler w a = { worker := w, conn := false, closes := [fd, fd] } ∨
        mkPluginStageRun10 a.stage10 = false ∧ a.malloc = false ∧
          mkServerListenHandler w a = { worker := w, conn := false, closes := [fd] } ∨
        Unregistered a ∧ mkServerListenHandler w a =
          { worker := { w with toWorker := mkSchedAddConnection w.toWorker fd }, conn := false,
            closes := [fd] } ∨
        mkPluginStageRun10 a.stage10 = false ∧ a.malloc = true ∧ a.eventAdd = true ∧
          mkServerListenHandler w a =
            { worker := { w with toWorker := mkSchedAddConnection w.toWorker fd
                                 acceptedConnections := w.acceptedConnections + 1 },
              conn := true, closes := [] }) := by
  unfold mkServerListenHandler addConnection Unregistered
  cases haccept : a.accept with
  | none => exact .inl ⟨rfl, rfl⟩
  | some fd =>
    refine .inr ⟨fd, rfl, ?_⟩
    cases hplugin : mkPluginStageRun10 a.stage10 with
    | true => simp
    | false =>
      cases hmalloc : a.malloc with
      | false => simp
      | true =>
        cases hevent : a.eventAdd with
        | false => simp
        | true => simp

theorem addConnection_conns (h : w.conns fd = none) :
    (mkSchedAddConnection w.toWorker fd).conns fd ≠ none := by
  simp [mkSchedAddConnection, h, mkSchedConnTimeoutAdd, Worker.put]

/-- For every worker and every way the answers can turn out, with a descriptor that is
not in use: a failed accept leaves no trace if and only if it did not fail because of a
plugin, nor in the event loop. -/
theorem failed_accept_iff (w : SchedWorker) (a : AcceptAnswers)
    (hfresh : ∀ fd ∈ a.accept, w.conns fd = none) :
    LeavesNoTrace w a ↔
      ¬ (a.accept.isSome ∧ (mkPluginStageRun10 a.stage10 = true ∨ Unregistered a)) := by
  unfold LeavesNoTrace
  rcases listenHandler_cases w a with ⟨hnone, heq⟩ | ⟨fd, hsome, hcases⟩
  · simp [heq, hnone]
  · rcases hcases with ⟨hplugin, heq⟩ | ⟨hplugin, hmalloc, heq⟩ | ⟨hun, heq⟩ |
      ⟨hplugin, hmalloc, hevent, heq⟩
    · -- closed by the callee and by the caller
      simp [heq, hsome, hplugin]
    · simp [heq, hsome, Unregistered, hplugin, hmalloc]
    · -- the descriptor is closed, the connection stays in the tree
      refine iff_of_false ?_ (by simp [hsome, hun])
      intro h
      have hsame := (h (by rw [heq])).2
      rw [heq] at hsame
      have hgone := addConnection_conns (w := w) (hfresh fd hsome)
      have hconns := congrArg (fun v : SchedWorker => v.conns fd) hsame
      simp only at hconns
      exact hgone (hconns.trans (hfresh fd hsome))
    · simp [heq, hsome, Unregistered, hplugin, hevent]

/-- Without memory the descriptor is closed, and that is all. -/
theorem failed_accept_no_memory :
    LeavesNoTrace (schedWorkerStart 0)
      { accept := some 5, stage10 := [.notMe], malloc := false, eventAdd := true } :=
  (failed_accept_iff _ _ (by simp [schedWorkerStart, workerStart])).mpr (by decide)

/-- A stage 10 plugin refuses the client: descriptor `5` is closed twice. -/
theorem failed_accept_refused :
    ¬ ∀ (w : SchedWorker) (a : AcceptAnswers), (∀ fd ∈ a.accept, w.conns fd = none) →
      LeavesNoTrace w a := by
  intro h
  have htrace := h (schedWorkerStart 0)
    { accept := some 5, stage10 := [.closeConx], malloc := true, eventAdd := true }
    (by simp [schedWorkerStart, workerStart])
  have hcloses := (htrace rfl).1
  revert hcloses
  decide

end Accept

/-! ## The machine -/

/-- `mk_sched_remove_client` -/
def mkSchedRemoveClient (w : SchedWorker) (fd : Nat) : SchedWorker :=
  match w.conns fd with
  | none => w
  | some _ =>
    { w with
      toWorker := mkSchedDropConnection w.toWorker fd
      closedConnections := w.closedConnections + 1 }

/-- One turn of the loop of `mk_sched_check_timeouts`, with the counters. -/
def SchedWorker.checkTimeout (conf : WorkerConf) (w : SchedWorker) (fd : Nat) : SchedWorker :=
  match w.conns fd with
  | some c => if timedOut conf w.now c then mkSchedRemoveClient w fd else w
  | none => w

/-- `mk_sched_check_timeouts`, with the counters. -/
def SchedWorker.checkTimeouts (conf : WorkerConf) (w : SchedWorker) : SchedWorker :=
  w.timeoutQueue.foldl (SchedWorker.checkTimeout conf) w

/-- The counters do not matter to the queue. -/
theorem checkTimeouts_toWorker (conf : WorkerConf) (w : SchedWorker) :
    (w.checkTimeouts conf).toWorker = mkSchedCheckTimeouts conf w.toWorker := by
  have hturn : ∀ (w : SchedWorker) fd,
      (w.checkTimeout conf fd).toWorker = checkTimeout conf w.toWorker fd := by
    intro w fd
    unfold SchedWorker.checkTimeout checkTimeout mkSchedRemoveClient
    cases hc : w.conns fd with
    | none => rfl
    | some c =>
      simp only
      split
      · rfl
      · rfl
  unfold SchedWorker.checkTimeouts mkSchedCheckTimeouts
  generalize w.timeoutQueue = fds
  induction fds generalizing w with
  | nil => rfl
  | cons fd fds ih =>
    rw [List.foldl_cons, List.foldl_cons, ih, hturn]

/-- What happens to the connections of a worker. -/
inductive SchedEvent where
  /-- the listener is readable -/
  | listen (a : AcceptAnswers)
  /-- a connection is closed: by the client, after an error, at the end of a response, or
  by a plugin (`mk_plugin_sched_remove_client`) -/
  | close (fd : Nat)
  /-- a protocol handler puts a connection into the queue or takes it out -/
  | timeout (fd : Nat) (call : TimeoutCall)
  | tick (seconds : Nat)
  | checkTimeouts

def SchedWorker.step (conf : WorkerConf) (w : SchedWorker) : SchedEvent → SchedWorker
  | .listen a => (mkServerListenHandler w a).worker
  | .close fd => mkSchedRemoveClient w fd
  | .timeout fd call =>
    match w.conns fd with
    | some c => { w with toWorker := w.toWorker.timeoutCall fd c (some call) }
    | none => w
  | .tick seconds => { w with now := w.now + seconds }
  | .checkTimeouts => w.checkTimeouts conf

/-- The load of a worker as `_next_target` computes it. -/
def SchedWorker.load (w : SchedWorker) : UInt64 := w.acceptedConnections - w.closedConnections

/-- The loop of `_next_target` from worker `i` on. -/
def lowestLoad (target : Nat) (cur : UInt64) (i : Nat) : List SchedWorker → Nat × UInt64
  | [] => (target, cur)
  | w :: ws =>
    if w.load < cur then
      if w.load = 0 then (i, 0) else lowestLoad i w.load (i + 1) ws
    else lowestLoad target cur (i + 1) ws

/-- `_next_target` over `sched_list`; `-1` is `none`. -/
def nextTarget (serverCapacity : UInt32) : List SchedWorker → Option Nat
  | [] => none
  | w :: ws =>
    if w.load = 0 then some 0
    else
      let r := lowestLoad 0 w.load 1 ws
      if r.2.toNat ≥ serverCapacity.toNat then none else some r.1

/-- What happens in the server: in one of its workers, or in the balancer. -/
inductive ServerEvent where
  | worker (i : Nat) (e : SchedEvent)
  /-- `mk_server_loop_balancer` hands the listener to the worker `_next_target` chooses -/
  | balance (a : AcceptAnswers)

/-- The worker an event is for, and what happens there. -/
def ServerEvent.dispatch (serverCapacity : UInt32) (ws : List SchedWorker) :
    ServerEvent → Option (Nat × SchedEvent)
  | .worker i e => some (i, e)
  | .balance a => (nextTarget serverCapacity ws).map fun t => (t, .listen a)

def serverStep (conf : WorkerConf) (serverCapacity : UInt32) (ws : List SchedWorker)
    (e : ServerEvent) : List SchedWorker :=
  match e.dispatch serverCapacity ws with
  | some (i, e) => ws.modify i fun w => w.step conf e
  | none => ws

def serverMachine (conf : WorkerConf) (serverCapacity : UInt32) :
    Machine (List SchedWorker) ServerEvent where
  step ws e := serverStep conf serverCapacity ws e

/-! ## The balance of a worker -/

/-- The connections in `rb_queue`. -/
def SchedWorker.live (w : SchedWorker) : Set Nat := {fd | w.conns fd ≠ none}

/-- What is expected of the counters. -/
structure Accounted (w : SchedWorker) : Prop where
  closed_le : w.closedConnections ≤ w.acceptedConnections
  load : w.load.toNat = w.live.ncard

/-- The invariant: every connection that was accepted is in the tree or has been
closed. -/
structure Balanced (w : SchedWorker) : Prop where
  finite : w.live.Finite
  balance : w.acceptedConnections.toNat = w.closedConnections.toNat + w.live.ncard

/-- A connection that was allocated is also registered, and there is room for it in the
counter. -/
def Registers (w : SchedWorker) : SchedEvent → Prop
  | .listen a => a.accept.isSome → mkPluginStageRun10 a.stage10 = false → a.malloc = true →
    a.eventAdd = true ∧ w.acceptedConnections.toNat + 1 < 2 ^ 64
  | _ => True

/-- The kernel hands out no descriptor that is in use. -/
def FreshFd (w : SchedWorker) : SchedEvent → Prop
  | .listen a => ∀ fd ∈ a.accept, w.conns fd = none
  | _ => True

section Balance

variable {w : SchedWorker} {fd : Nat}

theorem Balanced.accounted (h : Balanced w) : Accounted w := by
  have hle : w.closedConnections ≤ w.acceptedConnections := by
    rw [UInt64.le_iff_toNat_le, h.balance]
    exact Nat.le_add_right _ _
  refine ⟨hle, ?_⟩
  rw [SchedWorker.load, UInt64.toNat_sub_of_le _ _ hle, h.balance]
  omega

theorem live_add (h : w.conns fd = none) (accepted : UInt64) :
    ({ w with toWorker := mkSchedAddConnection w.toWorker fd
              acceptedConnections := accepted } : SchedWorker).live = insert fd w.live := by
  ext fd'
  simp only [SchedWorker.live, mkSchedAddConnection, h, mkSchedConnTimeoutAdd, Worker.put,
    if_true, Set.mem_ofPred_eq, Set.mem_insert_iff]
  by_cases hfd : fd' = fd
  · simp [hfd]
  · simp [hfd]

theorem live_drop (closed : UInt64) (hc : w.conns fd ≠ none) :
    ({ w with toWorker := mkSchedDropConnection w.toWorker fd
              closedConnections := closed } : SchedWorker).live = w.live \ {fd} := by
  obtain ⟨c, hc⟩ := Option.ne_none_iff_exists'.mp hc
  ext fd'
  simp only [SchedWorker.live, Set.mem_ofPred_eq, Set.mem_sdiff, Set.mem_singleton_iff]
  by_cases hfd : fd' = fd
  · simp [mkSchedDropConnection, hc, hfd]
  · have hsame : (mkSchedDropConnection w.toWorker fd).conns fd' = w.conns fd' := by
      simp only [mkSchedDropConnection, hc, Function.update_of_ne hfd]
      exact timeoutCall_other hfd (some .del)
    rw [hsame]
    simp [hfd]

theorem Balanced.remove (h : Balanced w) (fd : Nat) : Balanced (mkSchedRemoveClient w fd) := by
  unfold mkSchedRemoveClient
  split
  · exact h
  · next c hc =>
    have hmem : fd ∈ w.live := by simp [SchedWorker.live, hc]
    have hpos : 0 < w.live.ncard := (Set.ncard_pos h.finite).mpr ⟨fd, hmem⟩
    have hlive := live_drop (w := w) (w.closedConnections + 1) (by simp [hc] : w.conns fd ≠ none)
    refine ⟨?_, ?_⟩
    · rw [hlive]
      exact h.finite.sdiff
    · rw [hlive, Set.ncard_sdiff_singleton_of_mem hmem]
      have hroom : w.closedConnections.toNat + 1 < 2 ^ 64 := by
        have hlt := w.acceptedConnections.toNat_lt
        have hbal := h.balance
        omega
      have hplus : (w.closedConnections + 1).toNat = w.closedConnections.toNat + 1 := by
        rw [UInt64.toNat_add]
        exact Nat.mod_eq_of_lt hroom
      have hbal := h.balance
      simp only [hplus]
      omega

theorem Balanced.of_live_eq (h : Balanced w) {v : Worker}
    (hv : ∀ fd, v.conns fd ≠ none ↔ w.conns fd ≠ none) : Balanced { w with toWorker := v } := by
  have hlive : ({ w with toWorker := v } : SchedWorker).live = w.live := by
    ext fd
    exact hv fd
  exact ⟨hlive ▸ h.finite, hlive ▸ h.balance⟩

theorem timeoutCall_live {w : Worker} {c : SchedConn} (hc : w.conns fd = some c)
    (call : Option TimeoutCall) (fd' : Nat) :
    (w.timeoutCall fd c call).conns fd' ≠ none ↔ w.conns fd' ≠ none := by
  by_cases hfd : fd' = fd
  · subst hfd
    unfold Worker.timeoutCall mkSchedConnTimeoutAdd mkSchedConnTimeoutDel
    repeat' split
    all_goals simp [Worker.put, hc]
  · rw [timeoutCall_other hfd]

theorem Balanced.checkTimeouts (h : Balanced w) (conf : WorkerConf) :
    Balanced (w.checkTimeouts conf) := by
  unfold SchedWorker.checkTimeouts
  generalize w.timeoutQueue = fds
  induction fds generalizing w with
  | nil => exact h
  | cons fd fds ih =>
    refine ih ?_
    unfold SchedWorker.checkTimeout
    split
    · split
      · exact h.remove fd
      · exact h
    · exact h

/-- Every step keeps the balance, but for accepts that are not registered. -/
theorem Balanced.step (h : Balanced w) (conf : WorkerConf) {e : SchedEvent} (hfresh : FreshFd w e)
    (hreg : Registers w e) : Balanced (w.step conf e) := by
  cases e with
  | listen a =>
    simp only [SchedWorker.step]
    rcases listenHandler_cases w a with ⟨-, heq⟩ | ⟨fd, hsome, hcases⟩
    · rw [heq]
      exact h
    · have hnone := hfresh fd hsome
      rcases hcases with ⟨-, heq⟩ | ⟨-, -, heq⟩ | ⟨⟨hplugin, hmalloc, hevent⟩, -⟩ |
        ⟨hplugin, hmalloc, -, heq⟩
      · rw [heq]
        exact h
      · rw [heq]
        exact h
      · have hno := (hreg (by simp [hsome]) hplugin hmalloc).1
        rw [hevent] at hno
        cases hno
      · have hroom := (hreg (by simp [hsome]) hplugin hmalloc).2
        have hnew : fd ∉ w.live := by simp [SchedWorker.live, hnone]
        rw [heq]
        refine ⟨?_, ?_⟩
        · rw [live_add hnone]
          exact h.finite.insert fd
        · rw [live_add hnone, Set.ncard_insert_of_notMem hnew h.finite]
          have hplus : (w.acceptedConnections + 1).toNat = w.acceptedConnections.toNat + 1 := by
            rw [UInt64.toNat_add]
            exact Nat.mod_eq_of_lt hroom
          have hbal := h.balance
          simp only [hplus]
          omega
  | close fd => exact h.remove fd
  | timeout fd call =>
    simp only [SchedWorker.step]
    split
    · next c hc => exact h.of_live_eq (timeoutCall_live hc (some call))
    · exact h
  | tick seconds => exact ⟨h.finite, h.balance⟩
  | checkTimeouts => exact h.checkTimeouts conf

/-- An accept that is not registered, or not counted, shows in the counters at once. -/
theorem Balanced.step_bad (h : Balanced w) (conf : WorkerConf) {e : SchedEvent}
    (hfresh : FreshFd w e) (hreg : ¬ Registers w e) : ¬ Accounted (w.step conf e) := by
  cases e with
  | listen a =>
    simp only [Registers, Classical.not_imp] at hreg
    obtain ⟨haccept, hplugin, hmalloc, hnot⟩ := hreg
    obtain ⟨fd, hsome⟩ := Option.isSome_iff_exists.mp haccept
    have hnone := hfresh fd hsome
    have hnew : fd ∉ w.live := by simp [SchedWorker.live, hnone]
    have hbal := h.balance
    intro hok
    simp only [SchedWorker.step] at hok
    rcases listenHandler_cases w a with ⟨hno, -⟩ | ⟨fd', hsome', hcases⟩
    · rw [hsome] at hno
      cases hno
    obtain rfl : fd = fd' := Option.some.inj (hsome.symm.trans hsome')
    -- of the four outcomes two are excluded, and two leave the counters wrong
    rcases hcases with ⟨hyes, -⟩ | ⟨-, hno, -⟩ | ⟨-, heq⟩ | ⟨-, -, hevent, heq⟩
    · rw [hplugin] at hyes
      cases hyes
    · rw [hmalloc] at hno
      cases hno
    · -- one connection more in the tree, none in the counters
      rw [heq] at hok
      have hload := hok.load
      have hbefore := h.accounted.load
      rw [live_add hnone, Set.ncard_insert_of_notMem hnew h.finite] at hload
      have hsame : ({ w with toWorker := mkSchedAddConnection w.toWorker fd } : SchedWorker).load =
          w.load := rfl
      rw [hsame] at hload
      omega
    · -- the counter wraps
      have hfull : w.acceptedConnections.toNat + 1 = 2 ^ 64 := by
        have hlt := w.acceptedConnections.toNat_lt
        have hge : ¬ w.acceptedConnections.toNat + 1 < 2 ^ 64 := fun hlt => hnot ⟨hevent, hlt⟩
        omega
      have hzero : (w.acceptedConnections + 1).toNat = 0 := by
        rw [UInt64.toNat_add]
        change (w.acceptedConnections.toNat + 1) % 2 ^ 64 = 0
        rw [hfull, Nat.mod_self]
      rw [heq] at hok
      have hle := UInt64.le_iff_toNat_le.mp hok.closed_le
      simp only [hzero] at hle
      have hload := hok.load
      rw [live_add hnone, Set.ncard_insert_of_notMem hnew h.finite, SchedWorker.load,
        UInt64.toNat_sub_of_le _ _ hok.closed_le] at hload
      simp only [hzero] at hload
      omega
  | _ => exact absurd trivial hreg

end Balance

/-! ## The choice of a worker -/

/-- The loop keeps the first worker with the lowest load among those it has seen. -/
theorem lowestLoad_spec (pre ws : List SchedWorker) {target : Nat} {cur : UInt64} {v : SchedWorker}
    (htarget : pre[target]? = some v) (hcur : v.load = cur) (hlow : ∀ u ∈ pre, cur ≤ u.load) :
    ∃ v, (pre ++ ws)[(lowestLoad target cur pre.length ws).1]? = some v ∧
      v.load = (lowestLoad target cur pre.length ws).2 ∧ ∀ u ∈ pre ++ ws, v.load ≤ u.load := by
  -- `target` is the lowest of the workers before
  induction ws generalizing pre target cur v with
  | nil =>
    refine ⟨v, ?_, hcur, ?_⟩
    · simpa [lowestLoad] using htarget
    · intro u hu
      rw [hcur]
      exact hlow u (by simpa using hu)
  | cons w ws ih =>
    have hsplit : pre ++ w :: ws = pre ++ [w] ++ ws := by simp
    have hhere : (pre ++ [w])[pre.length]? = some w := by simp
    have hlen : pre.length + 1 = (pre ++ [w]).length := by simp
    unfold lowestLoad
    -- this one is lower, or the target stays
    by_cases hlt : w.load < cur
    · rw [if_pos hlt]
      by_cases hzero : w.load = 0
      · -- `break`: no load is lower than none
        rw [if_pos hzero]
        refine ⟨w, by simp, hzero, ?_⟩
        intro u _
        rw [hzero]
        exact UInt64.zero_le
      · rw [if_neg hzero, hsplit, hlen]
        refine ih (pre ++ [w]) hhere rfl ?_
        intro u hu
        rcases List.mem_append.mp hu with hu | hu
        · exact UInt64.le_trans (UInt64.le_of_lt hlt) (hlow u hu)
        · rw [List.mem_singleton.mp hu]
          exact UInt64.le_refl _
    · rw [if_neg hlt, hsplit, hlen]
      have hlt' : target < pre.length := by
        obtain ⟨hlt', -⟩ := List.getElem?_eq_some_iff.mp htarget
        exact hlt'
      refine ih (pre ++ [w]) (v := v) ?_ hcur ?_
      · rw [List.getElem?_append_left hlt']
        exact htarget
      · intro u hu
        rcases List.mem_append.mp hu with hu | hu
        · exact hlow u hu
        · rw [List.mem_singleton.mp hu]
          exact UInt64.not_lt.mp hlt

/-- `_next_target` chooses a worker with the lowest load. -/
theorem nextTarget_lowest {serverCapacity : UInt32} {ws : List SchedWorker} {t : Nat}
    (h : nextTarget serverCapacity ws = some t) :
    ∃ v, ws[t]? = some v ∧ ∀ u ∈ ws, v.load ≤ u.load := by
  cases ws with
  | nil => cases h
  | cons w ws =>
    simp only [nextTarget] at h
    split at h
    · next hzero =>
      cases h
      refine ⟨w, rfl, ?_⟩
      intro u _
      rw [hzero]
      exact UInt64.zero_le
    · split at h
      · cases h
      · obtain ⟨v, hv, -, hlow⟩ := lowestLoad_spec [w] ws (v := w) (by rfl : [w][0]? = some w) rfl
          (by simp)
        rw [← Option.some.inj h]
        exact ⟨v, hv, hlow⟩

/-! ## Whole runs -/

/-- What is expected of the server: the counters of every worker are right, and a worker
that is chosen has the fewest connections. -/
structure ServerOk (serverCapacity : UInt32) (ws : List SchedWorker) : Prop where
  accounted : ∀ w ∈ ws, Accounted w
  target : ∀ t, nextTarget serverCapacity ws = some t →
    ∃ v, ws[t]? = some v ∧ ∀ u ∈ ws, v.live.ncard ≤ u.live.ncard

/-- The guard and the promise of the kernel, for the worker an event is for. -/
def AtWorker (G : SchedWorker → SchedEvent → Prop) (serverCapacity : UInt32)
    (ws : List SchedWorker) (e : ServerEvent) : Prop :=
  ∀ i e', e.dispatch serverCapacity ws = some (i, e') → ∀ w ∈ ws[i]?, G w e'

section Run

variable {serverCapacity : UInt32} {ws : List SchedWorker}

theorem serverOk_of_accounted (h : ∀ w ∈ ws, Accounted w) : ServerOk serverCapacity ws := by
  refine ⟨h, ?_⟩
  intro t ht
  obtain ⟨v, hv, hlow⟩ := nextTarget_lowest ht
  refine ⟨v, hv, ?_⟩
  intro u hu
  rw [← (h v (List.mem_of_getElem? hv)).load, ← (h u hu).load]
  exact UInt64.le_iff_toNat_le.mp (hlow u hu)

theorem mem_modify {i : Nat} {f : SchedWorker → SchedWorker} {v : SchedWorker}
    (hv : v ∈ ws.modify i f) : v ∈ ws ∨ ∃ w, ws[i]? = some w ∧ v = f w := by
  obtain ⟨j, hj⟩ := List.mem_iff_getElem?.mp hv
  rw [List.getElem?_modify] at hj
  obtain ⟨w, hw, hwv⟩ := Option.map_eq_some_iff.mp hj
  by_cases hij : i = j
  · subst hij
    exact .inr ⟨w, hw, by simpa using hwv.symm⟩
  · left
    rw [if_neg hij] at hwv
    exact hwv ▸ List.mem_of_getElem? hw

theorem balanced_serverStep (conf : WorkerConf) (h : ∀ w ∈ ws, Balanced w) {e : ServerEvent}
    (hfresh : AtWorker FreshFd serverCapacity ws e)
    (hreg : AtWorker Registers serverCapacity ws e) :
    ∀ w ∈ serverStep conf serverCapacity ws e, Balanced w := by
  intro v hv
  unfold serverStep at hv
  split at hv
  · next i e' he =>
    rcases mem_modify hv with hv | ⟨w, hw, rfl⟩
    · exact h v hv
    · exact (h w (List.mem_of_getElem? hw)).step conf (hfresh i e' he w hw) (hreg i e' he w hw)
  · exact h v hv

theorem not_serverOk_step (conf : WorkerConf) (h : ∀ w ∈ ws, Balanced w) {e : ServerEvent}
    (hfresh : AtWorker FreshFd serverCapacity ws e)
    (hreg : ¬ AtWorker Registers serverCapacity ws e) :
    ¬ ServerOk serverCapacity (serverStep conf serverCapacity ws e) := by
  simp only [AtWorker, not_forall] at hreg
  obtain ⟨i, e', he, w, hw, hbad⟩ := hreg
  intro hok
  have hmem : w.step conf e' ∈ serverStep conf serverCapacity ws e := by
    simp only [serverStep, he]
    refine List.mem_of_getElem? (i := i) ?_
    rw [List.getElem?_modify, Option.mem_def.mp hw]
    simp
  exact (h w (List.mem_of_getElem? hw)).step_bad conf (hfresh i e' he w hw) hbad
    (hok.accounted _ hmem)

theorem balanced_start (now : Nat) : Balanced (schedWorkerStart now) := by
  have hlive : (schedWorkerStart now).live = ∅ := by
    ext fd
    simp [SchedWorker.live, schedWorkerStart, workerStart]
  refine ⟨?_, ?_⟩
  · rw [hlive]
    exact Set.finite_empty
  · rw [hlive, Set.ncard_empty]
    rfl

/-- In every run of a server, with any number of workers, any order of accepts, failed
accepts, closes and timeouts, and any use of the balancer: the counters of all workers
are right in every state, and the balancer chooses a worker with the fewest
connections, if and only if every connection that is allocated is also registered in
the event loop (and no worker accepts 2^64 of them). -/
theorem accounting_iff (conf : WorkerConf) (serverCapacity : UInt32) (nows : List Nat)
    (es : List ServerEvent)
    (hfresh : (serverMachine conf serverCapacity).AllSteps (AtWorker FreshFd serverCapacity)
      (nows.map schedWorkerStart) es) :
    (serverMachine conf serverCapacity).AllStates (ServerOk serverCapacity)
        (nows.map schedWorkerStart) es ↔
      (serverMachine conf serverCapacity).AllSteps (AtWorker Registers serverCapacity)
        (nows.map schedWorkerStart) es := by
  refine (serverMachine conf serverCapacity).allStates_iff_allSteps_of_env
    (I := fun ws => ∀ w ∈ ws, Balanced w) ?_ ?_ ?_ ?_ hfresh
  · exact fun ws h => serverOk_of_accounted fun w hw => (h w hw).accounted
  · exact fun ws e h hf hr => balanced_serverStep conf h hf hr
  · exact fun ws e h hf hr => not_serverOk_step conf h hf hr
  · intro w hw
    obtain ⟨now, -, rfl⟩ := List.mem_map.mp hw
    exact balanced_start now

instance (w : SchedWorker) : (e : SchedEvent) → Decidable (FreshFd w e)
  | .listen a => decidable_of_iff (∀ fd ∈ a.accept, (w.conns fd).isNone) (by simp [FreshFd])
  | .close _ | .timeout _ _ | .tick _ | .checkTimeouts => .isTrue trivial

instance (w : SchedWorker) : (e : SchedEvent) → Decidable (Registers w e)
  | .listen _ => inferInstanceAs (Decidable (_ → _))
  | .close _ | .timeout _ _ | .tick _ | .checkTimeouts => .isTrue trivial

instance (G : SchedWorker → SchedEvent → Prop) [∀ w e, Decidable (G w e)] (serverCapacity : UInt32)
    (ws : List SchedWorker) (e : ServerEvent) : Decidable (AtWorker G serverCapacity ws e) :=
  decidable_of_iff (∀ d ∈ e.dispatch serverCapacity ws, ∀ w ∈ ws[d.1]?, G w d.2)
    ⟨fun h i e' he => h (i, e') he, fun h d hd => h d.1 d.2 hd⟩

/-- Everything goes well with descriptor `fd`. -/
def accepted (fd : Nat) : AcceptAnswers where
  accept := some fd
  stage10 := [.notMe]
  malloc := true
  eventAdd := true

/-- Two workers, a client that is refused by a plugin, one that closes and one that
times out. -/
theorem accounting_iff_two_workers :
    (serverMachine workerSite 100).AllStates (ServerOk 100) ([0, 0].map schedWorkerStart)
      [.worker 1 (.listen (accepted 5)), .balance (accepted 6),
        .worker 0 (.listen { accepted 7 with stage10 := [.closeConx] }), .worker 1 (.close 5),
        .worker 0 (.tick 15), .worker 0 .checkTimeouts] :=
  (accounting_iff workerSite 100 [0, 0] _ (by decide)).mpr (by decide)

/-- The event of an accepted connection cannot be registered: the timeout closes a
connection that was never counted, and the load of the worker is 2^64 - 1. -/
theorem accounting_unregistered :
    ¬ ∀ (conf : WorkerConf) (serverCapacity : UInt32) (nows : List Nat) (es : List ServerEvent),
      (serverMachine conf serverCapacity).AllSteps (AtWorker FreshFd serverCapacity)
        (nows.map schedWorkerStart) es →
      (serverMachine conf serverCapacity).AllStates (ServerOk serverCapacity)
        (nows.map schedWorkerStart) es := by
  intro h
  have hlast := (h workerSite 100 [0] [.worker 0 (.listen { accepted 5 with eventAdd := false }),
    .worker 0 (.tick 15), .worker 0 .checkTimeouts] (by decide)).last
  have hle := fun w hw => (hlast.accounted w hw).closed_le
  revert hle
  decide

end Run

end SuperExe.Sched
