import SuperExe.Http.Pipeline

/-! # The timeout queue of a worker

Model of the connections of a worker (`struct mk_sched_worker`,
`include/monkey/mk_scheduler.h`) as far as its `timeout_queue` is concerned:
`mk_sched_add_connection`, `mk_sched_remove_client`, `mk_sched_check_timeouts`
(`mk_server/mk_scheduler.c`), `mk_sched_conn_timeout_add` and
`mk_sched_conn_timeout_del`, and the callbacks of the HTTP sessions, which also end
requests for the plugins (`mk_plugin_http_request_end`, `mk_server/mk_plugin.c`).

`timeout_queue_iff` is the invariant of the queue over all runs of a worker.
-/

namespace SuperExe.Sched

open SuperExe.Core SuperExe.Lib SuperExe.Http

/-! ## Connections and the queue -/

/-- The configuration of a worker: of its sessions, and `mk_config->timeout`. -/
structure WorkerConf where
  session : SessionConf
  timeout : Nat

/-- `struct mk_sched_conn` with the session behind it. `current` is the request
whose response is being sent; `queuedAt` is not in the source: it is the time at
which the connection was last put into the queue. -/
structure SchedConn where
  cs : Session
  current : Option Prepared
  isTimeoutOn : Bool
  arriveTime : Nat
  queuedAt : Nat

/-- `struct mk_sched_worker`: the connections by descriptor (`rb_queue`), the
descriptors in `timeout_queue`, and the clock, `log_current_utime`. -/
structure Worker where
  conns : Nat → Option SchedConn
  timeoutQueue : List Nat
  now : Nat

/-- A worker without connections. -/
def workerStart (now : Nat) : Worker where
  conns := fun _ => none
  timeoutQueue := []
  now := now

/-- Store a connection. -/
def Worker.put (w : Worker) (fd : Nat) (c : SchedConn) : Worker :=
  { w with conns := Function.update w.conns fd (some c) }

/-- `mk_sched_conn_timeout_add` -/
def mkSchedConnTimeoutAdd (w : Worker) (fd : Nat) (c : SchedConn) : Worker :=
  if c.isTimeoutOn = false then
    { w.put fd { c with isTimeoutOn := true, queuedAt := w.now } with
      timeoutQueue := w.timeoutQueue ++ [fd] }
  else w.put fd c

/-- `mk_sched_conn_timeout_del` -/
def mkSchedConnTimeoutDel (w : Worker) (fd : Nat) (c : SchedConn) : Worker :=
  if c.isTimeoutOn = true then
    { w.put fd { c with isTimeoutOn := false } with timeoutQueue := w.timeoutQueue.erase fd }
  else w.put fd c

/-- What a callback has done to the queue. -/
def Worker.timeoutCall (w : Worker) (fd : Nat) (c : SchedConn) : Option TimeoutCall → Worker
  | some .add => mkSchedConnTimeoutAdd w fd c
  | some .del => mkSchedConnTimeoutDel w fd c
  | none => w.put fd c

/-- `mk_sched_add_connection`. The kernel does not give out a descriptor that is in
use (`mk_bug`). -/
def mkSchedAddConnection (w : Worker) (fd : Nat) : Worker :=
  match w.conns fd with
  | some _ => w
  | none =>
    mkSchedConnTimeoutAdd w fd
      { cs := sessionZero, current := none, isTimeoutOn := false, arriveTime := w.now,
        queuedAt := w.now }

/-- `mk_sched_drop_connection`, which is `mk_sched_remove_client`. -/
def mkSchedDropConnection (w : Worker) (fd : Nat) : Worker :=
  match w.conns fd with
  | none => w
  | some c =>
    let w := mkSchedConnTimeoutDel w fd c
    { w with conns := Function.update w.conns fd none }

/-- The test of `mk_sched_check_timeouts`; `client_timeout` is an `int`. -/
def timedOut (conf : WorkerConf) (now : Nat) (c : SchedConn) : Bool :=
  toInt32 ((c.arriveTime : Int) + conf.timeout) ≤ (now : Int)

/-- One turn of the loop of `mk_sched_check_timeouts`. -/
def checkTimeout (conf : WorkerConf) (w : Worker) (fd : Nat) : Worker :=
  match w.conns fd with
  | some c => if timedOut conf w.now c then mkSchedDropConnection w fd else w
  | none => w

/-- `mk_sched_check_timeouts` -/
def mkSchedCheckTimeouts (conf : WorkerConf) (w : Worker) : Worker :=
  w.timeoutQueue.foldl (checkTimeout conf) w

/-! ## The machine -/

/-- What happens in a worker. -/
inductive WorkerEvent where
  | accept (fd : Nat)
  /-- a read event; what `errno` is should `cb_read` return `-1` -/
  | read (fd : Nat) (k : World) (data : Bytes) (errnoAgain : Bool)
  /-- the last byte of a response has left -/
  | done (fd : Nat) (k : World)
  /-- a plugin ends its request -/
  | pluginEnd (fd : Nat) (k : World) (close : Bool)
  /-- the last byte has left inside `cb_read`, written by `mk_http_error`: the
  scheduler finds an empty channel and does not call `cb_done` -/
  | sentWhole (fd : Nat)
  /-- the connection is closed by the client or after an error -/
  | close (fd : Nat)
  | tick (seconds : Nat)
  | checkTimeouts

/-- `cb_read`. The scheduler takes a `-1` for nothing to read if `errno` is
`EAGAIN`. -/
def Worker.read (w : Worker) (conf : WorkerConf) (fd : Nat) (k : World) (data : Bytes)
    (errnoAgain : Bool) : Worker :=
  match w.conns fd with
  | none => w
  | some c =>
    let t := mkHttpSchedRead conf.session (conf.session.configure k) c.cs data
    let w := w.timeoutCall fd { c with cs := t.cs, current := t.prepared.or c.current } t.timeout
    if t.ret = none ∧ errnoAgain = false then mkSchedDropConnection w fd else w

/-- `mk_http_request_end` on a connection, and what its caller does. -/
def Worker.requestEnd (w : Worker) (conf : WorkerConf) (fd : Nat) (k : World) (c : SchedConn) :
    Worker :=
  let t := mkHttpRequestEnd (conf.session.configure k) c.cs
  let w := w.timeoutCall fd { c with cs := t.cs, current := t.prepared } t.timeout
  if t.ret = .close then mkSchedDropConnection w fd else w

/-- `mk_plugin_http_request_end` up to `mk_http_request_end`. -/
def mkPluginHttpRequestEnd (close : Bool) (cs : Session) : Session :=
  { cs with completed := false, closeNow := cs.closeNow || close }

/-- The end of the request of a connection, for `cb_done` and for a plugin. -/
def Worker.finish (w : Worker) (conf : WorkerConf) (fd : Nat) (k : World)
    (setUp : Session → Session) : Worker :=
  match w.conns fd with
  | some c =>
    if c.current.isSome then w.requestEnd conf fd k { c with cs := setUp c.cs } else w
  | none => w

def Worker.step (w : Worker) (conf : WorkerConf) : WorkerEvent → Worker
  | .accept fd => mkSchedAddConnection w fd
  | .read fd k data errnoAgain => w.read conf fd k data errnoAgain
  | .done fd k => w.finish conf fd k id
  | .pluginEnd fd k close => w.finish conf fd k (mkPluginHttpRequestEnd close)
  | .sentWhole fd =>
    match w.conns fd with
    | some c => w.put fd { c with current := none }
    | none => w
  | .close fd => mkSchedDropConnection w fd
  | .tick seconds => { w with now := w.now + seconds }
  | .checkTimeouts => mkSchedCheckTimeouts conf w

def workerMachine (conf : WorkerConf) : Machine Worker WorkerEvent where
  step w e := w.step conf e

/-! ## The queue and the flags -/

/-- Every connection is linked as its flag says, once or not at all, and nothing else
is. -/
def Linked (w : Worker) : Prop :=
  ∀ fd, w.timeoutQueue.count fd = ((w.conns fd).map fun c => c.isTimeoutOn.toNat).getD 0

section Linked

variable {w : Worker} {fd : Nat} {c : SchedConn}

theorem Linked.count (h : Linked w) (hc : w.conns fd = some c) :
    w.timeoutQueue.count fd = c.isTimeoutOn.toNat := by
  rw [h fd, hc]
  rfl

theorem Linked.put (h : Linked w) (hc : w.timeoutQueue.count fd = c.isTimeoutOn.toNat) :
    Linked (w.put fd c) := by
  intro fd'
  by_cases hfd : fd' = fd
  · subst hfd
    simpa [Worker.put] using hc
  · simpa [Worker.put, Function.update_of_ne hfd] using h fd'

theorem Linked.add (h : Linked w) (hc : w.timeoutQueue.count fd = c.isTimeoutOn.toNat) :
    Linked (mkSchedConnTimeoutAdd w fd c) := by
  unfold mkSchedConnTimeoutAdd
  split
  · next hoff =>
    intro fd'
    rw [List.count_append]
    by_cases hfd : fd' = fd
    · subst hfd
      rw [hc, hoff]
      simp [Worker.put]
    · have hne : fd ≠ fd' := fun heq => hfd heq.symm
      simpa [Worker.put, Function.update_of_ne hfd, List.count_singleton, hne] using h fd'
  · exact h.put hc

theorem Linked.del (h : Linked w) (hc : w.timeoutQueue.count fd = c.isTimeoutOn.toNat) :
    Linked (mkSchedConnTimeoutDel w fd c) := by
  unfold mkSchedConnTimeoutDel
  split
  · next hon =>
    intro fd'
    by_cases hfd : fd' = fd
    · subst hfd
      rw [List.count_erase_self, hc, hon]
      simp [Worker.put]
    · rw [List.count_erase_of_ne hfd]
      simpa [Worker.put, Function.update_of_ne hfd] using h fd'
  · exact h.put hc

theorem Linked.timeoutCall (h : Linked w) (hc : w.timeoutQueue.count fd = c.isTimeoutOn.toNat)
    (call : Option TimeoutCall) : Linked (w.timeoutCall fd c call) := by
  rcases call with _ | call
  · exact h.put hc
  · cases call with
    | add => exact h.add hc
    | del => exact h.del hc

/-- Behind `mk_sched_conn_timeout_del` the connection is not linked. -/
theorem Linked.del_count (hc : w.timeoutQueue.count fd = c.isTimeoutOn.toNat) :
    (mkSchedConnTimeoutDel w fd c).timeoutQueue.count fd = 0 := by
  unfold mkSchedConnTimeoutDel
  split
  · next hon => rw [List.count_erase_self, hc, hon]; rfl
  · next hoff =>
    have hfalse : c.isTimeoutOn = false := Bool.eq_false_iff.mpr hoff
    simp only [Worker.put]
    rw [hc, hfalse]
    rfl

theorem Linked.drop (h : Linked w) (fd : Nat) : Linked (mkSchedDropConnection w fd) := by
  unfold mkSchedDropConnection
  split
  · exact h
  · next c hc =>
    have hcount := h.count hc
    have hdel := h.del hcount
    intro fd'
    by_cases hfd : fd' = fd
    · subst hfd
      simpa using Linked.del_count hcount
    · simpa [Function.update_of_ne hfd] using hdel fd'

end Linked

/-! ## Who is in the queue -/

/-- The connections in the queue are those on which no response is being sent. -/
def Watched (w : Worker) : Prop :=
  ∀ fd c, w.conns fd = some c → (c.isTimeoutOn = true ↔ c.current = none)

section Watched

variable {w : Worker} {fd : Nat} {c : SchedConn}

theorem Watched.update (h : Watched w) {o : Option SchedConn}
    (ho : ∀ c ∈ o, c.isTimeoutOn = true ↔ c.current = none) (queue : List Nat) :
    Watched { w with conns := Function.update w.conns fd o, timeoutQueue := queue } := by
  intro fd' c' hc'
  by_cases hfd : fd' = fd
  · subst hfd
    exact ho c' (by simpa using hc')
  · exact h fd' c' (by simpa [Function.update_of_ne hfd] using hc')

theorem Watched.put (h : Watched w) (hc : c.isTimeoutOn = true ↔ c.current = none) :
    Watched (w.put fd c) :=
  h.update (by simpa using hc) w.timeoutQueue

theorem Watched.add (h : Watched w) (hidle : c.current = none) :
    Watched (mkSchedConnTimeoutAdd w fd c) := by
  unfold mkSchedConnTimeoutAdd
  split
  · exact h.update (by simpa using hidle) _
  · next hon => exact h.put (by simpa [hidle] using hon)

theorem Watched.del (h : Watched w) (hbusy : c.current ≠ none) :
    Watched (mkSchedConnTimeoutDel w fd c) := by
  unfold mkSchedConnTimeoutDel
  split
  · exact h.update (by simpa using hbusy) _
  · next hoff => exact h.put (by simpa [hbusy] using hoff)

theorem timeoutCall_other {fd' : Nat} (hfd : fd' ≠ fd) (call : Option TimeoutCall) :
    (w.timeoutCall fd c call).conns fd' = w.conns fd' := by
  unfold Worker.timeoutCall mkSchedConnTimeoutAdd mkSchedConnTimeoutDel
  repeat' split
  all_goals simp [Worker.put, Function.update_of_ne hfd]

/-- What is stored for a connection that is dropped does not matter. -/
theorem watched_drop (h : ∀ fd' c, fd' ≠ fd → w.conns fd' = some c →
    (c.isTimeoutOn = true ↔ c.current = none)) : Watched (mkSchedDropConnection w fd) := by
  intro fd' c' hc'
  unfold mkSchedDropConnection at hc'
  split at hc'
  · next hnone =>
    refine h fd' c' ?_ hc'
    rintro rfl
    rw [hnone] at hc'
    cases hc'
  · next c hc =>
    by_cases hfd : fd' = fd
    · subst hfd
      simp at hc'
    · refine h fd' c' hfd ?_
      rw [← timeoutCall_other (w := w) (c := c) hfd (some .del)]
      simpa [Function.update_of_ne hfd, Worker.timeoutCall] using hc'

end Watched

/-- The invariant of the queue. -/
structure QueueInv (w : Worker) : Prop where
  linked : Linked w
  watched : Watched w

/-- The request ends while the buffer holds a part of the next one. -/
def LeavesPart (k : World) (cs : Session) : Prop :=
  ¬ k.maxKeepAliveRequest ≤ cs.counter ∧ mkHttpParserMore cs.parser cs.bodyLength = true ∧
    (mkHttpParser (cs.startNext k).bodyLength (cs.startNext k).parserSt).1 = .pending

section Steps

variable {conf : WorkerConf} {w : Worker}

theorem QueueInv.drop (h : QueueInv w) (fd : Nat) : QueueInv (mkSchedDropConnection w fd) :=
  ⟨h.linked.drop fd, watched_drop fun fd' c _ hc => h.watched fd' c hc⟩

theorem QueueInv.accept (h : QueueInv w) (fd : Nat) : QueueInv (mkSchedAddConnection w fd) := by
  unfold mkSchedAddConnection
  split
  · exact h
  · next hnone =>
    have hcount : w.timeoutQueue.count fd = 0 := by
      rw [h.linked fd, hnone]
      rfl
    exact ⟨h.linked.add hcount, h.watched.add rfl⟩

theorem QueueInv.check (h : QueueInv w) : QueueInv (mkSchedCheckTimeouts conf w) := by
  unfold mkSchedCheckTimeouts
  generalize w.timeoutQueue = fds
  -- over the queue as it was before the loop; every turn drops one connection or none
  induction fds generalizing w with
  | nil => exact h
  | cons fd fds ih =>
    refine ih ?_
    unfold checkTimeout
    split
    · split
      · exact h.drop fd
      · exact h
    · exact h

theorem QueueInv.read (h : QueueInv w) (fd : Nat) (k : World) (data : Bytes) (errnoAgain : Bool) :
    QueueInv (w.read conf fd k data errnoAgain) := by
  unfold Worker.read
  split
  · exact h
  · next c hc =>
    have hcount := h.linked.count hc
    have hwatched := h.watched fd c hc
    simp only
    generalize ht : mkHttpSchedRead conf.session (conf.session.configure k) c.cs data = t
    have hout := mkHttpSchedRead_outcome conf.session (conf.session.configure k) c.cs data
    rw [ht] at hout
    have hcall : QueueInv (w.timeoutCall fd
        { c with cs := t.cs, current := t.prepared.or c.current } t.timeout) := by
      refine ⟨h.linked.timeoutCall (c := { c with cs := t.cs, current := t.prepared.or c.current })
        hcount _, ?_⟩
      -- only an accepted request takes the connection out of the queue
      rcases hout with ⟨-, hprepared, htimeout⟩ | ⟨_, _, _, _, _, rfl⟩ | ⟨_, _, _, _, _, _, _, _, rfl⟩
      · rw [hprepared, htimeout]
        exact h.watched.put hwatched
      · exact h.watched.put hwatched
      · exact h.watched.del (by simp)
    split
    · exact hcall.drop fd
    · exact hcall

theorem QueueInv.requestEnd (h : QueueInv w) {fd : Nat} {c : SchedConn}
    (hcount : w.timeoutQueue.count fd = c.isTimeoutOn.toNat) (hoff : c.isTimeoutOn = false)
    (k : World) (hpart : ¬ LeavesPart (conf.session.configure k) c.cs) :
    QueueInv (w.requestEnd conf fd k c) := by
  unfold Worker.requestEnd
  simp only
  generalize ht : mkHttpRequestEnd (conf.session.configure k) c.cs = t
  have hout := mkHttpRequestEnd_outcome (conf.session.configure k) c.cs
  rw [ht] at hout
  have hlinked : Linked (w.timeoutCall fd { c with cs := t.cs, current := t.prepared } t.timeout) :=
    h.linked.timeoutCall (c := { c with cs := t.cs, current := t.prepared }) hcount _
  -- a dropped connection may be in any state before
  have hdrop : QueueInv (mkSchedDropConnection
      (w.timeoutCall fd { c with cs := t.cs, current := t.prepared } t.timeout) fd) := by
    refine ⟨hlinked.drop fd, watched_drop ?_⟩
    intro fd' c' hfd hc'
    rw [timeoutCall_other hfd] at hc'
    exact h.watched fd' c' hc'
  rcases hout with ⟨-, rfl⟩ | ⟨_, _, -, -, -, -, -, rfl⟩ | ⟨_, hbelow, hmore, rfl, hpending, -⟩ |
    ⟨_, -, -, -, -, hret, -, -⟩ | ⟨-, -, -, rfl⟩ | ⟨-, -, -, rfl⟩
  · exact hdrop
  · exact ⟨hlinked, h.watched.put (by simp [hoff])⟩
  · exact absurd ⟨hbelow, hmore, hpending⟩ hpart
  · rw [if_pos hret]
    exact hdrop
  · exact hdrop
  · exact ⟨hlinked, h.watched.add rfl⟩

end Steps

/-! ## Whole runs -/

/-- The flag of a live connection is set exactly when it is linked once, and a live
connection that waits for a request or for the rest of one is linked. -/
structure TimeoutQueueOk (w : Worker) : Prop where
  flagged : ∀ fd c, w.conns fd = some c → (c.isTimeoutOn = true ↔ w.timeoutQueue.count fd = 1)
  waiting : ∀ fd c, w.conns fd = some c → c.current = none → fd ∈ w.timeoutQueue

/-- A response does not end with a part of the next request in the buffer, and not
without `mk_http_request_end`. -/
def EndsClean (conf : WorkerConf) (w : Worker) : WorkerEvent → Prop
  | .done fd k | .pluginEnd fd k _ => ∀ c ∈ w.conns fd, c.current.isSome →
    ¬ LeavesPart (conf.session.configure k) c.cs
  | .sentWhole fd => ∀ c ∈ w.conns fd, c.current = none
  | _ => True

section Run

variable {conf : WorkerConf} {w : Worker}

theorem QueueInv.ok (h : QueueInv w) : TimeoutQueueOk w := by
  constructor
  · intro fd c hc
    rw [h.linked.count hc]
    cases c.isTimeoutOn <;> simp
  · intro fd c hc hidle
    have hon := (h.watched fd c hc).mpr hidle
    have hcount := h.linked.count hc
    rw [hon] at hcount
    exact List.count_pos_iff.mp (by rw [hcount]; decide)

/-- A connection that waits outside the queue. -/
theorem not_ok_of_waiting {fd : Nat} {c : SchedConn} (hc : w.conns fd = some c)
    (hidle : c.current = none) (hcount : w.timeoutQueue.count fd = 0) : ¬ TimeoutQueueOk w := by
  intro h
  have hmem := h.waiting fd c hc hidle
  exact List.count_eq_zero.mp hcount hmem

/-- The end of a request that leaves a part of the next one. -/
theorem not_ok_of_leavesPart {fd : Nat} {c : SchedConn}
    (hcount : w.timeoutQueue.count fd = 0) (k : World)
    (hpart : LeavesPart (conf.session.configure k) c.cs) :
    ¬ TimeoutQueueOk (w.requestEnd conf fd k c) := by
  obtain ⟨hbelow, hmore, hpending⟩ := hpart
  have hend : mkHttpRequestEnd (conf.session.configure k) c.cs =
      { ret := .keep, cs := (c.cs.startNext (conf.session.configure k)).parsed
          (mkHttpParser (c.cs.startNext (conf.session.configure k)).bodyLength
            (c.cs.startNext (conf.session.configure k)).parserSt).2,
        prepared := none, timeout := none } := by
    simp only [mkHttpRequestEnd, hbelow, hmore, if_false, if_true, endNext, hpending]
  unfold Worker.requestEnd
  simp only [hend]
  exact not_ok_of_waiting (by simp [Worker.timeoutCall, Worker.put]; rfl) rfl hcount

/-- A connection on which a response is being sent is not in the queue. -/
theorem Watched.busy (h : Watched w) {fd : Nat} {c : SchedConn} (hc : w.conns fd = some c)
    (hbusy : c.current.isSome) : c.isTimeoutOn = false := by
  refine Bool.eq_false_iff.mpr fun hon => ?_
  rw [(h fd c hc).mp hon] at hbusy
  cases hbusy

theorem QueueInv.finish (h : QueueInv w) {fd : Nat} (k : World) (setUp : Session → Session)
    (hpart : ∀ c ∈ w.conns fd, c.current.isSome →
      ¬ LeavesPart (conf.session.configure k) (setUp c.cs)) :
    QueueInv (w.finish conf fd k setUp) := by
  unfold Worker.finish
  split
  · next c hc =>
    split
    · next hbusy =>
      have hcount := h.linked.count hc
      have hoff := h.watched.busy hc hbusy
      exact h.requestEnd (c := { c with cs := setUp c.cs }) hcount hoff k (hpart c hc hbusy)
    · exact h
  · exact h

/-- Leaving a part of a request behind breaks the invariant at once. -/
theorem QueueInv.finish_part (h : QueueInv w) {fd : Nat} {c : SchedConn} (hc : w.conns fd = some c)
    (hbusy : c.current.isSome) (k : World) {setUp : Session → Session}
    (hpart : LeavesPart (conf.session.configure k) (setUp c.cs)) :
    ¬ TimeoutQueueOk (w.finish conf fd k setUp) := by
  have hcount := h.linked.count hc
  rw [h.watched.busy hc hbusy] at hcount
  unfold Worker.finish
  simp only [hc, hbusy, if_true]
  exact not_ok_of_leavesPart hcount k hpart

theorem queueInv_start (now : Nat) : QueueInv (workerStart now) :=
  ⟨fun _ => rfl, fun fd c hc => by cases hc⟩

theorem QueueInv.step (h : QueueInv w) {e : WorkerEvent} (he : EndsClean conf w e) :
    QueueInv (w.step conf e) := by
  cases e with
  | accept fd => exact h.accept fd
  | read fd k data errnoAgain => exact h.read fd k data errnoAgain
  | done fd k => exact h.finish k id he
  | pluginEnd fd k close => exact h.finish k (mkPluginHttpRequestEnd close) he
  | sentWhole fd =>
    simp only [Worker.step]
    split
    · next c hc =>
      have hcount := h.linked.count hc
      -- no response is being sent, so nothing ends
      have hon := (h.watched fd c hc).mpr (he c hc)
      exact ⟨h.linked.put (c := { c with current := none }) hcount, h.watched.put (by simpa using hon)⟩
    · exact h
  | close fd => exact h.drop fd
  | tick seconds => exact ⟨h.linked, h.watched⟩
  | checkTimeouts => exact h.check

theorem QueueInv.step_bad (h : QueueInv w) {e : WorkerEvent} (he : ¬ EndsClean conf w e) :
    ¬ TimeoutQueueOk (w.step conf e) := by
  cases e with
  | done fd k =>
    simp only [EndsClean, not_forall, not_not] at he
    obtain ⟨c, hc, hbusy, hpart⟩ := he
    exact h.finish_part hc hbusy k hpart
  | pluginEnd fd k close =>
    simp only [EndsClean, not_forall, not_not] at he
    obtain ⟨c, hc, hbusy, hpart⟩ := he
    exact h.finish_part hc hbusy k hpart
  | sentWhole fd =>
    simp only [EndsClean, not_forall] at he
    obtain ⟨c, hc, hbusy⟩ := he
    have hcount := h.linked.count hc
    rw [h.watched.busy hc (Option.isSome_iff_ne_none.mpr hbusy)] at hcount
    have hstep : w.step conf (.sentWhole fd) = w.put fd { c with current := none } := by
      simp only [Worker.step, Option.mem_def.mp hc]
    rw [hstep]
    exact not_ok_of_waiting (by simp [Worker.put]; rfl) rfl hcount
  | _ => exact absurd trivial he

/-- In every run of a worker the flags and the queue agree and every connection that
waits is in the queue, if and only if no response ends with a part of the next
request in the buffer, or without `mk_http_request_end`. -/
theorem timeout_queue_iff (conf : WorkerConf) (now : Nat) (es : List WorkerEvent) :
    (workerMachine conf).AllStates TimeoutQueueOk (workerStart now) es ↔
      (workerMachine conf).AllSteps (EndsClean conf) (workerStart now) es :=
  (workerMachine conf).allStates_iff_allSteps (fun _ h => h.ok) (fun _ _ h he => h.step he)
    (fun _ _ h he => h.step_bad he) (queueInv_start now) es

end Run

/-- The configuration of the sessions above, and the default timeout. -/
def workerSite : WorkerConf where
  session := confSite
  timeout := 15

/-- A request and ten bytes of the next one come in one read; at the end of the first
response the connection waits for the rest, and no timeout will close it. -/
theorem timeout_queue_part_behind :
    ¬ ∀ (conf : WorkerConf) (now : Nat) (es : List WorkerEvent),
      (workerMachine conf).AllStates TimeoutQueueOk (workerStart now) es := by
  intro h
  have hlast := (h workerSite 0 [.accept 5,
    .read 5 worldSite (getFile ++ getFile.take 10) false, .done 5 worldSite]).last
  set w := (workerMachine workerSite).run (workerStart 0) [.accept 5,
    .read 5 worldSite (getFile ++ getFile.take 10) false, .done 5 worldSite] with hw
  have hlive : (w.conns 5).isSome := by decide
  obtain ⟨c, hc⟩ := Option.isSome_iff_exists.mp hlive
  have hidle : c.current = none := by
    have hall : ∀ c ∈ w.conns 5, c.current.isNone := by decide
    exact Option.isNone_iff_eq_none.mp (hall c hc)
  have hmem := hlast.waiting 5 c hc hidle
  revert hmem
  decide

end SuperExe.Sched
