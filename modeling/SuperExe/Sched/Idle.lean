import SuperExe.Sched.Timeout

/-! # Idle connections

`mk_sched_check_timeouts` closes the connections of the timeout queue that have waited
too long. It measures from `arrive_time`, which `mk_sched_add_connection` sets and
nothing else does: `mk_http_request_ka_next` notes the time at which the connection
became idle again in `cs->init_time`, where the scheduler does not look. The sum is
kept in an `int`, which holds the time until 2038 only.

`idle_dropped` says what the check does for connections that are still in their first
wait or young enough.
-/

namespace SuperExe.Sched

open SuperExe.Core SuperExe.Lib SuperExe.Http

/-- A connection that the check drops has been in the queue for `timeout` seconds. -/
def DropsIdle (conf : WorkerConf) (w : Worker) : WorkerEvent → Prop
  | .checkTimeouts => ∀ fd c, w.conns fd = some c → (w.step conf .checkTimeouts).conns fd = none →
    c.queuedAt + conf.timeout ≤ w.now
  | _ => True

/-- When the check runs, every connection in the queue has its deadline within an
`int`, and one that was put back into the queue later than it was accepted is younger
than `timeout` seconds. -/
def FirstWait (conf : WorkerConf) (w : Worker) : WorkerEvent → Prop
  | .checkTimeouts => ∀ fd ∈ w.timeoutQueue, ∀ c ∈ w.conns fd,
    c.arriveTime + conf.timeout < 2 ^ 31 ∧
      (c.queuedAt ≠ c.arriveTime → w.now < c.arriveTime + conf.timeout)
  | _ => True

section Check

variable {conf : WorkerConf} {w : Worker}

theorem drop_now (w : Worker) (fd : Nat) : (mkSchedDropConnection w fd).now = w.now := by
  unfold mkSchedDropConnection mkSchedConnTimeoutDel
  repeat' split
  all_goals rfl

theorem drop_other {fd fd' : Nat} (hfd : fd' ≠ fd) :
    (mkSchedDropConnection w fd).conns fd' = w.conns fd' := by
  unfold mkSchedDropConnection
  split
  · rfl
  · next c hc =>
    rw [← timeoutCall_other (w := w) (c := c) hfd (some .del)]
    simp [Function.update_of_ne hfd, Worker.timeoutCall]

/-- One turn of the loop drops the connection it looks at or none. -/
theorem checkTimeout_cases (w : Worker) (fd : Nat) :
    checkTimeout conf w fd = w ∨
      checkTimeout conf w fd = mkSchedDropConnection w fd ∧
        ∀ c, w.conns fd = some c → timedOut conf w.now c = true := by
  unfold checkTimeout
  split
  · next c hc =>
    split
    · next hout =>
      refine .inr ⟨rfl, fun c' hc' => ?_⟩
      rw [hc] at hc'
      cases hc'
      exact hout
    · exact .inl rfl
  · exact .inl rfl

theorem checkTimeout_now (w : Worker) (fd : Nat) : (checkTimeout conf w fd).now = w.now := by
  rcases checkTimeout_cases w fd with hsame | ⟨hdrop, -⟩
  · rw [hsame]
  · rw [hdrop, drop_now]

theorem checkTimeout_conns (conf : WorkerConf) {fd : Nat} (fd' : Nat) {c : SchedConn}
    (hc : w.conns fd = some c) :
    (checkTimeout conf w fd').conns fd = some c ∨ fd' = fd ∧ timedOut conf w.now c = true := by
  rcases checkTimeout_cases w fd' with hsame | ⟨hdrop, hout⟩
  · left
    rw [hsame]
    exact hc
  · by_cases hfd : fd = fd'
    · right
      subst hfd
      exact ⟨rfl, hout c hc⟩
    · left
      rw [hdrop, drop_other hfd]
      exact hc

/-- What the loop drops was linked and past its deadline. The induction is on the
part of the queue the loop has still to go through. -/
theorem checkTimeouts_dropped {fd : Nat} {c : SchedConn} (fds : List Nat)
    (hc : w.conns fd = some c) (hnone : (fds.foldl (checkTimeout conf) w).conns fd = none) :
    fd ∈ fds ∧ timedOut conf w.now c = true := by
  induction fds generalizing w with
  | nil =>
    simp only [List.foldl_nil] at hnone
    rw [hc] at hnone
    cases hnone
  | cons fd' fds ih =>
    rcases checkTimeout_conns conf fd' hc with hkept | ⟨rfl, hout⟩
    · obtain ⟨hmem, hout⟩ := ih hkept hnone
      rw [checkTimeout_now] at hout
      exact ⟨List.mem_cons_of_mem fd' hmem, hout⟩
    · exact ⟨List.mem_cons_self, hout⟩

theorem FirstWait.dropsIdle {e : WorkerEvent} (h : FirstWait conf w e) : DropsIdle conf w e := by
  cases e with
  | checkTimeouts =>
    intro fd c hc hnone
    obtain ⟨hmem, hout⟩ := checkTimeouts_dropped w.timeoutQueue hc hnone
    obtain ⟨hsmall, hyoung⟩ := h fd hmem c hc
    have hdeadline : c.arriveTime + conf.timeout ≤ w.now := by
      unfold timedOut at hout
      rw [decide_eq_true_eq, ← Int.natCast_add, toInt32_eq (by omega) (by omega)] at hout
      exact Int.ofNat_le.mp hout
    -- the deadline counts from the accept, so it is the right one in the first wait only
    by_cases hsame : c.queuedAt = c.arriveTime
    · rw [hsame]
      exact hdeadline
    · have hlate := hyoung hsame
      omega
  | _ => trivial

end Check

/-- In every run of a worker, with any clock that does not go back: a connection is
dropped by the check only after `timeout` seconds in the queue, provided that no check
finds an old connection that was put back into the queue. -/
theorem idle_dropped (conf : WorkerConf) (now : Nat) (es : List WorkerEvent)
    (h : (workerMachine conf).AllSteps (FirstWait conf) (workerStart now) es) :
    (workerMachine conf).AllSteps (DropsIdle conf) (workerStart now) es :=
  h.mono fun _ _ he => he.dropsIdle

instance (conf : WorkerConf) (w : Worker) : (e : WorkerEvent) → Decidable (FirstWait conf w e)
  | .checkTimeouts => inferInstanceAs (Decidable (∀ fd ∈ w.timeoutQueue, ∀ c ∈ w.conns fd,
      c.arriveTime + conf.timeout < 2 ^ 31 ∧
        (c.queuedAt ≠ c.arriveTime → w.now < c.arriveTime + conf.timeout)))
  | .accept _ | .read _ _ _ _ | .done _ _ | .pluginEnd _ _ _ | .sentWhole _ | .close _ | .tick _ =>
    .isTrue trivial

/-- A connection that never sends a request, and one that is served, waits again and
is looked at ten seconds after its accept. -/
theorem idle_dropped_two :
    (workerMachine workerSite).AllSteps (DropsIdle workerSite) (workerStart 1000)
      [.accept 5, .tick 10, .accept 6, .read 6 worldSite getFile false, .tick 4,
        .done 6 worldSite, .tick 1, .checkTimeouts] := by
  refine idle_dropped _ _ _ ?_
  decide

/-- Accepted at second 0, served and idle again at second 10, dropped at second 15. -/
theorem idle_dropped_from_accept :
    ¬ ∀ (conf : WorkerConf) (now : Nat) (es : List WorkerEvent),
      (workerMachine conf).AllSteps (DropsIdle conf) (workerStart now) es := by
  intro h
  have hrun := h workerSite 0 [.accept 5, .read 5 worldSite getFile false, .tick 10,
    .done 5 worldSite, .tick 5, .checkTimeouts]
  obtain ⟨-, -, -, -, -, hcheck, -⟩ := hrun
  set w := (workerMachine workerSite).run (workerStart 0) [.accept 5,
    .read 5 worldSite getFile false, .tick 10, .done 5 worldSite, .tick 5] with hw
  have hlive : (w.conns 5).isSome := by decide
  obtain ⟨c, hc⟩ := Option.isSome_iff_exists.mp hlive
  have hqueued : c.queuedAt = 10 := by
    have hall : ∀ c ∈ w.conns 5, c.queuedAt = 10 := by decide
    exact hall c hc
  have hgone : (w.step workerSite .checkTimeouts).conns 5 = none := by
    have hnone : ((w.step workerSite .checkTimeouts).conns 5).isNone := by decide
    exact Option.isNone_iff_eq_none.mp hnone
  have hidle := hcheck 5 c hc hgone
  have hnow : w.now = 15 := by decide
  have htimeout : workerSite.timeout = 15 := rfl
  change c.queuedAt + workerSite.timeout ≤ w.now at hidle
  omega

end SuperExe.Sched
