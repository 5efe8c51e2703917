import SuperExe.Http.Isolation
import SuperExe.Lib.Trace
import SuperExe.Sched.Event

/-! # The session of a connection

Model of `struct mk_http_session` (`include/monkey/mk_http.h`) and of the two
callbacks through which the scheduler drives it: `mk_http_sched_read`, with
`mk_http_handler_read` and `mk_http_status_completed`, and `mk_http_sched_done`,
with `mk_http_request_end` and `mk_http_request_ka_next` (`mk_server/mk_http.c`).

One request record and one parser context serve all requests of the connection.
A callback reports, besides the session it leaves, the request it has prepared
and what it has done to the timeout queue of the worker. `lineMachine` is a
connection on which the callbacks are called in any order, on any cuts of what
the client sends.
-/

namespace SuperExe.Http

open SuperExe.Core SuperExe.Lib SuperExe.Sched

/-! ## Data -/

/-- `conn->net->buffer_size` and the part of `mk_config` a session depends on. -/
structure SessionConf where
  bufferSize : Nat
  maxRequestSize : Nat
  keepAlive : Bool
  maxKeepAliveRequest : Int
deriving DecidableEq, Repr

/-- The world as a server with this configuration finds it. -/
def SessionConf.configure (conf : SessionConf) (k : World) : World :=
  { k with keepAlive := conf.keepAlive, maxKeepAliveRequest := conf.maxKeepAliveRequest }

@[simp] theorem configure_maxKeepAliveRequest (conf : SessionConf) (k : World) :
    (conf.configure k).maxKeepAliveRequest = conf.maxKeepAliveRequest := rfl

/-- `MK_REQUEST_CHUNK` -/
def requestChunk : Nat := 4096

/-- The room for a request in a new session. -/
def SessionConf.firstSize (conf : SessionConf) : Nat :=
  if conf.bufferSize > requestChunk then conf.bufferSize else requestChunk

/-- `struct mk_http_session` -/
structure Session where
  /-- `_sched_init` -/
  schedInit : Bool
  /-- `sr_fixed` -/
  sr : HttpRequest
  parser : Parser
  body : Nat → UInt8
  bodyLength : Nat
  bodySize : Nat
  /-- `request_list` holds the record -/
  listed : Bool
  /-- `status` is `MK_REQUEST_STATUS_COMPLETED` -/
  completed : Bool
  closeNow : Bool
  /-- `counter_connections` -/
  counter : Nat

/-- A session in memory that has just been allocated. -/
def sessionZero : Session where
  schedInit := false
  sr := httpRequestZero
  parser := mkHttpParserInit
  body := fun _ => 0
  bodyLength := 0
  bodySize := 0
  listed := false
  completed := false
  closeNow := false
  counter := 0

/-- `mk_sched_conn_timeout_add` or `mk_sched_conn_timeout_del`. -/
inductive TimeoutCall where
  | add
  | del
deriving DecidableEq, Repr

/-- The arguments of `mk_header_prepare` in a list of acts, call for call. -/
def headerCalls (k : World) : Serving → List Act → List (PrepareEnv × ResponseHeaders)
  | _, [] => []
  | s, a :: acts =>
    (match a with
      | .headerPrepare => [(prepareEnv k s, s.sr.headers)]
      | _ => []) ++ headerCalls k (runAct k s a) acts

/-- A call of `mk_http_request_prepare`: what it was given, what it left, and the
calls of `mk_header_prepare` for the response. -/
structure Prepared where
  incoming : Incoming
  serving : Serving
  headers : List (PrepareEnv × ResponseHeaders)

/-- The end of a callback. -/
structure Turn (ρ : Type) where
  ret : ρ
  cs : Session
  prepared : Option Prepared
  timeout : Option TimeoutCall

/-! ## Sessions -/

/-- `mk_http_session_init` -/
def mkHttpSessionInit (conf : SessionConf) (cs : Session) : Session :=
  { cs with
    schedInit := true
    counter := 0
    closeNow := false
    completed := false
    bodySize := conf.firstSize
    bodyLength := 0
    listed := false
    parser := mkHttpParserInit }

/-- `mk_http_session_remove` -/
def mkHttpSessionRemove (cs : Session) : Session :=
  if cs.schedInit then { cs with listed := false, schedInit := false } else cs

/-- What the parser works on. -/
def Session.parserSt (cs : Session) : ParserSt where
  req := cs.sr.toParsedRequest
  p := cs.parser
  buffer := cs.body
  raised := []

/-- The session behind a call of `mk_http_parser`. -/
def Session.parsed (cs : Session) (st : ParserSt) : Session :=
  { cs with
    sr := { cs.sr with toParsedRequest := st.req }
    parser := st.p
    body := st.buffer }

/-- The request the parser has accepted. -/
def Session.incoming (cs : Session) : Incoming where
  req := cs.sr.toParsedRequest
  p := cs.parser
  buffer := cs.body
  counter := cs.counter

/-- `mk_http_request_prepare` on the record of the session. -/
def Session.prepare (k : World) (cs : Session) : Prepared :=
  let s : Serving := { sr := cs.sr, closeNow := cs.closeNow, out := [] }
  let acts := mkHttpRequestPrepare k cs.incoming
  { incoming := cs.incoming, serving := runActs k s acts, headers := headerCalls k s acts }

/-- The session behind it. -/
def Session.served (cs : Session) (pr : Prepared) : Session :=
  { cs with sr := pr.serving.sr, closeNow := pr.serving.closeNow }

/-! ## Reading -/

/-- The room `mk_http_handler_read` makes when the buffer is full; none when the
request is larger than the server takes. -/
def roomFor (conf : SessionConf) (cs : Session) : Option Nat :=
  if cs.bodySize ≤ cs.bodyLength then
    if cs.bodySize + conf.bufferSize > conf.maxRequestSize then none
    else some (cs.bodySize + conf.bufferSize)
  else some cs.bodySize

/-- `read(2)` into the free part of the buffer, with a NUL behind it. -/
def Session.receive (cs : Session) (size : Nat) (bs : Bytes) : Session :=
  { cs with
    bodySize := size
    body := fun x => if x < cs.bodyLength then cs.body x else cstr bs (x - cs.bodyLength)
    bodyLength := cs.bodyLength + bs.length }

/-- `mk_http_handler_read`; `data` is what the socket holds, nothing at the end of
the stream or on an error. The number of bytes taken, or `-1`. -/
def mkHttpHandlerRead (conf : SessionConf) (cs : Session) (data : Bytes) : Option Nat × Session :=
  match roomFor conf cs with
  | none => (none, mkHttpSessionRemove cs)
  | some size =>
    let bs := data.take (size - cs.bodyLength)
    if bs = [] then (none, { cs with bodySize := size })
    else (some bs.length, cs.receive size bs)

/-- The session as `mk_http_sched_read` finds it, created for a new client. -/
def Session.ready (conf : SessionConf) (cs : Session) : Session :=
  if cs.schedInit then cs else mkHttpSessionInit conf cs

/-- The record `mk_http_sched_read` parses into. -/
def Session.enlist (k : World) (cs : Session) : Session :=
  if cs.listed then cs else { cs with listed := true, sr := mkHttpRequestInit k cs.sr }

/-- `mk_http_sched_read` from the parser on, after `n` bytes have been read. -/
def readParsed (k : World) (cs : Session) (n : Nat) : Turn (Option Nat) :=
  let r := mkHttpParser cs.bodyLength cs.parserSt
  let cs := cs.parsed r.2
  match r.1 with
  | .ok =>
    -- mk_http_status_completed
    if cs.completed then
      { ret := none, cs := mkHttpSessionRemove cs, prepared := none, timeout := none }
    else
      let cs := { cs with completed := true }
      let pr := cs.prepare k
      { ret := some n, cs := cs.served pr, prepared := some pr, timeout := some .del }
  | .error => { ret := none, cs := mkHttpSessionRemove cs, prepared := none, timeout := none }
  | .pending => { ret := some n, cs := cs, prepared := none, timeout := none }

/-- `mk_http_sched_read` -/
def mkHttpSchedRead (conf : SessionConf) (k : World) (cs : Session) (data : Bytes) :
    Turn (Option Nat) :=
  match mkHttpHandlerRead conf (cs.ready conf) data with
  | (none, cs) => { ret := none, cs := cs, prepared := none, timeout := none }
  | (some n, cs) => readParsed k (cs.enlist k) n

/-! ## The end of a response -/

/-- `memmove` of what stands behind the request to the front of the buffer. No NUL is
set behind it. -/
def Session.shift (cs : Session) : Session :=
  let n := ((cs.bodyLength : Int) - cs.parser.i).natAbs - 1
  { cs with
    body := fun x => if x < n then cs.body (x + cs.parser.i + 1) else cs.body x
    bodyLength := n }

/-- `mk_http_request_ka_next` -/
def mkHttpRequestKaNext (cs : Session) : Session :=
  { cs with
    bodyLength := 0
    counter := cs.counter + 1
    completed := false
    parser := mkHttpParserInit }

/-- The `shutdown` part of `mk_http_request_end`. -/
def endShutdown (cs : Session) : Turn DoneRet :=
  if cs.closeNow then
    { ret := .close, cs := mkHttpSessionRemove cs, prepared := none, timeout := none }
  else
    { ret := .keep, cs := mkHttpRequestKaNext { cs with listed := false }, prepared := none,
      timeout := some .add }

/-- The record and the parser for a request that is already in the buffer. -/
def Session.startNext (k : World) (cs : Session) : Session :=
  let cs := { cs with counter := cs.counter + 1 }.shift
  { cs with sr := mkHttpRequestInit k cs.sr, parser := mkHttpParserInit }

/-- The pipeline part of `mk_http_request_end`. -/
def endNext (k : World) (cs : Session) : Turn DoneRet :=
  let r := mkHttpParser cs.bodyLength cs.parserSt
  let cs := cs.parsed r.2
  match r.1 with
  | .ok =>
    let pr := cs.prepare k
    { ret := .more, cs := cs.served pr, prepared := some pr, timeout := none }
  -- a part of the next request stays in the buffer, and the record in the list
  | .pending => { ret := .keep, cs := cs, prepared := none, timeout := none }
  | .error => endShutdown { cs with closeNow := true }

/-- `mk_http_request_end` -/
def mkHttpRequestEnd (k : World) (cs : Session) : Turn DoneRet :=
  -- `close_now` is not looked at while the buffer holds more
  if k.maxKeepAliveRequest ≤ cs.counter then endShutdown { cs with closeNow := true }
  else if mkHttpParserMore cs.parser cs.bodyLength then endNext k (cs.startNext k)
  else endShutdown cs

/-! ## What a callback can do -/

section Outcomes

variable {conf : SessionConf} {k : World}

@[simp] theorem ready_schedInit (cs : Session) : (cs.ready conf).schedInit = true := by
  unfold Session.ready
  split
  · assumption
  · rfl

theorem ready_of_schedInit {cs : Session} (h : cs.schedInit = true) : cs.ready conf = cs := by
  simp [Session.ready, h]

/-- The record is all that `enlist` changes. -/
theorem enlist_eq (cs : Session) : ∃ sr, cs.enlist k = { cs with listed := true, sr := sr } := by
  unfold Session.enlist
  split
  · next hlisted => exact ⟨cs.sr, by rw [← hlisted]⟩
  · exact ⟨_, rfl⟩

theorem enlist_of_listed {cs : Session} (h : cs.listed = true) : cs.enlist k = cs := by
  simp [Session.enlist, h]

/-- The three ends of `mk_http_sched_read`. -/
inductive ReadOutcome (conf : SessionConf) (k : World) (cs : Session) (t : Turn (Option Nat)) :
    Prop where
  | closed (hret : t.ret = none) (hprepared : t.prepared = none) (htimeout : t.timeout = none)
  | part (size : Nat) (bs : Bytes) (cs₀ : Session)
      (hcs₀ : cs₀ = ((cs.ready conf).enlist k).receive size bs)
      (hpending : (mkHttpParser cs₀.bodyLength cs₀.parserSt).1 = .pending)
      (ht : t = { ret := some bs.length,
                  cs := cs₀.parsed (mkHttpParser cs₀.bodyLength cs₀.parserSt).2,
                  prepared := none, timeout := none })
  | request (size : Nat) (bs : Bytes) (cs₀ cs₁ : Session)
      (hcs₀ : cs₀ = ((cs.ready conf).enlist k).receive size bs)
      (hok : (mkHttpParser cs₀.bodyLength cs₀.parserSt).1 = .ok) (hnew : cs₀.completed = false)
      (hcs₁ : cs₁ = { cs₀.parsed (mkHttpParser cs₀.bodyLength cs₀.parserSt).2 with
                      completed := true })
      (ht : t = { ret := some bs.length, cs := cs₁.served (cs₁.prepare k),
                  prepared := some (cs₁.prepare k), timeout := some .del })

theorem enlist_receive (cs : Session) (size : Nat) (bs : Bytes) :
    (cs.receive size bs).enlist k = (cs.enlist k).receive size bs := by
  unfold Session.enlist
  by_cases hlisted : cs.listed
  · rw [if_pos hlisted, if_pos (show (cs.receive size bs).listed from hlisted)]
  · rw [if_neg hlisted, if_neg (show ¬ (cs.receive size bs).listed from hlisted)]
    rfl

theorem mkHttpSchedRead_outcome (conf : SessionConf) (k : World) (cs : Session) (data : Bytes) :
    ReadOutcome conf k cs (mkHttpSchedRead conf k cs data) := by
  unfold mkHttpSchedRead mkHttpHandlerRead
  cases roomFor conf (cs.ready conf) with
  | none => exact .closed rfl rfl rfl
  | some size =>
    simp only
    by_cases hbs : data.take (size - (cs.ready conf).bodyLength) = []
    · rw [if_pos hbs]
      exact .closed rfl rfl rfl
    · rw [if_neg hbs]
      simp only [enlist_receive]
      generalize data.take (size - (cs.ready conf).bodyLength) = bs
      generalize hcs₀ : ((cs.ready conf).enlist k).receive size bs = cs₀
      unfold readParsed
      simp only
      cases hret : (mkHttpParser cs₀.bodyLength cs₀.parserSt).1 with
      | pending => exact .part size bs cs₀ hcs₀.symm hret rfl
      | error => exact .closed rfl rfl rfl
      | ok =>
        simp only
        split
        · exact .closed rfl rfl rfl
        · next hnew =>
          exact .request size bs cs₀ _ hcs₀.symm hret (Bool.eq_false_iff.mpr hnew) rfl rfl

/-- The six ends of `mk_http_request_end`. -/
inductive EndOutcome (k : World) (cs : Session) (t : Turn DoneRet) : Prop where
  | limit (hlimit : k.maxKeepAliveRequest ≤ cs.counter)
      (ht : t = { ret := .close, cs := mkHttpSessionRemove { cs with closeNow := true },
                  prepared := none, timeout := none })
  | next (cs₀ cs₁ : Session) (hbelow : ¬ k.maxKeepAliveRequest ≤ cs.counter)
      (hmore : mkHttpParserMore cs.parser cs.bodyLength = true) (hcs₀ : cs₀ = cs.startNext k)
      (hok : (mkHttpParser cs₀.bodyLength cs₀.parserSt).1 = .ok)
      (hcs₁ : cs₁ = cs₀.parsed (mkHttpParser cs₀.bodyLength cs₀.parserSt).2)
      (ht : t = { ret := .more, cs := cs₁.served (cs₁.prepare k),
                  prepared := some (cs₁.prepare k), timeout := none })
  | part (cs₀ : Session) (hbelow : ¬ k.maxKeepAliveRequest ≤ cs.counter)
      (hmore : mkHttpParserMore cs.parser cs.bodyLength = true) (hcs₀ : cs₀ = cs.startNext k)
      (hpending : (mkHttpParser cs₀.bodyLength cs₀.parserSt).1 = .pending)
      (ht : t = { ret := .keep, cs := cs₀.parsed (mkHttpParser cs₀.bodyLength cs₀.parserSt).2,
                  prepared := none, timeout := none })
  | refused (cs₀ : Session) (hbelow : ¬ k.maxKeepAliveRequest ≤ cs.counter)
      (hmore : mkHttpParserMore cs.parser cs.bodyLength = true) (hcs₀ : cs₀ = cs.startNext k)
      (herror : (mkHttpParser cs₀.bodyLength cs₀.parserSt).1 = .error)
      (hret : t.ret = .close) (hprepared : t.prepared = none) (htimeout : t.timeout = none)
  | close (hbelow : ¬ k.maxKeepAliveRequest ≤ cs.counter)
      (hmore : mkHttpParserMore cs.parser cs.bodyLength = false) (hclose : cs.closeNow = true)
      (ht : t = { ret := .close, cs := mkHttpSessionRemove cs, prepared := none, timeout := none })
  | keep (hbelow : ¬ k.maxKeepAliveRequest ≤ cs.counter)
      (hmore : mkHttpParserMore cs.parser cs.bodyLength = false) (hopen : cs.closeNow = false)
      (ht : t = { ret := .keep, cs := mkHttpRequestKaNext { cs with listed := false },
                  prepared := none, timeout := some .add })

theorem mkHttpRequestEnd_outcome (k : World) (cs : Session) :
    EndOutcome k cs (mkHttpRequestEnd k cs) := by
  unfold mkHttpRequestEnd
  by_cases hlimit : k.maxKeepAliveRequest ≤ cs.counter
  · rw [if_pos hlimit]
    exact .limit hlimit rfl
  rw [if_neg hlimit]
  cases hmore : mkHttpParserMore cs.parser cs.bodyLength with
  | true =>
    rw [if_pos rfl]
    generalize hcs₀ : cs.startNext k = cs₀
    unfold endNext
    simp only
    cases hret : (mkHttpParser cs₀.bodyLength cs₀.parserSt).1 with
    | ok => exact .next cs₀ _ hlimit hmore hcs₀.symm hret rfl rfl
    | pending => exact .part cs₀ hlimit hmore hcs₀.symm hret rfl
    | error => exact .refused cs₀ hlimit hmore hcs₀.symm hret rfl rfl rfl
  | false =>
    rw [if_neg Bool.false_ne_true]
    unfold endShutdown
    by_cases hclose : cs.closeNow = true
    · rw [if_pos hclose]
      exact .close hlimit hmore hclose rfl
    · rw [if_neg hclose]
      exact .keep hlimit hmore (Bool.eq_false_iff.mpr hclose) rfl

end Outcomes

/-! ## A connection -/

/-- A connection and what has happened on it: the bytes taken from the stream of
the client, the request whose response is being sent, the requests prepared so
far, and whether a callback has returned `-1`. -/
structure Line where
  cs : Session
  taken : Nat
  current : Option Prepared
  prepared : List Incoming
  removed : Bool

/-- A connection on which nothing has happened; the record may hold anything. -/
def lineStart (cs : Session) : Line where
  cs := { cs with schedInit := false }
  taken := 0
  current := none
  prepared := []
  removed := false

/-- The scheduler calls `cb_read`, and up to `n` bytes of the stream have come, or
`cb_done`. The world is the one the call finds. -/
inductive LineEvent where
  | read (k : World) (n : Nat)
  | done (k : World)

/-- The connection behind a callback that has returned something else than `-1`. -/
def Line.after (s : Line) {ρ : Type} (t : Turn ρ) (current : Option Prepared) : Line :=
  { s with
    cs := t.cs
    current := current
    prepared := s.prepared ++ (t.prepared.map Prepared.incoming).toList }

/-- The connection behind `cb_read`. -/
def Line.afterRead (s : Line) (t : Turn (Option Nat)) : Line :=
  match t.ret with
  | none => { s with cs := t.cs, removed := true }
  | some m => { s.after t (t.prepared.or s.current) with taken := s.taken + m }

/-- The connection behind `cb_done`. -/
def Line.afterDone (s : Line) (t : Turn DoneRet) : Line :=
  match t.ret with
  | .close => { s with cs := t.cs, removed := true }
  | .more | .keep => s.after t t.prepared

/-- One call. A read event needs something to read; `cb_done` is called at the end
of a response only. -/
def Line.step (s : Line) (conf : SessionConf) (stream : Bytes) (e : LineEvent) : Line :=
  if s.removed then s
  else
    match e with
    | .read k n =>
      let data := (stream.drop s.taken).take n
      if data = [] then s
      else s.afterRead (mkHttpSchedRead conf (conf.configure k) s.cs data)
    | .done k =>
      if s.current.isSome then s.afterDone (mkHttpRequestEnd (conf.configure k) s.cs) else s

/-- The connection as a machine. -/
def lineMachine (conf : SessionConf) (stream : Bytes) : Machine Line LineEvent where
  step s e := s.step conf stream e

section Steps

variable {conf : SessionConf} {stream : Bytes} {s : Line}

theorem Line.step_removed (h : s.removed = true) (e : LineEvent) : s.step conf stream e = s := by
  simp [Line.step, h]

theorem Line.step_read (h : s.removed = false) (k : World) {n : Nat}
    (hdata : (stream.drop s.taken).take n ≠ []) :
    s.step conf stream (.read k n) = s.afterRead
      (mkHttpSchedRead conf (conf.configure k) s.cs ((stream.drop s.taken).take n)) := by
  simp only [Line.step, h, hdata, Bool.false_eq_true, if_false]

theorem Line.step_done (h : s.removed = false) (k : World) (hcurrent : s.current.isSome) :
    s.step conf stream (.done k) = s.afterDone (mkHttpRequestEnd (conf.configure k) s.cs) := by
  simp only [Line.step, h, hcurrent, Bool.false_eq_true, if_false, if_true]

end Steps

end SuperExe.Http
