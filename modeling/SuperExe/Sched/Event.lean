import SuperExe.Stream.Channel

/-! # One event of a connection

Model of `mk_sched_event_read`, `mk_sched_event_write` and `mk_sched_event_close`
(`mk_server/mk_scheduler.c`) and of the part of `mk_server_worker_loop`
(`mk_server/mk_server.c`) that handles an event of a connection.

The protocol handler of the connection is a parameter: a callback gets the
session and the channel and may do anything to both. What the network answers is
a list with one entry for each `mk_channel_write` the scheduler makes; when it
runs out, the function has not returned yet. Everything the scheduler does to the
connection is recorded in a log.
-/

namespace SuperExe.Sched

open SuperExe.Core SuperExe.Stream

/-! ## Protocol handlers -/

/-- What `cb_read` returns and what it means. -/
inductive ReadRet where
  /-- the number of bytes read -/
  | bytes (n : Nat)
  /-- `-1`, because `read(2)` has nothing yet: `errno` is `EAGAIN` -/
  | again
  /-- `-1`, to close the connection; whether `errno` happens to be `EAGAIN` -/
  | close (errnoAgain : Bool)
deriving DecidableEq, Repr

/-- What `cb_done` returns: `1`, `0` or `-1`. -/
inductive DoneRet where
  | more
  | keep
  | close
deriving DecidableEq, Repr

/-- The end of a callback: its value, what the calls of `mk_channel_write` inside
it reported, and the session and the channel it leaves. -/
structure CbResult (ρ σ β : Type) where
  ret : ρ
  writes : List ChannelRet
  session : σ
  channel : MkChannel β

/-- `struct mk_sched_handler`; `cb_done` is optional. -/
structure SchedHandler (σ β : Type) where
  cbRead : σ → MkChannel β → CbResult ReadRet σ β
  cbDone : Option (σ → MkChannel β → CbResult DoneRet σ β)
  cbClose : σ → σ

/-! ## Connections -/

/-- The bits of `event->mask`. -/
structure Mask where
  read : Bool
  write : Bool
  close : Bool
deriving DecidableEq, Repr

/-- The mask after `mk_event_add(..., MK_EVENT_READ, ...)`. -/
def eventRead : Mask := { read := true, write := false, close := false }

/-- The mask after `mk_event_add(..., MK_EVENT_WRITE, ...)`. -/
def eventWrite : Mask := { read := false, write := true, close := false }

/-- The part of `struct mk_sched_conn` that the handling of an event changes. -/
structure Conn (σ β : Type) where
  session : σ
  channel : MkChannel β
  mask : Mask

/-- What is done to a connection while an event is handled. -/
inductive Call where
  | write (ret : ChannelRet)
  | cbRead (ret : ReadRet) (writes : List ChannelRet)
  | cbDone (ret : DoneRet) (writes : List ChannelRet)
  | cbClose
  | drop
deriving DecidableEq, Repr

/-- The state in which a function leaves the connection and the value it returns;
none when the answers of the network have run out before. -/
structure Handled (σ β : Type) where
  conn : Conn σ β
  answers : List NetAnswer
  log : List Call
  ret : Option Int

/-- `MK_CHANNEL_*` -/
def channelCode : ChannelRet → Int
  | .done => 1
  | .error => 2
  | .flush => 4
  | .empty => 8
  | .busy => 16
  | .unknown => 32

/-- `stop` of `mk_sched_event_read`. -/
def stops : ChannelRet → Bool
  | .done | .error | .empty => true
  | _ => false

/-- How the flush loop ends. -/
structure Flush (β : Type) where
  channel : MkChannel β
  answers : List NetAnswer
  writes : List ChannelRet
  ret : Option ChannelRet

section Handlers

variable {σ β : Type} (mem : Memory β) (files : Memory Int) (handler : SchedHandler σ β)
  (memPagesize : Nat)

/-- The `do ... while` loop of `mk_sched_event_read`. A write that takes nothing
leaves `count` as it was. -/
def flushLoop : MkChannel β → (count total : Nat) → List NetAnswer → Flush β
  | channel, _, _, [] => { channel := channel, answers := [], writes := [], ret := none }
  | channel, count, total, ans :: answers =>
    let r := mkChannelWrite mem files channel ans
    let count := r.count.getD count
    let total := total + count
    if total ≤ memPagesize ∧ stops r.ret = false then
      let rest := flushLoop r.channel count total answers
      { rest with writes := r.ret :: rest.writes }
    else { channel := r.channel, answers := answers, writes := [r.ret], ret := some r.ret }

/-- `mk_sched_event_read` behind the loop. -/
def flushEnd (conn : Conn σ β) (f : Flush β) (log : List Call) : Handled σ β :=
  match f.ret with
  | none => { conn := conn, answers := f.answers, log := log, ret := none }
  | some .done =>
    match handler.cbDone with
    | none => { conn := conn, answers := f.answers, log := log, ret := some 1 }
    | some cbDone =>
      let d := cbDone conn.session conn.channel
      let conn := { conn with session := d.session, channel := d.channel }
      let log := log ++ [Call.cbDone d.ret d.writes]
      match d.ret with
      | .more =>
        { conn := { conn with mask := eventWrite }, answers := f.answers, log := log,
          ret := some 0 }
      | .keep => { conn := conn, answers := f.answers, log := log, ret := some 0 }
      | .close => { conn := conn, answers := f.answers, log := log, ret := some (-1) }
  | some .flush =>
    { conn := if conn.mask.write then conn else { conn with mask := eventWrite },
      answers := f.answers, log := log, ret := some (channelCode .flush) }
  | some .busy =>
    { conn := if conn.mask.write then conn else { conn with mask := eventWrite },
      answers := f.answers, log := log, ret := some (channelCode .busy) }
  | some ret => { conn := conn, answers := f.answers, log := log, ret := some (channelCode ret) }

/-- `mk_sched_event_read` -/
def mkSchedEventRead (conn : Conn σ β) (answers : List NetAnswer) : Handled σ β :=
  let c := handler.cbRead conn.session conn.channel
  let conn := { conn with session := c.session, channel := c.channel }
  let log := [Call.cbRead c.ret c.writes]
  match c.ret with
  | .again => { conn := conn, answers := answers, log := log, ret := some 1 }
  | .close true => { conn := conn, answers := answers, log := log, ret := some 1 }
  | .close false => { conn := conn, answers := answers, log := log, ret := some (-1) }
  | .bytes _ =>
    let f := flushLoop mem files memPagesize conn.channel 0 0 answers
    flushEnd handler { conn with channel := f.channel } f (log ++ f.writes.map Call.write)

/-- `mk_sched_event_write` behind a channel that has nothing left. -/
def channelDone (conn : Conn σ β) (answers : List NetAnswer) (log : List Call) : Handled σ β :=
  match handler.cbDone with
  | none => { conn := conn, answers := answers, log := log, ret := some 0 }
  | some cbDone =>
    let d := cbDone conn.session conn.channel
    let conn := { conn with session := d.session, channel := d.channel }
    let log := log ++ [Call.cbDone d.ret d.writes]
    match d.ret with
    | .close => { conn := conn, answers := answers, log := log, ret := some (-1) }
    | .keep =>
      { conn := { conn with mask := eventRead }, answers := answers, log := log, ret := some 0 }
    | .more => { conn := conn, answers := answers, log := log, ret := some 0 }

/-- `mk_sched_event_write` -/
def mkSchedEventWrite (conn : Conn σ β) (ans : NetAnswer) (answers : List NetAnswer) :
    Handled σ β :=
  let r := mkChannelWrite mem files conn.channel ans
  let conn := { conn with channel := r.channel }
  let log := [Call.write r.ret]
  match r.ret with
  | .flush | .busy => { conn := conn, answers := answers, log := log, ret := some 0 }
  | .done | .empty => channelDone handler conn answers log
  | .error | .unknown => { conn := conn, answers := answers, log := log, ret := some (-1) }

/-- `mk_sched_event_close` -/
def mkSchedEventClose (h : Handled σ β) : Handled σ β :=
  { h with
    conn := { h.conn with session := handler.cbClose h.conn.session }
    log := h.log ++ [.cbClose, .drop] }

/-- The `MK_EVENT_WRITE` part of `mk_server_worker_loop`. -/
def writePart (conn : Conn σ β) (answers : List NetAnswer) : Handled σ β :=
  if conn.mask.write then
    match answers with
    | [] => { conn := conn, answers := [], log := [], ret := none }
    | ans :: answers => mkSchedEventWrite mem files handler conn ans answers
  else { conn := conn, answers := answers, log := [], ret := some 0 }

/-- The `MK_EVENT_READ` part; `event->mask` is read again, and the value of the
write part is overwritten. -/
def readPart (w : Handled σ β) : Handled σ β :=
  if w.ret.isSome ∧ w.conn.mask.read then
    let r := mkSchedEventRead mem files handler memPagesize w.conn w.answers
    { r with log := w.log ++ r.log }
  else w

/-- The end of the round: a negative value closes the connection. -/
def closePart (r : Handled σ β) : Handled σ β :=
  match r.ret with
  | none => r
  | some ret =>
    let ret := if r.conn.mask.close ∧ ret ≠ -1 then -1 else ret
    if ret < 0 then mkSchedEventClose handler { r with ret := some ret }
    else { r with ret := some ret }

/-- What `mk_server_worker_loop` does with an event of a connection. -/
def connectionEvent (conn : Conn σ β) (answers : List NetAnswer) : Handled σ β :=
  closePart handler (readPart mem files handler memPagesize (writePart mem files handler conn answers))

end Handlers

end SuperExe.Sched
