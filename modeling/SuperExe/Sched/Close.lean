import SuperExe.Sched.Event
import Mathlib.Tactic.Common

/-! # A failure closes the connection

What the scheduler must not do after a failure: run a handler again, or leave the
connection open. `mk_sched_event_write` translates every code; the codes of the
flush loop in `mk_sched_event_read` are positive and the worker loop closes on
negative values only, the value of the write part is overwritten when the read
part follows, and a callback that asks for the close is not heard when `errno`
happens to be `EAGAIN`. `connection_closed_iff` says that this is all.
-/

namespace SuperExe.Sched

open SuperExe.Core SuperExe.Stream

/-! ## The property -/

/-- `mk_channel_write` reports an error, or a handler asks for the close. -/
def Call.Fails : Call → Prop
  | .write ret => ret = .error
  | .cbRead ret writes => (∃ again, ret = .close again) ∨ .error ∈ writes
  | .cbDone ret writes => ret = .close ∨ .error ∈ writes
  | .cbClose | .drop => False

def Call.RunsHandler : Call → Prop
  | .cbRead _ _ | .cbDone _ _ => True
  | _ => False

def Quiet (log : List Call) : Prop := ∀ c ∈ log, ¬ c.RunsHandler

/-- Behind a failure no handler runs and the connection is dropped. -/
def ClosesOnFailure : List Call → Prop
  | [] => True
  | c :: log => (c.Fails → .drop ∈ log ∧ Quiet log) ∧ ClosesOnFailure log

/-! ## The condition -/

section Condition

variable {σ β : Type} (mem : Memory β) (files : Memory Int) (handler : SchedHandler σ β)
  (memPagesize : Nat)

/-- A callback does not keep a failed write to itself. -/
def DoneNoticed (session : σ) (channel : MkChannel β) : Prop :=
  ∀ cbDone, handler.cbDone = some cbDone →
    .error ∈ (cbDone session channel).writes → (cbDone session channel).ret = .close

/-- The write part of an event fails only when the event is not readable. -/
def WriteNoticed (conn : Conn σ β) (ans : NetAnswer) : Prop :=
  let r := mkChannelWrite mem files conn.channel ans
  (r.ret = .error → conn.mask.read = false) ∧
    (r.ret = .done ∨ r.ret = .empty →
      DoneNoticed handler conn.session r.channel ∧
      ∀ cbDone, handler.cbDone = some cbDone →
        (cbDone conn.session r.channel).ret = .close → conn.mask.read = false)

/-- No write of the flush loop fails. -/
def FlushNoticed (session : σ) : MkChannel β → (count total : Nat) → List NetAnswer → Prop
  | _, _, _, [] => True
  | channel, count, total, ans :: answers =>
    let r := mkChannelWrite mem files channel ans
    let count := r.count.getD count
    let total := total + count
    r.ret ≠ .error ∧
      (total ≤ memPagesize ∧ stops r.ret = false →
        FlushNoticed session r.channel count total answers) ∧
      (r.ret = .done → DoneNoticed handler session r.channel)

/-- `cb_read` does not ask for the close with `errno` at `EAGAIN`, does not keep a
failed write to itself, and no write of the flush loop fails. -/
def ReadNoticed (conn : Conn σ β) (answers : List NetAnswer) : Prop :=
  let c := handler.cbRead conn.session conn.channel
  c.ret ≠ .close true ∧ (.error ∈ c.writes → c.ret = .close false) ∧
    ∀ n, c.ret = .bytes n →
      FlushNoticed mem files handler memPagesize c.session c.channel 0 0 answers

/-- Both parts of the event. -/
def EventNoticed (conn : Conn σ β) (answers : List NetAnswer) : Prop :=
  (conn.mask.write = true → ∀ ans rest, answers = ans :: rest →
    WriteNoticed mem files handler conn ans) ∧
  let w := writePart mem files handler conn answers
  (w.ret.isSome ∧ w.conn.mask.read = true →
    ReadNoticed mem files handler memPagesize w.conn w.answers)

end Condition

/-! ## Logs -/

/-- No call of the log fails. -/
def NoFailure (log : List Call) : Prop := ∀ c ∈ log, ¬ c.Fails

/-- No handler runs behind a failure. -/
def QuietAfter : List Call → Prop
  | [] => True
  | c :: log => (c.Fails → Quiet log) ∧ QuietAfter log

@[simp] theorem noFailure_nil : NoFailure [] := by simp [NoFailure]

@[simp] theorem noFailure_cons {c : Call} {log : List Call} :
    NoFailure (c :: log) ↔ ¬ c.Fails ∧ NoFailure log := by simp [NoFailure]

@[simp] theorem noFailure_append {l m : List Call} :
    NoFailure (l ++ m) ↔ NoFailure l ∧ NoFailure m := by
  simp [NoFailure, or_imp, forall_and]

@[simp] theorem quiet_nil : Quiet [] := by simp [Quiet]

@[simp] theorem quiet_cons {c : Call} {log : List Call} :
    Quiet (c :: log) ↔ ¬ c.RunsHandler ∧ Quiet log := by simp [Quiet]

@[simp] theorem quiet_append {l m : List Call} : Quiet (l ++ m) ↔ Quiet l ∧ Quiet m := by
  simp [Quiet, or_imp, forall_and]

/-- A log that ends with the close. -/
theorem closesOnFailure_closed (log : List Call) :
    ClosesOnFailure (log ++ [.cbClose, .drop]) ↔ QuietAfter log := by
  induction log with
  | nil => simp [ClosesOnFailure, QuietAfter, Call.Fails]
  | cons c log ih => simp [ClosesOnFailure, QuietAfter, ih, Call.RunsHandler]

/-- A log of a connection that stays. -/
theorem closesOnFailure_open {log : List Call} (h : .drop ∉ log) :
    ClosesOnFailure log ↔ NoFailure log := by
  induction log with
  | nil => simp [ClosesOnFailure]
  | cons c log ih =>
    obtain ⟨-, hlog⟩ := not_or.mp (mt List.mem_cons.mpr h)
    simp [ClosesOnFailure, hlog, ih hlog]

/-- Behind a handler call nothing may have failed before. -/
theorem quietAfter_append {l m : List Call} (hm : ¬ Quiet m) :
    QuietAfter (l ++ m) ↔ NoFailure l ∧ QuietAfter m := by
  induction l with
  | nil => simp
  | cons c l ih => simp [QuietAfter, ih, hm, and_assoc]

/-- What the worker loop makes of a value and a log. -/
def Verdict (ret : Option Int) (log : List Call) : Prop :=
  match ret with
  | some ret => if ret < 0 then QuietAfter log else NoFailure log
  | none => NoFailure log

theorem verdict_append {ret : Option Int} {l m : List Call} (hm : ¬ Quiet m) :
    Verdict ret (l ++ m) ↔ NoFailure l ∧ Verdict ret m := by
  unfold Verdict
  split
  · split
    · exact quietAfter_append hm
    · exact noFailure_append
  · exact noFailure_append

section Parts

variable {σ β : Type} {mem : Memory β} {files : Memory Int} {handler : SchedHandler σ β}
  {memPagesize : Nat}

theorem closePart_log {r : Handled σ β} (hclose : r.conn.mask.close = false)
    (hdrop : .drop ∉ r.log) :
    ClosesOnFailure (closePart handler r).log ↔ Verdict r.ret r.log := by
  unfold closePart Verdict
  cases r.ret with
  | none => exact closesOnFailure_open hdrop
  | some ret =>
    simp only [hclose, Bool.false_eq_true, false_and, if_false]
    split
    · exact closesOnFailure_closed r.log
    · exact closesOnFailure_open hdrop

/-! ## The flush loop -/

theorem flushLoop_verdict (session : σ) (channel : MkChannel β) (count total : Nat)
    (answers : List NetAnswer) :
    let f := flushLoop mem files memPagesize channel count total answers
    FlushNoticed mem files handler memPagesize session channel count total answers ↔
      (∀ ret ∈ f.writes, ret ≠ .error) ∧ (f.ret = some .done → DoneNoticed handler session f.channel)
        := by
  induction answers generalizing channel count total with
  | nil => simp [flushLoop, FlushNoticed]
  | cons ans answers ih =>
    simp only [flushLoop, FlushNoticed]
    split
    · next hgo =>
      -- the loop goes on, so the channel is not done
      have hdone : (mkChannelWrite mem files channel ans).ret ≠ .done := by
        intro h
        simp [h, stops] at hgo
      simp only [hgo, ih]
      simp [hdone, and_assoc]
    · next hstop => simp [hstop]

/-! ## The two parts -/

/-- What a call of `cb_done` adds to a log. -/
theorem verdict_cbDone {cbDone : σ → MkChannel β → CbResult DoneRet σ β}
    (hcb : handler.cbDone = some cbDone) (session : σ) (channel : MkChannel β) (log : List Call) :
    let d := cbDone session channel
    Verdict (some (if d.ret = .close then -1 else 0)) (log ++ [.cbDone d.ret d.writes]) ↔
      NoFailure log ∧ DoneNoticed handler session channel := by
  have hnoticed : DoneNoticed handler session channel ↔
      (.error ∈ (cbDone session channel).writes → (cbDone session channel).ret = .close) := by
    simp [DoneNoticed, hcb]
  simp only [hnoticed]
  rw [verdict_append (by simp [Call.RunsHandler])]
  by_cases hclose : (cbDone session channel).ret = .close
  · simp [hclose, Verdict, QuietAfter]
  · simp [hclose, Verdict, Call.Fails]

theorem flushEnd_verdict (conn : Conn σ β) (f : Flush β) (log : List Call) :
    let r := flushEnd handler conn f log
    Verdict r.ret r.log ↔
      NoFailure log ∧ (f.ret = some .done → DoneNoticed handler conn.session conn.channel) := by
  unfold flushEnd
  cases hret : f.ret with
  | none => simp [Verdict]
  | some ret =>
    cases ret with
    | done =>
      cases hcb : handler.cbDone with
      | none => simp [Verdict, DoneNoticed, hcb]
      | some cbDone =>
        have hdone := verdict_cbDone hcb conn.session conn.channel log
        simp only at hdone ⊢
        cases hd : (cbDone conn.session conn.channel).ret <;> simp_all
    | error => simp [Verdict, channelCode]
    | flush => simp [Verdict, channelCode]
    | empty => simp [Verdict, channelCode]
    | busy => simp [Verdict, channelCode]
    | unknown => simp [Verdict, channelCode]

theorem mkSchedEventRead_verdict (conn : Conn σ β) (answers : List NetAnswer) :
    Verdict (mkSchedEventRead mem files handler memPagesize conn answers).ret
        (mkSchedEventRead mem files handler memPagesize conn answers).log ↔
      ReadNoticed mem files handler memPagesize conn answers := by
  simp only [mkSchedEventRead, ReadNoticed]
  cases hc : (handler.cbRead conn.session conn.channel).ret with
  | again => simp [Verdict, Call.Fails]
  | close again => cases again <;> simp [Verdict, QuietAfter, Call.Fails]
  | bytes n =>
    simp only [flushEnd_verdict, flushLoop_verdict]
    simp [Call.Fails, NoFailure, and_assoc]

/-- The event registers for reading or for writing, never for the close. -/
theorem flushEnd_close {conn : Conn σ β} (hclose : conn.mask.close = false) (f : Flush β)
    (log : List Call) : (flushEnd handler conn f log).conn.mask.close = false := by
  unfold flushEnd
  simp only
  repeat' split
  all_goals first | exact hclose | rfl

theorem mkSchedEventRead_close {conn : Conn σ β} (hclose : conn.mask.close = false)
    (answers : List NetAnswer) :
    (mkSchedEventRead mem files handler memPagesize conn answers).conn.mask.close = false := by
  unfold mkSchedEventRead
  simp only
  split
  · exact hclose
  · exact hclose
  · exact hclose
  · exact flushEnd_close (by exact hclose) _ _

theorem writePart_close {conn : Conn σ β} (hclose : conn.mask.close = false)
    (answers : List NetAnswer) :
    (writePart mem files handler conn answers).conn.mask.close = false := by
  unfold writePart mkSchedEventWrite channelDone
  simp only
  repeat' split
  all_goals first | exact hclose | rfl

/-- The handlers' logs do not contain the drop, which is the worker loop's. -/
theorem flushEnd_drop {log : List Call} (hlog : .drop ∉ log) (conn : Conn σ β) (f : Flush β) :
    .drop ∉ (flushEnd handler conn f log).log := by
  unfold flushEnd
  simp only
  repeat' split
  all_goals simp [hlog]

theorem mkSchedEventRead_drop (conn : Conn σ β) (answers : List NetAnswer) :
    .drop ∉ (mkSchedEventRead mem files handler memPagesize conn answers).log := by
  unfold mkSchedEventRead
  simp only
  split
  · simp
  · simp
  · simp
  · exact flushEnd_drop (by simp) _ _

theorem writePart_drop (conn : Conn σ β) (answers : List NetAnswer) :
    .drop ∉ (writePart mem files handler conn answers).log := by
  unfold writePart mkSchedEventWrite channelDone
  simp only
  repeat' split
  all_goals simp

/-- `mk_sched_event_read` begins with a handler. -/
theorem mkSchedEventRead_not_quiet (conn : Conn σ β) (answers : List NetAnswer) :
    ¬ Quiet (mkSchedEventRead mem files handler memPagesize conn answers).log := by
  have hmem : .cbRead (handler.cbRead conn.session conn.channel).ret
      (handler.cbRead conn.session conn.channel).writes ∈
        (mkSchedEventRead mem files handler memPagesize conn answers).log := by
    unfold mkSchedEventRead flushEnd
    simp only
    repeat' split
    all_goals simp_all
  intro hquiet
  exact hquiet _ hmem trivial

/-- The write part of a writable event, in the terms of `WriteNoticed`. -/
theorem writeNoticed_iff {conn : Conn σ β} {ans : NetAnswer} {answers : List NetAnswer}
    (hwrite : conn.mask.write = true) :
    (conn.mask.write = true → ∀ a rest, ans :: answers = a :: rest →
      WriteNoticed mem files handler conn a) ↔ WriteNoticed mem files handler conn ans := by
  constructor
  · intro h
    exact h hwrite ans answers rfl
  · rintro h - a rest heq
    cases heq
    exact h

/-- Without a read part behind it, the write part translates every failure but the
ones `cb_done` keeps to itself. -/
theorem mkSchedEventWrite_alone {conn : Conn σ β} {ans : NetAnswer} {answers : List NetAnswer}
    (hno : (mkSchedEventWrite mem files handler conn ans answers).conn.mask.read = false) :
    Verdict (mkSchedEventWrite mem files handler conn ans answers).ret
        (mkSchedEventWrite mem files handler conn ans answers).log ↔
      WriteNoticed mem files handler conn ans := by
  unfold mkSchedEventWrite channelDone at *
  unfold WriteNoticed DoneNoticed
  simp only at *
  cases hret : (mkChannelWrite mem files conn.channel ans).ret
  case done | empty =>
    cases hcb : handler.cbDone with
    | none => simp [Verdict, Call.Fails]
    | some cbDone =>
      simp only [hret, hcb] at hno ⊢
      cases hd : (cbDone conn.session (mkChannelWrite mem files conn.channel ans).channel).ret
      all_goals simp_all [Verdict, QuietAfter, Call.Fails, eventRead]
  all_goals simp_all [Verdict, QuietAfter, Call.Fails]

/-- With a read part behind it, the write part must not have failed. -/
theorem mkSchedEventWrite_noFailure {conn : Conn σ β} {ans : NetAnswer}
    {answers : List NetAnswer}
    (hread : (mkSchedEventWrite mem files handler conn ans answers).conn.mask.read = true) :
    NoFailure (mkSchedEventWrite mem files handler conn ans answers).log ↔
      WriteNoticed mem files handler conn ans := by
  unfold mkSchedEventWrite channelDone at *
  unfold WriteNoticed DoneNoticed
  simp only at *
  cases hret : (mkChannelWrite mem files conn.channel ans).ret
  case done | empty =>
    cases hcb : handler.cbDone with
    | none => simp [Call.Fails]
    | some cbDone =>
      simp only [hret, hcb] at hread ⊢
      cases hd : (cbDone conn.session (mkChannelWrite mem files conn.channel ans).channel).ret
      all_goals simp_all [Call.Fails]
  all_goals simp_all [Call.Fails]

theorem writePart_verdict {conn : Conn σ β} {answers : List NetAnswer}
    (hno : ¬ ((writePart mem files handler conn answers).ret.isSome ∧
      (writePart mem files handler conn answers).conn.mask.read = true)) :
    Verdict (writePart mem files handler conn answers).ret
        (writePart mem files handler conn answers).log ↔
      (conn.mask.write = true → ∀ ans rest, answers = ans :: rest →
        WriteNoticed mem files handler conn ans) := by
  unfold writePart at *
  by_cases hwrite : conn.mask.write = true
  · simp only [if_pos hwrite] at hno ⊢
    cases answers with
    | nil => simp [Verdict]
    | cons ans answers =>
      rw [writeNoticed_iff hwrite]
      apply mkSchedEventWrite_alone
      have hsome : (mkSchedEventWrite mem files handler conn ans answers).ret.isSome = true := by
        unfold mkSchedEventWrite channelDone
        simp only
        repeat' split
        all_goals rfl
      simpa [hsome] using hno
  · simp [hwrite, Verdict]

theorem writePart_noFailure {conn : Conn σ β} {answers : List NetAnswer}
    (hread : (writePart mem files handler conn answers).conn.mask.read = true) :
    NoFailure (writePart mem files handler conn answers).log ↔
      (conn.mask.write = true → ∀ ans rest, answers = ans :: rest →
        WriteNoticed mem files handler conn ans) := by
  unfold writePart at *
  by_cases hwrite : conn.mask.write = true
  · simp only [if_pos hwrite] at hread ⊢
    cases answers with
    | nil => simp
    | cons ans answers =>
      rw [writeNoticed_iff hwrite]
      exact mkSchedEventWrite_noFailure hread
  · simp [hwrite]

end Parts

/-- For every handler, every mask and channel and every answer of the network: a
failure closes the connection at once iff no call of the event fails unnoticed. -/
theorem connection_closed_iff {σ β : Type} (mem : Memory β) (files : Memory Int)
    (handler : SchedHandler σ β) (memPagesize : Nat) (conn : Conn σ β) (answers : List NetAnswer)
    (hclose : conn.mask.close = false) :
    ClosesOnFailure (connectionEvent mem files handler memPagesize conn answers).log ↔
      EventNoticed mem files handler memPagesize conn answers := by
  unfold connectionEvent EventNoticed readPart
  simp only
  by_cases hread : (writePart mem files handler conn answers).ret.isSome ∧
      (writePart mem files handler conn answers).conn.mask.read = true
  · rw [if_pos hread, closePart_log]
    · rw [verdict_append (mkSchedEventRead_not_quiet _ _), writePart_noFailure hread.2,
        mkSchedEventRead_verdict]
      simp [hread]
    · exact mkSchedEventRead_close (writePart_close hclose answers) _
    · simp [writePart_drop, mkSchedEventRead_drop]
  · rw [if_neg hread, closePart_log (writePart_close hclose answers) (writePart_drop _ _),
      writePart_verdict hread]
    simp [hread]

/-- A channel with one byte to send. -/
def channelByte : MkChannel Unit where
  type := mkChannelSocket
  streams := [{ id := 0, type := .copybuf, fd := 0, preserve := false, bytesTotal := 1,
                bytesOffset := 0, buffer := .block [65], cbFinished := false,
                cbBytesConsumed := false }]

/-- A protocol that answers what it reads with one byte. -/
def handlerByte : SchedHandler Unit Unit where
  cbRead := fun _ _ => { ret := .bytes 1, writes := [], session := (), channel := channelByte }
  cbDone := some fun _ channel => { ret := .keep, writes := [], session := (), channel := channel }
  cbClose := id

/-- The network fails in a writable event. -/
theorem connection_closed_iff_write :
    ClosesOnFailure (connectionEvent (fun _ _ => 0) (fun _ _ => 0) handlerByte 4096
      { session := (), channel := channelByte, mask := eventWrite } [.failed]).log := by
  refine (connection_closed_iff _ _ handlerByte 4096 _ _ rfl).mpr ⟨?_, ?_⟩
  · rintro - ans rest heq
    cases heq
    refine ⟨fun _ => rfl, ?_⟩
    rintro (h | h) <;> cases h
  · intro w h
    exact absurd h.2 (by decide)

/-- The network fails while a readable event is flushed: the connection stays. -/
theorem connection_closed_flush_error :
    ¬ ∀ (σ β : Type) (mem : Memory β) (files : Memory Int) (handler : SchedHandler σ β)
      (memPagesize : Nat) (conn : Conn σ β) (answers : List NetAnswer),
      conn.mask.close = false →
      ClosesOnFailure (connectionEvent mem files handler memPagesize conn answers).log := by
  intro h
  have hlog := h Unit Unit (fun _ _ => 0) (fun _ _ => 0) handlerByte 4096
    { session := (), channel := mkChannelNew mkChannelSocket, mask := eventRead } [.failed] rfl
  have hstays : (connectionEvent (fun _ _ => 0) (fun _ _ => 0) handlerByte 4096
      { session := (), channel := mkChannelNew mkChannelSocket, mask := eventRead }
      [.failed]).log = [.cbRead (.bytes 1) [], .write .error] := by rfl
  rw [hstays] at hlog
  simp [ClosesOnFailure, Call.Fails] at hlog

end SuperExe.Sched
