import Mathlib.Data.Stream.Init
import SuperExe.Sched.Event

/-! # The end of the flush loops

`mk_sched_event_read` and `mk_channel_flush` (`mk_server/mk_stream.c`) call
`mk_channel_write` in a loop until more than a limit has been counted, or a call
returns one of the codes in `stop`. `MK_CHANNEL_BUSY` is not among them, and a call
that takes nothing leaves `count` as it was, so that what the call before has taken
is counted again.

What the network answers is a sequence without an end here. `flush_loops_end_iff`
says for which sequences the loops return and make no call behind one that is busy.
-/

namespace SuperExe.Sched

open SuperExe.Core SuperExe.Stream

variable {σ β : Type}

section Flush

variable (mem : Memory β) (files : Memory Int)

/-- `mk_channel_flush`, with the mask of `channel->event`. -/
def mkChannelFlush (mask : Mask) (channel : MkChannel β) (answers : List NetAnswer) :
    Flush β × Mask :=
  let f := flushLoop mem files 4096 channel 0 0 answers
  let asks := f.ret = some .flush ∨ f.ret = some .busy
  (f, if asks ∧ mask.write = false then eventWrite else mask)

/-! ## Ending -/

/-- No call comes behind one that is busy or has failed. -/
def StopsAtBusy (writes : List ChannelRet) : Prop :=
  writes.Pairwise fun w _ => w ≠ .busy ∧ w ≠ .error

/-- The calls of `mk_channel_write` in a log. -/
def Call.written : Call → Option ChannelRet
  | .write ret => some ret
  | _ => none

/-- The loop returns after finitely many calls, and stops at a busy channel. -/
def LoopEnds (limit : Nat) (channel : MkChannel β) (count total : Nat)
    (answers : Stream' NetAnswer) : Prop :=
  ∃ n, (flushLoop mem files limit channel count total (answers.take n)).ret ≠ none ∧
    StopsAtBusy (flushLoop mem files limit channel count total (answers.take n)).writes

/-- The same of `mk_channel_flush`. -/
def FlushEnds (mask : Mask) (channel : MkChannel β) (answers : Stream' NetAnswer) : Prop :=
  ∃ n, (mkChannelFlush mem files mask channel (answers.take n)).1.ret ≠ none ∧
    StopsAtBusy (mkChannelFlush mem files mask channel (answers.take n)).1.writes

/-- The same of `mk_sched_event_read`. -/
def ReadEnds (handler : SchedHandler σ β) (memPagesize : Nat) (conn : Conn σ β)
    (answers : Stream' NetAnswer) : Prop :=
  ∃ n, (mkSchedEventRead mem files handler memPagesize conn (answers.take n)).ret ≠ none ∧
    StopsAtBusy ((mkSchedEventRead mem files handler memPagesize conn
      (answers.take n)).log.filterMap Call.written)

end Flush

/-! ## When the network is busy too early -/

/-- The bytes the network has taken. -/
def taken : NetAnswer → Nat
  | .sent k => k
  | .again => 0
  | .failed => 0

/-- The amounts taken, with the last of them once more. -/
def counted (count total : Nat) : List NetAnswer → Nat
  | [] => total + count
  | ans :: answers => counted (taken ans) (total + taken ans) answers

/-- A stream in the queue: its type, the bytes it has left, and whether it stays
linked behind the last of them. -/
structure QueueItem where
  type : StreamType
  bytes : Nat
  preserve : Bool
deriving DecidableEq, Repr

def itemOf (stream : MkStream β) : QueueItem where
  type := stream.type
  bytes := stream.bytesTotal
  preserve := stream.preserve

/-- The queue when the network takes `k` bytes of its first stream. -/
def takeFrom (k : Nat) : List QueueItem → List QueueItem
  | [] => []
  | l :: rest =>
    if l.bytes ≤ k ∧ l.preserve = false then rest
    else { l with bytes := l.bytes - k } :: rest

/-- The queue when these are the answers to one call after another. -/
def queueBehind (queue : List QueueItem) (answers : List NetAnswer) : List QueueItem :=
  answers.foldl (fun queue ans => takeFrom (taken ans) queue) queue

/-- The network is asked to write from the first stream. -/
def Sends (queue : List QueueItem) : Prop :=
  ∃ l ∈ queue.head?, l.type = .file ∨ l.type = .iov ∨ l.type = .copybuf

/-- The network is busy at call `n`. Each call before has taken something of the
stream that was then the first, and all they have taken, with the last amount once
more, does not pass the limit. -/
structure EarlyAgain (limit : Nat) (queue : List QueueItem) (count total : Nat)
    (answers : Stream' NetAnswer) (n : Nat) : Prop where
  takes : ∀ i < n, 0 < taken (answers.get i)
  again : answers.get n = .again
  sends : ∀ i ≤ n, Sends (queueBehind queue (answers.take i))
  counted : counted count total (answers.take n) ≤ limit

/-- The channel is of the type `mk_channel_write` knows or has nothing to write, and
the network is never busy too early. -/
def Drains (limit : Nat) (channel : MkChannel β) (answers : Stream' NetAnswer) : Prop :=
  (channel.type = mkChannelSocket ∨ channel.streams = []) ∧
    ∀ n, ¬ EarlyAgain limit (channel.streams.map itemOf) 0 0 answers n

section Loop

variable {mem : Memory β} {files : Memory Int} {limit : Nat} {channel : MkChannel β}
  {queue : List QueueItem} {count total : Nat} {answers : Stream' NetAnswer}

/-! ## One call -/

theorem mkChannelWrite_type (channel : MkChannel β) (ans : NetAnswer) :
    (mkChannelWrite mem files channel ans).channel.type = channel.type := by
  unfold mkChannelWrite
  simp only
  split
  · rfl
  · split
    · rfl
    · split
      · rfl
      · rfl
      · rfl
      all_goals
        split
        · rfl
        · unfold channelWritten mkStreamRelease
          simp only
          split <;> rfl
        · rfl
        · rfl

theorem itemOf_written (stream : MkStream β) (k : Nat) :
    itemOf (mkStreamBytesConsumed (consumeSource stream k) k) =
      { itemOf stream with bytes := stream.bytesTotal - k } := by
  rcases consumed_stream stream k with ⟨hpreserve, htype, htotal⟩
  simp only [itemOf, hpreserve, htype, htotal]

theorem channelWritten_streams (mem : Memory β) (files : Memory Int) (channel : MkChannel β)
    (stream : MkStream β) (rest : List (MkStream β)) (k : Nat) :
    (channelWritten mem files channel stream rest k).channel.streams.map itemOf =
      takeFrom k (itemOf stream :: rest.map itemOf) := by
  rcases consumed_stream stream k with ⟨hpreserve, -, htotal⟩
  simp only [channelWritten, mkStreamRelease, takeFrom, hpreserve, htotal]
  by_cases hdone : stream.bytesTotal ≤ k
  · rw [if_pos (Nat.sub_eq_zero_of_le hdone)]
    by_cases hkeep : stream.preserve = false
    · rw [if_pos hkeep, if_pos ⟨hdone, hkeep⟩]
    · rw [if_neg hkeep, if_neg fun hboth => hkeep hboth.2, List.map_cons, itemOf_written]
      rfl
  · rw [if_neg (by omega), if_neg fun hboth => hdone hboth.1, List.map_cons, itemOf_written]
    rfl

/-- A call that asks the network passes its answer on. -/
theorem mkChannelWrite_sends (htype : channel.type = mkChannelSocket)
    (h : Sends (channel.streams.map itemOf)) (ans : NetAnswer) :
    let r := mkChannelWrite mem files channel ans
    (ans = .again ∧ r.ret = .busy ∧ r.count = none) ∨
      (taken ans = 0 ∧ ans ≠ .again ∧ r.ret = .error) ∨
      (0 < taken ans ∧ r.count = some (taken ans) ∧
        r.channel.streams.map itemOf = takeFrom (taken ans) (channel.streams.map itemOf) ∧
          (r.ret = .done ∧ r.channel.streams = [] ∨ r.ret = .flush)) := by
  cases hstreams : channel.streams with
  | nil =>
    rcases h with ⟨l, hl, -⟩
    rw [hstreams] at hl
    cases hl
  | cons stream rest =>
    have hkind : stream.type = .file ∨ stream.type = .iov ∨ stream.type = .copybuf := by
      rcases h with ⟨l, hl, hkind⟩
      rw [hstreams] at hl
      cases hl
      exact hkind
    have hwritten : ∀ n, (channelWritten mem files channel stream rest n).ret = .done ∧
          (channelWritten mem files channel stream rest n).channel.streams = [] ∨
        (channelWritten mem files channel stream rest n).ret = .flush := by
      intro n
      by_cases hempty : (channelWritten mem files channel stream rest n).channel.streams = []
      · exact .inl ⟨if_pos (List.isEmpty_iff.mpr hempty), hempty⟩
      · exact .inr (if_neg fun hno => hempty (List.isEmpty_iff.mp hno))
    simp only [mkChannelWrite, hstreams, htype, ne_eq, not_true_eq_false, if_false]
    rcases hkind with hkind | hkind | hkind
    all_goals
      simp only [hkind]
      cases ans with
      | again => exact .inl ⟨rfl, rfl, rfl⟩
      | failed => exact .inr (.inl ⟨rfl, NetAnswer.noConfusion, rfl⟩)
      | sent k =>
        cases k with
        | zero => exact .inr (.inl ⟨rfl, NetAnswer.noConfusion, rfl⟩)
        | succ k =>
          exact .inr (.inr ⟨Nat.succ_pos k, rfl, channelWritten_streams _ _ _ _ _ _,
            hwritten (k + 1)⟩)

/-- A call that does not ask it ends the loop. -/
theorem mkChannelWrite_rests (hok : channel.type = mkChannelSocket ∨ channel.streams = [])
    (h : ¬ Sends (channel.streams.map itemOf)) (ans : NetAnswer) :
    stops (mkChannelWrite mem files channel ans).ret = true := by
  cases hstreams : channel.streams with
  | nil => simp only [mkChannelWrite, hstreams, stops]
  | cons stream rest =>
    have htype : channel.type = mkChannelSocket := hok.resolve_right (by simp [hstreams])
    have hkind : ¬ (stream.type = .file ∨ stream.type = .iov ∨ stream.type = .copybuf) :=
      fun hkind => h ⟨itemOf stream, by simp [hstreams], hkind⟩
    simp only [mkChannelWrite, hstreams, htype, ne_eq, not_true_eq_false, if_false]
    cases hs : stream.type with
    | eof => rfl
    | raw => rfl
    | socket => rfl
    | file => exact absurd (.inl hs) hkind
    | iov => exact absurd (.inr (.inl hs)) hkind
    | copybuf => exact absurd (.inr (.inr hs)) hkind

/-! ## The loop -/

theorem flushLoop_writes {as : List NetAnswer}
    (h : (flushLoop mem files limit channel count total as).ret ≠ none) :
    (flushLoop mem files limit channel count total as).writes ≠ [] := by
  cases as with
  | nil => exact absurd rfl h
  | cons ans as =>
    simp only [flushLoop]
    split
    · exact List.cons_ne_nil _ _
    · exact List.cons_ne_nil _ _

/-- One turn of the loop. -/
theorem loopEnds_iff_step :
    LoopEnds mem files limit channel count total answers ↔
      let r := mkChannelWrite mem files channel answers.head
      let count' := r.count.getD count
      total + count' ≤ limit ∧ stops r.ret = false →
        r.ret ≠ .busy ∧ LoopEnds mem files limit r.channel count' (total + count') answers.tail := by
  simp only
  constructor
  · rintro ⟨n, hret, hbusy⟩ hon
    cases n with
    | zero => exact absurd rfl hret
    | succ n =>
      simp only [Stream'.take_succ, flushLoop, if_pos hon] at hret hbusy
      rcases List.pairwise_cons.mp hbusy with ⟨hfirst, hrest⟩
      rcases List.exists_mem_of_ne_nil _ (flushLoop_writes hret) with ⟨w, hw⟩
      exact ⟨(hfirst w hw).1, n, hret, hrest⟩
  · intro h
    by_cases hon : total + (mkChannelWrite mem files channel answers.head).count.getD count ≤ limit ∧
        stops (mkChannelWrite mem files channel answers.head).ret = false
    · rcases h hon with ⟨hbusy, n, hret, hrest⟩
      refine ⟨n + 1, ?_⟩
      simp only [Stream'.take_succ, flushLoop, if_pos hon]
      refine ⟨hret, List.pairwise_cons.mpr ⟨fun _ _ => ⟨hbusy, ?_⟩, hrest⟩⟩
      intro herr
      have hstop := hon.2
      rw [herr] at hstop
      cases hstop
    · refine ⟨1, ?_⟩
      simp only [Stream'.take_succ, Stream'.take_zero, flushLoop, if_neg hon]
      exact ⟨Option.some_ne_none _, List.pairwise_singleton _ _⟩

theorem loopEnds_of_stops (h : stops (mkChannelWrite mem files channel answers.head).ret = true) :
    LoopEnds mem files limit channel count total answers := by
  rw [loopEnds_iff_step]
  rintro r count' ⟨-, hstop⟩
  exact absurd (h.symm.trans hstop) Bool.noConfusion

/-- A busy channel ends the loop only if the limit is passed by what has been counted
before. -/
theorem loopEnds_busy (hret : (mkChannelWrite mem files channel answers.head).ret = .busy)
    (hcount : (mkChannelWrite mem files channel answers.head).count = none) :
    LoopEnds mem files limit channel count total answers ↔ limit < total + count := by
  rw [loopEnds_iff_step]
  simp only [hret, hcount, stops, Option.getD_none, ne_eq, not_true, false_and, and_true]
  exact Nat.not_le

theorem loopEnds_flush {k : Nat}
    (hret : (mkChannelWrite mem files channel answers.head).ret = .flush)
    (hcount : (mkChannelWrite mem files channel answers.head).count = some k) :
    LoopEnds mem files limit channel count total answers ↔
      (total + k ≤ limit →
        LoopEnds mem files limit (mkChannelWrite mem files channel answers.head).channel k
          (total + k) answers.tail) := by
  rw [loopEnds_iff_step]
  simp only [hret, hcount, stops, Option.getD_some, ne_eq, reduceCtorEq, not_false_eq_true,
    true_and, and_true]

/-! ## Busy answers -/

theorem earlyAgain_zero :
    EarlyAgain limit queue count total answers 0 ↔
      answers.head = .again ∧ Sends queue ∧ total + count ≤ limit := by
  constructor
  · rintro ⟨-, hagain, hsends, hcount⟩
    exact ⟨hagain, hsends 0 (Nat.le_refl 0), hcount⟩
  · rintro ⟨hagain, hsends, hcount⟩
    refine ⟨fun i hi => absurd hi (Nat.not_lt_zero i), hagain, ?_, hcount⟩
    intro i hi
    rw [Nat.le_zero.mp hi]
    exact hsends

theorem earlyAgain_succ {n : Nat} :
    EarlyAgain limit queue count total answers (n + 1) ↔
      0 < taken answers.head ∧ Sends queue ∧
        EarlyAgain limit (takeFrom (taken answers.head) queue) (taken answers.head)
          (total + taken answers.head) answers.tail n := by
  constructor
  · rintro ⟨htakes, hagain, hsends, hcount⟩
    refine ⟨htakes 0 (Nat.succ_pos n), hsends 0 (Nat.zero_le _), ?_, hagain, ?_, hcount⟩
    · intro i hi
      exact htakes (i + 1) (Nat.succ_lt_succ hi)
    · intro i hi
      exact hsends (i + 1) (Nat.succ_le_succ hi)
  · rintro ⟨hpos, hfirst, htakes, hagain, hsends, hcount⟩
    refine ⟨?_, hagain, ?_, hcount⟩
    · intro i hi
      cases i with
      | zero => exact hpos
      | succ i => exact htakes i (Nat.lt_of_succ_lt_succ hi)
    · intro i hi
      cases i with
      | zero => exact hfirst
      | succ i => exact hsends i (Nat.le_of_succ_le_succ hi)

theorem le_counted (as : List NetAnswer) (count total : Nat) : total ≤ counted count total as := by
  induction as generalizing count total with
  | nil => exact Nat.le_add_right total count
  | cons ans as ih => exact Nat.le_trans (Nat.le_add_right _ _) (ih _ _)

/-- Without a stream to send from, the network is not asked. -/
theorem EarlyAgain.first {n : Nat}
    (h : EarlyAgain limit queue count total answers n) : Sends queue :=
  h.sends 0 (Nat.zero_le n)

theorem EarlyAgain.total_le {n : Nat}
    (h : EarlyAgain limit queue count total answers n) : total ≤ limit :=
  Nat.le_trans (le_counted _ _ _) h.counted

/-- A call that takes something and leaves a stream to send from. -/
theorem earlyAgain_flush (hsends : Sends queue) (hpos : 0 < taken answers.head) :
    (∀ n, ¬ EarlyAgain limit queue count total answers n) ↔
      ∀ n, ¬ EarlyAgain limit (takeFrom (taken answers.head) queue) (taken answers.head)
        (total + taken answers.head) answers.tail n := by
  constructor
  · intro h n hearly
    exact h (n + 1) (earlyAgain_succ.mpr ⟨hpos, hsends, hearly⟩)
  · intro h n hearly
    cases n with
    | zero =>
      have hagain := (earlyAgain_zero.mp hearly).1
      rw [hagain] at hpos
      exact absurd hpos (Nat.lt_irrefl 0)
    | succ n => exact h n (earlyAgain_succ.mp hearly).2.2

/-- A call that is not answered by `EAGAIN` and takes nothing. -/
theorem not_earlyAgain (hzero : taken answers.head = 0) (hne : answers.head ≠ .again) (n : Nat) :
    ¬ EarlyAgain limit queue count total answers n := by
  intro hearly
  cases n with
  | zero => exact hne (earlyAgain_zero.mp hearly).1
  | succ n => exact absurd hzero (Nat.ne_of_gt (earlyAgain_succ.mp hearly).1)

theorem earlyAgain_busy (hsends : Sends queue) (hans : answers.head = .again) :
    (∀ n, ¬ EarlyAgain limit queue count total answers n) ↔
      limit < total + count := by
  constructor
  · intro h
    rw [← Nat.not_le]
    intro hle
    exact h 0 (earlyAgain_zero.mpr ⟨hans, hsends, hle⟩)
  · intro hover n hearly
    cases n with
    | zero => exact absurd (earlyAgain_zero.mp hearly).2.2 (Nat.not_le.mpr hover)
    | succ n =>
      have hpos := (earlyAgain_succ.mp hearly).1
      rw [hans] at hpos
      exact absurd hpos (Nat.lt_irrefl 0)

theorem loopEnds_iff (hok : channel.type = mkChannelSocket ∨ channel.streams = []) :
    LoopEnds mem files limit channel count total answers ↔
      ∀ n, ¬ EarlyAgain limit (channel.streams.map itemOf) count total answers n := by
  -- a turn that goes on has counted at least one byte more
  induction hm : limit + 1 - total using Nat.strongRecOn
    generalizing channel count total answers with
  | ind m ih =>
    by_cases hsends : Sends (channel.streams.map itemOf)
    · have hsock : channel.type = mkChannelSocket := by
        refine hok.resolve_right fun hempty => ?_
        rcases hsends with ⟨l, hl, -⟩
        rw [hempty] at hl
        cases hl
      have htype : (mkChannelWrite mem files channel answers.head).channel.type =
          mkChannelSocket := (mkChannelWrite_type channel _).trans hsock
      rcases mkChannelWrite_sends hsock hsends answers.head with ⟨hans, hret, hcount⟩ |
        ⟨hzero, hne, hret⟩ | ⟨hpos, hcount, hqueue, ⟨hret, hempty⟩ | hret⟩
      · rw [loopEnds_busy hret hcount, earlyAgain_busy hsends hans]
      · exact ⟨fun _ => not_earlyAgain hzero hne, fun _ => loopEnds_of_stops (congrArg stops hret)⟩
      · refine ⟨fun _ => ?_, fun _ => loopEnds_of_stops (congrArg stops hret)⟩
        rw [earlyAgain_flush hsends hpos, ← hqueue, hempty]
        intro n hearly
        rcases hearly.first with ⟨l, hl, -⟩
        cases hl
      · rw [loopEnds_flush hret hcount, earlyAgain_flush hsends hpos, ← hqueue]
        by_cases hle : total + taken answers.head ≤ limit
        · have htail : LoopEnds mem files limit
              (mkChannelWrite mem files channel answers.head).channel (taken answers.head)
              (total + taken answers.head) answers.tail ↔ _ :=
            ih (limit + 1 - (total + taken answers.head)) (by omega) (.inl htype) rfl
          exact ⟨fun h => htail.mp (h hle), fun h _ => htail.mpr h⟩
        · exact ⟨fun _ n hearly => hle hearly.total_le, fun _ hno => absurd hno hle⟩
    · exact ⟨fun _ n hearly => hsends hearly.first,
        fun _ => loopEnds_of_stops (mkChannelWrite_rests hok hsends answers.head)⟩

/-- Nothing is counted as long as no call takes anything: the loop turns forever. -/
theorem flushLoop_stuck {as : List NetAnswer}
    (h : ∀ ans ∈ as, (mkChannelWrite mem files channel ans).channel = channel ∧
      (mkChannelWrite mem files channel ans).count = none ∧
        stops (mkChannelWrite mem files channel ans).ret = false) :
    (flushLoop mem files limit channel 0 0 as).ret = none := by
  induction as with
  | nil => rfl
  | cons ans as ih =>
    rcases List.forall_mem_cons.mp h with ⟨⟨hsame, hcount, hstop⟩, hrest⟩
    simp only [flushLoop, hsame, hcount, hstop, Option.getD_none, Nat.add_zero, Nat.zero_le,
      and_self, if_true]
    exact ih hrest

theorem loopEnds_iff_drains :
    LoopEnds mem files limit channel 0 0 answers ↔ Drains limit channel answers := by
  by_cases hok : channel.type = mkChannelSocket ∨ channel.streams = []
  · exact (loopEnds_iff hok).trans ⟨fun h => ⟨hok, h⟩, fun h => h.2⟩
  · constructor
    · rintro ⟨n, hret, -⟩
      rcases not_or.mp hok with ⟨htype, hne⟩
      refine absurd (flushLoop_stuck fun ans _ => ?_) hret
      -- `MK_CHANNEL_UNKNOWN`
      cases hstreams : channel.streams with
      | nil => exact absurd hstreams hne
      | cons stream rest =>
        simp only [mkChannelWrite, hstreams, if_pos htype, stops, and_self]
    · rintro ⟨hok', -⟩
      exact absurd hok' hok

end Loop

/-! ## The two functions -/

section Functions

variable (mem : Memory β) (files : Memory Int)

/-- Behind the loop `mk_sched_event_read` calls `mk_channel_write` no more. -/
theorem flushEnd_calls (handler : SchedHandler σ β) (conn : Conn σ β) (f : Flush β)
    (log : List Call) :
    (flushEnd handler conn f log).log.filterMap Call.written = log.filterMap Call.written ∧
      ((flushEnd handler conn f log).ret = none ↔ f.ret = none) := by
  unfold flushEnd
  cases f.ret with
  | none => exact ⟨rfl, by simp⟩
  | some ret =>
    cases ret with
    | done =>
      cases handler.cbDone with
      | none => exact ⟨rfl, by simp⟩
      | some cbDone =>
        simp only
        split
        · exact ⟨by simp [Call.written], by simp⟩
        · exact ⟨by simp [Call.written], by simp⟩
        · exact ⟨by simp [Call.written], by simp⟩
    | _ => exact ⟨rfl, by simp⟩

section Read

variable {mem : Memory β} {files : Memory Int} {handler : SchedHandler σ β} {memPagesize : Nat}
  {conn : Conn σ β}

/-- `mk_sched_event_read` calls `mk_channel_write` in its loop only. -/
theorem mkSchedEventRead_calls {k : Nat}
    (h : (handler.cbRead conn.session conn.channel).ret = .bytes k) (as : List NetAnswer) :
    let f := flushLoop mem files memPagesize (handler.cbRead conn.session conn.channel).channel 0 0 as
    (mkSchedEventRead mem files handler memPagesize conn as).log.filterMap Call.written = f.writes ∧
      ((mkSchedEventRead mem files handler memPagesize conn as).ret = none ↔ f.ret = none) := by
  have hcalls : ∀ (c : CbResult ReadRet σ β) (writes : List ChannelRet),
      ([Call.cbRead c.ret c.writes] ++ writes.map Call.write).filterMap Call.written = writes := by
    intro c writes
    induction writes with
    | nil => rfl
    | cons w writes ih => exact congrArg (w :: ·) ih
  simp only [mkSchedEventRead, h]
  rcases flushEnd_calls handler _ _ _ with ⟨hlog, hret⟩
  refine ⟨hlog.trans ?_, hret⟩
  rw [← h]
  exact hcalls _ _

/-- And not at all when the handler has read nothing. -/
theorem mkSchedEventRead_quiet
    (h : ∀ k, (handler.cbRead conn.session conn.channel).ret ≠ .bytes k) (as : List NetAnswer) :
    (mkSchedEventRead mem files handler memPagesize conn as).log.filterMap Call.written = [] ∧
      (mkSchedEventRead mem files handler memPagesize conn as).ret ≠ none := by
  unfold mkSchedEventRead
  simp only
  split
  · exact ⟨rfl, Option.some_ne_none _⟩
  · exact ⟨rfl, Option.some_ne_none _⟩
  · exact ⟨rfl, Option.some_ne_none _⟩
  · next k hk => exact absurd hk (h k)

end Read

theorem readEnds_iff (handler : SchedHandler σ β) (memPagesize : Nat) (conn : Conn σ β)
    (answers : Stream' NetAnswer) :
    ReadEnds mem files handler memPagesize conn answers ↔
      ∀ k, (handler.cbRead conn.session conn.channel).ret = .bytes k →
        LoopEnds mem files memPagesize (handler.cbRead conn.session conn.channel).channel 0 0
          answers := by
  by_cases h : ∃ k, (handler.cbRead conn.session conn.channel).ret = .bytes k
  · rcases h with ⟨k, hk⟩
    have hends : ReadEnds mem files handler memPagesize conn answers ↔
        LoopEnds mem files memPagesize (handler.cbRead conn.session conn.channel).channel 0 0
          answers := by
      refine exists_congr fun n => ?_
      rcases mkSchedEventRead_calls hk (answers.take n) with ⟨hlog, hret⟩
      rw [hlog, ne_eq, hret]
    exact hends.trans ⟨fun hloop _ _ => hloop, fun hloop => hloop k hk⟩
  · have hno : ∀ k, (handler.cbRead conn.session conn.channel).ret ≠ .bytes k :=
      fun k hk => h ⟨k, hk⟩
    constructor
    · intro _ k hk
      exact absurd hk (hno k)
    · intro _
      rcases mkSchedEventRead_quiet hno (answers.take 0) with ⟨hlog, hret⟩
      refine ⟨0, hret, ?_⟩
      rw [hlog]
      exact List.Pairwise.nil

/-- The loops return after finitely many calls, and stop at a busy channel, exactly
when the network is not busy too early. -/
theorem flush_loops_end_iff (handler : SchedHandler σ β) (memPagesize : Nat) (conn : Conn σ β)
    (mask : Mask) (channel : MkChannel β) (answers : Stream' NetAnswer) :
    (ReadEnds mem files handler memPagesize conn answers ↔
      ∀ n, (handler.cbRead conn.session conn.channel).ret = .bytes n →
        Drains memPagesize (handler.cbRead conn.session conn.channel).channel answers) ∧
    (FlushEnds mem files mask channel answers ↔ Drains 4096 channel answers) := by
  constructor
  · rw [readEnds_iff]
    exact forall₂_congr fun _ _ => loopEnds_iff_drains
  · exact loopEnds_iff_drains

end Functions

theorem mem_take_const {α : Type} {a b : α} {n : Nat} (h : b ∈ (Stream'.const a).take n) :
    b = a := by
  induction n with
  | zero => cases h
  | succ n ih =>
    rcases List.mem_cons.mp h with hhead | htail
    · exact hhead
    · exact ih htail

/-- Memory that holds nothing but zeros. -/
def memZero {α : Type} : Memory α := fun _ _ => 0

/-- A channel with five bytes to send. -/
def channelFive : MkChannel Unit :=
  mkStreamSet memZero (mkChannelNew mkChannelSocket) 1 0 .copybuf (.pointer () 0) 5 false false

/-- A handler that has queued five bytes. -/
def handlerFive : SchedHandler Unit Unit where
  cbRead session _ := { ret := .bytes 18, writes := [], session := session, channel := channelFive }
  cbDone := none
  cbClose := id

/-- A connection that waits for a request. -/
def connWaiting : Conn Unit Unit where
  session := ()
  channel := mkChannelNew mkChannelSocket
  mask := eventRead

/-- A peer that does not read: neither function ever returns. -/
theorem flush_loops_end_again :
    (∀ n, (mkSchedEventRead memZero memZero handlerFive 4096 connWaiting
        ((Stream'.const NetAnswer.again).take n)).ret = none) ∧
      (∀ n, (mkChannelFlush memZero memZero eventRead channelFive
        ((Stream'.const NetAnswer.again).take n)).1.ret = none) := by
  have hloop : ∀ n, (flushLoop memZero memZero 4096 channelFive 0 0
      ((Stream'.const NetAnswer.again).take n)).ret = none := by
    intro n
    refine flushLoop_stuck fun ans hans => ?_
    rw [mem_take_const hans]
    exact ⟨rfl, rfl, rfl⟩
  constructor
  · intro n
    rw [mkSchedEventRead]
    exact (flushEnd_calls _ _ _ _).2.mpr (hloop n)
  · exact hloop

end SuperExe.Sched
