import SuperExe.Lib.Trace
import SuperExe.Http.Isolation
import SuperExe.Http.Output
import SuperExe.Sched.Event

/-! # Every request is completed

A response leaves through the channel of its connection, in as many writes as the
network likes, and when the last byte is gone the scheduler calls `cb_done` of
the protocol. The machine below is a connection of the HTTP handler: its events
are the rounds of the worker loop, `reads` and `dones` say what the callbacks
find (nothing, part of a request, a request and how it is answered).

`requests_completed` is about every run. What it asks for is that a request which
is accepted by `cb_read` leaves something in the channel: `mk_http_error` writes
to the channel itself, and when that write takes the whole page, the scheduler
finds the channel empty and never calls `cb_done`. A request prepared by `cb_done`
does not have this problem, because there the write event is registered.
-/

namespace SuperExe.Sched

open SuperExe.Core SuperExe.Lib SuperExe.Stream SuperExe.Http

/-! ## A reply -/

/-- A buffer is its content. -/
def memBlocks : Memory Bytes := fun bs i => bs.getD i 0

/-- The stream of the header, `headers_stream`. -/
def headerStream (bs : Bytes) : MkStream Bytes where
  id := 0
  type := .iov
  fd := 0
  preserve := false
  bytesTotal := bs.length
  bytesOffset := 0
  buffer := .iov { io := [{ iovBase := bs, iovOff := 0, iovLen := bs.length }], size := 1,
                   totalLen := bs.length }
  cbFinished := false
  cbBytesConsumed := false

/-- The stream of a file, `file_stream`. Nothing sets `preserve`. -/
def fileStream (fs : FileStream) : MkStream Bytes where
  id := 1
  type := .file
  fd := fs.fd
  preserve := false
  bytesTotal := fs.bytesTotal.toNat
  bytesOffset := fs.bytesOffset.toNat
  buffer := .null
  cbFinished := false
  cbBytesConsumed := false

/-- `mk_iov_add` of an error page to the header. -/
def addPage (page : Bytes) (stream : MkStream Bytes) : MkStream Bytes :=
  match stream.buffer with
  | .iov iov =>
    { stream with
      bytesTotal := stream.bytesTotal + page.length
      buffer := .iov (mkIovAdd iov page 0 page.length) }
  | _ => stream

/-- The channel, the answers the network has left, and what the writes so far have
reported. -/
structure Sending where
  channel : MkChannel Bytes
  answers : List NetAnswer
  writes : List ChannelRet

/-- One output of `mk_http_request_prepare`. Without an answer the network is
busy. -/
def Sending.step (files : Memory Int) (s : Sending) : Out → Sending
  | .block (some bs) =>
    { s with channel := { s.channel with streams := s.channel.streams ++ [headerStream bs] } }
  | .page page =>
    { s with channel := { s.channel with
        streams := s.channel.streams.modify (s.channel.streams.length - 1) (addPage page) } }
  | .file fs =>
    { s with channel := { s.channel with streams := s.channel.streams ++ [fileStream fs] } }
  | .write =>
    let r := mkChannelWrite memBlocks files s.channel (s.answers.headD .again)
    { channel := r.channel, answers := s.answers.tail, writes := s.writes ++ [r.ret] }
  | .block none | .crash => s

/-- An output that leaves the server running: a known status, no crash. -/
def Survives : Out → Prop
  | .block (some bs) => bs ≠ []
  | .block none | .crash => False
  | _ => True

instance : DecidablePred Survives
  | .block (some bs) => inferInstanceAs (Decidable (bs ≠ []))
  | .block none | .crash => .isFalse id
  | .page _ | .file _ | .write => .isTrue trivial

/-- A request as `mk_http_request_prepare` finds it, what the network answers
while it is prepared; the server answers it itself, and with something. -/
structure Reply where
  world : World
  sr : HttpRequest
  closeNow : Bool
  incoming : Incoming
  answers : List NetAnswer
  silent : PluginsSilent world
  answered : let out := (runActs world { sr := sr, closeNow := closeNow, out := [] }
      (mkHttpRequestPrepare world incoming)).out
    out ≠ [] ∧ ∀ o ∈ out, Survives o

/-- What the request sends off. -/
def Reply.out (q : Reply) : List Out :=
  (runActs q.world { sr := q.sr, closeNow := q.closeNow, out := [] }
    (mkHttpRequestPrepare q.world q.incoming)).out

/-- `mk_http_request_prepare` on the channel. -/
def Reply.send (files : Memory Int) (q : Reply) (channel : MkChannel Bytes) : Sending :=
  q.out.foldl (Sending.step files) { channel := channel, answers := q.answers, writes := [] }

/-! ## The machine -/

/-- What `mk_http_sched_read` finds. -/
inductive ReadInput where
  /-- nothing to read -/
  | again
  /-- the end of the connection, or a reason to close it -/
  | close (errnoAgain : Bool)
  /-- part of a request -/
  | pending (n : Nat)
  /-- the rest of a request -/
  | request (n : Nat) (q : Reply)

/-- What `mk_http_sched_done` finds. -/
inductive DoneInput where
  /-- another request in the buffer -/
  | next (q : Reply)
  /-- the connection is kept -/
  | keep
  /-- the connection is closed -/
  | close

/-- How often `cb_read` was called, how many requests were prepared, how often
`cb_done` was called. -/
structure Progress where
  reads : Nat
  prepared : Nat
  dones : Nat
deriving DecidableEq, Repr

variable (files : Memory Int) (reads : Nat → ReadInput) (dones : Nat → DoneInput)

/-- `mk_http_handler` -/
def httpHandler : SchedHandler Progress Bytes where
  cbRead s channel :=
    let s := { s with reads := s.reads + 1 }
    match reads (s.reads - 1) with
    | .again => { ret := .again, writes := [], session := s, channel := channel }
    | .close again => { ret := .close again, writes := [], session := s, channel := channel }
    | .pending n => { ret := .bytes n, writes := [], session := s, channel := channel }
    | .request n q =>
      let sent := q.send files channel
      { ret := .bytes n, writes := sent.writes, session := { s with prepared := s.prepared + 1 },
        channel := sent.channel }
  cbDone := some fun s channel =>
    let s := { s with dones := s.dones + 1 }
    match dones (s.dones - 1) with
    | .next q =>
      let sent := q.send files channel
      { ret := .more, writes := sent.writes, session := { s with prepared := s.prepared + 1 },
        channel := sent.channel }
    | .keep => { ret := .keep, writes := [], session := s, channel := channel }
    | .close => { ret := .close, writes := [], session := s, channel := channel }
  cbClose := id

/-- A connection and whether it has been dropped. -/
structure Link where
  conn : Conn Progress Bytes
  dropped : Bool

/-- One event of the connection. An event that has not been handled to its end is
not a step. -/
def linkMachine (memPagesize : Nat) : Machine Link (List NetAnswer) where
  step link answers :=
    if link.dropped then link
    else
      let h := connectionEvent memBlocks files (httpHandler files reads dones) memPagesize link.conn
        answers
      if h.ret = none then link
      else { conn := h.conn, dropped := decide (.drop ∈ h.log) }

/-- A connection that has just been accepted. -/
def linkStart : Link where
  conn := { session := { reads := 0, prepared := 0, dones := 0 },
            channel := mkChannelNew mkChannelSocket, mask := eventRead }
  dropped := false

/-! ## The property -/

/-- `cb_done` has run once for every request that was prepared, or the write event
is registered for the last of them. -/
def Settled (link : Link) : Prop :=
  link.dropped = true ∨ link.conn.session.dones = link.conn.session.prepared ∨
    link.conn.session.dones + 1 = link.conn.session.prepared ∧ link.conn.mask = eventWrite

instance : DecidablePred Settled := fun _ => inferInstanceAs (Decidable (_ ∨ _ ∨ _))

/-- When the last byte leaves in a write event, `cb_done` runs in that event. -/
def LastByteCompletes (memPagesize : Nat) (link : Link) (answers : List NetAnswer) : Prop :=
  link.dropped = false → link.conn.session.dones + 1 = link.conn.session.prepared →
    ∀ ans rest, answers = ans :: rest →
      (mkChannelWrite memBlocks files link.conn.channel ans).channel.streams = [] →
        ∃ ret writes, .cbDone ret writes ∈ (connectionEvent memBlocks files
          (httpHandler files reads dones) memPagesize link.conn answers).log

/-- The network takes bytes or says `EAGAIN`. -/
def NoError (ans : NetAnswer) : Prop := ans ≠ .failed ∧ ans ≠ .sent 0

/-- How many bytes the reply has. -/
def Reply.size (q : Reply) : Nat :=
  (q.out.map fun
    | .block (some bs) => bs.length
    | .page bs => bs.length
    | .file fs => fs.bytesTotal.toNat
    | _ => 0).sum

/-- The request is not for an unknown user, no file it queues is empty, and the
network does not fail while it is prepared. -/
structure Reply.Sound (q : Reply) : Prop where
  known : ¬ UnknownUser q.world q.incoming
  files : ∀ fs, .file fs ∈ q.out → 0 < fs.bytesTotal
  answers : ∀ ans ∈ q.answers, NoError ans

/-- The write of `mk_http_error` does not take the whole reply. -/
def Reply.NotTakenWhole (q : Reply) : Prop :=
  .write ∈ q.out.map Out.kind → ∀ n, q.answers.head? = some (.sent n) → n < q.size

/-! ## Channels that can be written -/

/-- A stream with bytes left that the network is asked to send. -/
structure StreamReady {β : Type} (stream : MkStream β) : Prop where
  preserve : stream.preserve = false
  left : 0 < stream.bytesTotal
  type : stream.type = .iov ∨ stream.type = .file ∨ stream.type = .copybuf

structure ChannelReady {β : Type} (channel : MkChannel β) : Prop where
  type : channel.type = mkChannelSocket
  streams : ∀ s ∈ channel.streams, StreamReady s

section Ready

variable {β : Type} (mem : Memory β)

/-- The network takes bytes of the first stream. -/
theorem channelWritten_ready (channel : MkChannel β) {stream : MkStream β}
    (rest : List (MkStream β)) (htype : channel.type = mkChannelSocket)
    (hstream : StreamReady stream) (hrest : ∀ s ∈ rest, StreamReady s) (bytes : Nat) :
    let r := channelWritten mem files channel stream rest bytes
    ChannelReady r.channel ∧ (r.channel.streams = [] ∧ r.ret = .done ∨
      r.channel.streams ≠ [] ∧ r.ret = .flush) ∧
      (bytes < stream.bytesTotal → r.channel.streams ≠ []) := by
  obtain ⟨hpreserve, htype', htotal⟩ := consumed_stream stream bytes
  simp only [channelWritten]
  by_cases hfinished :
      (mkStreamBytesConsumed (consumeSource stream bytes) bytes).bytesTotal = 0
  · simp only [hfinished, if_true, mkStreamRelease, hpreserve, hstream.preserve]
    refine ⟨⟨htype, by simpa using hrest⟩, ?_, ?_⟩
    · cases rest <;> simp
    · intro hlt
      omega
  · simp only [hfinished, if_false]
    refine ⟨⟨htype, ?_⟩, by simp, by simp⟩
    intro s hs
    rcases List.mem_cons.mp hs with rfl | hs
    · exact ⟨hpreserve.trans hstream.preserve, Nat.pos_of_ne_zero hfinished, by
        rw [htype']
        exact hstream.type⟩
    · exact hrest s hs

/-- One write to a channel that can be written. -/
theorem mkChannelWrite_ready {channel : MkChannel β} (h : ChannelReady channel) {ans : NetAnswer}
    (ha : NoError ans) :
    let r := mkChannelWrite mem files channel ans
    ChannelReady r.channel ∧
      (channel.streams = [] ∧ r.ret = .empty ∧ r.channel = channel ∨
        channel.streams ≠ [] ∧ r.ret = .done ∧ r.channel.streams = [] ∨
        channel.streams ≠ [] ∧ (r.ret = .flush ∨ r.ret = .busy) ∧ r.channel.streams ≠ []) := by
  unfold mkChannelWrite
  simp only
  cases hs : channel.streams with
  | nil => exact ⟨h, .inl ⟨rfl, rfl, rfl⟩⟩
  | cons stream rest =>
    have hstream : StreamReady stream := h.streams stream (by simp [hs])
    have hrest : ∀ s ∈ rest, StreamReady s := fun s hmem => h.streams s (by simp [hs, hmem])
    simp only [h.type, ne_eq, not_true_eq_false, if_false, reduceCtorEq, false_and, false_or,
      not_false_eq_true, true_and]
    have hwritten : ∀ n, ChannelReady (channelWritten mem files channel stream rest n).channel ∧
        ((channelWritten mem files channel stream rest n).ret = .done ∧
          (channelWritten mem files channel stream rest n).channel.streams = [] ∨
        ((channelWritten mem files channel stream rest n).ret = .flush ∨
          (channelWritten mem files channel stream rest n).ret = .busy) ∧
          (channelWritten mem files channel stream rest n).channel.streams ≠ []) := by
      intro n
      obtain ⟨hready, hends, -⟩ := channelWritten_ready files mem channel rest h.type hstream hrest n
      refine ⟨hready, ?_⟩
      rcases hends with ⟨h1, h2⟩ | ⟨h1, h2⟩
      · exact .inl ⟨h2, h1⟩
      · exact .inr ⟨.inl h2, h1⟩
    -- each kind of stream treats an answer of the network alike
    rcases hstream.type with ht | ht | ht
    all_goals
      simp only [ht]
      match ans, ha with
      | .sent 0, ha => exact absurd rfl ha.2
      | .failed, ha => exact absurd rfl ha.1
      | .again, _ => exact ⟨h, .inr ⟨.inr rfl, by simp [hs]⟩⟩
      | .sent (n + 1), _ => exact hwritten (n + 1)

/-- The flush loop on a channel that can be written and is not empty. -/
theorem flushLoop_ready (memPagesize : Nat) {channel : MkChannel β} (h : ChannelReady channel)
    (hne : channel.streams ≠ []) {answers : List NetAnswer} (ha : ∀ ans ∈ answers, NoError ans)
    (count total : Nat) :
    let f := flushLoop mem files memPagesize channel count total answers
    ChannelReady f.channel ∧ (f.ret = none ∨ f.ret = some .done ∧ f.channel.streams = [] ∨
      f.ret = some .flush ∨ f.ret = some .busy) := by
  -- each turn takes one answer, and goes on only while something is left
  induction answers generalizing channel count total with
  | nil => exact ⟨h, .inl rfl⟩
  | cons ans answers ih =>
    obtain ⟨hans, hanswers⟩ := List.forall_mem_cons.mp ha
    obtain ⟨hready, hends⟩ := mkChannelWrite_ready files mem h hans
    simp only [flushLoop]
    rcases hends with ⟨hempty, -⟩ | ⟨-, hret, hstreams⟩ | ⟨-, hret, hstreams⟩
    · exact absurd hempty hne
    · rw [if_neg (by simp [hret, stops])]
      exact ⟨hready, .inr (.inl ⟨by rw [hret], hstreams⟩)⟩
    · split
      · exact ih hready hstreams hanswers _ _
      · refine ⟨hready, .inr (.inr ?_)⟩
        rcases hret with hret | hret
        · exact .inl (by rw [hret])
        · exact .inr (by rw [hret])

/-- The flush loop on an empty channel. -/
theorem flushLoop_empty (memPagesize : Nat) {channel : MkChannel β} (h : channel.streams = [])
    (answers : List NetAnswer) (count total : Nat) :
    let f := flushLoop mem files memPagesize channel count total answers
    f.channel = channel ∧ (f.ret = none ∨ f.ret = some .empty) := by
  cases answers with
  | nil => exact ⟨rfl, .inl rfl⟩
  | cons ans answers =>
    have hwrite : mkChannelWrite mem files channel ans =
        { channel := channel, ret := .empty, count := none, wire := [], notices := [] } := by
      simp [mkChannelWrite, h]
    simp only [flushLoop, hwrite]
    rw [if_neg (by simp [stops])]
    exact ⟨rfl, .inr rfl⟩

end Ready

/-! ## What a reply leaves in the channel -/

section Reply

variable {channel : MkChannel Bytes}

theorem streamReady_header {bs : Bytes} (h : bs ≠ []) : StreamReady (headerStream bs) :=
  ⟨rfl, List.length_pos_of_ne_nil h, .inl rfl⟩

theorem streamReady_file {fs : FileStream} (h : 0 < fs.bytesTotal) : StreamReady (fileStream fs) :=
  ⟨rfl, by simpa [fileStream] using h, .inr (.inl rfl)⟩

/-- The outputs of a sound reply. -/
theorem Reply.Sound.out_cases {q : Reply} (hq : q.Sound) :
    ∃ bs, bs ≠ [] ∧ (q.out = [.block (some bs)] ∨
      (∃ fs, q.out = [.block (some bs), .file fs] ∧ 0 < fs.bytesTotal) ∨
      q.out = [.block (some bs), .write] ∨
      ∃ page, q.out = [.block (some bs), .page page, .write]) := by
  have hshape : q.out.map Out.kind ∈ shapes := by
    have hkinds := runActs_kinds q.world { sr := q.sr, closeNow := q.closeNow, out := [] }
      (mkHttpRequestPrepare q.world q.incoming)
    have hprepare := mkHttpRequestPrepare_shape q.incoming q.silent hq.known
    rw [List.map_nil, List.nil_append] at hkinds
    exact hkinds ▸ hprepare
  obtain ⟨hne, hall⟩ := q.answered
  change q.out ≠ [] at hne
  change ∀ o ∈ q.out, Survives o at hall
  have hfiles := hq.files
  generalize q.out = out at *
  -- every answer but the empty one and a crash begins with the header
  have hheader : ∀ kinds, out.map Out.kind = .header :: kinds →
      ∃ bs rest, bs ≠ [] ∧ out = .block (some bs) :: rest ∧ rest.map Out.kind = kinds := by
    intro kinds hkinds
    obtain ⟨o, rest, rfl, ho, hrest⟩ := List.map_eq_cons_iff.mp hkinds
    have hsurvives := hall o (by simp)
    cases o with
    | block b =>
      cases b with
      | none => exact absurd hsurvives id
      | some bs => exact ⟨bs, rest, hsurvives, rfl, hrest⟩
    | _ => cases ho
  simp only [shapes, List.mem_cons, List.not_mem_nil, or_false] at hshape
  -- of the six shapes, silence and a crash are excluded
  rcases hshape with h | h | h | h | h | h
  · exact absurd (List.map_eq_nil_iff.mp h) hne
  · obtain ⟨o, rest, rfl, ho, -⟩ := List.map_eq_cons_iff.mp h
    cases o with
    | crash => exact absurd (hall .crash (by simp)) (by simp [Survives])
    | _ => cases ho
  · obtain ⟨bs, rest, hbs, rfl, hrest⟩ := hheader _ h
    rw [List.map_eq_nil_iff.mp hrest]
    exact ⟨bs, hbs, .inl rfl⟩
  · obtain ⟨bs, rest, hbs, rfl, hrest⟩ := hheader _ h
    obtain ⟨o, rest, rfl, ho, hrest⟩ := List.map_eq_cons_iff.mp hrest
    rw [List.map_eq_nil_iff.mp hrest] at hfiles ⊢
    cases o with
    | file fs => exact ⟨bs, hbs, .inr (.inl ⟨fs, rfl, hfiles fs (by simp)⟩)⟩
    | _ => cases ho
  · obtain ⟨bs, rest, hbs, rfl, hrest⟩ := hheader _ h
    obtain ⟨o, rest, rfl, ho, hrest⟩ := List.map_eq_cons_iff.mp hrest
    rw [List.map_eq_nil_iff.mp hrest]
    cases o with
    | write => exact ⟨bs, hbs, .inr (.inr (.inl rfl))⟩
    | _ => cases ho
  · obtain ⟨bs, rest, hbs, rfl, hrest⟩ := hheader _ h
    obtain ⟨o, rest, rfl, ho, hrest⟩ := List.map_eq_cons_iff.mp hrest
    obtain ⟨o', rest, rfl, ho', hrest⟩ := List.map_eq_cons_iff.mp hrest
    rw [List.map_eq_nil_iff.mp hrest]
    cases o with
    | page page =>
      cases o' with
      | write => exact ⟨bs, hbs, .inr (.inr (.inr ⟨page, rfl⟩))⟩
      | _ => cases ho'
    | _ => cases ho

/-- The write of `mk_http_error` to a channel with one stream. -/
theorem write_one {stream : MkStream Bytes} (htype : channel.type = mkChannelSocket)
    (hstream : StreamReady stream) {answers : List NetAnswer}
    (ha : ∀ ans ∈ answers, NoError ans) :
    let r := mkChannelWrite memBlocks files { channel with streams := [stream] }
      (answers.headD .again)
    ChannelReady r.channel ∧
      ((∀ n, answers.head? = some (.sent n) → n < stream.bytesTotal) → r.channel.streams ≠ []) := by
  have hready : ChannelReady { channel with streams := [stream] } :=
    ⟨htype, fun s hs => by
      rw [List.mem_singleton] at hs
      exact hs ▸ hstream⟩
  have hans : NoError (answers.headD .again) := by
    cases answers with
    | nil => simp [NoError]
    | cons ans rest => exact ha ans (by simp)
  refine ⟨(mkChannelWrite_ready files memBlocks hready hans).1, ?_⟩
  intro hless
  -- a socket that is full takes nothing
  have hagain : mkChannelWrite memBlocks files { channel with streams := [stream] } .again =
      { channel := { channel with streams := [stream] }, ret := .busy, count := none, wire := [],
        notices := [] } := by
    unfold mkChannelWrite
    rcases hstream.type with ht | ht | ht
    all_goals simp [htype, ht]
  -- one that takes something takes it from the head stream
  have hsent : ∀ n, mkChannelWrite memBlocks files { channel with streams := [stream] }
      (.sent (n + 1)) =
        channelWritten memBlocks files { channel with streams := [stream] } stream [] (n + 1) := by
    intro n
    unfold mkChannelWrite
    rcases hstream.type with ht | ht | ht
    all_goals simp [htype, ht]
  cases answers with
  | nil =>
    rw [List.headD_nil, hagain]
    exact List.cons_ne_nil _ _
  | cons ans rest =>
    rw [List.headD_cons] at hans ⊢
    cases ans with
    | failed => exact absurd rfl hans.1
    | again =>
      rw [hagain]
      exact List.cons_ne_nil _ _
    | sent n =>
      cases n with
      | zero => exact absurd rfl hans.2
      | succ n =>
        have hwritten := channelWritten_ready files memBlocks
          { channel with streams := [stream] } [] htype hstream (by simp) (n + 1)
        rw [hsent]
        exact hwritten.2.2 (hless (n + 1) (by simp))

/-- A sound reply leaves a channel that can be written, and something in it unless
the write of `mk_http_error` takes it whole. -/
theorem Reply.Sound.send {q : Reply} (hq : q.Sound) (htype : channel.type = mkChannelSocket)
    (hempty : channel.streams = []) :
    ChannelReady (q.send files channel).channel ∧
      (q.NotTakenWhole → (q.send files channel).channel.streams ≠ []) := by
  obtain ⟨bs, hbs, hcases⟩ := hq.out_cases
  have hheader := streamReady_header hbs
  unfold Reply.send Reply.NotTakenWhole Reply.size
  -- the last two shapes are those of `mk_http_error`, which writes at once
  rcases hcases with h | ⟨fs, h, hfs⟩ | h | ⟨page, h⟩
  all_goals
    rw [h]
    simp only [List.foldl_cons, List.foldl_nil, Sending.step, hempty, List.nil_append]
  · exact ⟨⟨htype, by simpa using hheader⟩, by simp⟩
  · exact ⟨⟨htype, by simpa using ⟨hheader, streamReady_file hfs⟩⟩, by simp⟩
  · obtain ⟨hready, hleft⟩ := write_one files htype hheader hq.answers
    refine ⟨hready, fun hnot => hleft fun n hn => ?_⟩
    simpa [Out.kind, headerStream] using hnot (by simp [Out.kind]) n hn
  · have hpage : StreamReady (addPage page (headerStream bs)) :=
      ⟨rfl, Nat.lt_of_lt_of_le hheader.left (Nat.le_add_right _ _), .inl rfl⟩
    obtain ⟨hready, hleft⟩ := write_one files htype hpage hq.answers
    refine ⟨hready, fun hnot => hleft fun n hn => ?_⟩
    simpa [Out.kind, headerStream, addPage] using hnot (by simp [Out.kind]) n hn

end Reply

/-! ## One event -/

/-- Every request was completed; the connection waits for the next one. -/
structure Reading (conn : Conn Progress Bytes) : Prop where
  mask : conn.mask = eventRead
  type : conn.channel.type = mkChannelSocket
  streams : conn.channel.streams = []
  dones : conn.session.dones = conn.session.prepared

/-- A request is being answered; the connection waits for the network. -/
structure Writing (conn : Conn Progress Bytes) : Prop where
  mask : conn.mask = eventWrite
  channel : ChannelReady conn.channel
  dones : conn.session.dones + 1 = conn.session.prepared

/-- What a request has to meet that `cb_read` accepts, and one that `cb_done`
finds. -/
structure Inputs : Prop where
  reads : ∀ n m q, reads n = .request m q → q.Sound ∧ q.NotTakenWhole
  dones : ∀ n q, dones n = .next q → q.Sound

section Round

variable {reads dones} (hin : Inputs reads dones)
include hin

/-- `cb_done` on a channel that is empty: the next request, or none. -/
theorem cbDone_cases (conn : Conn Progress Bytes) (htype : conn.channel.type = mkChannelSocket)
    (hempty : conn.channel.streams = [])
    (hdones : conn.session.dones + 1 = conn.session.prepared) :
    ∃ cbDone, (httpHandler files reads dones).cbDone = some cbDone ∧
      let d := cbDone conn.session conn.channel
      (d.ret = .more ∧ ChannelReady d.channel ∧ d.session.dones + 1 = d.session.prepared) ∨
      ((d.ret = .keep ∨ d.ret = .close) ∧ d.channel = conn.channel ∧
        d.session.dones = d.session.prepared) := by
  refine ⟨_, rfl, ?_⟩
  simp only
  cases hdone : dones (conn.session.dones + 1 - 1) with
  | next q =>
    left
    exact ⟨rfl, ((hin.dones _ q hdone).send files htype hempty).1, by simp [hdones]⟩
  | keep => exact .inr ⟨.inl rfl, rfl, hdones⟩
  | close => exact .inr ⟨.inr rfl, rfl, hdones⟩

/-- `mk_sched_event_read` behind the loop, with a request that is being answered. -/
theorem flushEnd_round {conn : Conn Progress Bytes} {f : Flush Bytes} (log : List Call)
    (hmask : conn.mask = eventRead) (hready : ChannelReady conn.channel)
    (hdones : conn.session.dones + 1 = conn.session.prepared)
    (hend : f.ret = none ∨ f.ret = some .done ∧ conn.channel.streams = [] ∨
      f.ret = some .flush ∨ f.ret = some .busy) :
    let r := flushEnd (httpHandler files reads dones) conn f log
    ∀ ret, r.ret = some ret → ret < 0 ∨ Reading r.conn ∨ Writing r.conn := by
  intro r ret hret
  unfold r flushEnd at *
  rcases hend with hend | ⟨hend, hempty⟩ | hend | hend
  · simp [hend] at hret
  · -- the loop has emptied the channel
    obtain ⟨cbDone, hcb, hdone⟩ := cbDone_cases files hin conn hready.type hempty hdones
    simp only [hend, hcb] at hret ⊢
    rcases hdone with ⟨hmore, hnext, hdones'⟩ | ⟨hkeep | hclose, hchannel, hdones'⟩
    · simp only [hmore]
      exact .inr (.inr ⟨rfl, hnext, hdones'⟩)
    · simp only [hkeep]
      exact .inr (.inl ⟨hmask, by simp [hchannel, hready.type], by simp [hchannel, hempty], hdones'⟩)
    · simp only [hclose, Option.some.injEq] at hret
      exact .inl (by omega)
  · simp only [hend, hmask, eventRead, Bool.false_eq_true, if_false]
    exact .inr (.inr ⟨rfl, hready, hdones⟩)
  · simp only [hend, hmask, eventRead, Bool.false_eq_true, if_false]
    exact .inr (.inr ⟨rfl, hready, hdones⟩)

/-- `mk_sched_event_read` on a connection that waits for a request. -/
theorem reading_round {conn : Conn Progress Bytes} (h : Reading conn) (memPagesize : Nat)
    {answers : List NetAnswer} (ha : ∀ ans ∈ answers, NoError ans) :
    let r := mkSchedEventRead memBlocks files (httpHandler files reads dones) memPagesize conn
      answers
    ∀ ret, r.ret = some ret → ret < 0 ∨ Reading r.conn ∨ Writing r.conn := by
  obtain ⟨hmask, htype, hstreams, hdones⟩ := h
  intro r ret hret
  unfold r at hret ⊢
  clear r
  simp only [mkSchedEventRead] at hret ⊢
  cases hread : reads (conn.session.reads + 1 - 1) with
  | again =>
    simp only [httpHandler, hread]
    exact .inr (.inl ⟨hmask, htype, hstreams, hdones⟩)
  | close again =>
    cases again with
    | true =>
      simp only [httpHandler, hread]
      exact .inr (.inl ⟨hmask, htype, hstreams, hdones⟩)
    | false =>
      simp only [httpHandler, hread, Option.some.injEq] at hret
      exact .inl (by omega)
  | pending n =>
    simp only [httpHandler, hread] at hret ⊢
    obtain ⟨hchannel, hend⟩ := flushLoop_empty files memBlocks memPagesize hstreams answers 0 0
    rcases hend with hend | hend
    · simp [flushEnd, hend] at hret
    · simp only [flushEnd, hend, hchannel]
      exact .inr (.inl ⟨hmask, htype, hstreams, hdones⟩)
  | request n q =>
    obtain ⟨hsound, hnot⟩ := hin.reads _ n q hread
    obtain ⟨hready, hleft⟩ := hsound.send files htype hstreams
    simp only [httpHandler, hread] at hret ⊢
    obtain ⟨hchannel, hend⟩ := flushLoop_ready files memBlocks memPagesize hready (hleft hnot) ha 0 0
    refine flushEnd_round files hin _ ?_ ?_ ?_ ?_ ret hret
    · exact hmask
    · exact hchannel
    · simp [hdones]
    · exact hend

/-- `mk_sched_event_write` on a connection that is being answered. -/
theorem writing_round {conn : Conn Progress Bytes} (h : Writing conn) {ans : NetAnswer}
    (ha : NoError ans) (answers : List NetAnswer) :
    let w := mkSchedEventWrite memBlocks files (httpHandler files reads dones) conn ans answers
    w.answers = answers ∧ (w.ret = some (-1) ∧ w.conn.mask.read = false ∨
      w.ret = some 0 ∧ (Reading w.conn ∨ Writing w.conn)) := by
  obtain ⟨hmask, hready, hdones⟩ := h
  obtain ⟨hready', hend⟩ := mkChannelWrite_ready files memBlocks hready ha
  -- `MK_CHANNEL_EMPTY` and `MK_CHANNEL_DONE` both lead to `cb_done`
  have hdone : ∀ log, (mkChannelWrite memBlocks files conn.channel ans).channel.streams = [] →
      let w := channelDone (httpHandler files reads dones)
        { conn with channel := (mkChannelWrite memBlocks files conn.channel ans).channel } answers log
      w.answers = answers ∧ (w.ret = some (-1) ∧ w.conn.mask.read = false ∨
        w.ret = some 0 ∧ (Reading w.conn ∨ Writing w.conn)) := by
    intro log hempty
    obtain ⟨cbDone, hcb, hdone⟩ := cbDone_cases files hin
      { conn with channel := (mkChannelWrite memBlocks files conn.channel ans).channel }
      hready'.type hempty hdones
    simp only [channelDone, hcb]
    rcases hdone with ⟨hmore, hnext, hdones'⟩ | ⟨hkeep | hclose, hchannel, hdones'⟩
    · simp only [hmore]
      exact ⟨trivial, .inr ⟨trivial, .inr ⟨hmask, hnext, hdones'⟩⟩⟩
    · simp only [hkeep]
      exact ⟨trivial, .inr ⟨trivial, .inl ⟨rfl, by simp [hchannel, hready'.type],
        by simp [hchannel, hempty], hdones'⟩⟩⟩
    · simp only [hclose]
      exact ⟨trivial, .inl ⟨trivial, by simp [hmask, eventWrite]⟩⟩
  simp only [mkSchedEventWrite]
  rcases hend with ⟨hempty, hret, hsame⟩ | ⟨-, hret, hempty⟩ | ⟨-, hret | hret, -⟩
  · simp only [hret]
    exact hdone _ (by rw [hsame]; exact hempty)
  · simp only [hret]
    exact hdone _ hempty
  · simp only [hret]
    exact ⟨trivial, .inr ⟨trivial, .inr ⟨hmask, hready', hdones⟩⟩⟩
  · simp only [hret]
    exact ⟨trivial, .inr ⟨trivial, .inr ⟨hmask, hready', hdones⟩⟩⟩

omit hin in
/-- The connection is dropped at the end of an event, or it waits again. -/
theorem closePart_end {r : Handled Progress Bytes}
    (h : ∀ ret, r.ret = some ret → ret < 0 ∨ Reading r.conn ∨ Writing r.conn) :
    let e := closePart (httpHandler files reads dones) r
    e.ret ≠ none → .drop ∈ e.log ∨ Reading e.conn ∨ Writing e.conn := by
  unfold closePart
  cases hret : r.ret with
  | none => simp [hret]
  | some ret =>
    simp only
    by_cases hneg : (if r.conn.mask.close = true ∧ ret ≠ -1 then (-1 : Int) else ret) < 0
    · rw [if_pos hneg]
      intro _
      exact .inl (by simp [mkSchedEventClose])
    · rw [if_neg hneg]
      intro _
      refine .inr ((h ret hret).resolve_left ?_)
      intro hlt
      apply hneg
      split <;> omega

/-- One event of a connection that waits. -/
theorem connectionEvent_wf {conn : Conn Progress Bytes} (h : Reading conn ∨ Writing conn)
    (memPagesize : Nat) {answers : List NetAnswer} (ha : ∀ ans ∈ answers, NoError ans) :
    let e := connectionEvent memBlocks files (httpHandler files reads dones) memPagesize conn answers
    e.ret ≠ none → .drop ∈ e.log ∨ Reading e.conn ∨ Writing e.conn := by
  apply closePart_end files
  intro ret hret
  -- the read part runs on a connection that waits, after either way through the write part
  have hread : ∀ (w : Handled Progress Bytes), Reading w.conn → w.ret.isSome →
      (∀ ans ∈ w.answers, NoError ans) →
      (readPart memBlocks files (httpHandler files reads dones) memPagesize w).ret = some ret →
      ret < 0 ∨
        Reading (readPart memBlocks files (httpHandler files reads dones) memPagesize w).conn ∨
        Writing (readPart memBlocks files (httpHandler files reads dones) memPagesize w).conn := by
    intro w hw hsome hwa hret
    unfold readPart at hret ⊢
    rw [if_pos ⟨hsome, by simp [hw.mask, eventRead]⟩] at hret ⊢
    exact reading_round files hin hw memPagesize hwa ret hret
  rcases h with hreading | hwriting
  · -- the event is readable
    have hpart : writePart memBlocks files (httpHandler files reads dones) conn answers =
        { conn := conn, answers := answers, log := [], ret := some 0 } := by
      simp [writePart, hreading.mask, eventRead]
    rw [hpart] at hret ⊢
    exact hread _ hreading rfl ha hret
  · -- the event is writable, and readable behind `cb_done`
    have hmask : conn.mask.write = true := by simp [hwriting.mask, eventWrite]
    cases answers with
    | nil =>
      have hpart : writePart memBlocks files (httpHandler files reads dones) conn [] =
          { conn := conn, answers := [], log := [], ret := none } := by
        simp [writePart, hmask]
      rw [hpart] at hret
      simp [readPart] at hret
    | cons ans answers =>
      obtain ⟨hans, hanswers⟩ := List.forall_mem_cons.mp ha
      have hpart : writePart memBlocks files (httpHandler files reads dones) conn (ans :: answers) =
          mkSchedEventWrite memBlocks files (httpHandler files reads dones) conn ans answers := by
        simp [writePart, hmask]
      rw [hpart] at hret ⊢
      obtain ⟨hleft, hends⟩ := writing_round files hin hwriting hans answers
      rcases hends with ⟨hneg, hmask'⟩ | ⟨hzero, hreading | hwriting'⟩
      · simp only [readPart, hmask', Bool.false_eq_true, and_false, if_false, hneg,
          Option.some.injEq] at hret
        exact .inl (by omega)
      · exact hread _ hreading (by simp [hzero]) (by rw [hleft]; exact hanswers) hret
      · simp only [readPart, hwriting'.mask, eventWrite, Bool.false_eq_true, and_false, if_false]
        exact .inr (.inr hwriting')

end Round

/-- The connection between two events. -/
def LinkWf (link : Link) : Prop :=
  link.dropped = true ∨ Reading link.conn ∨ Writing link.conn

theorem LinkWf.settled {link : Link} (h : LinkWf link) : Settled link := by
  rcases h with hdropped | hreading | hwriting
  · exact .inl hdropped
  · exact .inr (.inl hreading.dones)
  · exact .inr (.inr ⟨hwriting.dones, hwriting.mask⟩)

theorem linkWf_start : LinkWf linkStart := .inr (.inl ⟨rfl, rfl, rfl, rfl⟩)

theorem linkWf_step {reads dones} (hin : Inputs reads dones) (memPagesize : Nat) (link : Link)
    (answers : List NetAnswer) (h : LinkWf link) (ha : ∀ ans ∈ answers, NoError ans) :
    LinkWf ((linkMachine files reads dones memPagesize).step link answers) := by
  simp only [linkMachine]
  split
  · exact h
  · next hdropped =>
    have hwaits := connectionEvent_wf files hin (h.resolve_left hdropped) memPagesize ha
    split
    · exact h
    · next hret =>
      rcases hwaits hret with hdrop | hwaits
      · exact .inl (by simp [hdrop])
      · exact .inr hwaits

/-- What the write part has done stays in the log of the event. -/
theorem mem_connectionEvent {conn : Conn Progress Bytes} {answers : List NetAnswer} {c : Call}
    (memPagesize : Nat)
    (h : c ∈ (writePart memBlocks files (httpHandler files reads dones) conn answers).log) :
    c ∈ (connectionEvent memBlocks files (httpHandler files reads dones) memPagesize conn
      answers).log := by
  unfold connectionEvent
  generalize writePart memBlocks files (httpHandler files reads dones) conn answers = w at h
  have hread : c ∈ (readPart memBlocks files (httpHandler files reads dones) memPagesize w).log := by
    unfold readPart
    split
    · exact List.mem_append_left _ h
    · exact h
  generalize readPart memBlocks files (httpHandler files reads dones) memPagesize w = r at hread
  unfold closePart
  cases r.ret with
  | none => exact hread
  | some ret =>
    simp only
    repeat' split
    all_goals first | exact List.mem_append_left _ hread | exact hread

/-- The last byte leaves in a write event. -/
theorem lastByte_step {reads dones} (memPagesize : Nat) {link : Link} (h : LinkWf link)
    {answers : List NetAnswer} (ha : ∀ ans ∈ answers, NoError ans) :
    LastByteCompletes files reads dones memPagesize link answers := by
  intro hdropped hdones ans rest heq hempty
  subst heq
  have hwriting : Writing link.conn := by
    rcases h with h | h | h
    · rw [hdropped] at h
      cases h
    · have := h.dones
      omega
    · exact h
  have hmask : link.conn.mask.write = true := by simp [hwriting.mask, eventWrite]
  obtain ⟨-, hends⟩ := mkChannelWrite_ready files memBlocks hwriting.channel (ha ans (by simp))
  have hret : (mkChannelWrite memBlocks files link.conn.channel ans).ret = .done ∨
      (mkChannelWrite memBlocks files link.conn.channel ans).ret = .empty := by
    rcases hends with ⟨-, hret, -⟩ | ⟨-, hret, -⟩ | ⟨-, -, hne⟩
    · exact .inr hret
    · exact .inl hret
    · exact absurd hempty hne
  have hlog : ∃ ret writes, .cbDone ret writes ∈
      (mkSchedEventWrite memBlocks files (httpHandler files reads dones) link.conn ans rest).log := by
    have hdone : ∀ conn log, ∃ ret writes, .cbDone ret writes ∈
        (channelDone (httpHandler files reads dones) conn rest log).log := by
      intro conn log
      simp only [channelDone, httpHandler]
      cases dones (conn.session.dones + 1 - 1) with
      | next q => exact ⟨_, _, List.mem_append_right _ (List.mem_singleton.mpr rfl)⟩
      | keep => exact ⟨_, _, List.mem_append_right _ (List.mem_singleton.mpr rfl)⟩
      | close => exact ⟨_, _, List.mem_append_right _ (List.mem_singleton.mpr rfl)⟩
    simp only [mkSchedEventWrite]
    rcases hret with hret | hret
    · simp only [hret]
      exact hdone _ _
    · simp only [hret]
      exact hdone _ _
  obtain ⟨ret, writes, hmem⟩ := hlog
  refine ⟨ret, writes, mem_connectionEvent files reads dones memPagesize ?_⟩
  simpa only [writePart, hmask, if_true] using hmem

/-! ## Whole runs -/

/-- In every run in which no write of the network fails, `cb_done` is called once for
every request that was prepared, unless the write event is still registered for
the last one; and it is called in the write event that takes the last byte. The
requests must be sound, and those accepted by `cb_read` must not be taken whole by
the write of `mk_http_error`. -/
theorem requests_completed (hin : Inputs reads dones) (memPagesize : Nat)
    (evs : List (List NetAnswer)) (ha : ∀ answers ∈ evs, ∀ ans ∈ answers, NoError ans) :
    (linkMachine files reads dones memPagesize).AllStates Settled linkStart evs ∧
      (linkMachine files reads dones memPagesize).AllSteps
        (LastByteCompletes files reads dones memPagesize) linkStart evs := by
  have hguard := (linkMachine files reads dones memPagesize).allSteps_of_forall_mem
    (G := fun _ answers => ∀ ans ∈ answers, NoError ans) linkStart fun answers hmem _ =>
      ha answers hmem
  constructor
  · exact ((linkMachine files reads dones memPagesize).allStates_of_allSteps
      (linkWf_step files hin memPagesize) linkWf_start hguard).mono fun _ h => h.settled
  · exact (linkMachine files reads dones memPagesize).allSteps_of_invariant
      (linkWf_step files hin memPagesize) (fun _ _ h ha => lastByte_step files memPagesize h ha)
      linkWf_start hguard

/-- `GET /b`, which is not found, with the answers of the network to
`mk_http_error`. -/
def replyB (answers : List NetAnswer) : Reply where
  world := worldSite
  sr := received connStart getB
  closeNow := false
  incoming := getB.incoming parsedRequestZero 0
  answers := answers
  silent := by intro _ _; rfl
  answered := by decide

/-- The request comes first, and nothing else. -/
def readsB (answers : List NetAnswer) (n : Nat) : ReadInput :=
  if n = 0 then .request 29 (replyB answers) else .again

theorem requests_completed_not_found :
    (linkMachine (fun _ _ => 0) (readsB [.sent 88]) (fun _ => .keep) 4096).AllStates Settled
        linkStart [[.sent 4, .again, .again, .sent 200]] ∧
      (linkMachine (fun _ _ => 0) (readsB [.sent 88]) (fun _ => .keep) 4096).AllSteps
        (LastByteCompletes (fun _ _ => 0) (readsB [.sent 88]) (fun _ => .keep) 4096) linkStart
        [[.sent 4, .again, .again, .sent 200]] := by
  refine requests_completed _ _ _ ⟨?_, ?_⟩ 4096 _ ?_
  · intro n m q hq
    unfold readsB at hq
    split at hq
    · cases hq
      refine ⟨⟨?_, ?_, ?_⟩, ?_⟩
      · rintro ⟨-, -, -, -, userDir, hdir, -⟩
        cases hdir
      · have hkinds : (replyB [.sent 88]).out.map Out.kind = [.header, .page, .write] := by
          decide
        intro fs hfs
        have hmem := List.mem_map_of_mem (f := Out.kind) hfs
        rw [hkinds] at hmem
        simp [Out.kind] at hmem
      · simp [replyB, NoError]
      · intro _ n hn
        cases hn
        decide +kernel
    · cases hq
  · intro n q hq
    cases hq
  · simp [NoError]

/-- The network takes the 292 bytes of the reply at once: `cb_done` is not called,
and the connection waits for a request. -/
theorem requests_completed_taken_whole :
    ¬ ∀ (files : Memory Int) (reads : Nat → ReadInput) (dones : Nat → DoneInput)
      (memPagesize : Nat) (evs : List (List NetAnswer)),
      (∀ n m q, reads n = .request m q → ∀ ans ∈ q.answers, NoError ans) →
      (∀ n q, dones n = .next q → ∀ ans ∈ q.answers, NoError ans) →
      (∀ answers ∈ evs, ∀ ans ∈ answers, NoError ans) →
      (linkMachine files reads dones memPagesize).AllStates Settled linkStart evs ∧
        (linkMachine files reads dones memPagesize).AllSteps
          (LastByteCompletes files reads dones memPagesize) linkStart evs := by
  intro h
  obtain ⟨hstates, -⟩ := h (fun _ _ => 0) (readsB [.sent 292]) (fun _ => .keep) 4096 [[.again]]
    (by
      intro n m q hq
      unfold readsB at hq
      split at hq
      · cases hq
        simp [replyB, NoError]
      · cases hq)
    (by
      intro n q hq
      cases hq)
    (by simp [NoError])
  have hlast := hstates.last
  revert hlast
  decide +kernel

end SuperExe.Sched
