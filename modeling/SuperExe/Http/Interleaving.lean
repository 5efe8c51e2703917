import SuperExe.Http.Header
import SuperExe.Stream.Delivery

/-! # Headers of many connections on one worker

A worker prepares and flushes the responses of its connections in any order, and
the clock thread renews the preset rows meanwhile. Between `mk_header_prepare`
and the flush the iov of a response refers to shared buffers, so another
preparation can change what will be sent.

`header_bytes_iff` says exactly when it does not: in every state, what a
connection has sent and what it still has to send make up what was assembled,
iff no step changes the bytes behind an unsent stream.
-/

namespace SuperExe.Http

open SuperExe.Core SuperExe.Stream SuperExe.Lib

/-! ## The machine -/

/-- One connection: its channel, the bytes it has sent, and the bytes its
streams had when they were queued. -/
structure Conn where
  channel : MkChannel HeaderBuf
  wire : Bytes
  assembled : Bytes

structure Worker where
  shared : Shared
  conns : Nat → Conn

inductive WorkerEvent where
  /-- the clock thread renews the preset rows -/
  | tick (text : Bytes)
  /-- `mk_header_prepare` for a request of connection `c`, whose plugins added
  `rows`; `mk_http_error` appends `page` -/
  | prepare (c : Nat) (env : PrepareEnv) (sh : ResponseHeaders) (rows : List Bytes)
      (page : Option Bytes)
  /-- a file of `total` bytes from `off` on is queued -/
  | file (c : Nat) (fd : Int) (off total : Nat)
  /-- a copy of a buffer is queued -/
  | copybuf (c : Nat) (data : Bytes)
  /-- one `mk_channel_write` -/
  | write (c : Nat) (ans : NetAnswer)

/-- The record as `mk_http_request_init` and `mk_plugin_header_add` leave it. -/
def preparedRecord (sh : ResponseHeaders) (rows : List Bytes) : ResponseHeaders :=
  rows.foldl mkPluginHeaderAdd
    { sh with headersIov := mkIovInit .null headerIovSize 0, extraRows := none }

/-- `mk_http_error` appends its page to the iov that was queued last. -/
def addPage (channel : MkChannel HeaderBuf) (page : Bytes) : MkChannel HeaderBuf :=
  match channel.streams.getLast? with
  | some stream =>
    match stream.buffer with
    | .iov iov => { channel with streams := channel.streams.dropLast ++
        [{ stream with buffer := .iov (mkIovAdd iov (.text page) 0 page.length)
                       bytesTotal := stream.bytesTotal + page.length }] }
    | _ => channel
  | none => channel

/-- The stream `mk_http_init` appends for a file. -/
def fileStreamOf (fd : Int) (off total : Nat) : MkStream HeaderBuf where
  id := fileStream
  type := .file
  fd := fd
  preserve := false
  bytesTotal := total
  bytesOffset := off
  buffer := .null
  cbFinished := false
  cbBytesConsumed := true

section Machine

variable (files : Memory Int)

/-- What a list of streams still has to send. -/
def unsent (w : Shared) (streams : List (MkStream HeaderBuf)) : Bytes :=
  streams.flatMap (MkStream.pending w.mem files)

/-- A connection whose channel got more streams. -/
def Conn.queued (conn : Conn) (w : Shared) (channel : MkChannel HeaderBuf) : Conn :=
  { conn with
    channel := channel
    assembled := conn.assembled ++
      unsent files w (channel.streams.drop conn.channel.streams.length) }

/-- Change one connection. -/
def Worker.setConn (w : Worker) (c : Nat) (conn : Conn) : Worker :=
  { w with conns := fun d => if d = c then conn else w.conns d }

def workerMachine : Machine Worker WorkerEvent where
  step w e :=
    match e with
    | .tick text => { w with shared := mkClockHeadersPreset w.shared text }
    | .prepare c env sh rows page =>
      match mkHeaderPrepare env w.shared (preparedRecord sh rows) (w.conns c).channel with
      | some (shared, _, channel) =>
        let channel := match page with
          | some page => addPage channel page
          | none => channel
        { w with shared := shared }.setConn c ((w.conns c).queued files shared channel)
      | none => w
    | .file c fd off total =>
      let channel := (w.conns c).channel
      w.setConn c ((w.conns c).queued files w.shared
        { channel with streams := channel.streams ++ [fileStreamOf fd off total] })
    | .copybuf c data =>
      w.setConn c ((w.conns c).queued files w.shared
        (mkStreamSet w.shared.mem (w.conns c).channel fileStream 0 .copybuf
          (.pointer (.text data) 0) data.length false false))
    | .write c ans =>
      let r := mkChannelWrite w.shared.mem files (w.conns c).channel ans
      w.setConn c { (w.conns c) with channel := r.channel, wire := (w.conns c).wire ++ r.wire }

/-- What a connection has sent and still has to send is what was assembled. -/
def Intact (w : Worker) : Prop :=
  ∀ c, (w.conns c).wire ++ unsent files w.shared (w.conns c).channel.streams =
    (w.conns c).assembled

/-- The step does not change the bytes behind an unsent stream. -/
def Keeps (w : Worker) (e : WorkerEvent) : Prop :=
  ∀ c, ∀ stream ∈ (w.conns c).channel.streams,
    stream.pending ((workerMachine files).step w e).shared.mem files =
      stream.pending w.shared.mem files

/-- The network takes at least one byte and at most what it is given, or says
`EAGAIN`; no empty file or copy is queued; a plugin that asks for a custom status
line sets one. -/
def Promised (w : Worker) : WorkerEvent → Prop
  | .tick _ => True
  | .prepare _ _ sh _ _ => sh.status = customStatusCode → sh.customStatus ≠ []
  | .file _ _ _ total => 0 < total
  | .copybuf _ data => data ≠ []
  | .write c ans =>
    ValidAnswer w.shared.mem files
      { channel := (w.conns c).channel, wire := (w.conns c).wire, finished := [] } ans

/-- A worker whose connections have nothing queued. -/
def workerStart (shared : Shared) : Worker where
  shared := shared
  conns := fun _ => { channel := mkChannelNew mkChannelSocket, wire := [], assembled := [] }

end Machine

/-! ## The streams are good -/

/-- The channel of a connection is a socket with good streams. -/
def ChannelOk (channel : MkChannel HeaderBuf) : Prop :=
  channel.type = mkChannelSocket ∧ ∀ stream ∈ channel.streams, StreamOk stream

theorem addEntries_ok {iov : MkIov HeaderBuf} (h : iov.Ok) (es : List (HeaderBuf × Nat)) :
    (addEntries iov es).Ok := by
  induction es generalizing iov with
  | nil => exact h
  | cons e es ih => exact ih (h.add e.1 0 e.2)

theorem addEntries_len (iov : MkIov HeaderBuf) (es : List (HeaderBuf × Nat)) :
    (addEntries iov es).len = iov.len + (es.map Prod.snd).sum := by
  induction es generalizing iov with
  | nil => rfl
  | cons e es ih =>
    have hadd : (mkIovAdd iov e.1 0 e.2).len = iov.len + e.2 := by
      simp [mkIovAdd, MkIov.len, entriesLen]
    have hcons : addEntries iov (e :: es) = addEntries (mkIovAdd iov e.1 0 e.2) es := rfl
    rw [hcons, ih, hadd, List.map_cons, List.sum_cons, Nat.add_assoc]

/-- An iov that can be queued: well built and not empty. -/
def IovOk (iov : MkIov HeaderBuf) : Prop := iov.Ok ∧ 0 < iov.len

/-- The extra rows of a record, if there are any, can be queued. -/
def RowsOk (sh : ResponseHeaders) : Prop := ∀ rows, sh.extraRows = some rows → IovOk rows

theorem rowsOk_headerAdd {sh : ResponseHeaders} (h : RowsOk sh) (row : Bytes) :
    RowsOk (mkPluginHeaderAdd sh row) := by
  intro rows hrows
  simp only [mkPluginHeaderAdd, Option.some.injEq] at hrows
  rw [← hrows]
  constructor
  · apply addEntries_ok
    cases hx : sh.extraRows with
    | none => exact mkIovInit_ok _ _ _
    | some old => exact (h old hx).1
  · rw [addEntries_len]
    have hcrlf : crlf.length = 2 := by decide
    simp only [textEntry, List.map_cons, List.map_nil, List.sum_cons, List.sum_nil, hcrlf]
    omega

theorem preparedRecord_ok (sh : ResponseHeaders) (rows : List Bytes) :
    RowsOk (preparedRecord sh rows) ∧ (preparedRecord sh rows).headersIov.Ok ∧
      (preparedRecord sh rows).status = sh.status ∧
      (preparedRecord sh rows).customStatus = sh.customStatus := by
  have hfold : ∀ (rows : List Bytes) (r : ResponseHeaders), RowsOk r →
      RowsOk (rows.foldl mkPluginHeaderAdd r) ∧
      (rows.foldl mkPluginHeaderAdd r).headersIov = r.headersIov ∧
      (rows.foldl mkPluginHeaderAdd r).status = r.status ∧
      (rows.foldl mkPluginHeaderAdd r).customStatus = r.customStatus := by
    intro rows
    induction rows with
    | nil =>
      intro r hr
      exact ⟨hr, rfl, rfl, rfl⟩
    | cons row rows ih =>
      intro r hr
      exact ih (mkPluginHeaderAdd r row) (rowsOk_headerAdd hr row)
  rcases hfold rows { sh with headersIov := mkIovInit .null headerIovSize 0, extraRows := none }
    (by intro r hr; cases hr) with ⟨h1, h2, h3, h4⟩
  exact ⟨h1, h2 ▸ mkIovInit_ok _ _ _, h3, h4⟩

theorem length_bytes_pos {s : String} : 0 < (bytes s).length ↔ s ≠ "" := by
  simp [bytes, List.length_pos_iff]

theorem statusResponse_nonempty : ∀ r ∈ statusResponse, 0 < r.2.length := by
  simp only [statusResponse, List.forall_mem_cons, length_bytes_pos, ne_eq, String.reduceEq,
    not_false_eq_true, List.not_mem_nil, true_and, false_imp_iff, implies_true]

/-- A status line is never empty. -/
theorem statusEntry_pos {sh : ResponseHeaders} {e : HeaderBuf × Nat} (h : statusEntry sh = some e)
    (hcustom : sh.status = customStatusCode → sh.customStatus ≠ []) : 0 < e.2 := by
  unfold statusEntry at h
  split at h
  · next hc =>
    rw [← Option.some.inj h]
    exact List.length_pos_of_ne_nil (hcustom hc)
  · rcases Option.map_eq_some_iff.mp h with ⟨r, hr, he⟩
    rw [← he]
    exact statusResponse_nonempty r (List.mem_of_find?_eq_some hr)

/-- The stream of an iov. -/
def iovStream (id : Nat) (iov : MkIov HeaderBuf) : MkStream HeaderBuf where
  id := id
  type := .iov
  fd := 0
  preserve := false
  bytesTotal := iov.totalLen
  bytesOffset := 0
  buffer := .iov iov
  cbFinished := true
  cbBytesConsumed := false

theorem mkStreamSet_iov (mem : Memory HeaderBuf) (channel : MkChannel HeaderBuf) (id : Nat)
    (iov : MkIov HeaderBuf) :
    mkStreamSet mem channel id 0 .iov (.iov iov) 0 true false =
      { channel with streams := channel.streams ++ [iovStream id iov] } := rfl

theorem iovStream_ok {iov : MkIov HeaderBuf} (id : Nat) (h : IovOk iov) :
    StreamOk (iovStream id iov) := by
  rcases h with ⟨hok, hpos⟩
  have htotal := hok.total
  refine ⟨rfl, ?_, htotal.symm, le_of_eq htotal.symm⟩
  simp only [iovStream]
  omega

/-- `mk_header_prepare` queues one or two good iov streams. -/
theorem mkHeaderPrepare_streams {env : PrepareEnv} {w w' : Shared} {sh sh' : ResponseHeaders}
    {channel channel' : MkChannel HeaderBuf}
    (h : mkHeaderPrepare env w sh channel = some (w', sh', channel')) (hiov : sh.headersIov.Ok)
    (hrows : RowsOk sh) (hcustom : sh.status = customStatusCode → sh.customStatus ≠ []) :
    ∃ init id iov, IovOk iov ∧ (∀ stream ∈ init, StreamOk stream) ∧
      channel' = { channel with streams := channel.streams ++ init ++ [iovStream id iov] } := by
  rcases Option.map_eq_some_iff.mp h with ⟨status, hstatus, heq⟩
  have hiov' : IovOk (addEntries sh.headersIov (status :: headerEntries env sh w)) := by
    constructor
    · exact addEntries_ok hiov _
    · rw [addEntries_len, List.map_cons, List.sum_cons]
      have := statusEntry_pos hstatus hcustom
      omega
  cases hx : sh.extraRows with
  | none =>
    have hextra : prepareExtraRows sh = none := by simp [prepareExtraRows, hx]
    simp only [hextra, mkStreamSet_iov, Prod.mk.injEq] at heq
    rcases heq with ⟨-, -, rfl⟩
    refine ⟨[], headersStream, _, hiov', ?_, by simp⟩
    intro stream hs
    cases hs
  | some rows =>
    have hextra : ∃ rows', prepareExtraRows sh = some rows' ∧ IovOk rows' := by
      rcases hrows rows hx with ⟨hok, hpos⟩
      by_cases hb : sh.breaks
      · refine ⟨addEntries rows [textEntry crlf], by simp [prepareExtraRows, hx, hb],
          addEntries_ok hok _, ?_⟩
        rw [addEntries_len]
        omega
      · exact ⟨rows, by simp [prepareExtraRows, hx, hb], hok, hpos⟩
    rcases hextra with ⟨rows', hextra, hok'⟩
    simp only [hextra, mkStreamSet_iov, Prod.mk.injEq] at heq
    rcases heq with ⟨-, -, rfl⟩
    refine ⟨[iovStream headersStream (addEntries sh.headersIov (status :: headerEntries env sh w))],
      headersExtraStream, rows', hok', ?_, rfl⟩
    intro stream hs
    rw [List.mem_singleton.mp hs]
    exact iovStream_ok _ hiov'

/-- The page is counted with the iov it is appended to. -/
theorem addPage_streams (channel : MkChannel HeaderBuf) (init : List (MkStream HeaderBuf))
    (id : Nat) {iov : MkIov HeaderBuf} (hiov : IovOk iov) (page : Bytes) :
    ∃ stream, StreamOk stream ∧
      addPage { channel with streams := init ++ [iovStream id iov] } page =
        { channel with streams := init ++ [stream] } := by
  have hok : IovOk (mkIovAdd iov (.text page) 0 page.length) := by
    constructor
    · exact hiov.1.add _ _ _
    · have := hiov.2
      simp [mkIovAdd, MkIov.len, entriesLen] at this ⊢
      omega
  refine ⟨iovStream id (mkIovAdd iov (.text page) 0 page.length), iovStream_ok id hok, ?_⟩
  simp [addPage, iovStream, mkIovAdd]

/-! ## One step -/

section Step

variable {files : Memory Int} {w : Worker}

/-- A connection to which a step only adds streams. -/
structure Grows (files : Memory Int) (shared : Shared) (conn conn' : Conn) : Prop where
  grown : ∃ new, (∀ stream ∈ new, StreamOk stream) ∧
    conn'.channel = { conn.channel with streams := conn.channel.streams ++ new } ∧
    conn'.wire = conn.wire ∧ conn'.assembled = conn.assembled ++ unsent files shared new

theorem grows_refl (shared : Shared) (conn : Conn) : Grows files shared conn conn :=
  ⟨[], by simp, by simp, rfl, by simp [unsent]⟩

theorem grows_queued (shared : Shared) (conn : Conn) (new : List (MkStream HeaderBuf))
    {channel : MkChannel HeaderBuf} (hnew : ∀ stream ∈ new, StreamOk stream)
    (hch : channel = { conn.channel with streams := conn.channel.streams ++ new }) :
    Grows files shared conn (conn.queued files shared channel) := by
  subst hch
  exact ⟨new, hnew, rfl, rfl, by simp [Conn.queued]⟩

/-- Queueing on one connection leaves the others alone. -/
theorem grows_setConn {shared : Shared} {c : Nat} {conn' : Conn}
    (h : Grows files shared (w.conns c) conn') (d : Nat) :
    Grows files shared (w.conns d) (({ w with shared := shared }.setConn c conn').conns d) := by
  unfold Worker.setConn
  by_cases hd : d = c
  · subst hd
    simpa using h
  · simpa [hd] using grows_refl shared (w.conns d)

theorem fileStreamOf_ok (fd : Int) (off : Nat) {total : Nat} (h : 0 < total) :
    StreamOk (fileStreamOf fd off total) := ⟨rfl, h, trivial⟩

/-- The stream of a copy. -/
theorem copybuf_ok (mem : Memory HeaderBuf) (channel : MkChannel HeaderBuf) {data : Bytes}
    (h : data ≠ []) :
    ∃ stream, StreamOk stream ∧
      mkStreamSet mem channel fileStream 0 .copybuf (.pointer (.text data) 0) data.length false
        false = { channel with streams := channel.streams ++ [stream] } := by
  refine ⟨_, ?_, rfl⟩
  refine ⟨rfl, List.length_pos_of_ne_nil h, ?_⟩
  simp

/-- Every event but a write only adds streams. -/
theorem step_grows {e : WorkerEvent} (hp : Promised files w e) (hw : ∀ c ans, e ≠ .write c ans)
    (d : Nat) :
    Grows files ((workerMachine files).step w e).shared (w.conns d)
      (((workerMachine files).step w e).conns d) := by
  cases e with
  | tick text => exact grows_refl _ _
  | prepare c env sh rows page =>
    rcases preparedRecord_ok sh rows with ⟨hrows, hiov, hstatus, hcustom⟩
    simp only [workerMachine]
    split
    · next shared sh' channel hprep =>
      have hprep' := mkHeaderPrepare_streams hprep hiov hrows (by rw [hstatus, hcustom]; exact hp)
      rcases hprep' with ⟨init, id, iov, hok, hinit, rfl⟩
      apply grows_setConn
      -- with or without a page, good streams are appended
      cases page with
      | none =>
        apply grows_queued _ _ (init ++ [iovStream id iov])
        · intro stream hs
          rcases List.mem_append.mp hs with hs | hs
          · exact hinit stream hs
          · rw [List.mem_singleton.mp hs]
            exact iovStream_ok id hok
        · simp
      | some page =>
        rcases addPage_streams (w.conns c).channel ((w.conns c).channel.streams ++ init) id hok
          page with ⟨stream', hok', hpage⟩
        apply grows_queued _ _ (init ++ [stream'])
        · intro stream hs
          rcases List.mem_append.mp hs with hs | hs
          · exact hinit stream hs
          · rw [List.mem_singleton.mp hs]
            exact hok'
        · exact hpage.trans (by rw [List.append_assoc])
    · exact grows_refl _ _
  | file c fd off total =>
    apply grows_setConn (w := w)
    apply grows_queued _ _ ([fileStreamOf fd off total])
    · intro stream hs
      rw [List.mem_singleton.mp hs]
      exact fileStreamOf_ok fd off hp
    · rfl
  | copybuf c data =>
    apply grows_setConn (w := w)
    rcases copybuf_ok w.shared.mem (w.conns c).channel hp with ⟨stream', hok', hset⟩
    apply grows_queued _ _ ([stream'])
    · intro stream hs
      rw [List.mem_singleton.mp hs]
      exact hok'
    · exact hset
  | write c ans => exact absurd rfl (hw c ans)

/-- The streams are good and nothing has been changed behind them. -/
def WorkerInv (files : Memory Int) (w : Worker) : Prop :=
  (∀ c, ChannelOk (w.conns c).channel) ∧ Intact files w

theorem flatMap_eq_iff {α : Type} {f g : α → Bytes} (xs : List α)
    (hlen : ∀ x ∈ xs, (f x).length = (g x).length) :
    xs.flatMap f = xs.flatMap g ↔ ∀ x ∈ xs, f x = g x := by
  constructor
  · induction xs with
    | nil => simp
    | cons x xs ih =>
      intro h
      rw [List.flatMap_cons, List.flatMap_cons] at h
      have hsplit := List.append_inj h (hlen x (List.mem_cons_self ..))
      have htail := ih (fun y hy => hlen y (List.mem_cons_of_mem _ hy)) hsplit.2
      intro y hy
      rcases List.mem_cons.mp hy with rfl | hy
      · exact hsplit.1
      · exact htail y hy
  · exact List.flatMap_congr

/-- A connection that only got more streams is intact iff the old ones are
unchanged. -/
theorem Grows.intact_iff {conn conn' : Conn} {old new : Shared} (h : Grows files new conn conn')
    (hok : ChannelOk conn.channel)
    (hold : conn.wire ++ unsent files old conn.channel.streams = conn.assembled) :
    conn'.wire ++ unsent files new conn'.channel.streams = conn'.assembled ↔
      ∀ stream ∈ conn.channel.streams,
        stream.pending new.mem files = stream.pending old.mem files := by
  rcases h.grown with ⟨added, -, hch, hwire, hasm⟩
  have hlen : ∀ stream ∈ conn.channel.streams,
      (stream.pending new.mem files).length = (stream.pending old.mem files).length := by
    intro stream hs
    rw [(hok.2 stream hs).pending_length, (hok.2 stream hs).pending_length]
  rw [hch, hwire, hasm, ← hold]
  simp only [unsent, List.flatMap_append, ← List.append_assoc, List.append_cancel_right_eq]
  rw [List.append_cancel_left_eq]
  exact flatMap_eq_iff _ hlen

theorem Grows.channelOk {conn conn' : Conn} {shared : Shared} (h : Grows files shared conn conn')
    (hok : ChannelOk conn.channel) : ChannelOk conn'.channel := by
  rcases h.grown with ⟨added, hadded, hch, -, -⟩
  rw [hch]
  refine ⟨hok.1, ?_⟩
  intro stream hs
  rcases List.mem_append.mp hs with hs | hs
  · exact hok.2 stream hs
  · exact hadded stream hs

/-- A write moves bytes from the queue to the wire and touches no buffer. -/
theorem workerInv_write {c : Nat} {ans : NetAnswer} (h : WorkerInv files w)
    (hp : Promised files w (.write c ans)) :
    WorkerInv files ((workerMachine files).step w (.write c ans)) := by
  rcases mkChannelWrite_moves w.shared.mem files (h.1 c).1 (h.1 c).2 hp with ⟨h1, h2, h3⟩
  constructor
  · intro d
    simp only [workerMachine, Worker.setConn]
    split
    · exact ⟨h1, h2⟩
    · exact h.1 d
  · intro d
    simp only [workerMachine, Worker.setConn]
    split
    · next hd =>
      simp only [unsent] at h3 ⊢
      rw [List.append_assoc, h3]
      exact h.2 c
    · exact h.2 d

theorem workerInv_step {e : WorkerEvent} (h : WorkerInv files w) (hp : Promised files w e)
    (hkeeps : Keeps files w e) : WorkerInv files ((workerMachine files).step w e) := by
  by_cases hw : ∃ c ans, e = .write c ans
  · rcases hw with ⟨c, ans, rfl⟩
    exact workerInv_write h hp
  · have hgrows := step_grows hp (fun c ans he => hw ⟨c, ans, he⟩)
    constructor
    · intro c
      exact (hgrows c).channelOk (h.1 c)
    · intro c
      exact ((hgrows c).intact_iff (h.1 c) (h.2 c)).mpr (hkeeps c)

theorem not_intact_step {e : WorkerEvent} (h : WorkerInv files w) (hp : Promised files w e)
    (hkeeps : ¬ Keeps files w e) : ¬ Intact files ((workerMachine files).step w e) := by
  intro hintact
  apply hkeeps
  intro c
  by_cases hw : ∃ c ans, e = .write c ans
  · rcases hw with ⟨d, ans, rfl⟩
    intro stream hs
    rfl
  · have hgrows := step_grows hp (fun c ans he => hw ⟨c, ans, he⟩)
    exact ((hgrows c).intact_iff (h.1 c) (h.2 c)).mp (hintact c)

end Step

/-! ## Whole runs -/

theorem workerInv_start (files : Memory Int) (shared : Shared) :
    WorkerInv files (workerStart shared) := by
  constructor
  · intro c
    refine ⟨rfl, ?_⟩
    intro stream hs
    cases hs
  · intro c
    rfl

/-- On a worker, the bytes that leave are the bytes that were assembled, in every
state of a run, exactly if no step of it changes the bytes behind an unsent
stream. -/
theorem header_bytes_iff (files : Memory Int) (shared : Shared) (es : List WorkerEvent)
    (hp : (workerMachine files).AllSteps (Promised files) (workerStart shared) es) :
    (workerMachine files).AllStates (Intact files) (workerStart shared) es ↔
      (workerMachine files).AllSteps (Keeps files) (workerStart shared) es :=
  (workerMachine files).allStates_iff_allSteps_of_env (fun _ h => h.2)
    (fun _ _ h => workerInv_step h) (fun _ _ h => not_intact_step h) (workerInv_start files shared)
    hp

/-! ## Two connections -/

/-- A worker whose preset row is `Server: Monkey`. -/
def sharedMonkey : Shared where
  lm := fun _ => 0
  cl := fun _ => 0
  preset := fun _ => cstr (bytes "Server: Monkey\r\n")
  current := false
  presetLen := 16

/-- HTTP/1.1, kept open, nothing asked for. -/
def plainEnv : PrepareEnv where
  utime2gmt := fun _ => []
  resume := false
  closeNow := false
  connectionLen := -1
  protocol := .v11

/-- The record of a 200 response with `n` bytes of content. -/
def okLength (n : Int) : ResponseHeaders :=
  { mkHeaderResponseReset responseHeadersZero with status := 200, contentLength := n }

/-- Connection 0 prepares a response of 10 bytes and has to wait; connection 1
prepares one of 25 bytes; then connection 0 is flushed. -/
def crossed : List WorkerEvent :=
  [.prepare 0 plainEnv (okLength 10) [] none, .write 0 .again,
    .prepare 1 plainEnv (okLength 25) [] none, .write 0 (.sent 55)]

theorem header_bytes_crossed :
    let w := (workerMachine fun _ _ => 0).run (workerStart sharedMonkey) crossed
    (w.conns 0).channel.streams.length = 0 ∧ (w.conns 0).wire ≠ (w.conns 0).assembled := by
  decide

/-- The second preparation of this run is the step that changes unsent bytes. -/
theorem header_bytes_crossed_step :
    ¬ (workerMachine fun _ _ => 0).AllSteps (Keeps fun _ _ => 0) (workerStart sharedMonkey)
      crossed := by
  intro hkeeps
  have hp : (workerMachine fun _ _ => 0).AllSteps (Promised fun _ _ => 0)
      (workerStart sharedMonkey) crossed := by
    refine ⟨?_, trivial, ?_, ?_, trivial⟩
    · intro h
      cases h
    · intro h
      cases h
    · exact (by decide : 0 < 55 ∧ 55 ≤ 55)
  have hintact := ((header_bytes_iff _ _ _ hp).mpr hkeeps).last 0
  revert hintact
  decide

end SuperExe.Http
