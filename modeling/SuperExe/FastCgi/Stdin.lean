import SuperExe.FastCgi.Encode
import SuperExe.Stream.Delivery

/-! # The standard input of a FastCGI request

`fcgi_add_stdin` and `fcgi_stdin_chunk` put the body of a request behind its
parameters, at most 65535 bytes of it in one FCGI_STDIN record, and
`cb_fastcgi_request_flush` sends what has been built and builds the next record
once the channel is empty. The end marker is written with the last bytes of the
body; a request without a body gets no record at all. The headers of all
records stay in `buf_data`, one behind the other.
-/

namespace SuperExe.FastCgi

open SuperExe.Core SuperExe.Lib SuperExe.Stream
open SuperExe.Http (Incoming)

/-! ## The code -/

def fcgiStdin : UInt8 := 5

/-- The fields of `struct fcgi_handler` that `fcgi_stdin_chunk` uses. -/
structure StdinHandler where
  params : Params
  stdinLength : Nat
  stdinOffset : Nat
  stdinBuffer : Bytes
deriving Repr

/-- The end marker of `fcgi_stdin_chunk`. -/
def addStdinEnd (h : Params) : Option Params :=
  let eof := h.bufData.length
  (h.write (buildHeader fcgiStdin 1 0)).bind fun h =>
  (iovAdd h.iov .buf eof headerSize).map fun iov => { h with iov }

/-- `fcgi_stdin_chunk`; `none` is a write behind `buf_data` or behind the
entries of the iov. -/
def fcgiStdinChunk (h : StdinHandler) : Option StdinHandler :=
  let total := h.stdinLength - h.stdinOffset
  let chunk := if total > 65535 then 65535 else total
  let padding := paddingOf chunk
  let p := h.params.bufData.length
  (h.params.write (setPadding (buildHeader fcgiStdin 1 chunk) padding)).bind fun params =>
  (iovAdd params.iov .buf p headerSize).bind fun iov =>
  (if chunk > 0 then iovAdd iov (.arg h.stdinBuffer) h.stdinOffset chunk else some iov).bind fun iov =>
  (if padding > 0 then iovAdd iov .pad 0 padding else some iov).bind fun iov =>
  (if h.stdinOffset + chunk = h.stdinLength then addStdinEnd { params with iov }
    else some { params with iov }).map fun params =>
  { h with params, stdinOffset := h.stdinOffset + chunk }

/-- `fcgi_add_stdin` with `sr->data`. It returns `-1` for no data, which
`fcgi_encode_request` does not look at. -/
def fcgiAddStdin (h : StdinHandler) (data : Bytes) : Option StdinHandler :=
  if data.length = 0 then some h
  else fcgiStdinChunk { h with stdinLength := data.length, stdinOffset := 0, stdinBuffer := data }

/-- What becomes of the upload: it goes on, the handler has turned to the
response, it has given up, or it has written behind one of its arrays. -/
inductive Phase where
  | sending
  | reading
  | exited
  | crashed
deriving DecidableEq, Repr

/-- A handler that sends its request, and what the backend has been sent. -/
structure Upload where
  handler : StdinHandler
  fcgiChannel : MkChannel Src
  wire : Bytes
  phase : Phase

/-- `&handler->fcgi_stream` -/
def fcgiStream : Nat := 0

/-- `mk_api->stream_set` with the iov of the handler. -/
def setIov (params : Params) (channel : MkChannel Src) : MkChannel Src :=
  mkStreamSet params.mem channel fcgiStream 0 .iov (.iov params.iov) 0 false false

/-- `fcgi_add_stdin` at the end of `fcgi_encode_request`, and the channel
`cb_fastcgi_on_connect` prepares. -/
def startUpload (params : Params) (data : Bytes) : Upload :=
  let handler : StdinHandler := { params, stdinLength := 0, stdinOffset := 0, stdinBuffer := [] }
  match fcgiAddStdin handler data with
  | none => { handler, fcgiChannel := mkChannelNew mkChannelSocket, wire := [], phase := .crashed }
  | some handler =>
    { handler, fcgiChannel := setIov handler.params (mkChannelNew mkChannelSocket), wire := [],
      phase := .sending }

/-- `cb_fastcgi_request_flush`. It is not called any more once it has handed the
event over to `cb_fastcgi_on_read` or has left by `fcgi_exit`. -/
def cbFastcgiRequestFlush (files : Memory Int) (u : Upload) (ans : NetAnswer) : Upload :=
  match u.phase with
  | .sending =>
    let r := mkChannelWrite u.handler.params.mem files u.fcgiChannel ans
    let u := { u with fcgiChannel := r.channel, wire := u.wire ++ r.wire }
    match r.ret with
    | .done | .empty =>
      if u.handler.stdinLength - u.handler.stdinOffset > 0 then
        let params := { u.handler.params with iov := mkIovInit .pad 64 0 }
        match fcgiStdinChunk { u.handler with params } with
        | none => { u with phase := .crashed }
        | some handler => { u with handler, fcgiChannel := setIov handler.params u.fcgiChannel }
      else
        let params := { u.handler.params with bufData := [] }
        { u with handler := { u.handler with params }, phase := .reading }
    | .error => { u with phase := .exited }
    | .busy | .flush | .unknown => u
  | .reading | .exited | .crashed => u

/-- The events of the upload. -/
def uploadMachine (files : Memory Int) : Machine Upload NetAnswer where
  step := cbFastcgiRequestFlush files

/-! ## What is asked for -/

/-- The network never takes more than it is given. -/
def TakesAtMost (files : Memory Int) (u : Upload) : NetAnswer → Prop
  | .sent k =>
    ∀ stream ∈ u.fcgiChannel.streams.head?, k ≤ (stream.pending u.handler.params.mem files).length
  | .again | .failed => True

/-- The body of a request: the bytes behind its header that it has declared. -/
def requestBody (r : Incoming) : Bytes :=
  (r.slice r.req.data).take r.p.headerContentLength.toNat

/-- Records that carry a body: it is the contents of the first ones, none of
them empty, and one more record is empty. -/
def StdinRecords (body : Bytes) (rs : List Record) : Prop :=
  ∃ chunks last, rs = chunks ++ [last] ∧ contents chunks = body ∧
    (∀ r ∈ chunks, r.type = fcgiStdin ∧ r.content ≠ []) ∧ last.type = fcgiStdin ∧ last.content = []

/-- The upload of a request. -/
def Prepared.upload (h : Prepared) (r : Incoming) : Upload :=
  startUpload h.params (r.slice r.req.data)

/-- Behind the parameters the backend gets the records of the body, whatever the
network does, and it can get them all. -/
def StdinSent (files : Memory Int) (h : Prepared) (r : Incoming) : Prop :=
  (∀ answers, (uploadMachine files).AllSteps (TakesAtMost files) (h.upload r) answers →
    let u := (uploadMachine files).run (h.upload r) answers
    u.phase ≠ .crashed ∧ (u.phase = .reading →
      ∃ rs, cutStream (u.wire.drop h.params.bytes.length) = some rs ∧
        StdinRecords (requestBody r) rs)) ∧
  ∃ answers, (uploadMachine files).AllSteps (TakesAtMost files) (h.upload r) answers ∧
    ((uploadMachine files).run (h.upload r) answers).phase = .reading

/-- The bytes of `buf_data` that the headers of the records for `left` bytes
take: one header for each 65535 bytes begun, and the end marker. -/
def headerUse (left : Nat) : Nat :=
  8 * ((left + 65534) / 65535) + if 0 < left then 8 else 0

theorem headerUse_last {left : Nat} (h0 : 0 < left) (h : left ≤ 65535) : headerUse left = 16 := by
  unfold headerUse
  rw [if_pos h0]
  omega

theorem headerUse_more {left : Nat} (h : 65535 < left) :
    headerUse left = 8 + headerUse (left - 65535) := by
  unfold headerUse
  rw [if_pos (by omega), if_pos (by omega)]
  omega

/-! ## One record -/

section OneRecord

/-- The record of a piece of the body. -/
def stdinRecord (content : Bytes) : Record where
  type := fcgiStdin
  requestId := 1
  content := content
  padding := List.replicate (paddingOf content.length) 0

theorem stdinRecord_wellFormed {content : Bytes} (h : content.length ≤ 65535) :
    (stdinRecord content).WellFormed := by
  have hpad := paddingOf_lt content.length
  refine ⟨by simp [stdinRecord], by simp only [stdinRecord]; omega, ?_⟩
  simp only [stdinRecord, List.length_replicate]
  omega

theorem stdinRecord_header {content : Bytes} (h : content.length ≤ 65535) :
    setPadding (buildHeader fcgiStdin 1 content.length) (paddingOf content.length) =
      (stdinRecord content).header := by
  rw [buildHeader, Nat.mod_eq_of_lt (show content.length < 65536 by omega)]
  simp [setPadding, Record.header, stdinRecord, encode16]

theorem stdinEnd_bytes : buildHeader fcgiStdin 1 0 = (stdinRecord []).bytes := by
  decide

/-- The entries behind the header of a record. -/
def chunkIov (body : Bytes) (off chunk : Nat) : List (IoVec Src) :=
  (if chunk > 0 then [⟨.arg body, off, chunk⟩] else []) ++
    if paddingOf chunk > 0 then [⟨.pad, 0, paddingOf chunk⟩] else []

theorem length_chunkIov (body : Bytes) (off chunk : Nat) : (chunkIov body off chunk).length ≤ 2 := by
  unfold chunkIov
  split_ifs <;> simp

theorem chunkIov_base {body : Bytes} {off chunk : Nat} {e : IoVec Src}
    (he : e ∈ chunkIov body off chunk) : e.iovBase ≠ .buf := by
  intro hbase
  unfold chunkIov at he
  rcases List.mem_append.mp he with he | he <;> split at he
  all_goals first | exact List.not_mem_nil he | skip
  all_goals
    rw [List.mem_singleton.mp he] at hbase
    cases hbase

theorem read_piece (h : Params) {b : Bytes} {off len : Nat} (hle : off + len ≤ b.length) :
    h.mem.read (.arg b) off len = (b.drop off).take len := by
  apply List.ext_getElem
  · simp
    omega
  · intro i hi hi'
    have hlt : off + i < b.length := by
      rw [Memory.read_length] at hi
      omega
    simp only [Memory.read, List.getElem_map, List.getElem_range, Params.mem, List.getElem_take,
      List.getElem_drop]
    exact List.getD_eq_getElem _ _ hlt

/-- What the entries of a piece denote: the piece and its padding. -/
theorem chunkIov_bytes (h : Params) {body : Bytes} {off chunk : Nat}
    (hle : off + chunk ≤ body.length) :
    entriesBytes h.mem (chunkIov body off chunk) =
      (body.drop off).take chunk ++ List.replicate (paddingOf chunk) 0 := by
  have happ : entriesBytes h.mem (chunkIov body off chunk) =
      entriesBytes h.mem (if chunk > 0 then [⟨.arg body, off, chunk⟩] else []) ++
        entriesBytes h.mem (if paddingOf chunk > 0 then [⟨.pad, 0, paddingOf chunk⟩] else []) :=
    List.flatMap_append
  rw [happ]
  congr 1
  · split
    · simp [entriesBytes, IoVec.bytes, read_piece h hle]
    · next h0 =>
      have : chunk = 0 := by omega
      rw [this]
      rfl
  · split
    · simp [entriesBytes, IoVec.bytes, read_pad]
    · next h0 =>
      have : paddingOf chunk = 0 := by omega
      rw [this]
      rfl

theorem addStdinEnd_eq (h : Params) : addStdinEnd h = h.addRecord (buildHeader fcgiStdin 1 0) [] := by
  unfold addStdinEnd Params.addRecord
  simp [addEntries, headerSize, buildHeader, encode16]

/-- The bytes of the body the next record carries. -/
def StdinHandler.chunk (h : StdinHandler) : Nat := min (h.stdinLength - h.stdinOffset) 65535

theorem fcgiStdinChunk_eq (h : StdinHandler) :
    fcgiStdinChunk h =
      (h.params.addRecord (setPadding (buildHeader fcgiStdin 1 h.chunk) (paddingOf h.chunk))
        (chunkIov h.stdinBuffer h.stdinOffset h.chunk)).bind fun params =>
      (if h.stdinOffset + h.chunk = h.stdinLength then addStdinEnd params else some params).map
        fun params => { h with params, stdinOffset := h.stdinOffset + h.chunk } := by
  have hchunk : (if h.stdinLength - h.stdinOffset > 65535 then 65535
      else h.stdinLength - h.stdinOffset) = h.chunk := by
    unfold StdinHandler.chunk
    split <;> omega
  unfold fcgiStdinChunk Params.addRecord chunkIov
  have hlen : (setPadding (buildHeader fcgiStdin 1 h.chunk) (paddingOf h.chunk)).length =
      headerSize := by
    simp [setPadding, buildHeader, encode16, headerSize]
  simp only [hchunk, hlen]
  split_ifs <;> simp [addEntries, Option.map_eq_bind, Option.bind_assoc, *]

/-- The records `fcgi_stdin_chunk` puts in the iov: the next piece of the body,
and the end marker behind the last one. -/
def StdinHandler.nextRecords (h : StdinHandler) : List Record :=
  stdinRecord ((h.stdinBuffer.drop h.stdinOffset).take h.chunk) ::
    if h.stdinOffset + h.chunk = h.stdinLength then [stdinRecord []] else []

/-- What one call of `fcgi_stdin_chunk` has done. -/
structure ChunkAdded (h h' : StdinHandler) : Prop where
  stdinLength : h'.stdinLength = h.stdinLength
  stdinBuffer : h'.stdinBuffer = h.stdinBuffer
  stdinOffset : h'.stdinOffset = h.stdinOffset + h.chunk
  use : h'.params.bufData.length + headerUse (h.stdinLength - (h.stdinOffset + h.chunk)) =
    h.params.bufData.length + headerUse (h.stdinLength - h.stdinOffset)
  fits : h'.params.bufData.length ≤ bufSize
  ok : h.params.iov.Ok → h'.params.iov.Ok
  bytes : h.params.Inside → h'.params.bytes = h.params.bytes ++ stream h.nextRecords

variable {h h' : StdinHandler}

/-- The header and the entries of a piece denote its record. -/
theorem piece_appended {params : Params} (hlen : h.stdinLength = h.stdinBuffer.length)
    (hoff : h.stdinOffset ≤ h.stdinLength)
    (ha : Appended h.params params
      (setPadding (buildHeader fcgiStdin 1 h.chunk) (paddingOf h.chunk))
      (chunkIov h.stdinBuffer h.stdinOffset h.chunk)) (hin : h.params.Inside) :
    params.Inside ∧ params.bytes = h.params.bytes ++
      (stdinRecord ((h.stdinBuffer.drop h.stdinOffset).take h.chunk)).bytes := by
  have hpiece : ((h.stdinBuffer.drop h.stdinOffset).take h.chunk).length = h.chunk := by
    rw [List.length_take, List.length_drop, ← hlen]
    unfold StdinHandler.chunk
    omega
  have hchunk : h.chunk ≤ 65535 := Nat.min_le_right _ _
  constructor
  · exact ha.inside hin fun e he hbase => absurd hbase (chunkIov_base he)
  · rw [ha.bytes hin, chunkIov_bytes params (by unfold StdinHandler.chunk; omega), Record.bytes,
      ← stdinRecord_header (by omega), hpiece]
    simp [stdinRecord, hpiece]

/-- One call, where it stays inside the arrays. -/
theorem fcgiStdinChunk_added (hlen : h.stdinLength = h.stdinBuffer.length)
    (hoff : h.stdinOffset < h.stdinLength) (hrun : fcgiStdinChunk h = some h') :
    ChunkAdded h h' := by
  rw [fcgiStdinChunk_eq, Option.bind_eq_some_iff] at hrun
  rcases hrun with ⟨params, hpiece, hrest⟩
  rcases addRecord_eq_some hpiece with ⟨hbuf, -, ha⟩
  have hhead : (setPadding (buildHeader fcgiStdin 1 h.chunk) (paddingOf h.chunk)).length = 8 := by
    simp [setPadding, buildHeader, encode16]
  have hbytes := piece_appended hlen (Nat.le_of_lt hoff) ha
  have hlength := ha.length_bufData
  rw [hhead] at hbuf hlength
  rw [Option.map_eq_some_iff] at hrest
  rcases hrest with ⟨last, hlast, rfl⟩
  split at hlast
  · next hend =>
    -- the piece ends the body: the end marker follows
    rw [addStdinEnd_eq] at hlast
    rcases addRecord_eq_some hlast with ⟨hbuf', -, ha'⟩
    have hlength' := ha'.length_bufData
    simp only [buildHeader, encode16, List.length_append, List.length_cons, List.length_nil]
      at hbuf' hlength'
    refine ⟨rfl, rfl, rfl, ?_, show last.bufData.length ≤ bufSize by omega,
      fun hok => ha'.ok (ha.ok hok), ?_⟩
    · have hleft : h.stdinLength - (h.stdinOffset + h.chunk) = 0 := by omega
      have hmin : h.chunk ≤ 65535 := Nat.min_le_right _ _
      have hlast : headerUse (h.stdinLength - h.stdinOffset) = 16 :=
        headerUse_last (by omega) (by omega)
      rw [hleft, hlast, hlength', hlength, show headerUse 0 = 0 from rfl]
    · intro hin
      rcases hbytes hin with ⟨hin', hb⟩
      rw [ha'.bytes hin', hb, StdinHandler.nextRecords, if_pos hend, stdinEnd_bytes]
      simp [entriesBytes]
  · next hmore =>
    cases hlast
    refine ⟨rfl, rfl, rfl, ?_, show params.bufData.length ≤ bufSize by omega, ha.ok, ?_⟩
    · have hchunk : h.chunk = 65535 ∧ 65535 < h.stdinLength - h.stdinOffset := by
        unfold StdinHandler.chunk at hmore ⊢
        omega
      rw [headerUse_more hchunk.2, hlength, hchunk.1]
      rw [Nat.sub_add_eq]
      omega
    · intro hin
      rw [(hbytes hin).2, StdinHandler.nextRecords, if_neg hmore]
      simp

/-- One call stays inside the arrays where the headers of the rest have room. -/
theorem fcgiStdinChunk_some (hoff : h.stdinOffset < h.stdinLength)
    (hio : h.params.iov.io.length + 4 ≤ h.params.iov.size)
    (hroom : h.params.bufData.length + headerUse (h.stdinLength - h.stdinOffset) ≤ bufSize) :
    ∃ h', fcgiStdinChunk h = some h' := by
  have hhead : (setPadding (buildHeader fcgiStdin 1 h.chunk) (paddingOf h.chunk)).length = 8 := by
    simp [setPadding, buildHeader, encode16]
  have hes := length_chunkIov h.stdinBuffer h.stdinOffset h.chunk
  have huse : 8 ≤ headerUse (h.stdinLength - h.stdinOffset) := by
    unfold headerUse
    rw [if_pos (by omega)]
    omega
  have hadd : ∃ params, h.params.addRecord _ _ = some params ∧ Appended h.params params
      (setPadding (buildHeader fcgiStdin 1 h.chunk) (paddingOf h.chunk))
      (chunkIov h.stdinBuffer h.stdinOffset h.chunk) := addRecord_some (by omega) (by omega)
  rcases hadd with ⟨params, hpiece, ha⟩
  have hlength := ha.length_bufData
  have hsize := ha.size
  have hcount := ha.length_io
  rw [hhead] at hlength
  rw [fcgiStdinChunk_eq, hpiece, Option.bind_some]
  split
  · next hend =>
    have hmin : h.chunk ≤ 65535 := Nat.min_le_right _ _
    rw [headerUse_last (by omega) (by omega)] at hroom
    have hadd' : ∃ last, addStdinEnd params = some last := by
      rw [addStdinEnd_eq]
      rcases addRecord_some (show params.bufData.length + (buildHeader fcgiStdin 1 0).length ≤ bufSize
        by simp only [buildHeader, encode16, List.length_append, List.length_cons, List.length_nil]
           omega) (show params.iov.io.length + (([] : List (IoVec Src)).length + 1) ≤ params.iov.size
        by rw [List.length_nil]
           omega) with ⟨last, hlast, -⟩
      exact ⟨last, hlast⟩
    rcases hadd' with ⟨last, hlast⟩
    exact ⟨_, by rw [hlast, Option.map_some]⟩
  · exact ⟨_, rfl⟩

end OneRecord

/-! ## The bytes of the records -/

section Pieces

/-- The records of a body up to `off`. -/
structure Pieces (data : Bytes) (off : Nat) (rs : List Record) : Prop where
  contents : contents rs = data.take off
  fits : ∀ r ∈ rs, r.WellFormed
  stdin : ∀ r ∈ rs, r.type = fcgiStdin ∧ r.content ≠ []

/-- The marker behind the last piece. -/
def endMark (data : Bytes) (off : Nat) : List Record :=
  if off = data.length ∧ data ≠ [] then [stdinRecord []] else []

/-- What the backend has been sent, or will be, when `off` bytes of the body
have been put in records. -/
def Sent (data : Bytes) (off : Nat) (bs : Bytes) : Prop :=
  ∃ rs, Pieces data off rs ∧ bs = stream (rs ++ endMark data off)

theorem sent_start (data : Bytes) : Sent data 0 [] := by
  refine ⟨[], ⟨by simp [contents], by simp, by simp⟩, ?_⟩
  have hno : ¬ (0 = data.length ∧ data ≠ []) := fun h => h.2 (List.length_eq_zero_iff.mp h.1.symm)
  rw [endMark, if_neg hno]
  rfl

/-- The next record carries the bytes that come next. -/
theorem Sent.next {bs : Bytes} {h : StdinHandler} (hs : Sent h.stdinBuffer h.stdinOffset bs)
    (hlen : h.stdinLength = h.stdinBuffer.length) (hoff : h.stdinOffset < h.stdinLength) :
    Sent h.stdinBuffer (h.stdinOffset + h.chunk) (bs ++ stream h.nextRecords) := by
  rcases hs with ⟨rs, hp, rfl⟩
  have hchunk : 0 < h.chunk ∧ h.chunk ≤ 65535 ∧ h.stdinOffset + h.chunk ≤ h.stdinLength := by
    unfold StdinHandler.chunk
    omega
  have hpiece : ((h.stdinBuffer.drop h.stdinOffset).take h.chunk).length = h.chunk := by
    rw [List.length_take, List.length_drop]
    omega
  refine ⟨rs ++ [stdinRecord ((h.stdinBuffer.drop h.stdinOffset).take h.chunk)],
    ⟨?_, ?_, ?_⟩, ?_⟩
  · rw [List.take_add, ← hp.contents]
    simp [contents, stdinRecord]
  · intro r hr
    rcases List.mem_append.mp hr with hr | hr
    · exact hp.fits r hr
    · rw [List.mem_singleton.mp hr]
      exact stdinRecord_wellFormed (by omega)
  · intro r hr
    rcases List.mem_append.mp hr with hr | hr
    · exact hp.stdin r hr
    · rw [List.mem_singleton.mp hr]
      refine ⟨rfl, fun hnil => ?_⟩
      rw [show (stdinRecord ((h.stdinBuffer.drop h.stdinOffset).take h.chunk)).content =
        (h.stdinBuffer.drop h.stdinOffset).take h.chunk from rfl] at hnil
      rw [hnil] at hpiece
      simp only [List.length_nil] at hpiece
      omega
  · have hne : h.stdinBuffer ≠ [] := by
      intro hnil
      rw [hnil] at hlen
      simp only [List.length_nil] at hlen
      omega
    -- the record that ends the stream follows the last piece only
    have hbefore : endMark h.stdinBuffer h.stdinOffset = [] :=
      if_neg fun hend => absurd hend.1 (by omega)
    have hafter : endMark h.stdinBuffer (h.stdinOffset + h.chunk) =
        if h.stdinOffset + h.chunk = h.stdinLength then [stdinRecord []] else [] := by
      rw [endMark, hlen]
      simp only [hne, ne_eq, not_false_eq_true, and_true]
    rw [hbefore, hafter, StdinHandler.nextRecords, List.append_nil, ← stream_append,
      List.append_assoc]
    rfl

/-- The records of a whole body that is not empty are what the specification
cuts out of them. -/
theorem Sent.cut {data bs : Bytes} (hs : Sent data data.length bs) :
    ∃ rs, cutStream bs = some (rs ++ endMark data data.length) ∧ contents rs = data ∧
      ∀ r ∈ rs, r.type = fcgiStdin ∧ r.content ≠ [] := by
  rcases hs with ⟨rs, hp, rfl⟩
  have hwf : ∀ r ∈ rs ++ endMark data data.length, r.WellFormed := by
    intro r hr
    rcases List.mem_append.mp hr with hr | hr
    · exact hp.fits r hr
    · unfold endMark at hr
      split at hr
      · rw [List.mem_singleton.mp hr]
        exact stdinRecord_wellFormed (Nat.zero_le _)
      · cases hr
  refine ⟨rs, cutStream_stream hwf, ?_, hp.stdin⟩
  rw [hp.contents, List.take_length]

/-- They carry the body that was asked for exactly where the data is this body,
and is not empty. -/
theorem Sent.stdinRecords_iff {data body bs : Bytes} (hs : Sent data data.length bs) :
    (∃ rs, cutStream bs = some rs ∧ StdinRecords body rs) ↔ data ≠ [] ∧ data = body := by
  rcases hs.cut with ⟨chunks, hcut, hcontents, hstdin⟩
  constructor
  · rintro ⟨rs, hrs, chunks', last, rfl, hbody, hchunks', hlast, hempty⟩
    rw [hcut, Option.some.injEq] at hrs
    have hne : data ≠ [] := by
      intro hnil
      -- without data there is no marker, and `last` would be a piece
      rw [show endMark data data.length = [] from if_neg fun h => h.2 hnil, List.append_nil] at hrs
      have hmem : last ∈ chunks := by simp [hrs]
      exact (hstdin last hmem).2 hempty
    rw [show endMark data data.length = [stdinRecord []] from if_pos ⟨rfl, hne⟩] at hrs
    have hchunks := (List.append_inj' hrs rfl).1
    rw [hchunks, hbody] at hcontents
    exact ⟨hne, hcontents.symm⟩
  · rintro ⟨hne, rfl⟩
    refine ⟨_, hcut, chunks, stdinRecord [], ?_, hcontents, hstdin, rfl, rfl⟩
    rw [show endMark data data.length = [stdinRecord []] from if_pos ⟨rfl, hne⟩]

end Pieces

/-! ## The invariant of an upload -/

section Upload

variable {files : Memory Int} {h : Prepared} {data : Bytes}

/-- There is room for the headers of all records of the body. -/
def Prepared.Room (h : Prepared) (data : Bytes) : Prop :=
  h.params.bufData.length + headerUse data.length ≤ bufSize

/-- While the request is sent: one stream is queued, which is what is missing
behind the bytes on the wire. -/
structure Sending (files : Memory Int) (h : Prepared) (data : Bytes) (u : Upload) : Prop where
  stdinLength : u.handler.stdinLength = data.length
  stdinBuffer : u.handler.stdinBuffer = data
  stdinOffset : u.handler.stdinOffset ≤ data.length
  use : u.handler.params.bufData.length + headerUse (data.length - u.handler.stdinOffset) =
    h.params.bufData.length + headerUse data.length
  fits : data ≠ [] → u.handler.params.bufData.length ≤ bufSize
  socket : u.fcgiChannel.type = mkChannelSocket
  queued : ∃ stream bs, u.fcgiChannel.streams = [stream] ∧ StreamOk stream ∧
    u.wire ++ stream.pending u.handler.params.mem files = h.params.bytes ++ bs ∧
    Sent data u.handler.stdinOffset bs

/-- Where an upload stands. -/
def UploadInv (files : Memory Int) (h : Prepared) (data : Bytes) (u : Upload) : Prop :=
  match u.phase with
  | .sending => Sending files h data u
  | .reading => (data ≠ [] → h.Room data) ∧ ∃ bs, u.wire = h.params.bytes ++ bs ∧
      Sent data data.length bs
  | .exited => True
  | .crashed => data ≠ [] ∧ ¬ h.Room data

theorem setIov_stream (files : Memory Int) {params : Params} (hok : params.iov.Ok)
    (hpos : 0 < params.iov.len) {channel : MkChannel Src} (hempty : channel.streams = []) :
    (setIov params channel).type = channel.type ∧
      ∃ stream, (setIov params channel).streams = [stream] ∧ StreamOk stream ∧
        stream.pending params.mem files = params.bytes := by
  let spec : StreamSpec Src :=
    { id := fcgiStream, source := .iov params.iov hok, cbFinished := false, cbBytesConsumed := false,
      nonempty := hpos }
  have hset : setIov params channel = spec.set params.mem channel := rfl
  rcases spec.stream_ok params.mem files with ⟨hstream, hpend, -⟩
  rw [hset, StreamSpec.set_eq, hempty]
  exact ⟨rfl, spec.stream params.mem, rfl, hstream, hpend⟩

/-- The next piece of the body is built, and queued on the empty channel. -/
theorem sending_chunk {x x' : StdinHandler} {channel : MkChannel Src} {wire bs : Bytes}
    {phase : Phase} (hlen : x.stdinLength = data.length) (hbuf : x.stdinBuffer = data)
    (hoff : x.stdinOffset < data.length)
    (huse : x.params.bufData.length + headerUse (data.length - x.stdinOffset) =
      h.params.bufData.length + headerUse data.length)
    (hin : x.params.Inside) (hok : x.params.iov.Ok) (hsock : channel.type = mkChannelSocket)
    (hempty : channel.streams = []) (hwire : wire ++ x.params.bytes = h.params.bytes ++ bs)
    (hsent : Sent data x.stdinOffset bs) (hrun : fcgiStdinChunk x = some x') :
    Sending files h data
      { handler := x', fcgiChannel := setIov x'.params channel, wire, phase } := by
  subst hbuf
  have ha := fcgiStdinChunk_added hlen (by omega) hrun
  have hbytes := ha.bytes hin
  have hchunk : x.stdinOffset + x.chunk ≤ x.stdinLength := by
    unfold StdinHandler.chunk
    omega
  -- a record is never empty
  have hpos : 0 < x'.params.iov.len := by
    have hlength := congrArg List.length hbytes
    rw [Params.bytes, MkIov.bytes_length, StdinHandler.nextRecords, stream_cons] at hlength
    simp only [List.length_append, Record.length_bytes, Record.size, headerSize] at hlength
    omega
  rcases setIov_stream files (ha.ok hok) hpos hempty with ⟨htype, stream, hstreams, hstream, hpend⟩
  refine ⟨ha.stdinLength.trans hlen, ha.stdinBuffer, ?_, ?_, fun _ => ha.fits, htype.trans hsock,
    stream, bs ++ FastCgi.stream x.nextRecords, hstreams, hstream, ?_, ?_⟩
  · rw [ha.stdinOffset, ← hlen]
    exact hchunk
  · rw [ha.stdinOffset, ← hlen, ha.use, hlen]
    exact huse
  · rw [hpend, hbytes, ← List.append_assoc, hwire, List.append_assoc]
  · rw [ha.stdinOffset]
    exact hsent.next hlen (by omega)

theorem upload_start (files : Memory Int) (h : Prepared) (data : Bytes) :
    UploadInv files h data (startUpload h.params data) := by
  by_cases hne : data = []
  · -- no record: the request ends with its parameters
    subst hne
    rcases setIov_stream files h.ok h.begun
      (show (mkChannelNew mkChannelSocket : MkChannel Src).streams = [] from rfl) with
      ⟨htype, stream, hstreams, hstream, hpend⟩
    refine ⟨rfl, rfl, Nat.le_refl 0, rfl, fun hno => absurd rfl hno, htype, stream, [], hstreams,
      hstream, ?_, sent_start []⟩
    rw [List.append_nil]
    exact hpend
  · have hpos : 0 < data.length := List.length_pos_iff.mpr hne
    let x : StdinHandler :=
      { params := h.params, stdinLength := data.length, stdinOffset := 0, stdinBuffer := data }
    have hadd : ∀ y : StdinHandler, y.params = h.params →
        fcgiAddStdin y data = fcgiStdinChunk x := by
      intro y hy
      rw [fcgiAddStdin, if_neg (by omega), hy]
    unfold startUpload
    dsimp only
    rw [hadd _ rfl]
    cases hrun : fcgiStdinChunk x with
    | none =>
      refine ⟨hne, fun hroom => ?_⟩
      rcases fcgiStdinChunk_some (h := x) hpos h.slots hroom with ⟨x', hsome⟩
      rw [hrun] at hsome
      cases hsome
    | some x' =>
      exact sending_chunk (x := x) rfl rfl hpos rfl h.inside h.ok rfl rfl
        (by rw [List.append_nil]; rfl) (sent_start data) hrun

/-- The bytes taken have left the front of the stream. -/
theorem Sending.wrote {u : Upload} (hs : Sending files h data u) {channel : MkChannel Src}
    {wire : Bytes} (hsock : channel.type = mkChannelSocket)
    (hmoved : ∃ stream', channel.streams = [stream'] ∧ StreamOk stream' ∧
      ∀ stream ∈ u.fcgiChannel.streams, wire ++ stream'.pending u.handler.params.mem files =
        stream.pending u.handler.params.mem files) :
    Sending files h data { u with fcgiChannel := channel, wire := u.wire ++ wire } := by
  rcases hs.queued with ⟨stream, bs, hstreams, -, hwire, hsent⟩
  rcases hmoved with ⟨stream', hch, hok, hpend⟩
  have hpend := hpend stream (by rw [hstreams]; exact List.mem_singleton_self stream)
  refine ⟨hs.stdinLength, hs.stdinBuffer, hs.stdinOffset, hs.use, hs.fits, hsock, stream', bs, hch,
    hok, ?_, hsent⟩
  rw [List.append_assoc, hpend, hwire]

/-- The channel is empty: the next piece follows, or the response. -/
theorem Sending.done {u : Upload} (hs : Sending files h data u) (hphase : u.phase = .sending)
    {ans : NetAnswer} {r : WriteResult Src}
    (hr : mkChannelWrite u.handler.params.mem files u.fcgiChannel ans = r) (hdone : r.ret = .done)
    (hempty : r.channel.streams = []) (hsock : r.channel.type = mkChannelSocket)
    (hall : ∀ stream ∈ u.fcgiChannel.streams,
      r.wire = stream.pending u.handler.params.mem files) :
    let u' := cbFastcgiRequestFlush files u ans
    UploadInv files h data u' ∧
      (u'.phase = .reading ∨ u'.phase = .crashed ∨
        u'.phase = .sending ∧ u.handler.stdinOffset < u'.handler.stdinOffset) := by
  rcases hs.queued with ⟨stream, bs, hstreams, -, hwire, hsent⟩
  have hpend := hall stream (by rw [hstreams]; exact List.mem_singleton_self stream)
  have hlen := hs.stdinLength
  have hoff := hs.stdinOffset
  have huse := hs.use
  rw [← hpend] at hwire
  let x : StdinHandler :=
    { u.handler with params := { u.handler.params with iov := mkIovInit .pad 64 0 } }
  -- while a part of the body is left the flush queues the next chunk
  by_cases hleft : u.handler.stdinLength - u.handler.stdinOffset > 0
  · have hpos : 0 < data.length := by omega
    have hne : data ≠ [] := List.length_pos_iff.mp hpos
    have hxoff : x.stdinOffset < x.stdinLength := Nat.lt_of_sub_pos hleft
    -- which has no result where it would write behind the buffer
    cases hrun : fcgiStdinChunk x with
    | none =>
      have hstep : cbFastcgiRequestFlush files u ans =
          { u with fcgiChannel := r.channel, wire := u.wire ++ r.wire, phase := .crashed } := by
        simp only [cbFastcgiRequestFlush, hphase, hr, hdone, if_pos hleft]
        rw [show fcgiStdinChunk _ = none from hrun]
      rw [hstep]
      refine ⟨⟨hne, fun hroom => ?_⟩, Or.inr (Or.inl rfl)⟩
      have hxroom : x.params.bufData.length + headerUse (x.stdinLength - x.stdinOffset) ≤
          bufSize := by
        show u.handler.params.bufData.length +
          headerUse (u.handler.stdinLength - u.handler.stdinOffset) ≤ bufSize
        rw [hlen, huse]
        exact hroom
      rcases fcgiStdinChunk_some hxoff (show (0 : Nat) + 4 ≤ 64 by omega) hxroom with ⟨x', hsome⟩
      rw [hrun] at hsome
      cases hsome
    | some x' =>
      have hstep : cbFastcgiRequestFlush files u ans =
          { handler := x', fcgiChannel := setIov x'.params r.channel, wire := u.wire ++ r.wire,
            phase := .sending } := by
        simp only [cbFastcgiRequestFlush, hphase, hr, hdone, if_pos hleft]
        rw [show fcgiStdinChunk _ = some x' from hrun]
      have hbuf : x.stdinBuffer = data := hs.stdinBuffer
      have hxlen : x.stdinLength = x.stdinBuffer.length := hlen.trans (congrArg List.length hbuf.symm)
      have hadded := fcgiStdinChunk_added hxlen hxoff hrun
      rw [hstep]
      refine ⟨sending_chunk (x := x) hlen hbuf (hlen ▸ hxoff) huse (fun e he => absurd he List.not_mem_nil)
        (mkIovInit_ok _ _ _) hsock hempty ?_ hsent hrun, Or.inr (Or.inr ⟨rfl, ?_⟩)⟩
      · rw [show x.params.bytes = [] from rfl, List.append_nil]
        exact hwire
      · have hchunk : 0 < x.chunk := by
          unfold StdinHandler.chunk
          omega
        show u.handler.stdinOffset < x'.stdinOffset
        rw [hadded.stdinOffset]
        exact Nat.lt_add_of_pos_right hchunk
  · have hend : u.handler.stdinOffset = data.length := by omega
    have hstep : cbFastcgiRequestFlush files u ans =
        { handler := { u.handler with params := { u.handler.params with bufData := [] } },
          fcgiChannel := r.channel, wire := u.wire ++ r.wire, phase := .reading } := by
      simp only [cbFastcgiRequestFlush, hphase, hr, hdone, if_neg hleft]
    rw [hend] at hsent huse
    rw [hstep]
    refine ⟨⟨fun hne => ?_, bs, hwire, hsent⟩, Or.inl rfl⟩
    have hfits := hs.fits hne
    rw [Nat.sub_self, show headerUse 0 = 0 from rfl] at huse
    unfold Prepared.Room
    omega

/-- One call of `cb_fastcgi_request_flush`. -/
theorem uploadInv_step {u : Upload} (hu : UploadInv files h data u) {ans : NetAnswer}
    (hans : TakesAtMost files u ans) : UploadInv files h data (cbFastcgiRequestFlush files u ans) := by
  cases hphase : u.phase with
  | reading | exited | crashed =>
    rw [show cbFastcgiRequestFlush files u ans = u by simp only [cbFastcgiRequestFlush, hphase]]
    exact hu
  | sending =>
    have hs : Sending files h data u := by
      simpa only [UploadInv, hphase] using hu
    rcases hs.queued with ⟨stream, bs, hstreams, hstream, -, -⟩
    have hle : ∀ k, ans = .sent k →
        k ≤ (stream.pending u.handler.params.mem files).length := by
      rintro k rfl
      exact hans stream (by rw [hstreams]; rfl)
    have hone := mkChannelWrite_one u.handler.params.mem files hstream hs.socket hstreams hle
    generalize hr : mkChannelWrite u.handler.params.mem files u.fcgiChannel ans = r at hone
    rcases hone with herr | ⟨hret, hsock, stream', hch, hok, hmoved⟩ | ⟨hdone, hempty, hsock, hall⟩
    · -- the handler leaves by `fcgi_exit`
      simp only [cbFastcgiRequestFlush, hphase, hr, herr, UploadInv]
    · have hstep : cbFastcgiRequestFlush files u ans =
          { u with fcgiChannel := r.channel, wire := u.wire ++ r.wire } := by
        rcases hret with hret | hret <;> simp only [cbFastcgiRequestFlush, hphase, hr, hret]
      have hwrote : Sending files h data
          { u with fcgiChannel := r.channel, wire := u.wire ++ r.wire } := by
        refine hs.wrote hsock ⟨stream', hch, hok, ?_⟩
        rw [hstreams]
        rintro s hs'
        rw [List.mem_singleton.mp hs']
        exact hmoved
      rw [hstep]
      simpa only [UploadInv, hphase] using hwrote
    · refine (hs.done hphase hr hdone hempty hsock ?_).1
      rw [hstreams]
      rintro s hs'
      rw [List.mem_singleton.mp hs']
      exact hall

/-- If the network takes all it is given, an upload comes to its end, or behind
its arrays. -/
theorem Sending.settles {u : Upload} (hs : Sending files h data u) (hphase : u.phase = .sending) :
    ∃ answers, (uploadMachine files).AllSteps (TakesAtMost files) u answers ∧
      (((uploadMachine files).run u answers).phase = .reading ∨
        ((uploadMachine files).run u answers).phase = .crashed) := by
  induction hn : data.length - u.handler.stdinOffset using Nat.strongRecOn generalizing u with
  | ind n ih =>
    rcases hs.queued with ⟨stream, bs, hstreams, hstream, -, -⟩
    have htakes : TakesAtMost files u (.sent stream.bytesTotal) := by
      intro s hs'
      rw [hstreams] at hs'
      cases hs'
      exact (hstream.pending_length _ files).ge
    rcases mkChannelWrite_all u.handler.params.mem files hstream hs.socket hstreams with
      ⟨hdone, hempty, hsock, hall⟩
    rcases hs.done hphase rfl hdone hempty hsock (by
      rw [hstreams]
      rintro s hs'
      rw [List.mem_singleton.mp hs']
      exact hall) with ⟨hinv, hread | hcrash | ⟨hsend, hlt⟩⟩
    · exact ⟨[.sent stream.bytesTotal], ⟨htakes, trivial⟩, Or.inl hread⟩
    · exact ⟨[.sent stream.bytesTotal], ⟨htakes, trivial⟩, Or.inr hcrash⟩
    · have hs' : Sending files h data (cbFastcgiRequestFlush files u (.sent stream.bytesTotal)) := by
        simpa only [UploadInv, hsend] using hinv
      have hle := hs'.stdinOffset
      rcases ih _ (by omega) hs' hsend rfl with ⟨answers, hall', hend⟩
      exact ⟨.sent stream.bytesTotal :: answers, ⟨htakes, hall'⟩, hend⟩

theorem uploadInv_run {answers : List NetAnswer}
    (hall : (uploadMachine files).AllSteps (TakesAtMost files) (startUpload h.params data) answers) :
    UploadInv files h data ((uploadMachine files).run (startUpload h.params data) answers) := by
  have hstep : ∀ u ans, UploadInv files h data u → TakesAtMost files u ans →
      UploadInv files h data ((uploadMachine files).step u ans) := fun _ _ hu hans =>
    uploadInv_step hu hans
  exact ((uploadMachine files).allStates_of_allSteps hstep (upload_start files h data) hall).last

end Upload

/-! ## The body of a request -/

/-- The data is the body exactly where it does not go beyond what the request
has declared. -/
theorem requestBody_eq_iff (r : Incoming) :
    r.slice r.req.data = requestBody r ↔
      (r.slice r.req.data).length ≤ r.p.headerContentLength.toNat := by
  rw [requestBody, eq_comm, List.take_eq_self_iff]

/-- Whatever the network does up to there, an upload can come to the response or
behind its arrays. -/
theorem upload_settles (files : Memory Int) (h : Prepared) (data : Bytes) :
    ∃ answers, (uploadMachine files).AllSteps (TakesAtMost files) (startUpload h.params data) answers ∧
      (((uploadMachine files).run (startUpload h.params data) answers).phase = .reading ∨
        ((uploadMachine files).run (startUpload h.params data) answers).phase = .crashed) := by
  have hstart := upload_start files h data
  cases hphase : (startUpload h.params data).phase with
  | sending =>
    simp only [UploadInv, hphase] at hstart
    exact hstart.settles hphase
  | reading => exact ⟨[], trivial, Or.inl hphase⟩
  | crashed => exact ⟨[], trivial, Or.inr hphase⟩
  | exited =>
    unfold startUpload at hphase
    dsimp only at hphase
    split at hphase <;> cases hphase

/-- No run writes behind the arrays exactly where the headers have room. -/
theorem upload_inside_iff (files : Memory Int) (h : Prepared) (data : Bytes) :
    (∀ answers, (uploadMachine files).AllSteps (TakesAtMost files) (startUpload h.params data) answers →
      ((uploadMachine files).run (startUpload h.params data) answers).phase ≠ .crashed) ↔
      (data ≠ [] → h.Room data) := by
  constructor
  · intro hruns hne
    rcases upload_settles files h data with ⟨answers, hall, hread | hcrash⟩
    · have hinv := uploadInv_run hall
      simp only [UploadInv, hread] at hinv
      exact hinv.1 hne
    · exact absurd hcrash (hruns answers hall)
  · intro hroom answers hall hcrash
    have hinv := uploadInv_run hall
    simp only [UploadInv, hcrash] at hinv
    exact hinv.2 (hroom hinv.1)

/-- What it takes for the backend to get the body. -/
theorem StdinSent.needs {files : Memory Int} {h : Prepared} {r : Incoming}
    (hs : StdinSent files h r) : r.slice r.req.data ≠ [] ∧ r.slice r.req.data = requestBody r ∧
      h.Room (r.slice r.req.data) := by
  rcases hs with ⟨hruns, answers, hall, hread⟩
  have hinv : UploadInv files h (r.slice r.req.data)
    ((uploadMachine files).run (h.upload r) answers) := uploadInv_run hall
  simp only [UploadInv, hread] at hinv
  rcases hinv with ⟨hroom, bs, hwire, hsent⟩
  have hcut := (hruns answers hall).2 hread
  rw [hwire, List.drop_left, hsent.stdinRecords_iff] at hcut
  exact ⟨hcut.1, hcut.2, hroom hcut.1⟩

/-- The backend gets the body, and one empty record behind it, exactly where
there is a body, the data of the request ends with it, and the headers of its
records fit the buffer. -/
theorem stdin_sent_iff (files : Memory Int) (h : Prepared) (r : Incoming) :
    StdinSent files h r ↔ r.slice r.req.data ≠ [] ∧
      (r.slice r.req.data).length ≤ r.p.headerContentLength.toNat ∧
      h.Room (r.slice r.req.data) := by
  rw [← requestBody_eq_iff]
  refine ⟨StdinSent.needs, ?_⟩
  rintro ⟨hne, hbody, hroom⟩
  have hinside := (upload_inside_iff files h _).mpr fun _ => hroom
  constructor
  · intro answers hall
    refine ⟨hinside answers hall, fun hread => ?_⟩
    have hinv : UploadInv files h (r.slice r.req.data)
      ((uploadMachine files).run (h.upload r) answers) := uploadInv_run hall
    simp only [UploadInv, hread] at hinv
    rcases hinv with ⟨-, bs, hwire, hsent⟩
    rw [hwire, List.drop_left, hsent.stdinRecords_iff]
    exact ⟨hne, hbody⟩
  · rcases upload_settles files h (r.slice r.req.data) with ⟨answers, hall, hread | hcrash⟩
    · exact ⟨answers, hall, hread⟩
    · exact absurd hcrash (hinside answers hall)

/-- A site, and a request without a body. -/
def exampleSite : EncodeEnv where
  serverSignature := bytes "Monkey/1.7.0"
  hostAlias := bytes "a"
  documentRoot := bytes "/var/www"
  sockName := some (bytes "127.0.0.1", bytes "2001")
  peerName := some (bytes "127.0.0.1", bytes "40000")
  realPath := bytes "/var/www/i.php"
  uriProcessed := bytes "/i.php"
  ssl := false
  contentLengthP := .null

def exampleGet : Incoming :=
  parsedRequest Http.parsedRequestZero (bytes "GET /i.php HTTP/1.1\r\nHost: a\r\n\r\n") 32 [] 0

/-- It is encoded, and it gets no record for its standard input at all. -/
theorem stdin_sent_get :
    (Http.feed (Http.parserFresh Http.parsedRequestZero
      (bytes "GET /i.php HTTP/1.1\r\nHost: a\r\n\r\n")) 32 []).1.1 = .ok ∧
    ∃ h : Prepared, fcgiEncodeRequest 1 exampleSite exampleGet = some (.encoded h.params) ∧
      exampleGet.slice exampleGet.req.data = [] ∧ ¬ StdinSent (fun _ _ => 0) h exampleGet := by
  have hlist : exampleGet.p.headerList = [.known Http.HeaderName.host] := by decide
  have hdata : exampleGet.slice exampleGet.req.data = [] := by decide
  have hends : ¬ Links.EndsTwice exampleGet.p.headerList := by
    rw [hlist]
    rintro ⟨us, x, h⟩
    have := congrArg List.length h
    simp at this
  have hadm : Admitted exampleGet.p := parsedRequest_admitted _ _ _ _ _
  have hfits : bufAfter headerSize (allAdds 1 exampleSite exampleGet) + headerSize ≤ bufSize := by
    decide
  rcases (encode_ends hadm rfl hends (show exampleGet.p.headerCount ≤ 1 by decide)).1 hfits
    with ⟨g, hrun⟩
  rcases (encoded_prepared hadm hrun).1 with ⟨h, rfl⟩
  refine ⟨by decide, h, hrun, hdata, fun hs => hs.needs.1 hdata⟩

end SuperExe.FastCgi
