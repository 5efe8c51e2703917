import SuperExe.Http.Prepare

/-! # The fields of the request record

`Field` names the fields of `struct mk_http_request` and of its response headers,
`Act.fields` those an act assigns. `runActs_other` and `runActs_agree` are the
frame rules of lists of acts: what is not assigned stays, what is assigned does
not depend on the record before. `mkHttpRequestPrepare_filter` and
`mkHttpRequestPrepare_congr` say what the acts of a request depend on.
-/

namespace SuperExe.Http

open SuperExe.Core SuperExe.Vhost

/-! ## Fields -/

/-- The fields of `struct mk_http_request` and of its `struct response_headers`.
A slice whose parts are assigned apart is two fields. `pconnections_left` is
missing: it is written and never read. -/
inductive Field where
  | method
  | methodP
  | uri
  | queryString
  | protocol
  | protocolP
  | data
  | status
  | userHome
  | port
  | uriProcessed
  | contentLengthData
  | contentLengthLen
  | contentType
  | connectionData
  | connectionLen
  | hostData
  | hostLen
  | ifModifiedSince
  | range
  | realPath
  | stage30Blocked
  | stage30Handler
  | filePresent
  | fileKind
  | fileSize
  | fileModified
  | fileStream
  | hostConf
  | hostAlias
  | shStatus
  | shConnection
  | shCustomStatus
  | shContentLength
  | shRealLength
  | shCgi
  | shBreakline
  | shTransferEncoding
  | shRanges
  | shLastModified
  | shAllowMethods
  | shContentType
  | shContentEncoding
  | shLocation
  | shEtag
  | shExtraRows
  | shSent
deriving DecidableEq, Repr

/-- What a field holds. -/
abbrev Field.Value : Field → Type
  | .method => Method
  | .methodP | .uri | .queryString | .protocolP | .data | .ifModifiedSince | .range => MkPtr
  | .protocol => Protocol
  | .status | .userHome | .stage30Blocked | .filePresent | .shSent => Bool
  | .port | .contentLengthLen | .connectionLen | .hostLen | .fileSize | .fileModified => Int
  | .uriProcessed | .realPath | .hostAlias | .shLocation => Option Bytes
  | .contentLengthData | .connectionData | .hostData | .stage30Handler => Option Nat
  | .fileKind => Bool × Bool × Bool × Bool × Bool
  | .fileStream => FileStream
  | .hostConf => Option Host
  | .contentType | .shCustomStatus | .shAllowMethods | .shContentType | .shContentEncoding
  | .shEtag => Bytes
  | .shStatus | .shConnection | .shContentLength | .shRealLength | .shCgi | .shBreakline
  | .shTransferEncoding | .shLastModified => Int
  | .shRanges => Int × Int
  | .shExtraRows => Option (MkIov HeaderBuf)

def HttpRequest.get (sr : HttpRequest) : (f : Field) → f.Value
  | .method => sr.method
  | .methodP => sr.methodP
  | .uri => sr.uri
  | .queryString => sr.queryString
  | .protocol => sr.protocol
  | .protocolP => sr.protocolP
  | .data => sr.data
  | .status => sr.status
  | .userHome => sr.userHome
  | .port => sr.port
  | .uriProcessed => sr.uriProcessed
  | .contentLengthData => sr.contentLengthP.data
  | .contentLengthLen => sr.contentLengthP.len
  | .contentType => sr.contentType
  | .connectionData => sr.connection.data
  | .connectionLen => sr.connection.len
  | .hostData => sr.host.data
  | .hostLen => sr.host.len
  | .ifModifiedSince => sr.ifModifiedSince
  | .range => sr.range
  | .realPath => sr.realPath
  | .stage30Blocked => sr.stage30Blocked
  | .stage30Handler => sr.stage30Handler
  | .filePresent => sr.fileInfo.present
  | .fileKind => (sr.fileInfo.isFile, sr.fileInfo.isLink, sr.fileInfo.isDirectory,
      sr.fileInfo.execAccess, sr.fileInfo.readAccess)
  | .fileSize => sr.fileInfo.size
  | .fileModified => sr.fileInfo.lastModification
  | .fileStream => sr.fileStream
  | .hostConf => sr.hostConf
  | .hostAlias => sr.hostAlias
  | .shStatus => sr.headers.status
  | .shConnection => sr.headers.connection
  | .shCustomStatus => sr.headers.customStatus
  | .shContentLength => sr.headers.contentLength
  | .shRealLength => sr.headers.realLength
  | .shCgi => sr.headers.cgi
  | .shBreakline => sr.headers.breakline
  | .shTransferEncoding => sr.headers.transferEncoding
  | .shRanges => sr.headers.ranges
  | .shLastModified => sr.headers.lastModified
  | .shAllowMethods => sr.headers.allowMethods
  | .shContentType => sr.headers.contentType
  | .shContentEncoding => sr.headers.contentEncoding
  | .shLocation => sr.headers.location
  | .shEtag => sr.headers.etag
  | .shExtraRows => sr.headers.extraRows
  | .shSent => sr.headers.sent

/-! ## What is assigned -/

/-- The fields `mk_http_request_init` and `mk_header_response_reset` assign. -/
def initFields : List Field :=
  [.port, .status, .method, .protocol, .connectionLen, .fileSize, .fileStream, .hostData,
    .stage30Blocked, .hostConf, .uriProcessed, .realPath,
    .shStatus, .shSent, .shRanges, .shContentLength, .shConnection, .shTransferEncoding,
    .shLastModified, .shCgi, .shContentType, .shContentEncoding, .shLocation, .shExtraRows,
    .shAllowMethods]

/-- The fields an act assigns. -/
def Act.fields : Act → List Field
  | .uriProcessed _ => [.uriProcessed]
  | .hostConf _ => [.hostConf]
  | .hostAlias _ => [.hostAlias]
  | .userHome _ => [.userHome]
  | .host _ => [.hostData, .hostLen]
  | .connection _ => [.connectionData, .connectionLen]
  | .range _ => [.range]
  | .ifModifiedSince _ => [.ifModifiedSince]
  | .contentLengthP _ => [.contentLengthData, .contentLengthLen]
  | .contentLengthPNull => [.contentLengthData]
  | .port _ => [.port]
  | .realPath _ => [.realPath]
  | .contentTypeP _ => [.contentType]
  | .fileInfo (.missing _) => [.filePresent]
  | .fileInfo .dangling => [.filePresent, .fileKind]
  | .fileInfo (.found _) => [.filePresent, .fileKind, .fileSize, .fileModified]
  | .fileStream _ => [.fileStream]
  | .stage30Handler _ => [.stage30Handler]
  | .status _ => [.shStatus]
  | .contentLength _ => [.shContentLength]
  | .realLength _ => [.shRealLength]
  | .location _ => [.shLocation]
  | .cgi _ => [.shCgi]
  | .breakline _ => [.shBreakline]
  | .lastModified _ => [.shLastModified]
  | .contentType _ => [.shContentType]
  | .transferEncoding _ => [.shTransferEncoding]
  | .ranges _ _ => [.shRanges]
  | .etag _ => [.shEtag]
  | .allowMethodsReset => [.shAllowMethods]
  | .headerAdd _ => [.shExtraRows]
  | .headerPrepare => [.shSent]
  | .closeNow _ | .pconnectionsLeft _ | .iovAddPage _ | .queueFile | .channelWrite | .crash => []

/-- The fields a list of acts assigns. -/
def actsFields (acts : List Act) : List Field := acts.flatMap Act.fields

section Acts

variable {k : World} {s t : Serving} {a : Act} {f : Field}

/-- An act leaves the other fields alone. -/
theorem runAct_other (h : f ∉ a.fields) : (runAct k s a).sr.get f = s.sr.get f := by
  cases a with
  | fileInfo stat => cases stat <;> cases f <;> first | exact rfl | simp [Act.fields] at h
  | _ => cases f <;> first | exact rfl | exact absurd (List.mem_cons_self ..) h | simp [Act.fields] at h

/-- What an act assigns does not depend on the record, but for the list of extra
rows, to which it adds. -/
theorem runAct_assigned (hrows : s.sr.get .shExtraRows = t.sr.get .shExtraRows) :
    ∀ f ∈ a.fields, (runAct k s a).sr.get f = (runAct k t a).sr.get f := by
  have hextra : s.sr.headers.extraRows = t.sr.headers.extraRows := hrows
  cases a with
  | fileInfo stat =>
    cases stat with
    | missing denied => exact List.forall_mem_cons.mpr ⟨rfl, nofun⟩
    | dangling => exact List.forall_mem_cons.mpr ⟨rfl, List.forall_mem_cons.mpr ⟨rfl, nofun⟩⟩
    | found info =>
      simp only [Act.fields, List.forall_mem_cons]
      exact ⟨rfl, rfl, rfl, rfl, nofun⟩
  | headerAdd row =>
    refine List.forall_mem_cons.mpr ⟨?_, nofun⟩
    simp only [runAct, Serving.setHeaders, HttpRequest.get, mkPluginHeaderAdd, hextra]
  | host p => exact List.forall_mem_cons.mpr ⟨rfl, List.forall_mem_cons.mpr ⟨rfl, nofun⟩⟩
  | connection p => exact List.forall_mem_cons.mpr ⟨rfl, List.forall_mem_cons.mpr ⟨rfl, nofun⟩⟩
  | contentLengthP p =>
    exact List.forall_mem_cons.mpr ⟨rfl, List.forall_mem_cons.mpr ⟨rfl, nofun⟩⟩
  | _ => first
    | exact List.forall_mem_cons.mpr ⟨rfl, nofun⟩
    | exact nofun

theorem runAct_agree (hrows : s.sr.get .shExtraRows = t.sr.get .shExtraRows)
    (h : f ∈ a.fields ∨ s.sr.get f = t.sr.get f) :
    (runAct k s a).sr.get f = (runAct k t a).sr.get f := by
  by_cases hf : f ∈ a.fields
  · exact runAct_assigned hrows f hf
  · rw [runAct_other hf, runAct_other hf]
    exact h.resolve_left hf

/-- A list of acts leaves the other fields alone. -/
theorem runActs_other {acts : List Act} (h : f ∉ actsFields acts) :
    (runActs k s acts).sr.get f = s.sr.get f := by
  induction acts generalizing s with
  | nil => rfl
  | cons a acts ih =>
    simp only [actsFields, List.flatMap_cons, List.mem_append, not_or] at h
    exact (ih h.2).trans (runAct_other h.1)

/-- What a list of acts assigns does not depend on the record. -/
theorem runActs_agree {acts : List Act}
    (hrows : s.sr.get .shExtraRows = t.sr.get .shExtraRows)
    (h : f ∈ actsFields acts ∨ s.sr.get f = t.sr.get f) :
    (runActs k s acts).sr.get f = (runActs k t acts).sr.get f := by
  induction acts generalizing s t with
  | nil => exact h.resolve_left (by simp [actsFields])
  | cons a acts ih =>
    refine ih (runAct_agree hrows (.inr hrows)) ?_
    simp only [actsFields, List.flatMap_cons, List.mem_append] at h
    rcases h with (h | h) | h
    · exact .inr (runAct_agree hrows (.inl h))
    · exact .inl h
    · exact .inr (runAct_agree hrows (.inr h))

/-! ## The counter -/

/-- An act on the record. The others set `cs->close_now` or
`pconnections_left`, which depend on the number of earlier requests. -/
def Act.onRecord : Act → Bool
  | .closeNow _ | .pconnectionsLeft _ => false
  | _ => true

theorem runAct_offRecord (h : a.onRecord = false) : (runAct k s a).sr.get f = s.sr.get f := by
  refine runAct_other ?_
  cases a <;> simp_all [Act.onRecord, Act.fields]

/-- Only the acts on the record matter to it. -/
theorem runActs_filter {acts : List Act} (hall : ∀ f, s.sr.get f = t.sr.get f) :
    (runActs k s acts).sr.get f = (runActs k t (acts.filter Act.onRecord)).sr.get f := by
  induction acts generalizing s t with
  | nil => exact hall f
  | cons a acts ih =>
    cases hrec : a.onRecord with
    | true =>
      rw [List.filter_cons_of_pos hrec]
      exact ih fun g => runAct_agree (hall _) (.inr (hall g))
    | false =>
      rw [List.filter_cons_of_neg (by simp [hrec])]
      exact ih fun g => (runAct_offRecord hrec).trans (hall g)

end Acts

/-- Two requests the code cannot tell apart: the record slices that nothing reads
may differ. -/
structure SameRequest (r r' : Incoming) : Prop where
  method : r.req.method = r'.req.method
  uri : r.req.uri = r'.req.uri
  protocol : r.req.protocol = r'.req.protocol
  p : r.p = r'.p
  buffer : r.buffer = r'.buffer

section Congr

variable {r r' : Incoming} (h : SameRequest r r')
include h

theorem SameRequest.slice (p : MkPtr) : r.slice p = r'.slice p := by
  simp only [Incoming.slice, h.buffer]

theorem SameRequest.uriText : r.uriText = r'.uriText := by
  simp only [Incoming.uriText, h.uri, h.slice]

theorem mkHttpDirectoryRedirect_filter (k : World) (f : Found) :
    (mkHttpDirectoryRedirect k r f).filter Act.onRecord =
      (mkHttpDirectoryRedirect k r' f).filter Act.onRecord := by
  simp only [mkHttpDirectoryRedirect, h.p, h.slice]
  split
  · rfl
  · simp [List.filter_cons, Act.onRecord]

theorem rangeActs_congr (k : World) (f : Found) (info : FileInfo) (fd : Int) :
    rangeActs k r f info fd = rangeActs k r' f info fd := by
  simp only [rangeActs, h.p, h.slice, h.buffer, h.method, h.uriText]

theorem sendFileActs_congr (k : World) (f : Found) (path : Bytes) (info : FileInfo) :
    sendFileActs k r f path info = sendFileActs k r' f path info := by
  simp only [sendFileActs, h.method, h.uriText, rangeActs_congr h]

theorem serveFileActs_filter (k : World) (f : Found) (path : Bytes) (info : FileInfo) :
    (serveFileActs k r f path info).filter Act.onRecord =
      (serveFileActs k r' f path info).filter Act.onRecord := by
  simp only [serveFileActs, h.p, h.slice, h.method, h.uriText, sendFileActs_congr h]
  split
  · rfl
  · split
    · rfl
    · split
      · rfl
      · simp only [List.cons_append, List.filter_cons, Act.onRecord]
        rfl

theorem stage30Acts_congr (k : World) (f : Found) (hs : List Handler) :
    stage30Acts k r f hs = stage30Acts k r' f hs := by
  induction hs with
  | nil => rfl
  | cons hd hs ih => simp only [stage30Acts, h.protocol, h.method, h.uriText, ih]

omit h in
theorem filter_cons_congr {a : Act} {l l' : List Act}
    (hl : l.filter Act.onRecord = l'.filter Act.onRecord) :
    (a :: l).filter Act.onRecord = (a :: l').filter Act.onRecord := by
  rw [List.filter_cons, List.filter_cons, hl]

omit h in
theorem filter_append_congr {l l' m m' : List Act}
    (hl : l.filter Act.onRecord = l'.filter Act.onRecord)
    (hm : m.filter Act.onRecord = m'.filter Act.onRecord) :
    (l ++ m).filter Act.onRecord = (l' ++ m').filter Act.onRecord := by
  rw [List.filter_append, List.filter_append, hl, hm]

theorem mkHttpInit_filter (k : World) (f : Found) :
    (mkHttpInit k r f).filter Act.onRecord = (mkHttpInit k r' f).filter Act.onRecord := by
  simp only [mkHttpInit, h.p, h.method, h.uriText, stage30Acts_congr h]
  refine filter_cons_congr ?_
  split
  · rfl
  · split
    · rfl
    · refine filter_cons_congr (filter_append_congr rfl ?_)
      split
      · rfl
      · split
        · split
          · split
            · exact mkHttpDirectoryRedirect_filter h k f
            · split
              · refine filter_append_congr rfl ?_
                split
                · exact serveFileActs_filter h k f _ _
                · rfl
              · exact serveFileActs_filter h k f _ _
          · exact serveFileActs_filter h k f _ _
        · rfl

theorem prepareHost_filter (k : World) (f : Found) :
    (prepareHost k r f).filter Act.onRecord = (prepareHost k r' f).filter Act.onRecord := by
  have hstage20 : ∀ f : Found,
      (if k.stage20Close then [] else mkHttpInit k r f).filter Act.onRecord =
        (if k.stage20Close then [] else mkHttpInit k r' f).filter Act.onRecord := by
    intro f
    split
    · rfl
    · exact mkHttpInit_filter h k f
  simp only [prepareHost, h.method, h.uri, h.buffer, h.uriText]
  split
  · split
    · split
      · rfl
      · rfl
      · exact filter_append_congr rfl (hstage20 _)
    · exact hstage20 f
  · exact hstage20 f

omit h in
theorem mkHttpKeepaliveCheck_filter (k : World) (r : Incoming) (connection : MkPtr) :
    (mkHttpKeepaliveCheck k r connection).filter Act.onRecord = [] := by
  unfold mkHttpKeepaliveCheck
  rw [List.filter_eq_nil_iff]
  intro a ha
  split at ha
  · simp at ha
  · simp only [List.mem_append] at ha
    rcases ha with (ha | ha) | ha
    · split at ha <;> simp at ha <;> simp [ha, Act.onRecord]
    · repeat' split at ha
      all_goals simp at ha
      all_goals simp [ha, Act.onRecord]
    · split at ha <;> simp at ha
      simp [ha, Act.onRecord]

/-- What a request does to the record does not depend on the number of earlier
requests. -/
theorem mkHttpRequestPrepare_filter (k : World) :
    (mkHttpRequestPrepare k r).filter Act.onRecord =
      (mkHttpRequestPrepare k r').filter Act.onRecord := by
  simp only [mkHttpRequestPrepare, h.p, h.slice, h.method, h.protocol, h.uriText]
  refine filter_append_congr rfl ?_
  split
  · rfl
  · refine filter_append_congr rfl ?_
    split
    · rfl
    · refine filter_append_congr (filter_append_congr ?_ rfl) ?_
      · rw [mkHttpKeepaliveCheck_filter, mkHttpKeepaliveCheck_filter]
      · split
        · exact prepareHost_filter h k _
        · refine filter_append_congr (filter_append_congr rfl rfl) ?_
          split
          · rfl
          · exact prepareHost_filter h k _

/-- What a request does, given the number of earlier requests. -/
theorem mkHttpRequestPrepare_congr (k : World) (hc : r.counter = r'.counter) :
    mkHttpRequestPrepare k r = mkHttpRequestPrepare k r' := by
  have hredirect : ∀ f, mkHttpDirectoryRedirect k r f = mkHttpDirectoryRedirect k r' f := by
    intro f
    simp only [mkHttpDirectoryRedirect, h.p, h.slice, hc]
  have hserve : ∀ f path info, serveFileActs k r f path info = serveFileActs k r' f path info := by
    intro f path info
    simp only [serveFileActs, h.p, h.slice, h.method, h.uriText, hc, sendFileActs_congr h]
  have hinit : ∀ f, mkHttpInit k r f = mkHttpInit k r' f := by
    intro f
    simp only [mkHttpInit, h.p, h.method, h.uriText, stage30Acts_congr h, hredirect, hserve]
  have hhost : ∀ f, prepareHost k r f = prepareHost k r' f := by
    intro f
    simp only [prepareHost, h.method, h.uri, h.buffer, h.uriText, hinit]
  simp only [mkHttpRequestPrepare, mkHttpKeepaliveCheck, h.p, h.slice, h.method, h.protocol,
    h.uriText, hc, hhost]

end Congr

end SuperExe.Http
