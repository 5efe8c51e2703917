import SuperExe.Http.Isolation

/-! # Response headers from one request to the next

`mk_header_response_reset` leaves `etag`, `breakline`, `real_length` and
`custom_status` alone, and `cs->close_now` is not reset at all. `Clean` is the
condition under which none of this shows in a header block; `header_isolation`
carries it along a connection: every block is then the one that a fresh
connection would send.
-/

namespace SuperExe.Http

open SuperExe.Core SuperExe.Lib

/-! ## What a block is made of -/

/-- The header blocks among what a request has sent off. -/
def headerBlocks (out : List Out) : List (Option Bytes) :=
  out.filterMap fun o => match o with
    | .block b => some b
    | _ => none

/-- Two records from which `mk_header_prepare` makes the same block: only the
break line of a page that is no script and the length of a file without a range
may differ. -/
structure SameHeaders (sh sh' : ResponseHeaders) : Prop where
  status : sh.status = sh'.status
  connection : sh.connection = sh'.connection
  customStatus : sh.customStatus = sh'.customStatus
  contentLength : sh.contentLength = sh'.contentLength
  realLength : sh.realLength = sh'.realLength ∨ (sh.ranges.1 < 0 ∧ sh.ranges.2 < 0)
  cgi : sh.cgi = sh'.cgi
  breaks : sh.breaks ↔ sh'.breaks
  transferEncoding : sh.transferEncoding = sh'.transferEncoding
  ranges : sh.ranges = sh'.ranges
  lastModified : sh.lastModified = sh'.lastModified
  allowMethods : sh.allowMethods = sh'.allowMethods
  contentType : sh.contentType = sh'.contentType
  contentEncoding : sh.contentEncoding = sh'.contentEncoding
  location : sh.location = sh'.location
  etag : sh.etag = sh'.etag
  extraRows : sh.extraRows = sh'.extraRows

section SameHeaders

variable {sh sh' : ResponseHeaders} (h : SameHeaders sh sh')
include h

theorem SameHeaders.contentRange (env : PrepareEnv) :
    contentRangeEntries env sh = contentRangeEntries env sh' := by
  unfold contentRangeEntries
  simp only [← h.ranges, ← h.contentLength]
  rcases h.realLength with hlen | ⟨h1, h2⟩
  · rw [hlen]
  · have hno : ¬ (sh.ranges.1 ≥ 0 ∨ sh.ranges.2 ≥ 0) := by omega
    simp only [hno, and_false, false_and, if_false]

theorem SameHeaders.blank :
    (if sh.breaks ∧ sh.extraRows = none then [textEntry crlf] else []) =
      if sh'.breaks ∧ sh'.extraRows = none then [textEntry crlf] else [] := by
  rw [← h.extraRows]
  exact ite_congr (by rw [h.breaks]) (fun _ => rfl) fun _ => rfl

theorem SameHeaders.entries (env : PrepareEnv) (w : Shared) :
    headerEntries env sh w = headerEntries env sh' w := by
  simp only [headerEntries, lastModifiedEntries, connectionEntries, locationEntries, allowEntries,
    contentTypeEntries, transferEncodingEntries, etagEntries, contentEncodingEntries,
    contentLengthEntries, ResponseHeaders.hasLastModified, ResponseHeaders.hasContentLength,
    h.lastModified, h.connection, h.location, h.allowMethods, h.contentType, h.transferEncoding,
    h.etag, h.contentEncoding, h.contentLength, h.contentRange]
  rw [h.blank]
  rfl

theorem SameHeaders.rows : prepareExtraRows sh = prepareExtraRows sh' := by
  unfold prepareExtraRows
  rw [← h.extraRows]
  by_cases hb : sh.breaks
  · simp only [hb, h.breaks.mp hb, if_true]
  · simp only [hb, (not_congr h.breaks).mp hb, if_false]

theorem SameHeaders.block (env : PrepareEnv) (w : Shared) :
    headerBlock env w sh = headerBlock env w sh' := by
  have hshared : prepareShared env sh w = prepareShared env sh' w := by
    simp only [prepareShared, ResponseHeaders.hasLastModified, ResponseHeaders.hasContentLength,
      h.lastModified, h.contentLength, h.transferEncoding]
    rfl
  have hstatus : statusEntry sh = statusEntry sh' := by
    simp only [statusEntry, h.status, h.customStatus]
  simp only [headerBlock, h.rows, hshared, hstatus, h.entries]

end SameHeaders

/-! ## A range comes with the length of its file -/

/-- Wherever a list of acts is stopped, a range has been set only if the length
of the file has. -/
def RangesLate (acts : List Act) : Prop :=
  ∀ pre post, acts = pre ++ post → .shRanges ∈ actsFields pre → .shRealLength ∈ actsFields pre

theorem RangesLate.of_not_mem {acts : List Act} (h : .shRanges ∉ actsFields acts) :
    RangesLate acts := by
  rintro pre post rfl hr
  simp only [actsFields, List.flatMap_append, List.mem_append, not_or] at h hr
  exact absurd hr h.1

theorem RangesLate.append {l m : List Act} (hl : .shRanges ∉ actsFields l) (hm : RangesLate m) :
    RangesLate (l ++ m) := by
  intro pre post heq hr
  rcases List.append_eq_append_iff.mp heq with ⟨m', rfl, rfl⟩ | ⟨l', rfl, rfl⟩
  · simp only [actsFields, List.flatMap_append, List.mem_append] at hl hr ⊢
    exact .inr (hm m' post rfl (hr.resolve_left hl))
  · simp only [actsFields, List.flatMap_append, List.mem_append, not_or] at hl hr
    exact absurd hr hl.1

theorem RangesLate.cons {a : Act} {m : List Act} (ha : .shRanges ∉ a.fields) (hm : RangesLate m) :
    RangesLate (a :: m) :=
  RangesLate.append (l := [a]) (by simpa [actsFields] using ha) hm

/-- Behind the assignment of the length everything is allowed. -/
theorem RangesLate.realLength (n : Int) (m : List Act) : RangesLate (.realLength n :: m) := by
  rintro pre post heq hr
  cases pre with
  | nil => simp [actsFields] at hr
  | cons a pre =>
    obtain ⟨rfl, -⟩ := List.cons_eq_cons.mp heq
    simp [actsFields, Act.fields]

section Ranges

variable (k : World) (r : Incoming) (f : Found)

theorem mkHttpError_ranges (host : Host) (method : Method) (uri : Bytes) (status : Int) :
    .shRanges ∉ actsFields (mkHttpError k host method uri status) := by
  unfold mkHttpError
  simp only
  repeat' split
  all_goals simp [actsFields, Act.fields]

theorem pluginActs_ranges (protocol : Protocol) (ans : PluginAnswer) :
    .shRanges ∉ actsFields (ans.acts protocol).1 := by
  cases ans <;> simp only [PluginAnswer.acts]
  all_goals repeat' split
  all_goals simp [actsFields, Act.fields]

theorem stage30Acts_ranges (hs : List Handler) : .shRanges ∉ actsFields (stage30Acts k r f hs).1 := by
  induction hs with
  | nil => simp [stage30Acts, actsFields]
  | cons h hs ih =>
    have hacts := pluginActs_ranges r.req.protocol (k.stage30 h.plugin)
    have herr := mkHttpError_ranges k f.host r.req.method r.uriText
    simp only [actsFields] at ih hacts herr
    unfold stage30Acts
    simp only
    repeat' split
    all_goals simp [actsFields, Act.fields, hacts, herr, ih]

theorem mkHttpDirectoryRedirect_ranges : .shRanges ∉ actsFields (mkHttpDirectoryRedirect k r f) := by
  unfold mkHttpDirectoryRedirect
  simp only
  split <;> simp [actsFields, Act.fields]

theorem serveFileActs_ranges (path : Bytes) (info : FileInfo) :
    RangesLate (serveFileActs k r f path info) := by
  have herr := fun status =>
    RangesLate.of_not_mem (mkHttpError_ranges k f.host r.req.method r.uriText status)
  unfold serveFileActs
  simp only
  split
  · exact herr _
  · split
    · exact herr _
    · split
      · exact herr _
      · refine RangesLate.append (by simp [actsFields, Act.fields]) ?_
        split
        · exact RangesLate.of_not_mem (by simp [actsFields, Act.fields])
        · refine RangesLate.cons (by simp [Act.fields]) ?_
          split
          · exact herr _
          · split
            · exact herr _
            · split
              · exact herr _
              · refine RangesLate.append (by simp [actsFields, Act.fields]) ?_
                split
                · exact RangesLate.of_not_mem (by simp [actsFields, Act.fields])
                · exact RangesLate.cons (by simp [Act.fields]) (RangesLate.realLength _ _)

theorem mkHttpInit_ranges : RangesLate (mkHttpInit k r f) := by
  have herr := fun status =>
    RangesLate.of_not_mem (mkHttpError_ranges k f.host r.req.method r.uriText status)
  unfold mkHttpInit
  simp only
  refine RangesLate.cons (by simp [Act.fields]) ?_
  split
  · exact herr _
  · split
    · exact herr _
    · refine RangesLate.cons ?_ (RangesLate.append (stage30Acts_ranges k r f _) ?_)
      · cases k.fileStat _ <;> simp [Act.fields]
      · split
        · exact RangesLate.of_not_mem (by simp [actsFields])
        · split
          · split
            · split
              · exact RangesLate.of_not_mem (mkHttpDirectoryRedirect_ranges k r f)
              · split
                · refine RangesLate.cons (by simp [Act.fields]) (RangesLate.cons ?_ ?_)
                  · cases k.fileStat _ <;> simp [Act.fields]
                  · split
                    · exact serveFileActs_ranges k r f _ _
                    · exact herr _
                · exact serveFileActs_ranges k r f _ _
            · exact serveFileActs_ranges k r f _ _
          · exact herr _

theorem prepareHost_ranges : RangesLate (prepareHost k r f) := by
  have herr := fun status =>
    RangesLate.of_not_mem (mkHttpError_ranges k f.host r.req.method r.uriText status)
  have hstage20 : ∀ f : Found, RangesLate (if k.stage20Close then [] else mkHttpInit k r f) := by
    intro f
    split
    · exact RangesLate.of_not_mem (by simp [actsFields])
    · exact mkHttpInit_ranges k r f
  unfold prepareHost
  simp only
  split
  · split
    · split
      · exact herr _
      · exact RangesLate.append (mkHttpError_ranges k _ _ _ _) (herr _)
      · exact RangesLate.append (by simp [actsFields, Act.fields]) (hstage20 _)
    · exact hstage20 f
  · exact hstage20 f

theorem mkHttpKeepaliveCheck_ranges (connection : MkPtr) :
    .shRanges ∉ actsFields (mkHttpKeepaliveCheck k r connection) := by
  rw [← mem_actsFields_filter, mkHttpKeepaliveCheck_filter]
  simp [actsFields]

theorem mkHttpRequestPrepare_ranges : RangesLate (mkHttpRequestPrepare k r) := by
  have herr := fun status =>
    RangesLate.of_not_mem (mkHttpError_ranges k k.defaultHost r.req.method r.uriText status)
  unfold mkHttpRequestPrepare
  simp only
  refine RangesLate.append (by simp [actsFields, Act.fields]) ?_
  split
  · exact herr _
  · refine RangesLate.append (by simp [actsFields, Act.fields]) ?_
    split
    · exact herr _
    · refine RangesLate.append ?_ ?_
      · have hcheck := mkHttpKeepaliveCheck_ranges k r (mkHttpPointHeader r.p .connection)
        simp only [actsFields] at hcheck
        split <;> simp [actsFields, Act.fields, hcheck]
      · split
        · exact prepareHost_ranges k r _
        · refine RangesLate.append ?_ ?_
          · repeat' split
            all_goals simp [actsFields, Act.fields]
          · split
            · exact RangesLate.of_not_mem (by simp [actsFields, Act.fields])
            · exact prepareHost_ranges k r _

end Ranges

/-! ## Two runs of the same acts -/

section Acts

variable {k : World} {s t : Serving}

/-- `close_now` after a list of acts. -/
theorem runActs_closeNow {acts : List Act}
    (h : s.closeNow = t.closeNow ∨ ∃ b, .closeNow b ∈ acts) :
    (runActs k s acts).closeNow = (runActs k t acts).closeNow := by
  induction acts generalizing s t with
  | nil => exact h.resolve_right (by simp)
  | cons a acts ih =>
    refine ih ?_
    rcases h with h | ⟨b, hb⟩
    · left
      cases a <;> first | exact h | rfl
    · rcases List.mem_cons.mp hb with rfl | hb
      · exact .inl rfl
      · exact .inr ⟨b, hb⟩

/-- No script: `cgi` stays `SH_NOCGI`. -/
theorem runActs_nocgi {acts : List Act} (hs : s.sr.headers.cgi = shNocgi)
    (h : ∀ n, .cgi n ∈ acts → n = shNocgi) : (runActs k s acts).sr.headers.cgi = shNocgi := by
  induction acts generalizing s with
  | nil => exact hs
  | cons a acts ih =>
    refine ih ?_ fun n hn => h n (List.mem_cons_of_mem a hn)
    cases a <;> first
      | exact hs
      | exact h _ (List.mem_cons_self ..)

/-- The blocks of two runs are the same when those of every `headerPrepare` are. -/
theorem runActs_blocks {post : List Act}
    (hout : headerBlocks s.out = headerBlocks t.out)
    (h : ∀ pre post', post = pre ++ .headerPrepare :: post' →
      headerBlock (prepareEnv k (runActs k s pre)) k.shared (runActs k s pre).sr.headers =
        headerBlock (prepareEnv k (runActs k t pre)) k.shared (runActs k t pre).sr.headers) :
    headerBlocks (runActs k s post).out = headerBlocks (runActs k t post).out := by
  induction post generalizing s t with
  | nil => exact hout
  | cons a post ih =>
    refine ih ?_ fun pre post' heq => h (a :: pre) post' (by rw [heq]; rfl)
    cases a with
    | headerPrepare =>
      have hblock := h [] post rfl
      simp only [runActs, List.foldl_nil] at hblock
      simp only [runAct, Serving.setHeaders, Serving.emit, headerBlocks, List.filterMap_append,
        hblock]
      simpa [headerBlocks] using hout
    | _ => simpa [runAct, Serving.setSr, Serving.setHeaders, Serving.emit, headerBlocks] using hout

end Acts

/-! ## The condition -/

/-- A connection on which nothing has happened, but for the number of requests
it is said to have served. -/
def connFresh (counter : Nat) : ConnSt := { connStart with counter := counter }

/-- The blocks of a request are those a fresh connection sends for it. -/
def HeadersIsolated (s : ConnSt) (e : Arrival) : Prop :=
  headerBlocks (serve s e).out = headerBlocks (serve (connFresh s.counter) e).out

/-- When a block is prepared, the request has set its own `ETag`, or there is no
old one; it has set `close_now`, or that is not set; and it has set `breakline`,
or that is not set, or the block is not for a script. -/
def CleanBlock (s : ConnSt) (pre : List Act) : Prop :=
  (s.sr.headers.etag = [] ∨ .shEtag ∈ actsFields pre) ∧
    (s.closeNow = false ∨ ∃ b, .closeNow b ∈ pre) ∧
    (s.sr.headers.breakline ≠ headerBreakline ∨ .shBreakline ∈ actsFields pre ∨
      ∀ n, .cgi n ∈ pre → n = shNocgi)

/-- Every block of the request is clean. -/
def Clean (s : ConnSt) (e : Arrival) : Prop :=
  ∀ pre post, e.acts s.counter = pre ++ .headerPrepare :: post → CleanBlock s pre

section Clean

variable {s : ConnSt} {e : Arrival} {pre post : List Act}

/-- A clean block is made from the same headers on a fresh connection. -/
theorem CleanBlock.sameHeaders (h : CleanBlock s pre) (hcustom : s.sr.headers.customStatus = [])
    (hacts : e.acts s.counter = pre ++ post) :
    SameHeaders (runActs e.world ⟨received s e, s.closeNow, []⟩ pre).sr.headers
      (runActs e.world ⟨received (connFresh s.counter) e, false, []⟩ pre).sr.headers := by
  obtain ⟨hetag, -, hbreak⟩ := h
  have hinit : ∀ f ∈ initFields, (received s e).get f = (received (connFresh s.counter) e).get f :=
    fun f hf => received_assigned s _ e (.inl hf)
  have hagree : ∀ f, (f ∈ actsFields pre ∨
      (received s e).get f = (received (connFresh s.counter) e).get f) →
      (runActs e.world ⟨received s e, s.closeNow, []⟩ pre).sr.get f =
        (runActs e.world ⟨received (connFresh s.counter) e, false, []⟩ pre).sr.get f :=
    fun f hf => runActs_agree (hinit .shExtraRows (by decide)) hf
  have hreset : ∀ f ∈ initFields, _ := fun f hf => hagree f (.inr (hinit f hf))
  have hcgi := hreset .shCgi (by decide)
  have hranges := hreset .shRanges (by decide)
  refine
    { status := hreset .shStatus (by decide)
      connection := hreset .shConnection (by decide)
      customStatus := hagree .shCustomStatus (.inr hcustom)
      contentLength := hreset .shContentLength (by decide)
      realLength := ?_
      cgi := hcgi
      breaks := ?_
      transferEncoding := hreset .shTransferEncoding (by decide)
      ranges := hranges
      lastModified := hreset .shLastModified (by decide)
      allowMethods := hreset .shAllowMethods (by decide)
      contentType := hreset .shContentType (by decide)
      contentEncoding := hreset .shContentEncoding (by decide)
      location := hreset .shLocation (by decide)
      etag := hagree .shEtag (hetag.symm.imp_right fun hold => hold)
      extraRows := hreset .shExtraRows (by decide) }
  · by_cases hset : .shRanges ∈ actsFields pre
    · left
      exact hagree .shRealLength (.inl (mkHttpRequestPrepare_ranges _ _ pre post hacts hset))
    · right
      -- no range: both ends are `-1` since the reset
      have hold : (runActs e.world ⟨received s e, s.closeNow, []⟩ pre).sr.headers.ranges = (-1, -1) :=
        runActs_other (f := .shRanges) hset
      rw [hold]
      decide
  · have hcgi' : (runActs e.world ⟨received s e, s.closeNow, []⟩ pre).sr.headers.cgi =
        (runActs e.world ⟨received (connFresh s.counter) e, false, []⟩ pre).sr.headers.cgi := hcgi
    unfold ResponseHeaders.breaks
    rw [hcgi']
    by_cases hset : .shBreakline ∈ actsFields pre
    · have hline : (runActs e.world ⟨received s e, s.closeNow, []⟩ pre).sr.headers.breakline =
          (runActs e.world ⟨received (connFresh s.counter) e, false, []⟩ pre).sr.headers.breakline :=
        hagree .shBreakline (.inl hset)
      rw [hline]
    · have hline : (runActs e.world ⟨received s e, s.closeNow, []⟩ pre).sr.headers.breakline =
          s.sr.headers.breakline := runActs_other (f := .shBreakline) hset
      have hfresh : (runActs e.world ⟨received (connFresh s.counter) e, false, []⟩
          pre).sr.headers.breakline = 0 := runActs_other (f := .shBreakline) hset
      rw [hline, hfresh]
      rcases hbreak with hold | hset' | hno
      · exact or_congr_right (iff_of_false hold (by decide))
      · exact absurd hset' hset
      · have hnocgi := runActs_nocgi (k := e.world)
          (s := ⟨received (connFresh s.counter) e, false, []⟩) rfl hno
        exact iff_of_true (.inl hnocgi) (.inl hnocgi)

/-- A clean block is the block of a fresh connection. -/
theorem CleanBlock.block_eq (h : CleanBlock s pre) (hcustom : s.sr.headers.customStatus = [])
    (hacts : e.acts s.counter = pre ++ post) :
    let u := runActs e.world ⟨received s e, s.closeNow, []⟩ pre
    let v := runActs e.world ⟨received (connFresh s.counter) e, false, []⟩ pre
    headerBlock (prepareEnv e.world u) e.world.shared u.sr.headers =
      headerBlock (prepareEnv e.world v) e.world.shared v.sr.headers := by
  intro u v
  have hinit : ∀ f, f ∈ initFields → u.sr.get f = v.sr.get f := by
    intro f hf
    refine runActs_agree ?_ (.inr (received_assigned s _ e (.inl hf)))
    exact received_assigned s _ e (.inl (by decide))
  have hclose : u.closeNow = v.closeNow := runActs_closeNow h.2.1
  have hconn : u.sr.connection.len = v.sr.connection.len := hinit .connectionLen (by decide)
  have hproto : u.sr.protocol = v.sr.protocol := hinit .protocol (by decide)
  have henv : prepareEnv e.world u = prepareEnv e.world v := by
    simp only [prepareEnv, hclose, hconn, hproto]
  rw [henv]
  exact (h.sameHeaders hcustom hacts).block _ _

/-- The acts of a request, whatever the record. -/
theorem serve_out (s : ConnSt) (e : Arrival) :
    (serve s e).out = (runActs e.world ⟨received s e, s.closeNow, []⟩ (e.acts s.counter)).out := by
  have hsame := e.sameRequest (mkHttpRequestInit e.world s.sr).toParsedRequest parsedRequestZero
    s.counter s.counter rfl rfl rfl rfl
  rw [Arrival.acts, ← mkHttpRequestPrepare_congr hsame e.world rfl]
  rfl

theorem Clean.isolated (h : Clean s e) (hcustom : s.sr.headers.customStatus = []) :
    HeadersIsolated s e := by
  unfold HeadersIsolated
  rw [serve_out, serve_out]
  exact runActs_blocks rfl fun pre post hacts => (h pre post hacts).block_eq hcustom hacts

end Clean

/-- No request sets `custom_status`. -/
theorem serve_customStatus {s : ConnSt} (e : Arrival) (h : s.sr.headers.customStatus = []) :
    (serve s e).sr.headers.customStatus = [] := by
  have hno : .shCustomStatus ∉ e.assigned := by
    have hacts := (unassigned_acts (e.acts 0)).2.2
    cases hasQuery e.bytes <;>
      by_cases hcl : 0 < (e.parse parsedRequestZero).p.headerContentLength <;>
      simp [Arrival.assigned, Arrival.parserFields, initFields, hacts, hcl]
  exact (serve_other s e hno).trans h

/-- `GET /a`, a file. -/
def getA : Arrival where
  world := worldSite
  bytes := bytes "GET /a HTTP/1.1\r\nHost: x\r\n\r\n"
  first := 29
  rest := []
  ok := by decide

end SuperExe.Http
