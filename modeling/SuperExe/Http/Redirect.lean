import SuperExe.Lib.Lines
import SuperExe.Http.HeaderIsolation
import SuperExe.Http.SingleResponse

/-! # Redirects

Two parts of the server answer with `301`: `mk_http_request_prepare`, for a
virtual host with a `Redirect`, and `mk_http_directory_redirect_check`, for a
directory whose URI has no slash at its end. Both store a location in the
response record, and `mk_header_prepare` writes it out.

`redirectTarget` is the place a request is to be sent to, `CarriesLocation` says
that a header block sends it there. The header block of a redirect is computed
row by row (`moved_block`) and read back with the rules for lines.
-/

namespace SuperExe.Http

open SuperExe.Core SuperExe.Lib SuperExe.Vhost

/-! ## Rows -/

/-- The lines of a header block. -/
def headerLines (block : Bytes) : List Bytes := lines 13 10 block

/-- Rows, each with its `CRLF`. -/
def rowsText (rows : List Bytes) : Bytes := rows.flatMap fun row => row ++ [13, 10]

/-- `mk_header_short_location` -/
def shortLocation : Bytes := bytes "Location: "

def isLocation (row : Bytes) : Bool := decide (shortLocation <+: row)

/-- A row that is neither empty nor a `Location`. -/
structure PlainRow (row : Bytes) : Prop where
  nonempty : row ≠ []
  unbroken : Unbroken 13 10 row
  other : isLocation row = false

/-- The block is that of a `301`: complete rows up to one blank line, and one of
them says `Location` and gives the value. -/
def CarriesLocation (value block : Bytes) : Prop :=
  ∃ rows, headerLines block = rows ++ [[], []] ∧ [] ∉ rows ∧
    rows.head? = some (bytes "HTTP/1.1 301 Moved Permanently") ∧
    rows.filter isLocation = [shortLocation ++ value]

theorem filter_plain {rows : List Bytes} (h : ∀ row ∈ rows, PlainRow row) :
    rows.filter isLocation = [] := by
  refine List.filter_eq_nil_iff.mpr ?_
  intro row hrow
  simp [(h row hrow).other]

theorem nil_notMem_plain {rows : List Bytes} (h : ∀ row ∈ rows, PlainRow row) : [] ∉ rows :=
  fun hin => (h [] hin).nonempty rfl

/-- Plain rows and the blank line behind them. -/
theorem lines_plain {rows : List Bytes} (h : ∀ row ∈ rows, PlainRow row) :
    lines 13 10 (rowsText (rows ++ [[]])) = rows ++ [[], []] := by
  have hrows : ∀ row ∈ rows ++ [[]], Unbroken (13 : UInt8) 10 row := by
    intro row hrow
    rcases List.mem_append.mp hrow with hrow | hrow
    · exact (h row hrow).unbroken
    · rw [List.mem_singleton.mp hrow]
      exact unbroken_of_not_mem List.not_mem_nil
  calc lines 13 10 (rowsText (rows ++ [[]]))
      = lines 13 10 (rowsText (rows ++ [[]]) ++ []) := by rw [List.append_nil]
    _ = rows ++ [[]] ++ lines 13 10 [] := lines_rows (by decide) hrows []
    _ = rows ++ [[], []] := by simp [lines]

/-- The lines of a block with a text behind `Location`, whatever the text. -/
theorem headerLines_located {front behind : List Bytes} (v : Bytes)
    (hfront : ∀ row ∈ front, PlainRow row) (hbehind : ∀ row ∈ behind, PlainRow row) :
    headerLines (rowsText front ++ (shortLocation ++ v ++ [13, 10]) ++ rowsText (behind ++ [[]])) =
      front ++ (lines 13 10 v).modifyHead (shortLocation ++ ·) ++ behind ++ [[], []] := by
  have hne : (13 : UInt8) ≠ 10 := by decide
  rw [headerLines, rowsText, List.append_assoc,
    lines_rows hne (fun row hrow => (hfront row hrow).unbroken), List.append_assoc,
    List.cons_append, List.singleton_append, lines_append hne, lines_head (by decide),
    lines_plain hbehind]
  simp

/-- The value that is read back is the first line of the text. -/
theorem carriesLocation_first {front behind : List Bytes} {v value : Bytes}
    (hfront : ∀ row ∈ front, PlainRow row) (hbehind : ∀ row ∈ behind, PlainRow row)
    (h : CarriesLocation value
      (rowsText front ++ (shortLocation ++ v ++ [13, 10]) ++ rowsText (behind ++ [[]]))) :
    value <+: v ∧ Unbroken 13 10 value := by
  rcases h with ⟨rows, hlines, -, -, hvalue⟩
  rcases lines_first v with ⟨first, rest, hfirst, hpre, hunbroken⟩
  rw [headerLines_located v hfront hbehind, hfirst] at hlines
  have hrows : front ++ ((shortLocation ++ first) :: rest) ++ behind = rows :=
    List.append_cancel_right hlines
  have hstart : isLocation (shortLocation ++ first) = true :=
    decide_eq_true (List.prefix_append _ _)
  rw [← hrows, List.filter_append, List.filter_append, filter_plain hfront, List.nil_append,
    List.filter_cons_of_pos hstart, List.cons_append] at hvalue
  have heq : first = value := List.append_cancel_left (List.cons.inj hvalue).1
  rw [← heq]
  exact ⟨hpre, hunbroken⟩

/-- A text of one line is carried. -/
theorem carriesLocation_of_unbroken {front behind : List Bytes} {v : Bytes}
    (hfront : ∀ row ∈ front, PlainRow row) (hbehind : ∀ row ∈ behind, PlainRow row)
    (hhead : front.head? = some (bytes "HTTP/1.1 301 Moved Permanently"))
    (hv : Unbroken 13 10 v) :
    CarriesLocation v
      (rowsText front ++ (shortLocation ++ v ++ [13, 10]) ++ rowsText (behind ++ [[]])) := by
  have hstart : isLocation (shortLocation ++ v) = true := decide_eq_true (List.prefix_append _ _)
  refine ⟨front ++ [shortLocation ++ v] ++ behind, ?_, ?_, ?_, ?_⟩
  · rw [headerLines_located v hfront hbehind, lines_unbroken hv]
    rfl
  · intro hin
    rcases List.mem_append.mp hin with hin | hin
    · rcases List.mem_append.mp hin with hin | hin
      · exact nil_notMem_plain hfront hin
      · exact absurd (List.mem_singleton.mp hin) (by simp [shortLocation, bytes])
    · exact nil_notMem_plain hbehind hin
  · rw [List.append_assoc, List.head?_append, hhead]
    rfl
  · rw [List.filter_append, List.filter_append, filter_plain hfront, filter_plain hbehind,
      List.filter_cons_of_pos hstart]
    rfl

/-- Without a `Location` row nothing is carried. -/
theorem not_carriesLocation_plain {rows : List Bytes} (h : ∀ row ∈ rows, PlainRow row)
    (value : Bytes) : ¬ CarriesLocation value (rowsText (rows ++ [[]])) := by
  rintro ⟨rows', hlines, -, -, hvalue⟩
  have hrows : rows = rows' := by
    rw [headerLines, lines_plain h] at hlines
    exact List.append_cancel_right hlines
  rw [← hrows, filter_plain h] at hvalue
  cases hvalue

/-! ## The block of a redirect -/

/-- `headers_preset` holds plain rows, `Server` and `Date`. -/
def PresetRows (w : Shared) : Prop :=
  ∃ rows, window (w.preset w.current) w.presetLen = rowsText rows ∧ ∀ row ∈ rows, PlainRow row

/-- The `Connection` row. -/
def connectionRows (env : PrepareEnv) : List Bytes :=
  if env.closeNow = false then
    if env.connectionLen > 0 ∧ env.protocol ≠ .v11 then [bytes "Connection: Keep-Alive"] else []
  else [bytes "Connection: Close"]

/-- The record a redirect leaves, made from one that has been reset. -/
def movedRecord (old : ResponseHeaders) (location : Option Bytes) (left : Int) : ResponseHeaders :=
  { mkHeaderResponseReset old with
    status := 301
    contentLength := 0
    location := location
    pconnectionsLeft := left }

section Block

variable (env : PrepareEnv) (w : Shared) (old : ResponseHeaders) (location : Option Bytes)
  (left : Int)

theorem read_textEntry (bs : Bytes) : w.mem.read (textEntry bs).1 0 (textEntry bs).2 = bs := by
  calc w.mem.read (.text bs) 0 bs.length = window (cstr bs) bs.length := by
        simp [Memory.read, window, Shared.mem]
    _ = bs := window_cstr bs

theorem read_connection :
    ((connectionEntries env (movedRecord old location left)).flatMap fun e => w.mem.read e.1 0 e.2) =
      rowsText (connectionRows env) := by
  have hkeep : bytes "Connection: Keep-Alive\r\n" = bytes "Connection: Keep-Alive" ++ [13, 10] := by
    decide
  have hclose : bytes "Connection: Close\r\n" = bytes "Connection: Close" ++ [13, 10] := by decide
  unfold connectionEntries connectionRows
  rw [if_pos (show (movedRecord old location left).connection = 0 from rfl)]
  split
  · split
    · rw [List.flatMap_singleton, read_textEntry, hkeep]
      simp [rowsText]
    · rfl
  · rw [List.flatMap_singleton, read_textEntry, hclose]
    simp [rowsText]

theorem read_location :
    ((locationEntries (movedRecord old location left)).flatMap fun e => w.mem.read e.1 0 e.2) =
      match location with
      | some l => shortLocation ++ l
      | none => [] := by
  cases location with
  | none => rfl
  | some l =>
    have hl : (movedRecord old (some l) left).location = some l := rfl
    simp only [locationEntries, hl, List.flatMap_cons, List.flatMap_nil, read_textEntry,
      List.append_nil, shortLocation]

theorem read_etag :
    ((etagEntries (movedRecord old location left)).flatMap fun e => w.mem.read e.1 0 e.2) =
      old.etag := by
  have hetag : (movedRecord old location left).etag = old.etag := rfl
  unfold etagEntries
  rw [hetag]
  split
  · rw [List.flatMap_singleton, read_textEntry]
  · next hempty =>
    have hnil : old.etag = [] := List.eq_nil_of_length_eq_zero (Nat.eq_zero_of_not_pos hempty)
    rw [List.flatMap_nil, hnil]

/-- `Content-Length: 0` -/
theorem read_contentLength :
    ((contentLengthEntries (movedRecord old location left) w).flatMap fun e =>
      (prepareShared env (movedRecord old location left) w).mem.read e.1 0 e.2) =
      bytes "Content-Length: 0" ++ [13, 10] := by
  have hrow : (movedRecord old location left).hasContentLength := by
    constructor
    · exact show (0 : Int) ≥ 0 by decide
    · exact show (-1 : Int) ≠ 0 by decide
  have hzero : (movedRecord old location left).contentLength.toNat = 0 := rfl
  have hcl : (prepareShared env (movedRecord old location left) w).cl = (mkStringItop 0 w.cl).1 := by
    simp only [prepareShared, hrow, if_true, hzero]
  unfold contentLengthEntries
  rw [if_pos hrow, hzero, List.flatMap_cons, List.flatMap_singleton, read_textEntry]
  simp only [Memory.read, Shared.mem, hcl]
  rfl

/-- The header block of a redirect, row by row. -/
theorem moved_block {preset : List Bytes}
    (hpreset : window (w.preset w.current) w.presetLen = rowsText preset) :
    headerBlock env w (movedRecord old location left) = some
      (rowsText (bytes "HTTP/1.1 301 Moved Permanently" :: preset ++ connectionRows env) ++
        (match location with
          | some l => shortLocation ++ l
          | none => []) ++ old.etag ++ rowsText [bytes "Content-Length: 0", []]) := by
  have hstatus : statusEntry (movedRecord old location left) =
      some (textEntry (bytes "HTTP/1.1 301 Moved Permanently" ++ [13, 10])) := by
    rfl
  have hrows : (prepareShared env (movedRecord old location left) w).mem.read
      (.preset w.current) 0 w.presetLen = rowsText preset := by
    rw [← hpreset]
    simp [Memory.read, window, Shared.mem, prepareShared]
  -- the groups of rows a redirect does not have
  have hmodified : lastModifiedEntries env (movedRecord old location left) = [] := by rfl
  have hallow : allowEntries (movedRecord old location left) = [] := by rfl
  have htype : contentTypeEntries (movedRecord old location left) = [] := by rfl
  have htransfer : transferEncodingEntries (movedRecord old location left) = [] := by rfl
  have hencoding : contentEncodingEntries (movedRecord old location left) = [] := by rfl
  have hrange : contentRangeEntries env (movedRecord old location left) = [] := by rfl
  have hblank : (if (movedRecord old location left).breaks ∧
      (movedRecord old location left).extraRows = none then [textEntry crlf] else []) =
        [textEntry crlf] := by rfl
  have hextra : prepareExtraRows (movedRecord old location left) = none := by rfl
  simp only [headerBlock, hstatus, Option.map_some, hextra, headerEntries, hmodified, hallow, htype,
    htransfer, hencoding, hrange, hblank, List.append_nil, List.flatMap_cons, List.flatMap_append,
    List.flatMap_nil, read_textEntry, hrows, read_connection, read_location, read_etag,
    read_contentLength]
  simp [rowsText, crlf, bytes]

end Block

/-! ## The ETag of an earlier request -/

/-- No `ETag` yet, or that of a file. -/
def EtagOfFile (etag : Bytes) : Prop := etag = [] ∨ ∃ info, etag = etagText info

/-- An act that sets the `ETag` sets that of a file. -/
def Act.etagOfFile : Act → Prop
  | .etag bs => ∃ info, bs = etagText info
  | _ => True

def EtagsOfFiles (acts : List Act) : Prop := ∀ a ∈ acts, a.etagOfFile

@[simp] theorem etagsOfFiles_nil : EtagsOfFiles [] := by simp [EtagsOfFiles]

@[simp] theorem etagsOfFiles_cons {a : Act} {acts : List Act} :
    EtagsOfFiles (a :: acts) ↔ a.etagOfFile ∧ EtagsOfFiles acts := by simp [EtagsOfFiles]

@[simp] theorem etagsOfFiles_append {l m : List Act} :
    EtagsOfFiles (l ++ m) ↔ EtagsOfFiles l ∧ EtagsOfFiles m := by
  simp [EtagsOfFiles, or_imp, forall_and]

theorem runActs_etag {k : World} {s : Serving} {acts : List Act} (h : EtagsOfFiles acts)
    (hs : EtagOfFile s.sr.headers.etag) : EtagOfFile (runActs k s acts).sr.headers.etag := by
  induction acts generalizing s with
  | nil => exact hs
  | cons a acts ih =>
    rcases etagsOfFiles_cons.mp h with ⟨ha, hacts⟩
    refine ih hacts ?_
    cases a with
    | etag bs => exact .inr ha
    | _ => exact hs

section Etags

variable (k : World) (r : Incoming) (f : Found)

theorem SetsUp.etagsOfFiles {acts : List Act} (h : SetsUp acts) : EtagsOfFiles acts := by
  intro a ha
  have hup := h a ha
  cases a <;> trivial

@[simp] theorem mkHttpError_etags (host : Host) (method : Method) (uri : Bytes) (status : Int) :
    EtagsOfFiles (mkHttpError k host method uri status) := by
  unfold mkHttpError
  simp only
  repeat' split
  all_goals simp [Act.etagOfFile]

theorem pluginActs_etags (protocol : Protocol) (ans : PluginAnswer) :
    EtagsOfFiles (ans.acts protocol).1 := by
  cases ans <;> simp only [PluginAnswer.acts]
  all_goals repeat' split
  all_goals simp [Act.etagOfFile]

theorem stage30Acts_etags (hs : List Handler) : EtagsOfFiles (stage30Acts k r f hs).1 := by
  induction hs with
  | nil => simp [stage30Acts]
  | cons h hs ih =>
    have hacts := pluginActs_etags r.req.protocol (k.stage30 h.plugin)
    unfold stage30Acts
    simp only
    repeat' split
    all_goals simp [Act.etagOfFile, hacts, ih]

theorem mkHttpDirectoryRedirect_etags : EtagsOfFiles (mkHttpDirectoryRedirect k r f) := by
  unfold mkHttpDirectoryRedirect
  simp only
  split <;> simp [Act.etagOfFile]

theorem rangeActs_etags (info : FileInfo) (fd : Int) :
    EtagsOfFiles (rangeActs k r f info fd).1 := by
  unfold rangeActs
  simp only
  repeat' split
  all_goals simp [Act.etagOfFile]

theorem sendFileActs_etags (path : Bytes) (info : FileInfo) :
    EtagsOfFiles (sendFileActs k r f path info) := by
  have hranges := rangeActs_etags k r f info
  unfold sendFileActs
  simp only
  repeat' split
  all_goals simp [Act.etagOfFile, hranges]

theorem serveFileActs_etags (path : Bytes) (info : FileInfo) :
    EtagsOfFiles (serveFileActs k r f path info) := by
  have hsend := sendFileActs_etags k r f path info
  have hown : (Act.etag (etagText info)).etagOfFile := ⟨info, rfl⟩
  unfold serveFileActs
  simp only
  repeat' split
  all_goals simp only [etagsOfFiles_cons, etagsOfFiles_append, etagsOfFiles_nil, mkHttpError_etags,
    hsend, hown, and_true]
  all_goals trivial

theorem mkHttpInit_etags : EtagsOfFiles (mkHttpInit k r f) := by
  have hplugins := stage30Acts_etags k r f f.host.handlers
  have hredirect := mkHttpDirectoryRedirect_etags k r f
  have hserve := serveFileActs_etags k r f
  unfold mkHttpInit
  simp only
  repeat' split
  all_goals simp [Act.etagOfFile, hplugins, hredirect, hserve]

theorem prepareHost_etags : EtagsOfFiles (prepareHost k r f) := by
  have hinit := mkHttpInit_etags k r
  unfold prepareHost
  simp only
  repeat' split
  all_goals simp [Act.etagOfFile, hinit]

theorem mkHttpRequestPrepare_etags : EtagsOfFiles (mkHttpRequestPrepare k r) := by
  by_cases hearly : RefusedEarly r
  · rcases mkHttpRequestPrepare_refused k r hearly with ⟨setup, hsetup, heq⟩
    rw [heq, etagsOfFiles_append]
    exact ⟨hsetup.etagsOfFiles, mkHttpError_etags k _ _ _ _⟩
  · have hcheck : EtagsOfFiles (mkHttpKeepaliveCheck k r (mkHttpPointHeader r.p .connection)) := by
      intro a ha
      rcases mem_mkHttpKeepaliveCheck k r ha with ⟨b, rfl⟩
      trivial
    have hanswer : EtagsOfFiles (answerActs k r) := by
      unfold answerActs
      split
      · simp [Act.etagOfFile]
      · exact prepareHost_etags k r _
    rw [mkHttpRequestPrepare_accepted k r hearly]
    simp [(headerSetup_setsUp k r).etagsOfFiles, (hostSetup_setsUp k r).etagsOfFiles, hcheck, hanswer]

end Etags

/-- Whatever the connection has served, the record holds no other `ETag`. -/
theorem connection_etag (es : List Arrival) :
    EtagOfFile (connection.run connStart es).sr.headers.etag := by
  suffices hall : ∀ s : ConnSt, EtagOfFile s.sr.headers.etag →
      EtagOfFile (connection.run s es).sr.headers.etag from hall connStart (.inl rfl)
  induction es with
  | nil => exact fun _ hs => hs
  | cons e es ih =>
    intro s hs
    exact ih (serve s e) (runActs_etag (mkHttpRequestPrepare_etags _ _) hs)

theorem plain_etag (info : FileInfo) :
    ∃ row, PlainRow row ∧ etagText info = row ++ [13, 10] := by
  have hhex : ∀ n, (13 : UInt8) ∉ hexText n := by
    intro n hin
    exact cr_not_mem (isHex_hexText n).2 13 hin rfl
  refine ⟨bytes "ETag: \"" ++ hexText (info.lastModification % 2 ^ 32).toNat ++ bytes "-" ++
    hexText info.size.toNat ++ bytes "\"", ⟨?_, ?_, ?_⟩, ?_⟩
  · simp [bytes]
  · refine unbroken_of_not_mem ?_
    simp only [List.mem_append, not_or]
    exact ⟨⟨⟨⟨by decide, hhex _⟩, by decide⟩, hhex _⟩, by decide⟩
  · simp [isLocation, shortLocation, bytes]
  · simp [etagText, bytes]

/-- The old `ETag` is a plain row of its own, or nothing. -/
theorem EtagOfFile.rows {etag : Bytes} (h : EtagOfFile etag) :
    ∃ rows, etag = rowsText rows ∧ ∀ row ∈ rows, PlainRow row := by
  rcases h with rfl | ⟨info, rfl⟩
  · exact ⟨[], rfl, by simp⟩
  · rcases plain_etag info with ⟨row, hrow, htext⟩
    refine ⟨[row], ?_, ?_⟩
    · simp [rowsText, htext]
    · intro x hx
      rwa [List.mem_singleton.mp hx]

/-- A redirect in rows: what stands in front of the location and behind it. -/
theorem moved_rows (env : PrepareEnv) {w : Shared} {old : ResponseHeaders} (left : Int)
    (hpreset : PresetRows w) (hetag : EtagOfFile old.etag) :
    ∃ front behind, (∀ row ∈ front, PlainRow row) ∧ (∀ row ∈ behind, PlainRow row) ∧
      front.head? = some (bytes "HTTP/1.1 301 Moved Permanently") ∧
      ∀ location, headerBlock env w (movedRecord old location left) = some
        (rowsText front ++ (match location with
          | some l => shortLocation ++ l
          | none => []) ++ rowsText (behind ++ [[]])) := by
  rcases hpreset with ⟨preset, htext, hplain⟩
  rcases hetag.rows with ⟨rows, hrows, hetagPlain⟩
  have hstatus : PlainRow (bytes "HTTP/1.1 301 Moved Permanently") :=
    ⟨by decide, by decide, by decide⟩
  have hlength : PlainRow (bytes "Content-Length: 0") := ⟨by decide, by decide, by decide⟩
  have hconnection : ∀ row ∈ connectionRows env, PlainRow row := by
    intro row hrow
    unfold connectionRows at hrow
    split at hrow
    · split at hrow
      · rw [List.mem_singleton.mp hrow]
        exact ⟨by decide, by decide, by decide⟩
      · cases hrow
    · rw [List.mem_singleton.mp hrow]
      exact ⟨by decide, by decide, by decide⟩
  refine ⟨bytes "HTTP/1.1 301 Moved Permanently" :: preset ++ connectionRows env,
    rows ++ [bytes "Content-Length: 0"], ?_, ?_, rfl, ?_⟩
  · intro row hrow
    rcases List.mem_append.mp hrow with hrow | hrow
    · rcases List.mem_cons.mp hrow with rfl | hrow
      · exact hstatus
      · exact hplain row hrow
    · exact hconnection row hrow
  · intro row hrow
    rcases List.mem_append.mp hrow with hrow | hrow
    · exact hetagPlain row hrow
    · rw [List.mem_singleton.mp hrow]
      exact hlength
  · intro location
    rw [moved_block env w old location left htext, hrows]
    simp [rowsText]

/-! ## Which requests are redirected -/

/-- The text `mk_http_directory_redirect_check` builds from a scheme, a host, a port
and a URI. -/
def locationText (scheme host port uri : Bytes) : Bytes :=
  scheme ++ bytes "://" ++ (host ++ (port ++ uri))

/-- `protocol` of the redirect -/
def redirectScheme (k : World) : Bytes := if k.ssl then bytes "https" else bytes "http"

/-- The port of the redirect, when it is another one than the standard port. -/
def redirectPort (k : World) (f : Found) : Bytes :=
  if f.port > 0 ∧ f.port ≠ k.standardPort then bytes ":" ++ decimal f.port else []

/-- Where a directory without a slash is sent to; without a `Host` header the host
part is empty. -/
def directoryTarget (k : World) (r : Incoming) (f : Found) : Bytes :=
  locationText (redirectScheme k) (r.slice (mkHttpPointHeader r.p .host)) (redirectPort k f)
    (f.uri ++ [47])

/-- What `mk_http_init` is called with, if it is. -/
def initFound (k : World) (r : Incoming) : Option Found :=
  let f := foundFor k r
  if k.stage20Close then none
  else
    match k.userDir with
    | some userDir =>
      if f.uri.length > 2 ∧ f.uri[1]? = some 126 then
        match mkUserInit k.getpwnam userDir f.uri (bytesAfterUri r) with
        | .home path => some { f with home := some path }
        | _ => none
      else some f
    | none => some f

/-- `mk_http_init` gets as far as the check for the slash of a directory, and it is
missing. -/
structure DirectoryWithoutSlash (k : World) (r : Incoming) (f : Found) : Prop where
  inside : ¬ bytes ".." <:+: f.uri
  bodyless : ¬ ((mkHttpPointHeader r.p .contentLength).data.isSome ∧ r.req.method ≠ .post ∧
    r.req.method ≠ .put)
  plugins : (stage30Acts k r f f.host.handlers).2 = false
  directory : ∃ info, k.fileStat (cString (f.home.getD (f.host.documentroot ++ f.uri))) =
    .found info ∧ info.isDirectory = true
  noSlash : f.uri.getLast? ≠ some 47

/-- The two kinds of redirected requests, and where they are to be sent to. -/
inductive Redirected (k : World) (r : Incoming) : Bytes → Prop where
  | host (target : Bytes) (hearly : ¬ RefusedEarly r) (hredirect : hostRedirect k r = some target) :
    Redirected k r target
  | directory (f : Found) (hearly : ¬ RefusedEarly r) (hredirect : hostRedirect k r = none)
    (hfound : initFound k r = some f) (hslash : DirectoryWithoutSlash k r f) :
    Redirected k r (directoryTarget k r f)

/-- Acts that neither send nor touch the response headers. -/
def Act.silent : Act → Bool
  | .uriProcessed _ | .hostConf _ | .hostAlias _ | .userHome _ | .host _ | .connection _ => true
  | .range _ | .ifModifiedSince _ | .contentLengthP _ | .contentLengthPNull | .port _ => true
  | .realPath _ | .contentTypeP _ | .fileInfo _ | .fileStream _ | .stage30Handler _ => true
  | .closeNow _ => true
  | _ => false

theorem runActs_append (k : World) (s : Serving) (l m : List Act) :
    runActs k s (l ++ m) = runActs k (runActs k s l) m := List.foldl_append

theorem runActs_silent {k : World} {s : Serving} {acts : List Act}
    (h : ∀ a ∈ acts, a.silent = true) :
    (runActs k s acts).sr.headers = s.sr.headers ∧ (runActs k s acts).out = s.out := by
  induction acts generalizing s with
  | nil => exact ⟨rfl, rfl⟩
  | cons a acts ih =>
    rcases ih (s := runAct k s a) fun b hb => h b (List.mem_cons_of_mem a hb) with ⟨hheaders, hout⟩
    have ha := h a List.mem_cons_self
    constructor
    · refine hheaders.trans ?_
      cases a <;> trivial
    · refine hout.trans ?_
      cases a <;> trivial

theorem SetsUp.silent {acts : List Act} (h : SetsUp acts) : ∀ a ∈ acts, a.silent = true := by
  intro a ha
  have hup := h a ha
  cases a <;> first
    | rfl
    | cases hup

section Redirected

variable {k : World} {r : Incoming} {f : Found}

/-- Plugins that pass a request on do nothing else. -/
theorem stage30Acts_silent {hs : List Handler} (h : (stage30Acts k r f hs).2 = false) :
    ∀ a ∈ (stage30Acts k r f hs).1, a.silent = true := by
  induction hs with
  | nil =>
    intro a ha
    cases ha
  | cons x hs ih =>
    unfold stage30Acts at h ⊢
    split at h
    · next hmatch =>
      rw [if_pos hmatch]
      cases hans : k.stage30 x.plugin with
      | notMe =>
        simp only [hans, PluginAnswer.acts] at h ⊢
        intro a ha
        rcases List.mem_cons.mp ha with rfl | ha
        · rfl
        · exact ih h a ha
      | _ => simp [hans, PluginAnswer.acts] at h
    · next hmatch =>
      rw [if_neg hmatch]
      exact ih h

/-- The redirect is all `mk_http_init` sends. -/
theorem mkHttpInit_redirect (h : DirectoryWithoutSlash k r f) :
    ∃ pre, (∀ a ∈ pre, a.silent = true) ∧ mkHttpInit k r f = pre ++ mkHttpDirectoryRedirect k r f := by
  rcases h.directory with ⟨info, hstat, hdirectory⟩
  refine ⟨.realPath (f.home.getD (f.host.documentroot ++ f.uri)) ::
    .fileInfo (.found info) :: (stage30Acts k r f f.host.handlers).1, ?_, ?_⟩
  · intro a ha
    rcases List.mem_cons.mp ha with rfl | ha
    · rfl
    · rcases List.mem_cons.mp ha with rfl | ha
      · rfl
      · exact stage30Acts_silent h.plugins a ha
  · unfold mkHttpInit
    simp only [h.inside, h.bodyless, h.plugins, hstat, hdirectory, h.noSlash, if_true, if_false,
      Bool.false_eq_true, ne_eq, not_false_eq_true, List.cons_append]

theorem prepareHost_redirect (hfound : initFound k r = some f) (h : DirectoryWithoutSlash k r f) :
    ∃ pre, (∀ a ∈ pre, a.silent = true) ∧
      prepareHost k r (foundFor k r) = pre ++ mkHttpDirectoryRedirect k r f := by
  rcases mkHttpInit_redirect h with ⟨pre, hpre, hinit⟩
  unfold initFound at hfound
  unfold prepareHost
  by_cases hclose : k.stage20Close = true
  · simp [hclose] at hfound
  simp only [hclose, Bool.false_eq_true, if_false] at hfound ⊢
  cases hdir : k.userDir with
  | none =>
    rw [hdir] at hfound
    rw [Option.some.inj hfound]
    exact ⟨pre, hpre, hinit⟩
  | some userDir =>
    simp only [hdir] at hfound ⊢
    by_cases htilde : (foundFor k r).uri.length > 2 ∧ (foundFor k r).uri[1]? = some 126
    · rw [if_pos htilde] at hfound ⊢
      rw [bytesAfterUri] at hfound
      cases huser : mkUserInit k.getpwnam userDir (foundFor k r).uri
        (if (mkUtilsUrlDecode r.uriText).isSome then [0, 0] else
          (List.range 2).map fun j =>
            r.buffer ((r.req.uri.data.getD 0) + r.req.uri.len.toNat + j)) with
      | refused => simp [huser] at hfound
      | unknownUser => simp [huser] at hfound
      | home path =>
        simp only [huser, Option.some.injEq] at hfound
        refine ⟨[.realPath path, .userHome true] ++ pre, ?_, ?_⟩
        · intro a ha
          rcases List.mem_append.mp ha with ha | ha
          · rcases List.mem_pair.mp ha with rfl | rfl <;> rfl
          · exact hpre a ha
        · simp only [hfound, hinit, List.append_assoc]
    · rw [if_neg htilde] at hfound ⊢
      rw [Option.some.inj hfound]
      exact ⟨pre, hpre, hinit⟩

/-- Everything in front of the answer is silent. -/
theorem mkHttpRequestPrepare_silent (h : ¬ RefusedEarly r) :
    ∃ pre, (∀ a ∈ pre, a.silent = true) ∧ mkHttpRequestPrepare k r = pre ++ answerActs k r := by
  refine ⟨headerSetup k r ++ mkHttpKeepaliveCheck k r (mkHttpPointHeader r.p .connection) ++
    hostSetup k r, ?_, mkHttpRequestPrepare_accepted k r h⟩
  intro a ha
  rcases List.mem_append.mp ha with ha | ha
  · rcases List.mem_append.mp ha with ha | ha
    · exact (headerSetup_setsUp k r).silent a ha
    · rcases mem_mkHttpKeepaliveCheck k r ha with ⟨b, rfl⟩
      rfl
  · exact (hostSetup_setsUp k r).silent a ha

end Redirected

/-! ## What a redirect carries -/

/-- A text that stays on one line and in one C string. -/
structure PlainText (text : Bytes) : Prop where
  noNul : 0 ∉ text
  unbroken : Unbroken 13 10 text

/-- The response is one header block that sends the client to the target, and of
the receive buffer nothing but the `Host` slice goes into it. -/
structure RedirectCarried (k : World) (r : Incoming) (out : List Out) (target : Bytes) : Prop where
  carried : ∃ block, out = [.block (some block)] ∧ CarriesLocation target block
  hostOnly : ∀ buffer : Nat → UInt8,
    { r with buffer := buffer }.slice (mkHttpPointHeader r.p .host) =
      r.slice (mkHttpPointHeader r.p .host) →
    ∀ f, mkHttpDirectoryRedirect k { r with buffer := buffer } f = mkHttpDirectoryRedirect k r f

/-- A directory without a slash, asked for with a `Host` header, and nothing in
the host or in the URI that cuts the location short. -/
structure RedirectPlain (k : World) (r : Incoming) : Prop where
  ownRedirect : hostRedirect k r = none
  host : (mkHttpPointHeader r.p .host).data.isSome
  hostText : PlainText (r.slice (mkHttpPointHeader r.p .host))
  uriText : PlainText (uriProcessed r.uriText)

/-- The digits of a port number. -/
theorem decimal_digits {n : Int} (hn : 0 < n) : ∀ c ∈ decimal n, c ≠ 0 ∧ c ≠ 13 := by
  rcases Int.eq_ofNat_of_zero_le hn.le with ⟨m, rfl⟩
  intro c hc
  have htext : decimal (m : Int) = bytes (String.ofList (Nat.toDigits 10 m)) := rfl
  rw [htext, bytes, String.toList_ofList] at hc
  rcases List.mem_map.mp hc with ⟨d, hd, rfl⟩
  have hdigit : d.isDigit = true := Nat.isDigit_of_mem_toDigits (by decide) (by decide) hd
  simp only [Char.isDigit, Bool.and_eq_true, decide_eq_true_eq, ge_iff_le, UInt32.le_iff_toNat_le]
    at hdigit
  have hlow : 48 ≤ d.toNat := hdigit.1
  have hhigh : d.toNat ≤ 57 := hdigit.2
  have hnat : (UInt8.ofNat d.toNat).toNat = d.toNat := by
    rw [UInt8.toNat_ofNat']
    omega
  constructor
  · intro h
    have := congrArg UInt8.toNat h
    rw [hnat] at this
    simp only [UInt8.toNat_zero] at this
    omega
  · intro h
    have := congrArg UInt8.toNat h
    rw [hnat] at this
    have h13 : (13 : UInt8).toNat = 13 := rfl
    omega

/-- The texts of a location are plain iff those that come from the request are. -/
theorem plain_locationText {scheme host port uri : Bytes}
    (hscheme : scheme = bytes "https" ∨ scheme = bytes "http")
    (hport : ∀ c ∈ port, c ≠ 0 ∧ c ≠ 13) (hhead : port = [] ∨ port.head? = some 58)
    (huri : uri.head? = some 47) :
    PlainText (locationText scheme host port (uri ++ [47])) ↔ PlainText host ∧ PlainText uri := by
  have hfront : 0 ∉ scheme ++ bytes "://" ∧ 13 ∉ scheme ++ bytes "://" := by
    rcases hscheme with rfl | rfl <;> decide
  constructor
  · rintro ⟨hnul, hunbroken⟩
    have hhost : host <:+: locationText scheme host port (uri ++ [47]) :=
      ⟨scheme ++ bytes "://", port ++ (uri ++ [47]), by simp [locationText]⟩
    have huri' : uri <:+: locationText scheme host port (uri ++ [47]) :=
      ⟨scheme ++ bytes "://" ++ (host ++ port), [47], by simp [locationText]⟩
    exact ⟨⟨fun h => hnul (hhost.subset h), hunbroken.of_infix hhost⟩,
      ⟨fun h => hnul (huri'.subset h), hunbroken.of_infix huri'⟩⟩
  · rintro ⟨⟨hhostNul, hhostLine⟩, ⟨huriNul, huriLine⟩⟩
    constructor
    · simp only [locationText, List.mem_append, not_or]
      refine ⟨by simpa using hfront.1, hhostNul, ?_, huriNul, by decide⟩
      intro hin
      exact (hport 0 hin).1 rfl
    · have hslash : Unbroken 13 10 (uri ++ [47]) :=
        unbroken_append huriLine (unbroken_of_not_mem (by decide)) (by simp)
      have hportLine : Unbroken 13 10 (port ++ (uri ++ [47])) := by
        refine unbroken_append (unbroken_of_not_mem fun hin => (hport 13 hin).2 rfl) hslash ?_
        intro _
        simp [List.head?_append, huri]
      have hrest : Unbroken 13 10 (host ++ (port ++ (uri ++ [47]))) := by
        refine unbroken_append hhostLine hportLine ?_
        intro _
        rcases hhead with rfl | hhead
        · simp [List.head?_append, huri]
        · simp [List.head?_append, hhead]
      refine unbroken_append (unbroken_of_not_mem hfront.2) hrest ?_
      intro hlast
      exact absurd (List.mem_of_getLast? hlast) hfront.2

section Location

variable {k : World} {r : Incoming} {f : Found}

theorem redirectScheme_cases (k : World) :
    redirectScheme k = bytes "https" ∨ redirectScheme k = bytes "http" := by
  unfold redirectScheme
  split
  · exact .inl rfl
  · exact .inr rfl

theorem redirectPort_head (k : World) (f : Found) :
    redirectPort k f = [] ∨ (redirectPort k f).head? = some 58 := by
  unfold redirectPort
  split
  · exact .inr rfl
  · exact .inl rfl

theorem redirectPort_digits (k : World) (f : Found) : ∀ c ∈ redirectPort k f, c ≠ 0 ∧ c ≠ 13 := by
  intro c hc
  unfold redirectPort at hc
  split at hc
  · next hport =>
    rcases List.mem_append.mp hc with hc | hc
    · rw [List.mem_singleton.mp (show c ∈ [58] from hc)]
      decide
    · exact decimal_digits hport.1 c hc
  · cases hc

/-- What the code stores for a directory: host and URI are taken as C strings. -/
theorem mkHttpDirectoryRedirect_host {off : Nat}
    (hhost : (mkHttpPointHeader r.p .host).data = some off) :
    mkHttpDirectoryRedirect k r f =
      [.status 301, .contentLength 0, .contentType [],
        .location (some (locationText (redirectScheme k)
          (cString (r.slice (mkHttpPointHeader r.p .host))) (redirectPort k f)
          (cString (f.uri ++ [47])) ++ [13, 10])),
        .cgi shNocgi, .pconnectionsLeft (k.maxKeepAliveRequest - r.counter), .headerPrepare,
        .location none] := by
  have hport : (if (if f.port > 0 ∧ f.port ≠ k.standardPort then f.port else 0) > 0 then
      bytes ":" ++ decimal (if f.port > 0 ∧ f.port ≠ k.standardPort then f.port else 0) else []) =
        redirectPort k f := by
    unfold redirectPort
    by_cases hown : f.port > 0 ∧ f.port ≠ k.standardPort
    · simp only [hown, if_true, ne_eq, not_false_eq_true, and_self]
    · simp only [hown, if_false, gt_iff_lt, lt_self_iff_false]
  unfold mkHttpDirectoryRedirect
  simp only [hhost, hport, locationText, redirectScheme]
  simp [bytes]

theorem initFound_uri (h : initFound k r = some f) : f.uri = uriProcessed r.uriText := by
  unfold initFound at h
  simp only at h
  repeat' split at h
  all_goals cases h
  all_goals rfl

/-- The stored text carries the target iff host and URI are plain. -/
theorem carries_directoryTarget {front behind : List Bytes} (huri : f.uri.head? = some 47)
    (hfront : ∀ row ∈ front, PlainRow row) (hbehind : ∀ row ∈ behind, PlainRow row)
    (hhead : front.head? = some (bytes "HTTP/1.1 301 Moved Permanently")) :
    CarriesLocation (directoryTarget k r f) (rowsText front ++
        (shortLocation ++ (locationText (redirectScheme k)
          (cString (r.slice (mkHttpPointHeader r.p .host))) (redirectPort k f)
          (cString (f.uri ++ [47])) ++ [13, 10])) ++ rowsText (behind ++ [[]])) ↔
      PlainText (r.slice (mkHttpPointHeader r.p .host)) ∧ PlainText f.uri := by
  have hplain : PlainText (directoryTarget k r f) ↔
      PlainText (r.slice (mkHttpPointHeader r.p .host)) ∧ PlainText f.uri :=
    plain_locationText (redirectScheme_cases k) (redirectPort_digits k f) (redirectPort_head k f)
      huri
  rw [← hplain, ← List.append_assoc shortLocation]
  constructor
  · intro h
    rcases carriesLocation_first hfront hbehind h with ⟨hpre, hunbroken⟩
    refine ⟨fun hin => ?_, hunbroken⟩
    -- the stored text is a C string, so the target has no NUL either
    have hnul := hpre.subset hin
    simp only [locationText, List.mem_append] at hnul
    rcases hnul with (hnul | hnul) | hnul | hnul | hnul
    · rcases redirectScheme_cases k with hscheme | hscheme
      · rw [hscheme] at hnul
        exact absurd hnul (by decide)
      · rw [hscheme] at hnul
        exact absurd hnul (by decide)
    · exact absurd hnul (by decide)
    · exact zero_notMem_cString _ hnul
    · exact (redirectPort_digits k f 0 hnul).1 rfl
    · exact zero_notMem_cString _ hnul
  · intro h
    rcases hplain.mp h with ⟨hhost, huriText⟩
    have hslash : 0 ∉ f.uri ++ [47] := by
      simp [huriText.noNul]
    rw [cString_eq_self.mpr hhost.noNul, cString_eq_self.mpr hslash]
    exact carriesLocation_of_unbroken hfront hbehind hhead h.unbroken

/-- Only the host slice of the buffer goes into the location. -/
theorem mkHttpDirectoryRedirect_hostOnly (buffer : Nat → UInt8)
    (h : { r with buffer := buffer }.slice (mkHttpPointHeader r.p .host) =
      r.slice (mkHttpPointHeader r.p .host)) :
    mkHttpDirectoryRedirect k { r with buffer := buffer } f = mkHttpDirectoryRedirect k r f := by
  unfold mkHttpDirectoryRedirect
  simp only [h]

end Location

/-- A redirect to the configured URL leaves no location in the record. -/
theorem host_not_carried {k : World} {r : Incoming} {s : Serving} {old : ResponseHeaders}
    (target : Bytes) (hpreset : PresetRows k.shared) (hetag : EtagOfFile old.etag)
    (hheaders : s.sr.headers = mkHeaderResponseReset old) (hout : s.out = [])
    (hearly : ¬ RefusedEarly r) (hredirect : hostRedirect k r = some target) :
    ¬ RedirectCarried k r (runActs k s (mkHttpRequestPrepare k r)).out target := by
  rintro ⟨⟨block, hblock, hcarries⟩, -⟩
  rcases mkHttpRequestPrepare_silent (k := k) hearly with ⟨pre, hpre, heq⟩
  rcases runActs_silent (k := k) (s := s) hpre with ⟨hrecord, hnone⟩
  generalize ht : runActs k s pre = t at hrecord hnone
  have hanswer : answerActs k r = [.status 301, .location (some target), .contentLength 0,
      .location none, .headerPrepare] := by
    unfold answerActs
    rw [hredirect]
  have hsent : (runActs k s (mkHttpRequestPrepare k r)).out = [.block (headerBlock (prepareEnv k t)
      k.shared (movedRecord old none old.pconnectionsLeft))] := by
    rw [heq, hanswer, runActs_append, ht]
    simp only [runActs, List.foldl_cons, List.foldl_nil, runAct, Serving.setHeaders, Serving.emit, hnone,
      hout, hrecord, hheaders]
    rfl
  rcases moved_rows (prepareEnv k t) old.pconnectionsLeft hpreset hetag with
    ⟨front, behind, hfront, hbehind, -, hrows⟩
  rw [hsent, hrows none] at hblock
  have hplain : ∀ row ∈ front ++ behind, PlainRow row := by
    intro row hrow
    rcases List.mem_append.mp hrow with hrow | hrow
    · exact hfront row hrow
    · exact hbehind row hrow
  have htext : block = rowsText ((front ++ behind) ++ [[]]) := by
    have hinj := Out.block.inj (List.cons.inj hblock).1
    rw [← Option.some.inj hinj]
    simp [rowsText]
  rw [htext] at hcarries
  exact not_carriesLocation_plain hplain target hcarries

/-- The redirect of a directory carries its target iff there is a host and both
texts are plain. -/
theorem directory_carried_iff {k : World} {r : Incoming} {f : Found} {s : Serving}
    {old : ResponseHeaders} (hpreset : PresetRows k.shared) (hetag : EtagOfFile old.etag)
    (hheaders : s.sr.headers = mkHeaderResponseReset old) (hout : s.out = [])
    (hearly : ¬ RefusedEarly r) (hredirect : hostRedirect k r = none)
    (hfound : initFound k r = some f) (hslash : DirectoryWithoutSlash k r f) :
    RedirectCarried k r (runActs k s (mkHttpRequestPrepare k r)).out (directoryTarget k r f) ↔
      RedirectPlain k r := by
  rcases mkHttpRequestPrepare_silent (k := k) hearly with ⟨setup, hsetup, heq⟩
  rcases prepareHost_redirect hfound hslash with ⟨path, hpath, hprepare⟩
  have hpre : ∀ a ∈ setup ++ path, a.silent = true := by
    intro a ha
    rcases List.mem_append.mp ha with ha | ha
    · exact hsetup a ha
    · exact hpath a ha
  have hall : mkHttpRequestPrepare k r = (setup ++ path) ++ mkHttpDirectoryRedirect k r f := by
    rw [heq, answerActs, hredirect, hprepare, List.append_assoc]
  rcases runActs_silent (k := k) (s := s) hpre with ⟨hrecord, hnone⟩
  generalize ht : runActs k s (setup ++ path) = t at hrecord hnone
  have hrun : runActs k s (mkHttpRequestPrepare k r) =
      runActs k t (mkHttpDirectoryRedirect k r f) := by
    rw [hall, runActs_append, ht]
  have huri : f.uri = uriProcessed r.uriText := initFound_uri hfound
  have hhead : f.uri.head? = some 47 := by
    rw [huri]
    exact not_not.mp (not_or.mp hearly).1
  rw [hrun]
  cases hhost : (mkHttpPointHeader r.p .host).data with
  | none =>
    -- `memcpy` from `NULL`: the process does not survive the request
    have hcrash : (runActs k t (mkHttpDirectoryRedirect k r f)).out = [.crash] := by
      simp only [mkHttpDirectoryRedirect, hhost, runActs, List.foldl_cons, List.foldl_nil, runAct,
        Serving.emit, hnone, hout, List.nil_append]
    constructor
    · rintro ⟨⟨block, hblock, -⟩, -⟩
      rw [hcrash] at hblock
      cases hblock
    · intro h
      have hsome := h.host
      rw [hhost] at hsome
      cases hsome
  | some off =>
    rcases moved_rows (prepareEnv k t) (k.maxKeepAliveRequest - r.counter) hpreset hetag with
      ⟨front, behind, hfront, hbehind, hfirst, hrows⟩
    have hcarries := carries_directoryTarget (k := k) (r := r) hhead hfront hbehind hfirst
    have hsent : (runActs k t (mkHttpDirectoryRedirect k r f)).out =
        [.block (some (rowsText front ++ (shortLocation ++ (locationText (redirectScheme k)
          (cString (r.slice (mkHttpPointHeader r.p .host))) (redirectPort k f)
          (cString (f.uri ++ [47])) ++ [13, 10])) ++ rowsText (behind ++ [[]])))] := by
      rw [mkHttpDirectoryRedirect_host hhost, ← hrows (some _)]
      simp only [runActs, List.foldl_cons, List.foldl_nil, runAct, Serving.setHeaders,
        Serving.emit, hnone, hout, hrecord, hheaders]
      rfl
    rw [huri] at hcarries
    constructor
    · rintro ⟨⟨block, hblock, hcarried⟩, -⟩
      rw [hsent] at hblock
      have hinj := Option.some.inj (Out.block.inj (List.cons.inj hblock).1)
      rw [← hinj, huri] at hcarried
      rcases hcarries.mp hcarried with ⟨hhostText, huriText⟩
      exact ⟨hredirect, by rw [hhost]; rfl, hhostText, huriText⟩
    · rintro ⟨-, -, hhostText, huriText⟩
      refine ⟨⟨_, hsent, ?_⟩, fun buffer hsame f => mkHttpDirectoryRedirect_hostOnly buffer hsame⟩
      rw [huri]
      exact hcarries.mpr ⟨hhostText, huriText⟩

/-- For every request of every connection that is to be redirected: the response
carries its target iff it is a directory, the request has a `Host` header, and
neither the host nor the URI holds a `NUL` or a line end. -/
theorem redirect_location_iff (es : List Arrival) (e : Arrival) (target : Bytes)
    (hpreset : PresetRows e.world.shared)
    (hredirected : Redirected e.world
      (e.incoming parsedRequestZero (connection.run connStart es).counter) target) :
    RedirectCarried e.world (e.incoming parsedRequestZero (connection.run connStart es).counter)
        (serve (connection.run connStart es) e).out target ↔
      RedirectPlain e.world
        (e.incoming parsedRequestZero (connection.run connStart es).counter) := by
  have hetag := connection_etag es
  generalize connection.run connStart es = s at hetag hredirected ⊢
  rw [serve_out, Arrival.acts]
  generalize e.incoming parsedRequestZero s.counter = r at hredirected ⊢
  cases hredirected with
  | host _ hearly hredirect =>
    refine iff_of_false (host_not_carried target hpreset hetag rfl rfl hearly hredirect) ?_
    intro h
    rw [h.ownRedirect] at hredirect
    cases hredirect
  | directory f hearly hredirect hfound hslash =>
    exact directory_carried_iff hpreset hetag rfl rfl hearly hredirect hfound hslash

/-- A directory. -/
def directoryInfo : FileInfo where
  present := true
  isFile := false
  isLink := false
  isDirectory := true
  execAccess := true
  readAccess := true
  size := 5
  lastModification := 16

/-- The site, with a directory `/d` instead of a file. -/
def worldDir : World where
  __ := worldSite
  fileStat := fun path => if path = bytes "/srv/d" then .found directoryInfo else .missing false

/-- `GET /d` -/
def getDir : Arrival where
  world := worldDir
  bytes := bytes "GET /d HTTP/1.1\r\nHost: x\r\n\r\n"
  first := 29
  rest := []
  ok := by decide

theorem presetRows_monkey : PresetRows sharedMonkey := by
  refine ⟨[bytes "Server: Monkey"], by decide, ?_⟩
  intro row hrow
  rw [List.mem_singleton.mp hrow]
  exact ⟨by decide, by decide, by decide⟩

/-- `/d` is sent on to `http://x/d/`. -/
theorem redirect_location_directory :
    RedirectCarried worldDir (getDir.incoming parsedRequestZero 0) (serve connStart getDir).out
      (bytes "http://x/d/") := by
  have hfound : initFound worldDir (getDir.incoming parsedRequestZero 0) =
      some (foundFor worldDir (getDir.incoming parsedRequestZero 0)) := by rfl
  have hslash : DirectoryWithoutSlash worldDir (getDir.incoming parsedRequestZero 0)
      (foundFor worldDir (getDir.incoming parsedRequestZero 0)) := by
    refine ⟨by decide, by decide, by rfl, ⟨directoryInfo, ?_, rfl⟩, by decide⟩
    decide
  have htarget : directoryTarget worldDir (getDir.incoming parsedRequestZero 0)
      (foundFor worldDir (getDir.incoming parsedRequestZero 0)) = bytes "http://x/d/" := by
    decide
  have hredirected : Redirected worldDir (getDir.incoming parsedRequestZero 0)
      (bytes "http://x/d/") := by
    rw [← htarget]
    exact .directory _ (by decide) (by decide) hfound hslash
  refine (redirect_location_iff [] getDir _ presetRows_monkey hredirected).mpr ?_
  exact ⟨by decide, by decide, ⟨by decide, by decide⟩,
    ⟨by decide, by decide⟩⟩

/-- The site, moved to another place as a whole. -/
def worldMoved : World where
  __ := worldSite
  defaultHost := { worldSite.defaultHost with headerRedirect := some (bytes "http://y/") }

theorem getMoved_fed : (feed (parserFresh parsedRequestZero
    (bytes "GET /a HTTP/1.1\r\nHost: x\r\n\r\n")) 29 []).1.1 = .ok := by
  decide

/-- `GET /a` of the site that has moved. -/
def getMoved : Arrival where
  world := worldMoved
  bytes := bytes "GET /a HTTP/1.1\r\nHost: x\r\n\r\n"
  first := 29
  rest := []
  ok := getMoved_fed

/-- The `301` of a virtual host with a `Redirect` has no `Location`. -/
theorem redirect_location_lost :
    ¬ ∀ (es : List Arrival) (e : Arrival) (target : Bytes), PresetRows e.world.shared →
      Redirected e.world (e.incoming parsedRequestZero (connection.run connStart es).counter)
        target →
      RedirectCarried e.world (e.incoming parsedRequestZero (connection.run connStart es).counter)
        (serve (connection.run connStart es) e).out target := by
  intro h
  have hearly : ¬ RefusedEarly (getMoved.incoming parsedRequestZero 0) := by decide
  have hredirect : hostRedirect worldMoved (getMoved.incoming parsedRequestZero 0) =
      some (bytes "http://y/") := by decide
  have hcarried := h [] getMoved (bytes "http://y/") presetRows_monkey (.host _ hearly hredirect)
  rw [serve_out] at hcarried
  exact host_not_carried _ presetRows_monkey (.inl rfl) rfl rfl hearly hredirect hcarried

end SuperExe.Http
