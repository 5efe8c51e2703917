import SuperExe.Core.Decimal
import SuperExe.Http.Types
import SuperExe.Stream.Channel

/-! # Response headers

Model of `mk_server/mk_header.c`. `mk_header_prepare` turns the response record
of a request into the entries of an iov and queues the iov as a stream. The
entries are references: most of them point to constants or to memory of the
request, but the date of `Last-Modified`, the number of `Content-Length` and the
preset rows stand in buffers that all connections of a worker share (`Shared`).

`headerEntries` lists the `mk_iov_add` calls in the order of the source, one
group for each header.
-/

namespace SuperExe.Http

open SuperExe.Core SuperExe.Stream

/-! ## Shared buffers -/

/-- What an entry of a header iov points to: a constant or a block that belongs
to the request, or one of the shared buffers. -/
inductive HeaderBuf where
  | null
  | text (bs : Bytes)
  | lm
  | cl
  | preset (second : Bool)
deriving DecidableEq, Repr

/-- The buffers behind `mk_tls_cache_header_lm` and `mk_tls_cache_header_cl` of
a worker, the two buffers of `headers_preset`, and which of these is in use. -/
structure Shared where
  lm : Nat → UInt8
  cl : Nat → UInt8
  preset : Bool → Nat → UInt8
  current : Bool
  presetLen : Nat

def Shared.mem (w : Shared) : Memory HeaderBuf
  | .null => fun _ => 0
  | .text bs => cstr bs
  | .lm => w.lm
  | .cl => w.cl
  | .preset b => w.preset b

/-- Overwrite the start of a buffer. -/
def overwrite (buf : Nat → UInt8) (bs : Bytes) : Nat → UInt8 :=
  fun i => if i < bs.length then cstr bs i else buf i

/-- `mk_clock_headers_preset`: the other buffer gets the new text. -/
def mkClockHeadersPreset (w : Shared) (text : Bytes) : Shared :=
  { w with
    preset := fun b => if b = !w.current then overwrite (w.preset b) text else w.preset b
    current := !w.current
    presetLen := text.length }

/-! ## The record -/

/-- `MK_CUSTOM_STATUS` -/
def customStatusCode : Int := 7

/-- `MK_HEADER_BREAKLINE` -/
def headerBreakline : Int := 1

/-- `SH_NOCGI` and `SH_CGI` -/
def shNocgi : Int := 0
def shCgi : Int := 1

/-- `MK_HEADER_TE_TYPE_CHUNKED` -/
def headerTeTypeChunked : Int := 0

/-- `MK_HEADER_IOV` -/
def headerIovSize : Nat := 32

/-- `struct response_headers`. A `mk_ptr_t` is the text it covers, empty when
its length is `0`. -/
structure ResponseHeaders where
  status : Int
  connection : Int
  customStatus : Bytes
  contentLength : Int
  realLength : Int
  cgi : Int
  pconnectionsLeft : Int
  breakline : Int
  transferEncoding : Int
  ranges : Int × Int
  lastModified : Int
  allowMethods : Bytes
  contentType : Bytes
  contentEncoding : Bytes
  location : Option Bytes
  etag : Bytes
  extraRows : Option (MkIov HeaderBuf)
  sent : Bool
  headersIov : MkIov HeaderBuf

/-- The record of a connection that has just been allocated. -/
def responseHeadersZero : ResponseHeaders where
  status := 0
  connection := 0
  customStatus := []
  contentLength := 0
  realLength := 0
  cgi := 0
  pconnectionsLeft := 0
  breakline := 0
  transferEncoding := 0
  ranges := (0, 0)
  lastModified := 0
  allowMethods := []
  contentType := []
  contentEncoding := []
  location := none
  etag := []
  extraRows := none
  sent := false
  headersIov := mkIovInit .null 0 0

/-- `mk_header_response_reset` -/
def mkHeaderResponseReset (header : ResponseHeaders) : ResponseHeaders :=
  { header with
    status := 0
    sent := false
    ranges := (-1, -1)
    contentLength := -1
    connection := 0
    transferEncoding := -1
    lastModified := -1
    cgi := shNocgi
    contentType := []
    contentEncoding := []
    location := none
    extraRows := none
    allowMethods := []
    headersIov := mkIovInit .null headerIovSize 0 }

/-- `status_response` -/
def statusResponse : List (Int × Bytes) :=
  [(200, bytes "HTTP/1.1 200 OK\r\n"), (404, bytes "HTTP/1.1 404 Not Found\r\n"),
    (100, bytes "HTTP/1.1 100 Continue\r\n"),
    (101, bytes "HTTP/1.1 101 Switching Protocols\r\n"),
    (201, bytes "HTTP/1.1 201 Created\r\n"), (202, bytes "HTTP/1.1 202 Accepted\r\n"),
    (203, bytes "HTTP/1.1 203 Non-Authoritative Information\r\n"),
    (204, bytes "HTTP/1.1 204 No Content\r\n"), (205, bytes "HTTP/1.1 205 Reset Content\r\n"),
    (206, bytes "HTTP/1.1 206 Partial Content\r\n"),
    (300, bytes "HTTP/1.1 300 Multiple Choices\r\n"),
    (301, bytes "HTTP/1.1 301 Moved Permanently\r\n"), (302, bytes "HTTP/1.1 302 Found\r\n"),
    (303, bytes "HTTP/1.1 303 See Other\r\n"), (304, bytes "HTTP/1.1 304 Not Modified\r\n"),
    (305, bytes "HTTP/1.1 305 Use Proxy\r\n"), (400, bytes "HTTP/1.1 400 Bad Request\r\n"),
    (401, bytes "HTTP/1.1 401 Unauthorized\r\n"),
    (402, bytes "HTTP/1.1 402 Payment Required\r\n"),
    (403, bytes "HTTP/1.1 403 Forbidden\r\n"), (405, bytes "HTTP/1.1 405 Method Not Allowed\r\n"),
    (406, bytes "HTTP/1.1 406 Not Acceptable\r\n"),
    (407, bytes "HTTP/1.1 407 Proxy Authentication Required\r\n"),
    (408, bytes "HTTP/1.1 408 Request Timeout\r\n"), (409, bytes "HTTP/1.1 409 Conflict\r\n"),
    (410, bytes "HTTP/1.1 410 Gone\r\n"), (411, bytes "HTTP/1.1 411 Length Required\r\n"),
    (412, bytes "HTTP/1.1 412 Precondition Failed\r\n"),
    (413, bytes "HTTP/1.1 413 Request Entity Too Large\r\n"),
    (414, bytes "HTTP/1.1 414 Request-URI Too Long\r\n"),
    (415, bytes "HTTP/1.1 415 Unsupported Media Type\r\n"),
    (416, bytes "HTTP/1.1 416 Requested Range Not Satisfiable\r\n"),
    (500, bytes "HTTP/1.1 500 Internal Server Error\r\n"),
    (501, bytes "HTTP/1.1 501 Not Implemented\r\n"), (502, bytes "HTTP/1.1 502 Bad Gateway\r\n"),
    (503, bytes "HTTP/1.1 503 Service Unavailable\r\n"),
    (504, bytes "HTTP/1.1 504 Gateway Timeout\r\n"),
    (505, bytes "HTTP/1.1 505 HTTP Version Not Supported\r\n")]

/-! ## mk_header_prepare -/

/-- What `mk_header_prepare` reads besides the record: the date text of
`mk_utils_utime2gmt`, `mk_config->resume`, `cs->close_now`,
`sr->connection.len` and `sr->protocol`. -/
structure PrepareEnv where
  utime2gmt : Int → Bytes
  resume : Bool
  closeNow : Bool
  connectionLen : Int
  protocol : Protocol

/-- `mk_header_prepare` writes a `Last-Modified` row. -/
def ResponseHeaders.hasLastModified (sh : ResponseHeaders) : Prop := sh.lastModified > 0

/-- `mk_header_prepare` writes a `Content-Length` row. -/
def ResponseHeaders.hasContentLength (sh : ResponseHeaders) : Prop :=
  sh.contentLength ≥ 0 ∧ sh.transferEncoding ≠ 0

instance (sh : ResponseHeaders) : Decidable sh.hasLastModified :=
  inferInstanceAs (Decidable (_ > _))

instance (sh : ResponseHeaders) : Decidable sh.hasContentLength :=
  inferInstanceAs (Decidable (_ ∧ _))

/-- The shared buffers after `mk_header_prepare`. -/
def prepareShared (env : PrepareEnv) (sh : ResponseHeaders) (w : Shared) : Shared :=
  { w with
    lm := if sh.hasLastModified then overwrite w.lm (env.utime2gmt sh.lastModified) else w.lm
    cl := if sh.hasContentLength then (mkStringItop sh.contentLength.toNat w.cl).1 else w.cl }

/-- The entry `mk_iov_add(iov, data, len)` adds for a text. -/
def textEntry (bs : Bytes) : HeaderBuf × Nat := (.text bs, bs.length)

/-- The status line; `none` is the `mk_bug` on a status that is not listed. -/
def statusEntry (sh : ResponseHeaders) : Option (HeaderBuf × Nat) :=
  if sh.status = customStatusCode then some (textEntry sh.customStatus)
  else (statusResponse.find? fun r => r.1 = sh.status).map fun r => textEntry r.2

/-- `Last-Modified` -/
def lastModifiedEntries (env : PrepareEnv) (sh : ResponseHeaders) : List (HeaderBuf × Nat) :=
  if sh.hasLastModified then
    [textEntry (bytes "Last-Modified: "), (.lm, (env.utime2gmt sh.lastModified).length)]
  else []

/-- `Connection` -/
def connectionEntries (env : PrepareEnv) (sh : ResponseHeaders) : List (HeaderBuf × Nat) :=
  if sh.connection = 0 then
    if env.closeNow = false then
      if env.connectionLen > 0 ∧ env.protocol ≠ .v11 then
        [textEntry (bytes "Connection: Keep-Alive\r\n")]
      else []
    else [textEntry (bytes "Connection: Close\r\n")]
  else []

/-- `Location` -/
def locationEntries (sh : ResponseHeaders) : List (HeaderBuf × Nat) :=
  match sh.location with
  | some location => [textEntry (bytes "Location: "), textEntry location]
  | none => []

/-- `Allow` -/
def allowEntries (sh : ResponseHeaders) : List (HeaderBuf × Nat) :=
  if sh.allowMethods.length > 0 then [textEntry (bytes "Allow: "), textEntry sh.allowMethods]
  else []

/-- `Content-Type` -/
def contentTypeEntries (sh : ResponseHeaders) : List (HeaderBuf × Nat) :=
  if sh.contentType.length > 0 then [textEntry sh.contentType] else []

/-- `Transfer-Encoding` -/
def transferEncodingEntries (sh : ResponseHeaders) : List (HeaderBuf × Nat) :=
  if sh.transferEncoding = headerTeTypeChunked then
    [textEntry (bytes "Transfer-Encoding: Chunked\r\n")]
  else []

/-- `ETag` -/
def etagEntries (sh : ResponseHeaders) : List (HeaderBuf × Nat) :=
  if sh.etag.length > 0 then [textEntry sh.etag] else []

/-- `Content-Encoding` -/
def contentEncodingEntries (sh : ResponseHeaders) : List (HeaderBuf × Nat) :=
  if sh.contentEncoding.length > 0 then
    [textEntry (bytes "Content-Encoding: "), textEntry sh.contentEncoding]
  else []

/-- `Content-Length` -/
def contentLengthEntries (sh : ResponseHeaders) (w : Shared) : List (HeaderBuf × Nat) :=
  if sh.hasContentLength then
    [textEntry (bytes "Content-Length: "), (.cl, (mkStringItop sh.contentLength.toNat w.cl).2)]
  else []

/-- A `Content-Range` row. -/
def contentRange (first last total : Int) : Bytes :=
  bytes "Content-Range: bytes " ++ decimal first ++ bytes "-" ++ decimal last ++ bytes "/" ++
    decimal total ++ bytes "\r\n"

/-- `Content-Range` -/
def contentRangeEntries (env : PrepareEnv) (sh : ResponseHeaders) : List (HeaderBuf × Nat) :=
  let r := sh.ranges
  if (sh.contentLength ≠ 0 ∧ (r.1 ≥ 0 ∨ r.2 ≥ 0)) ∧ env.resume = true then
    (if r.1 ≥ 0 ∧ r.2 = -1 then
      [textEntry (contentRange r.1 (sh.realLength - 1) sh.realLength)] else []) ++
    (if r.1 ≥ 0 ∧ r.2 ≥ 0 then [textEntry (contentRange r.1 r.2 sh.realLength)] else []) ++
    (if r.1 = -1 ∧ r.2 > 0 then
      [textEntry (contentRange (sh.realLength - r.2) (sh.realLength - 1) sh.realLength)] else [])
  else []

/-- The blank line is written by the server, not by a script. -/
def ResponseHeaders.breaks (sh : ResponseHeaders) : Prop :=
  sh.cgi = shNocgi ∨ sh.breakline = headerBreakline

instance (sh : ResponseHeaders) : Decidable sh.breaks := inferInstanceAs (Decidable (_ ∨ _))

/-- `mk_iov_crlf` -/
def crlf : Bytes := bytes "\r\n"

/-- The `mk_iov_add` calls for the iov of the request, behind the status line. -/
def headerEntries (env : PrepareEnv) (sh : ResponseHeaders) (w : Shared) :
    List (HeaderBuf × Nat) :=
  [(.preset w.current, w.presetLen)] ++ lastModifiedEntries env sh ++ connectionEntries env sh ++
    locationEntries sh ++ allowEntries sh ++ contentTypeEntries sh ++
    transferEncodingEntries sh ++ etagEntries sh ++ contentEncodingEntries sh ++
    contentLengthEntries sh w ++ contentRangeEntries env sh ++
    (if sh.breaks ∧ sh.extraRows = none then [textEntry crlf] else [])

/-- A list of `mk_iov_add` calls. -/
def addEntries (iov : MkIov HeaderBuf) (es : List (HeaderBuf × Nat)) : MkIov HeaderBuf :=
  es.foldl (fun iov e => mkIovAdd iov e.1 0 e.2) iov

/-- The iov of the extra rows, with the blank line when there is one. -/
def prepareExtraRows (sh : ResponseHeaders) : Option (MkIov HeaderBuf) :=
  sh.extraRows.map fun rows => if sh.breaks then addEntries rows [textEntry crlf] else rows

/-- `mk_plugin_header_add` -/
def mkPluginHeaderAdd (sh : ResponseHeaders) (row : Bytes) : ResponseHeaders :=
  let rows := sh.extraRows.getD (mkIovInit .null 36 0)
  { sh with extraRows := some (addEntries rows [textEntry row, textEntry crlf]) }

/-- The streams of a request, by their place in the record. -/
def headersStream : Nat := 0
def headersExtraStream : Nat := 1
def fileStream : Nat := 2

/-- `mk_header_prepare`: the shared buffers, the record and the channel after
it. -/
def mkHeaderPrepare (env : PrepareEnv) (w : Shared) (sh : ResponseHeaders)
    (channel : MkChannel HeaderBuf) :
    Option (Shared × ResponseHeaders × MkChannel HeaderBuf) :=
  (statusEntry sh).map fun status =>
    let w' := prepareShared env sh w
    let iov := addEntries sh.headersIov (status :: headerEntries env sh w)
    let extra := prepareExtraRows sh
    let channel := mkStreamSet w'.mem channel headersStream 0 .iov (.iov iov) 0 true false
    let channel := match extra with
      | some rows => mkStreamSet w'.mem channel headersExtraStream 0 .iov (.iov rows) 0 true false
      | none => channel
    (w', { sh with headersIov := iov, extraRows := extra, sent := true }, channel)

/-- The bytes one `mk_header_prepare` adds to a response; `none` is its `mk_bug`. -/
def headerBlock (env : PrepareEnv) (w : Shared) (sh : ResponseHeaders) : Option Bytes :=
  (statusEntry sh).map fun status =>
    let mem := (prepareShared env sh w).mem
    ((status :: headerEntries env sh w).flatMap fun e => mem.read e.1 0 e.2) ++
      match prepareExtraRows sh with
      | some rows => rows.bytes mem
      | none => []

end SuperExe.Http
