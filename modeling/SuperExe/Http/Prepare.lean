import SuperExe.Http.Request
import SuperExe.Lib.Chunked

/-! # mk_http_request_prepare

The decisions of `mk_http_request_prepare` and `mk_http_init`
(`mk_server/mk_http.c`), with `mk_utils_url_decode`, the range functions, the
directory redirect, the index look-up and the plugins' stage 30, as lists of
`Act`s.
-/

namespace SuperExe.Http

open SuperExe.Core SuperExe.Vhost

/-- An accepted request: the parser's results and the receive buffer. -/
structure Incoming where
  req : ParsedRequest
  p : Parser
  buffer : Nat → UInt8
  /-- `cs->counter_connections` -/
  counter : Nat

/-- The bytes a slice covers. -/
def Incoming.slice (r : Incoming) (p : MkPtr) : Bytes :=
  match p.data with
  | some off => (List.range p.len.toNat).map fun k => r.buffer (off + k)
  | none => []

/-! ## mk_utils_url_decode -/

def hexDigit (c : UInt8) : Option Nat :=
  if 97 ≤ c ∧ c ≤ 102 then some (c.toNat - 0x57)
  else if 65 ≤ c ∧ c ≤ 70 then some (c.toNat - 0x37)
  else if 48 ≤ c ∧ c ≤ 57 then some (c.toNat - 0x30)
  else none

/-- `mk_utils_hex2int` on two bytes; a NUL ends the number. -/
def mkUtilsHex2int (a b : UInt8) : Option Nat :=
  if a = 0 then some 0
  else
    (hexDigit a).bind fun x =>
      if b = 0 then some x else (hexDigit b).map fun y => x * 16 + y

/-- The loop of `mk_utils_url_decode`. -/
def urlDecodeFrom : Bytes → Option Bytes
  | c :: a :: b :: rest =>
    if c = 37 then
      match mkUtilsHex2int a b with
      | some v => (urlDecodeFrom rest).map (UInt8.ofNat v :: ·)
      | none => none
    else (urlDecodeFrom (a :: b :: rest)).map (c :: ·)
  | cs => some cs

/-- `mk_utils_url_decode`: `NULL` when there is nothing to decode or a bad
escape. -/
def mkUtilsUrlDecode (uri : Bytes) : Option Bytes :=
  if 37 ∈ uri then urlDecodeFrom uri else none

/-- `uri_processed` -/
def uriProcessed (uri : Bytes) : Bytes :=
  match mkUtilsUrlDecode uri with
  | some temp => cString temp
  | none => uri

/-! ## Headers of the request -/

/-- `mk_http_point_header` -/
def mkHttpPointHeader (p : Parser) (key : HeaderName) : MkPtr :=
  if (p.headers key).type = key then (p.headers key).val else { data := none, len := -1 }

/-- `mk_http_keepalive_check`, given whether there is a `Connection` header. -/
def mkHttpKeepaliveCheck (k : World) (r : Incoming) (connection : MkPtr) : List Act :=
  if k.keepAlive = false then []
  else
    (match r.req.protocol with
      | .v10 => [.closeNow true]
      | .v11 => [.closeNow false]
      | .unknown => []) ++
    (if connection.data.isSome then
      match r.p.headerConnection with
      | .ka => [.closeNow false]
      | .close => [.closeNow true]
      | _ => []
    else []) ++
    (if (r.counter : Int) ≥ k.maxKeepAliveRequest then [.closeNow true] else [])

/-- `mk_vhost_get`: the virtual host and the alias of a name. -/
def mkVhostGet (hosts : List Host) (name : Bytes) : Option (Host × Bytes) :=
  hosts.findSome? fun h => (h.serverNames.find? fun a => a = name).map fun a => (h, a)

/-! ## Ranges -/

/-- `atol` of a text. -/
def atol (bs : Bytes) : Int := (strtol (cstr bs) bs.length 0).val

/-- `strncasecmp(a, b, n) == 0` -/
def strncasecmpEq (a b : Nat → UInt8) (n : Nat) : Bool :=
  strncmpEq (fun i => tolower (a i)) (fun i => tolower (b i)) n

/-- `mk_http_range_parse`: `ranges` and `content_length` after it, or `-1`.
`tail` is what stands in memory behind the value of the header. -/
def mkHttpRangeParse (range tail : Bytes) (contentLength : Int) : Option ((Int × Int) × Int) :=
  match range.findIdx? (· = 61), range.findIdx? (· = 45) with
  | some eqPos, some sepPos =>
    if strncasecmpEq (cstr range) (cstr (bytes "Bytes")) eqPos = false then none
    else if eqPos + 1 = sepPos then
      -- =-xxx: the number is read from the buffer, not from a copy
      let last := toInt32 (atol ((range ++ tail).drop (sepPos + 1)))
      if last ≤ 0 then none else some ((-1, last), last)
    else if range.length > sepPos + 1 then
      -- =xxx-yyy
      let first := toInt32 (atol ((range.take sepPos).drop (eqPos + 1)))
      let last := toInt32 (atol (range.drop (sepPos + 1)))
      if last < 0 ∨ first > last then none
      else some ((first, last), toInt32 ((toInt32 (last - first)).natAbs + 1))
    else if range.length = sepPos + 1 then
      -- =xxx-
      let first := toInt32 (atol (range.drop (eqPos + 1)))
      some ((first, -1), contentLength - first)
    else none
  | _, _ => none

/-- `mk_http_range_set`: `bytes_offset` and `bytes_total`, or `-1`. -/
def mkHttpRangeSet (ranges : Int × Int) (fileSize : Int) : Option (Int × Int) :=
  let r :=
    if ranges.1 ≥ 0 ∧ ranges.2 = -1 then (ranges.1, fileSize - ranges.1)
    else if ranges.1 ≥ 0 ∧ ranges.2 ≥ 0 then (ranges.1, ((toInt32 (ranges.2 - ranges.1)).natAbs : Int) + 1)
    else if ranges.1 = -1 ∧ ranges.2 > 0 then (fileSize - ranges.2, ranges.2)
    else (0, fileSize)
  -- a negative offset is a huge `size_t`
  if r.1 < 0 ∨ r.1 ≥ fileSize ∨ r.2 > fileSize then none else some r

/-! ## Plugins -/

/-- `MK_PLUGIN_RET_*` -/
inductive PluginRet where
  | notMe
  | continue_
  | end_
  | closeConx
deriving DecidableEq, Repr

/-- What a plugin does to the request and what it returns. The headers `cgi` and
`fastcgi` send later are the last acts of their lists. -/
def PluginAnswer.acts (protocol : Protocol) : PluginAnswer → List Act × PluginRet
  | .notMe => ([], .notMe)
  | .auth row => ([.contentLength 0, .status 401, .headerAdd row, .headerPrepare], .end_)
  | .mandril => ([.status 403], .closeConx)
  | .cgiFailed status => ([.status status], .closeConx)
  | .cgi mimetype status =>
    ((match mimetype with
        | some mime => [.contentTypeP mime]
        | none => []) ++
      (if protocol = .v11 then [.transferEncoding headerTeTypeChunked] else []) ++
      [.status 200, .cgi shCgi] ++
      (match status with
        | some n => [.status n]
        | none => []) ++ [.headerPrepare], .continue_)
  | .fastcgi status =>
    ([.cgi shCgi, .status status] ++
      (if protocol = .v11 then [.transferEncoding headerTeTypeChunked] else []) ++
      [.headerPrepare], .continue_)
  | .listing mime =>
    ([.status 200, .cgi shCgi, .breakline headerBreakline, .contentType mime, .contentLength (-1)] ++
      (if protocol = .v11 then [.transferEncoding headerTeTypeChunked] else []) ++
      [.headerPrepare], .end_)
  | .listingFailed => ([], .closeConx)

/-- The status a plugin has set when it asks to close the connection. -/
def PluginAnswer.closeStatus : PluginAnswer → Int
  | .mandril => 403
  | .cgiFailed status => status
  | _ => 0

/-! ## mk_http_init -/

/-- What `mk_http_request_prepare` has found out when it calls `mk_http_init`. -/
structure Found where
  uri : Bytes
  host : Host
  /-- the path of a `/~user` request -/
  home : Option Bytes
  port : Int

/-- The text of `sr->uri`, for error pages. -/
def Incoming.uriText (r : Incoming) : Bytes := r.slice r.req.uri

/-- `mk_http_directory_redirect_check`, for a URI that does not end in a slash.
Without a `Host` header `mk_ptr_to_buf` copies `(size_t) -1` bytes from `NULL`. -/
def mkHttpDirectoryRedirect (k : World) (r : Incoming) (f : Found) : List Act :=
  let host := mkHttpPointHeader r.p .host
  match host.data with
  | none => [.crash]
  | some _ =>
    let portRedirect := if f.port > 0 ∧ f.port ≠ k.standardPort then f.port else 0
    let location :=
      (if k.ssl then bytes "https" else bytes "http") ++ bytes "://" ++ cString (r.slice host) ++
        (if portRedirect > 0 then bytes ":" ++ decimal portRedirect else []) ++
        cString (f.uri ++ [47]) ++ bytes "\r\n"
    [.status 301, .contentLength 0, .contentType [], .location (some location), .cgi shNocgi,
      .pconnectionsLeft (k.maxKeepAliveRequest - r.counter), .headerPrepare, .location none]

/-- `mk_http_index_lookup` -/
def mkHttpIndexLookup (k : World) (path : Bytes) : Option Bytes :=
  match k.indexFiles with
  | none => none
  | some files =>
    (files.find? fun entry => path.length + entry.length + 1 < 1024 ∧
      k.access (cString (path ++ entry)) = true).map fun entry => path ++ entry

/-- A number in hexadecimal. -/
def hexText (n : Nat) : Bytes := bytes (String.ofList (Nat.toDigits 16 n))

theorem hexDigitValue_digitChar :
    ∀ d < 16, Lib.hexDigitValue (UInt8.ofNat (Nat.digitChar d).toNat) = some d := by
  decide

/-- The text of a number is read back as the number. -/
theorem isHex_hexText (n : Nat) : Lib.IsHex (hexText n) n := by
  have htext : ∀ n, hexText n = (Nat.toDigits 16 n).map fun c => UInt8.ofNat c.toNat := by
    intro n
    rw [hexText, bytes, String.toList_ofList]
  constructor
  · rw [htext]
    exact fun h => Nat.toDigits_ne_nil (List.map_eq_nil_iff.mp h)
  · induction n using Nat.strongRecOn with
    | ind n ih =>
      by_cases hlt : n < 16
      · rw [htext, Nat.toDigits_of_lt_base hlt, List.map_singleton, Lib.hexNumber,
          hexDigitValue_digitChar n hlt]
        simp [Lib.hexNumber]
      · rw [htext, Nat.toDigits_of_base_le (by decide) (by omega), List.map_append,
          Lib.hexNumber_append, ← htext, ih (n / 16) (by omega)]
        simp only [Option.bind_some, List.map_singleton, Lib.hexNumber,
          hexDigitValue_digitChar (n % 16) (by omega), Option.some.injEq]
        omega

/-- The `ETag` row of a file. -/
def etagText (info : FileInfo) : Bytes :=
  bytes "ETag: \"" ++ hexText (info.lastModification % 2 ^ 32).toNat ++ bytes "-" ++
    hexText info.size.toNat ++ bytes "\"\r\n"

/-- The `HTTP Ranges` part of `mk_http_init`, and `content_length` behind it
unless an error was sent. -/
def rangeActs (k : World) (r : Incoming) (f : Found) (info : FileInfo) (fd : Int) :
    List Act × Option Int :=
  let err := mkHttpError k f.host r.req.method r.uriText
  let range := mkHttpPointHeader r.p .range
  if range.data.isSome ∧ k.resume = true then
    let tail := (List.range 32).map fun j => r.buffer ((range.data.getD 0) + range.len.toNat + j)
    match mkHttpRangeParse (r.slice range) tail info.size with
    -- the file is open already, and neither error path closes it
    | none => ([.ranges (-1) (-1)] ++ err clientBadRequest, none)
    | some (ranges, length) =>
      let parsed := [Act.ranges ranges.1 ranges.2, .contentLength length] ++
        (if ranges.1 ≥ 0 ∨ ranges.2 ≥ 0 then [.status 206] else [])
      match mkHttpRangeSet ranges info.size with
      | none => (parsed ++ [.contentLength (-1), .ranges (-1) (-1)] ++ err 416, none)
      | some (off, total) =>
        (parsed ++ [.fileStream { fd := fd, bytesTotal := total, bytesOffset := off,
                                  preserve := false }], some length)
  else ([], some info.size)

/-- The end of `mk_http_init`: the file is opened and sent. -/
def sendFileActs (k : World) (r : Incoming) (f : Found) (path : Bytes) (info : FileInfo) :
    List Act :=
  let err := mkHttpError k f.host r.req.method r.uriText
  let fd := k.vhostOpen path
  [.contentLength info.size, .realLength info.size] ++
  if fd = -1 then
    .fileStream { fd := -1, bytesTotal := -1, bytesOffset := 0, preserve := false } ::
      err 403
  else
    .fileStream { fd := fd, bytesTotal := info.size, bytesOffset := 0, preserve := false } ::
    if r.req.method = .get ∨ r.req.method = .head then
      let ranges := rangeActs k r f info fd
      .contentType ((k.mimetypeFind path).getD k.mimetypeDefault) :: ranges.1 ++
        match ranges.2 with
        | some length =>
          .headerPrepare :: if length ≠ 0 ∧ r.req.method = .get then [.queueFile] else []
        | none => []
    else
      [.contentType [], .headerPrepare] ++
        if info.size ≠ 0 ∧ r.req.method = .post then [.queueFile] else []

/-- `mk_http_init` behind the stage 30 handlers, for an existing file. -/
def serveFileActs (k : World) (r : Incoming) (f : Found) (path : Bytes) (info : FileInfo) :
    List Act :=
  let err := mkHttpError k f.host r.req.method r.uriText
  if info.isLink ∧ (k.symlink = false ∨ k.readlink path = false) then err 403
  else if r.req.method = .put ∨ r.req.method = .delete then err 405
  else if r.req.method = .unknown then err 501
  else
    [.pconnectionsLeft (k.maxKeepAliveRequest - r.counter), .status 200, .location none,
      .contentLength 0] ++
    if r.req.method = .options then [.contentType [], .headerPrepare]
    else
      .allowMethodsReset ::
      if info.readAccess = false then err 403
      else if info.isDirectory then err 403
      else if info.size = 0 then err 404
      else
        [.lastModified info.lastModification, .etag (etagText info)] ++
        let since := mkHttpPointHeader r.p .ifModifiedSince
        let date := k.gmt2utime (r.slice since)
        -- a file that has not changed since the date is not sent
        if since.data.isSome ∧ r.req.method = .get ∧ info.lastModification ≤ date ∧ date > 0 then
          [.status 304, .headerPrepare]
        else sendFileActs k r f path info

/-- The stage 30 loop, and whether a plugin took the request. -/
def stage30Acts (k : World) (r : Incoming) (f : Found) : List Handler → List Act × Bool
  | [] => ([], false)
  | h :: hs =>
    if h.regexec (cString f.uri) then
      let ans := k.stage30 h.plugin
      let acts := .stage30Handler h.plugin :: (ans.acts r.req.protocol).1
      match (ans.acts r.req.protocol).2 with
      -- the first plugin that answers takes the request
      | .continue_ => (acts, true)
      | .end_ => (acts, true)
      | .closeConx =>
        (acts ++ mkHttpError k f.host r.req.method r.uriText
          (if ans.closeStatus > 0 then ans.closeStatus else 403), true)
      | .notMe =>
        let rest := stage30Acts k r f hs
        (acts ++ rest.1, rest.2)
    else stage30Acts k r f hs

/-- `mk_http_init` -/
def mkHttpInit (k : World) (r : Incoming) (f : Found) : List Act :=
  let err := mkHttpError k f.host r.req.method r.uriText
  let path := f.home.getD (f.host.documentroot ++ f.uri)
  .realPath path ::
  -- backward directory request
  if bytes ".." <:+: f.uri then err 403
  else if (mkHttpPointHeader r.p .contentLength).data.isSome ∧ r.req.method ≠ .post ∧
      r.req.method ≠ .put then err clientBadRequest
  else
    .fileInfo (k.fileStat (cString path)) ::
    let plugins := stage30Acts k r f f.host.handlers
    plugins.1 ++
    if plugins.2 then []
    else
      match k.fileStat (cString path) with
      | .found info =>
        if info.isDirectory then
          if f.uri.getLast? ≠ some 47 then mkHttpDirectoryRedirect k r f
          else
            match mkHttpIndexLookup k path with
            | some index =>
              [.realPath index, .fileInfo (k.fileStat (cString index))] ++
              match k.fileStat (cString index) with
              | .found info => serveFileActs k r f index info
              | _ => err 403
            | none => serveFileActs k r f path info
        else serveFileActs k r f path info
      | _ => err 404

/-! ## mk_http_request_prepare -/

/-- `mk_http_request_prepare` from the check for a user's home directory on. -/
def prepareHost (k : World) (r : Incoming) (f : Found) : List Act :=
  let err := mkHttpError k f.host r.req.method r.uriText
  let stage20 (f : Found) : List Act := if k.stage20Close then [] else mkHttpInit k r f
  match k.userDir with
  | some userDir =>
    if f.uri.length > 2 ∧ f.uri[1]? = some 126 then
      -- a decoded URI stands in a block of zeros
      let after := if (mkUtilsUrlDecode r.uriText).isSome then [0, 0] else
        (List.range 2).map fun j => r.buffer ((r.req.uri.data.getD 0) + r.req.uri.len.toNat + j)
      match mkUserInit k.getpwnam userDir f.uri after with
      | .refused => err 404
      -- `mk_user_init` has already sent the error, its caller sends it again
      | .unknownUser => err 404 ++ err 404
      | .home path => [.realPath path, .userHome true] ++ stage20 { f with home := some path }
    else stage20 f
  | none => stage20 f

/-- `mk_http_request_prepare` -/
def mkHttpRequestPrepare (k : World) (r : Incoming) : List Act :=
  let err := mkHttpError k k.defaultHost r.req.method r.uriText
  let uri := uriProcessed r.uriText
  let host := mkHttpPointHeader r.p .host
  let connection := mkHttpPointHeader r.p .connection
  let contentLength := mkHttpPointHeader r.p .contentLength
  [.uriProcessed uri, .hostConf k.defaultHost, .userHome false] ++
  if uri.head? ≠ some 47 then err clientBadRequest
  else
    [.host host, .connection connection, .range (mkHttpPointHeader r.p .range),
      .ifModifiedSince (mkHttpPointHeader r.p .ifModifiedSince)] ++
    -- `Host` is required from HTTP/1.1 on
    if host.data = none ∧ r.req.protocol = .v11 then err clientBadRequest
    else
      mkHttpKeepaliveCheck k r connection ++
      [if contentLength.data.isSome then .contentLengthP contentLength else .contentLengthPNull,
        .hostAlias k.defaultHost.serverNames.head?] ++
      match host.data with
      | none => prepareHost k r { uri := uri, host := k.defaultHost, home := none, port := 0 }
      | some _ =>
        let port := if r.p.headerHostPort > 0 then r.p.headerHostPort else 0
        let found := mkVhostGet k.hosts (r.slice host)
        let h := (found.map Prod.fst).getD k.defaultHost
        (if r.p.headerHostPort > 0 then [.port r.p.headerHostPort] else []) ++
        (match found with
          | some (h, name) => [.hostConf h, .hostAlias (some name)]
          | none => []) ++
        match h.headerRedirect with
        | some target =>
          [.status 301, .location (some target), .contentLength 0, .location none, .headerPrepare]
        | none => prepareHost k r { uri := uri, host := h, home := none, port := port }

end SuperExe.Http
