import SuperExe.Core.CString
import Mathlib.Data.Fintype.Basic

/-! # Requests and the parser context

The data types of `include/monkey/mk_http_parser.h` and the part of
`struct mk_http_request` (`include/monkey/mk_http_internal.h`) that the parser
and the request set-up read and write. A pointer into the receive buffer is an
offset.
-/

namespace SuperExe.Http

open SuperExe.Core

/-! ## Enumerations -/

/-- `MK_HTTP_PARSER_*` -/
inductive ParserRet where
  | pending
  | error
  | ok
deriving DecidableEq, Repr

/-- `REQ_LEVEL_*` -/
inductive Level where
  | first
  | cont
  | headers
  | end_
  | body
deriving DecidableEq, Repr

/-- `MK_ST_*` -/
inductive Status where
  | reqMethod
  | reqUri
  | reqQueryString
  | reqProtVersion
  | firstContinue
  | firstFinalizing
  | headerKey
  | headerValStarts
  | headerValue
  | headerEnd
  | blockEnd
deriving DecidableEq, Repr

/-- `MK_METHOD_*` -/
inductive Method where
  | get
  | post
  | head
  | put
  | delete
  | options
  | unknown
deriving DecidableEq, Repr

/-- `MK_HTTP_PROTOCOL_*`, those a request line can lead to. -/
inductive Protocol where
  | unknown
  | v10
  | v11
deriving DecidableEq, Repr

/-- `MK_HTTP_PARSER_CONN_*` -/
inductive ConnHeader where
  | empty
  | unknown
  | ka
  | close
  | upgrade
deriving DecidableEq, Repr

/-! ## HTTP status codes the request path raises -/

/-- `MK_CLIENT_BAD_REQUEST` -/
def clientBadRequest : Int := 400
/-- `MK_CLIENT_LENGTH_REQUIRED` -/
def clientLengthRequired : Int := 411
/-- `MK_CLIENT_REQUEST_ENTITY_TOO_LARGE` -/
def clientRequestEntityTooLarge : Int := 413
/-- `MK_SERVER_HTTP_VERSION_UNSUP` -/
def serverHttpVersionUnsup : Int := 505

/-! ## Tables -/

/-- `MK_HEADER_SIZEOF` -/
abbrev headerSizeof : Nat := 19

/-- `MK_HEADER_EXTRA_SIZE` -/
def headerExtraSize : Nat := 8

/-- `mk_methods_table` -/
def methodsTable : List (Method × Bytes) :=
  [(.get, bytes "GET"), (.post, bytes "POST"), (.head, bytes "HEAD"), (.put, bytes "PUT"),
    (.delete, bytes "DELETE"), (.options, bytes "OPTIONS")]

/-- `mk_headers_table` -/
def headersTable : List Bytes :=
  [bytes "accept", bytes "accept-charset", bytes "accept-encoding", bytes "accept-language",
    bytes "authorization", bytes "cache-control", bytes "cookie", bytes "connection",
    bytes "content-length", bytes "content-range", bytes "content-type", bytes "host",
    bytes "if-modified-since", bytes "last-modified", bytes "last-modified-since",
    bytes "range", bytes "referer", bytes "upgrade", bytes "user-agent"]

/-- `enum mk_request_headers`, the rows of `mk_headers_table`. -/
abbrev HeaderName := Fin headerSizeof

namespace HeaderName

def accept : HeaderName := 0
def authorization : HeaderName := 4
def cacheControl : HeaderName := 5
def connection : HeaderName := 7
def contentLength : HeaderName := 8
def contentType : HeaderName := 10
def host : HeaderName := 11
def ifModifiedSince : HeaderName := 12
def lastModified : HeaderName := 13
def lastModifiedSince : HeaderName := 14
def range : HeaderName := 15
def referer : HeaderName := 16
def upgrade : HeaderName := 17
def userAgent : HeaderName := 18

end HeaderName

/-! ## Records -/

/-- `mk_ptr_t` into the receive buffer: an offset, or `NULL`. -/
structure MkPtr where
  data : Option Nat
  len : Int
deriving DecidableEq, Repr

/-- `{ NULL, 0 }` -/
def MkPtr.null : MkPtr := { data := none, len := 0 }

/-- `struct mk_http_header` -/
structure HttpHeader where
  type : Int
  key : MkPtr
  val : MkPtr
deriving DecidableEq, Repr

/-- A node of `header_list`: a row of `headers` or of `headers_extra`. -/
inductive HeaderRef where
  | known (name : HeaderName)
  | extra (idx : Nat)
deriving DecidableEq, Repr

/-- `struct mk_http_parser`. `headersExtra` holds the `headers_extra_count`
first entries of `headers_extra`; `headerList` lists the `mk_list_add` calls in
order. -/
structure Parser where
  i : Nat
  level : Level
  status : Status
  method : Option Method
  start : Nat
  end_ : Nat
  chars : Int
  headerHostPort : Int
  bodyReceived : Int
  headerContentLength : Int
  headerConnection : ConnHeader
  headerKey : Int
  headerSep : Int
  headerVal : Int
  headerMin : Int
  headerMax : Int
  headers : HeaderName → HttpHeader
  headerCount : Nat
  headerList : List HeaderRef
  headersExtra : List HttpHeader

/-- What the parser writes into `struct mk_http_request`. -/
structure ParsedRequest where
  method : Method
  methodP : MkPtr
  uri : MkPtr
  queryString : MkPtr
  protocol : Protocol
  protocolP : MkPtr
  data : MkPtr
deriving DecidableEq, Repr

end SuperExe.Http
