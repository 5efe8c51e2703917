import SuperExe.Stream.Delivery
import SuperExe.Http.Prepare

/-! # The listing of the CARs

The page that `mk_dirhtml_init` (`plugins/ElastosSuperExe/SuperExeEntry.c`) puts
together: a header, a row for each entry of the table and a footer, each composed
from a template. The header is queued at once and every later piece by the
callback of a stream that has been sent; an HTTP/1.1 client gets each piece as a
chunk.

A buffer is named by the bytes in it: none of them changes while the page is
sent.
-/

namespace SuperExe.Plugins.Dirhtml

open SuperExe.Core SuperExe.Http SuperExe.Lib SuperExe.Stream

/-- The bytes of the buffers. -/
def textMemory : Memory Bytes := fun t i => t.getD i 0

/-- The page has no files. -/
def noFiles : Memory Int := fun _ _ => 0

/-! ## Templates -/

/-- `_tags_global` or `_tags_entry` -/
inductive Tags where
  | global
  | entry
deriving DecidableEq, Repr

/-- A node of a template: a text, or a tag to be replaced by its value. -/
inductive Template where
  | static (buf : Bytes)
  | dynamic (tags : Tags) (tagId : Nat)
deriving DecidableEq, Repr

/-- `struct dirhtml_value` -/
structure Value where
  tagId : Nat
  sep : Bytes
  value : Bytes
  tags : Tags

/-- The texts that a node adds to the iov. -/
def Template.parts (list : List Value) : Template → List Bytes
  | static buf => [buf]
  | dynamic tags tagId =>
    match list.find? fun v => v.tags = tags ∧ v.tagId = tagId with
    | some v => [v.value, v.sep]
    | none => []

def addText (iov : MkIov Bytes) (text : Bytes) : MkIov Bytes := mkIovAdd iov text 0 text.length

/-- `mk_dirhtml_theme_compose` -/
def themeCompose (template : List Template) (list : List Value) : MkIov Bytes :=
  template.foldl (fun iov tpl => (tpl.parts list).foldl addText iov)
    (mkIovInit [] (1 + template.length * 2) 1)

/-- `struct mk_f_list`, as far as a row shows it. -/
structure FList where
  name : Bytes
  ftModif : Bytes
  size : Bytes
  isDir : Bool

/-- What a page is made from. `title` is the URI, `toc` the sorted table. -/
structure Listing where
  tplHeader : List Template
  tplEntry : List Template
  tplFooter : List Template
  title : Bytes
  themePath : Bytes
  toc : List FList

namespace Listing

variable (L : Listing)

/-- The values of the header and the footer. -/
def globalValues : List Value :=
  [{ tagId := 0, sep := [], value := L.title, tags := .global },
    { tagId := 1, sep := [], value := L.themePath, tags := .global }]

/-- The values of a row. -/
def entryValues (e : FList) : List Value :=
  let sep := if e.isDir then bytes "/" else []
  [{ tagId := 0, sep := sep, value := e.name, tags := .entry },
    { tagId := 1, sep := sep, value := e.name, tags := .entry },
    { tagId := 2, sep := sep, value := e.name, tags := .entry },
    { tagId := 3, sep := [], value := e.ftModif, tags := .entry },
    { tagId := 4, sep := [], value := e.size, tags := .entry }]

def iovHeader : MkIov Bytes := themeCompose L.tplHeader L.globalValues

def iovFooter : MkIov Bytes := themeCompose L.tplFooter L.globalValues

/-- `enqueue_row` -/
def enqueueRow (e : FList) : MkIov Bytes := themeCompose L.tplEntry (entryValues e)

end Listing

/-! ## Streams -/

/-- The `on_finish` callback of a stream. -/
inductive Callback where
  | none
  | headerFinish
  | bodyRows
  | complete
deriving DecidableEq, Repr

/-- A page on its way. `callbacks` are those of the streams of the channel, in
their order, `count` is the number of streams set so far, `error` says that a
write has failed and `released` that `mk_dirhtml_cleanup` was called. -/
structure Page where
  chunked : Bool
  channel : MkChannel Bytes
  callbacks : List Callback
  count : Nat
  tocIdx : Nat
  wire : Bytes
  error : Bool
  released : Bool

/-- `stream_set` -/
def Page.streamSet (s : Page) (type : StreamType) (buffer : Source Bytes) (size : Nat)
    (cb : Callback) : Page :=
  { s with
    channel := mkStreamSet textMemory s.channel s.count 0 type buffer size (cb ≠ .none) false
    callbacks := s.callbacks ++ [cb]
    count := s.count + 1 }

/-- A stream of the type `MK_STREAM_IOV`. -/
def Page.setIov (s : Page) (iov : MkIov Bytes) (cb : Callback) : Page :=
  s.streamSet .iov (.iov iov) 0 cb

/-- A stream of the type `MK_STREAM_COPYBUF`. -/
def Page.setCopy (s : Page) (text : Bytes) (cb : Callback) : Page :=
  s.streamSet .copybuf (.pointer text 0) text.length cb

/-- The length in front of a chunk; it is cast to an `int`. -/
def chunkHead (iov : MkIov Bytes) : Bytes := hexText (iov.totalLen % 2 ^ 32) ++ bytes "\r\n"

section Callbacks

variable (L : Listing)

/-- `mk_dirhtml_cb_body_rows` -/
def cbBodyRows (s : Page) : Page :=
  match L.toc[s.tocIdx]? with
  | none =>
    if s.chunked then
      ((s.setCopy (chunkHead L.iovFooter) .none).setIov L.iovFooter .none).setCopy
        (bytes "\r\n0\r\n\r\n") .complete
    else s.setIov L.iovFooter .complete
  | some e =>
    let iovEntry := L.enqueueRow e
    let s :=
      if s.chunked then
        ((s.setCopy (chunkHead iovEntry) .none).setIov iovEntry .none).setCopy (bytes "\r\n")
          .bodyRows
      else s.setIov iovEntry .bodyRows
    { s with tocIdx := s.tocIdx + 1 }

/-- The call of a callback. -/
def Callback.call (s : Page) : Callback → Page
  | .none => s
  | .headerFinish => cbBodyRows L s
  | .bodyRows => cbBodyRows L s
  | .complete => { s with released := true }

/-- The request of a page, on a channel that holds the HTTP header. -/
def Page.new (chunked : Bool) (header : List (StreamSpec Bytes)) : Page where
  chunked := chunked
  channel := queued textMemory header
  callbacks := header.map fun _ => .none
  count := header.length
  tocIdx := 0
  wire := []
  error := false
  released := false

/-- `mk_dirhtml_init` -/
def dirhtmlInit (chunked : Bool) (header : List (StreamSpec Bytes)) : Page :=
  let s := Page.new chunked header
  if s.chunked then
    ((s.setCopy (chunkHead L.iovHeader) .none).setIov L.iovHeader .headerFinish).setCopy
      (bytes "\r\n") .none
  else s.setIov L.iovHeader .headerFinish

/-- `mk_channel_write`, with the callback of a stream that it finishes. -/
def Page.write (s : Page) (ans : NetAnswer) : Page :=
  let r := mkChannelWrite textMemory noFiles s.channel ans
  let s' : Page :=
    { s with
      channel := r.channel
      callbacks :=
        if r.channel.streams.length < s.channel.streams.length then s.callbacks.tail
        else s.callbacks
      wire := s.wire ++ r.wire
      error := s.error || decide (r.ret = .error) }
  if r.notices.filterMap Notice.finishedId = [] then s'
  else (s.callbacks.headD .none).call L s'

/-- A page that is written again and again. -/
def pageMachine : Machine Page NetAnswer where
  step := Page.write L

end Callbacks

end SuperExe.Plugins.Dirhtml
