import SuperExe.Core.Iov

/-! # Channels and streams

Model of `mk_server/mk_stream.c` and `include/monkey/mk_stream.h`. A channel is
the output queue of a connection; a stream is one source of bytes in it: an iov,
a private copy of a buffer, or an open file. `mkChannelWrite` makes one attempt
to write from the first stream. What the network layer answers is an argument;
callbacks are recorded as notices.
-/

namespace SuperExe.Stream

open SuperExe.Core

/-- `MK_STREAM_*` -/
inductive StreamType where
  | raw
  | iov
  | file
  | socket
  | copybuf
  | eof
deriving DecidableEq, Repr

/-- What `mk_channel_write` returns: `MK_CHANNEL_*`. -/
inductive ChannelRet where
  | done
  | error
  | flush
  | empty
  | busy
  | unknown
deriving DecidableEq, Repr

/-- The `buffer` of a stream: a referenced iov, or the block a copy buffer
owns. -/
inductive Buffer (β : Type) where
  | null
  | iov (iov : MkIov β)
  | block (data : List UInt8)

/-- `struct mk_stream`. `id` stands for its address. -/
structure MkStream (β : Type) where
  id : Nat
  type : StreamType
  fd : Int
  preserve : Bool
  bytesTotal : Nat
  bytesOffset : Nat
  buffer : Buffer β
  cbFinished : Bool
  cbBytesConsumed : Bool

/-- `MK_CHANNEL_SOCKET` -/
def mkChannelSocket : Nat := 0

/-- `struct mk_channel` -/
structure MkChannel (β : Type) where
  type : Nat
  streams : List (MkStream β)

/-- An answer of the network layer to one write: bytes sent, `EAGAIN`, or
another error. -/
inductive NetAnswer where
  | sent (k : Nat)
  | again
  | failed
deriving DecidableEq, Repr

/-- A callback of stream `id`. -/
inductive Notice where
  | bytesConsumed (id : Nat) (bytes : Nat)
  | finished (id : Nat)
deriving DecidableEq, Repr

/-- What a write leaves behind: the channel, the return code, `*count` when it
was set, the bytes on the wire and the callbacks called. -/
structure WriteResult (β : Type) where
  channel : MkChannel β
  ret : ChannelRet
  count : Option Nat
  wire : List UInt8
  notices : List Notice

variable {β : Type}

/-! ## Setting up -/

/-- `mk_channel_new` -/
def mkChannelNew (type : Nat) : MkChannel β := { type := type, streams := [] }

/-- The `buffer` argument of `mk_stream_set`. -/
inductive Source (β : Type) where
  | iov (iov : MkIov β)
  | pointer (base : β) (off : Nat)
  | none

/-- `mk_stream_set` on the stream `id`, whose `fd` the caller sets. -/
def mkStreamSet (mem : Memory β) (channel : MkChannel β) (id : Nat) (fd : Int) (type : StreamType)
    (buffer : Source β) (size : Nat) (cbFinished cbBytesConsumed : Bool) : MkChannel β :=
  let stream : MkStream β :=
    { id := id, type := type, fd := fd, preserve := false, bytesTotal := size, bytesOffset := 0,
      buffer := .null, cbFinished := cbFinished, cbBytesConsumed := cbBytesConsumed }
  let stream := match type, buffer with
    | .iov, .iov iov => { stream with buffer := .iov iov, bytesTotal := iov.totalLen }
    | .copybuf, .pointer base off => { stream with buffer := .block (mem.read base off size) }
    | _, _ => stream
  { channel with streams := channel.streams ++ [stream] }

/-! ## Writing -/

/-- The bytes the network layer is asked to send for a stream. `files` is the
content of the open descriptors. -/
def MkStream.pending (mem : Memory β) (files : Memory Int) (stream : MkStream β) : List UInt8 :=
  match stream.type, stream.buffer with
  | .file, _ => files.read stream.fd stream.bytesOffset stream.bytesTotal
  | .iov, .iov iov => iov.bytes mem
  | .copybuf, .block data => data.take stream.bytesTotal
  | _, _ => []

/-- `mk_copybuf_consume`: `memmove` shifts the rest to the front of the block. -/
def mkCopybufConsume (stream : MkStream β) (bytes : Nat) : MkStream β :=
  if bytes = stream.bytesTotal then { stream with buffer := .null }
  else
    match stream.buffer with
    | .block data =>
      let rest := stream.bytesTotal - bytes
      { stream with buffer := .block ((data.drop bytes).take rest ++ data.drop rest) }
    | _ => stream

/-- `mk_stream_bytes_consumed` -/
def mkStreamBytesConsumed (stream : MkStream β) (bytes : Nat) : MkStream β :=
  { stream with bytesTotal := stream.bytesTotal - bytes }

/-- The type-specific adjustment after `bytes > 0` were written: `sendfile`
moves the offset, an iov and a copy buffer are consumed. -/
def consumeSource (stream : MkStream β) (bytes : Nat) : MkStream β :=
  match stream.type, stream.buffer with
  | .file, _ => { stream with bytesOffset := stream.bytesOffset + bytes }
  | .iov, .iov iov => { stream with buffer := .iov (mkIovConsume iov bytes) }
  | .copybuf, _ => mkCopybufConsume stream bytes
  | _, _ => stream

/-- Writing changes the counters and the buffer of a stream. -/
theorem consumed_stream (stream : MkStream β) (bytes : Nat) :
    let s := mkStreamBytesConsumed (consumeSource stream bytes) bytes
    s.preserve = stream.preserve ∧ s.type = stream.type ∧
      s.bytesTotal = stream.bytesTotal - bytes := by
  simp only [mkStreamBytesConsumed]
  unfold consumeSource mkCopybufConsume
  repeat' split
  all_goals exact ⟨rfl, rfl, rfl⟩

/-- `mk_stream_release` on the first stream of the channel. -/
def mkStreamRelease (channel : MkChannel β) (stream : MkStream β) (rest : List (MkStream β)) :
    MkChannel β :=
  { channel with streams := if stream.preserve = false then rest else stream :: rest }

/-- `mk_channel_write` after the network layer took `bytes > 0`. -/
def channelWritten (mem : Memory β) (files : Memory Int) (channel : MkChannel β)
    (stream : MkStream β) (rest : List (MkStream β)) (bytes : Nat) : WriteResult β :=
  let stream' := mkStreamBytesConsumed (consumeSource stream bytes) bytes
  let consumed := if stream.cbBytesConsumed then [Notice.bytesConsumed stream.id bytes] else []
  let finished := stream'.bytesTotal = 0
  let channel' := if finished then mkStreamRelease channel stream' rest
    else { channel with streams := stream' :: rest }
  { channel := channel'
    ret := if channel'.streams.isEmpty then .done else .flush
    count := some bytes
    wire := (stream.pending mem files).take bytes
    notices := consumed ++
      if finished ∧ stream.cbFinished = true then [.finished stream.id] else [] }

/-- `mk_channel_write` -/
def mkChannelWrite (mem : Memory β) (files : Memory Int) (channel : MkChannel β)
    (ans : NetAnswer) : WriteResult β :=
  let failed (streams : MkChannel β) (ret : ChannelRet) : WriteResult β :=
    { channel := streams, ret := ret, count := none, wire := [], notices := [] }
  match channel.streams with
  | [] => failed channel .empty
  | stream :: rest =>
    if channel.type ≠ mkChannelSocket then failed channel .unknown
    else
      match stream.type with
      | .eof =>
        { failed channel .done with
          notices := if stream.cbFinished then [.finished stream.id] else [] }
      | .raw | .socket =>
        -- no branch writes them: `bytes` is still `-1` and `errno` is `0`
        failed (mkStreamRelease channel stream rest) .error
      | .file | .iov | .copybuf =>
        match ans with
        | .sent 0 => failed (mkStreamRelease channel stream rest) .error
        | .sent (k + 1) => channelWritten mem files channel stream rest (k + 1)
        | .again => failed channel .busy
        | .failed => failed (mkStreamRelease channel stream rest) .error

end SuperExe.Stream
