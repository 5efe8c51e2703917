import SuperExe.Lib.Trace
import SuperExe.Stream.Channel

/-! # Channel delivery

A channel is filled with `mk_stream_set` and then written, one
`mk_channel_write` after another, with any answers of the network. The bytes
that leave are the contents of the streams in queue order: `channel_delivery`
says so after any number of calls, together with which streams are still
linked and which were reported as finished.

The two byte counters are kept apart on purpose. `bytes_total` of the stream is
exact; `total_len` of an iov is only an upper bound after a partial write, and
that is enough (`mkIovConsume_bytes`).
-/

namespace SuperExe.Stream

open SuperExe.Core SuperExe.Lib

variable {β : Type}

/-! ## What is queued -/

/-- A source `mk_stream_set` can be given: an iov whose `total_len` counts its
entries, a buffer to copy, an open file. -/
inductive SpecSource (β : Type) where
  | iov (iov : MkIov β) (ok : iov.Ok)
  | copybuf (base : β) (off size : Nat)
  | file (fd : Int) (size : Nat)

def SpecSource.len : SpecSource β → Nat
  | .iov v _ => v.len
  | .copybuf _ _ size => size
  | .file _ size => size

/-- A non-empty stream to be queued. -/
structure StreamSpec (β : Type) where
  id : Nat
  source : SpecSource β
  cbFinished : Bool
  cbBytesConsumed : Bool
  nonempty : 0 < source.len

/-- The content of a source at the time it is queued. -/
def SpecSource.bytes (mem : Memory β) (files : Memory Int) : SpecSource β → List UInt8
  | .iov v _ => v.bytes mem
  | .copybuf base off size => mem.read base off size
  | .file fd size => files.read fd 0 size

def StreamSpec.bytes (mem : Memory β) (files : Memory Int) (spec : StreamSpec β) : List UInt8 :=
  spec.source.bytes mem files

/-- Queue one stream. -/
def StreamSpec.set (mem : Memory β) (channel : MkChannel β) (spec : StreamSpec β) : MkChannel β :=
  match spec.source with
  | .iov iov _ =>
    mkStreamSet mem channel spec.id 0 .iov (.iov iov) 0 spec.cbFinished spec.cbBytesConsumed
  | .copybuf base off size =>
    mkStreamSet mem channel spec.id 0 .copybuf (.pointer base off) size spec.cbFinished
      spec.cbBytesConsumed
  | .file fd size =>
    mkStreamSet mem channel spec.id fd .file .none size spec.cbFinished spec.cbBytesConsumed

/-- A new channel with these streams queued. -/
def queued (mem : Memory β) (specs : List (StreamSpec β)) : MkChannel β :=
  specs.foldl (StreamSpec.set mem) (mkChannelNew mkChannelSocket)

/-! ## The machine -/

/-- The channel, what it has put on the wire so far and the streams whose
`cb_finished` was called. -/
structure Outlet (β : Type) where
  channel : MkChannel β
  wire : List UInt8
  finished : List Nat

def Notice.finishedId : Notice → Option Nat
  | .finished id => some id
  | .bytesConsumed _ _ => none

@[simp] theorem finishedId_finished (id : Nat) : (Notice.finished id).finishedId = some id := rfl

@[simp] theorem finishedId_bytesConsumed (id k : Nat) :
    (Notice.bytesConsumed id k).finishedId = none := rfl

/-- One `mk_channel_write`. -/
def writeMachine (mem : Memory β) (files : Memory Int) : Machine (Outlet β) NetAnswer where
  step o ans :=
    let r := mkChannelWrite mem files o.channel ans
    { channel := r.channel
      wire := o.wire ++ r.wire
      finished := o.finished ++ r.notices.filterMap Notice.finishedId }

def outlet (mem : Memory β) (specs : List (StreamSpec β)) : Outlet β :=
  { channel := queued mem specs, wire := [], finished := [] }

/-- The network takes at least one byte and at most what it is asked to, or
says `EAGAIN`. -/
def ValidAnswer (mem : Memory β) (files : Memory Int) (o : Outlet β) (ans : NetAnswer) : Prop :=
  match o.channel.streams with
  | [] => True
  | stream :: _ =>
    match ans with
    | .sent k => 0 < k ∧ k ≤ (stream.pending mem files).length
    | .again => True
    | .failed => False

/-- How many streams of these lengths the first `w` bytes cover completely. -/
def drained : List Nat → Nat → Nat
  | [], _ => 0
  | n :: ns, w => if n ≤ w then drained ns (w - n) + 1 else 0

/-! ## One stream -/

/-- What a linked stream keeps: its two counters agree with its source. -/
structure StreamOk (stream : MkStream β) : Prop where
  preserve : stream.preserve = false
  pos : 0 < stream.bytesTotal
  source : match stream.type, stream.buffer with
    | .file, _ => True
    | .iov, .iov iov => iov.len = stream.bytesTotal ∧ iov.len ≤ iov.totalLen
    | .copybuf, .block data => stream.bytesTotal ≤ data.length
    | _, _ => False

/-- The stream after `k` of its bytes were written. -/
def MkStream.written (stream : MkStream β) (k : Nat) : MkStream β :=
  mkStreamBytesConsumed (consumeSource stream k) k

/-- The three kinds of stream that carry bytes. -/
theorem StreamOk.kinds {stream : MkStream β} (h : StreamOk stream) :
    stream.type = .file ∨
    (∃ iov, stream.type = .iov ∧ stream.buffer = .iov iov ∧ iov.len = stream.bytesTotal ∧
      iov.len ≤ iov.totalLen) ∨
    (∃ data, stream.type = .copybuf ∧ stream.buffer = .block data ∧
      stream.bytesTotal ≤ data.length) := by
  have hsource := h.source
  split at hsource
  · next htype => exact Or.inl htype
  · next iov htype hbuf => exact Or.inr (Or.inl ⟨iov, htype, hbuf, hsource.1, hsource.2⟩)
  · next data htype hbuf => exact Or.inr (Or.inr ⟨data, htype, hbuf, hsource⟩)
  · exact hsource.elim

section OneStream

variable (mem : Memory β) (files : Memory Int) {stream : MkStream β}

theorem StreamOk.pending_length (h : StreamOk stream) :
    (stream.pending mem files).length = stream.bytesTotal := by
  rcases h.kinds with htype | ⟨iov, htype, hbuf, hlen, -⟩ | ⟨data, htype, hbuf, hlen⟩
  · simp [MkStream.pending, htype]
  · simp [MkStream.pending, htype, hbuf, hlen]
  · simp [MkStream.pending, htype, hbuf, hlen]

@[simp] theorem consumeSource_id (k : Nat) : (consumeSource stream k).id = stream.id := by
  unfold consumeSource mkCopybufConsume
  split <;> (repeat' split) <;> rfl

@[simp] theorem consumeSource_bytesTotal (k : Nat) :
    (consumeSource stream k).bytesTotal = stream.bytesTotal := by
  unfold consumeSource mkCopybufConsume
  split <;> (repeat' split) <;> rfl

@[simp] theorem consumeSource_preserve (k : Nat) :
    (consumeSource stream k).preserve = stream.preserve := by
  unfold consumeSource mkCopybufConsume
  split <;> (repeat' split) <;> rfl

@[simp] theorem consumeSource_cbFinished (k : Nat) :
    (consumeSource stream k).cbFinished = stream.cbFinished := by
  unfold consumeSource mkCopybufConsume
  split <;> (repeat' split) <;> rfl

/-- A partial write leaves a good stream that denotes the rest. -/
theorem StreamOk.written (h : StreamOk stream) {k : Nat} (hk : k < stream.bytesTotal) :
    StreamOk (stream.written k) ∧
      (stream.written k).pending mem files = (stream.pending mem files).drop k := by
  rcases h.kinds with htype | ⟨iov, htype, hbuf, hlen, hbound⟩ | ⟨data, htype, hbuf, hlen⟩
  · -- a file: the offset moves
    have hw : stream.written k = { stream with
        bytesOffset := stream.bytesOffset + k, bytesTotal := stream.bytesTotal - k } := by
      simp [MkStream.written, consumeSource, htype, mkStreamBytesConsumed]
    rw [hw]
    refine ⟨⟨h.preserve, by simp only; omega, by simp [htype]⟩, ?_⟩
    simp [MkStream.pending, htype, Memory.read_drop]
  · -- an iov: `mk_iov_consume` may leave `total_len` too large, never too small
    have hw : stream.written k = { stream with
        buffer := .iov (mkIovConsume iov k), bytesTotal := stream.bytesTotal - k } := by
      simp [MkStream.written, consumeSource, htype, hbuf, mkStreamBytesConsumed]
    have hk' : k ≤ iov.len := by omega
    rw [hw]
    refine ⟨⟨h.preserve, by simp only; omega, ?_⟩, ?_⟩
    · simp only [htype]
      refine ⟨?_, mkIovConsume_bound hbound hk'⟩
      rw [mkIovConsume_len hbound hk', hlen]
    · simp only [MkStream.pending, htype, hbuf]
      exact mkIovConsume_bytes mem hbound hk'
  · -- a copy buffer: the rest is moved to the front
    have hne : k ≠ stream.bytesTotal := by omega
    have hw : stream.written k = { stream with
        buffer := .block ((data.drop k).take (stream.bytesTotal - k) ++
          data.drop (stream.bytesTotal - k)), bytesTotal := stream.bytesTotal - k } := by
      simp [MkStream.written, consumeSource, htype, mkCopybufConsume, hne, hbuf,
        mkStreamBytesConsumed]
    rw [hw]
    refine ⟨⟨h.preserve, by simp only; omega, ?_⟩, ?_⟩
    · simp only [htype]
      simp
      omega
    · simp only [MkStream.pending, htype, hbuf]
      rw [List.take_append_of_le_length (by simp; omega), List.take_of_length_le (by simp),
        List.drop_take]

end OneStream

/-! ## One write -/

section OneWrite

variable (mem : Memory β) (files : Memory Int) {channel : MkChannel β} {stream : MkStream β}
  {rest : List (MkStream β)}

/-- A write to a good stream only depends on the answer. -/
theorem mkChannelWrite_cons (h : StreamOk stream) (hsock : channel.type = mkChannelSocket)
    (hch : channel.streams = stream :: rest) (k : Nat) :
    mkChannelWrite mem files channel (.sent (k + 1)) =
      channelWritten mem files channel stream rest (k + 1) ∧
    (mkChannelWrite mem files channel .again).channel = channel ∧
    (mkChannelWrite mem files channel .again).wire = [] ∧
    (mkChannelWrite mem files channel .again).notices = [] := by
  rcases h.kinds with htype | ⟨iov, htype, -⟩ | ⟨data, htype, -⟩ <;>
    simp [mkChannelWrite, hch, hsock, htype]

/-- The last bytes of the first stream are sent: it is unlinked and reported. -/
theorem channelWritten_last (channel : MkChannel β) (rest : List (MkStream β))
    (h : StreamOk stream) :
    let r := channelWritten mem files channel stream rest stream.bytesTotal
    r.channel = { channel with streams := rest } ∧ r.wire = stream.pending mem files ∧
      r.notices.filterMap Notice.finishedId = if stream.cbFinished then [stream.id] else [] := by
  refine ⟨?_, ?_, ?_⟩
  · simp [channelWritten, mkStreamBytesConsumed, mkStreamRelease, h.preserve]
  · simp [channelWritten, ← h.pending_length mem files]
  · by_cases hc : stream.cbBytesConsumed = true <;> by_cases hf : stream.cbFinished = true <;>
      simp [channelWritten, mkStreamBytesConsumed, hc, hf, List.filterMap_cons]

/-- Some bytes of the first stream are sent: it stays, nothing is reported. -/
theorem channelWritten_part (channel : MkChannel β) (rest : List (MkStream β)) {k : Nat}
    (hk : k < stream.bytesTotal) :
    let r := channelWritten mem files channel stream rest k
    r.channel = { channel with streams := stream.written k :: rest } ∧
      r.wire = (stream.pending mem files).take k ∧
      r.notices.filterMap Notice.finishedId = [] := by
  have hne : stream.bytesTotal - k ≠ 0 := by omega
  refine ⟨?_, rfl, ?_⟩
  · simp [channelWritten, mkStreamBytesConsumed, hne, MkStream.written]
  · by_cases hc : stream.cbBytesConsumed = true <;>
      simp [channelWritten, mkStreamBytesConsumed, hne, hc]

/-- Everything the only stream of a channel has is sent. -/
theorem mkChannelWrite_all (h : StreamOk stream) (hsock : channel.type = mkChannelSocket)
    (hch : channel.streams = [stream]) :
    let r := mkChannelWrite mem files channel (.sent stream.bytesTotal)
    r.ret = .done ∧ r.channel.streams = [] ∧ r.channel.type = mkChannelSocket ∧
      r.wire = stream.pending mem files := by
  rcases Nat.exists_eq_add_of_lt h.pos with ⟨j, hj⟩
  have hj' : stream.bytesTotal = j + 1 := by omega
  have hwrite := (mkChannelWrite_cons mem files h hsock hch j).1
  rw [← hj'] at hwrite
  rcases channelWritten_last mem files channel [] h with ⟨h1, h2, -⟩
  dsimp only
  rw [hwrite]
  refine ⟨?_, by rw [h1], by rw [h1]; exact hsock, h2⟩
  have hret : (channelWritten mem files channel stream [] stream.bytesTotal).ret =
      if (channelWritten mem files channel stream [] stream.bytesTotal).channel.streams.isEmpty
      then .done else .flush := rfl
  rw [hret, h1]
  rfl

/-- A write to a channel with one stream: it fails, or a part of the stream is
left, or nothing is. -/
theorem mkChannelWrite_one (h : StreamOk stream) (hsock : channel.type = mkChannelSocket)
    (hch : channel.streams = [stream]) {ans : NetAnswer}
    (hans : ∀ k, ans = .sent k → k ≤ (stream.pending mem files).length) :
    let r := mkChannelWrite mem files channel ans
    r.ret = .error ∨
    ((r.ret = .busy ∨ r.ret = .flush) ∧ r.channel.type = mkChannelSocket ∧
      ∃ stream', r.channel.streams = [stream'] ∧ StreamOk stream' ∧
        r.wire ++ stream'.pending mem files = stream.pending mem files) ∨
    (r.ret = .done ∧ r.channel.streams = [] ∧ r.channel.type = mkChannelSocket ∧
      r.wire = stream.pending mem files) := by
  have hfail : ∀ ans, ans = .failed ∨ ans = .sent 0 →
      (mkChannelWrite mem files channel ans).ret = .error := by
    intro ans hans
    rcases h.kinds with htype | ⟨iov, htype, -⟩ | ⟨data, htype, -⟩ <;>
      rcases hans with rfl | rfl <;> simp [mkChannelWrite, hch, hsock, htype]
  -- by the answer of the network
  cases ans with
  | failed => exact Or.inl (hfail _ (Or.inl rfl))
  | again =>
    rcases mkChannelWrite_cons mem files h hsock hch 0 with ⟨-, hsame, hwire, -⟩
    have hret : (mkChannelWrite mem files channel .again).ret = .busy := by
      rcases h.kinds with htype | ⟨iov, htype, -⟩ | ⟨data, htype, -⟩ <;>
        simp [mkChannelWrite, hch, hsock, htype]
    refine Or.inr (Or.inl ⟨Or.inl hret, by rw [hsame]; exact hsock, stream, ?_, h, ?_⟩)
    · rw [hsame, hch]
    · rw [hwire, List.nil_append]
  | sent k =>
    cases k with
    | zero => exact Or.inl (hfail _ (Or.inr rfl))
    | succ j =>
      have hle := hans (j + 1) rfl
      rw [h.pending_length] at hle
      rcases Nat.lt_or_eq_of_le hle with hlt | heq
      · -- a part of the stream
        have hwrite := (mkChannelWrite_cons mem files h hsock hch j).1
        rcases channelWritten_part mem files channel [] hlt with ⟨h1, h2, -⟩
        rcases h.written mem files hlt with ⟨hok', hpend⟩
        have hret : (channelWritten mem files channel stream [] (j + 1)).ret =
            if (channelWritten mem files channel stream [] (j + 1)).channel.streams.isEmpty
            then .done else .flush := rfl
        rw [h1] at hret
        dsimp only
        rw [hwrite]
        refine Or.inr (Or.inl ⟨Or.inr hret, by rw [h1]; exact hsock, stream.written (j + 1), by rw [h1],
          hok', ?_⟩)
        rw [h2, hpend, List.take_append_drop]
      · rw [heq]
        exact Or.inr (Or.inr (mkChannelWrite_all mem files h hsock hch))

/-- A write with a valid answer keeps the streams good, and moves what it sends
from the front of the queue to the wire. -/
theorem mkChannelWrite_moves (hsock : channel.type = mkChannelSocket)
    (hok : ∀ stream ∈ channel.streams, StreamOk stream) {wire : List UInt8} {finished : List Nat}
    {ans : NetAnswer} (hv : ValidAnswer mem files ⟨channel, wire, finished⟩ ans) :
    let r := mkChannelWrite mem files channel ans
    r.channel.type = mkChannelSocket ∧ (∀ stream ∈ r.channel.streams, StreamOk stream) ∧
      r.wire ++ r.channel.streams.flatMap (MkStream.pending mem files) =
        channel.streams.flatMap (MkStream.pending mem files) := by
  cases hch : channel.streams with
  | nil =>
    simp only [mkChannelWrite, hch]
    exact ⟨hsock, by simp, rfl⟩
  | cons stream rest =>
    have hstream : StreamOk stream := hok stream (hch ▸ List.mem_cons_self ..)
    have hrest : ∀ s ∈ rest, StreamOk s := by
      intro s hs
      exact hok s (hch ▸ List.mem_cons_of_mem _ hs)
    simp only [ValidAnswer, hch] at hv
    -- by the answer of the network
    cases ans with
    | failed => exact hv.elim
    | again =>
      rcases mkChannelWrite_cons mem files hstream hsock hch 0 with ⟨-, hsame, hwire, -⟩
      simp only [hsame, hwire]
      exact ⟨hsock, hok, by rw [hch]; rfl⟩
    | sent k =>
      rcases hv with ⟨hpos, hle⟩
      rw [hstream.pending_length] at hle
      rcases Nat.exists_eq_add_of_lt hpos with ⟨j, hj⟩
      have hj' : k = j + 1 := by omega
      subst hj'
      rcases mkChannelWrite_cons mem files hstream hsock hch j with ⟨hwrite, -⟩
      simp only [hwrite]
      rcases Nat.lt_or_eq_of_le hle with hlt | heq
      · -- a part of the first stream
        rcases channelWritten_part mem files channel rest hlt with ⟨h1, h2, -⟩
        rcases hstream.written mem files hlt with ⟨hok', hpend⟩
        rw [h1, h2]
        refine ⟨hsock, ?_, ?_⟩
        · intro s hs
          rcases List.mem_cons.mp hs with rfl | hs
          · exact hok'
          · exact hrest s hs
        · rw [List.flatMap_cons, List.flatMap_cons, hpend, ← List.append_assoc,
            List.take_append_drop]
      · -- all of it
        rcases channelWritten_last mem files channel rest hstream with ⟨h1, h2, -⟩
        rw [heq, h1, h2]
        exact ⟨hsock, hrest, by rw [List.flatMap_cons]⟩

end OneWrite

/-! ## The invariant of a run -/

/-- The stream `mk_stream_set` links for a spec. -/
def StreamSpec.stream (mem : Memory β) (spec : StreamSpec β) : MkStream β :=
  match spec.source with
  | .iov iov _ =>
    { id := spec.id, type := .iov, fd := 0, preserve := false, bytesTotal := iov.totalLen,
      bytesOffset := 0, buffer := .iov iov, cbFinished := spec.cbFinished,
      cbBytesConsumed := spec.cbBytesConsumed }
  | .copybuf base off size =>
    { id := spec.id, type := .copybuf, fd := 0, preserve := false, bytesTotal := size,
      bytesOffset := 0, buffer := .block (mem.read base off size), cbFinished := spec.cbFinished,
      cbBytesConsumed := spec.cbBytesConsumed }
  | .file fd size =>
    { id := spec.id, type := .file, fd := fd, preserve := false, bytesTotal := size,
      bytesOffset := 0, buffer := .null, cbFinished := spec.cbFinished,
      cbBytesConsumed := spec.cbBytesConsumed }

theorem StreamSpec.set_eq (mem : Memory β) (channel : MkChannel β) (spec : StreamSpec β) :
    spec.set mem channel = { channel with streams := channel.streams ++ [spec.stream mem] } := by
  unfold StreamSpec.set StreamSpec.stream
  split <;> rfl

theorem queued_eq (mem : Memory β) (specs : List (StreamSpec β)) :
    queued mem specs = { type := mkChannelSocket, streams := specs.map (StreamSpec.stream mem) } := by
  have hfold : ∀ channel : MkChannel β, specs.foldl (StreamSpec.set mem) channel =
      { channel with streams := channel.streams ++ specs.map (StreamSpec.stream mem) } := by
    induction specs with
    | nil => simp
    | cons spec specs ih =>
      intro channel
      rw [List.foldl_cons, ih, StreamSpec.set_eq]
      simp
  simp [queued, hfold, mkChannelNew]

/-- A freshly set stream is good and denotes the content of its source. -/
theorem StreamSpec.stream_ok (mem : Memory β) (files : Memory Int) (spec : StreamSpec β) :
    StreamOk (spec.stream mem) ∧ (spec.stream mem).pending mem files = spec.bytes mem files ∧
      (spec.stream mem).id = spec.id ∧ (spec.stream mem).cbFinished = spec.cbFinished := by
  have hpos := spec.nonempty
  unfold StreamSpec.stream StreamSpec.bytes
  cases hs : spec.source with
  | iov iov ok =>
    rw [hs] at hpos
    have htotal := ok.total
    refine ⟨⟨rfl, ?_, ⟨htotal.symm, le_of_eq htotal.symm⟩⟩, rfl, rfl, rfl⟩
    simp only
    rw [htotal]
    exact hpos
  | copybuf base off size =>
    rw [hs] at hpos
    refine ⟨⟨rfl, hpos, ?_⟩, ?_, rfl, rfl⟩
    · simp
    · exact List.take_of_length_le (by simp)
  | file fd size =>
    rw [hs] at hpos
    exact ⟨⟨rfl, hpos, trivial⟩, rfl, rfl, rfl⟩

/-- The ids reported when these streams are finished. -/
def reported (specs : List (StreamSpec β)) : List Nat :=
  (specs.filter StreamSpec.cbFinished).map StreamSpec.id

/-- Where a run stands: the streams of `sent` are gone, `p` bytes of the next
one have left, and everything behind it is as it was queued. -/
structure Progress (mem : Memory β) (files : Memory Int) (specs sent left : List (StreamSpec β))
    (p : Nat) (o : Outlet β) : Prop where
  split : specs = sent ++ left
  socket : o.channel.type = mkChannelSocket
  finished : o.finished = reported sent
  wire : o.wire = sent.flatMap (StreamSpec.bytes mem files) ++
    (left.flatMap (StreamSpec.bytes mem files)).take p
  streams : match left with
    | [] => o.channel.streams = [] ∧ p = 0
    | spec :: rest => ∃ stream, o.channel.streams = stream :: rest.map (StreamSpec.stream mem) ∧
        StreamOk stream ∧ stream.id = spec.id ∧ stream.cbFinished = spec.cbFinished ∧
        p < (spec.bytes mem files).length ∧
        stream.pending mem files = (spec.bytes mem files).drop p

theorem progress_start (mem : Memory β) (files : Memory Int) (specs : List (StreamSpec β)) :
    Progress mem files specs [] specs 0 (outlet mem specs) := by
  refine ⟨rfl, by simp [outlet, queued_eq], rfl, by simp [outlet], ?_⟩
  cases specs with
  | nil => simp [outlet, queued_eq]
  | cons spec rest =>
    obtain ⟨hok, hpend, hid, hcb⟩ := spec.stream_ok mem files
    refine ⟨spec.stream mem, by simp [outlet, queued_eq], hok, hid, hcb, ?_, by simpa using hpend⟩
    rw [← hpend, hok.pending_length]
    exact hok.pos

section Step

variable {mem : Memory β} {files : Memory Int} {specs sent left : List (StreamSpec β)} {p : Nat}
  {o : Outlet β}

/-- The first `k` bytes of the rest, when they all come from its first stream. -/
theorem take_flatMap_cons {spec : StreamSpec β} {rest : List (StreamSpec β)} {k : Nat}
    (hk : k ≤ (spec.bytes mem files).length) :
    ((spec :: rest).flatMap (StreamSpec.bytes mem files)).take k = (spec.bytes mem files).take k := by
  rw [List.flatMap_cons, List.take_append_of_le_length hk]

/-- A part of the first stream leaves. -/
theorem Progress.part {spec : StreamSpec β} {rest : List (StreamSpec β)}
    (h : Progress mem files specs sent (spec :: rest) p o) {k : Nat} {o' : Outlet β}
    {stream : MkStream β} (hok : StreamOk stream) (hid : stream.id = spec.id) (hcb : stream.cbFinished = spec.cbFinished)
    (hpend : stream.pending mem files = (spec.bytes mem files).drop p)
    (hk : k < stream.bytesTotal)
    (ho : o' = { channel := { o.channel with
                  streams := stream.written k :: rest.map (StreamSpec.stream mem) }
                 wire := o.wire ++ (stream.pending mem files).take k
                 finished := o.finished }) :
    Progress mem files specs sent (spec :: rest) (p + k) o' := by
  have hlen : stream.bytesTotal = (spec.bytes mem files).length - p := by
    rw [← hok.pending_length mem files, hpend, List.length_drop]
  obtain ⟨hok', hpend'⟩ := hok.written mem files hk
  subst ho
  refine ⟨h.split, h.socket, h.finished, ?_, stream.written k, rfl, hok', ?_, ?_, ?_, ?_⟩
  · rw [h.wire, take_flatMap_cons (by omega), take_flatMap_cons (by omega), hpend,
      List.append_assoc, List.take_add]
  · simpa [MkStream.written, mkStreamBytesConsumed] using hid
  · simpa [MkStream.written, mkStreamBytesConsumed] using hcb
  · omega
  · rw [hpend', hpend, List.drop_drop]

/-- The first stream leaves completely. -/
theorem Progress.last {spec : StreamSpec β} {rest : List (StreamSpec β)}
    (h : Progress mem files specs sent (spec :: rest) p o) {o' : Outlet β} {stream : MkStream β}
    (hid : stream.id = spec.id) (hcb : stream.cbFinished = spec.cbFinished)
    (hp : p < (spec.bytes mem files).length)
    (hpend : stream.pending mem files = (spec.bytes mem files).drop p)
    (ho : o' = { channel := { o.channel with streams := rest.map (StreamSpec.stream mem) }
                 wire := o.wire ++ stream.pending mem files
                 finished := o.finished ++ if stream.cbFinished then [stream.id] else [] }) :
    Progress mem files specs (sent ++ [spec]) rest 0 o' := by
  subst ho
  refine ⟨by simp [h.split], h.socket, ?_, ?_, ?_⟩
  · rw [h.finished, hcb, hid]
    by_cases hf : spec.cbFinished = true <;> simp [reported, hf]
  · rw [h.wire, take_flatMap_cons (by omega), hpend, List.append_assoc, List.take_append_drop]
    simp
  · cases rest with
    | nil => exact ⟨rfl, rfl⟩
    | cons next rest =>
      obtain ⟨hok, hpend, hid, hcb⟩ := next.stream_ok mem files
      refine ⟨next.stream mem, rfl, hok, hid, hcb, ?_, by simpa using hpend⟩
      rw [← hpend, hok.pending_length]
      exact hok.pos

/-- One write makes progress or leaves everything as it is. -/
theorem Progress.step (h : Progress mem files specs sent left p o) {ans : NetAnswer}
    (hv : ValidAnswer mem files o ans) :
    ∃ sent' left' p', Progress mem files specs sent' left' p' ((writeMachine mem files).step o ans) := by
  cases left with
  | nil =>
    obtain ⟨hch, rfl⟩ := h.streams
    refine ⟨sent, [], 0, ?_⟩
    have hsame : (writeMachine mem files).step o ans = o := by
      simp [writeMachine, mkChannelWrite, hch]
    rw [hsame]
    exact h
  | cons spec rest =>
    obtain ⟨stream, hch, hok, hid, hcb, hp, hpend⟩ := h.streams
    simp only [ValidAnswer, hch] at hv
    cases ans with
    | failed => exact hv.elim
    | again =>
      obtain ⟨-, hsame, hwire, hnotice⟩ := 
        mkChannelWrite_cons mem files hok h.socket hch 0
      refine ⟨sent, spec :: rest, p, ?_⟩
      have : (writeMachine mem files).step o .again = o := by
        simp [writeMachine, hsame, hwire, hnotice]
      rw [this]
      exact h
    | sent k =>
      obtain ⟨hpos, hle⟩ := hv
      rw [hok.pending_length] at hle
      obtain ⟨k, rfl⟩ : ∃ j, k = j + 1 := ⟨k - 1, by omega⟩
      obtain ⟨hwrite, -⟩ := mkChannelWrite_cons mem files hok h.socket hch k
      rcases Nat.lt_or_eq_of_le hle with hlt | heq
      · obtain ⟨h1, h2, h3⟩ := channelWritten_part mem files o.channel
          (rest.map (StreamSpec.stream mem)) hlt
        refine ⟨sent, spec :: rest, p + (k + 1), h.part hok hid hcb hpend hlt ?_⟩
        simp [writeMachine, hwrite, h1, h2, h3]
      · obtain ⟨h1, h2, h3⟩ := channelWritten_last mem files o.channel
          (rest.map (StreamSpec.stream mem)) hok
        refine ⟨sent ++ [spec], rest, 0, h.last hid hcb hp hpend ?_⟩
        rw [heq] at hwrite ⊢
        simp [writeMachine, hwrite, h1, h2, h3]

end Step

/-! ## Whole runs -/

theorem progress_run {mem : Memory β} {files : Memory Int} {specs sent left : List (StreamSpec β)}
    {p : Nat} {o : Outlet β} (h : Progress mem files specs sent left p o) {answers : List NetAnswer}
    (hv : (writeMachine mem files).AllSteps (ValidAnswer mem files) o answers) :
    ∃ sent' left' p', Progress mem files specs sent' left' p'
      ((writeMachine mem files).run o answers) := by
  induction answers generalizing o sent left p with
  | nil => exact ⟨sent, left, p, h⟩
  | cons ans answers ih =>
    obtain ⟨sent', left', p', h'⟩ := h.step hv.1
    exact ih h' hv.2

/-- The lengths of the streams, in queue order. -/
def lengths (mem : Memory β) (files : Memory Int) (specs : List (StreamSpec β)) : List Nat :=
  specs.map fun spec => (spec.bytes mem files).length

theorem drained_append (ns ms : List Nat) (w : Nat) :
    drained (ns ++ ms) (ns.sum + w) = ns.length + drained ms w := by
  induction ns with
  | nil => simp
  | cons n ns ih =>
    have hsub : n + ns.sum + w - n = ns.sum + w := by omega
    simp only [List.cons_append, drained, List.sum_cons, List.length_cons]
    rw [if_pos (by omega), hsub, ih]
    omega

/-- The streams that are gone are those the wire covers. -/
theorem Progress.drained_eq {mem : Memory β} {files : Memory Int}
    {specs sent left : List (StreamSpec β)} {p : Nat} {o : Outlet β}
    (h : Progress mem files specs sent left p o) :
    drained (lengths mem files specs) o.wire.length = sent.length := by
  have hwire : o.wire.length = (lengths mem files sent).sum +
      ((left.flatMap (StreamSpec.bytes mem files)).take p).length := by
    rw [h.wire]
    simp [lengths, List.length_flatMap]
  have hlen : (lengths mem files sent).length = sent.length := by simp [lengths]
  have hsplit : lengths mem files specs = lengths mem files sent ++ lengths mem files left := by
    simp [lengths, h.split]
  rw [hwire, hsplit, drained_append, hlen]
  cases left with
  | nil => simp [lengths, drained]
  | cons spec rest =>
    obtain ⟨-, -, -, -, -, hp, -⟩ := h.streams
    rw [take_flatMap_cons (by omega), List.length_take]
    simp only [lengths, List.map_cons, drained]
    rw [if_neg (by omega)]
    omega

/-- What is on the wire and what the linked streams denote make up the queue. -/
theorem Progress.contents {mem : Memory β} {files : Memory Int}
    {specs sent left : List (StreamSpec β)} {p : Nat} {o : Outlet β}
    (h : Progress mem files specs sent left p o) :
    o.wire ++ o.channel.streams.flatMap (MkStream.pending mem files) =
      specs.flatMap (StreamSpec.bytes mem files) := by
  rw [h.wire, h.split, List.flatMap_append, List.append_assoc]
  congr 1
  cases left with
  | nil => simp [h.streams.1]
  | cons spec rest =>
    obtain ⟨stream, hch, -, -, -, hp, hpend⟩ := h.streams
    have hrest : (rest.map (StreamSpec.stream mem)).flatMap (MkStream.pending mem files) =
        rest.flatMap (StreamSpec.bytes mem files) := by
      rw [List.flatMap_map]
      exact List.flatMap_congr fun s _ => (s.stream_ok mem files).2.1
    rw [take_flatMap_cons (by omega), hch, List.flatMap_cons, List.flatMap_cons, hpend, hrest,
      ← List.append_assoc, List.take_append_drop]

theorem Progress.linked {mem : Memory β} {files : Memory Int}
    {specs sent left : List (StreamSpec β)} {p : Nat} {o : Outlet β}
    (h : Progress mem files specs sent left p o) :
    o.channel.streams.map MkStream.id = left.map StreamSpec.id := by
  cases left with
  | nil => simp [h.streams.1]
  | cons spec rest =>
    obtain ⟨stream, hch, -, hid, -⟩ := h.streams
    rw [hch, List.map_cons, List.map_cons, hid, List.map_map]
    congr 1
    exact List.map_congr_left fun s _ => (s.stream_ok mem (fun _ _ => 0)).2.2.1

/-- After any number of writes with any valid answers: the wire is followed by
exactly what the linked streams denote; the linked streams are the queued ones
without the first `m`, where `m` counts the streams the wire covers completely;
and `cb_finished` was called once for each of those `m`, in order. -/
theorem channel_delivery (mem : Memory β) (files : Memory Int) (specs : List (StreamSpec β))
    (answers : List NetAnswer)
    (hv : (writeMachine mem files).AllSteps (ValidAnswer mem files) (outlet mem specs) answers) :
    let o := (writeMachine mem files).run (outlet mem specs) answers
    let m := drained (lengths mem files specs) o.wire.length
    o.wire ++ o.channel.streams.flatMap (MkStream.pending mem files) =
        specs.flatMap (StreamSpec.bytes mem files) ∧
      o.channel.streams.map MkStream.id = (specs.drop m).map StreamSpec.id ∧
      o.finished = reported (specs.take m) := by
  intro o m
  obtain ⟨sent, left, p, h⟩ := progress_run (progress_start mem files specs) hv
  have hm : m = sent.length := h.drained_eq
  refine ⟨h.contents, ?_, ?_⟩
  · rw [h.linked, hm, h.split, List.drop_left]
  · rw [hm, h.finished, h.split, List.take_left]

/-- An iov of two entries, a copy buffer and a file, cut in the middle of the
second entry, of the copy and of the file. -/
theorem channel_delivery_cut :
    let mem : Memory Nat := fun base i => UInt8.ofNat (16 * base + i)
    let files : Memory Int := fun _ i => UInt8.ofNat i
    let iov := mkIovAdd (mkIovAdd (mkIovInit 0 4 0) 1 0 3) 2 0 4
    let ok : iov.Ok := ((mkIovInit_ok 0 4 0).add 1 0 3).add 2 0 4
    let specs : List (StreamSpec Nat) :=
      [⟨0, .iov iov ok, true, false, by decide⟩, ⟨1, .copybuf 3 0 2, true, true, by decide⟩,
        ⟨2, .file 7 3, true, false, by decide⟩]
    let answers : List NetAnswer := [.sent 5, .again, .sent 2, .sent 1, .sent 1, .sent 2]
    let o := (writeMachine mem files).run (outlet mem specs) answers
    o.wire = [16, 17, 18, 32, 33, 34, 35, 48, 49, 0, 1] ∧ o.finished = [0, 1] := by
  intro mem files iov ok specs answers o
  have hv : (writeMachine mem files).AllSteps (ValidAnswer mem files) (outlet mem specs) answers := by
    refine ⟨?_, trivial, ?_, ?_, ?_, ?_, trivial⟩
    · exact (by decide : 0 < 5 ∧ 5 ≤ 7)
    · exact (by decide : 0 < 2 ∧ 2 ≤ 2)
    · exact (by decide : 0 < 1 ∧ 1 ≤ 2)
    · exact (by decide : 0 < 1 ∧ 1 ≤ 1)
    · exact (by decide : 0 < 2 ∧ 2 ≤ 3)
  obtain ⟨hcontents, -, hfinished⟩ := channel_delivery mem files specs answers hv
  have hwire : o.wire.length = 11 := by decide
  constructor
  · have htake := congrArg (List.take 11) hcontents
    rw [List.take_left' hwire] at htake
    exact htake.trans (by decide)
  · exact hfinished.trans (by decide)

end SuperExe.Stream
