import SuperExe.FastCgi.Record
import SuperExe.Core.Iov

/-! # The parameters of a FastCGI request

`fcgi_add_param`, `fcgi_add_param_http_header` and `fcgi_add_param_empty` put
FCGI_PARAMS records in the iov of the handler. The record headers, the length
bytes and the names of HTTP headers are written to `buf_data`, and the iov
refers to them there; keys and values that come from elsewhere are referred to
in place.

The length of a record is computed with `> 127` and its length bytes are
written with `< 127`: the two disagree at 127. The length is stored in 16 bits.
-/

namespace SuperExe.FastCgi

open SuperExe.Core

/-! ## The code -/

/-- What an iov entry can point into: `handler->buf_data`, `fcgi_pad`, or the
memory of an argument. -/
inductive Src where
  | buf
  | pad
  | arg (b : Bytes)
deriving DecidableEq, Repr

/-- The fields of `struct fcgi_handler` the request is built in: `bufData` is
`buf_data[0 .. buf_len)`. -/
structure Params where
  bufData : Bytes
  iov : MkIov Src
deriving Repr

/-- The bytes behind the entries. -/
def Params.mem (h : Params) : Memory Src
  | .buf, i => h.bufData.getD i 0
  | .pad, _ => 0
  | .arg b, i => b.getD i 0

/-- What will be sent. -/
def Params.bytes (h : Params) : Bytes := h.iov.bytes h.mem

/-- `mk_api->iov_add`; `none` is a write behind the array of entries. -/
def iovAdd (iov : MkIov Src) (base : Src) (off len : Nat) : Option (MkIov Src) :=
  if iov.io.length < iov.size then some (mkIovAdd iov base off len) else none

/-- Bytes written at `buf_data + buf_len`; `none` is a write behind the
array. -/
def Params.write (h : Params) (b : Bytes) : Option Params :=
  if h.bufData.length + b.length ≤ bufSize then some { h with bufData := h.bufData ++ b } else none

/-- `fcgi_write_length` -/
def writeLength (len : Nat) : Bytes :=
  if len < 127 then [UInt8.ofNat len]
  else [UInt8.ofNat ((len / 2 ^ 24) ||| 0x80), UInt8.ofNat (len / 2 ^ 16 % 256),
        UInt8.ofNat (len / 2 ^ 8 % 256), UInt8.ofNat (len % 256)]

/-- The `len` of `fcgi_add_param`. -/
def recordLength (keyLen valLen : Nat) : Nat :=
  keyLen + valLen + (if keyLen > 127 then 4 else 1) + (if valLen > 127 then 4 else 1)

/-- `~(len - 1) & 7` -/
def paddingOf (len : Nat) : Nat := (8 - len % 8) % 8

theorem paddingOf_lt (n : Nat) : paddingOf n < 8 := Nat.mod_lt _ (by decide)

/-- The bytes `fcgi_add_param` writes to the buffer: the header and the two
lengths. -/
def paramHeader (keyLen valLen : Nat) : Bytes :=
  let len := recordLength keyLen valLen
  let padding := paddingOf len
  let header := buildHeader fcgiParams 1 len
  (if padding ≠ 0 then setPadding header padding else header) ++
    writeLength keyLen ++ writeLength valLen

/-- `fcgi_add_param`. The `-1` of the first `iov_add` comes after a write behind
the array. -/
def addParam (h : Params) (key : Src) (keyOff keyLen : Nat) (val : Bytes) : Option Params :=
  let head := paramHeader keyLen val.length
  let padding := paddingOf (recordLength keyLen val.length)
  let off := h.bufData.length
  (h.write head).bind fun h =>
  (iovAdd h.iov .buf off head.length).bind fun iov =>
  (iovAdd iov key keyOff keyLen).bind fun iov =>
  (iovAdd iov (.arg val) 0 val.length).bind fun iov =>
  (if padding ≠ 0 then iovAdd iov .pad 0 padding else some iov).bind fun iov =>
  some { h with iov }

/-- `toupper(3)` in the C locale. -/
def toupper (c : UInt8) : UInt8 := if 97 ≤ c ∧ c ≤ 122 then c - 32 else c

/-- The name of an HTTP header as a parameter. -/
def headerName (key : Bytes) : Bytes :=
  Core.bytes "HTTP_" ++ key.map fun c => if c = 45 then 95 else toupper c

/-- Whether `fcgi_add_param_http_header` gives up. -/
def noSpace (bufLen : Nat) (key : Bytes) : Bool :=
  (bufSize : Int) - bufLen < headerSize + 8 + (key.length + 5)

/-- `fcgi_add_param_http_header`: the handler, and whether the header was
added. -/
def addParamHttpHeader (h : Params) (key val : Bytes) : Option (Params × Bool) :=
  if noSpace h.bufData.length key then some (h, false)
  else
    let off := h.bufData.length
    (h.write (headerName key)).bind fun h =>
    (addParam h .buf off (headerName key).length val).map fun h => (h, true)

/-- `fcgi_add_param_empty` -/
def addParamEmpty (h : Params) : Option Params :=
  let off := h.bufData.length
  (h.write (buildHeader fcgiParams 1 0)).bind fun h =>
  (iovAdd h.iov .buf off headerSize).bind fun iov =>
  some { h with iov }

/-- One call: `fcgi_add_param` or `fcgi_add_param_http_header`. -/
inductive Add where
  | param (key val : Bytes)
  | header (key val : Bytes)
deriving DecidableEq, Repr

/-- The parameter a call is to add. -/
def Add.pair : Add → Bytes × Bytes
  | .param key val => (key, val)
  | .header key val => (headerName key, val)

/-- One call, and the parameter it has added. -/
def Add.run (h : Params) : Add → Option (Params × List (Bytes × Bytes))
  | .param key val => (addParam h (.arg key) 0 key.length val).map fun h => (h, [(key, val)])
  | .header key val =>
    (addParamHttpHeader h key val).map fun (h, added) =>
      (h, if added then [(headerName key, val)] else [])

def addAll (h : Params) : List Add → Option (Params × List (Bytes × Bytes))
  | [] => some (h, [])
  | a :: as =>
    (a.run h).bind fun (h, p) => (addAll h as).map fun (h, ps) => (h, p ++ ps)

/-- The handler of a new request, with an iov of `entries` entries;
`fcgi_handler_new` keeps the first eight bytes of the buffer free. -/
def newParams (entries : Nat) : Params :=
  { bufData := List.replicate headerSize 0, iov := { io := [], size := entries, totalLen := 0 } }

/-- All parameters and the closing record. -/
def encodeParams (entries : Nat) (as : List Add) : Option (Params × List (Bytes × Bytes)) :=
  (addAll (newParams entries) as).bind fun (h, ps) => (addParamEmpty h).map fun h => (h, ps)

/-! ## What the iov denotes -/

section Bytes

/-- The entries that point into the buffer stay below `buf_len`. -/
def Params.Inside (h : Params) : Prop :=
  ∀ e ∈ h.iov.io, e.iovBase = .buf → e.iovOff + e.iovLen ≤ h.bufData.length

/-- Later writes to the buffer are behind all entries. -/
theorem entriesBytes_write {h h' : Params} (hin : h.Inside) {b : Bytes}
    (hbuf : h'.bufData = h.bufData ++ b) : entriesBytes h'.mem h.iov.io = h.bytes := by
  simp only [Params.bytes, MkIov.bytes, entriesBytes]
  apply List.flatMap_congr
  intro e he
  simp only [IoVec.bytes, Memory.read]
  apply List.map_congr_left
  intro i hi
  have hlt := List.mem_range.mp hi
  cases hbase : e.iovBase with
  | buf =>
    have := hin e he hbase
    simp only [Params.mem, hbuf]
    rw [List.getD_append _ _ _ _ (by omega)]
  | pad => simp only [Params.mem]
  | arg a => simp only [Params.mem]

/-- Entries that are added behind a later write append what they denote. -/
theorem bytes_append {h h' : Params} (hin : h.Inside) {b : Bytes} {es : List (IoVec Src)}
    (hbuf : h'.bufData = h.bufData ++ b) (hio : h'.iov.io = h.iov.io ++ es) :
    h'.bytes = h.bytes ++ entriesBytes h'.mem es := by
  rw [Params.bytes, MkIov.bytes, hio, ← entriesBytes_write hin hbuf]
  exact List.flatMap_append

theorem inside_append {h h' : Params} (hin : h.Inside) {b : Bytes} {es : List (IoVec Src)}
    (hbuf : h'.bufData = h.bufData ++ b) (hio : h'.iov.io = h.iov.io ++ es)
    (hes : ∀ e ∈ es, e.iovBase = .buf → e.iovOff + e.iovLen ≤ h'.bufData.length) : h'.Inside := by
  intro e he hbase
  rw [hio, List.mem_append] at he
  rcases he with he | he
  · have := hin e he hbase
    rw [hbuf, List.length_append]
    omega
  · exact hes e he hbase

/-- The bytes of an entry that points to bytes of the buffer. -/
theorem read_buf {h : Params} {a b c : Bytes} (hbuf : h.bufData = a ++ b ++ c) :
    h.mem.read .buf a.length b.length = b := by
  apply List.ext_getElem
  · simp
  · intro i hi hi'
    simp only [Memory.read, List.getElem_map, List.getElem_range, Params.mem, hbuf]
    rw [List.append_assoc, List.getD_append_right _ _ _ _ (by omega), Nat.add_sub_cancel_left,
      List.getD_append _ _ _ _ hi', List.getD_eq_getElem _ _ hi']

theorem read_arg (h : Params) (b : Bytes) : h.mem.read (.arg b) 0 b.length = b := by
  apply List.ext_getElem
  · simp
  · intro i hi hi'
    simp only [Memory.read, List.getElem_map, List.getElem_range, Params.mem, Nat.zero_add]
    exact List.getD_eq_getElem _ _ hi'

theorem read_pad (h : Params) (n : Nat) : h.mem.read .pad 0 n = List.replicate n 0 := by
  apply List.ext_getElem
  · simp
  · intro i hi hi'
    simp [Memory.read, Params.mem]

/-- The bytes of one parameter: a record whose header and lengths are what
`fcgi_add_param` writes. -/
def paramBytes (key val : Bytes) : Bytes :=
  paramHeader key.length val.length ++ key ++ val ++
    List.replicate (paddingOf (recordLength key.length val.length)) 0

/-- The number of entries of one parameter. -/
def paramEntries (keyLen valLen : Nat) : Nat :=
  if paddingOf (recordLength keyLen valLen) ≠ 0 then 4 else 3

/-- The entries `fcgi_add_param` adds. -/
def paramIov (bufLen : Nat) (key : Src) (keyOff keyLen : Nat) (val : Bytes) : List (IoVec Src) :=
  [⟨.buf, bufLen, (paramHeader keyLen val.length).length⟩, ⟨key, keyOff, keyLen⟩,
    ⟨.arg val, 0, val.length⟩] ++
  if paddingOf (recordLength keyLen val.length) ≠ 0 then
    [⟨.pad, 0, paddingOf (recordLength keyLen val.length)⟩]
  else []

theorem length_paramIov (bufLen : Nat) (key : Src) (keyOff keyLen : Nat) (val : Bytes) :
    (paramIov bufLen key keyOff keyLen val).length = paramEntries keyLen val.length := by
  unfold paramIov paramEntries
  split <;> rfl

/-- Several `iov_add`. -/
def addEntries (iov : MkIov Src) : List (IoVec Src) → Option (MkIov Src)
  | [] => some iov
  | e :: es => (iovAdd iov e.iovBase e.iovOff e.iovLen).bind fun iov => addEntries iov es

theorem addEntries_some (iov : MkIov Src) {es : List (IoVec Src)}
    (h : iov.io.length + es.length ≤ iov.size) :
    ∃ iov', addEntries iov es = some iov' ∧ iov'.io = iov.io ++ es ∧ iov'.size = iov.size := by
  induction es generalizing iov with
  | nil => exact ⟨iov, rfl, by simp, rfl⟩
  | cons e es ih =>
    rw [List.length_cons] at h
    obtain ⟨iov', h1, h2, h3⟩ := ih (mkIovAdd iov e.iovBase e.iovOff e.iovLen)
      (by simp only [mkIovAdd, List.length_append, List.length_singleton]; omega)
    refine ⟨iov', ?_, ?_, h3⟩
    · rw [addEntries, iovAdd, if_pos (by omega), Option.bind_some, h1]
    · rw [h2]
      simp [mkIovAdd]

theorem addEntries_ok {iov iov' : MkIov Src} (hok : iov.Ok) {es : List (IoVec Src)}
    (h : addEntries iov es = some iov') : iov'.Ok := by
  induction es generalizing iov with
  | nil =>
    cases h
    exact hok
  | cons e es ih =>
    rw [addEntries, iovAdd] at h
    split at h
    · exact ih (hok.add e.iovBase e.iovOff e.iovLen) h
    · cases h

theorem addEntries_none (iov : MkIov Src) {es : List (IoVec Src)}
    (h : iov.size < iov.io.length + es.length) (hne : es ≠ []) : addEntries iov es = none := by
  induction es generalizing iov with
  | nil => exact absurd rfl hne
  | cons e es ih =>
    rw [List.length_cons] at h
    rw [addEntries, iovAdd]
    split
    · next hlt =>
      rw [Option.bind_some]
      apply ih
      · simp only [mkIovAdd, List.length_append, List.length_singleton]
        omega
      · rintro rfl
        simp only [List.length_nil] at h
        omega
    · rfl

/-- A record header that is written and referred to, and the entries behind it:
what all functions that add a record do. -/
def Params.addRecord (h : Params) (head : Bytes) (es : List (IoVec Src)) : Option Params :=
  (h.write head).bind fun h' =>
    (addEntries h'.iov (⟨.buf, h.bufData.length, head.length⟩ :: es)).map fun iov => { h' with iov }

/-- A handler after a record has been added to `h`. -/
structure Appended (h h' : Params) (head : Bytes) (es : List (IoVec Src)) : Prop where
  bufData : h'.bufData = h.bufData ++ head
  io : h'.iov.io = h.iov.io ++ ⟨.buf, h.bufData.length, head.length⟩ :: es
  size : h'.iov.size = h.iov.size
  ok : h.iov.Ok → h'.iov.Ok

section AddRecord

variable {h h' : Params} {head : Bytes} {es : List (IoVec Src)}

theorem addRecord_some (hbuf : h.bufData.length + head.length ≤ bufSize)
    (hio : h.iov.io.length + (es.length + 1) ≤ h.iov.size) :
    ∃ h', h.addRecord head es = some h' ∧ Appended h h' head es := by
  have hio' : h.iov.io.length +
      (⟨.buf, h.bufData.length, head.length⟩ :: es : List (IoVec Src)).length ≤ h.iov.size := hio
  rcases addEntries_some h.iov hio' with ⟨iov, hadd, hiov, hsize⟩
  refine ⟨{ bufData := h.bufData ++ head, iov }, ?_, rfl, hiov, hsize,
    fun hok => addEntries_ok hok hadd⟩
  rw [Params.addRecord, Params.write, if_pos hbuf, Option.bind_some, hadd, Option.map_some]

theorem addRecord_none (hroom : ¬ (h.bufData.length + head.length ≤ bufSize ∧
    h.iov.io.length + (es.length + 1) ≤ h.iov.size)) : h.addRecord head es = none := by
  rw [Params.addRecord, Params.write]
  split
  · next hbuf =>
    have hio : ¬ h.iov.io.length + (es.length + 1) ≤ h.iov.size := fun hio => hroom ⟨hbuf, hio⟩
    have hlt : h.iov.size < h.iov.io.length +
        (⟨.buf, h.bufData.length, head.length⟩ :: es : List (IoVec Src)).length := by
      rw [List.length_cons]
      omega
    have hnone := addEntries_none h.iov hlt (List.cons_ne_nil _ _)
    simp only [Option.bind_some, hnone, Option.map_none]
  · rfl

/-- A record is added exactly if there is room for it. -/
theorem addRecord_eq_some (hadd : h.addRecord head es = some h') :
    h.bufData.length + head.length ≤ bufSize ∧ h.iov.io.length + (es.length + 1) ≤ h.iov.size ∧
      Appended h h' head es := by
  by_cases hroom : h.bufData.length + head.length ≤ bufSize ∧
      h.iov.io.length + (es.length + 1) ≤ h.iov.size
  · rcases addRecord_some hroom.1 hroom.2 with ⟨h'', hadd', ha⟩
    rw [hadd] at hadd'
    cases hadd'
    exact ⟨hroom.1, hroom.2, ha⟩
  · rw [addRecord_none hroom] at hadd
    cases hadd

theorem Appended.inside (ha : Appended h h' head es) (hin : h.Inside)
    (hes : ∀ e ∈ es, e.iovBase = .buf → e.iovOff + e.iovLen ≤ h.bufData.length) : h'.Inside := by
  refine inside_append hin ha.bufData ha.io ?_
  intro e he hbase
  rw [ha.bufData, List.length_append]
  rcases List.mem_cons.mp he with rfl | he
  · exact Nat.le_refl _
  · have := hes e he hbase
    omega

theorem Appended.bytes (ha : Appended h h' head es) (hin : h.Inside) :
    h'.bytes = h.bytes ++ head ++ entriesBytes h'.mem es := by
  have hread : h'.mem.read .buf h.bufData.length head.length = head :=
    read_buf (c := []) (by rw [ha.bufData, List.append_nil])
  rw [bytes_append hin ha.bufData ha.io, entriesBytes_cons, IoVec.bytes, hread, List.append_assoc]

theorem Appended.length_bufData (ha : Appended h h' head es) :
    h'.bufData.length = h.bufData.length + head.length := by
  rw [ha.bufData, List.length_append]

theorem Appended.length_io (ha : Appended h h' head es) :
    h'.iov.io.length = h.iov.io.length + (es.length + 1) := by
  rw [ha.io, List.length_append, List.length_cons]

end AddRecord

theorem addParam_eq (h : Params) (key : Src) (keyOff keyLen : Nat) (val : Bytes) :
    addParam h key keyOff keyLen val =
      (h.write (paramHeader keyLen val.length)).bind fun h' =>
        (addEntries h'.iov (paramIov h.bufData.length key keyOff keyLen val)).map fun iov =>
          { h' with iov } := by
  unfold addParam paramIov
  split <;> simp [addEntries, Option.map_eq_bind, Option.bind_assoc, *]

/-- Where there is room for one parameter. -/
def ParamRoom (h : Params) (keyLen valLen : Nat) : Prop :=
  h.bufData.length + (paramHeader keyLen valLen).length ≤ bufSize ∧
    h.iov.io.length + paramEntries keyLen valLen ≤ h.iov.size

theorem addParam_some {h : Params} (key : Src) (keyOff : Nat) {keyLen : Nat} {val : Bytes}
    (hroom : ParamRoom h keyLen val.length) :
    ∃ h', addParam h key keyOff keyLen val = some h' ∧
      h'.bufData = h.bufData ++ paramHeader keyLen val.length ∧
      h'.iov.io = h.iov.io ++ paramIov h.bufData.length key keyOff keyLen val ∧
      h'.iov.size = h.iov.size ∧ (h.iov.Ok → h'.iov.Ok) := by
  obtain ⟨hbuf, hio⟩ := hroom
  rw [← length_paramIov h.bufData.length key keyOff] at hio
  obtain ⟨iov, h1, h2, h3⟩ := addEntries_some h.iov hio
  refine ⟨{ bufData := h.bufData ++ paramHeader keyLen val.length, iov }, ?_, rfl, h2, h3,
    fun hok => addEntries_ok hok h1⟩
  rw [addParam_eq, Params.write, if_pos hbuf, Option.bind_some, h1, Option.map_some]

theorem addParam_none {h : Params} (key : Src) (keyOff : Nat) {keyLen : Nat} {val : Bytes}
    (hroom : ¬ ParamRoom h keyLen val.length) : addParam h key keyOff keyLen val = none := by
  rw [addParam_eq, Params.write]
  split
  · next hbuf =>
    have hio : ¬ h.iov.io.length + paramEntries keyLen val.length ≤ h.iov.size :=
      fun hio => hroom ⟨hbuf, hio⟩
    rw [← length_paramIov h.bufData.length key keyOff] at hio
    have hnone := addEntries_none h.iov (by omega)
      (show paramIov h.bufData.length key keyOff keyLen val ≠ [] by simp [paramIov])
    simp only [Option.bind_some, hnone, Option.map_none]
  · rfl

/-- The key of a parameter is an argument, or it has just been written to the
buffer. -/
def KeyAt (h : Params) (src : Src) (off : Nat) (key : Bytes) : Prop :=
  src = .arg key ∧ off = 0 ∨ src = .buf ∧ ∃ a, h.bufData = a ++ key ∧ off = a.length

/-- One parameter appends one record to what will be sent. -/
theorem addParam_bytes {h h' : Params} (hin : h.Inside) {src : Src} {off : Nat} {key val : Bytes}
    (hkey : KeyAt h src off key)
    (hbuf : h'.bufData = h.bufData ++ paramHeader key.length val.length)
    (hio : h'.iov.io = h.iov.io ++ paramIov h.bufData.length src off key.length val) :
    h'.bytes = h.bytes ++ paramBytes key val ∧ h'.Inside := by
  -- the entries are read from the memory as it is now: the header from its end
  have hhead : h'.mem.read .buf h.bufData.length (paramHeader key.length val.length).length =
      paramHeader key.length val.length := read_buf (c := []) (by rw [hbuf, List.append_nil])
  -- the key from where it lies
  have hkeyread : h'.mem.read src off key.length = key := by
    rcases hkey with ⟨rfl, rfl⟩ | ⟨rfl, a, ha, rfl⟩
    · exact read_arg h' key
    · exact read_buf (by rw [hbuf, ha])
  -- the bytes of the record, and that all entries lie inside
  constructor
  · have happ : ∀ es fs, entriesBytes h'.mem (es ++ fs) =
        entriesBytes h'.mem es ++ entriesBytes h'.mem fs := fun es fs => List.flatMap_append
    rw [bytes_append hin hbuf hio]
    unfold paramIov paramBytes
    rw [happ]
    have h3 : entriesBytes h'.mem [⟨.buf, h.bufData.length, (paramHeader key.length val.length).length⟩,
        ⟨src, off, key.length⟩, ⟨.arg val, 0, val.length⟩] =
        paramHeader key.length val.length ++ key ++ val := by
      simp [entriesBytes, IoVec.bytes, hhead, hkeyread, read_arg]
    rw [h3]
    congr 2
    split
    · simp [entriesBytes, IoVec.bytes, read_pad]
    · next hz =>
      have : paddingOf (recordLength key.length val.length) = 0 := by simpa using hz
      rw [this]
      rfl
  · refine inside_append hin hbuf hio ?_
    intro e he hbase
    rw [hbuf, List.length_append]
    unfold paramIov at he
    have hpad : ∀ n, e ∉ (if n ≠ 0 then [(⟨.pad, 0, n⟩ : IoVec Src)] else []) := by
      intro n hmem
      split at hmem
      · rw [List.mem_singleton] at hmem
        rw [hmem] at hbase
        cases hbase
      · exact List.not_mem_nil hmem
    rw [List.mem_append] at he
    have he := he.resolve_right (hpad _)
    simp only [List.mem_cons, List.not_mem_nil, or_false] at he
    rcases he with rfl | rfl | rfl
    · exact Nat.le_refl _
    · rcases hkey with ⟨rfl, -⟩ | ⟨-, a, ha, rfl⟩
      · cases hbase
      · rw [ha, List.length_append]
        dsimp only
        omega
    · cases hbase

end Bytes

end SuperExe.FastCgi
