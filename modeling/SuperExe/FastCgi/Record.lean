import SuperExe.Core.CString
import Mathlib.Data.Nat.Bitwise

/-! # FastCGI records

The records of the FastCGI protocol as the plugin writes their headers
(`fcgi_build_header`, `fcgi_encode16`) and reads them (`fcgi_read_header`).
A record on the wire is eight bytes of header, the content and the padding.
-/

namespace SuperExe.FastCgi

open SuperExe.Core

/-- `FCGI_RECORD_HEADER_SIZE` -/
def headerSize : Nat := 8

/-- `FCGI_BUF_SIZE` -/
def bufSize : Nat := 65535 + headerSize

/-! ## The type component -/

def fcgiEndRequest : UInt8 := 3
def fcgiParams : UInt8 := 4
def fcgiStdout : UInt8 := 6
def fcgiStderr : UInt8 := 7

/-! ## Headers -/

/-- `struct fcgi_record_header`, the two 16-bit fields in host order. -/
structure RecordHeader where
  version : UInt8
  type : UInt8
  requestId : Nat
  contentLength : Nat
  paddingLength : UInt8
  reserved : UInt8
deriving DecidableEq, Repr

/-- `fcgi_encode16` -/
def encode16 (b : Nat) : Bytes := [UInt8.ofNat (b / 256), UInt8.ofNat b]

/-- `fcgi_build_header`; the two lengths are converted to `uint16_t`. -/
def buildHeader (type : UInt8) (requestId contentLength : Nat) : Bytes :=
  [1, type] ++ encode16 (requestId % 65536) ++ encode16 (contentLength % 65536) ++ [0, 0]

/-- `h->padding_length = padding` on a header that has been built. -/
def setPadding (header : Bytes) (padding : Nat) : Bytes := header.set 6 (UInt8.ofNat padding)

/-- `fcgi_read_header` -/
def readHeader (p : Nat → UInt8) : RecordHeader where
  version := p 0
  type := p 1
  requestId := (p 2).toNat * 256 + (p 3).toNat
  contentLength := (p 4).toNat * 256 + (p 5).toNat
  paddingLength := p 6
  reserved := p 7

/-! ## Records on the wire -/

/-- A record as the specification has it. -/
structure Record where
  type : UInt8
  requestId : Nat
  content : Bytes
  padding : Bytes
deriving DecidableEq, Repr

namespace Record

/-- The two lengths fit their fields. -/
def WellFormed (r : Record) : Prop :=
  r.requestId < 65536 ∧ r.content.length < 65536 ∧ r.padding.length < 256

instance (r : Record) : Decidable r.WellFormed := inferInstanceAs (Decidable (_ ∧ _))

def header (r : Record) : Bytes :=
  [1, r.type] ++ encode16 r.requestId ++ encode16 r.content.length ++
    [UInt8.ofNat r.padding.length, 0]

def bytes (r : Record) : Bytes := r.header ++ r.content ++ r.padding

/-- The bytes of a record without those of its padding. -/
def size (r : Record) : Nat := headerSize + r.content.length

@[simp] theorem length_header (r : Record) : r.header.length = 8 := rfl

@[simp] theorem length_bytes (r : Record) :
    r.bytes.length = r.size + r.padding.length := by
  simp [bytes, size, headerSize, Nat.add_assoc]

end Record

theorem encode16_value {n : Nat} (h : n < 65536) :
    (UInt8.ofNat (n / 256)).toNat * 256 + (UInt8.ofNat n).toNat = n := by
  simp only [UInt8.toNat_ofNat']
  omega

/-! ## Decoding -/

/-- The first record of a byte stream by the specification, and what follows
it. -/
def cutRecord : Bytes → Option (Record × Bytes)
  | v :: t :: i1 :: i0 :: c1 :: c0 :: p :: _ :: body =>
    let contentLength := c1.toNat * 256 + c0.toNat
    if v = 1 ∧ contentLength + p.toNat ≤ body.length then
      some ({ type := t, requestId := i1.toNat * 256 + i0.toNat,
              content := body.take contentLength,
              padding := (body.drop contentLength).take p.toNat },
            body.drop (contentLength + p.toNat))
    else none
  | _ => none

/-- A well-formed record is cut off whole. -/
theorem cutRecord_bytes {r : Record} (h : r.WellFormed) (rest : Bytes) :
    cutRecord (r.bytes ++ rest) = some (r, rest) := by
  obtain ⟨hid, hc, hp⟩ := h
  have hpad : (UInt8.ofNat r.padding.length).toNat = r.padding.length := by
    rw [UInt8.toNat_ofNat']
    omega
  simp only [Record.bytes, Record.header, encode16, List.cons_append, List.nil_append,
    List.append_assoc, cutRecord, encode16_value hid, encode16_value hc, hpad]
  rw [if_pos ⟨trivial, by simp⟩]
  simp [List.drop_append]

/-- What a cut takes away: the header, the content and the padding. -/
theorem length_of_cutRecord {bs rest : Bytes} {r : Record} (h : cutRecord bs = some (r, rest)) :
    bs.length = r.size + r.padding.length + rest.length := by
  unfold cutRecord at h
  split at h
  · next v t i1 i0 c1 c0 p z body =>
    dsimp only at h
    split at h
    · next hcond =>
      cases h
      simp only [Record.size, headerSize, List.length_cons, List.length_take, List.length_drop]
      omega
    · cases h
  · cases h

/-! ## Streams of records -/

/-- The bytes of a stream of records. -/
def stream (rs : List Record) : Bytes := rs.flatMap Record.bytes

@[simp] theorem stream_nil : stream [] = [] := rfl

@[simp] theorem stream_cons (r : Record) (rs : List Record) :
    stream (r :: rs) = r.bytes ++ stream rs := rfl

theorem stream_append (rs rs' : List Record) : stream (rs ++ rs') = stream rs ++ stream rs' :=
  List.flatMap_append

/-- The contents of the records, one after the other. -/
def contents (rs : List Record) : Bytes := rs.flatMap Record.content

/-- At most `n` records that are all of a byte stream. -/
def cutRecords : Nat → Bytes → Option (List Record)
  | _, [] => some []
  | 0, _ :: _ => none
  | n + 1, b :: bs =>
    (cutRecord (b :: bs)).bind fun (r, rest) => (cutRecords n rest).map (r :: ·)

/-- A byte stream cut into records. -/
def cutStream (bs : Bytes) : Option (List Record) := cutRecords bs.length bs

theorem cutRecords_stream {rs : List Record} (h : ∀ r ∈ rs, r.WellFormed) {n : Nat}
    (hn : rs.length ≤ n) : cutRecords n (stream rs) = some rs := by
  induction rs generalizing n with
  | nil => cases n <;> rfl
  | cons r rs ih =>
    rw [List.length_cons] at hn
    obtain ⟨m, rfl⟩ : ∃ m, n = m + 1 := ⟨n - 1, by omega⟩
    have hcut := cutRecord_bytes (h r List.mem_cons_self) (stream rs)
    have hrest := ih (fun r' hr' => h r' (List.mem_cons_of_mem r hr')) (n := m) (by omega)
    cases hbs : stream (r :: rs) with
    | nil =>
      have := congrArg List.length hbs
      simp [Record.size, headerSize] at this
    | cons b bs =>
      rw [stream_cons] at hbs
      rw [cutRecords, ← hbs, hcut]
      simp [hrest]

/-- A stream of well-formed records is cut where they were put together. -/
theorem cutStream_stream {rs : List Record} (h : ∀ r ∈ rs, r.WellFormed) :
    cutStream (stream rs) = some rs := by
  apply cutRecords_stream h
  induction rs with
  | nil => exact Nat.le_refl 0
  | cons r rs ih =>
    have := ih fun r' hr' => h r' (List.mem_cons_of_mem r hr')
    simp only [stream_cons, List.length_append, List.length_cons, Record.length_bytes, Record.size,
      headerSize]
    omega

end SuperExe.FastCgi
