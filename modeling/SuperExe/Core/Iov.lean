import Mathlib.Data.List.Basic
import Mathlib.Algebra.Order.Ring.Int
import Mathlib.Tactic.Common

/-! # Vectored output buffers

Model of `mk_core/mk_iov.c`. An entry refers to memory, it does not own it:
`β` names the buffers an entry can point into and a `Memory` gives their bytes.
`io` holds the entries `io[0 .. iov_idx)`.

* `mkIovConsume_bytes` — consuming `k` bytes drops exactly the first `k` bytes
  the entries denote;
* `mkIovConsume_bound` — `total_len` never falls below the number of bytes
  left. It is not equal to it: the loop subtracts only what it took from the
  last entry it touched.
-/

namespace SuperExe.Core

/-- The bytes behind every pointer. -/
abbrev Memory (β : Type) := β → Nat → UInt8

/-- `len` bytes from offset `off` of a buffer. -/
def Memory.read {β : Type} (mem : Memory β) (base : β) (off len : Nat) : List UInt8 :=
  (List.range len).map fun i => mem base (off + i)

/-- `struct iovec`: `iov_base` is a buffer and an offset into it. -/
structure IoVec (β : Type) where
  iovBase : β
  iovOff : Nat
  iovLen : Nat
deriving DecidableEq, Repr

/-- `struct mk_iov` -/
structure MkIov (β : Type) where
  io : List (IoVec β)
  size : Nat
  totalLen : Nat
deriving DecidableEq, Repr

variable {β : Type}

/-! ## Building -/

/-- `mk_iov_init` -/
def mkIovInit (null : β) (n offset : Nat) : MkIov β :=
  { io := List.replicate offset { iovBase := null, iovOff := 0, iovLen := 0 }, size := n,
    totalLen := 0 }

/-- `mk_iov_add` -/
def mkIovAdd (iov : MkIov β) (buf : β) (off len : Nat) : MkIov β :=
  { iov with
    io := iov.io ++ [{ iovBase := buf, iovOff := off, iovLen := len }]
    totalLen := iov.totalLen + len }

/-! ## Consuming -/

/-- The loop of `mk_iov_consume`: the entries after it and the value it leaves
in `bytes`. -/
def consumeEntries : List (IoVec β) → Nat → List (IoVec β) × Nat
  | [], bytes => ([], bytes)
  | e :: es, bytes =>
    if bytes < e.iovLen then
      ({ e with iovOff := e.iovOff + bytes, iovLen := e.iovLen - bytes } :: es, bytes)
    else if bytes = e.iovLen then ({ e with iovLen := 0 } :: es, bytes)
    else
      let r := consumeEntries es (bytes - e.iovLen)
      ({ e with iovLen := 0 } :: r.1, r.2)

example : consumeEntries ([] : List (IoVec Nat)) 3 = ([], 3) := by simp [consumeEntries]

/-- `mk_iov_consume` -/
def mkIovConsume (iov : MkIov β) (bytes : Nat) : MkIov β :=
  if iov.totalLen = bytes then { iov with totalLen := 0, io := [] }
  else
    let r := consumeEntries iov.io bytes
    { iov with io := r.1, totalLen := iov.totalLen - r.2 }

/-! ## What an iov denotes -/

def IoVec.bytes (mem : Memory β) (e : IoVec β) : List UInt8 :=
  mem.read e.iovBase e.iovOff e.iovLen

/-- The bytes `writev(2)` is asked to send. -/
def entriesBytes (mem : Memory β) (es : List (IoVec β)) : List UInt8 :=
  es.flatMap (IoVec.bytes mem)

def MkIov.bytes (mem : Memory β) (iov : MkIov β) : List UInt8 := entriesBytes mem iov.io

/-- The number of bytes `writev(2)` is asked to send. -/
def entriesLen (es : List (IoVec β)) : Nat := (es.map IoVec.iovLen).sum

def MkIov.len (iov : MkIov β) : Nat := entriesLen iov.io

section Read

variable (mem : Memory β) (base : β)

@[simp] theorem Memory.read_length (off len : Nat) : (mem.read base off len).length = len := by
  simp [Memory.read]

@[simp] theorem Memory.read_zero (off : Nat) : mem.read base off 0 = [] := rfl

theorem Memory.read_drop (off len k : Nat) :
    (mem.read base off len).drop k = mem.read base (off + k) (len - k) := by
  apply List.ext_getElem
  · simp
  · intro i _ _
    simp [Memory.read, Nat.add_assoc]

end Read

section Consume

variable (mem : Memory β)

@[simp] theorem IoVec.bytes_length (e : IoVec β) : (e.bytes mem).length = e.iovLen :=
  mem.read_length _ _ _

theorem entriesBytes_length (es : List (IoVec β)) :
    (entriesBytes mem es).length = entriesLen es := by
  simp [entriesBytes, entriesLen, List.length_flatMap]

@[simp] theorem MkIov.bytes_length (iov : MkIov β) : (iov.bytes mem).length = iov.len :=
  entriesBytes_length mem iov.io

@[simp] theorem entriesBytes_cons (e : IoVec β) (es : List (IoVec β)) :
    entriesBytes mem (e :: es) = e.bytes mem ++ entriesBytes mem es := rfl

@[simp] theorem entriesLen_cons (e : IoVec β) (es : List (IoVec β)) :
    entriesLen (e :: es) = e.iovLen + entriesLen es := by
  simp [entriesLen]

/-- The loop drops the first `k` bytes; `k` must not exceed what is there. -/
theorem consumeEntries_bytes (es : List (IoVec β)) {k : Nat} (hk : k ≤ entriesLen es) :
    entriesBytes mem (consumeEntries es k).1 = (entriesBytes mem es).drop k := by
  induction es generalizing k with
  | nil => simp [consumeEntries, entriesBytes]
  | cons e es ih =>
    rw [entriesLen_cons] at hk
    unfold consumeEntries
    by_cases hlt : k < e.iovLen
    · -- the cut falls inside this entry
      rw [if_pos hlt, entriesBytes_cons, entriesBytes_cons, List.drop_append_of_le_length]
      · simp [IoVec.bytes, Memory.read_drop]
      · simp
        omega
    · rw [if_neg hlt]
      by_cases heq : k = e.iovLen
      · rw [if_pos heq, entriesBytes_cons, entriesBytes_cons, List.drop_left' (by simp [heq])]
        simp [IoVec.bytes]
      · rw [if_neg heq]
        have hdrop : (e.bytes mem).drop k = [] := List.drop_eq_nil_of_le (by simp; omega)
        simp only [entriesBytes_cons]
        rw [ih (by omega), List.drop_append, hdrop]
        simp [IoVec.bytes]

/-- What the loop leaves in `bytes` is at most what it was given. -/
theorem consumeEntries_rest_le (es : List (IoVec β)) (k : Nat) : (consumeEntries es k).2 ≤ k := by
  induction es generalizing k with
  | nil => simp [consumeEntries]
  | cons e es ih =>
    unfold consumeEntries
    split
    · exact Nat.le_refl _
    · split
      · exact Nat.le_refl _
      · have := ih (k - e.iovLen)
        simp only
        omega

/-- Consuming `k > 0` bytes drops exactly `k` bytes from the front. -/
theorem mkIovConsume_bytes {iov : MkIov β} {k : Nat} (hlen : iov.len ≤ iov.totalLen)
    (hk : k ≤ iov.len) : (mkIovConsume iov k).bytes mem = (iov.bytes mem).drop k := by
  unfold mkIovConsume
  by_cases hall : iov.totalLen = k
  · -- `total_len` is at least what is left, so the short cut means all of it
    rw [if_pos hall, List.drop_eq_nil_of_le (by simp; omega)]
    rfl
  · rw [if_neg hall]
    exact consumeEntries_bytes mem iov.io hk

theorem mkIovConsume_len {iov : MkIov β} {k : Nat} (hlen : iov.len ≤ iov.totalLen)
    (hk : k ≤ iov.len) : (mkIovConsume iov k).len = iov.len - k := by
  have hbytes := mkIovConsume_bytes (fun _ _ => 0) hlen hk
  have := congrArg List.length hbytes
  simpa using this

/-- `total_len` stays an upper bound of what is left. -/
theorem mkIovConsume_bound {iov : MkIov β} {k : Nat} (hlen : iov.len ≤ iov.totalLen)
    (hk : k ≤ iov.len) : (mkIovConsume iov k).len ≤ (mkIovConsume iov k).totalLen := by
  rw [mkIovConsume_len hlen hk]
  unfold mkIovConsume
  by_cases hall : iov.totalLen = k
  · rw [if_pos hall]
    simp only
    omega
  · rw [if_neg hall]
    have := consumeEntries_rest_le iov.io k
    simp only
    omega

end Consume

/-! ## A freshly built iov -/

/-- `total_len` counts the bytes of the entries, as long as nothing was
consumed. -/
structure MkIov.Ok (iov : MkIov β) : Prop where
  total : iov.totalLen = iov.len

theorem mkIovInit_ok (null : β) (n offset : Nat) : (mkIovInit null n offset).Ok := by
  constructor
  simp [mkIovInit, MkIov.len, entriesLen]

theorem MkIov.Ok.add {iov : MkIov β} (h : iov.Ok) (buf : β) (off len : Nat) :
    (mkIovAdd iov buf off len).Ok := by
  constructor
  have htotal := h.total
  simp only [mkIovAdd, MkIov.len, entriesLen, List.map_append, List.sum_append] at htotal ⊢
  rw [htotal]
  simp

end SuperExe.Core
