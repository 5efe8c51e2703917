import SuperExe.Core.CString
import SuperExe.Lib.Buckets

/-! # The hash table of the reflection

`HashTable` (`reflection/hashtable.h`), with an `unsigned long` and pointers of
32 bits. A table of `n` buckets is asked for as `sizeof(struct HashEntry **) * n`
bytes; what is allocated is that number modulo `2^32`, and a bucket behind it
does not exist: an operation that reaches for one has no result (`none`).

The threshold is a function of the capacity that nothing depends on: it is
computed with a `Float`, or with a shift on ARM.
-/

namespace SuperExe.Reflection

open SuperExe.Core SuperExe.Lib

/-! ## Keys -/

/-- The types of keys. -/
inductive KeyType where
  | uint32
  | uint64
  | string
  | emuid
deriving DecidableEq, Repr

/-- What the platform decides: the value of a `char` in an expression, and the
threshold for a capacity. -/
structure Platform where
  char : UInt8 → UInt32
  threshold : Int → Int

/-- The bytes that `keycmp` compares, of a key or of a stored key. -/
def keyBytes (type : KeyType) (key : Bytes) : Bytes :=
  match type with
  | .uint32 => key.take 4
  | .uint64 => key.take 8
  | .string => key.takeWhile (· ≠ 0)
  | .emuid => key.take 16

/-- `keycmp` -/
def keycmp (type : KeyType) (mKey key : Bytes) : Bool := keyBytes type mKey = keyBytes type key

/-- `keycpy`: what stands in `mKey` after it. -/
def keycpy (type : KeyType) (key : Bytes) : Bytes :=
  match type with
  | .string => keyBytes type key ++ [0]
  | _ => keyBytes type key

/-- A key of the type: so many bytes, or a C string without its NUL. -/
def IsKey (type : KeyType) (key : Bytes) : Prop :=
  match type with
  | .uint32 => key.length = 4
  | .uint64 => key.length = 8
  | .string => 0 ∉ key
  | .emuid => key.length = 16

/-- `lvalue[i]` -/
def lvalue (key : Bytes) (i : Nat) : UInt32 :=
  let byte (j : Nat) : UInt32 := (key.getD (4 * i + j) 0).toUInt32
  byte 0 + (byte 1 <<< 8) + (byte 2 <<< 16) + (byte 3 <<< 24)

/-- `value ^ ((value << 5) + (value >> 3) + x)` -/
def mix (value x : UInt32) : UInt32 := value ^^^ ((value <<< 5) + (value >>> 3) + x)

/-- `Hash` -/
def hash (P : Platform) (type : KeyType) (key : Bytes) : UInt32 :=
  match type with
  | .uint32 => mix 0 (lvalue key 0)
  | .uint64 => mix (mix 0 (lvalue key 0)) (lvalue key 1)
  | .string => key.foldl (fun value ch => mix value (P.char ch)) (30 * P.char (key.getD 0 0))
  | .emuid => (List.range 4).foldl (fun value i => mix value (lvalue key i)) 0

/-! ## The table -/

structure HashEntry (T : Type) where
  hash : UInt32
  value : T
  key : Bytes

structure HashTable (T : Type) where
  table : Option (List (List (HashEntry T)))
  capacity : Int
  count : Int
  threshold : Int
  modCount : Nat

/-- The buckets that `malloc(sizeof(struct HashEntry **) * capacity)` has room
for. -/
def bucketsFor (capacity : Int) : Nat := (4 * capacity % 2 ^ 32).toNat / 4

/-- `(hash & 0x7FFFFFFF) % mCapacity` -/
def bucketOf (hash : UInt32) (capacity : Int) : Nat :=
  (Int.tmod ((hash &&& 0x7FFFFFFF).toNat : Int) capacity).toNat

/-- The constructor. -/
def HashTable.new (P : Platform) (T : Type) (initialCapacity : Int) : HashTable T :=
  let capacity := if initialCapacity ≤ 0 then 10 else initialCapacity
  { table := none, capacity := capacity, count := 0, threshold := P.threshold capacity, modCount := 0 }

namespace HashTable

variable {T : Type} (P : Platform) (type : KeyType)

/-- `e->mHash == hash && keycmp(e, key)` -/
def isEntryOf (key : Bytes) (e : HashEntry T) : Bool :=
  e.hash = hash P type key && keycmp type e.key key

/-- `Get`; a `NULL` key is not found. -/
def get (h : HashTable T) (key : Option Bytes) : Option (Option T) :=
  match key, h.table with
  | some key, some t =>
    (t[bucketOf (hash P type key) h.capacity]?).map fun b =>
      (b.find? (isEntryOf P type key)).map HashEntry.value
  | _, _ => some none

/-- `Contains` -/
def contains (h : HashTable T) (key : Option Bytes) : Option Bool :=
  match key, h.table with
  | some key, some t =>
    (t[bucketOf (hash P type key) h.capacity]?).map fun b => b.any (isEntryOf P type key)
  | _, _ => some false

/-- `Size` -/
def size (h : HashTable T) : Int := h.count

/-- `IsEmpty` -/
def isEmpty (h : HashTable T) : Bool := h.count = 0

/-- `Rehash`, when its allocation succeeds. The old buckets are walked from the
last one to the first, each from its head, and every entry is put in front of
its new bucket. -/
def rehash (h : HashTable T) (t : List (List (HashEntry T))) : Option (HashTable T) :=
  let newCapacity := toInt32 (h.capacity * 2 + 1)
  if t.length < h.capacity.toNat then none
  else
    let entries := (t.take h.capacity.toNat).reverse.flatten
    (entries.foldlM (fun t e => pushFront t (bucketOf e.hash newCapacity) e)
      (List.replicate (bucketsFor newCapacity) [])).map fun t' =>
      { h with
        table := some t'
        capacity := newCapacity
        threshold := P.threshold newCapacity
        modCount := h.modCount + 1 }

/-- Which of the allocations of a `Put` succeed: the first table, the table of a
`Rehash` and the entry. -/
structure Alloc where
  table : Bool
  rehash : Bool
  entry : Bool
deriving DecidableEq, Repr

/-- The end of `Put`: the new entry. -/
def addEntry (h : HashTable T) (key : Bytes) (value : T) (alloc : Alloc) :
    Option (Bool × HashTable T) :=
  if alloc.entry = false then some (false, h)
  else
    let e : HashEntry T := { hash := hash P type key, value := value, key := keycpy type key }
    match h.table with
    | none => none
    | some t =>
      (pushFront t (bucketOf e.hash h.capacity) e).map fun t' =>
        (true, { h with table := some t', count := toInt32 (h.count + 1) })

/-- `Put` with its first table. -/
def putIn (h : HashTable T) (t : List (List (HashEntry T))) (key : Bytes) (value : T)
    (alloc : Alloc) : Option (Bool × HashTable T) :=
  let h := { h with table := some t }
  let index := bucketOf (hash P type key) h.capacity
  match t[index]? with
  | none => none
  | some b =>
    if b.any (isEntryOf P type key) then
      let b' := updateFirst (isEntryOf P type key) (fun e => { e with value := value }) b
      some (true, { h with table := some (t.set index b') })
    else
      let h := { h with modCount := h.modCount + 1 }
      if h.threshold ≤ h.count then
        if alloc.rehash = false then some (false, h)
        else (rehash P h t).bind fun h => addEntry P type h key value alloc
      else addEntry P type h key value alloc

/-- `Put` -/
def put (h : HashTable T) (key : Option Bytes) (value : Option T) (alloc : Alloc) :
    Option (Bool × HashTable T) :=
  match key, value with
  | some key, some value =>
    match h.table with
    | some t => putIn P type h t key value alloc
    | none =>
      if alloc.table = false then some (false, h)
      else putIn P type h (List.replicate (bucketsFor h.capacity) []) key value alloc
  | _, _ => some (false, h)

/-- `Remove` -/
def remove (h : HashTable T) (key : Option Bytes) : Option (Bool × HashTable T) :=
  match key, h.table with
  | some key, some t =>
    let index := bucketOf (hash P type key) h.capacity
    (t[index]?).map fun b =>
      if b.any (isEntryOf P type key) then
        (true, { h with
          table := some (t.set index (b.eraseP (isEntryOf P type key)))
          modCount := h.modCount + 1
          count := toInt32 (h.count - 1) })
      else (false, h)
  | _, _ => some (false, h)

/-- `Clear`; it frees the chains of `mCapacity` buckets. -/
def clear (h : HashTable T) : Option (HashTable T) :=
  match h.table with
  | none => some h
  | some t =>
    if t.length < h.capacity.toNat then none
    else some { h with
      table := some (List.replicate t.length [])
      modCount := h.modCount + 1
      count := 0 }

end HashTable

end SuperExe.Reflection
