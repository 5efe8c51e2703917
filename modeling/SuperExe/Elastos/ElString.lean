import SuperExe.Elastos.Utf8

/-! # The string class of the Elastos runtime

`class String` of `elstring.h` and the members of `elstring.cpp` that read or
write its two fields. `mString` is the data of its shared buffer, the closing
NUL included (`GetSizeFromData` is the length of that list), and NULL is `none`;
`mCharCount` is the cached length. `const` members write the cache too
(it is `mutable`), so they give back the object beside their result.

Assigning a string shares the buffer. All writers go through `EditResize`, which
never writes to a buffer another string holds, so that buffers are values here.
What the C library decides comes as an argument: whether `malloc` and `realloc`
give a buffer of a size, whether an array could be allocated, what `vsnprintf`
writes. `Int32` arguments are integers; a sum that leaves `Int32` is undefined
in the source. It is the exact sum here, and `toInt32` of it where an argument
alone can drive it out of range.
-/

namespace SuperExe.Elastos

open SuperExe.Core

inductive ECode where
  | noError
  | invalidArgument
  | outOfMemory
deriving DecidableEq, Repr

structure ElString where
  mString : Option Bytes
  mCharCount : UInt32
deriving DecidableEq, Repr

/-- What the allocator answers during one call: `SharedBuffer::Alloc` and
`EditResize` by the size they ask for, and the two arrays of
`Append(ArrayOf<Char32>)`. -/
structure Heap where
  sharedBuffer : Nat → Bool
  byteCounts : Bool
  byteArray : Bool

/-- `strlen(s)` -/
def strlen (s : Bytes) : Nat := (s.takeWhile (· != 0)).length

/-- The C string at `s` with its NUL: what lies before `pEnd` when that is
`s + strlen(s) + 1`. -/
def cString (s : Bytes) : Bytes := s.takeWhile (· != 0) ++ [0]

/-- `_getEmptyString` -/
def emptyString : Bytes := [0]

/-- `_allocFromUTF8` -/
def allocFromUTF8 (heap : Heap) (input : Bytes) (numBytes : Int) : Option Bytes :=
  if numBytes > 0 then
    if heap.sharedBuffer (numBytes.toNat + 1) then some (input.take numBytes.toNat ++ [0])
    else none
  else some emptyString

/-- `SharedBuffer::EditResize`. A buffer that has the size already is only ever
resized by its one owner (`UnlockBuffer`). The bytes a larger buffer gains are
unspecified; every caller overwrites them. -/
def editResize (heap : Heap) (buf : Bytes) (newSize : Nat) : Option Bytes :=
  if buf.length = newSize then some buf
  else if heap.sharedBuffer newSize then
    some (buf.take newSize ++ List.replicate (newSize - buf.length) 0)
  else none

namespace ElString

/-! ## Counting -/

/-- `String::String()` -/
def null : ElString := { mString := none, mCharCount := 0 }

/-- `mString` as a pointer that is only read where it is not NULL. -/
def data (s : ElString) : Bytes := s.mString.getD []

def setCounted (s : ElString) (charCount : Int) : ElString :=
  { s with mCharCount := (0x7FFFFFFF &&& UInt32.ofInt charCount) ||| 0x80000000 }

def clearCounted (s : ElString) : ElString := { s with mCharCount := 0 }

def isCounted (s : ElString) : Bool := s.mCharCount &&& 0x80000000 != 0

def isNull (s : ElString) : Bool := s.mString.isNone

def isNullOrEmpty (s : ElString) : Bool := s.isNull || deref s.data == 0

def getByteLength (s : ElString) : Nat := if s.isNullOrEmpty then 0 else s.data.length - 1

/-- The loop of `GetLength`. -/
def countLoop : Nat → Bytes → Int → Int
  | 0, _, charCount => charCount
  | fuel + 1, p, charCount =>
    if deref p = 0 then charCount
    else
      let byteLength := utf8SequenceLength (deref p)
      if byteLength = 0 ∨ p.length ≤ byteLength then charCount
      else countLoop fuel (p.drop byteLength) (charCount + 1)

def getLength (s : ElString) : Int × ElString :=
  if s.isNullOrEmpty then (0, s)
  else if s.isCounted then ((0x7FFFFFFF &&& s.mCharCount).toNat, s)
  else
    let charCount := countLoop s.data.length s.data 0
    (charCount, s.setCounted charCount)

/-! ## Reading characters -/

/-- The variables of the loop of `GetChars`. -/
structure CharsLoop where
  p : Bytes
  i : Int
  byteLength : Nat
  array : List Char32

/-- The loop of `GetChars(start, end)`. -/
def getCharsLoop (start stop : Int) : Nat → CharsLoop → CharsLoop
  | 0, v => v
  | fuel + 1, v =>
    if deref v.p = 0 then v
    else if v.i < start then
      let byteLength := utf8SequenceLength (deref v.p)
      if byteLength = 0 ∨ v.p.length ≤ byteLength then { v with byteLength }
      else
        let v := { v with p := v.p.drop byteLength, i := v.i + 1, byteLength }
        if v.i ≥ stop then v else getCharsLoop start stop fuel v
    else if v.i < stop then
      let (ch, byteLength) := getCharInternal v.p
      if byteLength = 0 ∨ v.p.length ≤ byteLength then { v with byteLength }
      else
        let v := { p := v.p.drop byteLength, i := v.i + 1, byteLength, array := v.array ++ [ch] }
        if v.i ≥ stop then v else getCharsLoop start stop fuel v
    else v

/-- `GetChars(start, end)`. The array has `end - start` elements from the
start, the ones the loop does not reach keep the 0 of `Alloc`. -/
def getCharsRange (s : ElString) (start stop : Int) : List Char32 × ElString :=
  let (charCount, s) := s.getLength
  let stop := min charCount stop
  if start ≥ stop ∨ start < 0 then ([], s)
  else
    let v := getCharsLoop start stop s.data.length { p := s.data, i := 0, byteLength := 0, array := [] }
    let s := if !s.isCounted && v.p.length ≤ v.byteLength then s.setCounted (v.i - 1) else s
    (v.array ++ List.replicate ((stop - start).toNat - v.array.length) 0, s)

/-- `GetChars(start)` -/
def getChars (s : ElString) (start : Int) : List Char32 × ElString :=
  let (charCount, s) := s.getLength
  s.getCharsRange start charCount

/-- The loop of `CharIndexToByteIndex`, over a string of `total` bytes with its
NUL. -/
def charIndexLoop (total : Nat) (charIndex : Int) : Nat → Bytes → Int → Int
  | 0, _, _ => -1
  | fuel + 1, p, i =>
    if deref p = 0 then -1
    else if i = charIndex then (total : Int) - p.length
    else
      let charlen := utf8SequenceLength (deref p)
      if charlen = 0 ∨ p.length ≤ charlen then -1
      else charIndexLoop total charIndex fuel (p.drop charlen) (i + 1)

def charIndexToByteIndex (string : Option Bytes) (charIndex : Int) : Int :=
  match string with
  | none => -1
  | some string =>
    if deref string = 0 ∨ charIndex < 0 then -1
    else charIndexLoop (cString string).length charIndex (cString string).length (cString string) 0

/-! ## Updates -/

/-- `SetTo(const String&)` -/
def setTo (_ : ElString) (other : ElString) : ElString := other

/-- `SetTo(const char*)` -/
def setToCstr (heap : Heap) (s : ElString) (other : Option Bytes) : ECode × ElString :=
  match other with
  | none => (.noError, if s.isNull then s else { s with mString := none }.setCounted 0)
  | some other =>
    match allocFromUTF8 heap other (strlen other) with
    | some newString => (.noError, { mString := some newString, mCharCount := 0 })
    | none => (.outOfMemory, { mString := some emptyString, mCharCount := 0 })

/-- `SetTo(const char*, Int32)` -/
def setToBytes (heap : Heap) (_ : ElString) (other : Bytes) (numBytes : Int) : ECode × ElString :=
  match allocFromUTF8 heap other numBytes with
  | some newString => (.noError, { mString := some newString, mCharCount := 0 })
  | none => (.outOfMemory, { mString := some emptyString, mCharCount := 0 })

/-- `RealAppend`; `other` is what `memcpy` reads after the buffer has grown. -/
def realAppend (heap : Heap) (s : ElString) (other : Bytes) (numOfBytes : Int) : ECode × ElString :=
  if numOfBytes ≤ 0 then (.noError, s)
  else
    let s := s.clearCounted
    let n := numOfBytes.toNat
    let byteCount := if s.isNull then 0 else s.getByteLength
    let buf := match s.mString with
      | some buf => editResize heap buf (byteCount + n + 1)
      | none => if heap.sharedBuffer (n + 1) then some (List.replicate (n + 1) 0) else none
    match buf with
    | some buf =>
      (.noError, { s with mString := some (buf.take byteCount ++ other.take n ++ [0] ++
        buf.drop (byteCount + n + 1)) })
    | none => (.outOfMemory, s)

/-- `Append(const char*, Int32)`; `stale` is what `memcpy` reads at `other` when
that is no longer what the argument was. -/
def appendBytes (heap : Heap) (s : ElString) (other : Bytes) (numOfBytes : Int)
    (stale : Option Bytes) : ECode × ElString :=
  if numOfBytes ≤ 0 then (.noError, s)
  else if s.getByteLength = 0 then s.setToBytes heap other numOfBytes
  else s.realAppend heap (stale.getD other) (min (strlen other) numOfBytes)

/-- `Append(const char*)` -/
def appendCstr (heap : Heap) (s : ElString) (other : Bytes) : ECode × ElString :=
  s.appendBytes heap other (strlen other) none

/-- `Append(Char32)` -/
def appendChar (heap : Heap) (s : ElString) (ch : Char32) : ECode × ElString :=
  if !isValidChar ch then (.invalidArgument, s)
  else
    let buf := writeUTFBytesToBuffer ch (getByteCount ch)
    if buf.length > 0 then s.appendBytes heap buf buf.length none else (.noError, s)

/-- `Append(const String&)`. When `other` is the object itself and `EditResize`
has moved its buffer, `memcpy` reads a block that has been given back: `stale`
is what it finds there. -/
def append (heap : Heap) (s other : ElString) (stale : Option Bytes) : ECode × ElString :=
  let numBytes := other.getByteLength
  if s.getByteLength = 0 then (.noError, s.setTo other)
  else if numBytes = 0 then (.noError, s)
  else s.realAppend heap (stale.getD other.data) numBytes

/-- `Append(const String&, Int32)` -/
def appendFrom (heap : Heap) (s other : ElString) (charOffset : Int) (stale : Option Bytes) :
    ECode × ElString :=
  if other.isNullOrEmpty then (.noError, s)
  else
    let byteOffset := charIndexToByteIndex other.mString charOffset
    if byteOffset < 0 then (.invalidArgument, s)
    else
      let byteLength := other.getByteLength
      let byteOffset := min (byteLength : Int) byteOffset
      s.appendBytes heap (other.data.drop byteOffset.toNat) (byteLength - byteOffset) stale

/-- The loop of `Append(const String&, Int32, Int32)`: `startByte` and
`endByte`. -/
def rangeLoop (total : Nat) (offset numOfChars : Int) :
    Nat → Bytes → Int → Int → Int → Int × Int
  | 0, _, _, _, startByte => (startByte, -1)
  | fuel + 1, p, i, j, startByte =>
    if deref p = 0 then (startByte, -1)
    else if j = numOfChars then (startByte, (total : Int) - p.length)
    else
      let startByte := if i = offset then (total : Int) - p.length else startByte
      let j := if i ≥ offset then j + 1 else j
      let charlen := utf8SequenceLength (deref p)
      if charlen = 0 ∨ p.length ≤ charlen then (-1, -1)
      else rangeLoop total offset numOfChars fuel (p.drop charlen) (i + 1) j startByte

/-- `Append(const String&, Int32, Int32)` -/
def appendRange (heap : Heap) (s other : ElString) (offset numOfChars : Int)
    (stale : Option Bytes) : ECode × ElString :=
  if other.isNullOrEmpty then (.noError, s)
  else if numOfChars ≤ 0 then (.noError, s)
  else
    let string := cString other.data
    let (startByte, endByte) := rangeLoop string.length offset numOfChars string.length string 0 0 (-1)
    if startByte < 0 then (.invalidArgument, s)
    else
      let endByte := if endByte < 0 then (strlen other.data : Int) else endByte
      s.appendBytes heap (other.data.drop startByte.toNat) (endByte - startByte) stale

/-- `Append(const ArrayOf<Char32>&, Int32, Int32)` -/
def appendCharsRange (heap : Heap) (s : ElString) (array : List Char32) (offset length : Int) :
    ECode × ElString :=
  let offset := max 0 offset
  if offset ≥ array.length then (.invalidArgument, s)
  else
    let length := min ((array.length : Int) - offset) length
    if length ≤ 0 then (.noError, s)
    else if !heap.byteCounts then (.outOfMemory, s)
    else
      let isNullStr := s.isNullOrEmpty
      let chars := (array.drop offset.toNat).take length.toNat
      let counted := chars.filter fun c => getByteCount c > 0
      let appendedCharCount := counted.length
      let totalByteLength := (counted.map getByteCount).sum
      if totalByteLength = 0 then (.noError, s)
      else if !heap.byteArray then (.outOfMemory, s)
      else
        let bytes := counted.flatMap fun c => writeUTFBytesToBuffer c (getByteCount c)
        match s.realAppend heap bytes totalByteLength with
        | (.noError, s) =>
          (.noError, if isNullStr then s.setCounted appendedCharCount else s.clearCounted)
        | (ec, s) => (ec, s)

/-- `Append(const ArrayOf<Char32>&, Int32)` -/
def appendChars (heap : Heap) (s : ElString) (array : List Char32) (offset : Int) :
    ECode × ElString :=
  s.appendCharsRange heap array offset array.length

/-- `LockBuffer` -/
def lockBuffer (heap : Heap) (s : ElString) (numBytes : Nat) : Option ElString :=
  let buf := match s.mString with
    | some buf => editResize heap buf (numBytes + 1)
    | none => if heap.sharedBuffer (numBytes + 1) then some (List.replicate (numBytes + 1) 0) else none
  buf.map fun buf => { s with mString := some buf }

/-- `UnlockBuffer(Int32)` -/
def unlockBuffer (heap : Heap) (s : ElString) (numBytes : Nat) : ECode × ElString :=
  if s.isNull then (.noError, s)
  else
    let (length, s) := s.getLength
    if (numBytes : Int) ≠ length then
      match editResize heap s.data (numBytes + 1) with
      | none => (.outOfMemory, s)
      | some str => (.noError, { s with mString := some (str.take numBytes ++ [0]) })
    else (.noError, s)

/-- `AppendFormat`: `text` is what the first `vsnprintf` measures, `again` what
the second one, with the same `va_list`, writes. -/
def appendFormat (heap : Heap) (s : ElString) (text again : Bytes) : ECode × ElString :=
  let s := s.clearCounted
  let n := text.length
  if n ≠ 0 then
    let oldLength := s.getByteLength
    match s.lockBuffer heap (oldLength + n) with
    | some s =>
      let written := s.data.take oldLength ++ again.take n ++ [0]
      let s := { s with mString := some (written ++ s.data.drop written.length) }
      (.noError, (s.unlockBuffer heap (oldLength + n)).2)
    | none => (.outOfMemory, s)
  else (.noError, s)

/-! ## Construction -/

/-- `mString` after a constructor has asked `_allocFromUTF8`. -/
def ofAlloc (newString : Option Bytes) : ElString :=
  { mString := some (newString.getD emptyString), mCharCount := 0 }

/-- `String(const char*)` -/
def ofCstr (heap : Heap) (other : Option Bytes) : ElString :=
  match other with
  | none => null
  | some other => ofAlloc (allocFromUTF8 heap other (strlen other))

/-- `String(const char*, Int32)` -/
def ofBytes (heap : Heap) (other : Option Bytes) (numBytes : Int) : ElString :=
  match other with
  | none => null
  | some other => if numBytes > 0 then ofAlloc (allocFromUTF8 heap other numBytes) else null

/-- `String(const ArrayOf<Char32>&, Int32, Int32)` -/
def ofCharsRange (heap : Heap) (array : List Char32) (offset length : Int) : ElString :=
  (appendCharsRange heap { mString := some emptyString, mCharCount := 0 } array offset length).2

/-- `String(const ArrayOf<Char32>&, Int32)` -/
def ofChars (heap : Heap) (array : List Char32) (offset : Int) : ElString :=
  ofCharsRange heap array offset array.length

/-- `String(const ArrayOf<Byte>&, Int32)` -/
def ofByteArray (heap : Heap) (array : Bytes) (offset : Int) : ElString :=
  if offset ≥ 0 ∧ offset < array.length then
    ofAlloc (allocFromUTF8 heap (array.drop offset.toNat) (array.length - offset))
  else null

/-- `String(const ArrayOf<Byte>&, Int32, Int32)` -/
def ofByteArrayRange (heap : Heap) (array : Bytes) (offset length : Int) : ElString :=
  if offset ≥ 0 ∧ length > 0 ∧ offset < array.length ∧ offset + length ≤ array.length then
    ofAlloc (allocFromUTF8 heap (array.drop offset.toNat) length)
  else null

/-! ## Copies -/

/-- `Replace`: the new string and the object after `GetChars`. -/
def replace (heap : Heap) (s : ElString) (oldChar newChar : Char32) : ElString × ElString :=
  let (charArray, s) := s.getChars 0
  let copied := charArray.any (· == oldChar)
  let charArray := charArray.map fun c => if c = oldChar then newChar else c
  (if copied then ofChars heap charArray 0 else s, s)

/-- `ToLowerCase(Int32, Int32)` and `ToUpperCase(Int32, Int32)`, with the
conversion of one character: the new string and the object after `GetChars`. -/
def mapCase (heap : Heap) (conv : Char32 → Char32) (s : ElString) (offset numOfChars : Int) :
    ElString × ElString :=
  let offset := max offset 0
  let (chars, s) := s.getChars 0
  if chars.length = 0 then (ofCstr heap (some []), s)
  else
    let newChars := chars.mapIdx fun i c =>
      if (i : Int) ≥ offset ∧ (i : Int) < offset + numOfChars then conv c else c
    (ofChars heap newChars 0, s)

/-- `ToLowerCase(Char32)`, with `u_tolower` of the ICU tables. -/
def toLowerChar (u_tolower : Char32 → Char32) (codePoint : Char32) : Char32 :=
  if 65 ≤ codePoint ∧ codePoint ≤ 90 then codePoint + 32
  else if codePoint < 192 then codePoint
  else u_tolower codePoint

/-- `ToUpperCase(Char32)`, with `u_toupper` of the ICU tables. -/
def toUpperChar (u_toupper : Char32 → Char32) (codePoint : Char32) : Char32 :=
  if 97 ≤ codePoint ∧ codePoint ≤ 122 then codePoint - 32
  else if codePoint < 181 then codePoint
  else u_toupper codePoint

/-! ## Searches -/

/-- Where the loop of `ByteIndexOf` stands when it ends. -/
structure SearchEnd where
  found : Bool
  p : Bytes
  byteLength : Nat

/-- The loop of `ByteIndexOf`. -/
def byteIndexOfLoop (target : Char32) : Nat → Bytes → Nat → SearchEnd
  | 0, p, byteLength => { found := false, p, byteLength }
  | fuel + 1, p, byteLength =>
    if deref p = 0 then { found := false, p, byteLength }
    else
      let (ch, byteLength) := getCharInternal p
      if byteLength = 0 ∨ p.length ≤ byteLength then { found := false, p, byteLength }
      else if ch = target then { found := true, p, byteLength }
      else byteIndexOfLoop target fuel (p.drop byteLength) byteLength

/-- `ByteIndexOf`. Its `i` is 0 from the start to the `--i` at the end. -/
def byteIndexOf (s : ElString) (target : Char32) : Int × ElString :=
  if !isValidChar target then (-1, s)
  else if s.isNullOrEmpty then (-1, s)
  else
    let r := byteIndexOfLoop target s.data.length s.data 0
    if r.found then ((s.data.length : Int) - r.p.length, s)
    else if r.p.length ≤ r.byteLength && !s.isCounted then (-1, s.setCounted (0 - 1))
    else (-1, s)

/-- The loop of `IndexOf(Char32, Int32)`, with the test for the target. -/
def indexOfLoop (hit : Char32 → Bool) (start : Int) : Nat → Bytes → Int → Int
  | 0, _, _ => -1
  | fuel + 1, p, i =>
    if deref p = 0 then -1
    else if i < start then
      let byteLength := utf8SequenceLength (deref p)
      if byteLength = 0 ∨ p.length ≤ byteLength then -1
      else indexOfLoop hit start fuel (p.drop byteLength) (i + 1)
    else
      let (ch, byteLength) := getCharInternal p
      if byteLength = 0 ∨ p.length ≤ byteLength then -1
      else if hit ch then i
      else indexOfLoop hit start fuel (p.drop byteLength) (i + 1)

/-- `IndexOf(Char32, Int32)` and `IndexOfIgnoreCase(Char32, Int32)`, with the
test for the target: they read the bytes alone. -/
def indexOf (hit : Char32 → Bool) (s : ElString) (target : Char32) (start : Int) :
    Int × ElString :=
  if !isValidChar target then (-1, s)
  else
    let start := max 0 start
    if start ≥ s.getByteLength then (-1, s)
    else (indexOfLoop hit start s.data.length s.data 0, s)

/-- The index of the last of the first `n` elements that `hit` accepts, or -1;
`none` is an access outside the array. -/
def lastHit (hit : Char32 → Bool) (chars : List Char32) : Nat → Option Int
  | 0 => some (-1)
  | i + 1 =>
    match chars[i]? with
    | none => none
    | some ch => if hit ch then some i else lastHit hit chars i

/-- `LastIndexOf(Char32, Int32)` and `LastIndexOfIgnoreCase(Char32, Int32)`,
with the test for the target. `start + 1` is a 32-bit sum. -/
def lastIndexOfFrom (hit : Char32 → Bool) (s : ElString) (target : Char32) (start : Int) :
    Option Int × ElString :=
  if s.isNull then (some (-1), s)
  else if !isValidChar target then (some (-1), s)
  else
    let (chars, s) := s.getCharsRange 0 (toInt32 (max 0 start + 1))
    (lastHit hit chars chars.length, s)

/-- `LastIndexOf(Char32)` and `LastIndexOfIgnoreCase(Char32)` -/
def lastIndexOf (hit : Char32 → Bool) (s : ElString) (target : Char32) : Option Int × ElString :=
  let (length, s) := s.getLength
  s.lastIndexOfFrom hit target length

/-- The inner `while` of `LastIndexOf(const String&, Int32)` from the two
cursors on: where `o2` ends. The case-sensitive form moves the cursors before it
compares, the other one after. -/
def compareLoop (same : Char32 → Char32 → Bool) (chars subChars : List Char32) :
    Nat → Nat → Nat → Option Nat
  | 0, _, _ => none
  | fuel + 1, o1, o2 =>
    if o2 < subChars.length then
      match chars[o1]?, subChars[o2]? with
      | some a, some b =>
        if same a b then compareLoop same chars subChars fuel (o1 + 1) (o2 + 1) else some o2
      | _, _ => none
    else some o2

/-- The `while (TRUE)` of `LastIndexOf(const String&, Int32)`, with the
comparison of two characters. -/
def lastMatch (same : Char32 → Char32 → Bool) (chars subChars : List Char32) (firstChar : Char32) :
    Nat → Int → Option Int
  | 0, _ => none
  | fuel + 1, start =>
    match lastHit (fun ch => same ch firstChar) chars (start + 1).toNat with
    | none => none
    | some index =>
      if index = -1 then some (-1)
      else
        match compareLoop same chars subChars subChars.length (index.toNat + 1) 1 with
        | none => none
        | some o2 =>
          if o2 = subChars.length then some index
          else lastMatch same chars subChars firstChar fuel (index - 1)

/-- What `LastIndexOf(const String&, Int32)` does with the two arrays. -/
def lastIndexOfChars (same : Char32 → Char32 → Bool) (chars subChars : List Char32) (start : Int) :
    Option Int :=
  let count := (chars.length : Int)
  let subCount := (subChars.length : Int)
  if subCount ≤ count ∧ start ≥ 0 then
    if subCount > 0 then
      let start := min (min start (count - subCount)) (count - 1)
      match subChars[0]? with
      | none => none
      | some firstChar => lastMatch same chars subChars firstChar (chars.length + 1) start
    else some (min start count)
  else some (-1)

/-- `LastIndexOf(const String&, Int32)` and its case-insensitive form: the
index, the object and `subString` after `GetChars`. -/
def lastIndexOfString (same : Char32 → Char32 → Bool) (s subString : ElString) (start : Int) :
    Option Int × ElString × ElString :=
  if s.isNull || subString.isNull then (some (-1), s, subString)
  else
    let (chars, s) := s.getChars 0
    let (subChars, subString) := subString.getChars 0
    (lastIndexOfChars same chars subChars start, s, subString)

end ElString

end SuperExe.Elastos
