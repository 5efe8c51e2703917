import SuperExe.Elastos.CountCache

/-! # Runs of string operations

Any sequence of calls of the public members of `class String` on any number of
strings, which are numbered. The members are grouped by what they change: a
constructor, an update of one string, an update from another string, a copy,
a query of one string and a search of one string in another.

`Contains`, `StartWith`, `IndexOf(const char*)` and the other searches that are
not here are functions of the bytes alone: they never see the object.
-/

namespace SuperExe.Elastos

open SuperExe.Core SuperExe.Lib

/-- The constructors; the copy constructor is `Join.assign`. -/
inductive Ctor where
  | null
  | cstr (other : Option Bytes)
  | bytes (other : Option Bytes) (numBytes : Int)
  | chars (array : List Char32) (offset : Int)
  | charsRange (array : List Char32) (offset length : Int)
  | byteArray (array : Bytes) (offset : Int)
  | byteArrayRange (array : Bytes) (offset length : Int)

/-- Updates of one string: `operator=(const char*)`, `Append` and `operator+=`
of a C string, of a character and of characters, `AppendFormat`. -/
inductive Update where
  | assign (other : Option Bytes)
  | append (other : Bytes)
  | appendChar (ch : Char32)
  | appendChars (array : List Char32) (offset : Int)
  | appendCharsRange (array : List Char32) (offset length : Int)
  | appendFormat (text again : Bytes)

/-- Updates from another string: the copy constructor and `operator=`, `Append`
and `operator+=`. -/
inductive Join where
  | assign
  | append
  | appendFrom (charOffset : Int)
  | appendRange (offset numOfChars : Int)

/-- Members that give a new string. -/
inductive Copy where
  | replace (oldChar newChar : Char32)
  | toLowerCase
  | toLowerCaseRange (offset numOfChars : Int)
  | toUpperCase
  | toUpperCaseRange (offset numOfChars : Int)

/-- Members that read one string. `ignoreCase` selects the `..IgnoreCase`
member. -/
inductive Query where
  | getLength
  | getChars (start : Int)
  | getCharsRange (start stop : Int)
  | byteIndexOf (target : Char32)
  | indexOf (ignoreCase : Bool) (target : Char32) (start : Int)
  | lastIndexOf (ignoreCase : Bool) (target : Char32)
  | lastIndexOfFrom (ignoreCase : Bool) (target : Char32) (start : Int)
  | lastIndexOfCstr (ignoreCase : Bool) (subString : Option Bytes)
  | lastIndexOfCstrFrom (ignoreCase : Bool) (subString : Option Bytes) (start : Int)

inductive Op where
  | create (x : Nat) (c : Ctor)
  | update (x : Nat) (u : Update)
  | join (x y : Nat) (j : Join) (stale : Option Bytes)
  | copy (x y : Nat) (c : Copy)
  | query (x : Nat) (q : Query)
  | lastIndexOf (x y : Nat) (ignoreCase : Bool)
  | lastIndexOfFrom (x y : Nat) (ignoreCase : Bool) (start : Int)

/-- A call and what the allocator answers during it. -/
structure Call where
  heap : Heap
  op : Op

/-- The strings of the program. -/
abbrev Strings := Nat → ElString

section Step

variable (u_tolower u_toupper : Char32 → Char32)

/-- The comparison of two characters. -/
def same (ignoreCase : Bool) (a b : Char32) : Bool :=
  a == b ||
    (ignoreCase && ElString.toUpperChar u_toupper a == ElString.toUpperChar u_toupper b)

def Ctor.build (heap : Heap) : Ctor → ElString
  | .null => ElString.null
  | .cstr other => ElString.ofCstr heap other
  | .bytes other numBytes => ElString.ofBytes heap other numBytes
  | .chars array offset => ElString.ofChars heap array offset
  | .charsRange array offset length => ElString.ofCharsRange heap array offset length
  | .byteArray array offset => ElString.ofByteArray heap array offset
  | .byteArrayRange array offset length => ElString.ofByteArrayRange heap array offset length

def Update.apply (heap : Heap) (s : ElString) : Update → ElString
  | .assign other => (s.setToCstr heap other).2
  | .append other => (s.appendCstr heap other).2
  | .appendChar ch => (s.appendChar heap ch).2
  | .appendChars array offset => (s.appendChars heap array offset).2
  | .appendCharsRange array offset length => (s.appendCharsRange heap array offset length).2
  | .appendFormat text again => (s.appendFormat heap text again).2

def Join.apply (heap : Heap) (s other : ElString) (stale : Option Bytes) : Join → ElString
  | .assign => s.setTo other
  | .append => (s.append heap other stale).2
  | .appendFrom charOffset => (s.appendFrom heap other charOffset stale).2
  | .appendRange offset numOfChars => (s.appendRange heap other offset numOfChars stale).2

/-- The new string and the object it was made from. -/
def Copy.apply (heap : Heap) (s : ElString) : Copy → ElString × ElString
  | .replace oldChar newChar => s.replace heap oldChar newChar
  | .toLowerCase =>
    let (length, s) := s.getLength
    ElString.mapCase heap (ElString.toLowerChar u_tolower) s 0 length
  | .toLowerCaseRange offset numOfChars =>
    ElString.mapCase heap (ElString.toLowerChar u_tolower) s offset numOfChars
  | .toUpperCase =>
    let (length, s) := s.getLength
    ElString.mapCase heap (ElString.toUpperChar u_toupper) s 0 length
  | .toUpperCaseRange offset numOfChars =>
    ElString.mapCase heap (ElString.toUpperChar u_toupper) s offset numOfChars

/-- The object after a query. -/
def Query.apply (heap : Heap) (s : ElString) : Query → ElString
  | .getLength => s.getLength.2
  | .getChars start => (s.getChars start).2
  | .getCharsRange start stop => (s.getCharsRange start stop).2
  | .byteIndexOf target => (s.byteIndexOf target).2
  | .indexOf ignoreCase target start =>
    (s.indexOf (fun ch => same u_toupper ignoreCase ch target) target start).2
  | .lastIndexOf ignoreCase target =>
    (s.lastIndexOf (fun ch => same u_toupper ignoreCase ch target) target).2
  | .lastIndexOfFrom ignoreCase target start =>
    (s.lastIndexOfFrom (fun ch => same u_toupper ignoreCase ch target) target start).2
  | .lastIndexOfCstr ignoreCase subString =>
    let (length, s) := s.getLength
    (s.lastIndexOfString (same u_toupper ignoreCase) (ElString.ofCstr heap subString) length).2.1
  | .lastIndexOfCstrFrom ignoreCase subString start =>
    (s.lastIndexOfString (same u_toupper ignoreCase) (ElString.ofCstr heap subString) start).2.1

/-- `LastIndexOf(const String&, Int32)` and its `IgnoreCase` form, `y` in
`x`. -/
def lastIndexOfFrom (m : Strings) (x y : Nat) (ignoreCase : Bool) (start : Int) : Strings :=
  let r := (m x).lastIndexOfString (same u_toupper ignoreCase) (m y) start
  Function.update (Function.update m x r.2.1) y r.2.2

def stepOp (m : Strings) (heap : Heap) : Op → Strings
  | .create x c => Function.update m x (c.build heap)
  | .update x u => Function.update m x (u.apply heap (m x))
  | .join x y j stale =>
    -- only a string appended to itself can lose its buffer before it is read
    Function.update m x (j.apply heap (m x) (m y) (if x = y then stale else none))
  | .copy x y c =>
    let r := c.apply u_tolower u_toupper heap (m y)
    Function.update (Function.update m y r.2) x r.1
  | .query x q => Function.update m x (q.apply u_toupper heap (m x))
  | .lastIndexOf x y false =>
    let (length, s) := (m x).getLength
    lastIndexOfFrom u_toupper (Function.update m x s) x y false length
  | .lastIndexOf x y true =>
    -- this one searches for a copy of the C string of `y`
    Function.update m x
      ((Query.lastIndexOfCstr true ((m y).mString.map fun b => b.takeWhile (· != 0))).apply
        u_toupper heap (m x))
  | .lastIndexOfFrom x y ignoreCase start => lastIndexOfFrom u_toupper m x y ignoreCase start

/-- The machine of all calls. -/
def stringMachine : Machine Strings Call where
  step m e := stepOp u_tolower u_toupper m e.heap e.op

end Step

/-! ## Valid inputs -/

/-- UTF-8 text where bytes are given, no NUL among the code points. -/
def Ctor.Valid : Ctor → Prop
  | .null => True
  | .cstr other => ∀ b, other = some b → IsText b
  | .bytes other numBytes =>
    ∀ b, other = some b → numBytes ≤ b.length ∧ IsText (b.take numBytes.toNat)
  | .chars array _ => ∀ v ∈ array, isValidChar v = true ∧ v ≠ 0
  | .charsRange array _ _ => ∀ v ∈ array, isValidChar v = true ∧ v ≠ 0
  | .byteArray array offset => IsText (array.drop offset.toNat)
  | .byteArrayRange array offset length => IsText ((array.drop offset.toNat).take length.toNat)

def Update.Valid : Update → Prop
  | .assign other => ∀ b, other = some b → IsText b
  | .append other => IsText other
  | .appendChar ch => isValidChar ch = true ∧ ch ≠ 0
  | .appendChars array _ => ∀ v ∈ array, isValidChar v = true ∧ v ≠ 0
  | .appendCharsRange array _ _ => ∀ v ∈ array, isValidChar v = true ∧ v ≠ 0
  | .appendFormat text _ => IsText text

def Copy.Valid : Copy → Prop
  | .replace oldChar newChar =>
    isValidChar oldChar = true ∧ isValidChar newChar = true ∧ newChar ≠ 0
  | _ => True

def Query.Valid : Query → Prop
  | .lastIndexOfCstr _ subString => ∀ b, subString = some b → IsText b
  | .lastIndexOfCstrFrom _ subString _ => ∀ b, subString = some b → IsText b
  | _ => True

def Op.Valid : Op → Prop
  | .create _ c => c.Valid
  | .update _ u => u.Valid
  | .copy _ _ c => c.Valid
  | .query _ q => q.Valid
  | _ => True

/-- The two places where the code leaves the language: `AppendFormat` uses its
`va_list` a second time, so that the second pass need not write what the first
one measured, and a string appended to itself may be read after its buffer has
moved. -/
def Op.Defined : Op → Prop
  | .update _ (.appendFormat text again) => again = text
  | .join x y _ stale => x = y → stale = none
  | _ => True

/-- What is assumed of every call. -/
def Call.Ok (e : Call) : Prop := e.heap.Bounded ∧ e.op.Valid ∧ e.op.Defined

/-! ## The condition and the property -/

/-- A `ByteIndexOf` for a valid character on a string that is neither empty nor
counted finds the character. -/
def SearchHits (m : Strings) (e : Call) : Prop :=
  match e.op with
  | .query x (.byteIndexOf target) =>
    isValidChar target = true → (m x).contents ≠ [] → (m x).isCounted = false →
      ∃ cs, NoNul cs ∧ (m x).contents = utf8 cs ∧ target ∈ cs.map Char.val
  | _ => True

/-- The contents are a text `cs`, which `utf8_injective` makes unique; the
cache, if it is marked as counted, is the number of its code points, and that is
what `GetLength` returns. -/
def CountOk (s : ElString) : Prop :=
  ∃ cs, NoNul cs ∧ s.contents = utf8 cs ∧
    (s.isCounted = true → (0x7FFFFFFF &&& s.mCharCount).toNat = cs.length) ∧
    s.getLength.1 = cs.length

theorem ElString.Ok.countOk {s : ElString} (h : s.Ok) : CountOk s := by
  obtain ⟨cs, hs⟩ := h
  exact ⟨cs, hs.noNul, hs.contents_eq, hs.counted, (ElString.getLength_spec hs).1⟩

/-! ## One call -/

section Calls

variable {u_tolower u_toupper : Char32 → Char32} {heap : Heap} {s other : ElString}

theorem Ctor.build_ok (hb : heap.Bounded) {c : Ctor} (hc : c.Valid) : (c.build heap).Ok := by
  cases c with
  | null => exact ⟨[], ElString.holds_null⟩
  | cstr other => exact ElString.ofCstr_ok hb hc
  | bytes other numBytes => exact ElString.ofBytes_ok hb hc
  | chars array offset => exact ElString.ofCharsRange_ok hb (fun v hv => (hc v hv).2) _ _
  | charsRange array offset length => exact ElString.ofCharsRange_ok hb (fun v hv => (hc v hv).2) _ _
  | byteArray array offset => exact ElString.ofByteArray_ok hb hc
  | byteArrayRange array offset length => exact ElString.ofByteArrayRange_ok hb hc

theorem Update.apply_ok (hb : heap.Bounded) (hs : s.Ok) {x : Nat} {u : Update} (hu : u.Valid)
    (hd : (Op.update x u).Defined) : (u.apply heap s).Ok := by
  obtain ⟨cs, hs⟩ := hs
  cases u with
  | assign other => exact ElString.setToCstr_spec hb hs hu
  | append other => exact ElString.appendCstr_ok hb hs hu
  | appendChar ch => exact ElString.appendChar_ok hb hs hu.2
  | appendChars array offset =>
    exact ElString.appendCharsRange_ok hb hs (fun v hv => (hu v hv).2) _ _
  | appendCharsRange array offset length =>
    exact ElString.appendCharsRange_ok hb hs (fun v hv => (hu v hv).2) _ _
  | appendFormat text again =>
    obtain rfl : again = text := hd
    exact ElString.appendFormat_ok hb hs hu

theorem Join.apply_ok (hb : heap.Bounded) (hs : s.Ok) (ho : other.Ok) (j : Join) :
    (j.apply heap s other none).Ok := by
  obtain ⟨cs, hs⟩ := hs
  obtain ⟨ds, ho⟩ := ho
  cases j with
  | assign => exact ⟨ds, ho⟩
  | append => exact ElString.append_ok hb hs ho
  | appendFrom charOffset => exact ElString.appendFrom_ok hb hs ho charOffset
  | appendRange offset numOfChars => exact ElString.appendRange_ok hb hs ho offset numOfChars

theorem Copy.apply_ok (hl : ∀ c, c ≠ 0 → u_tolower c ≠ 0) (hu : ∀ c, c ≠ 0 → u_toupper c ≠ 0)
    (hb : heap.Bounded) (hs : s.Ok) {c : Copy} (hc : c.Valid) :
    (c.apply u_tolower u_toupper heap s).1.Ok ∧ (c.apply u_tolower u_toupper heap s).2.Ok := by
  obtain ⟨cs, hs⟩ := hs
  have hs' := (ElString.getLength_spec hs).2.1
  have hlower := ElString.toLowerChar_ne hl
  have hupper := ElString.toUpperChar_ne hu
  cases c with
  | replace oldChar newChar => exact ElString.replace_ok hb hs oldChar hc.2.2
  | toLowerCase => exact ElString.mapCase_ok hb hs' hlower _ _
  | toLowerCaseRange offset numOfChars => exact ElString.mapCase_ok hb hs hlower _ _
  | toUpperCase => exact ElString.mapCase_ok hb hs' hupper _ _
  | toUpperCaseRange offset numOfChars => exact ElString.mapCase_ok hb hs hupper _ _

/-- Every query but a missed `ByteIndexOf`. -/
theorem Query.apply_ok (hb : heap.Bounded) (hs : s.Ok) {q : Query} (hq : q.Valid)
    (hhit : ∀ target, q = .byteIndexOf target → (s.byteIndexOf target).2 = s) :
    (q.apply u_toupper heap s).Ok := by
  obtain ⟨cs, hs⟩ := id hs
  have hs' := (ElString.getLength_spec hs).2.1
  cases q with
  | getLength => exact ⟨cs, hs'⟩
  | getChars start => exact ⟨cs, ElString.getChars_holds hs start⟩
  | getCharsRange start stop => exact ⟨cs, ElString.getCharsRange_holds hs start stop⟩
  | byteIndexOf target =>
    refine ⟨cs, ?_⟩
    rw [Query.apply, hhit target rfl]
    exact hs
  | indexOf ignoreCase target start =>
    refine ⟨cs, ?_⟩
    rw [Query.apply, ElString.indexOf_state]
    exact hs
  | lastIndexOf ignoreCase target => exact ElString.lastIndexOf_ok hs _ target
  | lastIndexOfFrom ignoreCase target start => exact ElString.lastIndexOfFrom_ok hs _ target start
  | lastIndexOfCstr ignoreCase subString =>
    obtain ⟨ds, hsub⟩ := ElString.ofCstr_ok hb hq
    exact (ElString.lastIndexOfString_ok hs' hsub _ _).1
  | lastIndexOfCstrFrom ignoreCase subString start =>
    obtain ⟨ds, hsub⟩ := ElString.ofCstr_ok hb hq
    exact (ElString.lastIndexOfString_ok hs hsub _ _).1

end Calls

/-! ## Runs -/

section Runs

variable {u_tolower u_toupper : Char32 → Char32}

/-- The invariant: every string holds a text. -/
def AllOk (m : Strings) : Prop := ∀ x, (m x).Ok

theorem AllOk.update {m : Strings} (h : AllOk m) (x : Nat) {s : ElString} (hs : s.Ok) :
    AllOk (Function.update m x s) := by
  intro y
  by_cases hy : y = x
  · rw [hy, Function.update_self]
    exact hs
  · rw [Function.update_of_ne hy]
    exact h y

theorem AllOk.lastIndexOfFrom {m : Strings} (h : AllOk m) (x y : Nat) (ignoreCase : Bool)
    (start : Int) : AllOk (lastIndexOfFrom u_toupper m x y ignoreCase start) := by
  obtain ⟨cs, hx⟩ := h x
  obtain ⟨ds, hy⟩ := h y
  obtain ⟨h1, h2⟩ := ElString.lastIndexOfString_ok hx hy (same u_toupper ignoreCase) start
  exact (h.update x h1).update y h2

/-- A search that hits leaves the string alone. -/
theorem byteIndexOf_of_hits {m : Strings} (h : AllOk m) {heap : Heap} {x : Nat} {target : Char32}
    (hhit : SearchHits m ⟨heap, .query x (.byteIndexOf target)⟩) :
    ((m x).byteIndexOf target).2 = m x := by
  obtain ⟨cs, hx⟩ := h x
  apply ElString.byteIndexOf_state hx
  intro hvalid hne hc
  have hcontents : (m x).contents ≠ [] := by
    rw [hx.contents_eq]
    intro hnil
    have := length_utf8_pos hne
    rw [hnil] at this
    exact absurd this (Nat.lt_irrefl 0)
  obtain ⟨ds, -, hds, hmem⟩ := hhit hvalid hcontents hc
  rw [hx.contents_eq] at hds
  rwa [utf8_injective hds]

/-- Every call but a missed `ByteIndexOf` keeps every cache right. -/
theorem step_ok (hl : ∀ c, c ≠ 0 → u_tolower c ≠ 0) (hu : ∀ c, c ≠ 0 → u_toupper c ≠ 0)
    (m : Strings) (e : Call) (h : AllOk m) (he : e.Ok) (hhit : SearchHits m e) :
    AllOk ((stringMachine u_tolower u_toupper).step m e) := by
  obtain ⟨heap, op⟩ := e
  obtain ⟨hb, hvalid, hdef⟩ := he
  cases op with
  | create x c => exact h.update x (Ctor.build_ok hb hvalid)
  | update x u => exact h.update x (Update.apply_ok hb (h x) hvalid hdef)
  | join x y j stale =>
    have hstale : (if x = y then stale else none) = none := by
      split_ifs with hxy
      · exact hdef hxy
      · rfl
    simp only [stringMachine, stepOp, hstale]
    exact h.update x (Join.apply_ok hb (h x) (h y) j)
  | copy x y c =>
    obtain ⟨h1, h2⟩ := Copy.apply_ok hl hu hb (h y) hvalid
    exact (h.update y h2).update x h1
  | query x q =>
    refine h.update x (Query.apply_ok hb (h x) hvalid ?_)
    rintro target rfl
    exact byteIndexOf_of_hits h hhit
  | lastIndexOf x y ignoreCase =>
    obtain ⟨cs, hx⟩ := h x
    cases ignoreCase with
    | false => exact (h.update x ⟨cs, (ElString.getLength_spec hx).2.1⟩).lastIndexOfFrom x y false _
    | true =>
      refine h.update x (Query.apply_ok hb (h x) ?_ ?_)
      · intro b hb'
        obtain ⟨ds, hy⟩ := h y
        obtain ⟨buf, hbuf, rfl⟩ := Option.map_eq_some_iff.mp hb'
        refine ⟨ds, hy.noNul, ?_⟩
        rw [← hy.contents_eq, ElString.contents, ElString.data, hbuf, Option.getD_some]
      · intro target heq
        cases heq
  | lastIndexOfFrom x y ignoreCase start => exact h.lastIndexOfFrom x y ignoreCase start

/-- A missed `ByteIndexOf` breaks the cache at once. -/
theorem step_missed (m : Strings) (e : Call) (h : AllOk m) (hmiss : ¬ SearchHits m e) :
    ¬ ∀ x, CountOk ((stringMachine u_tolower u_toupper).step m e x) := by
  obtain ⟨heap, op⟩ := e
  cases op with
  | query x q =>
    cases q with
    | byteIndexOf target =>
      obtain ⟨cs, hx⟩ := h x
      simp only [SearchHits, not_forall, not_exists] at hmiss
      obtain ⟨hvalid, hcontents, hc, hnone⟩ := hmiss
      have hne : cs ≠ [] := by
        rintro rfl
        exact hcontents hx.contents_eq
      have hmem : target ∉ cs.map Char.val := fun hmem =>
        hnone cs ⟨hx.noNul, hx.contents_eq, hmem⟩
      intro hall
      obtain ⟨ds, -, hds, hcount, -⟩ := hall x
      simp only [stringMachine, stepOp, Query.apply, Function.update_self] at hds hcount
      rw [ElString.byteIndexOf_missed hx hvalid hne hc hmem] at hds hcount
      -- the contents are the same, and the count is 2^31 - 1
      have hsame : cs = ds := utf8_injective (hx.contents_eq.symm.trans hds)
      have hlow := hcount (isCounted_setCounted (m x) (-1))
      rw [low_setCounted, ← hsame] at hlow
      have hlt := hx.length_lt
      have hall : (UInt32.ofInt (-1)).toNat % 2 ^ 31 = 2 ^ 31 - 1 := by decide
      omega
    | _ => exact absurd trivial hmiss
  | _ => exact absurd trivial hmiss

/-- Before the first call every string is `String()`. -/
def noStrings : Strings := fun _ => ElString.null

theorem noStrings_ok : AllOk noStrings := fun _ => ⟨[], ElString.holds_null⟩

/-- Over every run with valid inputs, the cached lengths are right in every
state exactly if every `ByteIndexOf` that is made on a string not yet counted
finds its character. -/
theorem count_cache_iff (hl : ∀ c, c ≠ 0 → u_tolower c ≠ 0) (hu : ∀ c, c ≠ 0 → u_toupper c ≠ 0)
    (calls : List Call)
    (hcalls : (stringMachine u_tolower u_toupper).AllSteps (fun _ e => e.Ok) noStrings calls) :
    (stringMachine u_tolower u_toupper).AllStates (fun m => ∀ x, CountOk (m x)) noStrings calls ↔
      (stringMachine u_tolower u_toupper).AllSteps SearchHits noStrings calls :=
  Machine.allStates_iff_allSteps_of_env _ (fun _ h x => (h x).countOk)
    (fun m e h he hhit => step_ok hl hu m e h he hhit)
    (fun m e h _ hmiss => step_missed m e h hmiss) noStrings_ok hcalls

end Runs

/-! ## Two runs -/

/-- Memory for every buffer below 2 GiB. -/
def enoughMemory : Heap where
  sharedBuffer n := n < 2 ^ 31
  byteCounts := true
  byteArray := true

theorem enoughMemory_bounded : enoughMemory.Bounded := by
  intro n hn
  simpa [enoughMemory] using hn

/-- `String s("a"); s.ByteIndexOf('b');` -/
def missedSearch : List Call :=
  [⟨enoughMemory, .create 0 (.cstr (some (bytes "a")))⟩,
   ⟨enoughMemory, .query 0 (.byteIndexOf 98)⟩]

/-- After the missed search the string says it has 2^31 - 1 characters. -/
theorem count_cache_missed :
    (stringMachine id id).AllSteps (fun _ e => e.Ok) noStrings missedSearch ∧
    ((stringMachine id id).run noStrings missedSearch 0).contents = utf8 ['a'] ∧
    ((stringMachine id id).run noStrings missedSearch 0).isCounted = true ∧
    ((stringMachine id id).run noStrings missedSearch 0).getLength.1 = 2147483647 ∧
    ¬ (stringMachine id id).AllStates (fun m => ∀ x, CountOk (m x)) noStrings missedSearch := by
  have hcontents : ((stringMachine id id).run noStrings missedSearch 0).contents = utf8 ['a'] := by
    decide
  have hlength : ((stringMachine id id).run noStrings missedSearch 0).getLength.1 = 2147483647 := by
    decide
  refine ⟨?_, hcontents, by decide, hlength, ?_⟩
  · refine ⟨⟨enoughMemory_bounded, ?_, trivial⟩, ⟨enoughMemory_bounded, trivial, trivial⟩, trivial⟩
    rintro b ⟨⟩
    exact ⟨['a'], by decide, by decide⟩
  · intro hall
    obtain ⟨ds, -, hds, -, hlen⟩ := hall.last 0
    rw [hcontents] at hds
    rw [hlength, ← utf8_injective hds] at hlen
    exact absurd hlen (by decide)

/-- `String s(array); String t(s); t += "b"; t.GetLength(); s = t.ToLowerCase();
s.ByteIndexOf(..);` with the array `Aé`. -/
def countedRun : List Call :=
  [⟨enoughMemory, .create 0 (.chars [0x41, 0xE9] 0)⟩,
   ⟨enoughMemory, .join 1 0 .assign none⟩,
   ⟨enoughMemory, .update 1 (.append (bytes "b"))⟩,
   ⟨enoughMemory, .query 1 .getLength⟩,
   ⟨enoughMemory, .copy 0 1 .toLowerCase⟩,
   ⟨enoughMemory, .query 0 (.byteIndexOf 0xE9)⟩]

theorem count_cache_kept :
    (stringMachine id id).AllStates (fun m => ∀ x, CountOk (m x)) noStrings countedRun ∧
    ((stringMachine id id).run noStrings countedRun 0).getLength.1 = 3 := by
  refine ⟨(count_cache_iff (fun _ h => h) (fun _ h => h) countedRun ?_).mpr ?_, by decide⟩
  · have hchars : ∀ v ∈ ([0x41, 0xE9] : List Char32), isValidChar v = true ∧ v ≠ 0 := by
      intro v hv
      rcases List.mem_pair.mp hv with rfl | rfl
      · decide
      · decide
    refine ⟨⟨enoughMemory_bounded, hchars, trivial⟩,
      ⟨enoughMemory_bounded, trivial, fun _ => rfl⟩,
      ⟨enoughMemory_bounded, ⟨['b'], by decide, by decide⟩, trivial⟩,
      ⟨enoughMemory_bounded, trivial, trivial⟩, ⟨enoughMemory_bounded, trivial, trivial⟩,
      ⟨enoughMemory_bounded, trivial, trivial⟩, trivial⟩
  · refine ⟨trivial, trivial, trivial, trivial, trivial, ?_, trivial⟩
    intro _ _ _
    exact ⟨['a', Char.ofNat 0xE9, 'b'], by decide, by decide, by decide⟩

end SuperExe.Elastos
