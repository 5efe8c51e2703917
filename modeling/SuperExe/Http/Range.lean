import SuperExe.Http.Isolation

/-! # Ranges

A `Range` header goes through three functions: `mk_http_range_parse` reads its
numbers, `mk_http_range_set` turns them into an offset and a length of the file,
and `mk_header_prepare` writes the `Content-Range` row. `rangeSpec` is the
grammar of a single byte range and `RangeForm.select` what it selects of a file;
`RangeCorrect` compares the two.

The code is more liberal than the grammar, keeps its numbers in an `int` and does
not clip; `range_correct_iff` says which texts and file sizes are not affected.
-/

namespace SuperExe.Http

open SuperExe.Core SuperExe.Vhost

/-! ## The grammar -/

/-- The three forms of a byte range. -/
inductive RangeForm where
  /-- `first-last` -/
  | fromTo (first last : Nat)
  /-- `first-` -/
  | from_ (first : Nat)
  /-- `-length` -/
  | suffix (length : Nat)
deriving DecidableEq, Repr

/-- A number of at least one decimal digit. -/
def isNumber (s : Bytes) : Bool := s ≠ [] && s.all isDigit

/-- The value of decimal digits. -/
def decimalValue (s : Bytes) : Nat := s.foldl (fun acc c => acc * 10 + (c.toNat - 48)) 0

/-- A single byte range: `bytes=`, in any case, and one of the three forms. -/
def rangeSpec (text : Bytes) : Option RangeForm :=
  if (text.take 6).map tolower = bytes "bytes=" then
    let spec := text.drop 6
    match spec.findIdx? (· = 45) with
    | none => none
    | some i =>
      let first := spec.take i
      let last := spec.drop (i + 1)
      if isNumber first ∧ isNumber last then
        some (.fromTo (decimalValue first) (decimalValue last))
      else if isNumber first ∧ last = [] then some (.from_ (decimalValue first))
      else if first = [] ∧ isNumber last then some (.suffix (decimalValue last))
      else none
  else none

/-- The first and the last byte a range selects of a file of `n` bytes, clipped
to the file. -/
def RangeForm.select (n : Int) : RangeForm → Option (Int × Int)
  | .fromTo a b => if a ≤ b ∧ (a : Int) < n then some (a, min (b : Int) (n - 1)) else none
  | .from_ a => if (a : Int) < n then some (a, n - 1) else none
  | .suffix l => if 0 < l ∧ 0 < n then some (n - min (l : Int) n, n - 1) else none

/-! ## The code -/

/-- The `-` stands in front of the `=`: `mk_string_copy_substr` returns `NULL`,
which goes to `atol`. The text in front of the `=` has passed the comparison
with `Bytes`, so this needs a NUL in it. -/
def rangeCrashes (text : Bytes) : Bool :=
  match text.findIdx? (· = 61), text.findIdx? (· = 45) with
  | some eqPos, some sepPos =>
    strncasecmpEq (cstr text) (cstr (bytes "Bytes")) eqPos && decide (sepPos < eqPos)
  | _, _ => false

/-- The offset and the length `mk_http_range_set` stores before it looks at
them. -/
def rangeOffsets (ranges : Int × Int) (fileSize : Int) : Int × Int :=
  if ranges.1 ≥ 0 ∧ ranges.2 = -1 then (ranges.1, fileSize - ranges.1)
  else if ranges.1 ≥ 0 ∧ ranges.2 ≥ 0 then
    (ranges.1, ((toInt32 (ranges.2 - ranges.1)).natAbs : Int) + 1)
  else if ranges.1 = -1 ∧ ranges.2 > 0 then (fileSize - ranges.2, ranges.2)
  else (0, fileSize)

theorem mkHttpRangeSet_eq (ranges : Int × Int) (fileSize : Int) :
    mkHttpRangeSet ranges fileSize =
      let r := rangeOffsets ranges fileSize
      if r.1 < 0 ∨ r.1 ≥ fileSize ∨ r.2 > fileSize then none else some r := rfl

/-- What comes of a `Range` header: the process ends, `mk_http_range_parse`
refuses, `mk_http_range_set` refuses with the offset and the length it has
stored, or the part is sent. -/
inductive RangeAnswer where
  | crash
  | refused
  | unsatisfiable (offsets : Int × Int)
  | served (ranges : Int × Int) (contentLength : Int) (offsets : Int × Int)
deriving DecidableEq, Repr

/-- The `HTTP Ranges` part of `mk_http_init` for a file of `n` bytes; `rest` is
what stands behind the value of the header. -/
def rangeAnswer (text rest : Bytes) (n : Int) : RangeAnswer :=
  if rangeCrashes text then .crash
  else
    match mkHttpRangeParse text rest n with
    | none => .refused
    | some (ranges, length) =>
      match mkHttpRangeSet ranges n with
      | none => .unsatisfiable (rangeOffsets ranges n)
      | some offsets => .served ranges length offsets

/-- The acts of `mk_http_init` for a `Range` header, by its answer. -/
theorem rangeActs_answer {k : World} {r : Incoming} (f : Found) (info : FileInfo) (fd : Int)
    (hdata : (mkHttpPointHeader r.p .range).data.isSome) (hresume : k.resume = true) :
    let range := mkHttpPointHeader r.p .range
    let tail := (List.range 32).map fun j => r.buffer ((range.data.getD 0) + range.len.toNat + j)
    let err := mkHttpError k f.host r.req.method r.uriText
    match rangeAnswer (r.slice range) tail info.size with
    | .crash => True
    | .refused => rangeActs k r f info fd = ([.ranges (-1) (-1)] ++ err clientBadRequest, none)
    | .unsatisfiable _ => ∃ parsed, rangeActs k r f info fd =
        (parsed ++ [.contentLength (-1), .ranges (-1) (-1)] ++ err 416, none)
    | .served ranges length offsets => ∃ status, rangeActs k r f info fd =
        ([.ranges ranges.1 ranges.2, .contentLength length] ++ status ++
          [.fileStream { fd := fd, bytesTotal := offsets.2, bytesOffset := offsets.1,
                         preserve := false }], some length) := by
  intro range tail err
  unfold rangeAnswer rangeActs
  simp only [hdata, hresume, and_self, if_true]
  cases rangeCrashes (r.slice range) with
  | true => trivial
  | false =>
    cases hparse : mkHttpRangeParse (r.slice range) tail info.size with
    | none => rfl
    | some parsed =>
      simp only [Bool.false_eq_true, if_false]
      cases hset : mkHttpRangeSet parsed.1 info.size with
      | none => exact ⟨_, rfl⟩
      | some offsets => exact ⟨_, rfl⟩

/-- The `Content-Range` row `mk_header_prepare` writes. -/
def contentRangeRow (env : PrepareEnv) (ranges : Int × Int) (contentLength n : Int) :
    List (HeaderBuf × Nat) :=
  contentRangeEntries env { responseHeadersZero with
    ranges := ranges, contentLength := contentLength, realLength := n }

/-- The answer to a `Range` header is right. What is sent is the selected part,
with its length and its `Content-Range` row; a header that selects nothing is
refused and leaves offset and length as they were. -/
def RangeCorrect (env : PrepareEnv) (text rest : Bytes) (n : Int) : Prop :=
  match rangeAnswer text rest n, (rangeSpec text).bind (RangeForm.select n) with
  | .crash, _ => False
  | .refused, _ => True
  | .unsatisfiable offsets, none => offsets = (0, n)
  | .unsatisfiable _, some _ => False
  | .served _ _ _, none => False
  | .served ranges contentLength offsets, some (first, last) =>
    offsets = (first, last - first + 1) ∧ offsets.1 + offsets.2 ≤ n ∧ last < n ∧
      contentLength = offsets.2 ∧
      contentRangeRow env ranges contentLength n = [textEntry (contentRange first last n)]

/-! ## Numbers -/

theorem cstr_append_left {a b : Bytes} {x : Nat} (hx : x < a.length) :
    cstr (a ++ b) x = a[x] := by
  simp [cstr, List.getD_eq_getElem?_getD, List.getElem?_append_left hx, hx]

/-- `strtol` of white space and a number: it stops at the first byte that is not
a digit, and at `LONG_MAX`. -/
theorem strtol_number {rd : Nat → UInt8} {len pos n : Nat} {ds : Bytes}
    (hspace : ∀ k < n, isSpace (rd (pos + k)) = true) (hds : isNumber ds = true)
    (hrd : ∀ k < ds.length, rd (pos + n + k) = cstr ds k) (hlen : pos + n + ds.length ≤ len)
    (hend : pos + n + ds.length = len ∨ isDigit (rd (pos + n + ds.length)) = false) :
    strtol rd len pos =
      { val := min (decimalValue ds : Int) longMax
        endptr := pos + n + ds.length
        erange := decide (longMax < decimalValue ds) } := by
  simp only [isNumber, ne_eq, Bool.and_eq_true, decide_eq_true_eq, List.all_eq_true] at hds
  rcases hds with ⟨hne, hdigits⟩
  have hpos : 0 < ds.length := List.length_pos_of_ne_nil hne
  have hbyte : ∀ x, pos + n ≤ x → x < pos + n + ds.length → isDigit (rd x) = true := by
    intro x hx hlt
    rcases Nat.exists_eq_add_of_le hx with ⟨k, rfl⟩
    have hk : k < ds.length := by omega
    rw [hrd k hk]
    refine hdigits _ ?_
    simp [cstr, hk]
  have hplain := isDigit_plain (hbyte (pos + n) (Nat.le_refl _) (by omega))
  have hsign : strtolSign rd len pos = pos + n := by
    refine skipWhile_eq (by omega) (by omega) ?_ (.inr hplain.1)
    intro x hx hlt
    rcases Nat.exists_eq_add_of_le hx with ⟨k, rfl⟩
    exact hspace k (by omega)
  -- no sign is skipped, and the digits are those of `ds`
  have hdig : strtolDigits rd len pos = pos + n := by
    simp only [strtolDigits, hsign, hplain.2.1, hplain.2.2, or_self, if_false]
  have hstop : strtolStop rd len pos = pos + n + ds.length := by
    simp only [strtolStop, hdig]
    exact skipWhile_eq (by omega) (by omega) hbyte (hend.imp_left fun h => by omega)
  have hvalue : (List.range (pos + n + ds.length - (pos + n))).foldl
      (fun acc i => acc * 10 + ((rd (pos + n + i)).toNat - 48)) 0 = decimalValue ds := by
    have hmap : (List.range ds.length).map (fun i => rd (pos + n + i)) = ds := by
      refine List.ext_getElem (by simp) fun x hx hx' => ?_
      simp [hrd x hx', cstr, hx']
    rw [Nat.add_sub_cancel_left]
    conv_rhs => rw [decimalValue, ← hmap, List.foldl_map]
  have hneg : ¬ (decimalValue ds : Int) < longMin := by
    unfold longMin
    omega
  unfold strtol
  simp only [hdig, hstop, hsign, hplain.2.2, if_false]
  rw [hvalue, if_neg (by omega), if_neg hneg]
  split
  · next hbig => simp [hbig, Int.min_eq_right (Int.le_of_lt hbig)]
  · next hbig => simp [hbig, Int.min_eq_left (Int.not_lt.mp hbig)]

theorem strtol_number_val {rd : Nat → UInt8} {len pos n : Nat} {ds : Bytes}
    (hspace : ∀ k < n, isSpace (rd (pos + k)) = true) (hds : isNumber ds = true)
    (hrd : ∀ k < ds.length, rd (pos + n + k) = cstr ds k) (hlen : pos + n + ds.length ≤ len)
    (hend : pos + n + ds.length = len ∨ isDigit (rd (pos + n + ds.length)) = false)
    (hrange : (strtol rd len pos).erange = false) :
    (strtol rd len pos).val = decimalValue ds := by
  rw [strtol_number hspace hds hrd hlen hend] at hrange ⊢
  simp only [decide_eq_false_iff_not, Int.not_lt] at hrange ⊢
  exact Int.min_eq_left hrange

/-- A number is read up to the first byte that is not a digit. -/
theorem atol_number {ds rest : Bytes} (hds : isNumber ds = true)
    (hrest : ∀ c, rest.head? = some c → isDigit c = false) :
    atol (ds ++ rest) = min (decimalValue ds : Int) longMax := by
  unfold atol
  rw [strtol_number (n := 0) (by omega) hds ?_ (by simp) ?_]
  · intro k hk
    rw [Nat.zero_add, cstr_append_left hk]
    simp [cstr, hk]
  · cases rest with
    | nil => left; simp
    | cons c rest =>
      right
      have hc : cstr (ds ++ c :: rest) ds.length = c := by
        simp [cstr, List.getD_eq_getElem?_getD]
      rw [Nat.zero_add, hc]
      exact hrest c rfl

theorem atol_number_alone {ds : Bytes} (hds : isNumber ds = true) :
    atol ds = min (decimalValue ds : Int) longMax := by
  have hnil : atol (ds ++ []) = _ := atol_number hds (by simp)
  rwa [List.append_nil] at hnil

/-- A number in an `int`: `strtol` stops at `LONG_MAX`, the assignment keeps 32
bits. -/
def intOf (n : Nat) : Int := toInt32 (min (n : Int) longMax)

/-! ## The code on texts of the grammar -/

/-- `bytes=` in any case, as the two searches and the comparison see it. -/
theorem unit_positions {unit : Bytes} (h : unit.map tolower = bytes "bytes=") (spec : Bytes) :
    (unit ++ spec).findIdx? (· = 61) = some 5 ∧
    (unit ++ spec).findIdx? (· = 45) = (spec.findIdx? (· = 45)).map (· + 6) ∧
    strncasecmpEq (cstr (unit ++ spec)) (cstr (bytes "Bytes")) 5 = true ∧ unit.length = 6 := by
  have hlen : unit.length = 6 := by
    have hlen := congrArg List.length h
    rw [List.length_map] at hlen
    exact hlen.trans (by decide)
  have hcase : ∀ c d : UInt8, tolower c = d → d ≠ 61 → c ≠ 61 := by
    rintro c d rfl hd rfl
    exact hd rfl
  have hcase' : ∀ c d : UInt8, tolower c = d → d ≠ 45 → c ≠ 45 := by
    rintro c d rfl hd rfl
    exact hd rfl
  -- only `=` itself is `=` in lower case
  have hlast : ∀ c : UInt8, tolower c = 61 → c = 61 := by
    intro c hc
    unfold tolower at hc
    split at hc
    · next hup =>
      exfalso
      have h1 := congrArg UInt8.toNat hc
      have h2 : 65 ≤ c.toNat := hup.1
      have h3 : c.toNat ≤ 90 := hup.2
      rw [UInt8.toNat_add] at h1
      have h4 : (32 : UInt8).toNat = 32 := rfl
      have h5 : (61 : UInt8).toNat = 61 := rfl
      omega
    · exact hc
  match unit, hlen with
  | [c0, c1, c2, c3, c4, c5], _ =>
    have hmap : tolower c0 = 98 ∧ tolower c1 = 121 ∧ tolower c2 = 116 ∧ tolower c3 = 101 ∧
        tolower c4 = 115 ∧ tolower c5 = 61 := by
      simpa [bytes] using h
    obtain ⟨h0, h1, h2, h3, h4, h5⟩ := hmap
    have e5 := hlast _ h5
    refine ⟨?_, ?_, ?_, rfl⟩
    · simp [List.findIdx?_cons, hcase _ _ h0, hcase _ _ h1, hcase _ _ h2, hcase _ _ h3,
        hcase _ _ h4, e5]
    · simp [List.findIdx?_cons, hcase' _ _ h0, hcase' _ _ h1, hcase' _ _ h2, hcase' _ _ h3,
        hcase' _ _ h4, hcase' _ _ h5]
    · have hb : tolower 66 = 98 ∧ tolower 121 = 121 ∧ tolower 116 = 116 ∧ tolower 101 = 101 ∧
          tolower 115 = 115 := by decide
      simp [strncasecmpEq, strncmpEq, cstr, bytes, h0, h1, h2, h3, h4, hb]

/-- The parts of a text of the grammar. -/
theorem rangeSpec_parts {text : Bytes} {form : RangeForm} (h : rangeSpec text = some form) :
    ∃ unit first last, text = unit ++ (first ++ 45 :: last) ∧
      unit.map tolower = bytes "bytes=" ∧ 45 ∉ first ∧
      (isNumber first = true ∧ isNumber last = true ∧
          form = .fromTo (decimalValue first) (decimalValue last) ∨
        isNumber first = true ∧ last = [] ∧ form = .from_ (decimalValue first) ∨
        first = [] ∧ isNumber last = true ∧ form = .suffix (decimalValue last)) := by
  unfold rangeSpec at h
  split at h
  · next hunit =>
    simp only at h
    cases hi : (text.drop 6).findIdx? (· = 45) with
    | none => simp [hi] at h
    | some i =>
      simp only [hi] at h
      obtain ⟨hlt, hsep, hbefore⟩ := List.findIdx?_eq_some_iff_getElem.mp hi
      refine ⟨text.take 6, (text.drop 6).take i, (text.drop 6).drop (i + 1), ?_, hunit, ?_, ?_⟩
      · have hcons : (text.drop 6).drop i = 45 :: (text.drop 6).drop (i + 1) := by
          rw [List.drop_eq_getElem_cons hlt]
          simp only [decide_eq_true_eq] at hsep
          rw [hsep]
        rw [← hcons, List.take_append_drop, List.take_append_drop]
      · intro hin
        obtain ⟨j, hj, hget⟩ := List.mem_iff_getElem.mp hin
        have hji : j < i := by
          have := hj
          rw [List.length_take] at this
          omega
        refine hbefore j hji ?_
        simpa using hget
      · split at h
        · next hboth => exact .inl ⟨hboth.1, hboth.2, (Option.some.inj h).symm⟩
        · split at h
          · next hopen => exact .inr (.inl ⟨hopen.1, hopen.2, (Option.some.inj h).symm⟩)
          · split at h
            · next hsuffix => exact .inr (.inr ⟨hsuffix.1, hsuffix.2, (Option.some.inj h).symm⟩)
            · cases h
  · cases h

section Parse

variable {unit first last : Bytes} (hunit : unit.map tolower = bytes "bytes=") (hsep : 45 ∉ first)
  (rest : Bytes) (n : Int)
include hunit hsep

variable (last) in
/-- Where `mk_http_range_parse` finds the two separators. -/
theorem range_positions :
    (unit ++ (first ++ 45 :: last)).findIdx? (· = 61) = some 5 ∧
    (unit ++ (first ++ 45 :: last)).findIdx? (· = 45) = some (first.length + 6) ∧
    strncasecmpEq (cstr (unit ++ (first ++ 45 :: last))) (cstr (bytes "Bytes")) 5 = true ∧
    unit.length = 6 := by
  obtain ⟨heq, hdash, hcmp, hlen⟩ := unit_positions hunit (first ++ 45 :: last)
  refine ⟨heq, ?_, hcmp, hlen⟩
  have hnone : first.findIdx? (· = 45) = none := by
    rw [List.findIdx?_eq_none_iff]
    intro x hx
    simp only [decide_eq_false_iff_not]
    rintro rfl
    exact hsep hx
  rw [hdash, List.findIdx?_append, hnone]
  simp [List.findIdx?_cons]

theorem rangeCrashes_grammar : rangeCrashes (unit ++ (first ++ 45 :: last)) = false := by
  obtain ⟨heq, hdash, -, -⟩ := range_positions last hunit hsep
  simp only [rangeCrashes, heq, hdash, Bool.and_eq_false_iff, decide_eq_false_iff_not]
  omega

theorem parse_fromTo (hfirst : isNumber first = true) (hlast : isNumber last = true) :
    mkHttpRangeParse (unit ++ (first ++ 45 :: last)) rest n =
      let a := intOf (decimalValue first)
      let b := intOf (decimalValue last)
      if b < 0 ∨ a > b then none
      else some ((a, b), toInt32 ((toInt32 (b - a)).natAbs + 1)) := by
  obtain ⟨heq, hdash, hcmp, hlen⟩ := range_positions last hunit hsep
  have hf : first ≠ [] := by
    rintro rfl
    cases hfirst
  have hfpos : 0 < first.length := List.length_pos_of_ne_nil hf
  have hl : last ≠ [] := by
    rintro rfl
    cases hlast
  have hlpos : 0 < last.length := List.length_pos_of_ne_nil hl
  have htake : ((unit ++ (first ++ 45 :: last)).take (first.length + 6)).drop 6 = first := by
    rw [← hlen, Nat.add_comm, List.take_length_add_append, List.drop_left, List.take_left]
  have hdrop : (unit ++ (first ++ 45 :: last)).drop (first.length + 6 + 1) = last := by
    have hsplit : unit ++ (first ++ 45 :: last) = (unit ++ first ++ [45]) ++ last := by simp
    rw [hsplit, List.drop_left' (by simp; omega)]
  have hnofirst := atol_number_alone hfirst
  have hnolast := atol_number_alone hlast
  have hlong : (unit ++ (first ++ 45 :: last)).length > first.length + 6 + 1 := by
    simp
    omega
  simp only [mkHttpRangeParse, heq, hdash, hcmp, htake, hdrop, hnofirst, hnolast, hlong, if_true,
    intOf]
  rw [if_neg (by simp), if_neg (by omega)]
  rfl

theorem parse_from (hfirst : isNumber first = true) (hlast : last = []) :
    mkHttpRangeParse (unit ++ (first ++ 45 :: last)) rest n =
      let a := intOf (decimalValue first)
      some ((a, -1), n - a) := by
  subst hlast
  obtain ⟨heq, hdash, hcmp, hlen⟩ := range_positions [] hunit hsep
  have hf : first ≠ [] := by
    rintro rfl
    cases hfirst
  have hfpos : 0 < first.length := List.length_pos_of_ne_nil hf
  have hdrop : (unit ++ (first ++ [45])).drop 6 = first ++ [45] := by
    rw [← hlen, List.drop_left]
  have hnumber : atol (first ++ [45]) = min (decimalValue first : Int) longMax :=
    atol_number hfirst (by simp [isDigit])
  have hshort : (unit ++ (first ++ [45])).length = first.length + 6 + 1 := by
    simp
    omega
  simp only [mkHttpRangeParse, heq, hdash, hcmp, hshort, if_true, intOf]
  rw [if_neg (by simp), if_neg (by omega), if_neg (by omega), hdrop, hnumber]

theorem parse_suffix (hfirst : first = []) (hlast : isNumber last = true)
    (hrest : rest.head? = some 13) :
    mkHttpRangeParse (unit ++ (first ++ 45 :: last)) rest n =
      let b := intOf (decimalValue last)
      if b ≤ 0 then none else some ((-1, b), b) := by
  subst hfirst
  obtain ⟨heq, hdash, hcmp, hlen⟩ := range_positions last hunit hsep
  have hdrop : ((unit ++ ([] ++ 45 :: last)) ++ rest).drop 7 = last ++ rest := by
    have hsplit : (unit ++ ([] ++ 45 :: last)) ++ rest = (unit ++ [45]) ++ (last ++ rest) := by simp
    rw [hsplit, List.drop_left' (by simp [hlen])]
  have hnumber : atol (last ++ rest) = min (decimalValue last : Int) longMax := by
    refine atol_number hlast ?_
    intro c hc
    rw [hrest] at hc
    obtain rfl := Option.some.inj hc
    decide
  simp only [mkHttpRangeParse, heq, hdash, hcmp, List.length_nil, Nat.zero_add, hdrop, hnumber,
    if_true, intOf]
  rfl

end Parse

/-! ## The condition -/

/-- The texts `mk_http_range_parse` refuses: a separator is missing, what stands
in front of the `=` is not the start of `Bytes`, or the numbers, read by `atol`
into an `int`, make no range. -/
def RangeRefused (text rest : Bytes) : Prop :=
  match text.findIdx? (· = 61), text.findIdx? (· = 45) with
  | some eqPos, some sepPos =>
    let last := toInt32 (atol (text.drop (sepPos + 1)))
    strncasecmpEq (cstr text) (cstr (bytes "Bytes")) eqPos = false ∨
    sepPos = eqPos + 1 ∧ toInt32 (atol ((text ++ rest).drop (sepPos + 1))) ≤ 0 ∨
    eqPos + 1 < sepPos ∧ sepPos + 1 < text.length ∧
      (last < 0 ∨ toInt32 (atol ((text.take sepPos).drop (eqPos + 1))) > last)
  | _, _ => True

/-- The numbers of the range are, as `int`s, the bounds of the selected part, and
its length is an `int` too. -/
def RangeForm.Fits (n : Int) : RangeForm → Prop
  | .fromTo a b => a ≤ b ∧ (a : Int) < n ∧ intOf a = a ∧ intOf b = min (b : Int) (n - 1) ∧
      intOf b - a < 2 ^ 31 - 1
  | .from_ a => (a : Int) < n ∧ intOf a = a
  | .suffix l => 0 < l ∧ intOf l = min (l : Int) n

theorem mkHttpRangeParse_none {text rest : Bytes} {n : Int} (h : rangeCrashes text = false) :
    mkHttpRangeParse text rest n = none ↔ RangeRefused text rest := by
  unfold rangeCrashes at h
  unfold mkHttpRangeParse RangeRefused
  cases heq : text.findIdx? (· = 61) with
  | none => simp
  | some eqPos =>
    cases hsep : text.findIdx? (· = 45) with
    | none => simp
    | some sepPos =>
      simp only [heq, hsep, Bool.and_eq_false_iff, decide_eq_false_iff_not] at h
      obtain ⟨hlt, hbyte, -⟩ := List.findIdx?_eq_some_iff_getElem.mp hsep
      -- without the crash the separator comes after the `=`
      have hne : sepPos ≠ eqPos := by
        rintro rfl
        obtain ⟨_, hbyte', -⟩ := List.findIdx?_eq_some_iff_getElem.mp heq
        simp only [decide_eq_true_eq] at hbyte hbyte'
        rw [hbyte] at hbyte'
        exact absurd hbyte' (by decide)
      simp only
      cases hcmp : strncasecmpEq (cstr text) (cstr (bytes "Bytes")) eqPos with
      | false => simp
      | true =>
        have hafter : eqPos < sepPos := by
          have := h.resolve_left (by simp [hcmp])
          omega
        simp only [Bool.true_eq_false, if_false, false_or]
        -- the three forms, in the order in which the code tells them apart
        by_cases hsuffix : eqPos + 1 = sepPos
        · rw [if_pos hsuffix]
          by_cases hlast : toInt32 (atol ((text ++ rest).drop (sepPos + 1))) ≤ 0
          · rw [if_pos hlast]
            exact iff_of_true rfl (.inl ⟨hsuffix.symm, hlast⟩)
          · rw [if_neg hlast]
            refine iff_of_false (by simp) ?_
            rintro (⟨-, h2⟩ | ⟨h1, -⟩)
            · exact hlast h2
            · omega
        · rw [if_neg hsuffix]
          by_cases hmore : text.length > sepPos + 1
          · rw [if_pos hmore]
            have hge : eqPos + 1 < sepPos := by omega
            by_cases hbad : toInt32 (atol (text.drop (sepPos + 1))) < 0 ∨
                toInt32 (atol ((text.take sepPos).drop (eqPos + 1))) >
                  toInt32 (atol (text.drop (sepPos + 1)))
            · rw [if_pos hbad]
              exact iff_of_true rfl (.inr ⟨hge, hmore, hbad⟩)
            · rw [if_neg hbad]
              refine iff_of_false (by simp) ?_
              rintro (⟨h1, -⟩ | ⟨-, -, h3⟩)
              · omega
              · exact hbad h3
          · rw [if_neg hmore, if_pos (by omega)]
            refine iff_of_false (by simp) ?_
            rintro (⟨h1, -⟩ | ⟨-, h2, -⟩)
            · omega
            · omega

/-- What `mk_http_range_set` refuses is not what stood there before. -/
theorem rangeOffsets_ne {ranges : Int × Int} {n : Int} (hn : 0 < n)
    (h : mkHttpRangeSet ranges n = none) : rangeOffsets ranges n ≠ (0, n) := by
  intro heq
  rw [mkHttpRangeSet_eq, heq] at h
  simp only at h
  rw [if_neg (by omega)] at h
  cases h

section Forms

variable {env : PrepareEnv} (hresume : env.resume = true) {text rest : Bytes} {n : Int}
  (hn : 0 < n) (hcrash : rangeCrashes text = false)
include hn hcrash

/-- Without a valid range, being refused is all there is. -/
theorem rangeCorrect_invalid (hspec : rangeSpec text = none) :
    RangeCorrect env text rest n ↔ RangeRefused text rest := by
  rw [← mkHttpRangeParse_none (n := n) hcrash]
  unfold RangeCorrect rangeAnswer
  rw [hspec, hcrash]
  cases hparse : mkHttpRangeParse text rest n with
  | none => simp
  | some r =>
    cases hset : mkHttpRangeSet r.1 n with
    | none => simpa [hset] using rangeOffsets_ne hn hset
    | some offsets => simp [hset]

/-- An accepted range of the grammar is right iff exactly the selected part is
sent. -/
theorem rangeCorrect_accepted {form : RangeForm} {ranges : Int × Int} {length : Int}
    (hspec : rangeSpec text = some form)
    (hparse : mkHttpRangeParse text rest n = some (ranges, length)) :
    RangeCorrect env text rest n ↔ ∃ first last, form.select n = some (first, last) ∧
      mkHttpRangeSet ranges n = some (first, last - first + 1) ∧ last < n ∧
      length = last - first + 1 ∧
      contentRangeRow env ranges length n = [textEntry (contentRange first last n)] := by
  unfold RangeCorrect rangeAnswer
  rw [hspec, hcrash, hparse, Option.bind_some]
  cases hsel : form.select n with
  | none =>
    refine iff_of_false ?_ (by simp)
    cases hset : mkHttpRangeSet ranges n with
    | none => simpa [hset] using rangeOffsets_ne hn hset
    | some offsets => simp [hset]
  | some sel =>
    obtain ⟨first, last⟩ := sel
    cases hset : mkHttpRangeSet ranges n with
    | none => simp [hset]
    | some offsets =>
      simp only [hset, Bool.false_eq_true, if_false]
      constructor
      · rintro ⟨rfl, -, hlast, hlen, hrow⟩
        exact ⟨first, last, rfl, rfl, hlast, hlen, hrow⟩
      · rintro ⟨first', last', heq, hoff, hlast, hlen, hrow⟩
        obtain ⟨rfl, rfl⟩ := Prod.mk.inj (Option.some.inj heq)
        obtain rfl := Option.some.inj hoff
        refine ⟨rfl, ?_, hlast, hlen, hrow⟩
        simp only
        omega

include hresume

/-- A suffix is right iff its length is the one of the selected part. -/
theorem rangeCorrect_suffix {l : Nat} (hspec : rangeSpec text = some (.suffix l))
    (hpos : 0 < intOf l)
    (hparse : mkHttpRangeParse text rest n = some ((-1, intOf l), intOf l)) :
    RangeCorrect env text rest n ↔ RangeForm.Fits n (.suffix l) := by
  have hl : 0 < l := by
    by_contra hl
    obtain rfl : l = 0 := by omega
    exact absurd hpos (by decide)
  have hoff : rangeOffsets (-1, intOf l) n = (n - intOf l, intOf l) := by
    unfold rangeOffsets
    rw [if_neg (by simp), if_neg (by simp), if_pos ⟨rfl, hpos⟩]
  have hrow : contentRangeRow env (-1, intOf l) (intOf l) n =
      [textEntry (contentRange (n - intOf l) (n - 1) n)] := by
    unfold contentRangeRow contentRangeEntries
    simp only
    rw [if_pos ⟨⟨by omega, .inr (by omega)⟩, hresume⟩, if_neg (by simp), if_neg (by simp),
      if_pos ⟨trivial, hpos⟩]
    rfl
  rw [rangeCorrect_accepted hn hcrash hspec hparse]
  simp only [RangeForm.select, RangeForm.Fits, hl, hn, true_and, and_self, if_true,
    mkHttpRangeSet_eq, hoff, hrow]
  constructor
  · rintro ⟨first, last, hsel, hset, -, hlen, -⟩
    obtain ⟨rfl, rfl⟩ := Prod.mk.inj (Option.some.inj hsel)
    omega
  · intro hfits
    refine ⟨_, _, rfl, ?_, by omega, by omega, by rw [hfits]⟩
    rw [if_neg (by omega), hfits]
    congr 2
    omega

/-- An open range is right iff it starts in the file, with a number that is an
`int`. -/
theorem rangeCorrect_from {a : Nat} (hspec : rangeSpec text = some (.from_ a))
    (hparse : mkHttpRangeParse text rest n = some ((intOf a, -1), n - intOf a)) :
    RangeCorrect env text rest n ↔ RangeForm.Fits n (.from_ a) := by
  rw [rangeCorrect_accepted hn hcrash hspec hparse]
  simp only [RangeForm.select, RangeForm.Fits, mkHttpRangeSet_eq]
  by_cases hneg : intOf a < 0
  · -- the number has become negative: there is no `Content-Range` row
    refine iff_of_false ?_ (by omega)
    rintro ⟨first, last, -, -, -, -, hrow⟩
    have hnone : contentRangeRow env (intOf a, -1) (n - intOf a) n = [] := by
      unfold contentRangeRow contentRangeEntries
      rw [if_neg]
      simp only
      omega
    rw [hnone] at hrow
    cases hrow
  · have hoff : rangeOffsets (intOf a, -1) n = (intOf a, n - intOf a) := by
      unfold rangeOffsets
      rw [if_pos ⟨by omega, rfl⟩]
    rw [hoff]
    constructor
    · rintro ⟨first, last, hsel, hset, -, hlen, -⟩
      split at hsel
      · obtain ⟨rfl, rfl⟩ := Prod.mk.inj (Option.some.inj hsel)
        omega
      · cases hsel
    · rintro ⟨hlt, hint⟩
      have hrow : contentRangeRow env (intOf a, -1) (n - intOf a) n =
          [textEntry (contentRange a (n - 1) n)] := by
        rw [hint]
        unfold contentRangeRow contentRangeEntries
        simp only
        rw [if_pos ⟨⟨by omega, .inl (by omega)⟩, hresume⟩, if_pos ⟨by omega, trivial⟩,
          if_neg (by simp), if_neg (by simp)]
        rfl
      refine ⟨a, n - 1, by rw [if_pos hlt], ?_, by omega, by omega, hrow⟩
      simp only
      rw [hint, if_neg (by omega)]
      congr 2
      omega

/-- A closed range is right iff its numbers are the bounds of the selected part. -/
theorem rangeCorrect_fromTo {a b : Nat} (hspec : rangeSpec text = some (.fromTo a b))
    (hpos : 0 ≤ intOf b) (hle : intOf a ≤ intOf b)
    (hparse : mkHttpRangeParse text rest n = some ((intOf a, intOf b),
      toInt32 ((toInt32 (intOf b - intOf a)).natAbs + 1))) :
    RangeCorrect env text rest n ↔ RangeForm.Fits n (.fromTo a b) := by
  have hb : intOf b < 2 ^ 31 := (toInt32_bounds _).2
  rw [rangeCorrect_accepted hn hcrash hspec hparse]
  simp only [RangeForm.select, RangeForm.Fits, mkHttpRangeSet_eq]
  -- a number from `2^31` on comes back from `atol` and `int` as it may, also negative
  by_cases hneg : intOf a < 0
  · refine iff_of_false ?_ (by omega)
    rintro ⟨first, last, -, hset, -, hlen, hrow⟩
    by_cases hsuffix : intOf a = -1 ∧ intOf b > 0
    · -- read as a suffix, but announced with the length of a closed range
      have hoff : rangeOffsets (intOf a, intOf b) n = (n - intOf b, intOf b) := by
        unfold rangeOffsets
        rw [if_neg (by simp only; omega), if_neg (by simp only; omega), if_pos hsuffix]
      rw [hoff] at hset
      split at hset
      · cases hset
      · have hlast := (Prod.mk.inj (Option.some.inj hset)).2
        rw [← hlast, hsuffix.1] at hlen
        generalize intOf b = x at hlen hb hpos
        simp only [toInt32, Int.bmod_def] at hlen
        split at hlen <;> split at hlen <;> omega
    · have hnone : ∀ length, contentRangeRow env (intOf a, intOf b) length n = [] := by
        intro length
        unfold contentRangeRow contentRangeEntries
        simp only
        rw [if_neg (c := intOf a ≥ 0 ∧ intOf b = -1) (by omega),
          if_neg (c := intOf a ≥ 0 ∧ intOf b ≥ 0) (by omega), if_neg hsuffix]
        split <;> rfl
      rw [hnone] at hrow
      cases hrow
  · -- neither bound is negative, so the difference of the two is an `int`
    have hdiff : toInt32 (intOf b - intOf a) = intOf b - intOf a :=
      toInt32_eq (by omega) (by omega)
    have hoff : rangeOffsets (intOf a, intOf b) n = (intOf a, intOf b - intOf a + 1) := by
      unfold rangeOffsets
      rw [if_neg (by simp only; omega), if_pos ⟨by omega, hpos⟩, hdiff]
      simp only [Prod.mk.injEq, true_and]
      omega
    rw [hoff, hdiff]
    constructor
    · rintro ⟨first, last, hsel, hset, -, hlen, -⟩
      split at hsel
      · next hin =>
        obtain ⟨rfl, rfl⟩ := Prod.mk.inj (Option.some.inj hsel)
        split at hset
        · cases hset
        · obtain ⟨h1, h2⟩ := Prod.mk.inj (Option.some.inj hset)
          have hshort := (toInt32_bounds ((intOf b - intOf a).natAbs + 1)).2
          refine ⟨hin.1, hin.2, h1, by omega, by omega⟩
      · cases hsel
    · rintro ⟨hab, hlt, hint, hlast, hshort⟩
      have hlength : toInt32 ((intOf b - intOf a).natAbs + 1) = intOf b - intOf a + 1 := by
        rw [toInt32_eq (by omega) (by omega)]
        omega
      have hrow : contentRangeRow env (intOf a, intOf b)
          (toInt32 ((intOf b - intOf a).natAbs + 1)) n = [textEntry (contentRange a (intOf b) n)] := by
        rw [hlength]
        unfold contentRangeRow contentRangeEntries
        simp only
        rw [if_pos ⟨⟨by omega, .inl (by omega)⟩, hresume⟩, if_neg (by omega),
          if_pos ⟨by omega, hpos⟩, if_neg (by omega), hint]
        rfl
      refine ⟨a, intOf b, by rw [if_pos ⟨hab, hlt⟩, hlast], ?_, by omega, by omega, hrow⟩
      simp only
      rw [if_neg (by omega), hint]

end Forms

/-! ## The result -/

/-- For every `Range` text and every file size: the answer is right iff the text
is refused by `mk_http_range_parse` or is a range of the grammar that selects
something and whose numbers need neither clipping nor more than an `int`. `rest`,
what stands behind the value, starts with the CR of its row. -/
theorem range_correct_iff (env : PrepareEnv) (text rest : Bytes) (n : Int)
    (hresume : env.resume = true) (hn : 0 < n) (hrest : rest.head? = some 13) :
    RangeCorrect env text rest n ↔
      RangeRefused text rest ∨ ∃ form, rangeSpec text = some form ∧ form.Fits n := by
  by_cases hcrash : rangeCrashes text = true
  · refine iff_of_false (by simp [RangeCorrect, rangeAnswer, hcrash]) ?_
    rintro (hrefused | ⟨form, hspec, -⟩)
    · -- where the code crashes, it does not refuse
      unfold rangeCrashes at hcrash
      unfold RangeRefused at hrefused
      cases heq : text.findIdx? (· = 61) with
      | none => simp [heq] at hcrash
      | some eqPos =>
        cases hsep : text.findIdx? (· = 45) with
        | none => simp [heq, hsep] at hcrash
        | some sepPos =>
          simp only [heq, hsep, Bool.and_eq_true, decide_eq_true_eq] at hcrash hrefused
          rcases hrefused with hcmp | ⟨h1, -⟩ | ⟨h1, -⟩
          · rw [hcrash.1] at hcmp
            cases hcmp
          · omega
          · omega
    · obtain ⟨unit, first, last, rfl, hunit, hsep, -⟩ := rangeSpec_parts hspec
      rw [rangeCrashes_grammar hunit hsep] at hcrash
      cases hcrash
  · replace hcrash : rangeCrashes text = false := by simpa using hcrash
    cases hspec : rangeSpec text with
    | none =>
      rw [rangeCorrect_invalid hn hcrash hspec]
      simp
    | some form =>
      simp only [Option.some.injEq, exists_eq_left']
      obtain ⟨unit, first, last, rfl, hunit, hsep, hforms⟩ := rangeSpec_parts hspec
      rw [← mkHttpRangeParse_none (n := n) hcrash]
      -- one form of the grammar at a time; what the parser refuses is right as such
      rcases hforms with ⟨hf, hl, rfl⟩ | ⟨hf, hl, rfl⟩ | ⟨hf, hl, rfl⟩
      · have hparse := parse_fromTo hunit hsep rest n hf hl
        by_cases hbad : intOf (decimalValue last) < 0 ∨
            intOf (decimalValue first) > intOf (decimalValue last)
        · rw [if_pos hbad] at hparse
          simp [RangeCorrect, rangeAnswer, hcrash, hparse]
        · rw [if_neg hbad] at hparse
          rw [rangeCorrect_fromTo hresume hn hcrash hspec (by omega) (by omega) hparse, hparse]
          simp
      · have hparse := parse_from hunit hsep rest n hf hl
        rw [rangeCorrect_from hresume hn hcrash hspec hparse, hparse]
        simp
      · have hparse := parse_suffix hunit hsep rest n hf hl hrest
        by_cases hbad : intOf (decimalValue last) ≤ 0
        · rw [if_pos hbad] at hparse
          simp [RangeCorrect, rangeAnswer, hcrash, hparse]
        · rw [if_neg hbad] at hparse
          rw [rangeCorrect_suffix hresume hn hcrash hspec (by omega) hparse, hparse]
          simp

/-- What `mk_header_prepare` reads when it answers a range. -/
def envRange : PrepareEnv where
  utime2gmt := fun _ => []
  resume := true
  closeNow := false
  connectionLen := -1
  protocol := .v11

/-- Three bytes in the middle of a file. -/
theorem range_correct_iff_middle :
    RangeCorrect envRange (bytes "bytes=1-3") (bytes "\r\n\r\n") 5 :=
  (range_correct_iff envRange _ _ 5 rfl (by decide) (by decide)).mpr
    (.inr ⟨.fromTo 1 3, by decide, by decide, by decide, by decide, by decide, by decide⟩)

/-- No byte of a missing unit is compared with `Bytes`: what is no `bytes=` range is
served, with a `long` of any width. -/
theorem range_correct_no_unit :
    ¬ ∀ (env : PrepareEnv) (text rest : Bytes) (n : Int), env.resume = true → 0 < n →
      rest.head? = some 13 → RangeCorrect env text rest n := by
  intro h
  have hwrong := h envRange (bytes "=0-1") (bytes "\r\n\r\n") 5 rfl (by decide) (by decide)
  have hserved : rangeAnswer (bytes "=0-1") (bytes "\r\n\r\n") 5 = .served (0, 1) 2 (0, 2) := by
    decide
  have hnothing : (rangeSpec (bytes "=0-1")).bind (RangeForm.select 5) = none := by decide
  rwa [RangeCorrect, hserved, hnothing] at hwrong

-- with a `long` of 64 bits `4294967295` becomes `-1`, and the range a suffix of ten bytes
-- that is sent with another length
example : rangeAnswer (bytes "bytes=4294967295-10") (bytes "\r\n\r\n") 20 =
    .served (-1, 10) 12 (10, 10) := by decide

end SuperExe.Http
