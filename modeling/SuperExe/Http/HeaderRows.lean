import SuperExe.Http.RequestLine

/-! # The header rows of a request

A row is a key, a colon, blanks, a value and CR LF. `Rows` says what the rows of
a request are, by the bytes alone; `headerRows` computes them. `Reading` ties the
states of the parser to the rows it has looked up: `reading_parserTurn` is the
step, and `lookupTurn` the one turn that registers anything.
-/

namespace SuperExe.Http

open SuperExe.Core SuperExe.Lib

/-! ## Rows -/

/-- Where the key, the colon and the value stand, and the CR behind the value. -/
structure Row where
  key : Nat
  sep : Nat
  val : Nat
  stop : Nat
deriving DecidableEq, Repr

/-- The key runs up to the next colon, the value from the first byte that is not
a blank up to the next CR. A key has at least one byte, whatever it is. -/
structure IsRow (buf : Nat → UInt8) (r : Row) : Prop where
  key : buf r.key ≠ 13
  sep : r.key < r.sep ∧ buf r.sep = 58 ∧ ∀ x, r.key < x → x < r.sep → buf x ≠ 58
  val : r.sep < r.val ∧ buf r.val ≠ 32 ∧ ∀ x, r.sep < x → x < r.val → buf x = 32
  stop : r.val < r.stop ∧ buf r.stop = 13 ∧
    ∀ x, r.val ≤ x → x < r.stop → buf x ≠ 13 ∧ buf x ≠ 10

/-- The rows from the request line up to `y`, each with its LF. -/
inductive Rows (B : Bytes) : List Row → Nat → Prop where
  | start {y : Nat} (h : HeadersStart B y) : Rows B [] y
  | row {rs : List Row} {r : Row} (h : Rows B rs r.key) (hr : IsRow (cstr B) r)
      (hlf : cstr B (r.stop + 1) = 10) : Rows B (rs ++ [r]) (r.stop + 2)

/-- The rows that have been looked up: the LF of the last one may be missing. -/
inductive Looked (B : Bytes) : List Row → Prop where
  | none : Looked B []
  | rows {rs : List Row} {y : Nat} (h : Rows B rs y) : Looked B rs
  | last {rs : List Row} {r : Row} (h : Rows B rs r.key) (hr : IsRow (cstr B) r) :
      Looked B (rs ++ [r])

/-! ## Where the parser stands -/

/-- Inside the key of a row that starts at `y`. -/
structure InKey (B : Bytes) (y : Nat) (s : ParserSt) : Prop where
  key : s.p.headerKey = y
  first : cstr B y ≠ 13
  scope : (s.p.headerMin, s.p.headerMax) = headerScope (cstr B y)

/-- The key has been read up to the colon at `sep`. -/
structure KeyRead (B : Bytes) (y sep : Nat) (s : ParserSt) : Prop extends InKey B y s where
  mark : s.p.headerSep = sep
  lt : y < sep
  colon : cstr B sep = 58
  no : ∀ x, y < x → x < sep → cstr B x ≠ 58

/-- What the parser knows while it reads the rows. -/
def InRows (B : Bytes) (rs : List Row) (s : ParserSt) : Prop :=
  match s.p.status with
  | .headerKey => ∃ y, Rows B rs y ∧ s.p.start = y ∧ (s.p.chars = 0 → s.p.i = y) ∧
      (s.p.chars ≠ 0 → 0 < s.p.chars ∧ InKey B y s ∧ y < s.p.i ∧
        ∀ x, y < x → x < s.p.i → cstr B x ≠ 58)
  | .headerValue => ∃ y sep, Rows B rs y ∧ KeyRead B y sep s ∧ sep < s.p.i ∧
      ∀ x, sep < x → x < s.p.i → cstr B x = 32
  | .headerValStarts => ∃ y sep val : Nat, Rows B rs y ∧ KeyRead B y sep s ∧ s.p.headerVal = val ∧
      s.p.start = val ∧ sep < val ∧ val < s.p.i ∧ cstr B val ≠ 32 ∧
      (∀ x, sep < x → x < val → cstr B x = 32) ∧
      ∀ x, val ≤ x → x < s.p.i → cstr B x ≠ 13 ∧ cstr B x ≠ 10
  | .headerEnd => ∃ rs' r, rs = rs' ++ [r] ∧ Rows B rs' r.key ∧ IsRow (cstr B) r ∧
      s.p.i = r.stop + 1
  | _ => False

/-- The rows `rs` have been looked up, and the parser stands behind them. -/
def Reading (B : Bytes) (rs : List Row) (s : ParserSt) : Prop :=
  match s.p.level with
  | .first | .cont => rs = [] ∧ OnLine B s
  | .headers => InRows B rs s
  | .end_ | .body => ∃ y, Rows B rs y ∧ cstr B y = 13

/-- The state in which `header_lookup` is called for the row `r`. -/
structure AtRow (B : Bytes) (len : Nat) (rs : List Row) (r : Row) (s : ParserSt) : Prop where
  rows : Rows B rs r.key
  row : IsRow (cstr B) r
  key : s.p.headerKey = r.key
  sep : s.p.headerSep = r.sep
  val : s.p.headerVal = r.val
  stop : s.p.end_ = r.stop
  scope : (s.p.headerMin, s.p.headerMax) = headerScope (cstr B r.key)
  lt : r.stop < len

/-- The bytes that steer the parser are those of `B`, and every byte is, up to its
case. -/
def SameText (B : Bytes) (buf : Nat → UInt8) : Prop :=
  ∀ x, (∀ d : UInt8, d < 65 → (buf x = d ↔ cstr B x = d)) ∧ tolower (buf x) = tolower (cstr B x)

theorem headerScope_tolower {c d : UInt8} (h : tolower c = tolower d) :
    headerScope c = headerScope d := by
  simp only [headerScope, h]

section Turn

variable {B : Bytes} {len : Nat} {s : ParserSt} {rs : List Row} (hl : s.p.level = .headers)
  (hi : s.p.i < len) (hsame : SameText B s.buffer)
include hl hi hsame

omit hl in
theorem rd_byte {d : UInt8} (hd : d < 65) : s.rd len s.p.i = d ↔ cstr B s.p.i = d := by
  rw [ParserSt.rd, if_pos hi]
  exact (hsame _).1 d hd

/-- A turn on a key. -/
theorem reading_key (hst : s.p.status = .headerKey) (h : InRows B rs s) :
    Leaves (Reading B rs) (headerKeyTurn len s) := by
  simp only [InRows, hst] at h
  rcases h with ⟨y, hrows, hstart, hfirst, hkey⟩
  have hcr := rd_byte hi hsame (d := 13) (by decide)
  have hcolon := rd_byte hi hsame (d := 58) (by decide)
  unfold headerKeyTurn
  simp only [hcr]
  -- a CR ends the rows if no key has begun
  split
  · next h13 =>
    split
    · next h0 =>
      simp only [Leaves, startNext, goOn, Reading]
      exact ⟨y, hrows, by rwa [← hfirst h0]⟩
    · trivial
  · next h13 =>
    split
    · next h0 =>
      have hy := hfirst h0
      subst hy
      have hscope : headerScope (s.rd len s.p.i) = headerScope (cstr B s.p.i) := by
        apply headerScope_tolower
        rw [ParserSt.rd, if_pos hi]
        exact (hsame _).2
      rw [hscope]
      simp only [Leaves, goOn]
      split
      · simp only [Reading, hl, InRows, hst, h0]
        refine ⟨s.p.i, hrows, hstart, by simp, fun _ => ⟨by decide, ⟨rfl, h13, rfl⟩, by omega, ?_⟩⟩
        intro x hx hxi
        omega
      · simp only [Reading, hl, InRows, hst, h0]
        refine ⟨s.p.i, hrows, hstart, by simp, fun _ => ⟨by decide, ⟨rfl, h13, rfl⟩, by omega, ?_⟩⟩
        intro x hx hxi
        omega
    · next h0 =>
      rcases hkey h0 with ⟨hpos, hin, hlt, hno⟩
      cases hf : findByte (s.rd len) 58 (len - s.p.i) s.p.i with
      | some z =>
        rcases findByte_some hf with ⟨hle, hlen, h58⟩
        have hbefore := findByte_before hf
        simp only [charLookup_eq hf, h58, if_true]
        split
        · trivial
        · simp only [Leaves, startNext, goOn, markEnd, Reading, hl, InRows]
          refine ⟨y, z, hrows, ⟨⟨hin.key, hin.first, hin.scope⟩, rfl, by omega, ?_, ?_⟩, by omega, ?_⟩
          · exact ((hsame z).1 58 (by decide)).mp (rd_received len s z (by decide) h58).1
          · intro x hx hxz
            by_cases hxi : x < s.p.i
            · exact hno x hx hxi
            · have hne := hbefore x (by omega) hxz
              rw [ParserSt.rd, if_pos (by omega)] at hne
              exact fun h => hne (((hsame x).1 58 (by decide)).mpr h)
          · intro x hx hxi
            omega
      | none =>
        have hne : s.rd len s.p.i ≠ 58 := by
          intro hc
          rw [findByte_here hi hc] at hf
          cases hf
        simp only [charLookup_stays hf, if_neg hne]
        simp only [Leaves, goOn, Reading, hl, InRows, hst]
        refine ⟨y, hrows, hstart, by omega, fun _ => ⟨by omega, ⟨hin.key, hin.first, hin.scope⟩,
          by omega, ?_⟩⟩
        intro x hx hxi
        by_cases hxe : x = s.p.i
        · rw [hxe]
          exact fun h => hne (hcolon.mpr h)
        · exact hno x hx (by omega)

/-- A turn on the blanks in front of a value. -/
theorem reading_value (hst : s.p.status = .headerValue) (h : InRows B rs s) :
    Leaves (Reading B rs) (headersLevel len s) := by
  simp only [InRows, hst] at h
  rcases h with ⟨y, sep, hrows, hkey, hlt, hblank⟩
  have hcr := rd_byte hi hsame (d := 13) (by decide)
  have hlf := rd_byte hi hsame (d := 10) (by decide)
  have h32 := rd_byte hi hsame (d := 32) (by decide)
  simp only [headersLevel, hst, hcr, hlf, ne_eq, h32]
  split
  · trivial
  · next hend =>
    split
    · next hne =>
      simp only [Leaves, goOn, Reading, hl, InRows]
      refine ⟨y, sep, s.p.i, hrows, ⟨⟨hkey.key, hkey.first, hkey.scope⟩, hkey.mark, hkey.lt,
        hkey.colon, hkey.no⟩, rfl, rfl, hlt, by omega, hne, hblank, ?_⟩
      intro x hx hxi
      have hxe : x = s.p.i := by omega
      rw [hxe]
      exact not_or.mp hend
    · next hne =>
      simp only [Leaves, goOn, Reading, hl, InRows, hst]
      refine ⟨y, sep, hrows, ⟨⟨hkey.key, hkey.first, hkey.scope⟩, hkey.mark, hkey.lt,
        hkey.colon, hkey.no⟩, by omega, ?_⟩
      intro x hx hxi
      by_cases hxe : x = s.p.i
      · rw [hxe]
        exact not_not.mp hne
      · exact hblank x hx (by omega)

/-- A turn that waits for the LF of a row. -/
theorem reading_lf (hst : s.p.status = .headerEnd) (h : InRows B rs s) :
    Leaves (Reading B rs) (headersLevel len s) := by
  simp only [InRows, hst] at h
  rcases h with ⟨rs', r, rfl, hrows, hr, hie⟩
  have hlf := rd_byte hi hsame (d := 10) (by decide)
  simp only [headersLevel, hst, hlf]
  split
  · next h10 =>
    simp only [Leaves, startNext, goOn, Reading, hl, InRows]
    refine ⟨r.stop + 2, hrows.row hr (hie ▸ h10), by omega, by omega, ?_⟩
    intro hne
    exact absurd rfl hne
  · trivial

omit hl in
/-- The row whose CR is under the cursor. -/
theorem row_complete (hst : s.p.status = .headerValStarts) (h : InRows B rs s)
    (hcr : s.rd len s.p.i = 13) :
    s.p.start < s.p.i ∧ ∃ r, AtRow B len rs r { s with p := markEnd s.p } := by
  simp only [InRows, hst] at h
  rcases h with ⟨y, sep, val, hrows, hkey, hval, hstart, hsv, hvi, hne, hblank, hno⟩
  have h13 := (rd_byte hi hsame (d := 13) (by decide)).mp hcr
  refine ⟨by omega, ⟨y, sep, val, s.p.i⟩, ⟨hrows, ?_, hkey.key, hkey.mark, hval, rfl, hkey.scope, hi⟩⟩
  exact ⟨hkey.first, ⟨hkey.lt, hkey.colon, hkey.no⟩, ⟨hsv, hne, hblank⟩, hvi, h13, hno⟩

/-- A turn on a value that does not end here. -/
theorem reading_val (hst : s.p.status = .headerValStarts) (h : InRows B rs s)
    (hcr : s.rd len s.p.i ≠ 13) : Leaves (Reading B rs) (headerValTurn len s) := by
  simp only [InRows, hst] at h
  rcases h with ⟨y, sep, val, hrows, hkey, hval, hstart, hsv, hvi, hne, hblank, hno⟩
  have h13 := rd_byte hi hsame (d := 13) (by decide)
  have h10 := rd_byte hi hsame (d := 10) (by decide)
  simp only [headerValTurn, if_neg hcr]
  split
  · trivial
  · next hlf =>
    -- the byte before is part of the value, so an LF here is an error
    have hprev : s.rd len (s.p.i - 1) ≠ 13 := by
      rw [ParserSt.rd, if_pos (by omega)]
      exact fun h => (hno (s.p.i - 1) (by omega) (by omega)).1 (((hsame _).1 13 (by decide)).mp h)
    simp only [Leaves, goOn, Reading, hl, InRows, hst]
    refine ⟨y, sep, val, hrows, ⟨⟨hkey.key, hkey.first, hkey.scope⟩, hkey.mark, hkey.lt,
      hkey.colon, hkey.no⟩, hval, hstart, hsv, by omega, hne, hblank, ?_⟩
    intro x hx hxi
    by_cases hxe : x = s.p.i
    · rw [hxe]
      exact ⟨fun h => hcr (h13.mpr h), fun h => hlf ⟨h10.mpr h, hprev⟩⟩
    · exact hno x hx (by omega)

end Turn

/-! ## Computing the rows -/

/-- The row that starts at `y`. -/
def rowAt (B : Bytes) (y : Nat) : Option Row :=
  if cstr B y = 13 then none
  else
    (findByte (cstr B) 58 B.length (y + 1)).bind fun sep =>
      let val := skipWhile (· == 32) (cstr B) B.length (sep + 1)
      (findByte (cstr B) 13 B.length val).bind fun stop =>
        if val < stop ∧ findByte (cstr B) 10 (stop - val) val = none
        then some { key := y, sep := sep, val := val, stop := stop } else none

/-- At most `n` rows from `y` on. -/
def rowsFrom (B : Bytes) : Nat → Nat → List Row
  | 0, _ => []
  | n + 1, y =>
    match rowAt B y with
    | none => []
    | some r => r :: if cstr B (r.stop + 1) = 10 then rowsFrom B n (r.stop + 2) else []

/-- Where the rows start: behind the second blank and `HTTP/1.x`. -/
def headersStart (B : Bytes) : Option Nat :=
  (findByte (cstr B) 32 B.length 1).bind fun m =>
    (findByte (cstr B) 32 B.length (m + 1)).map (· + 11)

/-- The rows of a request. -/
def headerRows (B : Bytes) : List Row := ((headersStart B).map (rowsFrom B B.length)).getD []

section Compute

variable {B : Bytes} {rs : List Row} {r : Row} {y : Nat}

theorem findByte_none_iff {rd : Nat → UInt8} {c : UInt8} {n x : Nat} :
    findByte rd c n x = none ↔ ∀ j, x ≤ j → j < x + n → rd j ≠ c := by
  induction n generalizing x with
  | zero => exact ⟨fun _ j h1 h2 => absurd h1 (Nat.not_le.mpr h2), fun _ => rfl⟩
  | succ n ih =>
    unfold findByte
    by_cases hhere : rd x = c
    · rw [if_pos hhere]
      exact ⟨fun h => absurd h (Option.some_ne_none x),
        fun h => absurd hhere (h x (Nat.le_refl x) (by omega))⟩
    · rw [if_neg hhere, ih]
      constructor
      · intro h j h1 h2
        by_cases hj : j = x
        · rwa [hj]
        · exact h j (by omega) (by omega)
      · exact fun h j h1 h2 => h j (by omega) (by omega)

theorem rowAt_eq (h : IsRow (cstr B) r) : rowAt B r.key = some r := by
  rcases h with ⟨hkey, ⟨hks, hsep, hnosep⟩, ⟨hsv, hval, hblank⟩, hvs, hstop, hno⟩
  have hsl := lt_length_of_cstr (B := B) (x := r.sep) (by rw [hsep]; decide)
  have hel := lt_length_of_cstr (B := B) (x := r.stop) (by rw [hstop]; decide)
  have h1 : findByte (cstr B) 58 B.length (r.key + 1) = some r.sep :=
    findByte_first (by omega) (by omega) hsep (fun j hj hlt => hnosep j (by omega) hlt)
  have h2 : skipWhile (· == 32) (cstr B) B.length (r.sep + 1) = r.val :=
    skipWhile_eq (by omega) (by omega)
      (fun j hj hlt => by simpa using hblank j (by omega) hlt) (.inr (by simpa using hval))
  have h3 : findByte (cstr B) 13 B.length r.val = some r.stop :=
    findByte_first (by omega) (by omega) hstop (fun j hj hlt => (hno j hj hlt).1)
  have h4 : findByte (cstr B) 10 (r.stop - r.val) r.val = none :=
    findByte_none_iff.mpr (fun j hj hlt => (hno j hj (by omega)).2)
  simp [rowAt, hkey, h1, h2, h3, h4, hvs]

/-- What is computed is a row. -/
theorem isRow_of_rowAt (h : rowAt B y = some r) : r.key = y ∧ IsRow (cstr B) r := by
  unfold rowAt at h
  split at h
  · cases h
  next hkey =>
  rcases Option.bind_eq_some_iff.mp h with ⟨sep, hsep, h⟩
  rcases Option.bind_eq_some_iff.mp h with ⟨stop, hstop, h⟩
  rcases findByte_some hsep with ⟨hys, -, hcolon⟩
  rcases findByte_some hstop with ⟨-, -, hcr⟩
  have hin := lt_length_of_cstr (B := B) (x := stop) (by rw [hcr]; decide)
  have hspec := @skipWhile_spec (· == 32) (cstr B) B.length (sep + 1)
  have hle := le_skipWhile (· == 32) (cstr B) B.length (sep + 1)
  split at h
  · next hval =>
    cases h
    refine ⟨rfl, hkey, ⟨hys, hcolon, fun x h1 h2 => findByte_before hsep x h1 h2⟩,
      ⟨hle, ?_, ?_⟩, hval.1, hcr, ?_⟩
    · simpa using hspec.2 (by omega)
    · exact fun x h1 h2 => by simpa using hspec.1 x h1 h2
    · intro x h1 h2
      have hlt : x < stop := h2
      exact ⟨findByte_before hstop x h1 h2, findByte_none_iff.mp hval.2 x h1 (by omega)⟩
  · cases h

theorem headersStart_eq (h : HeadersStart B y) : headersStart B = some y := by
  rcases h with ⟨m, e, ⟨⟨hm1, hm, hnom⟩, hlt, he, hno⟩, rfl⟩
  have hml := lt_length_of_cstr (B := B) (x := m) (by rw [hm]; decide)
  have hel := lt_length_of_cstr (B := B) (x := e) (by rw [he]; decide)
  have h1 : findByte (cstr B) 32 B.length 1 = some m := findByte_first hm1 (by omega) hm hnom
  have h2 : findByte (cstr B) 32 B.length (m + 1) = some e :=
    findByte_first (by omega) (by omega) he hno
  simp [headersStart, h1, h2]

theorem headersStart_iff : headersStart B = some y ↔ HeadersStart B y := by
  refine ⟨fun h => ?_, headersStart_eq⟩
  rcases Option.bind_eq_some_iff.mp h with ⟨m, hm, h⟩
  rcases Option.map_eq_some_iff.mp h with ⟨e, he, rfl⟩
  rcases findByte_some hm with ⟨hm1, -, hmb⟩
  rcases findByte_some he with ⟨hme, -, heb⟩
  exact ⟨m, e, ⟨⟨hm1, hmb, findByte_before hm⟩, hme, heb, findByte_before he⟩, rfl⟩

theorem Rows.length_le (h : Rows B rs y) : rs.length ≤ y ∧ (rs ≠ [] → y ≤ B.length) := by
  induction h with
  | start _ => exact ⟨Nat.zero_le _, fun h => absurd rfl h⟩
  | row h hr hlf ih =>
    have hl := lt_length_of_cstr (B := B) (by rw [hlf]; decide)
    have h1 := hr.sep.1
    have h2 := hr.val.1
    have h3 := hr.stop.1
    simp only [List.length_append, List.length_singleton]
    exact ⟨by omega, fun _ => by omega⟩

/-- The computation goes through the rows one after the other. -/
theorem Rows.rowsFrom (h : Rows B rs y) (n : Nat) :
    ∃ y0, headersStart B = some y0 ∧
      rowsFrom B (rs.length + n) y0 = rs ++ Http.rowsFrom B n y := by
  induction h generalizing n with
  | start h => exact ⟨_, headersStart_eq h, by simp⟩
  | @row rs r h hr hlf ih =>
    rcases ih (n + 1) with ⟨y0, hy0, heq⟩
    refine ⟨y0, hy0, ?_⟩
    rw [List.length_append, List.length_singleton, Nat.add_assoc, Nat.add_comm 1 n, heq,
      List.append_assoc]
    simp only [Http.rowsFrom, rowAt_eq hr, hlf, if_true]
    rfl

theorem Rows.headerRows_eq (h : Rows B rs y) :
    headerRows B = rs ++ Http.rowsFrom B (B.length - rs.length) y := by
  have hle : rs.length ≤ B.length := by
    cases hrs : rs with
    | nil => exact Nat.zero_le _
    | cons q qs =>
      have hy := h.length_le
      have hin := hy.2 (by simp [hrs])
      rw [← hrs]
      omega
  rcases h.rowsFrom (B.length - rs.length) with ⟨y0, hy0, heq⟩
  rw [Nat.add_sub_cancel' hle] at heq
  rw [headerRows, hy0, Option.map_some, Option.getD_some, heq]

/-- The row behind them is the next one. -/
theorem Rows.headerRows_last (h : Rows B rs r.key) (hr : IsRow (cstr B) r) :
    ∃ n, headerRows B =
      rs ++ r :: if cstr B (r.stop + 1) = 10 then Http.rowsFrom B n (r.stop + 2) else [] := by
  have hle := h.length_le
  have h1 := hr.sep.1
  have h2 := hr.val.1
  have h3 := hr.stop.1
  have hl := lt_length_of_cstr (B := B) (x := r.stop) (by rw [hr.stop.2.1]; decide)
  rcases Nat.exists_eq_add_of_lt (show 0 < B.length - rs.length by omega) with ⟨n, hn⟩
  refine ⟨n, ?_⟩
  rw [h.headerRows_eq, hn, Nat.zero_add, Http.rowsFrom, rowAt_eq hr]

/-- The rows that have been looked up are the first rows of the request. -/
theorem Looked.take (h : Looked B rs) : rs = (headerRows B).take rs.length := by
  cases h with
  | none => rfl
  | rows h => rw [h.headerRows_eq, List.take_left]
  | @last rs r h hr =>
    rcases h.headerRows_last hr with ⟨n, heq⟩
    rw [heq]
    simp [List.take_append]

/-- The rows of a request that ends with a blank line. -/
theorem Rows.eq_headerRows (h : Rows B rs y) (hcr : cstr B y = 13) : headerRows B = rs := by
  rw [h.headerRows_eq]
  cases B.length - rs.length with
  | zero => exact List.append_nil _
  | succ n => simp [Http.rowsFrom, rowAt, hcr]

end Compute

end SuperExe.Http
