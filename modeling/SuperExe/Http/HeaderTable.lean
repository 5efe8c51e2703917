import SuperExe.Http.HeaderRows

/-! # What the header rows leave in the parser

`header_lookup` picks the candidates for a key by its first byte and compares
the rest. `headerMatch_eq` says that this finds the row of `mk_headers_table`
with the name of the key, in whatever case. `Registered` is what the parser has
stored after a list of rows, and `feed_rows` the rule for whole requests.
-/

namespace SuperExe.Http

open SuperExe.Core SuperExe.Lib

/-! ## Names -/

/-- The key of a row in lower case. -/
def keyText (B : Bytes) (r : Row) : Bytes :=
  (window (fun k => cstr B (r.key + k)) (r.sep - r.key)).map tolower

/-- The row of `mk_headers_table` that has this name. -/
def rowName (B : Bytes) (r : Row) : Option HeaderName :=
  (List.finRange headerSizeof).find? fun n => headersTable.getD n [] = keyText B r

/-- The first bytes that have candidates. -/
def scopeBytes : Bytes := bytes "achilru"

theorem headersTable_first (n : HeaderName) :
    ∃ d ∈ scopeBytes, (headersTable.getD n [])[0]? = some d := by
  revert n
  decide

theorem headerScope_none {c : UInt8} (hc : tolower c ∉ scopeBytes) : headerScope c = (-1, -1) := by
  have h : ∀ d, d ∈ scopeBytes → ¬ tolower c = d := by
    rintro d hd rfl
    exact hc hd
  simp only [headerScope, h 97 (by decide), h 99 (by decide), h 104 (by decide),
    h 105 (by decide), h 108 (by decide), h 114 (by decide), h 117 (by decide), if_false]

theorem headerScope_range {c : UInt8} (hc : tolower c ∈ scopeBytes) :
    0 ≤ (headerScope c).1 ∧ (headerScope c).2 < headersTable.length := by
  simp only [headerScope]
  generalize tolower c = d at hc
  revert d
  decide +kernel

/-- The candidates are the names with the right first byte. -/
theorem headerScope_iff (c : UInt8) (n : HeaderName) :
    ((headerScope c).1 ≤ n ∧ (n : Int) ≤ (headerScope c).2) ↔
      (headersTable.getD n [])[0]? = some (tolower c) := by
  by_cases hc : tolower c ∈ scopeBytes
  · simp only [headerScope]
    generalize tolower c = d at hc
    revert d n
    decide +kernel
  · rcases headersTable_first n with ⟨d, hd, hn⟩
    rw [headerScope_none hc, hn]
    constructor
    · rintro ⟨-, h⟩
      have h0 : (0 : Int) ≤ n := Int.natCast_nonneg _
      simp only at h
      omega
    · intro h
      cases h
      exact absurd hd hc

theorem cstr_map_window (f : Nat → UInt8) (n k : Nat) (hk : k < n) :
    cstr ((window f n).map tolower) k = tolower (f k) := by
  simp [cstr, window, hk]

/-- Equal lists, byte by byte. -/
theorem eq_keyText_iff {B : Bytes} {r : Row} {name : Bytes} :
    name = keyText B r ↔ name.length = r.sep - r.key ∧
      ∀ k < name.length, cstr name k = tolower (cstr B (r.key + k)) := by
  constructor
  · rintro rfl
    refine ⟨by simp [keyText], ?_⟩
    intro k hk
    exact cstr_map_window _ _ k (by simpa [keyText] using hk)
  · rintro ⟨hlen, hbyte⟩
    apply List.ext_getElem?
    intro k
    by_cases hk : k < name.length
    · have hb := hbyte k hk
      rw [cstr, List.getD_eq_getElem?_getD, List.getElem?_eq_getElem hk] at hb
      rw [List.getElem?_eq_getElem hk, keyText, List.getElem?_map, getElem?_window _ (by omega)]
      simpa using hb
    · rw [List.getElem?_eq_none (by omega), List.getElem?_eq_none]
      simp only [keyText, List.length_map, length_window]
      omega

section Match

variable {B : Bytes} {len : Nat} {rs : List Row} {r : Row} {s : ParserSt}

theorem headerCmp_iff {e v : Nat → UInt8} {n : Nat} :
    headerCmp e v n = true ↔ ∀ k < n, e k = tolower (v k) := by
  simp [headerCmp]

/-- The heuristic finds the name of the key. -/
theorem headerMatch_eq (h : AtRow B len rs r s) (hsame : SameText B s.buffer) :
    headerMatch len s = rowName B r := by
  have hlt := h.row.sep.1
  have hstop : r.sep < len := by
    have := h.row.val.1
    have := h.row.stop.1
    have := h.lt
    omega
  have hmin : s.p.headerMin = (headerScope (cstr B r.key)).1 := congrArg Prod.fst h.scope
  have hmax : s.p.headerMax = (headerScope (cstr B r.key)).2 := congrArg Prod.snd h.scope
  unfold headerMatch rowName
  simp only
  congr 1
  funext n
  rw [decide_eq_decide, eq_keyText_iff, h.key, h.sep, hmin, hmax, ← and_assoc, headerScope_iff]
  simp only [headerCmp_iff, Int.toNat_natCast]
  have hbyte : ∀ k, r.key + k < r.sep →
      tolower (s.rd len (r.key + k)) = tolower (cstr B (r.key + k)) := by
    intro k hk
    rw [ParserSt.rd, if_pos (by omega)]
    exact (hsame _).2
  generalize headersTable.getD n [] = name
  constructor
  · rintro ⟨hfirst, hlen, hrest⟩
    refine ⟨by omega, ?_⟩
    intro k hk
    cases k with
    | zero => simp [cstr, hfirst]
    | succ k =>
      rw [hrest k (by omega), Nat.add_assoc, Nat.add_comm 1 k, hbyte _ (by omega)]
  · rintro ⟨hlen, hall⟩
    refine ⟨?_, by omega, ?_⟩
    · have h0 := hall 0 (by omega)
      rw [cstr, List.getD_eq_getElem?_getD, List.getElem?_eq_getElem (by omega)] at h0
      rw [List.getElem?_eq_getElem (by omega)]
      simpa using h0
    · intro k hk
      rw [hall (k + 1) (by omega), Nat.add_assoc, Nat.add_comm 1 k, hbyte _ (by omega)]

end Match

/-! ## What is stored -/

/-- The slices of a row. -/
def Row.header (r : Row) (type : Int) : HttpHeader where
  type := type
  key := { data := some r.key, len := (r.sep : Int) - r.key }
  val := { data := some r.val, len := (r.stop : Int) - r.val }

/-- The rows whose key is in no row of the table. -/
def extraRows (B : Bytes) (rs : List Row) : List Row := rs.filter fun r => rowName B r = none

/-- The rows with the name `n`. -/
def knownRows (B : Bytes) (n : HeaderName) (rs : List Row) : List Row :=
  rs.filter fun r => rowName B r = some n

/-- The nodes of `header_list`, when `k` extra headers are there already. -/
def headerRefs (B : Bytes) : List Row → Nat → List HeaderRef
  | [], _ => []
  | r :: rs, k =>
    match rowName B r with
    | some n => .known n :: headerRefs B rs k
    | none => .extra k :: headerRefs B rs (k + 1)

/-- The entry `h` of the table points to the row `r`. A port is cut off the value
of a `Host` row. -/
structure Stores (h : HttpHeader) (n : HeaderName) (r : Row) : Prop where
  type : h.type = n
  key : h.key = (r.header n).key
  val : h.val.data = some r.val
  len : n ≠ HeaderName.host → h.val.len = (r.stop : Int) - r.val

/-- The entry of `n` after the rows `rs`: the last row of that name. -/
def EntryOf (B : Bytes) (n : HeaderName) (rs : List Row) (h : HttpHeader) : Prop :=
  match (knownRows B n rs).getLast? with
  | none => h = mkHttpParserInit.headers n
  | some r => Stores h n r

/-- Keys of extra headers are lower-cased where they stand. -/
def loweredText (B : Bytes) (rs : List Row) (x : Nat) : UInt8 :=
  if ∃ r ∈ extraRows B rs, r.key ≤ x ∧ x < r.sep then tolower (cstr B x) else cstr B x

/-- What the parser has stored after the rows `rs`. -/
structure Registered (B : Bytes) (rs : List Row) (s : ParserSt) : Prop where
  count : s.p.headerCount = rs.length
  list : s.p.headerList = headerRefs B rs 0
  extra : s.p.headersExtra = (extraRows B rs).map fun r => r.header 0
  entry : ∀ n, EntryOf B n rs (s.p.headers n)
  buffer : s.buffer = loweredText B rs
  bound : (extraRows B rs).length ≤ headerExtraSize

section Registered

variable {B : Bytes} {rs : List Row} {r : Row}

theorem extraRows_snoc : extraRows B (rs ++ [r]) =
    extraRows B rs ++ if rowName B r = none then [r] else [] := by
  simp [extraRows, List.filter_append, List.filter_cons]

theorem knownRows_snoc (n : HeaderName) : knownRows B n (rs ++ [r]) =
    knownRows B n rs ++ if rowName B r = some n then [r] else [] := by
  simp [knownRows, List.filter_append, List.filter_cons]

theorem headerRefs_snoc (k : Nat) : headerRefs B (rs ++ [r]) k = headerRefs B rs k ++
    [match rowName B r with
      | some n => .known n
      | none => .extra (k + (extraRows B rs).length)] := by
  induction rs generalizing k with
  | nil =>
    simp only [List.nil_append, headerRefs, extraRows]
    cases rowName B r <;> rfl
  | cons q rs ih =>
    simp only [List.cons_append, headerRefs, extraRows, List.filter_cons] at ih ⊢
    cases hq : rowName B q with
    | none =>
      simp only [ih, decide_true, if_true, List.length_cons, List.cons_append, Nat.add_assoc,
        Nat.add_comm 1]
    | some n => simp [ih]

theorem sameText_lowered (B : Bytes) (rs : List Row) : SameText B (loweredText B rs) := by
  intro x
  unfold loweredText
  split
  · refine ⟨fun d hd => tolower_control _ hd, ?_⟩
    unfold tolower
    split <;> grind
  · exact ⟨fun d hd => Iff.rfl, rfl⟩

theorem Registered.sameText {s : ParserSt} (h : Registered B rs s) : SameText B s.buffer := by
  rw [h.buffer]
  exact sameText_lowered B rs

theorem registered_fresh (req : ParsedRequest) (B : Bytes) :
    Registered B [] (parserFresh req B) where
  count := rfl
  list := rfl
  extra := rfl
  entry n := rfl
  buffer := by
    funext x
    simp [loweredText, extraRows, parserFresh]
  bound := Nat.zero_le _

end Registered

/-! ## One look-up -/

section Lookup

variable {B : Bytes} {len : Nat} {rs : List Row} {r : Row} {s : ParserSt}

/-- A known header: what `header_lookup` does besides looking at the value. -/
theorem registerHeader_entry (h : AtRow B len rs r s) {n : HeaderName} (hn : rowName B r = some n)
    (hreg : Registered B rs s) : Registered B (rs ++ [r]) { s with p := registerHeader s.p n } := by
  have hextra : extraRows B (rs ++ [r]) = extraRows B rs := by simp [extraRows_snoc, hn]
  refine ⟨?_, ?_, ?_, ?_, ?_, ?_⟩
  · simp [registerHeader, hreg.count]
  · simp only [registerHeader, hreg.list, headerRefs_snoc, hn]
  · simp only [registerHeader, hreg.extra, hextra]
  · intro m
    simp only [EntryOf, knownRows_snoc, hn, Option.some.injEq, registerHeader]
    by_cases hm : m = n
    · subst hm
      simp only [if_true, List.getLast?_append, List.getLast?_singleton, Option.some_or]
      constructor
      · rfl
      · simp only [Row.header, h.key, h.sep, Int.toNat_natCast]
      · simp only [h.val, Int.toNat_natCast]
      · intro _
        simp only [h.val, h.stop]
    · simp only [hm, Ne.symm hm, if_false, List.append_nil]
      exact hreg.entry m
  · funext x
    simp only [hreg.buffer, loweredText, hextra]
  · rw [hextra]
    exact hreg.bound

/-- Cutting a port off the value of the `Host` entry. -/
theorem Registered.cutHost (hreg : Registered B rs s) (port cut : Int)
    (hknown : knownRows B HeaderName.host rs ≠ []) :
    Registered B rs { s with p := { s.p with
      headerHostPort := port
      headers := fun m => if m = HeaderName.host then
        { s.p.headers m with val := { (s.p.headers m).val with len := cut } }
        else s.p.headers m } } := by
  refine ⟨hreg.count, hreg.list, hreg.extra, ?_, hreg.buffer, hreg.bound⟩
  intro m
  have hentry := hreg.entry m
  simp only
  by_cases hm : m = HeaderName.host
  · subst hm
    simp only [if_true]
    unfold EntryOf at hentry ⊢
    cases hlast : (knownRows B HeaderName.host rs).getLast? with
    | none => exact absurd (List.getLast?_eq_none_iff.mp hlast) hknown
    | some q =>
      simp only [hlast] at hentry ⊢
      exact ⟨hentry.type, hentry.key, hentry.val, fun h => absurd rfl h⟩
  · rwa [if_neg hm]

/-- A known header is stored, whatever its value. -/
theorem lookup_known (h : AtRow B len rs r s) {n : HeaderName} (hn : rowName B r = some n)
    (hreg : Registered B rs s) : Registered B (rs ++ [r]) (headerLookup len s).1 := by
  have hentry := registerHeader_entry h hn hreg
  have hmatch := headerMatch_eq h hreg.sameText
  unfold headerLookup
  rw [hmatch, hn]
  simp only
  split
  · next hhost =>
    subst hhost
    simp only [lookupHost]
    repeat' split
    all_goals first
      | exact hentry
      | exact hentry.cutHost _ _ (by simp [knownRows_snoc, hn])
  · split
    · simp only [lookupContentLength]
      repeat' split
      all_goals exact ⟨hentry.count, hentry.list, hentry.extra, hentry.entry, hentry.buffer, hentry.bound⟩
    · split
      · exact ⟨hentry.count, hentry.list, hentry.extra, hentry.entry, hentry.buffer, hentry.bound⟩
      · exact hentry

theorem tolower_tolower (c : UInt8) : tolower (tolower c) = tolower c := by
  unfold tolower
  split <;> grind

theorem lowered_snoc (hn : rowName B r = none) :
    lowerBytes (loweredText B rs) r.key (r.sep - r.key) = loweredText B (rs ++ [r]) := by
  funext x
  have hmem : ∀ q, q ∈ extraRows B (rs ++ [r]) ↔ q ∈ extraRows B rs ∨ q = r := by
    intro q
    simp [extraRows_snoc, hn]
  unfold lowerBytes
  by_cases hx : r.key ≤ x ∧ x < r.sep
  · have hnew : loweredText B (rs ++ [r]) x = tolower (cstr B x) :=
      if_pos ⟨r, (hmem r).mpr (.inr rfl), hx⟩
    rw [if_pos (by omega), hnew, loweredText]
    split
    · exact tolower_tolower _
    · rfl
  · rw [if_neg (by omega)]
    by_cases hold : ∃ q ∈ extraRows B rs, q.key ≤ x ∧ x < q.sep
    · rcases hold with ⟨q, hq, hqx⟩
      rw [loweredText, loweredText, if_pos ⟨q, hq, hqx⟩, if_pos ⟨q, (hmem q).mpr (.inl hq), hqx⟩]
    · have hnew : ¬ ∃ q ∈ extraRows B (rs ++ [r]), q.key ≤ x ∧ x < q.sep := by
        rintro ⟨q, hq, hqx⟩
        rcases (hmem q).mp hq with hq | rfl
        · exact hold ⟨q, hq, hqx⟩
        · exact hx hqx
      rw [loweredText, loweredText, if_neg hold, if_neg hnew]

/-- An unknown header is stored as long as there is room. -/
theorem lookup_extra (h : AtRow B len rs r s) (hn : rowName B r = none)
    (hreg : Registered B rs s) (hroom : (extraRows B rs).length < headerExtraSize) :
    (headerLookup len s).2 = 0 ∧ Registered B (rs ++ [r]) (headerLookup len s).1 := by
  have hmatch := headerMatch_eq h hreg.sameText
  have hlen : s.p.headersExtra.length = (extraRows B rs).length := by
    rw [hreg.extra, List.length_map]
  have hlt := h.row.sep.1
  unfold headerLookup
  rw [hmatch, hn]
  simp only [hlen, hroom, if_true, true_and]
  refine ⟨?_, ?_, ?_, ?_, ?_, ?_⟩
  · simp [hreg.count]
  · simp only [hreg.list, headerRefs_snoc, hn, Nat.zero_add]
  · simp only [hreg.extra, extraRows_snoc, hn, if_true, List.map_append, List.map_cons,
      List.map_nil, Row.header, h.key, h.sep, h.val, h.stop, Int.toNat_natCast]
  · intro m
    have hkeep : knownRows B m (rs ++ [r]) = knownRows B m rs := by simp [knownRows_snoc, hn]
    unfold EntryOf
    rw [hkeep]
    exact hreg.entry m
  · simp only [hreg.buffer, h.key, h.sep, Int.toNat_natCast]
    rw [show ((r.sep : Int) - r.key).toNat = r.sep - r.key by omega]
    exact lowered_snoc hn
  · simp only [extraRows_snoc, hn, if_true, List.length_append, List.length_singleton]
    omega

/-- Without room the request is refused. -/
theorem lookup_full (h : AtRow B len rs r s) (hn : rowName B r = none)
    (hreg : Registered B rs s) (hfull : ¬ (extraRows B rs).length < headerExtraSize) :
    headerLookup len s = (s, -clientRequestEntityTooLarge) := by
  have hmatch := headerMatch_eq h hreg.sameText
  have hlen : s.p.headersExtra.length = (extraRows B rs).length := by
    rw [hreg.extra, List.length_map]
  unfold headerLookup
  rw [hmatch, hn]
  simp only [hlen, hfull, if_false]

end Lookup

end SuperExe.Http
