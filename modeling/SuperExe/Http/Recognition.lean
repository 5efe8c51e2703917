import Mathlib.Data.List.Pairwise
import SuperExe.Http.RowsRun

/-! # Which headers are recognised

`header_lookup` compares a key with the candidates between `header_min` and
`header_max`. For a first byte without candidates both are `-1`, and the loop
still makes one turn: it reads the row in front of `mk_headers_table`. Otherwise
recognition is exact; a row is found again in the table unless a later row has
the same name. `recognition_iff` puts the two together.
-/

namespace SuperExe.Http

open SuperExe.Core SuperExe.Lib

/-- The indices of `mk_headers_table` that `header_lookup` reads: from
`header_min` up to the row that matches, or up to `header_max`. -/
def headerReads (len : Nat) (s : ParserSt) : List Int :=
  let last := match headerMatch len s with
    | some n => (n : Int)
    | none => s.p.headerMax
  (List.range (last - s.p.headerMin + 1).toNat).map fun (k : Nat) => s.p.headerMin + k

/-- The same, from the bytes of a row. -/
def rowReads (B : Bytes) (r : Row) : List Int :=
  let scope := headerScope (cstr B r.key)
  let last := match rowName B r with
    | some n => (n : Int)
    | none => scope.2
  (List.range (last - scope.1 + 1).toNat).map fun (k : Nat) => scope.1 + k

/-- What `ExactRecognition` asks of the reads, it asks of those of the code. -/
theorem headerReads_eq {B : Bytes} {len : Nat} {rs : List Row} {r : Row} {s : ParserSt}
    (h : AtRow B len rs r s) (hsame : SameText B s.buffer) : headerReads len s = rowReads B r := by
  have hmin : s.p.headerMin = (headerScope (cstr B r.key)).1 := congrArg Prod.fst h.scope
  have hmax : s.p.headerMax = (headerScope (cstr B r.key)).2 := congrArg Prod.snd h.scope
  unfold headerReads rowReads
  rw [headerMatch_eq h hsame, hmin, hmax]

/-- What an accepted request should look like: every look-up stays in the table,
a row is in the entry of its name, all other rows are in order in
`headers_extra`, with their keys in lower case, and there is room for them. -/
structure ExactRecognition (B : Bytes) (e : ParserSt) : Prop where
  reads : ∀ r ∈ headerRows B, ∀ i ∈ rowReads B r, 0 ≤ i ∧ i < headersTable.length
  known : ∀ r ∈ headerRows B, ∀ n : HeaderName,
    Stores (e.p.headers n) n r ↔ headersTable.getD n [] = keyText B r
  extra : e.p.headersExtra =
    ((headerRows B).filter fun r => keyText B r ∉ headersTable).map fun r => r.header 0
  lowered : ∀ r ∈ headerRows B, keyText B r ∉ headersTable →
    window (fun k => e.buffer (r.key + k)) (r.sep - r.key) = keyText B r
  bound : ((headerRows B).filter fun r => keyText B r ∉ headersTable).length ≤ headerExtraSize

section Names

variable {B : Bytes} {r : Row}

theorem headersTable_inj {n m : HeaderName}
    (h : headersTable.getD n [] = headersTable.getD m []) : n = m := by
  revert n m
  decide

theorem rowName_eq_some {n : HeaderName} :
    rowName B r = some n ↔ headersTable.getD n [] = keyText B r := by
  unfold rowName
  constructor
  · intro h
    simpa using List.find?_some h
  · intro h
    cases hf : (List.finRange headerSizeof).find?
        fun (m : HeaderName) => headersTable.getD m [] = keyText B r with
    | none =>
      have hno := List.find?_eq_none.mp hf n (List.mem_finRange n)
      exact absurd (decide_eq_true h) hno
    | some m =>
      have hm : headersTable.getD m [] = keyText B r := by simpa using List.find?_some hf
      rw [headersTable_inj (hm.trans h.symm)]

theorem keyText_first (hlt : r.key < r.sep) : (keyText B r)[0]? = some (tolower (cstr B r.key)) := by
  rw [keyText, List.getElem?_map, getElem?_window _ (by omega)]
  rfl

theorem rowName_eq_none : rowName B r = none ↔ keyText B r ∉ headersTable := by
  constructor
  · intro h hmem
    rcases List.mem_iff_getElem.mp hmem with ⟨n, hn, heq⟩
    have hsome : rowName B r = some ⟨n, hn⟩ := by
      rw [rowName_eq_some]
      simp [List.getD_eq_getElem?_getD, hn, heq]
    rw [h] at hsome
    cases hsome
  · intro h
    cases hn : rowName B r with
    | none => rfl
    | some n =>
      exfalso
      apply h
      rw [← rowName_eq_some.mp hn]
      have hlt : (n : Nat) < headersTable.length := n.isLt
      simp [List.getD_eq_getElem?_getD, hlt]

theorem extraRows_eq (rs : List Row) :
    extraRows B rs = rs.filter fun r => keyText B r ∉ headersTable := by
  unfold extraRows
  congr 1
  funext r
  rw [decide_eq_decide]
  exact rowName_eq_none

/-- The rows read are in the table exactly if the first byte has candidates. -/
theorem rowReads_inTable (hlt : r.key < r.sep) :
    (∀ i ∈ rowReads B r, 0 ≤ i ∧ i < (headersTable.length : Int)) ↔
      tolower (cstr B r.key) ∈ scopeBytes := by
  constructor
  · intro h
    by_contra hc
    have hscope := headerScope_none hc
    have hlast : rowName B r = none := by
      cases hn : rowName B r with
      | none => rfl
      | some n =>
        -- a name would have to start with that byte
        exfalso
        have hfirst := (headerScope_iff (cstr B r.key) n).mpr (by
          rw [rowName_eq_some.mp hn, keyText_first hlt])
        rw [hscope] at hfirst
        have h0 : (0 : Int) ≤ n := Int.natCast_nonneg _
        have h1 := hfirst.2
        simp only at h1
        omega
    have hneg := h (-1) (by simp [rowReads, hlast, hscope])
    omega
  · intro hc i hi
    have hrange := headerScope_range hc
    simp only [rowReads, List.mem_map, List.mem_range] at hi
    rcases hi with ⟨k, hk, rfl⟩
    cases hn : rowName B r with
    | none =>
      simp only [hn] at hk
      omega
    | some n =>
      simp only [hn] at hk
      have hn' := n.isLt
      have hlen : headersTable.length = headerSizeof := rfl
      omega

end Names

section Rows

variable {B : Bytes} {rs : List Row} {y : Nat}

/-- The rows stand one behind the other. -/
theorem Rows.keys (h : Rows B rs y) :
    rs.Pairwise (fun a b => a.key < b.key) ∧ ∀ r ∈ rs, r.key < y ∧ IsRow (cstr B) r := by
  induction h with
  | start _ => simp
  | @row rs r h hr hlf ih =>
    have h1 := hr.sep.1
    have h2 := hr.val.1
    have h3 := hr.stop.1
    constructor
    · rw [List.pairwise_append]
      refine ⟨ih.1, List.pairwise_singleton _ _, ?_⟩
      intro a ha b hb
      rw [List.mem_singleton] at hb
      rw [hb]
      exact (ih.2 a ha).1
    · intro q hq
      rcases List.mem_append.mp hq with hq | hq
      · have hlt := (ih.2 q hq).1
        exact ⟨by omega, (ih.2 q hq).2⟩
      · rw [List.mem_singleton] at hq
        rw [hq]
        exact ⟨by omega, hr⟩

theorem Rows.eq_of_key (h : Rows B rs y) {q r : Row} (hq : q ∈ rs) (hr : r ∈ rs)
    (hkey : q.key = r.key) : q = r := by
  by_contra hne
  have hpair : rs.Pairwise fun a b => a.key ≠ b.key := h.keys.1.imp Nat.ne_of_lt
  have hsymm : Std.Symm fun a b : Row => a.key ≠ b.key := ⟨fun a b hab => hab.symm⟩
  exact hpair.forall hq hr hne hkey

theorem Stores.sameKey {h : HttpHeader} {n : HeaderName} {q r : Row} (hq : Stores h n q)
    (hr : Stores h n r) : q.key = r.key := by
  have hkey := congrArg MkPtr.data (hq.key.symm.trans hr.key)
  exact Option.some.inj hkey

/-- No two rows have the same known name. -/
theorem nodup_names :
    (rs.filterMap (rowName B)).Nodup ↔
      rs.Pairwise fun a b => ∀ n, rowName B a = some n → rowName B b ≠ some n := by
  rw [List.Nodup, List.pairwise_filterMap]
  constructor
  · intro h
    refine h.imp ?_
    intro a b hab n ha hb
    exact hab n ha n hb rfl
  · intro h
    refine h.imp ?_
    rintro a b hab n ha m hb rfl
    exact hab n ha hb

/-- Every row is in the entry of its name exactly if no later row took its place. -/
theorem stored_iff (hrows : Rows B rs y) {e : ParserSt} (hreg : Registered B rs e) :
    (∀ r ∈ rs, ∀ n : HeaderName,
      Stores (e.p.headers n) n r ↔ headersTable.getD n [] = keyText B r) ↔
      (rs.filterMap (rowName B)).Nodup := by
  rw [nodup_names]
  constructor
  · intro h
    refine hrows.keys.1.imp_of_mem ?_
    intro a b ha hb hlt n hna hnb
    have hsa := (h a ha n).mpr (rowName_eq_some.mp hna)
    have hsb := (h b hb n).mpr (rowName_eq_some.mp hnb)
    have hkey := hsa.sameKey hsb
    omega
  · intro hpair r hr n
    have hentry := hreg.entry n
    unfold EntryOf at hentry
    -- a name belongs to one row
    have hone : ∀ q ∈ rs, rowName B q = some n → rowName B r = some n → q = r := by
      intro q hq hqn hrn
      by_contra hne
      have hsymm : Std.Symm fun a b : Row => ∀ n, rowName B a = some n → rowName B b ≠ some n :=
        ⟨fun a b hab m hb ha => hab m ha hb⟩
      exact hpair.forall hq hr hne n hqn hrn
    rw [← rowName_eq_some]
    -- the entry of a name is that of the last row with it
    cases hlast : (knownRows B n rs).getLast? with
    | none =>
      simp only [hlast] at hentry
      have hnone := List.getLast?_eq_none_iff.mp hlast
      constructor
      · intro hs
        have hkey := hs.key
        simp [hentry, mkHttpParserInit, MkPtr.null, Row.header] at hkey
      · intro hn
        have hmem : r ∈ knownRows B n rs := by simp [knownRows, hr, hn]
        rw [hnone] at hmem
        cases hmem
    | some q =>
      simp only [hlast] at hentry
      have hmem := List.mem_of_getLast? hlast
      simp only [knownRows, List.mem_filter, decide_eq_true_eq] at hmem
      constructor
      · intro hs
        rw [← hrows.eq_of_key hmem.1 hr (hentry.sameKey hs)]
        exact hmem.2
      · intro hn
        rwa [← hone q hmem.1 hmem.2 hn]

/-- The keys of extra headers in the buffer. -/
theorem lowered_keys {e : ParserSt} (hreg : Registered B rs e) {r : Row} (hr : r ∈ rs)
    (hn : rowName B r = none) :
    window (fun k => e.buffer (r.key + k)) (r.sep - r.key) = keyText B r := by
  have hmem : r ∈ extraRows B rs := by simp [extraRows, hr, hn]
  have hbyte : ∀ k < r.sep - r.key, e.buffer (r.key + k) = tolower (cstr B (r.key + k)) := by
    intro k hk
    rw [hreg.buffer]
    exact if_pos ⟨r, hmem, by omega, by omega⟩
  rw [window_congr hbyte, keyText]
  simp [window]

end Rows

/-- Recognition is exact for the requests whose keys all have candidates and whose
known names do not repeat. -/
theorem recognition_iff (req : ParsedRequest) (B : Bytes) {l len : Nat} {ls : List Nat}
    {e : ParserSt} (hok : feed (parserFresh req B) l ls = ((.ok, e), len)) :
    ExactRecognition B e ↔
      (∀ r ∈ headerRows B, tolower (cstr B r.key) ∈ scopeBytes) ∧
        ((headerRows B).filterMap (rowName B)).Nodup := by
  rcases feed_rows (J := fun _ _ => True) (fun _ _ _ _ _ _ _ _ => trivial) req trivial hok with
    ⟨rs, y, hrows, hcr, hreg, -⟩
  have hkeys := fun r hr => (hrows.keys.2 r hr).2.sep.1
  have hstored := stored_iff hrows hreg
  have hextra := hreg.extra
  have hbound := hreg.bound
  rw [extraRows_eq] at hextra hbound
  have hall := hrows.eq_headerRows hcr
  rw [hall]
  constructor
  · intro h
    rw [← hstored]
    constructor
    · intro r hr
      exact (rowReads_inTable (hkeys r hr)).mp (h.reads r (hall ▸ hr))
    · intro r hr
      exact h.known r (hall ▸ hr)
  · rintro ⟨hfirst, hnodup⟩
    constructor
    · intro r hr
      rw [hall] at hr
      exact (rowReads_inTable (hkeys r hr)).mpr (hfirst r hr)
    · intro r hr
      rw [hall] at hr
      exact hstored.mpr hnodup r hr
    · rw [hall]
      exact hextra
    · intro r hr hn
      rw [hall] at hr
      exact lowered_keys hreg hr (rowName_eq_none.mpr hn)
    · rw [hall]
      exact hbound

theorem recognition_getQuery :
    ExactRecognition getQuery (feed (parserFresh parsedRequestZero getQuery) 33 []).1.2 := by
  have hok : feed (parserFresh parsedRequestZero getQuery) 33 [] =
      ((.ok, (feed (parserFresh parsedRequestZero getQuery) 33 []).1.2), 33) := by
    refine Prod.ext (Prod.ext ?_ rfl) rfl
    decide
  exact (recognition_iff parsedRequestZero getQuery hok).mpr ⟨by decide, by decide⟩

/-- A key without candidates. -/
def getExtra : Bytes := bytes "GET / HTTP/1.1\r\nX-Y: z\r\n\r\n"

/-- The row in front of the table is read. -/
theorem recognition_getExtra :
    (feed (parserFresh parsedRequestZero getExtra) 26 []).1.1 = .ok ∧
      rowReads getExtra { key := 16, sep := 19, val := 21, stop := 22 } = [-1] ∧
      ¬ ExactRecognition getExtra (feed (parserFresh parsedRequestZero getExtra) 26 []).1.2 := by
  have hrows : headerRows getExtra = [{ key := 16, sep := 19, val := 21, stop := 22 }] := by
    decide
  have hreads : rowReads getExtra { key := 16, sep := 19, val := 21, stop := 22 } = [-1] := by
    decide
  refine ⟨by decide, hreads, ?_⟩
  intro h
  have hneg := h.reads _ (by rw [hrows]; exact List.mem_singleton_self _) (-1) (by simp [hreads])
  exact absurd hneg.1 (by decide)

end SuperExe.Http
