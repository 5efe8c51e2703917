import Mathlib.Data.List.Perm.Subperm
import SuperExe.Lib.Ring
import SuperExe.Http.RowsRun

/-! # The list of parsed headers

`p->header_list` is threaded through the nodes of `p->headers` and of
`p->headers_extra` (`mk_core/mk_list.h`). `header_lookup` calls `mk_list_add` for
every row, also for a known header whose node is in the list already. Then the
node is linked a second time: what stood behind it is lost, and if it was the last
one it becomes its own successor. `headerList_ring` says that this is the only
thing that can go wrong.
-/

namespace SuperExe.Http

open SuperExe.Core SuperExe.Lib

/-- The nodes of the list: the head, and one for each header. -/
abbrev HeaderNode := Option HeaderRef

/-- The links after the calls of `mk_list_add` that `headerList` records. -/
def headerLinks (p : Parser) : Links HeaderNode :=
  p.headerList.foldl (fun L r => L.add (some r) none) (Links.init none)

/-- A header that has been stored in one of the two arrays. -/
def StoredHeader (p : Parser) : HeaderRef → Prop
  | .known n => (p.headers n).key.data ≠ none
  | .extra k => k < p.headersExtra.length

/-- The list is a ring through its head, with every stored header in it once and
`header_count` nodes in all; so a traversal meets them and ends. -/
def ListWellFormed (p : Parser) : Prop :=
  ∃ ns : List HeaderRef, (headerLinks p).Ring none (ns.map some) ∧ ns.Nodup ∧
    (∀ r, r ∈ ns ↔ StoredHeader p r) ∧ ns.length = p.headerCount ∧
    (headerLinks p).walk none (p.headerCount + 1) ((headerLinks p).next none) = some (ns.map some)

section Refs

variable {B : Bytes} {rs : List Row}

theorem mem_headerRefs_known {n : HeaderName} (k : Nat) :
    .known n ∈ headerRefs B rs k ↔ n ∈ rs.filterMap (rowName B) := by
  induction rs generalizing k with
  | nil => simp [headerRefs]
  | cons r rs ih =>
    unfold headerRefs
    cases hr : rowName B r with
    | none => simp [ih, hr]
    | some m => simp [ih, hr]

theorem mem_headerRefs_extra {j : Nat} (k : Nat) :
    .extra j ∈ headerRefs B rs k ↔ k ≤ j ∧ j < k + (extraRows B rs).length := by
  induction rs generalizing k with
  | nil =>
    simp only [headerRefs, List.not_mem_nil, extraRows, List.filter_nil, List.length_nil,
      false_iff]
    omega
  | cons r rs ih =>
    unfold headerRefs
    cases hr : rowName B r with
    | none =>
      have hlen : (extraRows B (r :: rs)).length = (extraRows B rs).length + 1 := by
        simp [extraRows, hr]
      simp only [List.mem_cons, HeaderRef.extra.injEq, ih, hlen]
      omega
    | some m =>
      have hlen : extraRows B (r :: rs) = extraRows B rs := by simp [extraRows, hr]
      simp only [List.mem_cons, reduceCtorEq, false_or, ih, hlen]

/-- A node is met twice exactly if a known name is. -/
theorem nodup_headerRefs (k : Nat) :
    (headerRefs B rs k).Nodup ↔ (rs.filterMap (rowName B)).Nodup := by
  induction rs generalizing k with
  | nil => simp [headerRefs]
  | cons r rs ih =>
    unfold headerRefs
    cases hr : rowName B r with
    | none =>
      have hfresh : HeaderRef.extra k ∉ headerRefs B rs (k + 1) := by
        rw [mem_headerRefs_extra]
        omega
      simp [ih, hr, hfresh]
    | some m => simp [ih, hr, mem_headerRefs_known]

theorem length_headerRefs (k : Nat) : (headerRefs B rs k).length = rs.length := by
  induction rs generalizing k with
  | nil => rfl
  | cons r rs ih =>
    unfold headerRefs
    cases rowName B r <;> simp [ih]

end Refs

section State

variable {B : Bytes} {rs : List Row} {s : ParserSt}

/-- What is stored is what has been added to the list. -/
theorem Registered.stored (h : Registered B rs s) (r : HeaderRef) :
    StoredHeader s.p r ↔ r ∈ s.p.headerList := by
  rw [h.list]
  cases r with
  | extra k =>
    rw [mem_headerRefs_extra, StoredHeader, h.extra, List.length_map]
    omega
  | known n =>
    rw [mem_headerRefs_known, StoredHeader]
    have hentry := h.entry n
    unfold EntryOf at hentry
    cases hlast : (knownRows B n rs).getLast? with
    | none =>
      simp only [hlast] at hentry
      have hnone := List.getLast?_eq_none_iff.mp hlast
      simp only [hentry, mkHttpParserInit, MkPtr.null, ne_eq, not_true, false_iff,
        List.mem_filterMap, not_exists, not_and]
      intro r hr hn
      have hmem : r ∈ knownRows B n rs := by simp [knownRows, hr, hn]
      rw [hnone] at hmem
      cases hmem
    | some r =>
      simp only [hlast] at hentry
      have hmem := List.mem_of_getLast? hlast
      simp only [knownRows, List.mem_filter, decide_eq_true_eq] at hmem
      simp only [hentry.key, Row.header, ne_eq, reduceCtorEq, not_false_eq_true, true_iff,
        List.mem_filterMap]
      exact ⟨r, hmem⟩

/-- The list is well formed as long as no node has been added twice. -/
theorem Registered.wellFormed_iff (h : Registered B rs s) :
    ListWellFormed s.p ↔ (rs.filterMap (rowName B)).Nodup := by
  have hlen : s.p.headerList.length = s.p.headerCount := by
    rw [h.list, length_headerRefs, h.count]
  rw [← nodup_headerRefs 0, ← h.list]
  constructor
  · rintro ⟨ns, -, hnodup, hmem, hcount, -⟩
    -- as many different nodes as calls
    have hsub : ns ⊆ s.p.headerList := fun r hr => (h.stored r).mp ((hmem r).mp hr)
    have hperm := (List.subperm_of_subset hnodup hsub).perm_of_length_le (by omega)
    exact hperm.nodup_iff.mp hnodup
  · intro hnodup
    have hmap : (none :: s.p.headerList.map some).Nodup := by
      refine List.nodup_cons.mpr ⟨by simp, ?_⟩
      exact hnodup.map (Option.some_injective _)
    have hring := Links.ring_foldl hmap
    rw [List.foldl_map] at hring
    have hwalk := hring.walk
    rw [List.length_map, hlen] at hwalk
    exact ⟨s.p.headerList, hring, hnodup, fun r => (h.stored r).symm, hlen, hwalk⟩

end State

/-- After any number of calls the list is well formed exactly if no two of the
rows looked up so far have the same known name. For an accepted request these are
all its rows. -/
theorem headerList_ring (req : ParsedRequest) (B : Bytes) (l : Nat) (ls : List Nat) :
    (ListWellFormed (feed (parserFresh req B) l ls).1.2.p ↔
      (((headerRows B).take (feed (parserFresh req B) l ls).1.2.p.headerCount).filterMap
        (rowName B)).Nodup) ∧
      ((feed (parserFresh req B) l ls).1.1 = .ok →
        (feed (parserFresh req B) l ls).1.2.p.headerCount = (headerRows B).length) := by
  constructor
  · rcases feed_looked req B l ls with ⟨rs, hlooked, hreg⟩
    rw [hreg.wellFormed_iff, hreg.count, ← hlooked.take]
  · intro hok
    rcases feed_rows (J := fun _ _ => True) (fun _ _ _ _ _ _ _ _ => trivial) req trivial
      (Prod.ext (Prod.ext hok rfl) rfl) with ⟨rs, y, hrows, hcr, hreg, -⟩
    rw [hreg.count, hrows.eq_headerRows hcr]

/-- While the request waits for more, the rows that count are those whose CR has come. -/
theorem headerList_ring_waiting (req : ParsedRequest) (B : Bytes) (l : Nat) (ls : List Nat)
    (hwait : (feed (parserFresh req B) l ls).1.1 = .pending) :
    ListWellFormed (feed (parserFresh req B) l ls).1.2.p ↔
      (((headerRows B).takeWhile fun r => r.stop < (feed (parserFresh req B) l ls).1.2.p.i).filterMap
        (rowName B)).Nodup :=
  (feed_waiting req B l ls hwait).wellFormed_iff

example : ((headerRows getQuery).filterMap (rowName getQuery)) = [HeaderName.host] := by
  decide

/-- The same header twice. -/
def getHostTwice : Bytes := bytes "GET / HTTP/1.1\r\nHost: a\r\nHost: b\r\n\r\n"

/-- The node of `Host` becomes its own successor. -/
theorem headerList_hostTwice :
    (feed (parserFresh parsedRequestZero getHostTwice) 36 []).1.1 = .ok ∧
      ¬ ListWellFormed (feed (parserFresh parsedRequestZero getHostTwice) 36 []).1.2.p ∧
      (headerLinks (feed (parserFresh parsedRequestZero getHostTwice) 36 []).1.2.p).next
        (some (.known HeaderName.host)) = some (some (.known HeaderName.host)) := by
  refine ⟨by decide, ?_, by decide⟩
  rcases feed_looked parsedRequestZero getHostTwice 36 [] with ⟨rs, hlooked, hreg⟩
  have hcount : (feed (parserFresh parsedRequestZero getHostTwice) 36 []).1.2.p.headerCount = 2 := by
    decide
  rw [hreg.wellFormed_iff, hlooked.take, ← hreg.count, hcount]
  decide

end SuperExe.Http
