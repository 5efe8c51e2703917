import Mathlib.Data.List.TakeWhile
import SuperExe.Lib.Trace
import SuperExe.Core.SplitLine
import SuperExe.Core.StringSearch
import SuperExe.Http.Containment
import SuperExe.Http.QuerySlice

/-! # The ElastosSuperExe entry point

Model of the first half of `mk_superexe_stage30`
(`plugins/ElastosSuperExe/SuperExeEntry.c`): what a request leaves in
`superexe_conf`, the one record all requests of the process share. The name of
the CAR is cut out of `real_path`; the query string is read again from the
receive buffer, from `sr->query_string.data` on and without its length.

Two things are older than the request: `superexe_conf->car_name`, which is
assigned only when the path has the marker in it, and `sr->query_string`, which
`mk_http_request_init` does not reset and which the parser assigns only when the
request has a `?`. `stage30_isolated` says which requests see neither of them.
-/

namespace SuperExe.Plugins.SuperExeEntry

open SuperExe.Core SuperExe.Lib SuperExe.Http SuperExe.Vhost

/-! ## String functions -/

/-- `strstr`: where `search` first occurs. -/
def strstr (search string : Bytes) : Option Nat :=
  strstrBy Sensitivity.strSensitive.fastKey search string

/-- `mk_string_search(string, search, MK_STR_SENSITIVE)` -/
def mkStringSearch (string search : Bytes) : Int :=
  match strstr search string with
  | some pos => pos
  | none => -1

/-- `mk_string_char_search(string, c, -1)` of a C string. -/
def mkStringCharSearch (string : Bytes) (c : UInt8) : Int :=
  match string.findIdx? (· = c) with
  | some pos => pos
  | none => -1

/-- `"//superexe/"` -/
def marker : Bytes := bytes "//superexe/"

/-! ## The plugin -/

/-- `car_name` and `query_string` of `struct superexe_config`; `none` is `NULL`. -/
structure SuperexeConfig where
  carName : Option Bytes
  queryString : Option Bytes
deriving DecidableEq, Repr

/-- The C string at position `a` of the receive buffer, which ends with the NUL
behind the bytes received. -/
def bodyString (s : ParserSt) (len a : Nat) : Bytes :=
  cString (window (fun k => s.rd len (a + k)) (len - a))

/-- What `mk_superexe_stage30` assigns. `s` is the request as the parser has left
it in a buffer of `len` bytes. -/
def mkSuperexeStage30 (conf : SuperexeConfig) (realPath : Bytes) (s : ParserSt) (len : Nat) :
    SuperexeConfig :=
  let path := cString realPath
  let pos := mkStringSearch path marker
  let conf :=
    -- without the marker the old name stays
    if pos > 0 then { conf with carName := some (path.drop (pos.toNat + marker.length)) } else conf
  match s.req.queryString.data with
  | none => { conf with queryString := none }
  | some a =>
    let string := bodyString s len a
    let pos := mkStringCharSearch string 32
    if pos > 0 then { conf with queryString := some (string.take pos.toNat) }
    else { conf with queryString := some string }

/-! ## Requests and histories -/

/-- A request that the parser accepts, with the connection it comes in on and the
path it is mapped to. -/
structure Visit where
  conn : Nat
  bytes : Bytes
  first : Nat
  rest : List Nat
  realPath : Bytes
  ok : (feed (parserFresh parsedRequestZero bytes) first rest).1.1 = .ok

/-- What the parser leaves when it writes into `q`, and how many bytes are there. -/
def Visit.parse (v : Visit) (q : ParsedRequest) : ParserSt × Nat :=
  let r := feed (parserFresh q v.bytes) v.first v.rest
  (r.1.2, r.2)

/-- What `mk_http_request_init` resets of the fields the parser writes. -/
def requestReset (q : ParsedRequest) : ParsedRequest :=
  { q with uri := { q.uri with data := none }, method := .unknown, protocol := .unknown }

theorem requestReset_eq (k : World) (r : HttpRequest) :
    (mkHttpRequestInit k r).toParsedRequest = requestReset r.toParsedRequest := rfl

/-- What the process knows: the shared record and `sr_fixed` of each connection. -/
structure PluginSt where
  conf : SuperexeConfig
  records : Nat → ParsedRequest

inductive Event where
  /-- A new connection; its session is zeroed memory. -/
  | accepted (conn : Nat)
  /-- A request that another handler answers. -/
  | passed (v : Visit)
  /-- A request that `mk_superexe_stage30` handles. -/
  | handled (v : Visit)

/-- The record of a connection once a request has been parsed. -/
def PluginSt.parsed (s : PluginSt) (v : Visit) : ParserSt × Nat :=
  v.parse (requestReset (s.records v.conn))

/-- The process goes on with `q` in the record of a connection. -/
def PluginSt.store (s : PluginSt) (conn : Nat) (q : ParsedRequest) : PluginSt :=
  { s with records := fun c => if c = conn then q else s.records c }

/-- All requests of all connections, in the order they are handled. -/
def plugin : Machine PluginSt Event where
  step s
    | .accepted conn => s.store conn parsedRequestZero
    | .passed v => s.store v.conn (s.parsed v).1.req
    | .handled v =>
      let e := s.parsed v
      { s.store v.conn e.1.req with conf := mkSuperexeStage30 s.conf v.realPath e.1 e.2 }

/-- The process before its first request. `superexe_conf` is memory nobody has
written to yet. -/
def start (conf : SuperexeConfig) : PluginSt where
  conf := conf
  records _ := parsedRequestZero

/-! ## What a request asks for -/

/-- The part of a path behind the marker. -/
def carOf (realPath : Bytes) : Option Bytes :=
  (strstr marker realPath).map fun pos => realPath.drop (pos + marker.length)

/-- The slice of the query string, in a record that nothing else has written to. -/
def Visit.query (v : Visit) : Option Bytes :=
  let e := (v.parse parsedRequestZero).1
  e.req.queryString.data.map fun a =>
    window (fun k => e.buffer (a + k)) e.req.queryString.len.toNat

/-- After any history, the name and the query string are those of the request. -/
def Isolated (v : Visit) : Prop :=
  ∀ (conf : SuperexeConfig) (history : List Event),
    (plugin.step (plugin.run (start conf) history) (.handled v)).conf =
      { carName := carOf v.realPath, queryString := v.query }

/-! ## Searching -/

section Searching

variable {search string front : Bytes} {pos : Nat}

theorem mkStringSearch_found (h : strstr search string = some pos) :
    mkStringSearch string search = pos := by
  simp only [mkStringSearch, h]

theorem strstr_first (search string : Bytes) :
    First (OccursAt search string) 0 (mkStringSearch string search) := by
  have hfirst := strstrBy_first Sensitivity.strSensitive.fastKey search string
  -- the keys are the bytes themselves
  have hkeys : ∀ bs : Bytes, bs.map Sensitivity.strSensitive.fastKey = bs := List.map_id
  rw [hkeys, hkeys] at hfirst
  exact hfirst

theorem strstr_eq_some_iff : strstr search string = some pos ↔
    First (OccursAt search string) 0 pos := by
  constructor
  · intro h
    rw [← mkStringSearch_found h]
    exact strstr_first search string
  · intro hfirst
    have hpos := (strstr_first search string).unique hfirst
    cases hfound : strstr search string with
    | none =>
      simp only [mkStringSearch, hfound] at hpos
      omega
    | some p =>
      rw [mkStringSearch_found hfound] at hpos
      rw [Int.ofNat.inj hpos]

/-- Where a text is found it stands, and nowhere before. -/
theorem strstr_least (h : strstr search string = some pos) :
    OccursAt search string pos ∧ ∀ j < pos, ¬ OccursAt search string j := by
  rcases strstr_eq_some_iff.mp h with ⟨hneg, -⟩ | ⟨i, hi, -, hat, hleast⟩
  · omega
  · obtain rfl := Int.ofNat.inj hi
    exact ⟨hat, fun j hj => hleast j (Nat.zero_le j) hj⟩

/-- What occurs in the front part of a string occurs there first. -/
theorem strstr_of_front (hfront : front <+: string) (h : strstr search front = some pos) :
    strstr search string = some pos := by
  rcases hfront with ⟨rest, rfl⟩
  rcases strstr_least h with ⟨hat, hleast⟩
  refine strstr_eq_some_iff.mpr (Or.inr ⟨pos, rfl, Nat.zero_le pos, hat.append rest, ?_⟩)
  intro j _ hj hearlier
  have hle := hat.add_le
  exact hleast j hj (hearlier.front (by omega))

/-- Of a string whose length is an `int` it is the search that splits lines. -/
theorem mkStringCharSearch_eq (c : UInt8) (hlength : string.length < 2 ^ 31) :
    SplitLine.mkStringCharSearch (string ++ [0]) c (-1) = some (mkStringCharSearch string c) := by
  have hstrlen : toInt32 (((string ++ [0]).length : Int) - 1) = string.length := by
    rw [List.length_append, List.length_singleton, toInt32_eq (by omega) (by omega)]
    omega
  have hwhole := SplitLine.mkStringCharSearch_text (c := c) hlength
  rw [SplitLine.mkStringCharSearch, if_neg (by omega)] at hwhole
  rw [SplitLine.mkStringCharSearch, if_pos (by decide), hstrlen, hwhole, mkStringCharSearch]
  cases string.findIdx? fun x => decide (x = c) <;> rfl

end Searching

/-! ## What one request assigns -/

/-- What the code cuts out of the memory behind the `?`. -/
def queryCut (mem : Bytes) : Bytes :=
  if mkStringCharSearch (cString mem) 32 > 0 then
    (cString mem).take (mkStringCharSearch (cString mem) 32).toNat
  else cString mem

section Stage30

variable (conf : SuperexeConfig) (realPath : Bytes) (s : ParserSt) (len : Nat)

theorem stage30_carName :
    (mkSuperexeStage30 conf realPath s len).carName =
      if mkStringSearch (cString realPath) marker > 0 then
        some ((cString realPath).drop
          ((mkStringSearch (cString realPath) marker).toNat + marker.length))
      else conf.carName := by
  unfold mkSuperexeStage30
  simp only
  repeat' split
  all_goals rfl

theorem stage30_queryString :
    (mkSuperexeStage30 conf realPath s len).queryString =
      s.req.queryString.data.map fun a =>
        queryCut (window (fun k => s.rd len (a + k)) (len - a)) := by
  unfold mkSuperexeStage30 queryCut bodyString
  simp only
  cases s.req.queryString.data with
  | none => rfl
  | some a =>
    simp only [Option.map_some]
    split <;> rfl

end Stage30

/-! ## The name of the CAR -/

/-- The path is a C string with the marker in it, and not at its very beginning. -/
def CarInPath (realPath : Bytes) : Prop :=
  0 ∉ realPath ∧ ∃ pos, 0 < pos ∧ strstr marker realPath = some pos

/-- The search that the code makes. -/
theorem mkStringSearch_pos {string search : Bytes} :
    mkStringSearch string search > 0 ↔ ∃ pos, 0 < pos ∧ strstr search string = some pos := by
  unfold mkStringSearch
  split
  · next pos hpos =>
    simp [hpos]
  · next hnone => simp [hnone]

theorem carName_own {realPath : Bytes} (h : CarInPath realPath) (conf : SuperexeConfig)
    (s : ParserSt) (len : Nat) :
    (mkSuperexeStage30 conf realPath s len).carName = carOf realPath := by
  rcases h with ⟨hnul, pos, hpos, hfound⟩
  rw [stage30_carName, cString_eq_self.mpr hnul, if_pos (mkStringSearch_pos.mpr ⟨pos, hpos, hfound⟩),
    mkStringSearch_found hfound, carOf, hfound]
  rfl

/-- Every other path leaves the old name, or cuts its own off at a NUL. -/
theorem carName_other {realPath : Bytes} (h : ¬ CarInPath realPath) :
    (∀ conf s len, (mkSuperexeStage30 conf realPath s len).carName = conf.carName) ∨
      ∀ conf s len, (mkSuperexeStage30 conf realPath s len).carName ≠ carOf realPath := by
  by_cases hpos : mkStringSearch (cString realPath) marker > 0
  · right
    intro conf s len hown
    rcases mkStringSearch_pos.mp hpos with ⟨pos, hpos', hfound⟩
    have hwhole := strstr_of_front (cString_front realPath) hfound
    rw [stage30_carName, if_pos hpos, mkStringSearch_found hfound, carOf, hwhole] at hown
    -- both ends have the same length, so nothing has been cut off
    have hlen := congrArg List.length (Option.some.inj hown)
    simp only [List.length_drop, Int.toNat_natCast] at hlen
    have hle := (strstr_least hfound).1.add_le
    have hsame : cString realPath = realPath :=
      (cString_front realPath).eq_of_length_le (by omega)
    exact h ⟨cString_eq_self.mp hsame, pos, hpos', hwhole⟩
  · left
    intro conf s len
    rw [stage30_carName, if_neg hpos]

/-! ## The query string -/

theorem mkStringCharSearch_append {q rest : Bytes} {c : UInt8} (hq : c ∉ q) :
    mkStringCharSearch (q ++ c :: rest) c = q.length := by
  have hidx : (q ++ c :: rest).findIdx? (· = c) = some q.length := by
    induction q with
    | nil => simp [List.findIdx?_cons]
    | cons d q ih =>
      simp only [List.mem_cons, not_or] at hq
      simp [List.findIdx?_cons, Ne.symm hq.1, ih hq.2]
  simp only [mkStringCharSearch, hidx]

theorem mkStringCharSearch_absent {q : Bytes} {c : UInt8} (hq : c ∉ q) :
    mkStringCharSearch q c = -1 := by
  have hidx : q.findIdx? (· = c) = none := by
    rw [List.findIdx?_eq_none_iff]
    intro d hd
    simp only [decide_eq_false_iff_not]
    rintro rfl
    exact hq hd
  simp only [mkStringCharSearch, hidx]

/-- The cut is right unless the slice is empty or has a NUL in it. -/
theorem queryCut_eq {q rest : Bytes} (hq : 32 ∉ q) :
    queryCut (q ++ 32 :: rest) = q ↔ q ≠ [] ∧ 0 ∉ q := by
  have hhead : cString (32 :: rest) = 32 :: cString rest := rfl
  by_cases hnul : 0 ∈ q
  · have hno : 32 ∉ cString q := fun h => hq ((cString_front q).subset h)
    rw [queryCut, cString_append_of_mem hnul, mkStringCharSearch_absent hno, if_neg (by decide), cString_eq_self]
    simp [hnul]
  · have htext : cString (q ++ 32 :: rest) = q ++ 32 :: cString rest := by
      rw [cString_append hnul, hhead]
    rw [queryCut, htext, mkStringCharSearch_append hq]
    cases q with
    | nil => simp
    | cons d q => simp [hnul]

/-- There is a query string, it is not empty and has no NUL in it. -/
def PlainQuery (v : Visit) : Prop := ∃ q, v.query = some q ∧ q ≠ [] ∧ 0 ∉ q

/-- What the parser finds does not depend on the record: it assigns a slice that
ends at a blank, or it leaves what is there. -/
theorem Visit.parse_over (v : Visit) :
    ∃ (c : ParserCore) (len : Nat), (∀ q : ParsedRequest, q.method = .unknown →
      q.protocol = .unknown → v.parse q = (c.over q, len)) ∧
      (∀ ptr, c.a.queryString = some ptr → ptr.data ≠ none ∧ UpToBlank c.buffer len ptr) := by
  rcases feed_over v.bytes v.first v.rest with ⟨r, c, len, hfeed, -⟩
  refine ⟨c, len, ?_, ?_⟩
  · intro q hm hp
    simp only [Visit.parse, hfeed q hm hp]
  · intro ptr hptr
    constructor
    · -- a record with a query string keeps one
      have hsome := feed_query_isSome
        (q := { parsedRequestZero with queryString := { data := some 0, len := 0 } })
        rfl v.bytes v.first v.rest
      rw [hfeed _ rfl rfl] at hsome
      intro hnone
      simp [ParserCore.over, Patch.over, hptr, hnone] at hsome
    · have hok := v.ok
      have hzero := hfeed parsedRequestZero rfl rfl
      rw [hzero] at hok
      simp only at hok
      subst hok
      have hslice := feed_query v.bytes hzero
      simpa [ParserCore.over, Patch.over, hptr] using hslice

/-- A slice of the request is read from the buffer of the request. -/
theorem query_found {s : ParserSt} {len a n : Nat} (hlt : a + n < len)
    (hblank : s.buffer (a + n) = 32) :
    ∃ rest, window (fun k => s.rd len (a + k)) (len - a) =
      window (fun k => s.buffer (a + k)) n ++ 32 :: rest := by
  rcases Nat.exists_eq_add_of_lt hlt with ⟨m, rfl⟩
  refine ⟨window (fun k => s.rd (a + n + m + 1) (a + (n + (1 + k)))) m, ?_⟩
  have hone : window (fun i => s.rd (a + n + m + 1) (a + (n + i))) 1 = [32] := by
    have hhere : s.rd (a + n + m + 1) (a + n) = 32 := by
      rw [ParserSt.rd, if_pos (by omega), hblank]
    exact congrArg (fun c => [c]) hhere
  have hslice : window (fun k => s.rd (a + n + m + 1) (a + k)) n =
      window (fun k => s.buffer (a + k)) n := by
    apply window_congr
    intro i hi
    rw [ParserSt.rd, if_pos (by omega)]
  rw [show a + n + m + 1 - a = n + (1 + m) by omega, window_add, window_add, hone, hslice]
  rfl

section Step

variable {v : Visit}

theorem handled_conf (s : PluginSt) (v : Visit) :
    (plugin.step s (.handled v)).conf =
      mkSuperexeStage30 s.conf v.realPath (s.parsed v).1 (s.parsed v).2 := rfl

/-- A request with a query string: the history does not matter, the slice does. -/
theorem queryString_fresh {q : Bytes} (hq : v.query = some q) (s : PluginSt) :
    (plugin.step s (.handled v)).conf.queryString = some q ↔ q ≠ [] ∧ 0 ∉ q := by
  rcases v.parse_over with ⟨c, len, hparse, hslice⟩
  cases hptr : c.a.queryString with
  | none =>
    rw [Visit.query, hparse parsedRequestZero rfl rfl] at hq
    simp [ParserCore.over, Patch.over, hptr, parsedRequestZero, MkPtr.null] at hq
  | some ptr =>
    rcases hslice ptr hptr with ⟨hdata, hup⟩
    rcases Option.ne_none_iff_exists'.mp hdata with ⟨a, ha⟩
    rcases hup a ha with ⟨n, hn, hlt, hblank, hno⟩
    have hq' : q = window (fun k => c.buffer (a + k)) n := by
      simpa [Visit.query, hparse parsedRequestZero rfl rfl, ParserCore.over, Patch.over, hptr, ha,
        hn] using hq.symm
    have h32 : 32 ∉ q := by
      rw [hq']
      simp only [window, List.mem_map, List.mem_range, not_exists, not_and]
      intro k hk
      exact hno k hk
    rw [handled_conf, stage30_queryString, PluginSt.parsed, hparse _ rfl rfl]
    rcases query_found (s := c.over (requestReset (s.records v.conn))) hlt hblank with ⟨rest, hrest⟩
    simp only [ParserCore.over, Patch.over, hptr, Option.getD_some, ha, Option.map_some,
      Option.some.injEq] at hrest ⊢
    rw [hrest, ← hq']
    exact queryCut_eq h32

/-- A request without a query string: the record decides. -/
theorem queryString_stale (hq : v.query = none) (s : PluginSt)
    (hold : (s.records v.conn).queryString.data ≠ none) :
    (plugin.step s (.handled v)).conf.queryString ≠ none := by
  rcases v.parse_over with ⟨c, len, hparse, hslice⟩
  cases hptr : c.a.queryString with
  | some ptr =>
    rcases Option.ne_none_iff_exists'.mp (hslice ptr hptr).1 with ⟨a, ha⟩
    simp [Visit.query, hparse parsedRequestZero rfl rfl, ParserCore.over, Patch.over, hptr,
      ha] at hq
  | none =>
    rw [handled_conf, stage30_queryString, PluginSt.parsed, hparse _ rfl rfl]
    simpa [ParserCore.over, Patch.over, hptr, requestReset] using hold

end Step

/-! ## Two histories -/

/-- A request for the CAR `a`, with a query string, under the document root
`/www`. -/
def visitA (conn : Nat) : Visit where
  conn := conn
  bytes := bytes "GET //superexe/a?q HTTP/1.1\r\n\r\n"
  first := 32
  rest := []
  realPath := bytes "/www//superexe/a"
  ok := by decide

/-- The same for the CAR `b`. -/
def visitB (conn : Nat) : Visit where
  conn := conn
  bytes := bytes "GET //superexe/b?q HTTP/1.1\r\n\r\n"
  first := 32
  rest := []
  realPath := bytes "/www//superexe/b"
  ok := by decide

theorem carName_visitA (s : PluginSt) (conn : Nat) :
    (plugin.step s (.handled (visitA conn))).conf.carName = some (bytes "a") := by
  have hcar : CarInPath (bytes "/www//superexe/a") := ⟨by decide, 4, by decide⟩
  have hname : carOf (bytes "/www//superexe/a") = some (bytes "a") := by decide
  rw [handled_conf]
  exact (carName_own hcar _ _ _).trans hname

theorem carName_visitB (s : PluginSt) (conn : Nat) :
    (plugin.step s (.handled (visitB conn))).conf.carName = some (bytes "b") := by
  have hcar : CarInPath (bytes "/www//superexe/b") := ⟨by decide, 4, by decide⟩
  have hname : carOf (bytes "/www//superexe/b") = some (bytes "b") := by decide
  rw [handled_conf]
  exact (carName_own hcar _ _ _).trans hname

theorem records_passed (s : PluginSt) (v : Visit) :
    (plugin.step s (.passed v)).records v.conn =
      (v.parse (requestReset (s.records v.conn))).1.req := if_pos rfl

/-- A request with a query string leaves its slice in the record. -/
theorem records_visitA (conf : SuperexeConfig) (conn : Nat) :
    ((plugin.step (start conf) (.passed (visitA conn))).records conn).queryString.data ≠ none := by
  have hslice : (feed (parserFresh (requestReset parsedRequestZero)
      (bytes "GET //superexe/a?q HTTP/1.1\r\n\r\n")) 32 []).1.2.req.queryString.data ≠ none := by
    decide
  have hstore : (plugin.step (start conf) (.passed (visitA conn))).records conn = _ :=
    records_passed (start conf) (visitA conn)
  rw [hstore, Visit.parse]
  exact hslice

section Isolated

variable {v : Visit}

theorem Isolated.car (h : Isolated v) : CarInPath v.realPath := by
  by_contra hcar
  let conf : SuperexeConfig := { carName := none, queryString := none }
  rcases carName_other hcar with hkept | hne
  · -- the old name shows through, and it can be any
    have ha := congrArg SuperexeConfig.carName (h conf [.handled (visitA v.conn)])
    have hb := congrArg SuperexeConfig.carName (h conf [.handled (visitB v.conn)])
    rw [handled_conf, hkept, Machine.run_cons, Machine.run_nil, carName_visitA] at ha
    rw [handled_conf, hkept, Machine.run_cons, Machine.run_nil, carName_visitB] at hb
    have hab : some (bytes "a") = some (bytes "b") := ha.trans hb.symm
    revert hab
    decide
  · have hown := congrArg SuperexeConfig.carName (h conf [])
    rw [handled_conf] at hown
    exact hne _ _ _ hown

theorem Isolated.query (h : Isolated v) : PlainQuery v := by
  let conf : SuperexeConfig := { carName := none, queryString := none }
  cases hq : v.query with
  | none =>
    -- the slice of an earlier request of the connection shows through
    have hnone := congrArg SuperexeConfig.queryString (h conf [.passed (visitA v.conn)])
    exact absurd (hnone.trans hq) (queryString_stale hq _ (records_visitA conf v.conn))
  | some q =>
    have hown := congrArg SuperexeConfig.queryString (h conf [])
    exact ⟨q, hq, (queryString_fresh hq _).mp (hown.trans hq)⟩

end Isolated

/-- The requests that no history can disturb. -/
theorem stage30_isolated (v : Visit) : Isolated v ↔ CarInPath v.realPath ∧ PlainQuery v := by
  constructor
  · intro h
    exact ⟨h.car, h.query⟩
  · rintro ⟨hcar, q, hq, hplain⟩ conf history
    have hname := carName_own hcar (plugin.run (start conf) history).conf
      ((plugin.run (start conf) history).parsed v).1 ((plugin.run (start conf) history).parsed v).2
    have hquery := (queryString_fresh hq (plugin.run (start conf) history)).mpr hplain
    rw [handled_conf] at hquery ⊢
    rw [hq, ← hname, ← hquery]

example : CarInPath (visitA 0).realPath ∧ (visitA 0).query = some (bytes "q") :=
  ⟨⟨by decide, 4, by decide⟩, by decide⟩

/-- A request with an empty query string and a path without the marker. -/
def visitPlain : Visit where
  conn := 0
  bytes := bytes "GET /x? HTTP/1.1\r\n\r\n"
  first := 20
  rest := []
  realPath := bytes "/www/x"
  ok := by decide

/-- After a request for the CAR `a` it runs under that name, and the query string
is the rest of its own request. -/
theorem not_isolated_visitPlain :
    ¬ Isolated visitPlain ∧
      (plugin.run (start { carName := none, queryString := none })
        [.handled (visitA 0), .handled visitPlain]).conf =
      { carName := some (bytes "a"), queryString := some (bytes " HTTP/1.1\r\n\r\n") } ∧
      carOf visitPlain.realPath = none ∧ visitPlain.query = some [] := by
  have hrun : (plugin.run (start { carName := none, queryString := none })
      [.handled (visitA 0), .handled visitPlain]).conf =
      { carName := some (bytes "a"), queryString := some (bytes " HTTP/1.1\r\n\r\n") } := by
    decide
  refine ⟨?_, hrun, by decide, by decide⟩
  intro h
  have hown := congrArg SuperexeConfig.carName
    (h { carName := none, queryString := none } [.handled (visitA 0)])
  have hcar := congrArg SuperexeConfig.carName hrun
  have hne : some (bytes "a") = carOf visitPlain.realPath := hcar.symm.trans hown
  revert hne
  decide

end SuperExe.Plugins.SuperExeEntry
