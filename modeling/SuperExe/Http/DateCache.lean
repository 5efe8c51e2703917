import SuperExe.Core.CString
import SuperExe.Lib.Memo

/-! # The cache of dates

`mk_utils_utime2gmt` of `mk_server/mk_utils.c` keeps the texts of ten time values
for each worker and lets the one that was asked for least go. A slot that was
never used has the time `0`, and `0` is never looked up: it asks for the current
time.
-/

namespace SuperExe.Http

open SuperExe.Core SuperExe.Lib.Memo

/-! ## The code -/

/-- What `gmtime_r` sets of `struct tm`. -/
structure Tm where
  tmSec : Fin 61
  tmMin : Fin 60
  tmHour : Fin 24
  tmMday : Fin 32
  tmMon : Fin 12
  tmYear : Int
  tmWday : Fin 7
deriving DecidableEq, Repr

/-- `mk_date_wd` -/
def mkDateWd (wday : Fin 7) : Bytes :=
  match wday with
  | 0 => bytes "Sun, "
  | 1 => bytes "Mon, "
  | 2 => bytes "Tue, "
  | 3 => bytes "Wed, "
  | 4 => bytes "Thu, "
  | 5 => bytes "Fri, "
  | 6 => bytes "Sat, "

/-- `mk_date_ym` -/
def mkDateYm (mon : Fin 12) : Bytes :=
  match mon with
  | 0 => bytes "Jan "
  | 1 => bytes "Feb "
  | 2 => bytes "Mar "
  | 3 => bytes "Apr "
  | 4 => bytes "May "
  | 5 => bytes "Jun "
  | 6 => bytes "Jul "
  | 7 => bytes "Aug "
  | 8 => bytes "Sep "
  | 9 => bytes "Oct "
  | 10 => bytes "Nov "
  | 11 => bytes "Dec "

/-- `'0' + n` -/
def digitChar (n : Nat) : UInt8 := UInt8.ofNat (48 + n)

/-- `MK_GMT_CACHES` -/
def mkGmtCaches : Nat := 10

/-- `struct mk_gmt_cache`: the time, the 32 bytes of the text and the hits. -/
abbrev GmtCache := List (Lib.Memo.Slot Int Bytes UInt64)

/-- The cache of a worker after `mk_cache_worker_init`. -/
def gmtCacheInit : GmtCache :=
  List.replicate mkGmtCaches { key := 0, value := List.replicate 32 0, info := 0 }

/-- `mk_utils_gmt_cache_get`: the text and the cache with one hit more. -/
def mkUtilsGmtCacheGet (gcache : GmtCache) (date : Int) : Option (Bytes × GmtCache) :=
  match gcache.findIdx? fun slot => date = slot.key with
  | some i =>
    match gcache[i]? with
    | some slot => some (slot.value, gcache.set i { slot with info := slot.info + 1 })
    | none => none
  | none => none

/-- The hits of a slot. -/
def hitsAt (gcache : GmtCache) (i : Nat) : UInt64 :=
  match gcache[i]? with
  | some slot => slot.info
  | none => 0

/-- The loop of `mk_utils_gmt_cache_add`, from `i` on with `n` turns left. -/
def leastHits (gcache : GmtCache) : Nat → Nat → Nat → Nat
  | 0, _, min => min
  | n + 1, i, min =>
    leastHits gcache n (i + 1) (if hitsAt gcache i < hitsAt gcache min then i else min)

/-- `mk_utils_gmt_cache_add` -/
def mkUtilsGmtCacheAdd (gcache : GmtCache) (data : Bytes) (time : Int) : GmtCache :=
  gcache.set (leastHits gcache (mkGmtCaches - 1) 1 0) { key := time, value := data, info := 1 }

/-- The template that is put into `*data`: 32 bytes. -/
def gmtTemplate (gtm : Tm) : Bytes :=
  let year := ((gtm.tmYear + 1900) % 65536).toNat
  let mday := gtm.tmMday.val
  let hour := gtm.tmHour.val
  let min := gtm.tmMin.val
  let sec := gtm.tmSec.val
  mkDateWd gtm.tmWday ++
    [digitChar (mday / 10), digitChar (mday % 10), 32] ++
    mkDateYm gtm.tmMon ++
    [digitChar (year / 1000 % 10), digitChar (year / 100 % 10), digitChar (year / 10 % 10),
      digitChar (year % 10), 32] ++
    [digitChar (hour / 10), digitChar (hour % 10), 58] ++
    [digitChar (min / 10), digitChar (min % 10), 58] ++
    [digitChar (sec / 10), digitChar (sec % 10)] ++
    (bytes " GMT\r\n" ++ [0])

/-- A call: the time value, what `time(NULL)` answers then, and the buffer. -/
structure GmtCall where
  date : Int
  now : Int
  data : Bytes
deriving DecidableEq, Repr

/-- `memcpy` to the start of a buffer. -/
def fill (data text : Bytes) : Bytes := text ++ data.drop text.length

/-- The part of `mk_utils_utime2gmt` that converts a time value. -/
def convertTime (gmtimeR : Int → Option Tm) (gcache : GmtCache) (data : Bytes) (date : Int) :
    (Int × Bytes) × GmtCache :=
  match gmtimeR date with
  | none => ((-1, data), gcache)
  | some gtm =>
    ((31, fill data (gmtTemplate gtm)), mkUtilsGmtCacheAdd gcache (gmtTemplate gtm) date)

/-- `mk_utils_utime2gmt`: the result, `*data` and the cache afterwards. -/
def mkUtilsUtime2gmt (gmtimeR : Int → Option Tm) (gcache : GmtCache) (call : GmtCall) :
    (Int × Bytes) × GmtCache :=
  if call.date = 0 then
    if call.now = -1 then ((-1, call.data), gcache)
    else convertTime gmtimeR gcache call.data call.now
  else
    match mkUtilsGmtCacheGet gcache call.date with
    | some (text, gcache') => ((31, fill call.data text), gcache')
    | none => convertTime gmtimeR gcache call.data call.date

/-- The results of some calls, one after the other. -/
def gmtRun (gmtimeR : Int → Option Tm) : GmtCache → List GmtCall → List (Int × Bytes)
  | _, [] => []
  | gcache, call :: calls =>
    let r := mkUtilsUtime2gmt gmtimeR gcache call
    r.1 :: gmtRun gmtimeR r.2 calls

/-! ## What it should do -/

/-- `n` decimal digits. -/
def padded : Nat → Nat → Bytes
  | 0, _ => []
  | n + 1, value => padded n (value / 10) ++ [digitChar (value % 10)]

/-- `%a, %d %b %Y %H:%M:%S GMT` and a line break. -/
def rfc1123 (tm : Tm) : Bytes :=
  mkDateWd tm.tmWday ++ padded 2 tm.tmMday ++ bytes " " ++ mkDateYm tm.tmMon ++
    padded 4 (tm.tmYear + 1900).toNat ++ bytes " " ++ padded 2 tm.tmHour ++ bytes ":" ++
    padded 2 tm.tmMin ++ bytes ":" ++ padded 2 tm.tmSec ++ bytes " GMT\r\n"

/-- The time value that is converted. -/
def GmtCall.time (call : GmtCall) : Int := if call.date = 0 then call.now else call.date

/-! ## The template -/

section Template

theorem padded_two {n : Nat} (h : n < 100) : padded 2 n = [digitChar (n / 10), digitChar (n % 10)] := by
  have hsmall : n / 10 % 10 = n / 10 := Nat.mod_eq_of_lt (by omega)
  simp [padded, hsmall]

theorem padded_four (n : Nat) : padded 4 n = [digitChar (n / 1000 % 10), digitChar (n / 100 % 10),
    digitChar (n / 10 % 10), digitChar (n % 10)] := by
  simp [padded, Nat.div_div_eq_div_mul]

/-- The template is the text and a NUL. -/
theorem gmtTemplate_eq (tm : Tm) (hlow : 0 ≤ tm.tmYear + 1900) (hhigh : tm.tmYear + 1900 ≤ 9999) :
    gmtTemplate tm = rfc1123 tm ++ [0] := by
  have hyear : (tm.tmYear + 1900) % 65536 = tm.tmYear + 1900 := Int.emod_eq_of_lt hlow (by omega)
  have hspace : bytes " " = [32] := by decide
  have hcolon : bytes ":" = [58] := by decide
  rw [gmtTemplate, rfc1123, hyear, padded_two (show tm.tmMday.val < 100 by omega),
    padded_two (show tm.tmHour.val < 100 by omega), padded_two (show tm.tmMin.val < 100 by omega),
    padded_two (show tm.tmSec.val < 100 by omega), padded_four, hspace, hcolon]
  simp only [List.append_assoc, List.cons_append, List.nil_append]

theorem length_rfc1123 (tm : Tm) : (rfc1123 tm).length = 31 := by
  have hwd : ∀ d : Fin 7, (mkDateWd d).length = 5 := by decide
  have hym : ∀ m : Fin 12, (mkDateYm m).length = 4 := by decide
  have hpad (n v : Nat) : (padded n v).length = n := by
    induction n generalizing v with
    | zero => rfl
    | succ n ih => rw [padded, List.length_append, ih]; rfl
  have hgmt : (bytes " GMT\r\n").length = 6 := by decide
  have hspace : (bytes " ").length = 1 := by decide
  have hcolon : (bytes ":").length = 1 := by decide
  simp only [rfc1123, List.length_append, hwd, hym, hpad, hgmt, hspace, hcolon]

end Template

/-! ## Runs -/

section Runs

variable {gmtimeR : Int → Option Tm} {gcache : GmtCache}

/-- Every used slot has the text of its time. -/
def CacheOk (gmtimeR : Int → Option Tm) (gcache : GmtCache) : Prop :=
  Sound (fun date => (gmtimeR date).map gmtTemplate) 0 gcache

theorem cacheOk_init (gmtimeR : Int → Option Tm) : CacheOk gmtimeR gmtCacheInit :=
  @sound_unused Int Bytes UInt64 _ 0 _ rfl mkGmtCaches

/-- What is found is what would be computed. -/
theorem cacheGet_some {date : Int} (h : CacheOk gmtimeR gcache) (hdate : date ≠ 0) {text : Bytes}
    {gcache' : GmtCache} (hget : mkUtilsGmtCacheGet gcache date = some (text, gcache')) :
    (gmtimeR date).map gmtTemplate = some text ∧ CacheOk gmtimeR gcache' := by
  rw [mkUtilsGmtCacheGet] at hget
  cases hfind : gcache.findIdx? fun slot => date = slot.key with
  | none =>
    simp only [hfind] at hget
    cases hget
  | some i =>
    rcases List.findIdx?_eq_some_iff_getElem.mp hfind with ⟨hi, hkey, -⟩
    have hslot : gcache[i]? = some gcache[i] := List.getElem?_eq_getElem hi
    have heq : date = gcache[i].key := of_decide_eq_true hkey
    simp only [hfind, hslot, Option.some_inj, Prod.mk.injEq] at hget
    rcases hget with ⟨rfl, rfl⟩
    refine ⟨?_, h.touch hslot _⟩
    have hfound := h.found hslot (heq ▸ hdate)
    rwa [← heq] at hfound

theorem cacheGet_init {date : Int} (hdate : date ≠ 0) : mkUtilsGmtCacheGet gmtCacheInit date = none := by
  have hfind : gmtCacheInit.findIdx? (fun slot => date = slot.key) = none := by
    refine List.findIdx?_eq_none_iff.mpr fun slot hslot => ?_
    rw [List.eq_of_mem_replicate hslot]
    exact decide_eq_false hdate
  rw [mkUtilsGmtCacheGet, hfind]

theorem cacheAdd_ok (h : CacheOk gmtimeR gcache) {date : Int} {gtm : Tm}
    (hgtm : gmtimeR date = some gtm) :
    CacheOk gmtimeR (mkUtilsGmtCacheAdd gcache (gmtTemplate gtm) date) := by
  refine h.set _ fun _ => ?_
  show (gmtimeR date).map gmtTemplate = some (gmtTemplate gtm)
  rw [hgtm]
  rfl

/-- The conversion does not look at the cache. -/
theorem convertTime_spec (h : CacheOk gmtimeR gcache) (data : Bytes) (date : Int) :
    (convertTime gmtimeR gcache data date).1 = (convertTime gmtimeR gmtCacheInit data date).1 ∧
      CacheOk gmtimeR (convertTime gmtimeR gcache data date).2 := by
  unfold convertTime
  cases hgtm : gmtimeR date with
  | none => exact ⟨rfl, h⟩
  | some gtm => exact ⟨rfl, cacheAdd_ok h hgtm⟩

/-- A call does what it would do with an empty cache. -/
theorem utime2gmt_step (h : CacheOk gmtimeR gcache) (call : GmtCall) :
    (mkUtilsUtime2gmt gmtimeR gcache call).1 =
      (mkUtilsUtime2gmt gmtimeR gmtCacheInit call).1 ∧
    CacheOk gmtimeR (mkUtilsUtime2gmt gmtimeR gcache call).2 := by
  unfold mkUtilsUtime2gmt
  by_cases hzero : call.date = 0
  · rw [if_pos hzero, if_pos hzero]
    by_cases hfail : call.now = -1
    · rw [if_pos hfail, if_pos hfail]
      exact ⟨rfl, h⟩
    · rw [if_neg hfail, if_neg hfail]
      exact convertTime_spec h _ _
  · rw [if_neg hzero, if_neg hzero, cacheGet_init hzero]
    cases hget : mkUtilsGmtCacheGet gcache call.date with
    | none => exact convertTime_spec h _ _
    | some found =>
      rcases found with ⟨text, gcache'⟩
      rcases cacheGet_some h hzero hget with ⟨htext, hok⟩
      rw [Option.map_eq_some_iff] at htext
      rcases htext with ⟨gtm, hgtm, rfl⟩
      have hfresh : (convertTime gmtimeR gmtCacheInit call.data call.date).1 =
          (31, fill call.data (gmtTemplate gtm)) := by
        rw [convertTime, hgtm]
      exact ⟨hfresh.symm, hok⟩

theorem convertTime_some {data data' : Bytes} {date size : Int} (hsize : size ≠ -1)
    (h : (convertTime gmtimeR gcache data date).1 = (size, data')) :
    size = 31 ∧ ∃ gtm, gmtimeR date = some gtm ∧ data' = fill data (gmtTemplate gtm) := by
  rw [convertTime] at h
  cases hgtm : gmtimeR date with
  | none =>
    rw [hgtm] at h
    cases h
    exact (hsize rfl).elim
  | some gtm =>
    rw [hgtm] at h
    cases h
    exact ⟨rfl, gtm, rfl, rfl⟩

/-- What a call gives with an empty cache. -/
theorem utime2gmt_fresh {call : GmtCall} {size : Int} {data : Bytes} (hsize : size ≠ -1)
    (h : (mkUtilsUtime2gmt gmtimeR gmtCacheInit call).1 = (size, data)) :
    size = 31 ∧ ∃ gtm, gmtimeR call.time = some gtm ∧ data = fill call.data (gmtTemplate gtm) := by
  unfold mkUtilsUtime2gmt at h
  unfold GmtCall.time
  by_cases hzero : call.date = 0
  · rw [if_pos hzero] at h ⊢
    by_cases hfail : call.now = -1
    · rw [if_pos hfail] at h
      cases h
      exact (hsize rfl).elim
    · rw [if_neg hfail] at h
      exact convertTime_some hsize h
  · rw [if_neg hzero, cacheGet_init hzero] at h
    rw [if_neg hzero]
    exact convertTime_some hsize h

/-- For every sequence of calls on a worker: each gives what it would give with
an empty cache, and where it succeeds, the 31 bytes of the text of its time and
a NUL. -/
theorem date_cache_transparent (gmtimeR : Int → Option Tm) (calls : List GmtCall) :
    gmtRun gmtimeR gmtCacheInit calls =
      calls.map (fun call => (mkUtilsUtime2gmt gmtimeR gmtCacheInit call).1) ∧
    ∀ call ∈ calls, ∀ size data,
      (mkUtilsUtime2gmt gmtimeR gmtCacheInit call).1 = (size, data) → size ≠ -1 →
      size = 31 ∧ ∃ gtm, gmtimeR call.time = some gtm ∧
        (0 ≤ gtm.tmYear + 1900 → gtm.tmYear + 1900 ≤ 9999 →
          data = fill call.data (rfc1123 gtm ++ [0]) ∧ data.take 31 = rfc1123 gtm) := by
  constructor
  · have hrun : ∀ gcache, CacheOk gmtimeR gcache → gmtRun gmtimeR gcache calls =
        calls.map (fun call => (mkUtilsUtime2gmt gmtimeR gmtCacheInit call).1) := by
      induction calls with
      | nil => exact fun _ _ => rfl
      | cons call calls ih =>
        intro gcache h
        rcases utime2gmt_step h call with ⟨hsame, hok⟩
        rw [gmtRun, List.map_cons, hsame, ih _ hok]
    exact hrun gmtCacheInit (cacheOk_init gmtimeR)
  · intro call _ size data hfresh hsize
    rcases utime2gmt_fresh hsize hfresh with ⟨h31, gtm, hgtm, rfl⟩
    refine ⟨h31, gtm, hgtm, fun hlow hhigh => ?_⟩
    rw [gmtTemplate_eq gtm hlow hhigh]
    refine ⟨rfl, ?_⟩
    rw [fill, List.append_assoc, ← length_rfc1123 gtm, List.take_left]

end Runs

end SuperExe.Http
