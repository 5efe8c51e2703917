import SuperExe.Lib.Percent
import SuperExe.Http.Answer
import SuperExe.Http.Isolation

/-! # The processed URI

`mk_utils_url_decode` copies a URI and puts a byte for every `%` with two bytes
behind it; `mk_http_request_prepare` takes the length of the copy with `strlen`.
`UriDecoded` compares the result with percent-decoding.

The two part on three kinds of URI: a `%` with fewer than two bytes behind it is
copied, `mk_utils_hex2int` stops at a NUL byte and takes what it has read so far,
and `strlen` ends the text at the first decoded NUL.
-/

namespace SuperExe.Http

open SuperExe.Core SuperExe.Lib SuperExe.Vhost

/-! ## The decoder -/

theorem hexDigit_eq (c : UInt8) : hexDigit c = hexDigitValue c := by
  unfold hexDigit hexDigitValue
  simp only [UInt8.le_iff_toNat_le, UInt8.reduceToNat]
  repeat' split
  all_goals first
    | rfl
    | omega

theorem mkUtilsHex2int_eq_some {a b : UInt8} {v : Nat} (h : escapeValue a b = some v) :
    mkUtilsHex2int a b = some v := by
  rcases escapeValue_eq_some h with ⟨x, y, hx, hy, rfl⟩
  have ha : a ≠ 0 := by
    rintro rfl
    rw [hexDigitValue_nul] at hx
    cases hx
  have hb : b ≠ 0 := by
    rintro rfl
    rw [hexDigitValue_nul] at hy
    cases hy
  rw [mkUtilsHex2int, if_neg ha, hexDigit_eq, hexDigit_eq, hx, hy, Option.bind_some, if_neg hb]
  rfl

/-- A byte that is no digit is met in front of any NUL. -/
def RefusedEscape (e : Option (UInt8 × UInt8)) : Prop :=
  ∃ a b, e = some (a, b) ∧ a ≠ 0 ∧ (hexDigitValue a = none ∨ b ≠ 0 ∧ hexDigitValue b = none)

theorem mkUtilsHex2int_eq_none {a b : UInt8} :
    mkUtilsHex2int a b = none ↔ RefusedEscape (some (a, b)) := by
  have hpair : RefusedEscape (some (a, b)) ↔
      a ≠ 0 ∧ (hexDigitValue a = none ∨ b ≠ 0 ∧ hexDigitValue b = none) := by
    constructor
    · rintro ⟨x, y, hxy, h⟩
      rcases Prod.mk.inj (Option.some.inj hxy) with ⟨rfl, rfl⟩
      exact h
    · intro h
      exact ⟨a, b, rfl, h⟩
  rw [hpair, mkUtilsHex2int, hexDigit_eq, hexDigit_eq]
  by_cases ha : a = 0
  · simp [ha]
  · cases hx : hexDigitValue a with
    | none => simp [ha]
    | some x =>
      by_cases hb : b = 0
      · simp [ha, hb]
      · simp [ha, hb]

section Uri

variable {uri d : Bytes}

/-- The decoder gives up iff it meets a refused escape. -/
theorem urlDecodeFrom_eq_none_iff :
    urlDecodeFrom uri = none ↔ ∃ e ∈ escapes uri, RefusedEscape e := by
  induction uri using escapes.induct with
  | case1 a b rest ih =>
    rw [urlDecodeFrom, if_pos rfl, escapes, if_pos rfl, List.exists_mem_cons_iff, ← ih,
      ← mkUtilsHex2int_eq_none]
    cases mkUtilsHex2int a b <;> simp
  | case2 c a b rest hc ih =>
    rw [urlDecodeFrom, if_neg hc, escapes, if_neg hc, Option.map_eq_none_iff, ih]
  | case3 cs hshort hin =>
    rw [urlDecodeFrom.eq_2 cs hshort, escapes.eq_2 cs hshort, if_pos hin]
    refine iff_of_false (by simp) ?_
    rintro ⟨e, he, a, b, hab, -⟩
    rw [List.mem_singleton.mp he] at hab
    cases hab
  | case4 cs hshort hin =>
    rw [urlDecodeFrom.eq_2 cs hshort, escapes.eq_2 cs hshort, if_neg hin]
    exact iff_of_false (by simp) (by simp)

/-- A text that can be decoded is decoded. -/
theorem urlDecodeFrom_eq_some (h : percentDecode uri = some d) : urlDecodeFrom uri = some d := by
  induction uri using percentDecode.induct generalizing d with
  | case1 a b rest ih =>
    rw [percentDecode, if_pos rfl] at h
    rcases Option.bind_eq_some_iff.mp h with ⟨v, hv, hrest⟩
    rcases Option.map_eq_some_iff.mp hrest with ⟨d', hd', rfl⟩
    rw [urlDecodeFrom, if_pos rfl, mkUtilsHex2int_eq_some hv, ih hd']
    rfl
  | case2 c a b rest hc ih =>
    rw [percentDecode, if_neg hc] at h
    rcases Option.map_eq_some_iff.mp h with ⟨d', hd', rfl⟩
    rw [urlDecodeFrom, if_neg hc, ih hd']
    rfl
  | case3 cs hshort hin =>
    rw [percentDecode.eq_2 cs hshort, if_pos hin] at h
    cases h
  | case4 cs hshort hin =>
    rw [percentDecode.eq_2 cs hshort, if_neg hin] at h
    rw [urlDecodeFrom.eq_2 cs hshort, h]

end Uri

/-! ## The record -/

section Record

variable (k : World) (r : Incoming) (f : Found) (uri : Bytes)

theorem mkHttpInit_uriProcessed : .uriProcessed uri ∉ mkHttpInit k r f := by
  have herr := fun status =>
    (mkHttpError_answers k f.host r.req.method r.uriText status).not_mem
      (show (Act.uriProcessed uri).answers = false from rfl)
  have hplugins := (stage30Acts_answers k r f f.host.handlers).not_mem
    (show (Act.uriProcessed uri).answers = false from rfl)
  have hredirect := (mkHttpDirectoryRedirect_answers k r f).not_mem
    (show (Act.uriProcessed uri).answers = false from rfl)
  have hserve := fun path info => (serveFileActs_answers k r f path info).not_mem
    (show (Act.uriProcessed uri).answers = false from rfl)
  unfold mkHttpInit
  simp only
  repeat' split
  all_goals simp [herr, hplugins, hredirect, hserve]

theorem prepareHost_uriProcessed : .uriProcessed uri ∉ prepareHost k r f := by
  have herr := fun status =>
    (mkHttpError_answers k f.host r.req.method r.uriText status).not_mem
      (show (Act.uriProcessed uri).answers = false from rfl)
  have hinit := fun f => mkHttpInit_uriProcessed k r f uri
  unfold prepareHost
  simp only
  repeat' split
  all_goals simp [herr, hinit]

/-- `uri_processed` is assigned once. -/
theorem mkHttpRequestPrepare_uriProcessed :
    .uriProcessed uri ∈ mkHttpRequestPrepare k r ↔ uri = uriProcessed r.uriText := by
  have herr := fun status =>
    (mkHttpError_answers k k.defaultHost r.req.method r.uriText status).not_mem
      (show (Act.uriProcessed uri).answers = false from rfl)
  have hprepare := fun f => prepareHost_uriProcessed k r f uri
  have hcheck : .uriProcessed uri ∉
      mkHttpKeepaliveCheck k r (mkHttpPointHeader r.p .connection) := by
    intro hin
    rcases mem_mkHttpKeepaliveCheck k r hin with ⟨b, hb⟩
    cases hb
  unfold mkHttpRequestPrepare
  simp only
  repeat' split
  all_goals simp [herr, hprepare, hcheck]

end Record

theorem runActs_uriProcessed {k : World} {s : Serving} {acts : List Act} {uri : Bytes}
    (hall : ∀ u, .uriProcessed u ∈ acts → u = uri)
    (hset : .uriProcessed uri ∈ acts ∨ s.sr.uriProcessed = some uri) :
    (runActs k s acts).sr.uriProcessed = some uri := by
  induction acts generalizing s with
  | nil => exact hset.resolve_left List.not_mem_nil
  | cons a acts ih =>
    refine ih (fun u hu => hall u (List.mem_cons_of_mem a hu)) ?_
    cases a with
    | uriProcessed u =>
      right
      rw [← hall u List.mem_cons_self]
      rfl
    | _ =>
      rcases hset with hset | hset
      · rcases List.mem_cons.mp hset with heq | hset
        · cases heq
        · exact .inl hset
      · exact .inr hset

/-- What `mk_http_request_prepare` leaves in `uri_processed`. -/
theorem prepared_uriProcessed (k : World) (r : Incoming) (s : Serving) :
    (runActs k s (mkHttpRequestPrepare k r)).sr.uriProcessed = some (uriProcessed r.uriText) := by
  refine runActs_uriProcessed ?_ (.inl ?_)
  · intro u hu
    exact (mkHttpRequestPrepare_uriProcessed k r u).mp hu
  · exact (mkHttpRequestPrepare_uriProcessed k r _).mpr rfl

/-! ## The result -/

/-- The URI of a request is percent-decoded: `uri_processed` is the decoded slice,
and the decoder gives up on exactly the slices that cannot be decoded, which are
taken as they are. -/
structure UriDecoded (k : World) (r : Incoming) (s : Serving) : Prop where
  decoded : ∀ d, percentDecode r.uriText = some d →
    (runActs k s (mkHttpRequestPrepare k r)).sr.uriProcessed = some d
  refused : percentDecode r.uriText = none ↔ 37 ∈ r.uriText ∧ mkUtilsUrlDecode r.uriText = none
  kept : percentDecode r.uriText = none →
    (runActs k s (mkHttpRequestPrepare k r)).sr.uriProcessed = some r.uriText

/-- One escape has a byte that is no digit, in front of any NUL; or all escapes are
well formed and, if there are any, neither a byte nor an escape is a NUL. -/
def DecodesExactly (uri : Bytes) : Prop :=
  (∃ e ∈ escapes uri, RefusedEscape e) ∨
    (∀ e ∈ escapes uri, WellFormedEscape e) ∧
      (37 ∈ uri → 0 ∉ uri ∧ some (48, 48) ∉ escapes uri)

/-- A refused escape is not well formed. -/
theorem RefusedEscape.not_wellFormed {e : Option (UInt8 × UInt8)} (h : RefusedEscape e) :
    ¬ WellFormedEscape e := by
  rcases h with ⟨a, b, rfl, -, hdigit⟩
  rintro ⟨x, y, hxy, hsome⟩
  rcases Prod.mk.inj (Option.some.inj hxy) with ⟨rfl, rfl⟩
  rcases Option.isSome_iff_exists.mp hsome with ⟨v, hv⟩
  rcases escapeValue_eq_some hv with ⟨x, y, hx, hy, -⟩
  rcases hdigit with ha | ⟨-, hb⟩
  · rw [ha] at hx
    cases hx
  · rw [hb] at hy
    cases hy

theorem uriProcessed_decoded {uri d : Bytes} (hin : 37 ∈ uri) (hd : percentDecode uri = some d) :
    uriProcessed uri = cString d := by
  rw [uriProcessed, mkUtilsUrlDecode, if_pos hin, urlDecodeFrom_eq_some hd]

/-- For every request: its URI is percent-decoded iff it decodes exactly. -/
theorem uri_decoding_iff (k : World) (r : Incoming) (s : Serving) :
    UriDecoded k r s ↔ DecodesExactly r.uriText := by
  have hrecord := prepared_uriProcessed k r s
  constructor
  · rintro ⟨hdecoded, hrefused, -⟩
    -- a text that cannot be decoded, and one that can
    cases hd : percentDecode r.uriText with
    | none =>
      left
      rcases hrefused.mp hd with ⟨hin, hnull⟩
      rw [mkUtilsUrlDecode, if_pos hin] at hnull
      exact urlDecodeFrom_eq_none_iff.mp hnull
    | some d =>
      right
      have hsome : (percentDecode r.uriText).isSome := by
        rw [hd]
        rfl
      refine ⟨percentDecode_isSome_iff.mp hsome, ?_⟩
      intro hin
      have heq := hdecoded d hd
      rw [hrecord, Option.some.injEq, uriProcessed_decoded hin hd] at heq
      exact not_or.mp ((zero_mem_percentDecode_iff hd).not.mp (cString_eq_self.mp heq))
  · rintro (⟨e, he, hbad⟩ | ⟨hall, hnul⟩)
    · have hnone : percentDecode r.uriText = none := by
        rw [← Option.not_isSome_iff_eq_none, percentDecode_isSome_iff]
        intro hall
        exact hbad.not_wellFormed (hall e he)
      have hin : 37 ∈ r.uriText := by
        by_contra hplain
        rw [percentDecode_plain hplain] at hnone
        cases hnone
      have hnull : mkUtilsUrlDecode r.uriText = none := by
        rw [mkUtilsUrlDecode, if_pos hin]
        exact urlDecodeFrom_eq_none_iff.mpr ⟨e, he, hbad⟩
      constructor
      · intro d hd
        rw [hnone] at hd
        cases hd
      · exact iff_of_true hnone ⟨hin, hnull⟩
      · intro _
        rw [hrecord, uriProcessed, hnull]
    · rcases Option.isSome_iff_exists.mp (percentDecode_isSome_iff.mpr hall) with ⟨d, hd⟩
      constructor
      · intro d' hd'
        obtain rfl : d = d' := Option.some.inj (hd.symm.trans hd')
        rw [hrecord]
        by_cases hin : 37 ∈ r.uriText
        · have hfree : 0 ∉ d :=
            (zero_mem_percentDecode_iff hd).not.mpr (not_or.mpr (hnul hin))
          rw [uriProcessed_decoded hin hd, cString_eq_self.mpr hfree]
        · rw [percentDecode_plain hin] at hd
          rw [uriProcessed, mkUtilsUrlDecode, if_neg hin, hd]
      · refine iff_of_false (by simp [hd]) ?_
        rintro ⟨hin, hnull⟩
        rw [mkUtilsUrlDecode, if_pos hin, urlDecodeFrom_eq_some hd] at hnull
        cases hnull
      · intro hnone
        rw [hd] at hnone
        cases hnone

/-- `GET /a%00b` -/
def getNul : Arrival where
  world := worldSite
  bytes := bytes "GET /a%00b HTTP/1.1\r\nHost: x\r\n\r\n"
  first := 33
  rest := []
  ok := by decide

/-- The text behind an escaped NUL is lost. -/
theorem uri_decoding_nul : ¬ ∀ (k : World) (r : Incoming) (s : Serving), UriDecoded k r s := by
  intro h
  have hdecoded := (h worldSite (getNul.incoming parsedRequestZero 0)
    ⟨received connStart getNul, false, []⟩).decoded (bytes "/a\x00b") (by decide)
  revert hdecoded
  decide

end SuperExe.Http
