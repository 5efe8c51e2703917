import SuperExe.Lib.Segments
import SuperExe.Http.Answer
import SuperExe.Http.Isolation

/-! # The document root

`mk_http_init` appends the processed URI to the document root and refuses a URI
with `..` in it, on the same text. So the path of every request that gets past
this check and does not name a user's home directory resolves to the document
root or to something below it.

`mk_http_init_path` says which paths a request can have; the paths of index files
end in a name from the configuration.
-/

namespace SuperExe.Http

open SuperExe.Core SuperExe.Lib SuperExe.Vhost

/-- `p` is the directory `root` or lies below it, as texts of the file system. -/
def InDirectory (root p : Bytes) : Prop := Below (47 : UInt8) 46 (root ++ [47]) p

/-! ## Paths of the kernel -/

theorem infix_of_cString {a b : Bytes} (h : a <:+: cString b) : a <:+: b :=
  h.trans (List.takeWhile_prefix _).isInfix

/-- The document root and a URI without `..`. -/
theorem inDirectory_append {root uri : Bytes} (hroot : 0 ∉ root) (hslash : uri.head? = some 47)
    (hdots : ¬ bytes ".." <:+: uri) : InDirectory root (cString (root ++ uri)) := by
  obtain ⟨rest, rfl⟩ : ∃ rest, uri = 47 :: rest := by
    cases uri with
    | nil => cases hslash
    | cons c rest => exact ⟨rest, by rw [Option.some.inj hslash]⟩
  rw [cString_append hroot]
  have hcons : cString (47 :: rest) = 47 :: cString rest := rfl
  rw [hcons]
  refine below_append _ _ fun hin => hdots ?_
  exact (infix_of_cString hin).trans (List.suffix_cons _ _).isInfix

/-- A name without `..` behind a directory that ends in a slash. -/
theorem not_infix_slash_append {a b : Bytes} (ha : ¬ bytes ".." <:+: a) (hb : ¬ bytes ".." <:+: b)
    (hslash : a.getLast? = some 47) : ¬ bytes ".." <:+: a ++ b := by
  intro h
  rcases List.infix_append_iff_ne_nil.mp h with h | h | ⟨s, t, hs, ht, hst, hsa, -⟩
  · exact ha h
  · exact hb h
  · -- one dot on each side of the seam
    have hlen : s.length + t.length = 2 := by
      rw [← List.length_append, ← hst]
      rfl
    have hspos := List.length_pos_of_ne_nil hs
    have htpos := List.length_pos_of_ne_nil ht
    obtain ⟨c, rfl⟩ : ∃ c, s = [c] := List.length_eq_one_iff.mp (by omega)
    obtain ⟨a', rfl⟩ := hsa
    have hc : c = 47 := by simpa using hslash
    have hdot : c = 46 := by
      have hhead := congrArg List.head? hst
      simpa [bytes] using hhead.symm
    rw [hc] at hdot
    exact absurd hdot (by decide)

/-! ## The paths of a request -/

/-- The path of a request that is not a user's home directory: the document root
and the URI, and behind them the name of an index file. -/
def ComposedPath (k : World) (root uri p : Bytes) : Prop :=
  p = root ++ uri ∨ ∃ files entry, k.indexFiles = some files ∧ entry ∈ files ∧
    uri.getLast? = some 47 ∧ p = root ++ uri ++ entry

/-- The paths a list of acts gives to the request. -/
def realPaths (acts : List Act) : List Bytes :=
  acts.filterMap fun
    | .realPath p => some p
    | _ => none

/-- The request gets to the file system. -/
def looksUp (acts : List Act) : Bool :=
  acts.any fun
    | .fileInfo _ => true
    | _ => false

/-- The request is for a user's home directory. -/
def entersHome (acts : List Act) : Bool :=
  acts.any fun
    | .userHome b => b
    | _ => false

theorem mem_realPaths {acts : List Act} {p : Bytes} : p ∈ realPaths acts ↔ .realPath p ∈ acts := by
  simp only [realPaths, List.mem_filterMap]
  constructor
  · rintro ⟨a, ha, hp⟩
    cases a <;> simp at hp
    rwa [hp] at ha
  · intro h
    exact ⟨_, h, rfl⟩

theorem looksUp_iff {acts : List Act} : looksUp acts = true ↔ ∃ st, .fileInfo st ∈ acts := by
  simp only [looksUp, List.any_eq_true]
  constructor
  · rintro ⟨a, ha, hlook⟩
    cases a <;> simp at hlook
    exact ⟨_, ha⟩
  · rintro ⟨st, h⟩
    exact ⟨_, h, rfl⟩

theorem entersHome_iff {acts : List Act} : entersHome acts = true ↔ .userHome true ∈ acts := by
  simp only [entersHome, List.any_eq_true]
  constructor
  · rintro ⟨a, ha, hhome⟩
    cases a <;> simp at hhome
    rwa [hhome] at ha
  · intro h
    exact ⟨_, h, rfl⟩

variable {k : World} {r : Incoming} {f : Found} {p : Bytes}

theorem mem_of_mkHttpIndexLookup {path index : Bytes} (h : mkHttpIndexLookup k path = some index) :
    ∃ files entry, k.indexFiles = some files ∧ entry ∈ files ∧ index = path ++ entry := by
  unfold mkHttpIndexLookup at h
  split at h
  · cases h
  · next files hfiles =>
    obtain ⟨entry, hfind, rfl⟩ := Option.map_eq_some_iff.mp h
    exact ⟨files, entry, hfiles, List.mem_of_find?_eq_some hfind, rfl⟩

/-- The paths of `mk_http_init`, and the check in front of the file system. -/
theorem mkHttpInit_path (hhome : f.home = none) (hp : .realPath p ∈ mkHttpInit k r f)
    (hlook : ∃ st, .fileInfo st ∈ mkHttpInit k r f) :
    ¬ bytes ".." <:+: f.uri ∧ ComposedPath k f.host.documentroot f.uri p := by
  have herr := mkHttpError_answers k f.host r.req.method r.uriText
  have hnoPath := fun status => (herr status).not_mem (a := .realPath p) rfl
  have hnoLook := fun status st => (herr status).not_mem (a := .fileInfo st) rfl
  have hplugins := (stage30Acts_answers k r f f.host.handlers).not_mem (a := .realPath p) rfl
  have hserve := fun path info => (serveFileActs_answers k r f path info).not_mem
    (a := .realPath p) rfl
  have hredirect := (mkHttpDirectoryRedirect_answers k r f).not_mem (a := .realPath p) rfl
  obtain ⟨st, hlook⟩ := hlook
  unfold mkHttpInit at hp hlook
  simp only [hhome, Option.getD_none, List.mem_cons, Act.realPath.injEq] at hp hlook
  split at hlook
  · exact (hnoLook _ _ (hlook.resolve_left (by simp))).elim
  · next hdots =>
    refine ⟨hdots, ?_⟩
    rcases hp with rfl | hp
    · exact .inl rfl
    rw [if_neg hdots] at hp
    -- a second path is that of an index file
    repeat' split at hp
    all_goals simp only [List.mem_cons, List.mem_append, List.not_mem_nil, hplugins, hnoPath,
      hserve, hredirect, reduceCtorEq, or_false, false_or, Act.realPath.injEq] at hp
    all_goals
      subst hp
      obtain ⟨files, entry, hfiles, hin, rfl⟩ := mem_of_mkHttpIndexLookup ‹_›
      exact .inr ⟨files, entry, hfiles, hin, not_not.mp ‹_›, rfl⟩

/-- Without a user's home directory the request goes on to `mk_http_init`. -/
theorem prepareHost_path (hhome : f.home = none)
    (huser : .userHome true ∉ prepareHost k r f) (hp : .realPath p ∈ prepareHost k r f)
    (hlook : ∃ st, .fileInfo st ∈ prepareHost k r f) :
    ¬ bytes ".." <:+: f.uri ∧ ComposedPath k f.host.documentroot f.uri p := by
  have hnoPath := fun status =>
    (mkHttpError_answers k f.host r.req.method r.uriText status).not_mem (a := .realPath p) rfl
  have hstage20 : .realPath p ∈ (if k.stage20Close then [] else mkHttpInit k r f) →
      (∃ st, .fileInfo st ∈ if k.stage20Close then [] else mkHttpInit k r f) →
      ¬ bytes ".." <:+: f.uri ∧ ComposedPath k f.host.documentroot f.uri p := by
    split
    · intro hp
      cases hp
    · exact mkHttpInit_path hhome
  unfold prepareHost at huser hp hlook
  simp only at huser hp hlook
  split at hp
  · split at hp
    · split at hp
      · exact (hnoPath _ hp).elim
      · exact ((List.mem_append.mp hp).elim (hnoPath _) (hnoPath _)).elim
      · simp [*] at huser
    · simp only [*, if_false] at hlook
      exact hstage20 hp hlook
  · simp only [*] at hlook
    exact hstage20 hp hlook

/-- What `mk_http_request_prepare` does with a request it looks for in the file
system. -/
theorem mkHttpRequestPrepare_path
    (huser : .userHome true ∉ mkHttpRequestPrepare k r)
    (hp : .realPath p ∈ mkHttpRequestPrepare k r)
    (hlook : ∃ st, .fileInfo st ∈ mkHttpRequestPrepare k r) :
    (uriProcessed r.uriText).head? = some 47 ∧ ¬ bytes ".." <:+: uriProcessed r.uriText ∧
      ComposedPath k (requestHost k r).documentroot (uriProcessed r.uriText) p := by
  have herr := mkHttpError_answers k k.defaultHost r.req.method r.uriText clientBadRequest
  have hearly : ¬ RefusedEarly r := by
    intro h
    obtain ⟨setup, hsetup, heq⟩ := mkHttpRequestPrepare_refused k r h
    rw [heq, List.mem_append] at hp
    exact hp.elim (hsetup.not_mem rfl) (herr.not_mem rfl)
  have hmem := fun {a} => mem_mkHttpRequestPrepare (k := k) (r := r) hearly (a := a)
  rw [hmem rfl (by simp)] at huser hp
  obtain ⟨st, hlook⟩ := hlook
  rw [hmem rfl (by simp)] at hlook
  unfold answerActs at huser hp hlook
  cases hred : hostRedirect k r with
  | some target => simp [hred] at hp
  | none =>
    simp only [hred] at huser hp hlook
    exact ⟨not_not.mp (not_or.mp hearly).1, prepareHost_path rfl huser hp ⟨st, hlook⟩⟩

/-! ## The result -/

/-- The path composed of the document root and the URI stays in the document root,
whatever the index files are called. -/
theorem root_uri_contained (hroot : 0 ∉ (requestHost k r).documentroot)
    (hp : p ∈ realPaths (mkHttpRequestPrepare k r))
    (hlook : looksUp (mkHttpRequestPrepare k r) = true)
    (huser : entersHome (mkHttpRequestPrepare k r) = false) :
    InDirectory (requestHost k r).documentroot
      (cString ((requestHost k r).documentroot ++ uriProcessed r.uriText)) := by
  have huser' : .userHome true ∉ mkHttpRequestPrepare k r := by
    rw [← entersHome_iff, huser]
    simp
  obtain ⟨hslash, hdots, -⟩ :=
    mkHttpRequestPrepare_path huser' (mem_realPaths.mp hp) (looksUp_iff.mp hlook)
  exact inDirectory_append hroot hslash hdots

/-- The path of an index file in a directory of the URI stays there too, if its name
has no `..`. -/
theorem index_path_contained {root uri entry : Bytes} (hroot : 0 ∉ root)
    (hslash : uri.head? = some 47) (hdots : ¬ bytes ".." <:+: uri) (hlast : uri.getLast? = some 47)
    (hentry : ¬ bytes ".." <:+: entry) : InDirectory root (cString (root ++ uri ++ entry)) := by
  rw [List.append_assoc]
  refine inDirectory_append hroot ?_ (not_infix_slash_append hdots hentry hlast)
  rw [List.head?_append, hslash]
  rfl

/-- A request that gets to the file system and is not for a user's home
directory has a path in the document root of its virtual host, unless that path
is the one of an index file whose configured name has `..` in it. -/
theorem document_root_containment (k : World) (r : Incoming) (p : Bytes)
    (hroot : 0 ∉ (requestHost k r).documentroot)
    (hp : p ∈ realPaths (mkHttpRequestPrepare k r))
    (hlook : looksUp (mkHttpRequestPrepare k r) = true)
    (huser : entersHome (mkHttpRequestPrepare k r) = false) :
    InDirectory (requestHost k r).documentroot (cString p) ∨
      ∃ files entry base, k.indexFiles = some files ∧ entry ∈ files ∧ bytes ".." <:+: entry ∧
        p = base ++ entry ∧ InDirectory (requestHost k r).documentroot (cString base) := by
  have huser' : .userHome true ∉ mkHttpRequestPrepare k r := by
    rw [← entersHome_iff, huser]
    simp
  obtain ⟨hslash, hdots, hpath⟩ :=
    mkHttpRequestPrepare_path huser' (mem_realPaths.mp hp) (looksUp_iff.mp hlook)
  rcases hpath with rfl | ⟨files, entry, hfiles, hin, hlast, rfl⟩
  · exact .inl (inDirectory_append hroot hslash hdots)
  · by_cases hentry : bytes ".." <:+: entry
    · exact .inr ⟨files, entry, _, hfiles, hin, hentry, rfl, inDirectory_append hroot hslash hdots⟩
    · exact .inl (index_path_contained hroot hslash hdots hlast hentry)

/-- `GET /%61` is for the file `/srv/a`. -/
def getEscapedA : Arrival where
  world := worldSite
  bytes := bytes "GET /%61 HTTP/1.1\r\nHost: x\r\n\r\n"
  first := 31
  rest := []
  ok := by decide

theorem document_root_containment_escaped :
    InDirectory (bytes "/srv") (bytes "/srv/a") := by
  rcases document_root_containment worldSite (getEscapedA.incoming parsedRequestZero 0)
    (bytes "/srv/a") (by decide) (by decide) (by decide)
    (by decide) with h | ⟨files, entry, base, hfiles, -⟩
  · exact h
  · cases hfiles

end SuperExe.Http
