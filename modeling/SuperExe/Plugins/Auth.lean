import Mathlib.Data.List.TakeWhile
import SuperExe.Lib.Segments
import SuperExe.Http.Prepare

/-! # Basic authentication

Model of `plugins/auth/auth.c` and `plugins/auth/base64.c`. The stage 30 handler
looks for the first location of the virtual host whose path the URI starts with,
byte for byte, and asks for the credentials of a user of that location. The file
is then found by a path in which `.` and repeated slashes mean nothing, so a URI
that spells a location differently is not restricted at all.

`sha1` stands for `SHA1_Init`, `SHA1_Update` and `SHA1_Final`: nothing here
depends on which digest it is.
-/

namespace SuperExe.Plugins.Auth

open SuperExe.Core SuperExe.Http SuperExe.Lib

/-! ## Configuration -/

/-- `struct user`. `passwdDecoded` are the `SHA1_DIGEST_LEN` bytes at
`passwd_decoded`. -/
structure User where
  user : Bytes
  passwdDecoded : Bytes
deriving DecidableEq, Repr

/-- `struct location` -/
structure Location where
  path : Bytes
  authHttpHeader : Bytes
  users : List User
deriving DecidableEq, Repr

/-- `struct vhost`; `host` is the address of the `struct host`. -/
structure AuthVhost where
  host : Nat
  locations : List Location
deriving DecidableEq, Repr

/-! ## base64_decode -/

/-- `base64_table` -/
def base64Table : Bytes := bytes "ABCDEFGHIJKLMNOPQRSTUVWXYZabcdefghijklmnopqrstuvwxyz0123456789+/"

/-- `dtable`, and whether the byte is padding; every other byte is skipped. -/
def base64Symbol (c : UInt8) : Option (UInt8 × Bool) :=
  if c = 61 then some (0, true)
  else (base64Table.idxOf? c).map fun i => (UInt8.ofNat i, false)

/-- The blocks of four; the first one with padding is the last. -/
def base64Blocks : List (UInt8 × Bool) → Option Bytes
  | a :: b :: c :: d :: rest =>
    let out := [(a.1 <<< 2) ||| (b.1 >>> 4), (b.1 <<< 4) ||| (c.1 >>> 2), (c.1 <<< 6) ||| d.1]
    match [a, b, c, d].countP Prod.snd with
    | 0 => (base64Blocks rest).map (out ++ ·)
    | 1 => some (out.take 2)
    | 2 => some (out.take 1)
    | _ => none
  | _ => some []

/-- `base64_decode` -/
def base64Decode (src : Bytes) : Option Bytes :=
  let symbols := src.filterMap base64Symbol
  if symbols.length = 0 ∨ symbols.length % 4 ≠ 0 then none else base64Blocks symbols

example : base64Decode (bytes "am9lOnNlY3JldA==") = some (bytes "joe:secret") := by decide

/-! ## mk_auth_validate_user -/

/-- `MK_AUTH_HEADER_BASIC` -/
def authHeaderBasic : Bytes := bytes "Basic "

/-- `mk_string_search_n(decoded, ":", MK_STR_INSENSITIVE, auth_len)`; the search
ends at a NUL. -/
def colonPos (decoded : Bytes) : Option Nat := (Vhost.cString decoded).idxOf? 58

/-- The first user of this name. -/
def matchUser (users : List User) (decoded : Bytes) (sep : Nat) : Option User :=
  users.find? fun entry => (Vhost.cString entry.user).length = sep ∧
    strncmpEq (cstr entry.user) (cstr decoded) sep

/-- `mk_auth_validate_user` returns `0`. -/
def mkAuthValidateUser (sha1 : Bytes → Bytes) (users : List User) (credentials : Bytes) : Bool :=
  if credentials.length ≤ authHeaderBasic.length + 1 then false
  else if strncmpEq (cstr credentials) (cstr authHeaderBasic) authHeaderBasic.length = false then
    false
  else
    match base64Decode (credentials.drop authHeaderBasic.length) with
    | none => false
    | some decoded =>
      if decoded.length ≤ 3 then false
      else
        match colonPos decoded with
        | none => false
        | some sep =>
          if sep = 0 ∨ sep = decoded.length - 1 then false
          else
            match matchUser users decoded sep with
            | none => false
            | some entry => entry.passwdDecoded = sha1 (decoded.drop (sep + 1))

/-! ## mk_auth_stage30 -/

/-- The loop over `vhosts_list`: without a match `vh_entry` is the last one. -/
def authVhost (vhosts : List AuthVhost) (host : Nat) : Option AuthVhost :=
  match vhosts.find? fun v => v.host = host with
  | some v => some v
  | none => vhosts.getLast?

/-- The loop over the locations: the first whose path the URI starts with. -/
def matchLocation (v : AuthVhost) (uri : Bytes) : Option Location :=
  v.locations.find? fun loc => loc.path.length ≤ uri.length ∧
    strncmpEq (cstr uri) (cstr loc.path) loc.path.length

/-- `mk_auth_stage30`. `authorization` is the value of the `Authorization` row of
the parser, empty without such a header. -/
def mkAuthStage30 (sha1 : Bytes → Bytes) (vhosts : List AuthVhost) (host : Nat)
    (uri authorization : Bytes) : PluginAnswer :=
  match authVhost vhosts host with
  | none => .notMe
  | some v =>
    match matchLocation v uri with
    | none => .notMe
    | some loc =>
      if mkAuthValidateUser sha1 loc.users authorization then .notMe
      else .auth loc.authHttpHeader

/-! ## What it should do -/

/-- The URI names the location or something below it: `.` and repeated slashes
mean nothing in a path. -/
def Under (loc uri : Bytes) : Prop :=
  segments (47 : UInt8) 46 loc <+: segments (47 : UInt8) 46 (Vhost.cString uri)

instance (loc uri : Bytes) : Decidable (Under loc uri) := inferInstanceAs (Decidable (_ <+: _))

/-- The header carries the name of a user and a password with the user's digest. -/
def Authorised (sha1 : Bytes → Bytes) (users : List User) (authorization : Bytes) : Prop :=
  ∃ user password, authHeaderBasic <+: authorization ∧
    base64Decode (authorization.drop authHeaderBasic.length) = some (user ++ 58 :: password) ∧
    ∃ entry ∈ users, Vhost.cString entry.user = user ∧ entry.passwdDecoded = sha1 password

theorem take_eq_of_cstr {a b : Bytes} {n : Nat} (ha : n ≤ a.length) (hb : n ≤ b.length)
    (h : ∀ i < n, cstr a i = cstr b i) : a.take n = b.take n := by
  refine List.ext_getElem (by simp; omega) fun i hi hi' => ?_
  have hlt : i < n := by
    rw [List.length_take] at hi
    omega
  have hi := h i hlt
  simpa [cstr, List.getD_eq_getElem?_getD, List.getElem?_eq_getElem (show i < a.length by omega),
    List.getElem?_eq_getElem (show i < b.length by omega)] using hi

/-- Bytes of a C string. -/
theorem cstr_of_lt_cString {a : Bytes} {i : Nat} (h : i < (Vhost.cString a).length) :
    cstr a i ≠ 0 ∧ i < a.length := by
  have hpre : Vhost.cString a <+: a := List.takeWhile_prefix _
  have hlt : i < a.length := Nat.lt_of_lt_of_le h hpre.length_le
  have hget : (Vhost.cString a)[i] = a[i] := hpre.getElem h
  have hne := List.mem_takeWhile_imp (List.getElem_mem h)
  refine ⟨?_, hlt⟩
  simp only [cstr, List.getD_eq_getElem?_getD, List.getElem?_eq_getElem hlt, Option.getD_some]
  rw [← hget]
  simpa using hne

/-- `mk_auth_validate_user` lets in only users with their password. -/
theorem mkAuthValidateUser_authorised {sha1 : Bytes → Bytes} {users : List User}
    {credentials : Bytes} (h : mkAuthValidateUser sha1 users credentials = true) :
    Authorised sha1 users credentials := by
  unfold mkAuthValidateUser at h
  -- the cases in which the code returns `-1`, in its order
  split at h
  · cases h
  next hlen =>
  split at h
  · cases h
  next hbasic =>
  split at h
  · cases h
  next decoded hdecoded =>
  split at h
  · cases h
  split at h
  · cases h
  next sep hsep =>
  split at h
  · cases h
  split at h
  · cases h
  next entry hentry =>
  have hfound := List.find?_some hentry
  simp only [decide_eq_true_eq] at hfound h
  obtain ⟨hname, hcmp⟩ := hfound
  -- the name in front of the colon is the user's
  obtain ⟨hlt, hcolon, -⟩ := List.idxOf?_eq_some_iff.mp hsep
  have hpre : Vhost.cString decoded <+: decoded := List.takeWhile_prefix _
  have hsepLt : sep < decoded.length := Nat.lt_of_lt_of_le hlt hpre.length_le
  have hbyte : decoded[sep] = 58 := (hpre.getElem hlt).symm.trans hcolon
  have huser : Vhost.cString entry.user = decoded.take sep := by
    have hprefix : Vhost.cString entry.user <+: entry.user := List.takeWhile_prefix _
    have heq := strncmpEq_get hcmp fun i hi =>
      .inl (cstr_of_lt_cString (a := entry.user) (by omega)).1
    rw [List.prefix_iff_eq_take.mp hprefix, hname]
    exact take_eq_of_cstr (hname ▸ hprefix.length_le) (by omega) heq
  refine ⟨decoded.take sep, decoded.drop (sep + 1), ?_, ?_, entry,
    List.mem_of_find?_eq_some hentry, huser, h⟩
  · -- `Basic ` has no NUL
    have hsix : authHeaderBasic.length = 6 := by decide
    have heq := strncmpEq_get (by simpa using hbasic) fun i hi =>
      .inr ((by decide : ∀ i < authHeaderBasic.length, cstr authHeaderBasic i ≠ 0) i hi)
    have htake := take_eq_of_cstr (a := credentials) (b := authHeaderBasic) (by omega)
      (Nat.le_refl _) heq
    rw [List.take_length] at htake
    rw [← htake]
    exact List.take_prefix _ _
  · rw [hdecoded, ← hbyte, ← List.drop_eq_getElem_cons, List.take_append_drop]

/-! ## The result -/

section Stage30

variable {sha1 : Bytes → Bytes} {vhosts : List AuthVhost} {v : AuthVhost} {uri : Bytes}

/-- Past the handler means past the users of the first location that matches. -/
theorem mkAuthStage30_notMe_iff (hv : (vhosts.find? fun w => w.host = v.host) = some v)
    (authorization : Bytes) : mkAuthStage30 sha1 vhosts v.host uri authorization = .notMe ↔
      ∀ first, matchLocation v uri = some first →
        mkAuthValidateUser sha1 first.users authorization = true := by
  have hvhost : authVhost vhosts v.host = some v := by
    simp only [authVhost, hv]
  simp only [mkAuthStage30, hvhost]
  cases hmatch : matchLocation v uri with
  | none => simp
  | some first =>
    cases hvalid : mkAuthValidateUser sha1 first.users authorization <;> simp [hvalid]

theorem Authorised.mono {users users' : List User} (h : users ⊆ users') {authorization : Bytes}
    (hauth : Authorised sha1 users authorization) : Authorised sha1 users' authorization := by
  obtain ⟨user, password, hbasic, hdecode, entry, hentry, hdigest⟩ := hauth
  exact ⟨user, password, hbasic, hdecode, entry, h hentry, hdigest⟩

/-- Nested locations, by their users files: no header gets past the handler without the
credentials if the first location that matches has no other users than the ones the URI
is in. -/
theorem auth_not_bypassed_of_users (hv : (vhosts.find? fun w => w.host = v.host) = some v)
    (hfirst : ∀ loc ∈ v.locations, Under loc.path uri →
      ∃ first, matchLocation v uri = some first ∧ first.users ⊆ loc.users)
    {authorization : Bytes}
    (hcont : mkAuthStage30 sha1 vhosts v.host uri authorization = .notMe) :
    ∀ loc ∈ v.locations, Under loc.path uri → Authorised sha1 loc.users authorization := by
  intro loc hloc hunder
  obtain ⟨first, hmatch, husers⟩ := hfirst loc hloc hunder
  have hvalid := (mkAuthStage30_notMe_iff hv authorization).mp hcont first hmatch
  exact (mkAuthValidateUser_authorised hvalid).mono husers

end Stage30

/-- For every virtual host with its locations and every URI: no header gets past
the handler without the credentials of the locations the URI is in, iff each of
these is met by a location the URI starts with, byte for byte, and the first such
location lets nobody else in. -/
theorem auth_not_bypassed_iff (sha1 : Bytes → Bytes) (vhosts : List AuthVhost) (v : AuthVhost)
    (uri : Bytes) (hv : (vhosts.find? fun w => w.host = v.host) = some v) :
    (∀ authorization, mkAuthStage30 sha1 vhosts v.host uri authorization = .notMe →
      ∀ loc ∈ v.locations, Under loc.path uri → Authorised sha1 loc.users authorization) ↔
    ∀ loc ∈ v.locations, Under loc.path uri → ∃ first, matchLocation v uri = some first ∧
      ∀ authorization, mkAuthValidateUser sha1 first.users authorization = true →
        Authorised sha1 loc.users authorization := by
  have hstage := @mkAuthStage30_notMe_iff sha1 vhosts v uri hv
  constructor
  · intro h loc hloc hunder
    cases hmatch : matchLocation v uri with
    | none =>
      -- nothing is restricted: not even a header is needed
      have hnone := h [] ((hstage []).mpr (by simp [hmatch])) loc hloc hunder
      obtain ⟨user, password, -, hdecode, -⟩ := hnone
      cases hdecode
    | some first =>
      refine ⟨first, rfl, fun authorization hvalid => ?_⟩
      refine h authorization ((hstage authorization).mpr ?_) loc hloc hunder
      intro first' hfirst
      rw [hmatch] at hfirst
      rwa [← Option.some.inj hfirst]
  · intro h authorization hcont loc hloc hunder
    obtain ⟨first, hmatch, hin⟩ := h loc hloc hunder
    exact hin authorization ((hstage authorization).mp hcont first hmatch)

/-! ## A protected directory -/

/-- The digest of `secret`. -/
def secretDigest : Bytes :=
  [229, 233, 250, 27, 163, 30, 205, 26, 232, 79, 117, 202, 170, 71, 79, 58, 102, 63, 5, 244]

/-- `SHA1` on the one password that is used here. -/
def sha1Secret (password : Bytes) : Bytes := if password = bytes "secret" then secretDigest else []

/-- `/private` is for `joe`. -/
def privateLocation : Location where
  path := bytes "/private"
  authHttpHeader := bytes "WWW-Authenticate: Basic realm=\"x\""
  users := [{ user := bytes "joe", passwdDecoded := secretDigest }]

def privateVhost : AuthVhost := { host := 1, locations := [privateLocation] }

/-- `joe` gets in with the password, also where the URI has more slashes than the path. -/
theorem auth_not_bypassed_iff_joe :
    mkAuthStage30 sha1Secret [privateVhost] 1 (bytes "/private//./a")
      (bytes "Basic am9lOnNlY3JldA==") = .notMe ∧
    Authorised sha1Secret privateLocation.users (bytes "Basic am9lOnNlY3JldA==") := by
  have hcont : mkAuthStage30 sha1Secret [privateVhost] 1 (bytes "/private//./a")
      (bytes "Basic am9lOnNlY3JldA==") = .notMe := by decide
  have hcond : ∀ loc ∈ privateVhost.locations, Under loc.path (bytes "/private//./a") →
      ∃ first, matchLocation privateVhost (bytes "/private//./a") = some first ∧
        ∀ authorization, mkAuthValidateUser sha1Secret first.users authorization = true →
          Authorised sha1Secret loc.users authorization := by
    intro loc hloc _
    obtain rfl : loc = privateLocation := by simpa [privateVhost] using hloc
    exact ⟨privateLocation, by decide, fun _ => mkAuthValidateUser_authorised⟩
  exact ⟨hcont, (auth_not_bypassed_iff sha1Secret [privateVhost] privateVhost _ rfl).mpr hcond _
    hcont privateLocation (by simp [privateVhost]) (by decide)⟩

/-- `//private/a` is the same file, and nobody is asked for anything. -/
theorem auth_bypassed_by_slash :
    ¬ ∀ (sha1 : Bytes → Bytes) (vhosts : List AuthVhost) (v : AuthVhost) (uri authorization : Bytes),
      (vhosts.find? fun w => w.host = v.host) = some v →
      mkAuthStage30 sha1 vhosts v.host uri authorization = .notMe →
      ∀ loc ∈ v.locations, Under loc.path uri → Authorised sha1 loc.users authorization := by
  intro h
  obtain ⟨user, password, -, hdecode, -⟩ := h sha1Secret [privateVhost] privateVhost
    (bytes "//private/a") [] rfl (by decide) privateLocation (by simp [privateVhost])
    (by decide)
  cases hdecode

end SuperExe.Plugins.Auth
