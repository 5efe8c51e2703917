import SuperExe.Vhost.Fdt
import Mathlib.Data.List.Basic
import Mathlib.Data.List.TakeWhile

/-! # From a request path to a table row

`mk_vhost_open` (`mk_server/mk_vhost.c`) picks the row and the hash of a file
from `mk_utils_gen_hash` (`mk_server/mk_utils.c`) over the part of the real path
after the document root. The real path of a `/~user` request is built by
`mk_user_init` (`mk_server/mk_user.c`) and has nothing to do with the document
root; when it is shorter, the length handed to the hash is negative.
-/

namespace SuperExe.Vhost

/-! ## mk_utils_gen_hash -/

/-- `m`, the mixing constant. -/
def hashM : UInt32 := 0x5bd1e995

/-- `*(uint32_t *) data` on a little-endian machine. -/
def word32 (a b c d : UInt8) : UInt32 :=
  a.toUInt32 ||| (b.toUInt32 <<< 8) ||| (c.toUInt32 <<< 16) ||| (d.toUInt32 <<< 24)

/-- One turn of the `while (len >= 4)` loop. -/
def hashMix (h k : UInt32) : UInt32 :=
  let k := k * hashM
  let k := k ^^^ (k >>> 24)
  let k := k * hashM
  (h * hashM) ^^^ k

/-- The final mixes. -/
def hashFinal (h : UInt32) : UInt32 :=
  let h := h ^^^ (h >>> 13)
  let h := h * hashM
  h ^^^ (h >>> 15)

/-- The `switch` over the last bytes; its cases fall through. -/
def hashTail : List UInt8 → Int → UInt32 → UInt32
  | a :: b :: c :: _, 3, h =>
    (h ^^^ (c.toUInt32 <<< 16) ^^^ (b.toUInt32 <<< 8) ^^^ a.toUInt32) * hashM
  | a :: b :: _, 2, h => (h ^^^ (b.toUInt32 <<< 8) ^^^ a.toUInt32) * hashM
  | a :: _, 1, h => (h ^^^ a.toUInt32) * hashM
  | _, _, h => h

/-- The loop, then the `switch`. `len` is a C `int`: no byte is read unless it
is positive, and the callers give at least `len` bytes. -/
def hashBytes : List UInt8 → Int → UInt32 → UInt32
  | a :: b :: c :: d :: data, len, h =>
    if len ≥ 4 then hashBytes data (len - 4) (hashMix h (word32 a b c d))
    else hashTail (a :: b :: c :: d :: data) len h
  | data, len, h => hashTail data len h

/-- `mk_utils_gen_hash`, seeded with `5381 ^ len`. -/
def mkUtilsGenHash (key : List UInt8) (len : Int) : UInt32 :=
  hashFinal (hashBytes key len (5381 ^^^ UInt32.ofInt len))

/-! ## mk_vhost_open -/

/-- The hash `mk_vhost_open` computes for a real path. -/
def vhostHash (documentroot : HostId → Path) (host : HostId) (path : Path) : UInt32 :=
  let off := (documentroot host).length
  mkUtilsGenHash (path.drop off) ((path.length : Int) - off)

/-- `hash % VHOST_FDT_HASHTABLE_SIZE` -/
def vhostFdtId (hash : UInt32) : Fin fdtHashtableSize :=
  ⟨hash.toNat % fdtHashtableSize, Nat.mod_lt _ (by decide)⟩

/-- `mk_vhost_open` -/
def mkVhostOpen (documentroot : HostId → Path) (w : Worker) (sr : FdtRequest) (ans : Option Nat) :
    Worker × FdtRequest × Int :=
  let hash := vhostHash documentroot sr.hostConf sr.realPath
  mkVhostFdtOpen w (vhostFdtId hash) hash sr ans

/-- `mk_vhost_close` -/
def mkVhostClose (w : Worker) (sr : FdtRequest) : Worker := mkVhostFdtClose w sr

/-! ## mk_user_init -/

/-- How `mk_user_init` ends. -/
inductive UserInit where
  /-- `-1` without an error page: the name is missing or does not fit. -/
  | refused
  /-- `mk_http_error(MK_CLIENT_NOT_FOUND)` and `-1`. -/
  | unknownUser
  /-- `0`: `real_path` is set and `user_home` is true. -/
  | home (realPath : Path)
deriving DecidableEq, Repr

/-- The bytes a `%s` conversion prints. -/
def cString (s : List UInt8) : List UInt8 := s.takeWhile (· ≠ 0)

theorem cString_front (s : List UInt8) : cString s <+: s := List.takeWhile_prefix _

theorem zero_notMem_cString (s : List UInt8) : 0 ∉ cString s := by
  intro h
  have := List.mem_takeWhile_imp h
  simp at this

theorem cString_eq_self {s : List UInt8} : cString s = s ↔ 0 ∉ s := by
  constructor
  · intro h
    rw [← h]
    exact zero_notMem_cString s
  · intro h
    rw [cString, List.takeWhile_eq_self_iff]
    intro x hx
    simp only [decide_eq_true_eq]
    rintro rfl
    exact h hx

theorem cString_append_of_mem {a b : List UInt8} (h : 0 ∈ a) : cString (a ++ b) = cString a := by
  induction a with
  | nil => cases h
  | cons c a ih =>
    by_cases hc : c = 0
    · simp [cString, hc]
    · have ha : 0 ∈ a := (List.mem_cons.mp h).resolve_left (Ne.symm hc)
      have hcons : ∀ l, cString (c :: l) = c :: cString l := by
        intro l
        simp [cString, hc]
      rw [List.cons_append, hcons, hcons, ih ha]

theorem cString_append {a b : List UInt8} (h : 0 ∉ a) : cString (a ++ b) = a ++ cString b := by
  unfold cString
  rw [List.takeWhile_append_of_pos]
  intro x hx
  simp only [ne_eq, decide_eq_true_eq]
  rintro rfl
  exact h hx

/-- `mk_user_init`. `uri` is `uri_processed`, `after` the bytes that follow it
in memory: the search for the slash starts two bytes late and still covers
`uri_processed.len` bytes. `getpwnam` gives a user's home directory. -/
def mkUserInit (getpwnam : List UInt8 → Option Path) (userDir : Path) (uri after : List UInt8) :
    UserInit :=
  if uri.length ≤ 2 then .refused
  else
    let limit := match ((uri ++ after).drop 2 |>.take uri.length).findIdx? (· = 47) with
      | some i => i
      | none => uri.length - 2
    if limit + 2 ≥ 255 then .refused
    else
      let user := cString (((uri ++ after).drop 2).take limit)
      match getpwnam user with
      | none => .unknownUser
      | some pwDir =>
        if uri.length > 2 + limit then
          .home (cString pwDir ++ [47] ++ cString userDir ++ cString (uri.drop (2 + limit)))
        else .home (cString pwDir ++ [47] ++ cString userDir)

end SuperExe.Vhost
