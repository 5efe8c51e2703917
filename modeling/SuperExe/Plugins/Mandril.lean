import SuperExe.Core.StringSearch

/-! # Mandril: rules about URLs

A URL rule fires where its criterion is found in the processed URI, which is a
slice of the request. What is found can end behind the slice.
-/

namespace SuperExe.Plugins.Mandril

open SuperExe.Core SuperExe.Lib

/-- `mk_security_check_url`: `data` is the memory from `url.data` to the end of
its buffer. -/
def mkSecurityCheckUrl (data : Bytes) (len : Nat) : List Bytes → Option Int
  | [] => some 0
  | criteria :: secureUrl => do
    let n ← mkStringSearchN data criteria .strInsensitive (toInt32 len)
    if n ≥ 0 then some (-1) else mkSecurityCheckUrl data len secureUrl

section Url

variable {sensitive : Sensitivity} {needle slice : Bytes}

/-- What is expected of the bounded search, whatever lies behind the slice: the
first place in the slice, what the search in a copy gives, and for a URL rule
that it fires exactly where its criterion is in the URI. -/
structure BoundedSearch (sensitive : Sensitivity) (needle slice : Bytes) : Prop where
  exact : ∀ rest, ∃ r, mkStringSearchN (slice ++ rest) needle sensitive slice.length = some r ∧
    First (StandsAt sensitive needle slice) 0 r
  copy : ∀ rest, mkStringSearchN (slice ++ rest) needle sensitive slice.length =
    mkStringSearch (slice ++ [0]) needle sensitive
  fires : sensitive = .strInsensitive → (∃ i, StandsAt sensitive needle slice i) →
    ∀ rest secureUrl, mkSecurityCheckUrl (slice ++ rest) slice.length (needle :: secureUrl) =
      some (-1)
  passes : sensitive = .strInsensitive → (¬ ∃ i, StandsAt sensitive needle slice i) →
    ∀ rest secureUrl, mkSecurityCheckUrl (slice ++ rest) slice.length (needle :: secureUrl) =
      mkSecurityCheckUrl (slice ++ rest) slice.length secureUrl

theorem mkStringSearchN_eq (hslice : slice ≠ []) (rest : Bytes) :
    mkStringSearchN (slice ++ rest) needle sensitive slice.length =
      searchLoop sensitive.key needle slice.length (slice ++ rest) 0 := by
  have hpos := List.length_pos_iff.mpr hslice
  rw [mkStringSearchN, mkStringSearchBase, if_neg (by omega), Int.toNat_natCast]

/-- A rule fires if its search finds something. -/
theorem mkSecurityCheckUrl_cons (hlen : slice.length < 2 ^ 31) {rest : Bytes} {r : Int}
    (h : mkStringSearchN (slice ++ rest) needle .strInsensitive slice.length = some r)
    (secureUrl : List Bytes) :
    mkSecurityCheckUrl (slice ++ rest) slice.length (needle :: secureUrl) =
      if r ≥ 0 then some (-1) else mkSecurityCheckUrl (slice ++ rest) slice.length secureUrl := by
  have hint : toInt32 slice.length = slice.length := Int.bmod_eq_of_le (by omega) (by omega)
  rw [mkSecurityCheckUrl, hint, h]
  rfl

/-- The bounded search is right exactly if no NUL lies before the first
occurrence and, where there is none, no part of the needle is left over at the
end of the slice. -/
theorem boundedSearch_iff (hslice : slice ≠ []) (hlen : slice.length < 2 ^ 31)
    (hneedle : 0 ∉ needle) :
    BoundedSearch sensitive needle slice ↔ Settled sensitive.key needle slice := by
  rw [← searchLoop_iff hslice]
  constructor
  · intro h rest
    obtain ⟨r, hr, hfirst⟩ := h.exact rest
    rw [mkStringSearchN_eq hslice] at hr
    exact ⟨r, hr, hfirst⟩
  · intro h
    have hexact : ∀ rest, ∃ r,
        mkStringSearchN (slice ++ rest) needle sensitive slice.length = some r ∧
          First (StandsAt sensitive needle slice) 0 r := by
      intro rest
      rw [mkStringSearchN_eq hslice]
      exact h rest
    refine ⟨hexact, fun rest => ?_, ?_, ?_⟩
    · obtain ⟨r, hr, hfirst⟩ := hexact rest
      obtain ⟨r', hr', hfirst'⟩ := mkStringSearch_copy ((searchLoop_iff hslice).mp h) hneedle
      rw [hr, hr', hfirst.unique hfirst']
    · intro hmode ⟨i, hat⟩ rest secureUrl
      subst hmode
      obtain ⟨r, hr, hfirst⟩ := hexact rest
      have hfound : r ≠ -1 := fun hneg => hfirst.eq_neg_one_iff.mp hneg i (Nat.zero_le i) hat
      have hnonneg : 0 ≤ r := by
        rcases hfirst with ⟨hneg, -⟩ | ⟨k, rfl, -⟩
        · exact absurd hneg hfound
        · exact Int.natCast_nonneg k
      rw [mkSecurityCheckUrl_cons hlen hr, if_pos hnonneg]
    · intro hmode hnone rest secureUrl
      subst hmode
      obtain ⟨r, hr, hfirst⟩ := hexact rest
      have hneg := hfirst.eq_neg_one_iff.mpr fun i _ hat => hnone ⟨i, hat⟩
      rw [mkSecurityCheckUrl_cons hlen hr, if_neg (by omega)]

/-- `picture` in `/img/picture.png`, found in any case. -/
theorem boundedSearch_picture :
    BoundedSearch .strInsensitive (bytes "Picture") (bytes "/img/picture.png") := by
  refine (boundedSearch_iff (by decide) (by decide) (by decide)).mpr ⟨fun i _ _ => ?_, fun i _ _ => ?_⟩
  · exact fun h => absurd (List.mem_of_mem_take h) (by decide)
  · exact ⟨5, by decide⟩

/-- The URI `/img` of a request for `/img?evil`: the rule `g?e` fires for what
stands behind it. -/
theorem url_rule_behind :
    mkSecurityCheckUrl (bytes "/img?evil HTTP/1.1") 4 [bytes "g?e"] = some (-1) ∧
    ¬ BoundedSearch .strInsensitive (bytes "g?e") (bytes "/img") := by
  refine ⟨by decide, fun h => ?_⟩
  have hnone : ¬ ∃ i, StandsAt .strInsensitive (bytes "g?e") (bytes "/img") i := by
    rintro ⟨i, hat⟩
    have hlen : i + 3 ≤ 4 := hat.add_le
    rcases (show i = 0 ∨ i = 1 by omega) with rfl | rfl
    · exact absurd hat (by decide)
    · exact absurd hat (by decide)
  have hpass := h.passes rfl hnone (bytes "?evil HTTP/1.1") []
  exact absurd hpass (by decide)

end Url

end SuperExe.Plugins.Mandril
