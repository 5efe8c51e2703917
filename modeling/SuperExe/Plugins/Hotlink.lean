import SuperExe.Core.StringSearch
import SuperExe.Http.Prepare

/-! # Mandril: hotlinks

`mk_security_check_hotlink` compares the end of the referer's host with the end of the host,
label by label. It asks the rules about URLs whether the request is to be checked, and counts
the bytes of the first label from the place where the rule matched.
-/

namespace SuperExe.Plugins.Mandril

open SuperExe.Core SuperExe.Lib
open SuperExe.Http (strncasecmpEq)

/-! ## The code -/

/-- A `mk_ptr_t`: what it points to, and what lies behind it in the buffer. -/
structure Slice where
  text : Bytes
  behind : Bytes
deriving DecidableEq, Repr

/-- The lists of `mk_security_conf`; a criterion is a C string. -/
structure Rules where
  secureUrl : List Bytes
  denyHotlink : List Bytes
  noNul : ∀ criteria ∈ secureUrl, 0 ∉ criteria

/-- Where `//` stands, or the length. -/
def slashesAt (behind : Bytes) : Bytes → Nat
  | [] => 0
  | c :: cs => if c = 47 ∧ cstr (cs ++ behind) 0 = 47 then 0 else slashesAt behind cs + 1

/-- `parse_referer_host` -/
def parseRefererHost (val : Slice) : Option Slice :=
  let i := slashesAt val.behind val.text
  if i = val.text.length then none
  else
    let userEnd := i + ((val.text.drop i).takeWhile (· ≠ 64)).length
    let beginHost := if userEnd < val.text.length then userEnd + 1 else i + 2
    let host := (val.text.drop beginHost).takeWhile fun c => c ≠ 58 ∧ c ≠ 47
    some ⟨host, (val.text ++ val.behind).drop (beginHost + host.length)⟩

/-- The loop over the rules, with the `i` so far. -/
def searchRules (url : Slice) (i : Int) : List Bytes → Option Int
  | [] => some i
  | criteria :: rules => do
    let n ← mkStringSearchN (url.text ++ url.behind) criteria .strInsensitive
      (toInt32 url.text.length)
    if n ≥ 0 then some n else searchRules url n rules

/-- The loop that goes back in both texts: `curA` and `curB` are the distances from their
starts. -/
def labelLoop (host refHost : Nat → UInt8) : Nat → Nat → Nat → Nat → Nat
  | curA + 1, curB + 1, i, domainsMatched =>
    let i := i + 1
    if (host curA = 46 ∧ refHost curB = 46) ∨ curA = 0 ∨ curB = 0 then
      if i < 1 then domainsMatched
      else if curA = 0 ∧ ¬ (curB = 0 ∨ refHost (curB - 1) = 46) then domainsMatched
      else if curB = 0 ∧ ¬ (curA = 0 ∨ host (curA - 1) = 46) then domainsMatched
      else if strncasecmpEq (fun n => host (curA + n)) (fun n => refHost (curB + n)) i = false then
        domainsMatched
      else labelLoop host refHost curA curB 0 (domainsMatched + 1)
    else labelLoop host refHost curA curB i domainsMatched
  | _, _, _, domainsMatched => domainsMatched

/-- `mk_security_check_hotlink`, with a `Referer`. -/
def mkSecurityCheckHotlink (rules : Rules) (url : Slice) (host : Option Slice) (referer : Slice) :
    Option Int :=
  match parseRefererHost referer with
  | none => some 0
  | some refHost =>
    match host with
    | none => some (-1)
    | some host => do
      let i ← searchRules url 0 rules.secureUrl
      if i < 0 then some 0
      else if labelLoop (cstr (host.text ++ host.behind)) (cstr (refHost.text ++ refHost.behind))
          host.text.length refHost.text.length i.toNat 0 ≥ 2 then some 0
      else some (-1)

/-! ## What is expected -/

/-- What stands behind the first `//`. -/
def afterSlashes : Bytes → Option Bytes
  | [] => none
  | c :: cs => if c = 47 ∧ cs.head? = some 47 then some cs.tail else afterSlashes cs

/-- The host of the authority, behind any user, in front of any port. -/
def authorityHost (val : Bytes) : Option Bytes :=
  (afterSlashes val).map fun rest =>
    let authority := rest.takeWhile fun c => c ≠ 47 ∧ c ≠ 63
    let place := if 64 ∈ authority then (authority.dropWhile (· ≠ 64)).tail else authority
    place.takeWhile (· ≠ 58)

/-- The labels of a domain, the last one first. -/
def labels (domain : Bytes) : List Bytes := (domain.splitOn 46).reverse

/-- The same text in any case. -/
def SameText (a b : Bytes) : Prop := a.map tolower = b.map tolower

instance (a b : Bytes) : Decidable (SameText a b) :=
  inferInstanceAs (Decidable (a.map tolower = b.map tolower))

/-- How many labels are the same, from the last one on. -/
def sharedLabels : List Bytes → List Bytes → Nat
  | a :: as, b :: bs => if SameText a b then sharedLabels as bs + 1 else 0
  | _, _ => 0

/-- A request with a host and a referer, as the parser gives them: the host is a text, and the
referer ends at a CR; behind the URI there is a NUL in its buffer. -/
structure HotlinkRequest where
  url : Slice
  host : Slice
  referer : Slice
  url_terminated : 0 ∈ url.text ++ url.behind
  host_text : 0 ∉ host.text
  referer_end : referer.behind.head? = some 13

/-- A criterion against hotlinks is in the URI. -/
def HotlinkRequest.Protected (r : HotlinkRequest) (rules : Rules) : Prop :=
  ∃ criteria ∈ rules.denyHotlink, ∃ i, StandsAt .strInsensitive criteria r.url.text i

/-- The request is blocked exactly if it comes from a host elsewhere to a protected URI. -/
def HotlinkRequest.Checked (r : HotlinkRequest) (rules : Rules) : Prop :=
  ∃ ret, mkSecurityCheckHotlink rules r.url (some r.host) r.referer = some ret ∧
    (ret < 0 ↔ ∃ refHost, authorityHost r.referer.text = some refHost ∧ r.Protected rules ∧
      sharedLabels (labels r.host.text) (labels refHost) < 2)

/-! ## When this is so -/

/-- Where a criterion about URLs is found. -/
def position (url : Slice) (criteria : Bytes) : Option Nat :=
  (mkStringSearchN (url.text ++ url.behind) criteria .strInsensitive
    (toInt32 url.text.length)).bind Int.toNat?

/-- Where the first rule about URLs that fires is found; without rules, the start. -/
def rulePosition (rules : Rules) (url : Slice) : Option Nat :=
  if rules.secureUrl = [] then some 0 else rules.secureUrl.findSome? (position url)

/-- Two labels that the loop finds the same: it takes no label in front of a dot at the start
of a text, and wants the other text to have an empty label there as well. -/
def SharesTwo : List Bytes → List Bytes → Prop
  | a :: b :: as, c :: d :: cs => SameText a c ∧ SameText b d ∧
      (as = [] ∨ cs = [] → b ≠ []) ∧
      (as ≠ [] → cs ≠ [] →
        (as = [[]] → cs.head? = some []) ∧ (cs = [[]] → as.head? = some []))
  | _, _ => False

/-- The bytes behind two slices are the same, in any case. -/
def AlikeBehind (a b : Slice) (n : Nat) : Prop :=
  strncasecmpEq (cstr a.behind) (cstr b.behind) n = true

/-- If a rule about URLs fires, two labels of the hosts are shared, and as many bytes behind
them as lie in front of the place where it was found. -/
def HotlinkRequest.Passes (r : HotlinkRequest) (rules : Rules) (refHost : Slice) : Prop :=
  ∀ p, rulePosition rules r.url = some p →
    AlikeBehind r.host refHost p ∧ SharesTwo (labels r.host.text) (labels refHost.text)

/-- A rule about URLs fires, or there are none. -/
def Rules.Fires (rules : Rules) (url : Slice) : Prop :=
  rules.secureUrl = [] ∨ ∃ criteria ∈ rules.secureUrl, position url criteria ≠ none

instance (rules : Rules) (url : Slice) : Decidable (rules.Fires url) :=
  inferInstanceAs (Decidable (_ ∨ _))

/-- What stands behind a user, or all of it. -/
def behindUser (authority : Bytes) : Bytes :=
  if 64 ∈ authority then (authority.dropWhile (· ≠ 64)).tail else authority

/-- The host of the authority, and what stands behind it in the buffer. -/
def authoritySlice (val : Slice) : Option Slice :=
  (afterSlashes val.text).map fun rest =>
    let authority := rest.takeWhile fun c => c ≠ 47 ∧ c ≠ 63
    let host := (behindUser authority).takeWhile (· ≠ 58)
    ⟨host, (rest ++ val.behind).drop (authority.length - (behindUser authority).length +
      host.length)⟩

/-- An `@` stands behind `//` only if one stands in the authority, and the host does not end at
a `?`: a `:` or a `/` comes first, or none of them comes. -/
def Slice.Plain (referer : Slice) : Prop :=
  ∀ rest, afterSlashes referer.text = some rest →
    (64 ∈ rest → 64 ∈ rest.takeWhile fun c => c ≠ 47 ∧ c ≠ 63) ∧
      63 ∉ (behindUser rest).takeWhile fun c => c ≠ 58 ∧ c ≠ 47

instance (referer : Slice) : Decidable referer.Plain :=
  inferInstanceAs (Decidable (∀ rest ∈ afterSlashes referer.text, _ ∧ _))

/-- Fewer than two labels are shared, from the last one on. -/
def Foreign (host refHost : Bytes) : Prop := sharedLabels (labels host) (labels refHost) < 2

instance (host refHost : Bytes) : Decidable (Foreign host refHost) :=
  inferInstanceAs (Decidable (_ < 2))

/-- The rules about URLs and the referer keep clear of what goes wrong. Where a rule fires, the
referer is plain. For a foreign referer it fires exactly if the URI is protected; for one of the
same site, if it fires at `p`, as many bytes behind the two hosts are the same, and the loop
takes the two labels for shared. -/
def HotlinkRequest.Careful (r : HotlinkRequest) (rules : Rules) : Prop :=
  ∀ refHost, authoritySlice r.referer = some refHost →
    (rules.Fires r.url → r.referer.Plain) ∧
    (Foreign r.host.text refHost.text → (r.Protected rules ↔ rules.Fires r.url)) ∧
    (¬ Foreign r.host.text refHost.text → ∀ p, rulePosition rules r.url = some p →
      AlikeBehind r.host refHost p ∧ SharesTwo (labels r.host.text) (labels refHost.text))

/-- The URI is not protected, or two labels of the hosts are shared. -/
def HotlinkRequest.Allowed (r : HotlinkRequest) (rules : Rules) (refHost : Bytes) : Prop :=
  ¬ r.Protected rules ∨ 2 ≤ sharedLabels (labels r.host.text) (labels refHost)

/-- A referer with a host passes where it is allowed. -/
def HotlinkRequest.Agrees (r : HotlinkRequest) (rules : Rules) : Prop :=
  ∀ refHost slice, authorityHost r.referer.text = some refHost →
    parseRefererHost r.referer = some slice → (r.Passes rules slice ↔ r.Allowed rules refHost)

/-! ## The loop, from the ends -/

/-- The loop over the texts read backwards; `same` says whether what was read of the label is
the same. -/
def walk : Bytes → Bytes → Bool → Nat → Nat
  | a :: as, b :: bs, same, matched =>
    let same := decide (tolower a = tolower b) && same
    if (a = 46 ∧ b = 46) ∨ as = [] ∨ bs = [] then
      if (as = [] ∧ ¬ (bs = [] ∨ bs.head? = some 46)) ∨
          (bs = [] ∧ ¬ (as = [] ∨ as.head? = some 46)) ∨ same = false then matched
      else walk as bs true (matched + 1)
    else walk as bs same matched
  | _, _, _, matched => matched

section Walk

variable {as bs : Bytes} {same : Bool} {matched : Nat}

theorem strncasecmpEq_succ {f g : Nat → UInt8} {n : Nat} (hf : f 0 ≠ 0) :
    strncasecmpEq f g (n + 1) =
      (decide (tolower (f 0) = tolower (g 0)) &&
        strncasecmpEq (fun i => f (i + 1)) (fun i => g (i + 1)) n) := by
  have hzero : ¬ tolower (f 0) = 0 := fun h =>
    hf (Sensitivity.strInsensitive.fastKey_eq_iff (f 0) 0 |>.mp h |> fun h' =>
      (Sensitivity.strInsensitive.key_eq_zero_iff (f 0)).mp (h'.trans rfl))
  rw [strncasecmpEq, strncmpEq]
  by_cases heq : tolower (f 0) = tolower (g 0)
  · rw [if_neg (not_not.mpr heq), if_neg hzero, decide_eq_true heq, Bool.true_and]
    rfl
  · rw [if_pos heq, decide_eq_false heq, Bool.false_and]

theorem cstr_get (text behind : Bytes) {i : Nat} (hi : i < text.length) :
    cstr (text ++ behind) i = text[i] := by
  rw [cstr, List.getD_eq_getElem?_getD, List.getElem?_append_left hi, List.getElem?_eq_getElem hi]
  rfl

theorem reverse_take_succ (text : Bytes) {i : Nat} (hi : i < text.length) :
    (text.take (i + 1)).reverse = text[i] :: (text.take i).reverse := by
  rw [← List.take_append_getElem hi, List.reverse_append]
  rfl

theorem reverse_take_eq_nil (text : Bytes) {i : Nat} (hi : i ≤ text.length) :
    (text.take i).reverse = [] ↔ i = 0 := by
  rw [List.reverse_eq_nil_iff, ← List.length_eq_zero_iff, List.length_take]
  omega

theorem at_start_or_dot (text behind : Bytes) {i : Nat} (hi : i ≤ text.length) :
    ((text.take i).reverse = [] ∨ (text.take i).reverse.head? = some 46) ↔
      (i = 0 ∨ cstr (text ++ behind) (i - 1) = 46) := by
  rw [reverse_take_eq_nil text hi]
  cases i with
  | zero => exact iff_of_true (Or.inl rfl) (Or.inl rfl)
  | succ i =>
    rw [reverse_take_succ text hi, Nat.add_sub_cancel, cstr_get text behind hi, List.head?_cons,
      Option.some_inj]

/-- The cursors go back as the walk goes on, and the comparison tells what the walk keeps. -/
theorem labelLoop_eq {host refHost : Slice} (hhost : 0 ∉ host.text) {curA curB : Nat}
    (hA : curA ≤ host.text.length) (hB : curB ≤ refHost.text.length) (i matched : Nat) :
    labelLoop (cstr (host.text ++ host.behind)) (cstr (refHost.text ++ refHost.behind)) curA curB i
        matched =
      walk (host.text.take curA).reverse (refHost.text.take curB).reverse
        (strncasecmpEq (fun n => cstr (host.text ++ host.behind) (curA + n))
          (fun n => cstr (refHost.text ++ refHost.behind) (curB + n)) i) matched := by
  induction curA generalizing curB i matched with
  | zero =>
    rw [List.take_zero, List.reverse_nil]
    cases curB <;> rfl
  | succ curA ih =>
    cases curB with
    | zero =>
      rw [List.take_zero, List.reverse_nil, reverse_take_succ _ hA]
      rfl
    | succ curB =>
      rw [reverse_take_succ _ hA, reverse_take_succ _ hB, labelLoop, walk]
      have hnul : cstr (host.text ++ host.behind) (curA + 0) ≠ 0 := by
        rw [Nat.add_zero, cstr_get _ _ hA]
        exact fun h => hhost (h ▸ List.getElem_mem hA)
      have hshift : ∀ (text : Nat → UInt8) (k : Nat),
          (fun n => text (k + (n + 1))) = fun n => text (k + 1 + n) := by
        intro text k
        funext n
        congr 1
        omega
      have hcmp := @strncasecmpEq_succ (fun n => cstr (host.text ++ host.behind) (curA + n))
        (fun n => cstr (refHost.text ++ refHost.behind) (curB + n)) i hnul
      rw [hshift, hshift, Nat.add_zero curA, Nat.add_zero curB, cstr_get _ _ hA,
        cstr_get _ _ hB] at hcmp
      have hpos : ¬ i + 1 < 1 := by omega
      have htrue : ∀ f g : Nat → UInt8, strncasecmpEq f g 0 = true := fun _ _ => rfl
      rw [if_neg hpos, ← hcmp, ih (Nat.le_of_succ_le hA) (Nat.le_of_succ_le hB), htrue,
        ih (Nat.le_of_succ_le hA) (Nat.le_of_succ_le hB)]
      simp only [at_start_or_dot _ host.behind (Nat.le_of_succ_le hA),
        at_start_or_dot _ refHost.behind (Nat.le_of_succ_le hB)]
      simp only [cstr_get _ _ hA, cstr_get _ _ hB, reverse_take_eq_nil _ (Nat.le_of_succ_le hA),
        reverse_take_eq_nil _ (Nat.le_of_succ_le hB), ite_or]

theorem walk_nil_left (bs : Bytes) (same : Bool) (matched : Nat) :
    walk [] bs same matched = matched := by
  cases bs <;> rfl

theorem walk_nil_right (as : Bytes) (same : Bool) (matched : Nat) :
    walk as [] same matched = matched := by
  cases as <;> rfl

theorem le_walk (as bs : Bytes) (same : Bool) (matched : Nat) :
    matched ≤ walk as bs same matched := by
  induction as generalizing bs same matched with
  | nil => rw [walk_nil_left]
  | cons a as ih =>
    cases bs with
    | nil => rw [walk_nil_right]
    | cons b bs =>
      rw [walk]
      split
      · split
        · exact Nat.le_refl _
        · exact Nat.le_trans (Nat.le_succ _) (ih bs true (matched + 1))
      · exact ih bs _ matched

/-- Once two bytes differ, no label counts any more. -/
theorem walk_false (as bs : Bytes) (matched : Nat) : walk as bs false matched = matched := by
  induction as generalizing bs with
  | nil => exact walk_nil_left bs false matched
  | cons a as ih =>
    cases bs with
    | nil => rfl
    | cons b bs =>
      rw [walk, Bool.and_false]
      split
      · rw [if_pos (Or.inr (Or.inr rfl))]
      · exact ih bs

theorem walk_differ {a b : UInt8} (h : tolower a ≠ tolower b) (as bs : Bytes) (same : Bool)
    (matched : Nat) : walk (a :: as) (b :: bs) same matched = matched := by
  have hwalk : walk (a :: as) (b :: bs) same matched = walk (a :: as) (b :: bs) false matched := by
    rw [walk, walk, decide_eq_false h, Bool.false_and, Bool.false_and]
  rw [hwalk, walk_false]

/-- What follows a label: nothing, or a dot and more. -/
def AtDot (t : Bytes) : Prop := t = [] ∨ t.head? = some 46

instance (t : Bytes) : Decidable (AtDot t) :=
  inferInstanceAs (Decidable (t = [] ∨ t.head? = some 46))

theorem tolower_dot {c : UInt8} (h : c ≠ 46) : tolower c ≠ tolower 46 := by
  intro heq
  have hc := tolower_toNat c
  have hval := congrArg UInt8.toNat heq
  have hdot : (tolower 46).toNat = 46 := by decide
  rw [hdot] at hval
  refine h (UInt8.toNat_inj.mp ?_)
  have h46 : (46 : UInt8).toNat = 46 := rfl
  rw [h46]
  split_ifs at hc <;> omega

/-- A label is not passed if it is not the same. -/
theorem walk_other {u v : Bytes} (hu : 46 ∉ u) (hv : 46 ∉ v) (hne : u.map tolower ≠ v.map tolower)
    (has : AtDot as) (hbs : AtDot bs) : walk (u ++ as) (v ++ bs) same matched = matched := by
  -- by induction on the label; where one of the two ends the other goes on
  induction u generalizing v same with
  | nil =>
    cases v with
    | nil => exact absurd rfl hne
    | cons b v =>
      rw [List.mem_cons, not_or] at hv
      rcases has with rfl | has
      · exact walk_nil_left _ _ _
      · cases as with
        | nil => cases has
        | cons a as =>
          cases has
          exact walk_differ (tolower_dot (Ne.symm hv.1)).symm _ _ _ _
  | cons a u ih =>
    rw [List.mem_cons, not_or] at hu
    cases v with
    | nil =>
      rcases hbs with rfl | hbs
      · exact walk_nil_right _ _ _
      · cases bs with
        | nil => cases hbs
        | cons b bs =>
          cases hbs
          exact walk_differ (tolower_dot (Ne.symm hu.1)) _ _ _ _
    | cons b v =>
      -- the walk stops at the first character that differs
      by_cases heq : tolower a = tolower b
      swap
      · exact walk_differ heq _ _ _ _
      rw [List.mem_cons, not_or] at hv
      have hrest : u.map tolower ≠ v.map tolower := fun h => hne (by
        rw [List.map_cons, List.map_cons, heq, h])
      rw [List.cons_append, List.cons_append, walk]
      have hnodot : ∀ {w t : Bytes}, 46 ∉ w → w ≠ [] → ¬ AtDot (w ++ t) := by
        rintro (_ | ⟨c, w⟩) t hw hne (h | h)
        · exact hne rfl
        · exact hne rfl
        · cases h
        · cases h
          exact hw List.mem_cons_self
      split
      · -- one text ends with the label, the other goes on in it
        next hstop =>
        refine if_pos ?_
        rcases hstop with hdot | hend | hend
        · exact absurd hdot.1.symm hu.1
        · rcases List.append_eq_nil_iff.mp hend with ⟨rfl, rfl⟩
          have hvne : v ≠ [] := fun h => hrest (by rw [h])
          exact Or.inl ⟨rfl, hnodot hv.2 hvne⟩
        · rcases List.append_eq_nil_iff.mp hend with ⟨rfl, rfl⟩
          have hune : u ≠ [] := fun h => hrest (by rw [h])
          exact Or.inr (Or.inl ⟨rfl, hnodot hu.2 hune⟩)
      · exact ih hu.2 hv.2 hrest

/-- A label that is the same, where one of the texts ends with it. -/
theorem walk_last {u v : Bytes} (hu : 46 ∉ u) (hsame : u.map tolower = v.map tolower)
    (has : AtDot as) (hbs : AtDot bs) (hend : as = [] ∨ bs = []) :
    walk (u ++ as) (v ++ bs) same matched =
      if u ≠ [] ∧ same = true then matched + 1 else matched := by
  induction u generalizing v same with
  | nil =>
    obtain rfl : v = [] := List.map_eq_nil_iff.mp hsame.symm
    rw [if_neg (by simp)]
    rcases hend with rfl | rfl
    · exact walk_nil_left _ _ _
    · exact walk_nil_right _ _ _
  | cons a u ih =>
    rw [List.mem_cons, not_or] at hu
    cases v with
    | nil => cases hsame
    | cons b v =>
      rw [List.map_cons, List.map_cons, List.cons.injEq] at hsame
      rw [List.cons_append, List.cons_append, walk, decide_eq_true hsame.1, Bool.true_and]
      have hnil : u = [] ↔ v = [] := by
        rw [← List.map_eq_nil_iff (f := tolower), hsame.2, List.map_eq_nil_iff]
      have hne : a :: u ≠ [] := List.cons_ne_nil _ _
      -- the last character of the label decides whether it counts
      by_cases hu' : u = []
      · obtain rfl := hnil.mp hu'
        subst hu'
        rw [List.nil_append, List.nil_append]
        have hpass : ¬ (as = [] ∧ ¬ (bs = [] ∨ bs.head? = some 46)) ∧
            ¬ (bs = [] ∧ ¬ (as = [] ∨ as.head? = some 46)) :=
          ⟨fun h => h.2 hbs, fun h => h.2 has⟩
        rw [if_pos (Or.inr hend)]
        cases same with
        | false => rw [if_pos (Or.inr (Or.inr rfl)), if_neg (by simp)]
        | true =>
          rw [if_neg (by simp only [hpass.1, hpass.2, false_or]; decide), if_pos ⟨hne, rfl⟩]
          rcases hend with rfl | rfl
          · exact walk_nil_left _ _ _
          · exact walk_nil_right _ _ _
      · have hv' : v ≠ [] := fun h => hu' (hnil.mpr h)
        rw [if_neg, ih hu.2 hsame.2]
        · simp only [ne_eq, hu', not_false_eq_true, hne, true_and]
        · rintro (h | h | h)
          · exact hu.1 h.1.symm
          · exact hu' (List.append_eq_nil_iff.mp h).1
          · exact hv' (List.append_eq_nil_iff.mp h).1

/-- A label that is the same, with a dot in front of it in both texts. -/
theorem walk_dot {u v : Bytes} (hu : 46 ∉ u) (hsame : u.map tolower = v.map tolower) :
    walk (u ++ 46 :: as) (v ++ 46 :: bs) same matched =
      if (as = [] ∧ ¬ AtDot bs) ∨ (bs = [] ∧ ¬ AtDot as) ∨ same = false then matched
      else walk as bs true (matched + 1) := by
  induction u generalizing v same with
  | nil =>
    obtain rfl : v = [] := List.map_eq_nil_iff.mp hsame.symm
    rw [List.nil_append, List.nil_append, walk, decide_eq_true rfl, Bool.true_and,
      if_pos (Or.inl ⟨rfl, rfl⟩)]
    rfl
  | cons a u ih =>
    rw [List.mem_cons, not_or] at hu
    cases v with
    | nil => cases hsame
    | cons b v =>
      rw [List.map_cons, List.map_cons, List.cons.injEq] at hsame
      rw [List.cons_append, List.cons_append, walk, decide_eq_true hsame.1, Bool.true_and, if_neg,
        ih hu.2 hsame.2]
      rintro (h | h | h)
      · exact hu.1 h.1.symm
      · cases (List.append_eq_nil_iff.mp h).2
      · cases (List.append_eq_nil_iff.mp h).2

end Walk

/-! ## Labels -/

section Labels

variable {t front last : Bytes}

theorem labels_plain (h : 46 ∉ t) : labels t = [t] := by
  rw [labels, List.splitOn_eq_singleton h]
  rfl

theorem labels_dot (hlast : 46 ∉ last) : labels (front ++ 46 :: last) = last :: labels front := by
  rw [labels, List.splitOn_append_cons_self, List.splitOn_eq_singleton hlast, List.reverse_append]
  rfl

/-- A text has no dot, or a last one. -/
theorem last_dot (t : Bytes) : 46 ∉ t ∨ ∃ front last, 46 ∉ last ∧ t = front ++ 46 :: last := by
  by_cases h : 46 ∈ t
  · rcases List.eq_append_cons_of_mem (List.mem_reverse.mpr h) with ⟨last, front, heq, hlast⟩
    refine Or.inr ⟨front.reverse, last.reverse, fun hmem => hlast (List.mem_reverse.mp hmem), ?_⟩
    have hrev := congrArg List.reverse heq
    rw [List.reverse_reverse, List.reverse_append, List.reverse_cons, List.append_assoc] at hrev
    exact hrev
  · exact Or.inl h

theorem labels_ne_nil (t : Bytes) : labels t ≠ [] := by
  rcases last_dot t with h | ⟨front, last, hlast, rfl⟩
  · rw [labels_plain h]
    exact List.cons_ne_nil _ _
  · rw [labels_dot hlast]
    exact List.cons_ne_nil _ _

theorem labels_eq_nil_iff : labels t = [[]] ↔ t = [] := by
  rcases last_dot t with h | ⟨front, last, hlast, rfl⟩
  · rw [labels_plain h, List.cons.injEq, and_iff_left rfl]
  · rw [labels_dot hlast, List.cons.injEq]
    refine iff_of_false (fun h => labels_ne_nil front h.2) ?_
    exact List.append_ne_nil_of_right_ne_nil _ (List.cons_ne_nil _ _)

/-- The last label is empty where the text is, or ends with a dot. -/
theorem labels_head_iff : (labels t).head? = some [] ↔ AtDot t.reverse := by
  rcases last_dot t with h | ⟨front, last, hlast, rfl⟩
  · rw [labels_plain h, List.head?_cons, Option.some_inj, AtDot, List.reverse_eq_nil_iff]
    refine ⟨Or.inl, fun h' => h'.resolve_right fun hdot => h ?_⟩
    exact List.mem_reverse.mp (List.mem_of_head? hdot)
  · rw [labels_dot hlast, List.head?_cons, Option.some_inj, AtDot]
    constructor
    · rintro rfl
      refine Or.inr ?_
      rw [List.reverse_append]
      rfl
    · rintro (h | h)
      · cases (List.append_eq_nil_iff.mp (List.reverse_eq_nil_iff.mp h)).2
      · cases hl : last.reverse with
        | nil => exact List.reverse_eq_nil_iff.mp hl
        | cons c l =>
          rw [List.reverse_append, List.reverse_cons, hl] at h
          cases h
          exact absurd (List.mem_reverse.mp (by rw [hl]; exact List.mem_cons_self)) hlast

theorem sameText_iff {a b : Bytes} :
    SameText a b ↔ a.reverse.map tolower = b.reverse.map tolower := by
  rw [SameText, List.map_reverse, List.map_reverse, List.reverse_inj]

theorem not_mem_reverse (h : 46 ∉ t) : 46 ∉ t.reverse := fun hmem => h (List.mem_reverse.mp hmem)

theorem reverse_dot (front last : Bytes) :
    (front ++ 46 :: last).reverse = last.reverse ++ 46 :: front.reverse := by
  rw [List.reverse_append, List.reverse_cons, List.append_assoc]
  rfl

theorem atDot_cons (t : Bytes) : AtDot (46 :: t) := Or.inr rfl

section Second

variable {a b c d as bs : Bytes} {ls ms : List Bytes} (hb : 46 ∉ b) (hd : 46 ∉ d)

include hb hd

theorem walk_second_other (hne : ¬ SameText b d) (has : AtDot as) (hbs : AtDot bs) :
    ¬ 2 ≤ walk (b.reverse ++ as) (d.reverse ++ bs) true 1 := by
  have hmap : b.reverse.map tolower ≠ d.reverse.map tolower := fun h => hne (sameText_iff.mpr h)
  rw [walk_other (not_mem_reverse hb) (not_mem_reverse hd) hmap has hbs]
  decide

/-- The second label is passed at the start of a text, if it is not empty. -/
theorem walk_second_last (has : AtDot as) (hbs : AtDot bs) (hend : as = [] ∨ bs = [])
    (hlabels : ls = [] ∨ ms = []) :
    SameText a c ∧ 2 ≤ walk (b.reverse ++ as) (d.reverse ++ bs) true 1 ↔
      SharesTwo (a :: b :: ls) (c :: d :: ms) := by
  rw [SharesTwo]
  by_cases hsame : SameText b d
  swap
  · refine iff_of_false (fun h => walk_second_other hb hd hsame has hbs h.2) fun h => hsame h.2.1
  have hmap := sameText_iff.mp hsame
  have hrest : ls ≠ [] → ms ≠ [] →
      (ls = [[]] → ms.head? = some []) ∧ (ms = [[]] → ls.head? = some []) := fun hl hm =>
    absurd hlabels (not_or.mpr ⟨hl, hm⟩)
  have hwalk : 2 ≤ walk (b.reverse ++ as) (d.reverse ++ bs) true 1 ↔ b ≠ [] := by
    rw [walk_last (not_mem_reverse hb) hmap has hbs hend]
    by_cases hempty : b = []
    · subst hempty
      exact iff_of_false (by decide) (by simp)
    · have hrev : b.reverse ≠ [] := fun h => hempty (List.reverse_eq_nil_iff.mp h)
      rw [if_pos ⟨hrev, rfl⟩]
      exact iff_of_true (Nat.le_refl _) hempty
  rw [hwalk]
  constructor
  · intro h
    exact ⟨h.1, hsame, fun _ => h.2, hrest⟩
  · intro h
    exact ⟨h.1, h.2.2.1 hlabels⟩

/-- The second label is passed at a dot, if no text ends there alone. -/
theorem walk_second_dot (f f' : Bytes) :
    SameText a c ∧ 2 ≤ walk (b.reverse ++ 46 :: f.reverse) (d.reverse ++ 46 :: f'.reverse) true 1 ↔
      SharesTwo (a :: b :: labels f) (c :: d :: labels f') := by
  rw [SharesTwo]
  by_cases hsame : SameText b d
  swap
  · refine iff_of_false (fun h => ?_) fun h => hsame h.2.1
    exact walk_second_other hb hd hsame (atDot_cons _) (atDot_cons _) h.2
  have hwalk : 2 ≤ walk (b.reverse ++ 46 :: f.reverse) (d.reverse ++ 46 :: f'.reverse) true 1 ↔
      (f = [] → AtDot f'.reverse) ∧ (f' = [] → AtDot f.reverse) := by
    rw [walk_dot (not_mem_reverse hb) (sameText_iff.mp hsame)]
    split
    · next h =>
      refine iff_of_false (by decide) fun h' => ?_
      rcases h with h | h | h
      · exact h.2 (h'.1 (List.reverse_eq_nil_iff.mp h.1))
      · exact h.2 (h'.2 (List.reverse_eq_nil_iff.mp h.1))
      · cases h
    · next h =>
      refine iff_of_true (le_walk _ _ _ 2) ⟨fun hf => ?_, fun hf => ?_⟩
      · by_contra hno
        exact h (Or.inl ⟨List.reverse_eq_nil_iff.mpr hf, hno⟩)
      · by_contra hno
        exact h (Or.inr (Or.inl ⟨List.reverse_eq_nil_iff.mpr hf, hno⟩))
  rw [hwalk, labels_eq_nil_iff, labels_eq_nil_iff, labels_head_iff, labels_head_iff]
  have hne : ¬ (labels f = [] ∨ labels f' = []) := not_or.mpr ⟨labels_ne_nil f, labels_ne_nil f'⟩
  constructor
  · intro h
    exact ⟨h.1, hsame, fun h' => absurd h' hne, fun _ _ => h.2⟩
  · intro h
    exact ⟨h.1, h.2.2.2 (labels_ne_nil f) (labels_ne_nil f')⟩

end Second

/-- The second label is passed exactly where the loop takes two for shared. -/
theorem walk_second (a c t t' : Bytes) :
    SameText a c ∧ 2 ≤ walk t.reverse t'.reverse true 1 ↔
      SharesTwo (a :: labels t) (c :: labels t') := by
  rcases last_dot t with h | ⟨f, b, hb, rfl⟩
  · rcases last_dot t' with h' | ⟨f', d, hd, rfl⟩
    · have hlast := @walk_second_last a t c t' [] [] [] [] h h' (Or.inl rfl) (Or.inl rfl)
        (Or.inl rfl) (Or.inl rfl)
      rw [List.append_nil, List.append_nil] at hlast
      rw [labels_plain h, labels_plain h', hlast]
    · have hlast := @walk_second_last a t c d [] (46 :: f'.reverse) [] (labels f') h hd (Or.inl rfl)
        (atDot_cons _) (Or.inl rfl) (Or.inl rfl)
      rw [List.append_nil] at hlast
      rw [labels_plain h, labels_dot hd, reverse_dot, hlast]
  · rcases last_dot t' with h' | ⟨f', d, hd, rfl⟩
    · have hlast := @walk_second_last a b c t' (46 :: f.reverse) [] (labels f) [] hb h'
        (atDot_cons _) (Or.inl rfl) (Or.inr rfl) (Or.inr rfl)
      rw [List.append_nil] at hlast
      rw [labels_dot hb, labels_plain h', reverse_dot, hlast]
    · rw [labels_dot hb, labels_dot hd, reverse_dot, reverse_dot, walk_second_dot hb hd]

/-- The walk passes one label at most where a text has no dot. -/
theorem walk_one {u v as bs : Bytes} {same : Bool} (hu : 46 ∉ u) (hv : 46 ∉ v) (has : AtDot as)
    (hbs : AtDot bs) (hend : as = [] ∨ bs = []) : ¬ 2 ≤ walk (u ++ as) (v ++ bs) same 0 := by
  by_cases hsame : u.map tolower = v.map tolower
  · rw [walk_last hu hsame has hbs hend]
    split
    · decide
    · decide
  · rw [walk_other hu hv hsame has hbs]
    decide

theorem not_sharesTwo_single (a : Bytes) (l : List Bytes) :
    ¬ SharesTwo [a] l ∧ ¬ SharesTwo l [a] := by
  constructor
  · exact fun h => h
  · intro h
    rcases l with - | ⟨b, - | ⟨c, l⟩⟩
    · exact h
    · exact h
    · exact h

/-- Two labels are passed exactly where the loop takes two for shared. -/
theorem walk_two (t t' : Bytes) (same : Bool) :
    2 ≤ walk t.reverse t'.reverse same 0 ↔ same = true ∧ SharesTwo (labels t) (labels t') := by
  -- a text without a dot has one label only
  rcases last_dot t with h | ⟨f, a, ha, rfl⟩
  · rw [labels_plain h]
    refine iff_of_false ?_ fun hs => (not_sharesTwo_single t _).1 hs.2
    rcases last_dot t' with h' | ⟨f', c, hc, rfl⟩
    · have hone := @walk_one _ _ [] [] same (not_mem_reverse h) (not_mem_reverse h') (Or.inl rfl)
        (Or.inl rfl) (Or.inl rfl)
      rwa [List.append_nil, List.append_nil] at hone
    · have hone := @walk_one _ _ [] (46 :: f'.reverse) same (not_mem_reverse h) (not_mem_reverse hc)
        (Or.inl rfl) (atDot_cons _) (Or.inl rfl)
      rwa [List.append_nil, ← reverse_dot] at hone
  rcases last_dot t' with h' | ⟨f', c, hc, rfl⟩
  · rw [labels_plain h']
    refine iff_of_false ?_ fun hs => (not_sharesTwo_single t' _).2 hs.2
    have hone := @walk_one _ _ (46 :: f.reverse) [] same (not_mem_reverse ha) (not_mem_reverse h')
      (atDot_cons _) (Or.inl rfl) (Or.inr rfl)
    rwa [List.append_nil, ← reverse_dot] at hone
  rw [labels_dot ha, labels_dot hc, ← walk_second, reverse_dot, reverse_dot]
  -- both have a last label; where these differ the walk ends
  by_cases hsame : SameText a c
  swap
  · have hmap : a.reverse.map tolower ≠ c.reverse.map tolower := fun h =>
      hsame (sameText_iff.mpr h)
    rw [walk_other (not_mem_reverse ha) (not_mem_reverse hc) hmap (atDot_cons _) (atDot_cons _)]
    exact iff_of_false (by decide) fun h => hsame h.2.1
  rw [walk_dot (not_mem_reverse ha) (sameText_iff.mp hsame), and_iff_right hsame]
  split
  · next hstop =>
    refine iff_of_false (by decide) fun h => ?_
    rcases hstop with hstop | hstop | hstop
    · rw [hstop.1, walk_nil_left] at h
      exact absurd h.2 (by decide)
    · rw [hstop.1, walk_nil_right] at h
      exact absurd h.2 (by decide)
    · rw [hstop] at h
      cases h.1
  · next hstop =>
    have htrue : same = true := by
      cases same with
      | false => exact absurd (Or.inr (Or.inr rfl)) hstop
      | true => rfl
    exact (and_iff_right htrue).symm

end Labels

/-! ## Requests -/

section Requests

variable {rules : Rules} {r : HotlinkRequest}

/-- In a buffer with a NUL a search comes to an end. -/
theorem searchLoop_some {string search : Bytes} (hstring : 0 ∈ string) (hsearch : 0 ∉ search)
    (turns p : Nat) :
    ∃ n, searchLoop Sensitivity.strInsensitive.key search turns string p = some n := by
  induction turns generalizing string p with
  | zero => exact ⟨-1, rfl⟩
  | succ turns ih =>
    have hnul : Sensitivity.strInsensitive.key 0 ∉ search.map Sensitivity.strInsensitive.key :=
      key_zero_not_mem hsearch
    have hout : ¬ string.map Sensitivity.strInsensitive.key <+:
        search.map Sensitivity.strInsensitive.key := fun h =>
      hnul (h.subset (List.mem_map_of_mem hstring))
    rw [searchLoop, matchHere_eq, if_neg hout]
    by_cases hhere : search.map Sensitivity.strInsensitive.key <+:
        string.map Sensitivity.strInsensitive.key
    · rw [if_pos hhere]
      exact ⟨p, rfl⟩
    · rw [if_neg hhere]
      dsimp only
      split
      · exact ⟨-1, rfl⟩
      · next hstop =>
        -- the NUL is still to come
        rw [not_or] at hstop
        refine ih ?_ (p + 1)
        cases string with
        | nil => cases hstring
        | cons c string => exact (List.mem_cons.mp hstring).resolve_left (Ne.symm hstop.2)

theorem mkStringSearchN_some {string search : Bytes} (hstring : 0 ∈ string) (hsearch : 0 ∉ search)
    (len : Int) : ∃ n, mkStringSearchN string search .strInsensitive len = some n := by
  rw [mkStringSearchN, mkStringSearchBase]
  split
  · split
    · exact ⟨_, rfl⟩
    · exact ⟨_, rfl⟩
  · exact searchLoop_some hstring hsearch _ _

/-- What one rule gives. -/
theorem position_spec {url : Slice} {criteria : Bytes} (hurl : 0 ∈ url.text ++ url.behind)
    (hcriteria : 0 ∉ criteria) : ∃ n, mkStringSearchN (url.text ++ url.behind) criteria
        .strInsensitive (toInt32 url.text.length) = some n ∧
      ((n < 0 ∧ position url criteria = none) ∨
        ∃ p : Nat, n = p ∧ position url criteria = some p) := by
  rcases mkStringSearchN_some hurl hcriteria (toInt32 url.text.length) with ⟨n, hn⟩
  refine ⟨n, hn, ?_⟩
  rw [position, hn, Option.bind_some]
  cases n with
  | ofNat p => exact Or.inr ⟨p, rfl, rfl⟩
  | negSucc p => exact Or.inl ⟨Int.negSucc_lt_zero p, rfl⟩

/-- The loop over the rules ends with the first that fires. -/
theorem searchRules_spec {url : Slice} (hurl : 0 ∈ url.text ++ url.behind) {list : List Bytes}
    (hlist : ∀ criteria ∈ list, 0 ∉ criteria) {i : Int} (hi : list = [] → i < 0) :
    ∃ n, searchRules url i list = some n ∧
      ((n < 0 ∧ list.findSome? (position url) = none) ∨
        ∃ p : Nat, n = p ∧ list.findSome? (position url) = some p) := by
  induction list generalizing i with
  | nil => exact ⟨i, rfl, Or.inl ⟨hi rfl, rfl⟩⟩
  | cons criteria list ih =>
    rw [List.forall_mem_cons] at hlist
    rcases position_spec hurl hlist.1 with ⟨n, hn, hcase⟩
    rw [searchRules, hn, Option.bind_eq_bind, Option.bind_some, List.findSome?_cons]
    rcases hcase with ⟨hneg, hpos⟩ | ⟨p, rfl, hpos⟩
    · rw [if_neg (by omega), hpos]
      exact ih hlist.2 fun _ => hneg
    · rw [if_pos (Int.natCast_nonneg p), hpos]
      exact ⟨p, rfl, Or.inr ⟨p, rfl, rfl⟩⟩

theorem rulePosition_spec {url : Slice} (hurl : 0 ∈ url.text ++ url.behind) (rules : Rules) :
    ∃ n, searchRules url 0 rules.secureUrl = some n ∧
      ((n < 0 ∧ rulePosition rules url = none) ∨
        ∃ p : Nat, n = p ∧ rulePosition rules url = some p) := by
  rw [rulePosition]
  by_cases hrules : rules.secureUrl = []
  · rw [if_pos hrules, hrules]
    exact ⟨0, rfl, Or.inr ⟨0, rfl, rfl⟩⟩
  · rw [if_neg hrules]
    exact searchRules_spec hurl rules.noNul fun h => absurd h hrules

/-- The code finds an authority where there is one. -/
theorem slashesAt_iff {behind : Bytes} (hbehind : behind.head? = some 13) (val : Bytes) :
    slashesAt behind val = val.length ↔ afterSlashes val = none := by
  induction val with
  | nil => exact iff_of_true rfl rfl
  | cons c cs ih =>
    have hnext : cstr (cs ++ behind) 0 = 47 ↔ cs.head? = some 47 := by
      cases cs with
      | nil =>
        cases behind with
        | nil => cases hbehind
        | cons d behind =>
          cases hbehind
          have hcr : ¬ (13 : UInt8) = 47 := by decide
          exact iff_of_false hcr (by decide)
      | cons d cs =>
        rw [List.head?_cons, Option.some_inj]
        exact Iff.rfl
    rw [slashesAt, afterSlashes]
    by_cases hslash : c = 47 ∧ cs.head? = some 47
    · rw [if_pos hslash, if_pos ⟨hslash.1, hnext.mpr hslash.2⟩]
      exact iff_of_false (Nat.succ_ne_zero _).symm (by simp)
    · rw [if_neg hslash, if_neg fun h => hslash ⟨h.1, hnext.mp h.2⟩, List.length_cons,
        Nat.add_right_cancel_iff]
      exact ih

theorem parseRefererHost_none_iff {val : Slice} (hbehind : val.behind.head? = some 13) :
    parseRefererHost val = none ↔ authorityHost val.text = none := by
  rw [authorityHost, Option.map_eq_none_iff, ← slashesAt_iff hbehind, parseRefererHost]
  dsimp only
  split
  · next h => exact iff_of_true rfl h
  · next h => exact iff_of_false (by simp) h

/-- The loop lets a request pass where it finds two labels shared, and the bytes behind. -/
theorem labelLoop_two {host refHost : Slice} (hhost : 0 ∉ host.text) (i : Nat) :
    2 ≤ labelLoop (cstr (host.text ++ host.behind)) (cstr (refHost.text ++ refHost.behind))
        host.text.length refHost.text.length i 0 ↔
      AlikeBehind host refHost i ∧ SharesTwo (labels host.text) (labels refHost.text) := by
  have hbehind : ∀ s : Slice, (fun n => cstr (s.text ++ s.behind) (s.text.length + n)) =
      cstr s.behind := by
    intro s
    funext n
    rw [cstr, List.getD_append_right _ _ _ _ (Nat.le_add_right _ _), Nat.add_sub_cancel_left]
    rfl
  rw [labelLoop_eq hhost (Nat.le_refl _) (Nat.le_refl _), List.take_length, List.take_length,
    hbehind, hbehind, walk_two]
  rfl

/-- What the code decides about a referer with a host. -/
theorem check_spec {refHost : Slice} (hparse : parseRefererHost r.referer = some refHost) :
    ∃ ret, mkSecurityCheckHotlink rules r.url (some r.host) r.referer = some ret ∧
      (ret < 0 ↔ ¬ r.Passes rules refHost) := by
  rcases rulePosition_spec r.url_terminated rules with ⟨n, hn, hcase⟩
  rw [mkSecurityCheckHotlink, hparse]
  dsimp only
  rw [hn, Option.bind_eq_bind, Option.bind_some, HotlinkRequest.Passes]
  rcases hcase with ⟨hneg, hposition⟩ | ⟨p, rfl, hposition⟩
  · rw [if_pos hneg, hposition]
    refine ⟨0, rfl, iff_of_false (by decide) fun h => h fun p hp => ?_⟩
    cases hp
  · have hpos : ¬ (p : Int) < 0 := by omega
    have hloop := @labelLoop_two r.host refHost r.host_text p
    have hpasses : (∀ q, some p = some q →
        AlikeBehind r.host refHost q ∧ SharesTwo (labels r.host.text) (labels refHost.text)) ↔
        2 ≤ labelLoop (cstr (r.host.text ++ r.host.behind)) (cstr (refHost.text ++ refHost.behind))
          r.host.text.length refHost.text.length p 0 := by
      rw [hloop]
      constructor
      · exact fun h => h p rfl
      · intro h q hq
        cases hq
        exact h
    rw [if_neg hpos, Int.toNat_natCast, hposition, hpasses]
    split
    · next h => exact ⟨0, rfl, iff_of_false (by decide) fun hno => hno h⟩
    · next h => exact ⟨-1, rfl, iff_of_true (by decide) h⟩

/-- The check does what is expected of it exactly where the rules about URLs and the labels it
goes by agree with the rules against hotlinks and the labels of the hosts. -/
theorem hotlink_iff (r : HotlinkRequest) (rules : Rules) : r.Checked rules ↔ r.Agrees rules := by
  have hnone := parseRefererHost_none_iff r.referer_end
  rw [HotlinkRequest.Checked, HotlinkRequest.Agrees]
  cases hparse : parseRefererHost r.referer with
  | none =>
    rw [mkSecurityCheckHotlink, hparse, hnone.mp hparse]
    refine iff_of_true ⟨0, rfl, iff_of_false (by decide) ?_⟩ fun _ _ h => by cases h
    rintro ⟨refHost, h, -⟩
    cases h
  | some slice =>
    cases hauthority : authorityHost r.referer.text with
    | none =>
      rw [hnone.mpr hauthority] at hparse
      cases hparse
    | some refHost =>
      rcases @check_spec rules r slice hparse with ⟨ret, hret, hiff⟩
      have hblocked : (∃ refHost', some refHost = some refHost' ∧ r.Protected rules ∧
          sharedLabels (labels r.host.text) (labels refHost') < 2) ↔ ¬ r.Allowed rules refHost := by
        rw [HotlinkRequest.Allowed, not_or, not_not, Nat.not_le]
        constructor
        · rintro ⟨refHost', h, hp⟩
          cases h
          exact hp
        · exact fun h => ⟨refHost, rfl, h⟩
      rw [hblocked]
      constructor
      · rintro ⟨ret', hret', hiff'⟩ refHost' slice' h h'
        cases h
        cases h'
        rw [hret] at hret'
        cases hret'
        exact not_iff_not.mp (hiff.symm.trans hiff')
      · intro h
        exact ⟨ret, hret, hiff.trans (not_congr (h refHost slice rfl rfl))⟩

/-! ## Plain referers -/

/-- A rule about URLs is found where one fires. -/
theorem rulePosition_eq_none_iff {url : Slice} :
    rulePosition rules url = none ↔ ¬ rules.Fires url := by
  rw [rulePosition, Rules.Fires]
  by_cases hrules : rules.secureUrl = []
  · rw [if_pos hrules]
    exact iff_of_false (by simp) (not_not.mpr (Or.inl hrules))
  · rw [if_neg hrules, List.findSome?_eq_none_iff, or_iff_right hrules]
    exact ⟨fun h ⟨c, hc, hno⟩ => hno (h c hc), fun h c hc => not_not.mp fun hno => h ⟨c, hc, hno⟩⟩

theorem SharesTwo.two_le {as bs : List Bytes} (h : SharesTwo as bs) : 2 ≤ sharedLabels as bs := by
  rcases as with - | ⟨a, - | ⟨b, as⟩⟩
  · exact h.elim
  · exact absurd h (not_sharesTwo_single a _).1
  · rcases bs with - | ⟨c, - | ⟨d, cs⟩⟩
    · exact h.elim
    · exact h.elim
    · rw [SharesTwo] at h
      rw [sharedLabels, if_pos h.1, sharedLabels, if_pos h.2.1]
      omega

/-- An authority with the only `@` begins with the user that stands in front of it. -/
theorem behindUser_takeWhile {rest : Bytes} {p : UInt8 → Bool}
    (h : 64 ∈ rest → 64 ∈ rest.takeWhile p) :
    ∃ user, rest = user ++ behindUser rest ∧
      rest.takeWhile p = user ++ (behindUser rest).takeWhile p ∧
      behindUser (rest.takeWhile p) = (behindUser rest).takeWhile p ∧
      user.length =
        if 64 ∈ rest then (rest.takeWhile (· ≠ 64)).length + 1 else 0 := by
  by_cases hat : 64 ∈ rest
  swap
  · have hauthority : 64 ∉ rest.takeWhile p := fun hmem => hat (List.takeWhile_subset p hmem)
    rw [behindUser, behindUser, if_neg hat, if_neg hauthority, if_neg hat]
    exact ⟨[], rfl, rfl, rfl, rfl⟩
  · have hauthority := h hat
    rw [behindUser, behindUser, if_pos hat, if_pos hauthority, if_pos hat]
    clear h
    induction rest with
    | nil => cases hat
    | cons c rest ih =>
      have hc : p c = true := by
        by_contra hno
        rw [List.takeWhile_cons_of_neg hno] at hauthority
        cases hauthority
      rw [List.takeWhile_cons_of_pos hc] at hauthority ⊢
      by_cases hhere : c = 64
      · subst hhere
        exact ⟨[64], rfl, rfl, rfl, rfl⟩
      · -- the user goes on
        have hnext : 64 ∈ rest.takeWhile p :=
          (List.mem_cons.mp hauthority).resolve_left (Ne.symm hhere)
        have hdrop : ∀ t : Bytes, (c :: t).dropWhile (· ≠ 64) = t.dropWhile (· ≠ 64) := fun t =>
          List.dropWhile_cons_of_pos (decide_eq_true hhere)
        have htake : (c :: rest).takeWhile (· ≠ 64) = c :: rest.takeWhile (· ≠ 64) :=
          List.takeWhile_cons_of_pos (decide_eq_true hhere)
        rcases ih (List.takeWhile_subset p hnext) hnext with ⟨user, hrest, hwhile, hbehind, hlen⟩
        refine ⟨c :: user, ?_, ?_, ?_, ?_⟩
        · rw [hdrop, List.cons_append, ← hrest]
        · rw [hdrop, List.cons_append, ← hwhile]
        · rw [hdrop, hdrop, hbehind]
        · rw [htake, List.length_cons, List.length_cons, hlen]

/-- The code is at the slashes that the authority stands behind. -/
theorem drop_slashesAt {behind val rest : Bytes} (hrest : afterSlashes val = some rest) :
    val.drop (slashesAt behind val) = 47 :: 47 :: rest := by
  induction val with
  | nil => cases hrest
  | cons c cs ih =>
    rw [afterSlashes] at hrest
    rw [slashesAt]
    by_cases hhere : c = 47 ∧ cs.head? = some 47
    · rw [if_pos hhere] at hrest
      rcases hhere with ⟨rfl, hnext⟩
      cases cs with
      | nil => cases hnext
      | cons d cs =>
        cases hnext
        cases hrest
        rw [if_pos ⟨rfl, rfl⟩, List.drop_zero]
        rfl
    · rw [if_neg hhere] at hrest
      rw [if_neg, List.drop_succ_cons, ih hrest]
      rintro ⟨hc, hnext⟩
      cases cs with
      | nil => cases hrest
      | cons d cs => exact hhere ⟨hc, congrArg some hnext⟩

/-- A host without a `?` ends where the authority does, or in front of it. -/
theorem takeWhile_host {t : Bytes} (h : 63 ∉ t.takeWhile fun c => c ≠ 58 ∧ c ≠ 47) :
    (t.takeWhile fun c => c ≠ 58 ∧ c ≠ 47) =
      (t.takeWhile fun c => c ≠ 47 ∧ c ≠ 63).takeWhile (· ≠ 58) := by
  have hself : ∀ c ∈ t.takeWhile fun c => c ≠ 58 ∧ c ≠ 47, decide (c ≠ 63) = true := fun c hc =>
    decide_eq_true fun heq => h (heq ▸ hc)
  rw [← List.takeWhile_eq_self_iff.mpr hself, List.takeWhile_takeWhile, List.takeWhile_takeWhile]
  congr 1
  funext c
  simp only [decide_eq_true_eq, decide_eq_decide]
  tauto

/-- Where the code begins the host: behind the slashes and any user. -/
theorem beginHost_eq {text rest user : Bytes} {i : Nat} (hdrop : text.drop i = 47 :: 47 :: rest)
    (hlen : user.length = if 64 ∈ rest then (rest.takeWhile (· ≠ 64)).length + 1 else 0)
    (hle : user.length ≤ rest.length) :
    (if i + ((text.drop i).takeWhile (· ≠ 64)).length < text.length then
        i + ((text.drop i).takeWhile (· ≠ 64)).length + 1
      else i + 2) = i + (2 + user.length) := by
  have hlength := congrArg List.length hdrop
  rw [List.length_drop, List.length_cons, List.length_cons] at hlength
  have hslashes : ((47 :: 47 :: rest).takeWhile (· ≠ (64 : UInt8))).length =
      2 + (rest.takeWhile (· ≠ 64)).length := by
    rw [List.takeWhile_cons_of_pos (by decide), List.takeWhile_cons_of_pos (by decide),
      List.length_cons, List.length_cons]
    omega
  rw [hdrop, hslashes]
  by_cases hmem : 64 ∈ rest
  · rw [if_pos hmem] at hlen
    rw [if_pos (by omega)]
    omega
  · -- the search for a user ends with the text
    rw [if_neg hmem] at hlen
    have hall : rest.takeWhile (· ≠ 64) = rest :=
      List.takeWhile_eq_self_iff.mpr fun c hc => decide_eq_true fun heq => hmem (heq ▸ hc)
    rw [hall, if_neg (by omega)]
    omega

/-- In a plain referer the code finds the host of the authority. -/
theorem Slice.Plain.parse {val : Slice} (h : val.Plain) (hbehind : val.behind.head? = some 13) :
    parseRefererHost val = authoritySlice val := by
  cases hrest : afterSlashes val.text with
  | none =>
    have hnone : authorityHost val.text = none := by
      rw [authorityHost, hrest]
      rfl
    rw [authoritySlice, hrest, (parseRefererHost_none_iff hbehind).mpr hnone]
    rfl
  | some rest =>
    rcases h rest hrest with ⟨hat, hquery⟩
    rcases behindUser_takeWhile hat with ⟨user, hsplit, hwhile, huser, hlen⟩
    have hdrop := @drop_slashesAt val.behind _ _ hrest
    have hle : user.length ≤ rest.length := by
      rw [hsplit, List.length_append]
      exact Nat.le_add_right _ _
    have hplace : val.text.drop (slashesAt val.behind val.text + (2 + user.length)) =
        behindUser rest := by
      rw [← List.drop_drop, hdrop, ← List.drop_drop]
      conv_lhs => rw [hsplit]
      exact List.drop_left
    have hlt : slashesAt val.behind val.text < val.text.length := by
      by_contra hno
      rw [List.drop_eq_nil_of_le (Nat.le_of_not_lt hno)] at hdrop
      cases hdrop
    have hpast : ∀ n, (val.text ++ val.behind).drop
          (slashesAt val.behind val.text + (2 + user.length) + n) =
        (rest ++ val.behind).drop (user.length + n) := by
      intro n
      rw [Nat.add_assoc, ← List.drop_drop, List.drop_append_of_le_length (Nat.le_of_lt hlt), hdrop,
        Nat.add_assoc, ← List.drop_drop]
      rfl
    have husers : (rest.takeWhile fun c => c ≠ 47 ∧ c ≠ 63).length -
        (behindUser (rest.takeWhile fun c => c ≠ 47 ∧ c ≠ 63)).length = user.length := by
      rw [huser, hwhile, List.length_append, Nat.add_sub_cancel_right]
    rw [parseRefererHost, authoritySlice, hrest]
    dsimp only [Option.map_some]
    rw [if_neg (Nat.ne_of_lt hlt), beginHost_eq hdrop hlen hle, hplace, hpast, husers, huser,
      ← takeWhile_host hquery]

/-- The slice holds the host of the authority. -/
theorem authoritySlice_text (val : Slice) :
    (authoritySlice val).map Slice.text = authorityHost val.text := by
  rw [authoritySlice, authorityHost, Option.map_map]
  rfl

/-- A foreign referer passes where no rule about URLs fires. -/
theorem passes_iff_of_foreign {refHost : Slice} (h : Foreign r.host.text refHost.text) :
    r.Passes rules refHost ↔ ¬ rules.Fires r.url := by
  rw [← rulePosition_eq_none_iff, HotlinkRequest.Passes]
  constructor
  · intro hpasses
    by_contra hfires
    rcases Option.ne_none_iff_exists'.mp hfires with ⟨p, hp⟩
    exact absurd (hpasses p hp).2.two_le (Nat.not_le.mpr h)
  · intro hnone p hp
    rw [hnone] at hp
    cases hp

/-- A foreign referer is to pass where the URI is not protected, any other one always. -/
theorem passes_iff_allowed {refHost : Slice} :
    (r.Passes rules refHost ↔ r.Allowed rules refHost.text) ↔
      (Foreign r.host.text refHost.text → (r.Protected rules ↔ rules.Fires r.url)) ∧
        (¬ Foreign r.host.text refHost.text → r.Passes rules refHost) := by
  rw [HotlinkRequest.Allowed, ← Nat.not_lt, ← Foreign]
  by_cases hforeign : Foreign r.host.text refHost.text
  · rw [passes_iff_of_foreign hforeign, or_iff_left (not_not.mpr hforeign), not_iff_not]
    exact ⟨fun h => ⟨fun _ => h.symm, fun hno => absurd hforeign hno⟩, fun h => (h.1 hforeign).symm⟩
  · exact ⟨fun h => ⟨fun hyes => absurd hyes hforeign, fun hno => h.mpr (Or.inr hno)⟩,
      fun h => iff_of_true (h.2 hforeign) (Or.inr hforeign)⟩

theorem agrees_of_careful (h : r.Careful rules) : r.Agrees rules := by
  intro refHost slice hauthority hparse
  rw [← authoritySlice_text] at hauthority
  rcases Option.map_eq_some_iff.mp hauthority with ⟨place, hplace, rfl⟩
  rcases h place hplace with ⟨hplain, hforeign, hsame⟩
  by_cases hfires : rules.Fires r.url
  · rw [(hplain hfires).parse r.referer_end, hplace] at hparse
    cases hparse
    exact passes_iff_allowed.mpr ⟨hforeign, hsame⟩
  · -- whatever host the code reads in the referer, the request passes
    have hnone := rulePosition_eq_none_iff.mpr hfires
    refine iff_of_true (fun p hp => ?_) ?_
    · rw [hnone] at hp
      cases hp
    · by_cases hlabels : Foreign r.host.text place.text
      · exact Or.inl fun hprotected => hfires ((hforeign hlabels).mp hprotected)
      · exact Or.inr (Nat.not_lt.mp hlabels)

/-- With a plain referer only careful requests are checked as expected. -/
theorem checked_iff_of_plain (h : r.referer.Plain) : r.Checked rules ↔ r.Careful rules := by
  rw [hotlink_iff]
  refine ⟨fun hagrees place hplace => ⟨fun _ => h, ?_⟩, agrees_of_careful⟩
  have htext := authoritySlice_text r.referer
  rw [hplace] at htext
  have hparse := (h.parse r.referer_end).trans hplace
  exact passes_iff_allowed.mp (hagrees place.text place htext.symm hparse)

/-- `/img/a.png` of `www.us.com`, linked from `evil.org`. -/
def hotlinkedImage : HotlinkRequest where
  url := ⟨bytes "/img/a.png", [0]⟩
  host := ⟨bytes "www.us.com", [13, 10, 0]⟩
  referer := ⟨bytes "http://evil.org/page", [13, 10, 0]⟩
  url_terminated := by decide
  host_text := by decide
  referer_end := rfl

/-- The same from a page of the site itself, with a user, a port and an `@` in the query. -/
def siteImage : HotlinkRequest where
  url := ⟨bytes "/img/a.png", [0]⟩
  host := ⟨bytes "www.us.com", [13, 10, 0]⟩
  referer := ⟨bytes "http://joe@img.US.com:80/list?from=a@b", [13, 10, 0]⟩
  url_terminated := by decide
  host_text := by decide
  referer_end := rfl

/-- `URL` and `deny_hotlink` are both `/img`. -/
def galleryRules : Rules where
  secureUrl := [bytes "/img"]
  denyHotlink := [bytes "/img"]
  noNul := by decide

/-- The check does what is expected of it on every careful request. -/
theorem hotlink_checked (h : r.Careful rules) : r.Checked rules :=
  (hotlink_iff r rules).mpr (agrees_of_careful h)

/-- The image is blocked for the page elsewhere, not for the site. -/
theorem hotlink_checked_gallery :
    hotlinkedImage.Checked galleryRules ∧ siteImage.Checked galleryRules ∧
      mkSecurityCheckHotlink galleryRules hotlinkedImage.url (some hotlinkedImage.host)
        hotlinkedImage.referer = some (-1) ∧
      mkSecurityCheckHotlink galleryRules siteImage.url (some siteImage.host)
        siteImage.referer = some 0 := by
  have hprotected : ∀ r : HotlinkRequest, r.url.text = bytes "/img/a.png" →
      r.Protected galleryRules := fun r h =>
    ⟨bytes "/img", List.mem_singleton.mpr rfl, 0, by rw [h]; decide⟩
  refine ⟨hotlink_checked fun refHost h => ?_, hotlink_checked fun refHost h => ?_, by decide,
    by decide⟩
  · have hplace : authoritySlice hotlinkedImage.referer =
        some ⟨bytes "evil.org", bytes "/page" ++ [13, 10, 0]⟩ := by decide
    rw [hplace] at h
    cases h
    exact ⟨fun _ => by decide, fun _ => iff_of_true (hprotected _ rfl) (by decide),
      fun hno => absurd (by decide) hno⟩
  · have hplace : authoritySlice siteImage.referer =
        some ⟨bytes "img.US.com", bytes ":80/list?from=a@b" ++ [13, 10, 0]⟩ := by decide
    have hposition : rulePosition galleryRules siteImage.url = some 0 := by decide
    rw [hplace] at h
    cases h
    refine ⟨fun _ => by decide, fun hno => absurd hno (by decide), fun _ p hp => ?_⟩
    rw [hposition] at hp
    cases hp
    exact ⟨rfl, rfl, rfl, by decide, by decide⟩

/-- `URL` is `/secret`, `deny_hotlink` is `/img`. -/
def imageRules : Rules where
  secureUrl := [bytes "/secret"]
  denyHotlink := [bytes "/img"]
  noNul := by decide

/-- No rule about URLs fires, so the rule against hotlinks is not looked at. -/
theorem hotlink_not_blocked :
    mkSecurityCheckHotlink imageRules hotlinkedImage.url (some hotlinkedImage.host)
        hotlinkedImage.referer = some 0 ∧ ¬ hotlinkedImage.Checked imageRules := by
  have hrun : mkSecurityCheckHotlink imageRules hotlinkedImage.url (some hotlinkedImage.host)
      hotlinkedImage.referer = some 0 := by decide
  refine ⟨hrun, ?_⟩
  rintro ⟨ret, hret, hiff⟩
  have hblocked := hiff.mpr ⟨bytes "evil.org", by decide,
    ⟨bytes "/img", List.mem_singleton.mpr rfl, 0, by decide⟩, by decide⟩
  rw [hrun] at hret
  cases hret
  exact absurd hblocked (by decide)

end Requests

end SuperExe.Plugins.Mandril
