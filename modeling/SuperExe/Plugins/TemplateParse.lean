import Mathlib.Data.List.GetD
import SuperExe.Core.MkString
import SuperExe.Core.StringSearch
import SuperExe.Plugins.Listing

/-! # Parsing a template

`mk_dirhtml_template_create` looks for the next `%_` and then for a tag that
occurs within its own length from there. What it leaves unnamed is skipped byte
by byte, with the text before it. Nothing is lost exactly if every `%_` that is
met starts the tag that is found.
-/

namespace SuperExe.Plugins.Dirhtml

open SuperExe.Core SuperExe.Http SuperExe.Lib SuperExe.Stream

/-! ## The code -/

/-- `_tags_global` and `_tags_entry` -/
def Tags.names : Tags → List Bytes
  | .global => [bytes "%_html_title_%", bytes "%_theme_path_%"]
  | .entry =>
    [bytes "%_target_title_%", bytes "%_target_url_%", bytes "%_target_name_%",
      bytes "%_target_time_%", bytes "%_target_size_%"]

/-- `MK_DIRHTML_TAG_INIT` -/
def tagInit : Bytes := bytes "%_"

/-- The loop of `mk_dirhtml_theme_match_tag` from the index `i` on. `content` is
a C string without its NUL. -/
def matchTagLoop (content : Bytes) : List Bytes → Nat → Option Int
  | [], _ => some (-1)
  | tag :: tpl, i => do
    let found ← mkStringSearchN (content ++ [0]) tag .strInsensitive tag.length
    if found ≥ 0 then some (i : Int) else matchTagLoop content tpl (i + 1)

/-- `mk_dirhtml_theme_match_tag` -/
def mkDirhtmlThemeMatchTag (content : Bytes) (tags : Tags) : Option Int :=
  matchTagLoop content tags.names 0

/-- The tag for the text from an opener on: a global one or else one of an entry;
the index is -1 if there is none. -/
def findTag (content : Bytes) : Option (Tags × Int) := do
  let tplIdx ← mkDirhtmlThemeMatchTag content .global
  if tplIdx < 0 then do
    let tplIdx ← mkDirhtmlThemeMatchTag content .entry
    some (.entry, tplIdx)
  else some (.global, tplIdx)

/-- The text that is added behind the loop. -/
def lastText (content : Bytes) (i : Nat) : Option (List Template) := do
  let buf ← mkStringCopySubstr content i content.length
  some [.static buf]

/-- The loop of `mk_dirhtml_template_create` from `i` on. The nodes are given in
the order in which they are linked. -/
def templateLoop (content : Bytes) : Nat → Nat → Option (List Template)
  | 0, _ => none
  | fuel + 1, i =>
    if i < content.length then do
      let pos ← mkStringSearch (content.drop i ++ [0]) tagInit .strInsensitive
      if pos < 0 then lastText content i
      else do
        let (tpl, tplIdx) ← findTag (content.drop (i + pos.toNat))
        if tplIdx ≥ 0 then do
          let buf ← mkStringCopySubstr content i (i + pos)
          let tag ← tpl.names[tplIdx.toNat]?
          let nodes ← templateLoop content fuel (i + (pos.toNat + tag.length))
          some (.static buf :: .dynamic tpl tplIdx.toNat :: nodes)
        else templateLoop content fuel (i + 1)
    else lastText content i

/-- `mk_dirhtml_template_create`; `none` is NULL, for an empty text. -/
def mkDirhtmlTemplateCreate (content : Bytes) : Option (List Template) :=
  if content.length ≤ 0 then none else templateLoop content (content.length + 1) 0

/-! ## What the nodes say -/

/-- The literal name of a tag. -/
def tagName (tags : Tags) (tagId : Nat) : Bytes := tags.names.getD tagId []

/-- The nodes are the text: each static node its bytes, each tag node the name of
its tag in any case. -/
inductive Renders : List Template → Bytes → Prop
  | nil : Renders [] []
  | static {buf nodes rest} : Renders nodes rest → Renders (.static buf :: nodes) (buf ++ rest)
  | dynamic {tags tagId piece nodes rest} : piece.map toupper = (tagName tags tagId).map toupper →
      Renders nodes rest → Renders (.dynamic tags tagId :: nodes) (piece ++ rest)

/-- The tag occurs at an offset below its length. -/
def Near (text name : Bytes) : Prop := ∃ p < name.length, StandsAt .strInsensitive name text p

instance (text name : Bytes) : Decidable (Near text name) :=
  inferInstanceAs (Decidable (∃ p < name.length, StandsAt .strInsensitive name text p))

/-- The first tag in the order of the two tables that is near, and it is right
here. -/
structure Known (text : Bytes) (tags : Tags) (tagId : Nat) : Prop where
  isTag : tagId < tags.names.length
  starts : StandsAt .strInsensitive (tagName tags tagId) text 0
  global : tags = .entry → ∀ name ∈ Tags.global.names, ¬ Near text name
  first : ∀ i < tagId, ¬ Near text (tagName tags i)

/-- From tag to tag the next `%_` is always the start of the tag that is found
there. -/
inductive Clean : Bytes → Prop
  | plain {text} : (∀ p, ¬ StandsAt .strInsensitive tagInit text p) → Clean text
  | tag {text p tags tagId} : StandsAt .strInsensitive tagInit text p →
      (∀ q < p, ¬ StandsAt .strInsensitive tagInit text q) → Known (text.drop p) tags tagId →
      Clean (text.drop (p + (tagName tags tagId).length)) → Clean text

/-! ## The search for a tag -/

section FindTag

variable {text : Bytes} {tags : Tags} {tagId : Nat}

/-- No name has a NUL in it. -/
theorem nul_not_mem_names (tags : Tags) : ∀ name ∈ tags.names, (0 : UInt8) ∉ name := by
  cases tags <;> decide

theorem mem_names (h : tagId < tags.names.length) : tagName tags tagId ∈ tags.names := by
  rw [tagName, List.getD_eq_getElem _ _ h]
  exact List.getElem_mem h

theorem tagName_ne_nil (h : tagId < tags.names.length) : 0 < (tagName tags tagId).length := by
  have hlong : ∀ name ∈ tags.names, 0 < name.length := by
    cases tags <;> decide
  exact hlong _ (mem_names h)

/-- The bounded search for one name. -/
theorem near_search (htext : 0 ∉ text) {name : Bytes} (hname : (0 : UInt8) ∉ name)
    (hpos : 0 < name.length) :
    ∃ r, mkStringSearchN (text ++ [0]) name .strInsensitive name.length = some r ∧
      (0 ≤ r ↔ Near text name) := by
  rw [mkStringSearchN, mkStringSearchBase, if_neg (by omega), Int.toNat_natCast]
  exact searchLoop_terminated hname htext name.length 0

/-- The loop finds the first name that is near. -/
theorem matchTagLoop_first (htext : 0 ∉ text) (tags : Tags) {i n : Nat}
    (hn : i + n = tags.names.length) :
    ∃ r, matchTagLoop text (tags.names.drop i) i = some r ∧
      First (fun k => k < tags.names.length ∧ Near text (tagName tags k)) i r := by
  induction n generalizing i with
  | zero =>
    rw [List.drop_eq_nil_of_le (by omega)]
    exact ⟨-1, rfl, First.none fun k hk h => by omega⟩
  | succ n ih =>
    have hi : i < tags.names.length := by omega
    have hname : tags.names[i] = tagName tags i := (List.getD_eq_getElem _ _ hi).symm
    obtain ⟨r, hr, hiff⟩ := near_search htext (nul_not_mem_names tags _ (mem_names hi))
      (tagName_ne_nil hi)
    rw [List.drop_eq_getElem_cons hi, hname, matchTagLoop, hr]
    by_cases hnear : Near text (tagName tags i)
    · exact ⟨i, if_pos (hiff.mpr hnear), First.here ⟨hi, hnear⟩⟩
    · obtain ⟨r', hr', hfirst⟩ := ih (i := i + 1) (by omega)
      exact ⟨r', (if_neg (mt hiff.mp hnear)).trans hr', First.pass (fun h => hnear h.2) hfirst⟩

theorem mkDirhtmlThemeMatchTag_first (htext : 0 ∉ text) (tags : Tags) :
    ∃ r, mkDirhtmlThemeMatchTag text tags = some r ∧
      First (fun k => k < tags.names.length ∧ Near text (tagName tags k)) 0 r :=
  matchTagLoop_first htext tags (i := 0) (Nat.zero_add _)

/-- The tag that is found for a text: the first one that is near. -/
structure Nearest (text : Bytes) (tags : Tags) (tagId : Nat) : Prop where
  isTag : tagId < tags.names.length
  near : Near text (tagName tags tagId)
  global : tags = .entry → ∀ name ∈ Tags.global.names, ¬ Near text name
  first : ∀ i < tagId, ¬ Near text (tagName tags i)

theorem exists_tagName {name : Bytes} (h : name ∈ tags.names) :
    ∃ k < tags.names.length, tagName tags k = name := by
  obtain ⟨k, hk, rfl⟩ := List.getElem_of_mem h
  exact ⟨k, hk, List.getD_eq_getElem _ _ hk⟩

theorem findTag_spec (htext : 0 ∉ text) :
    (∃ (tags : Tags) (tagId : Nat), findTag text = some (tags, (tagId : Int)) ∧
      Nearest text tags tagId) ∨
    findTag text = some (.entry, -1) ∧ ∀ tags, ∀ name ∈ Tags.names tags, ¬ Near text name := by
  obtain ⟨r, hr, hfirst⟩ := mkDirhtmlThemeMatchTag_first htext .global
  obtain ⟨r', hr', hfirst'⟩ := mkDirhtmlThemeMatchTag_first htext .entry
  have hbound : ∀ {tags : Tags} {k i : Nat},
      (∀ j, 0 ≤ j → j < k → ¬ (j < tags.names.length ∧ Near text (tagName tags j))) →
      k < tags.names.length → i < k → ¬ Near text (tagName tags i) :=
    fun hleast hk hi hnear => hleast _ (Nat.zero_le _) hi ⟨by omega, hnear⟩
  rcases hfirst with ⟨rfl, hnone⟩ | ⟨k, rfl, -, ⟨hk, hnear⟩, hleast⟩
  · have hglobal : ∀ name ∈ Tags.global.names, ¬ Near text name := by
      intro name hname hnear
      obtain ⟨k, hk, rfl⟩ := exists_tagName hname
      exact hnone k (Nat.zero_le k) ⟨hk, hnear⟩
    have hfind : findTag text = some (.entry, r') := by
      simp only [findTag, hr, hr']
      rfl
    rcases hfirst' with ⟨rfl, hnone'⟩ | ⟨k, rfl, -, ⟨hk, hnear⟩, hleast⟩
    · right
      refine ⟨hfind, fun tags name hname hnear => ?_⟩
      cases tags with
      | global => exact hglobal name hname hnear
      | entry =>
        obtain ⟨k, hk, rfl⟩ := exists_tagName hname
        exact hnone' k (Nat.zero_le k) ⟨hk, hnear⟩
    · left
      exact ⟨.entry, k, hfind, hk, hnear, fun _ => hglobal, fun i => hbound hleast hk⟩
  · left
    refine ⟨.global, k, ?_, hk, hnear, fun h => Tags.noConfusion h, fun i => hbound hleast hk⟩
    simp only [findTag, hr, Option.bind_eq_bind, Option.bind_some]
    rw [if_neg (by omega)]

/-- A tag that starts here is near. -/
theorem Known.nearest (h : Known text tags tagId) : Nearest text tags tagId :=
  ⟨h.isTag, ⟨0, tagName_ne_nil h.isTag, h.starts⟩, h.global, h.first⟩

/-- There is one first tag. -/
theorem Nearest.unique {tags' : Tags} {tagId' : Nat} (h : Nearest text tags tagId)
    (h' : Nearest text tags' tagId') : tags = tags' ∧ tagId = tagId' := by
  have hsame : tags = tags' := by
    cases tags with
    | global =>
      cases tags' with
      | global => rfl
      | entry => exact absurd h.near (h'.global rfl _ (mem_names h.isTag))
    | entry =>
      cases tags' with
      | global => exact absurd h'.near (h.global rfl _ (mem_names h'.isTag))
      | entry => rfl
  subst hsame
  have h1 : ¬ tagId < tagId' := fun hlt => h'.first tagId hlt h.near
  have h2 : ¬ tagId' < tagId := fun hlt => h.first tagId' hlt h'.near
  exact ⟨rfl, by omega⟩

end FindTag

/-! ## The nodes and the text -/

section Nodes

variable {text : Bytes} {nodes : List Template} {p : Nat}

/-- The number of bytes of the text that a node stands for. -/
def nodeLength : Template → Nat
  | .static buf => buf.length
  | .dynamic tags tagId => (tagName tags tagId).length

def nodesLength (nodes : List Template) : Nat := (nodes.map nodeLength).sum

theorem Renders.length (h : Renders nodes text) : nodesLength nodes = text.length := by
  induction h with
  | nil => rfl
  | static _ ih =>
    rw [nodesLength, List.map_cons, List.sum_cons, List.length_append, ← ih]
    rfl
  | dynamic hpiece _ ih =>
    have hlen := congrArg List.length hpiece
    rw [List.length_map, List.length_map] at hlen
    rw [nodesLength, List.map_cons, List.sum_cons, List.length_append, ← ih, hlen]
    rfl

theorem renders_static_iff {buf : Bytes} :
    Renders (.static buf :: nodes) text ↔ ∃ rest, text = buf ++ rest ∧ Renders nodes rest := by
  constructor
  · intro h
    cases h with
    | static h => exact ⟨_, rfl, h⟩
  · rintro ⟨rest, rfl, h⟩
    exact h.static

theorem renders_dynamic_iff {tags : Tags} {tagId : Nat} :
    Renders (.dynamic tags tagId :: nodes) text ↔
      StandsAt .strInsensitive (tagName tags tagId) text 0 ∧
        Renders nodes (text.drop (tagName tags tagId).length) := by
  constructor
  · intro h
    cases h with
    | @dynamic _ _ piece _ rest hpiece h =>
      have hlen := congrArg List.length hpiece
      rw [List.length_map, List.length_map] at hlen
      refine ⟨⟨Nat.zero_le _, ?_⟩, ?_⟩
      · rw [List.drop_zero, List.map_append]
        exact ⟨rest.map toupper, congrArg (· ++ rest.map toupper) hpiece.symm⟩
      · rwa [← hlen, List.drop_left]
  · rintro ⟨⟨-, hstart⟩, h⟩
    rw [← List.take_append_drop (tagName tags tagId).length text]
    refine Renders.dynamic ?_ h
    rw [List.drop_zero] at hstart
    have htake := List.prefix_iff_eq_take.mp hstart
    rw [List.length_map, ← List.map_take] at htake
    exact htake.symm

/-- A text, a tag and what follows. -/
theorem renders_tag_iff {tags : Tags} {tagId : Nat} :
    Renders (.static (text.take p) :: .dynamic tags tagId :: nodes) text ↔
      StandsAt .strInsensitive (tagName tags tagId) (text.drop p) 0 ∧
        Renders nodes (text.drop (p + (tagName tags tagId).length)) := by
  rw [renders_static_iff, ← List.drop_drop]
  constructor
  · rintro ⟨rest, hrest, h⟩
    have hdrop : rest = text.drop p := by
      conv_lhs at hrest => rw [← List.take_append_drop p text]
      exact (List.append_cancel_left hrest).symm
    rw [← hdrop]
    exact renders_dynamic_iff.mp h
  · intro h
    exact ⟨text.drop p, (List.take_append_drop p text).symm, renders_dynamic_iff.mpr h⟩

end Nodes

/-! ## The loop -/

section Loop

variable {content : Bytes}

theorem standsAt_length {name text : Bytes} {p : Nat} (h : StandsAt .strInsensitive name text p) :
    p + name.length ≤ text.length := by
  have hlen := OccursAt.add_le h
  rwa [List.length_map, List.length_map] at hlen

theorem lastText_eq {i : Nat} (hi : i ≤ content.length) :
    lastText content i = some [.static (content.drop i)] := by
  have hlen : ((content.length : Int) - (i : Int)).toNat = (content.drop i).length := by
    rw [List.length_drop]
    omega
  rw [lastText, mkStringCopySubstr, if_neg (by omega), Int.toNat_natCast, hlen, List.take_length]
  rfl

/-- A text without an opener is one static node. -/
theorem renders_last (text : Bytes) : Renders [.static text] text :=
  renders_static_iff.mpr ⟨[], (List.append_nil text).symm, .nil⟩

/-- At its first opener a clean text has a tag. -/
theorem clean_iff {text : Bytes} {p : Nat} (hopen : StandsAt .strInsensitive tagInit text p)
    (hleast : ∀ q < p, ¬ StandsAt .strInsensitive tagInit text q) :
    Clean text ↔ ∃ tags tagId, Known (text.drop p) tags tagId ∧
      Clean (text.drop (p + (tagName tags tagId).length)) := by
  constructor
  · intro h
    cases h with
    | plain hnone => exact absurd hopen (hnone p)
    | @tag _ p' tags tagId hopen' hleast' hknown hclean =>
      have h1 : ¬ p < p' := fun hlt => hleast' p hlt hopen
      have h2 : ¬ p' < p := fun hlt => hleast p' hlt hopen'
      obtain rfl : p = p' := by omega
      exact ⟨tags, tagId, hknown, hclean⟩
  · rintro ⟨tags, tagId, hknown, hclean⟩
    exact .tag hopen hleast hknown hclean

/-- The loop from `i` on: whatever it skips makes the nodes shorter than the
text. -/
theorem templateLoop_spec (hc : 0 ∉ content) {fuel i : Nat} (hi : i ≤ content.length)
    (hf : content.length - i < fuel) :
    ∃ nodes, templateLoop content fuel i = some nodes ∧ nodesLength nodes ≤ content.length - i ∧
      (Renders nodes (content.drop i) ↔ Clean (content.drop i)) := by
  induction fuel generalizing i with
  | zero => omega
  | succ fuel ih =>
    have hlast : nodesLength [.static (content.drop i)] ≤ content.length - i := by
      simp [nodesLength, nodeLength]
    have hplain : (∀ p, ¬ StandsAt .strInsensitive tagInit (content.drop i) p) →
        (Renders [.static (content.drop i)] (content.drop i) ↔ Clean (content.drop i)) :=
      fun hnone => iff_of_true (renders_last _) (.plain hnone)
    rw [templateLoop]
    -- the loop ends with the text; the rest after the last tag is one static piece
    by_cases hin : i < content.length
    · rw [if_pos hin]
      have hrest : 0 ∉ content.drop i := fun h => hc (List.mem_of_mem_drop h)
      obtain ⟨pos, hpos, hfirst⟩ := mkStringSearch_first hrest tagInit .strInsensitive
      simp only [hpos, Option.bind_eq_bind, Option.bind_some]
      -- no `%_` is left, or the first one is at `p`
      rcases hfirst with ⟨rfl, hnone⟩ | ⟨p, rfl, -, hopen, hleast⟩
      · rw [if_pos (by decide), lastText_eq hi]
        exact ⟨_, rfl, hlast, hplain fun p => hnone p (Nat.zero_le p)⟩
      · rw [if_neg (by omega), Int.toNat_natCast]
        have hdrop : (content.drop i).drop p = content.drop (i + p) := List.drop_drop
        have hrest' : 0 ∉ content.drop (i + p) := fun h => hc (List.mem_of_mem_drop h)
        have hopened := standsAt_length hopen
        rw [List.length_drop] at hopened
        rcases findTag_spec hrest' with ⟨tags, tagId, hfind, hnearest⟩ | ⟨hfind, hunknown⟩
        · -- a tag is found, here or further on
          obtain ⟨q, -, hat⟩ := hnearest.near
          have hroom := standsAt_length hat
          rw [List.length_drop] at hroom
          have hpos := tagName_ne_nil hnearest.isTag
          have htag : tags.names[tagId]? = some (tagName tags tagId) := by
            rw [List.getElem?_eq_getElem hnearest.isTag, tagName,
              List.getD_eq_getElem _ _ hnearest.isTag]
          have hbuf : mkStringCopySubstr content i (i + p) = some ((content.drop i).take p) := by
            rw [mkStringCopySubstr, if_neg (by omega), Int.toNat_natCast,
              show ((i : Int) + p - i).toNat = p by omega]
          obtain ⟨nodes, hnodes, hlen, hiff⟩ :=
            ih (i := i + (p + (tagName tags tagId).length)) (by omega) (by omega)
          simp only [hfind, Option.bind_some]
          rw [if_pos (by omega), hbuf]
          simp only [Option.bind_some, Int.toNat_natCast, htag, hnodes]
          refine ⟨_, rfl, ?_, ?_⟩
          · have htake : ((content.drop i).take p).length = p := by
              rw [List.length_take, List.length_drop]
              omega
            simp only [nodesLength, List.map_cons, List.sum_cons, nodeLength, htake] at hlen ⊢
            omega
          · rw [renders_tag_iff, clean_iff hopen fun q hq => hleast q (Nat.zero_le q) hq, hdrop,
              List.drop_drop, hiff]
            constructor
            · rintro ⟨hstart, hclean⟩
              refine ⟨tags, tagId, ⟨hnearest.isTag, hstart, hnearest.global, hnearest.first⟩, ?_⟩
              rwa [List.drop_drop]
            · rintro ⟨tags', tagId', hknown, hclean⟩
              obtain ⟨rfl, rfl⟩ := hnearest.unique hknown.nearest
              rw [List.drop_drop] at hclean
              exact ⟨hknown.starts, hclean⟩
        · -- the byte at `i` is passed over
          obtain ⟨nodes, hnodes, hlen, -⟩ := ih (i := i + 1) (by omega) (by omega)
          simp only [hfind, Option.bind_some]
          rw [if_neg (by decide)]
          refine ⟨nodes, hnodes, by omega, iff_of_false (fun h => ?_) fun h => ?_⟩
          · have hfull := h.length
            rw [List.length_drop] at hfull
            omega
          · obtain ⟨tags, tagId, hknown, -⟩ :=
              (clean_iff hopen fun q hq => hleast q (Nat.zero_le q) hq).mp h
            rw [hdrop] at hknown
            exact hunknown tags _ (mem_names hknown.isTag) hknown.nearest.near
    · rw [if_neg hin, lastText_eq hi]
      refine ⟨_, rfl, hlast, hplain fun p hat => ?_⟩
      have hlen := standsAt_length hat
      rw [List.length_drop] at hlen
      have : 0 < tagInit.length := by decide
      omega

/-- A template loses nothing exactly if its text is clean. -/
theorem templateCreate_iff (hne : content ≠ []) (hc : 0 ∉ content) :
    (∃ nodes, mkDirhtmlTemplateCreate content = some nodes ∧ Renders nodes content) ↔
      Clean content := by
  have hpos := List.length_pos_iff.mpr hne
  obtain ⟨nodes, hnodes, -, hiff⟩ :=
    templateLoop_spec hc (Nat.zero_le _) (show content.length - 0 < content.length + 1 by omega)
  rw [List.drop_zero] at hiff
  rw [mkDirhtmlTemplateCreate, if_neg (by omega), hnodes]
  simp only [Option.some_inj, exists_eq_left']
  exact hiff

/-- A cell of a row. -/
theorem templateCreate_cell :
    ∃ nodes, mkDirhtmlTemplateCreate (bytes "<td>%_target_name_%</td>") = some nodes ∧
      Renders nodes (bytes "<td>%_target_name_%</td>") := by
  refine (templateCreate_iff (by decide) (by decide)).mpr ?_
  refine @Clean.tag _ 4 .entry 2 (by decide) (by decide)
    ⟨by decide, by decide, fun _ => by decide, by decide⟩ (.plain fun p hat => ?_)
  have hlen : p + 2 ≤ 5 := standsAt_length hat
  rcases (show p = 0 ∨ p = 1 ∨ p = 2 ∨ p = 3 by omega) with rfl | rfl | rfl | rfl
  all_goals exact absurd hat (by decide)

/-- Of `a%_b` the first two bytes are lost. -/
theorem templateCreate_unknown :
    mkDirhtmlTemplateCreate (bytes "a%_b") = some [.static (bytes "_b")] ∧
    ¬ Renders [.static (bytes "_b")] (bytes "a%_b") := by
  refine ⟨by decide, fun h => ?_⟩
  exact absurd h.length (by decide)

end Loop

end SuperExe.Plugins.Dirhtml
