import SuperExe.Core.RconfText

/-! # Configurations come back

What the reader makes of each line of a text, and from this what it makes of the text: the
items that are read are those that are written only if every line adds its own.
-/

namespace SuperExe.Core.Rconf

/-! ## What a line is read as -/

section Read

variable {line : Line} {indent piece : Bytes}

def Line.readItems (indent : Bytes) (line : Line) : List Item :=
  line.pieces.filterMap (itemOf indent)

theorem accepts_nil (indent : Bytes) : Accepts indent [] ∧ itemOf indent [] = none :=
  ⟨⟨fun h => (by cases h), fun h => (by cases h)⟩, rfl⟩

theorem not_isBlank_iff {c : UInt8} : isBlank c = false ↔ c ≠ 32 ∧ c ≠ 9 := by
  rw [← not_or, ← isBlank_iff, Bool.not_eq_true]

theorem isSpace_of_isBlank {c : UInt8} (h : isBlank c = true) : isSpace c = true := by
  rcases isBlank_iff.mp h with rfl | rfl <;> decide

theorem isSpace_cr {cr : Bytes} (hcr : cr = [] ∨ cr = [13]) : ∀ c ∈ cr, isSpace c = true := by
  intro c hc
  rcases hcr with rfl | rfl
  · cases hc
  · rw [List.mem_singleton.mp hc]
    decide

/-- A piece is quiet if the reader gets past it and adds nothing. -/
theorem quiet_iff : Quiet indent piece ↔ Accepts indent piece ∧ itemOf indent piece = none := by
  rw [Quiet, Accepts]
  -- a header is never quiet
  by_cases hheader : piece.head? = some 91
  · refine ⟨fun h => absurd hheader h.1, fun h => ?_⟩
    rw [itemOf, if_pos hheader] at h
    cases h.2
  -- nothing is asked of a piece without content
  cases hcontent : isContent piece with
  | false =>
    rw [itemOf, if_neg hheader, if_pos hcontent]
    refine ⟨fun _ => ⟨⟨fun h => absurd h hheader, fun h => (by cases h)⟩, rfl⟩, fun _ => ?_⟩
    exact ⟨hheader, fun h => (by cases h)⟩
  | true =>
    have hno : (piece.head? = some 91 → 93 ∈ piece) ↔ True :=
      iff_true_intro fun h => absurd h hheader
    rw [itemOf_content hcontent, hno, true_and, Conforms]
    simp only [forall_const]
    constructor
    · intro h
      rcases h.2 with rfl | ⟨rest, rfl⟩
      · rw [List.drop_length, if_pos (Or.inl rfl)]
        exact ⟨⟨List.prefix_refl _, fun c hc => (by cases hc), Or.inl rfl⟩, rfl⟩
      · have hdrop : (indent ++ [35] ++ rest).drop indent.length = 35 :: rest := by
          rw [List.append_assoc, List.drop_left, List.singleton_append]
        have hhead : (35 :: rest).head? = some (35 : UInt8) := rfl
        rw [hdrop, List.append_assoc, if_pos (Or.inr hhead)]
        refine ⟨⟨List.prefix_append _ _, fun c hc => ?_, Or.inr (Or.inl hhead)⟩, rfl⟩
        cases hc
        rfl
    · rintro ⟨⟨⟨rest, rfl⟩, -, -⟩, hitem⟩
      refine ⟨hheader, ?_⟩
      rw [List.drop_left] at hitem
      split at hitem
      · next h =>
        rcases h with rfl | h
        · exact Or.inl (List.append_nil _)
        · cases rest with
          | nil => cases h
          | cons c rest =>
            cases h
            exact Or.inr ⟨rest, by rw [List.append_assoc, List.singleton_append]⟩
      · cases hitem

/-- Behind the first byte the indentation is blank. -/
theorem indentOf_tail (lines : List Bytes) : ∀ c ∈ (indentOf lines).tail, isBlank c = true := by
  intro c hc
  rw [indentOf] at hc
  cases hfind : lines.find? isContent with
  | none =>
    rw [hfind] at hc
    cases hc
  | some line =>
    rw [hfind, Option.map_some, Option.getD_some] at hc
    cases line with
    | nil => cases hc
    | cons d t =>
      rw [mark_cons] at hc
      exact List.mem_takeWhile_imp hc

/-- Only its own blanks are an indentation of a line. -/
theorem Conforms.eq_blanks {blanks more : Bytes} {k : UInt8} (hne : blanks ≠ [])
    (hblanks : ∀ c ∈ blanks, isBlank c = true) (hk : isBlank k = false)
    (htail : ∀ c ∈ indent.tail, isBlank c = true) (h : Conforms indent (blanks ++ k :: more)) :
    indent = blanks := by
  rcases List.prefix_or_prefix_of_prefix h.1 (List.prefix_append blanks _) with ⟨t, ht⟩ | ⟨t, ht⟩
  · cases t with
    | nil => rw [← ht, List.append_nil]
    | cons c t =>
      -- the line goes on with a blank
      have hc : isBlank c = false := by
        refine h.2.1 c ?_
        rw [← ht, List.append_assoc, List.drop_left]
        rfl
      rw [hblanks c (by rw [← ht]; exact List.mem_append_right _ List.mem_cons_self)] at hc
      cases hc
  · cases t with
    | nil => rw [← ht, List.append_nil]
    | cons c t =>
      rcases h.1 with ⟨u, hu⟩
      rw [← ht, List.append_assoc, List.append_cancel_left_eq, List.cons_append,
        List.cons.injEq] at hu
      have hmem : c ∈ indent.tail := by
        rw [← ht]
        cases blanks with
        | nil => exact absurd rfl hne
        | cons d blanks => exact List.mem_append_right _ List.mem_cons_self
      have hc := htail c hmem
      rw [hu.1, hk] at hc
      cases hc

/-- The rest of a line behind the first space. -/
theorem rest_eq {front c : Bytes} (hfront : 32 ∉ front) :
    (front ++ 32 :: c).takeWhile (· ≠ 32) = front ∧
      mkStringTrim ((front ++ 32 :: c).dropWhile (· ≠ 32)).tail = mkStringTrim c := by
  rw [(parts_eq hfront c).1, (parts_eq hfront c).2]
  exact ⟨rfl, rfl⟩

/-- What the pieces of a line that fits add. -/
theorem readItems_fit {cr : Bytes} {more : List Bytes} (hmore : ∀ piece ∈ more, piece = [])
    (hpieces : line.pieces = (line.content ++ cr) :: more) :
    line.readItems indent = (itemOf indent (line.content ++ cr)).toList := by
  have hnone : more.filterMap (itemOf indent) = [] := by
    rw [List.filterMap_eq_nil_iff]
    intro piece hpiece
    rw [hmore piece hpiece]
    exact (accepts_nil indent).2
  rw [Line.readItems, hpieces]
  cases hitem : itemOf indent (line.content ++ cr) with
  | none =>
    rw [List.filterMap_cons_none hitem, hnone]
    rfl
  | some item =>
    rw [List.filterMap_cons_some hitem, hnone]
    rfl

theorem accepts_fit {cr : Bytes} {more : List Bytes} (hmore : ∀ piece ∈ more, piece = [])
    (hpieces : line.pieces = (line.content ++ cr) :: more)
    (hfirst : Accepts indent (line.content ++ cr)) :
    ∀ piece ∈ line.pieces, Accepts indent piece := by
  rw [hpieces, List.forall_mem_cons]
  refine ⟨hfirst, fun piece hpiece => ?_⟩
  rw [hmore piece hpiece]
  exact (accepts_nil indent).1

/-- A line with an entry has its first byte behind the blanks, and is content. -/
theorem entry_front {key sep val : Bytes} (hbody : line.body = .entry key sep val) :
    ∃ k kt, key = k :: kt ∧ isBlank k = false ∧ k ≠ 10 ∧ k ≠ 13 ∧
      line.content = line.blanks ++ k :: (kt ++ (sep ++ val)) ∧
      ∀ more, isContent (line.blanks ++ k :: more) = true := by
  have hvalid := line.valid
  rw [hbody] at hvalid
  rcases hvalid with ⟨⟨k, hk, hhead⟩, hkey, -⟩
  have hcontent : line.content = line.blanks ++ (key ++ (sep ++ val)) := by
    rw [Line.content, lineContent, hbody, Body.text, List.append_assoc]
  cases key with
  | nil => cases hk
  | cons k' kt =>
    cases hk
    have hplain := line.plain k (by
      rw [← Line.content, hcontent]
      exact List.mem_append_right _ List.mem_cons_self)
    refine ⟨k, kt, rfl, hkey k List.mem_cons_self, hplain.2.1, hplain.2.2, hcontent, fun more => ?_⟩
    cases hblanks : line.blanks with
    | nil => exact decide_eq_true (hhead hblanks)
    | cons c blanks =>
      have hc : isBlank c = true := line.blanks_blank c (by
        rw [hblanks]
        exact List.mem_cons_self)
      rcases isBlank_iff.mp hc with rfl | rfl <;> rfl

/-- With its own blanks as the indentation, an entry needs a space. -/
theorem entry_item {k : UInt8} {more : Bytes} (hk : isBlank k = false) (hcomment : k ≠ 35)
    {blanks : Bytes} (hcontent : isContent (blanks ++ k :: more) = true) :
    (Accepts blanks (blanks ++ k :: more) ↔ 32 ∈ k :: more) ∧
      itemOf blanks (blanks ++ k :: more) = some (.entry
        (mkStringTrim ((k :: more).takeWhile (· ≠ 32)))
        (mkStringTrim ((k :: more).dropWhile (· ≠ 32)).tail)) := by
  have hhead : ¬ (blanks ++ k :: more).head? = some 91 := fun h => by
    cases hline : blanks ++ k :: more with
    | nil =>
      rw [hline] at h
      cases h
    | cons c t =>
      rw [hline] at h hcontent
      cases h
      cases hcontent
  have hno : ¬ (k :: more = [] ∨ (k :: more).head? = some 35) := by
    rintro (h | h)
    · cases h
    · exact hcomment (Option.some_inj.mp h)
  rw [itemOf_content hcontent, Accepts, Conforms, List.drop_left, if_neg hno]
  refine ⟨⟨fun h => ?_, fun h => ?_⟩, rfl⟩
  · rcases (h.2 hcontent).2.2 with h' | h' | h'
    · exact absurd (Or.inl h') hno
    · exact absurd (Or.inr h') hno
    · exact h'
  · refine ⟨fun h' => absurd h' hhead, fun _ => ⟨List.prefix_append _ _, fun c hc => ?_, ?_⟩⟩
    · cases hc
      exact hk
    · exact Or.inr (Or.inr h)

/-- A line that is kept is read as it is written. -/
theorem Line.Kept.read {item : Item} (h : line.Kept indent) (hitem : line.item = some item) :
    (∀ piece ∈ line.pieces, Accepts indent piece) ∧ line.readItems indent = [item] := by
  rw [Line.item] at hitem
  rw [Line.Kept] at h
  have hvalid := line.valid
  cases hbody : line.body with
  | blank =>
    rw [hbody] at hitem
    cases hitem
  | comment text =>
    rw [hbody] at hitem
    cases hitem
  | header name =>
    rw [hbody] at hitem h hvalid
    cases hitem
    rcases pieces_fit h.1 with ⟨cr, more, -, hmore, hpieces⟩
    have hcontent : line.content ++ cr = 91 :: (name ++ 93 :: cr) := by
      have hblanks : line.blanks = [] := hvalid
      rw [Line.content, lineContent, hblanks, hbody, Body.text, List.nil_append, List.cons_append,
        List.append_assoc, List.singleton_append]
    have hhead : (line.content ++ cr).head? = some 91 := by
      rw [hcontent]
      rfl
    refine ⟨accepts_fit hmore hpieces ⟨fun _ => ?_, fun hc => ?_⟩, ?_⟩
    · rw [hcontent]
      exact List.mem_cons_of_mem _ (List.mem_append_right _ List.mem_cons_self)
    · rw [hcontent] at hc
      cases hc
    · rw [readItems_fit hmore hpieces, itemOf, if_pos hhead, hcontent, List.drop_one,
        List.tail_cons, (parts_eq h.2 cr).1]
      rfl
  | entry key sep val =>
    rw [hbody] at hitem h hvalid
    cases hitem
    rcases h with ⟨hfits, hindent, hcomment, hspace, hkeyBare, hvalBare⟩
    rcases pieces_fit hfits with ⟨cr, more, hcr, hmore, hpieces⟩
    rcases entry_front hbody with ⟨k, kt, rfl, hk, -, -, hcontent, hfront⟩
    rcases List.eq_append_cons_of_mem hspace with ⟨s, s', rfl, hs⟩
    have hsep : ∀ c ∈ s ++ 32 :: s', isSpace c = true := fun c hc =>
      isSpace_of_isBlank (hvalid.2.2.1 c hc)
    have hkey : 32 ∉ k :: kt ++ s := fun hmem => by
      rcases List.mem_append.mp hmem with hmem | hmem
      · exact (not_isBlank_iff.mp (hvalid.2.1 32 hmem)).1 rfl
      · exact hs hmem
    -- the first space behind the key splits the line
    have hline : line.content ++ cr =
        indent ++ k :: (kt ++ s ++ 32 :: (s' ++ val ++ cr)) := by
      rw [hcontent, hindent]
      simp
    have hrest : k :: (kt ++ s ++ 32 :: (s' ++ val ++ cr)) =
        (k :: kt ++ s) ++ 32 :: (s' ++ val ++ cr) := by simp
    have hitem := @entry_item k (kt ++ s ++ 32 :: (s' ++ val ++ cr)) hk
      (fun heq => hcomment (congrArg some heq)) line.blanks (hfront _)
    rw [hindent, ← hline, hrest, (rest_eq hkey).1, (rest_eq hkey).2] at hitem
    have hname : mkStringTrim (k :: kt ++ s) = k :: kt :=
      mkStringTrim_pad (b := []) (fun _ h => (List.not_mem_nil h).elim)
        (fun c hc => hsep c (List.mem_append_left _ hc)) hkeyBare
    have hvalue : mkStringTrim (s' ++ val ++ cr) = val :=
      mkStringTrim_pad (fun c hc => hsep c (List.mem_append_right _ (List.mem_cons_of_mem _ hc)))
        (isSpace_cr hcr) hvalBare
    refine ⟨accepts_fit hmore hpieces (hitem.1.mpr ?_), ?_⟩
    · exact List.mem_append_right _ List.mem_cons_self
    · rw [readItems_fit hmore hpieces, hitem.2, hname, hvalue]
      rfl

/-- The item of the first piece comes first. -/
theorem readItems_first {first : Bytes} {more : List Bytes} {item : Item}
    (hpieces : line.pieces = first :: more) (hitem : itemOf indent first = some item) :
    line.readItems indent = item :: more.filterMap (itemOf indent) := by
  rw [Line.readItems, hpieces, List.filterMap_cons_some hitem]

/-- A header that the reader gets past is read as one, and as it is written only if it fits and
has no bracket in its name. -/
theorem header_read {name : Bytes} (hbody : line.body = .header name)
    (haccepts : ∀ piece ∈ line.pieces, Accepts indent piece) :
    ∃ name' more, line.readItems indent = .header name' :: more ∧
      (name' = name → line.Kept indent) := by
  have hvalid := line.valid
  rw [hbody] at hvalid
  have hcontent : line.content = 91 :: (name ++ [93]) := by
    have hblanks : line.blanks = [] := hvalid
    rw [Line.content, lineContent, hblanks, hbody]
    rfl
  have hitem : ∀ t : Bytes, itemOf indent (91 :: t) = some (.header (t.takeWhile (· ≠ 93))) :=
    fun t => rfl
  have hclean : ∀ t : Bytes, t.takeWhile (· ≠ 93) = name → 93 ∉ name := by
    rintro t rfl h
    simpa using List.mem_takeWhile_imp h
  rw [Line.Kept, hbody]
  rcases Nat.lt_or_ge 254 line.content.length with hlong | hfits
  · rcases pieces_long hlong with ⟨more, hpieces⟩
    have hlen : 253 ≤ name.length := by
      rw [hcontent, List.length_cons, List.length_append, List.length_singleton] at hlong
      omega
    have hfirst : line.content.take 254 = 91 :: name.take 253 := by
      rw [hcontent, List.take_succ_cons, List.take_append_of_le_length hlen]
    rw [hfirst] at hpieces
    refine ⟨_, _, readItems_first hpieces (hitem _), fun heq => ?_⟩
    -- the piece has no bracket, if the name has none
    have hmem := (haccepts (91 :: name.take 253) (by rw [hpieces]; exact List.mem_cons_self)).1 rfl
    rcases List.mem_cons.mp hmem with h | h
    · cases h
    · exact absurd (List.mem_of_mem_take h) (hclean _ heq)
  · rcases pieces_fit hfits with ⟨cr, more, -, -, hpieces⟩
    rw [hcontent, List.cons_append] at hpieces
    exact ⟨_, _, readItems_first hpieces (hitem _), fun heq => ⟨hfits, hclean _ heq⟩⟩

/-- The value that is read is no longer than what stands behind the blanks, and shorter if the
first space is in it. -/
theorem trim_tail {key sep val cr : Bytes} (hkey : 32 ∉ key) (hsep : ∀ c ∈ sep, isBlank c = true)
    (hcr : ∀ c ∈ cr, isSpace c = true) (hmem : 32 ∈ sep ++ val) :
    (mkStringTrim ((key ++ (sep ++ val) ++ cr).dropWhile (· ≠ 32)).tail).length ≤ val.length ∧
      (32 ∉ sep → (mkStringTrim ((key ++ (sep ++ val) ++ cr).dropWhile (· ≠ 32)).tail).length <
        val.length) := by
  have hnone : ∀ c ∈ ([] : Bytes), isSpace c = true := fun _ h => (List.not_mem_nil h).elim
  by_cases hspace : 32 ∈ sep
  · rcases List.eq_append_cons_of_mem hspace with ⟨s, s', rfl, hs⟩
    have hline : key ++ (s ++ 32 :: s' ++ val) ++ cr = (key ++ s) ++ 32 :: (s' ++ val ++ cr) := by
      simp
    have hfront : 32 ∉ key ++ s := fun h => (List.mem_append.mp h).elim hkey hs
    have hs' : ∀ c ∈ s', isSpace c = true := fun c hc =>
      isSpace_of_isBlank (hsep c (List.mem_append_right _ (List.mem_cons_of_mem _ hc)))
    rw [hline, (rest_eq hfront).2, mkStringTrim_spaces hs' hcr]
    exact ⟨length_mkStringTrim_le val, fun h => absurd hspace h⟩
  · rcases List.eq_append_cons_of_mem ((List.mem_append.mp hmem).resolve_left hspace) with
      ⟨v, v', rfl, hv⟩
    have hline : key ++ (sep ++ (v ++ 32 :: v')) ++ cr =
        (key ++ (sep ++ v)) ++ 32 :: (v' ++ cr) := by simp
    have hfront : 32 ∉ key ++ (sep ++ v) := fun h =>
      (List.mem_append.mp h).elim hkey fun h => (List.mem_append.mp h).elim hspace hv
    have htrim : mkStringTrim (v' ++ cr) = mkStringTrim v' := mkStringTrim_spaces hnone hcr v'
    rw [hline, (rest_eq hfront).2, htrim, List.length_append, List.length_cons]
    have hle := length_mkStringTrim_le v'
    exact ⟨by omega, fun _ => by omega⟩

/-- More blanks than fit into the buffer are the indentation, and then the key is none. -/
theorem entry_deep {key sep val : Bytes} (hbody : line.body = .entry key sep val)
    (hcomment : key.head? ≠ some 35) (hdeep : 254 ≤ line.blanks.length)
    (haccepts : ∀ piece ∈ line.pieces, Accepts indent piece)
    (htail : ∀ c ∈ indent.tail, isBlank c = true) :
    ∃ name, .header name ∈ line.readItems indent := by
  rcases entry_front hbody with ⟨k, kt, rfl, hk, hlf, hcr, hcontent, hfront⟩
  have hlong : 254 < line.content.length := by
    rw [hcontent, List.length_append, List.length_cons]
    omega
  have hblank : ∀ c ∈ line.blanks.take 254, isBlank c = true := fun c hc =>
    line.blanks_blank c (List.mem_of_mem_take hc)
  have hlen : (line.blanks.take 254).length = 254 := by
    rw [List.length_take]
    omega
  have hfirst : line.content.take 254 = line.blanks.take 254 := by
    rw [hcontent, List.take_append_of_le_length hdeep]
  rcases pieces_long hlong with ⟨more, hpieces⟩
  rw [hfirst] at hpieces
  -- the first piece is blank, so the indentation is all of it
  have hindent : indent = line.blanks.take 254 := by
    have hisContent : isContent (line.blanks.take 254) = true := by
      cases hb : line.blanks.take 254 with
      | nil =>
        rw [hb] at hlen
        cases hlen
      | cons c t =>
        have hc := hblank c (by rw [hb]; exact List.mem_cons_self)
        rcases isBlank_iff.mp hc with rfl | rfl <;> rfl
    have hpiece := haccepts (line.blanks.take 254) (by rw [hpieces]; exact List.mem_cons_self)
    rcases hpiece.2 hisContent with ⟨⟨t, ht⟩, hnext, -⟩
    cases t with
    | nil => rw [← ht, List.append_nil]
    | cons c t =>
      have hc : isBlank c = false := by
        refine hnext c ?_
        rw [← ht, List.drop_left]
        rfl
      rw [hblank c (by rw [← ht]; exact List.mem_append_right _ List.mem_cons_self)] at hc
      cases hc
  rcases line.text_eq with ⟨cr, -, htext, -⟩
  have hsplit : line.text = line.blanks ++ k :: (kt ++ (sep ++ val) ++ (cr ++ [10])) := by
    rw [htext, hcontent]
    simp
  rcases exists_piece hlf hcr line.blanks_blank (kt ++ (sep ++ val) ++ (cr ++ [10])) with
    ⟨front, more', hblanks', hshort, hmem⟩
  rw [← hsplit, ← Line.pieces] at hmem
  have hpiece := haccepts _ hmem
  cases front with
  | nil =>
    by_cases hheader : k = 91
    · rw [hheader] at hmem
      exact ⟨_, List.mem_filterMap.mpr ⟨_, hmem, rfl⟩⟩
    · -- it is content then, and does not begin with the blanks
      have hisContent : isContent ([] ++ k :: more') = true :=
        decide_eq_true ⟨fun heq => hcomment (congrArg some heq), hheader⟩
      rcases (hpiece.2 hisContent).1 with ⟨t, ht⟩
      cases hi : indent with
      | nil =>
        rw [← hindent, hi] at hlen
        cases hlen
      | cons c i =>
        rw [hi] at ht
        cases ht
        rw [hblank k (by rw [← hindent, hi]; exact List.mem_cons_self)] at hk
        cases hk
  | cons c front =>
    have hc := hblanks' c List.mem_cons_self
    have hisContent : isContent (c :: front ++ k :: more') = true := by
      rcases isBlank_iff.mp hc with rfl | rfl <;> rfl
    have heq := (hpiece.2 hisContent).eq_blanks (List.cons_ne_nil _ _) hblanks' hk htail
    rw [← heq, hindent, hlen] at hshort
    omega

/-- An entry that the reader gets past is read as something, and as it is written only if it is
kept. -/
theorem entry_read {key sep val : Bytes} (hbody : line.body = .entry key sep val)
    (hindented : line.blanks ≠ [] ∧ val ≠ []) (hcomment : key.head? ≠ some 35)
    (haccepts : ∀ piece ∈ line.pieces, Accepts indent piece)
    (htail : ∀ c ∈ indent.tail, isBlank c = true) :
    line.readItems indent ≠ [] ∧ (Bare key → Bare val →
      (∀ item ∈ line.readItems indent, item = .entry key val) → line.Kept indent) := by
  rcases Nat.lt_or_ge line.blanks.length 254 with hlt | hdeep
  swap
  · rcases entry_deep hbody hcomment hdeep haccepts htail with ⟨name, hmem⟩
    exact ⟨List.ne_nil_of_mem hmem, fun _ _ h => by cases h _ hmem⟩
  have hvalid := line.valid
  rw [hbody] at hvalid
  rcases entry_front hbody with ⟨k, kt, rfl, hk, -, -, hcontent, hfront⟩
  have hk35 : k ≠ 35 := fun heq => hcomment (congrArg some heq)
  have hkey : 32 ∉ k :: kt := fun h => (not_isBlank_iff.mp (hvalid.2.1 32 h)).1 rfl
  -- whatever the first piece holds behind the key's first byte
  have hread : ∀ {rest : Bytes} {more : List Bytes},
      line.pieces = (line.blanks ++ k :: rest) :: more →
      indent = line.blanks ∧ 32 ∈ k :: rest ∧
        .entry (mkStringTrim ((k :: rest).takeWhile (· ≠ 32)))
          (mkStringTrim ((k :: rest).dropWhile (· ≠ 32)).tail) ∈ line.readItems indent := by
    intro rest more hpieces
    have hpiece := haccepts (line.blanks ++ k :: rest) (by rw [hpieces]; exact List.mem_cons_self)
    obtain rfl := (hpiece.2 (hfront rest)).eq_blanks hindented.1 line.blanks_blank hk htail
    have hitem := entry_item hk hk35 (hfront rest)
    refine ⟨rfl, hitem.1.mp hpiece, ?_⟩
    rw [readItems_first hpieces hitem.2]
    exact List.mem_cons_self
  rcases Nat.lt_or_ge 254 line.content.length with hlong | hfits
  · rcases pieces_long hlong with ⟨more, hpieces⟩
    have hcut : line.content.take 254 = line.blanks ++ k ::
        (kt ++ (sep ++ val)).take (253 - line.blanks.length) := by
      have hsucc : 254 - line.blanks.length = (253 - line.blanks.length) + 1 := by omega
      rw [hcontent, List.take_append, List.take_of_length_le (Nat.le_of_lt hlt), hsucc,
        List.take_succ_cons]
    rw [hcut] at hpieces
    rcases hread hpieces with ⟨-, hspace, hmem⟩
    refine ⟨List.ne_nil_of_mem hmem, fun _ _ hall => ?_⟩
    -- the value is cut off, so less of it is read
    have hval := hall _ hmem
    generalize hn : 253 - line.blanks.length = n at hspace hval
    rw [List.take_append, List.take_append, ← List.cons_append] at hspace hval
    have hkey' : 32 ∉ k :: kt.take n := fun h => hkey (by
      rcases List.mem_cons.mp h with rfl | h
      · exact List.mem_cons_self
      · exact List.mem_cons_of_mem _ (List.mem_of_mem_take h))
    have hspace' := (List.mem_append.mp hspace).resolve_left hkey'
    have hle := (@trim_tail _ _ _ [] hkey'
      (fun c hc => hvalid.2.2.1 c (List.mem_of_mem_take hc)) (fun _ h => (List.not_mem_nil h).elim)
      hspace').1
    rw [List.append_nil, (Item.entry.inj hval).2, List.length_take] at hle
    have hpos := List.length_pos_iff.mpr hindented.2
    rw [hcontent, List.length_append, List.length_cons, List.length_append, List.length_append]
      at hlong
    omega
  · rcases pieces_fit hfits with ⟨cr, more, hcr, -, hpieces⟩
    have hline : line.content ++ cr = line.blanks ++ k :: (kt ++ (sep ++ val) ++ cr) := by
      rw [hcontent]
      simp
    rw [hline] at hpieces
    rcases hread hpieces with ⟨hindent, hspace, hmem⟩
    refine ⟨List.ne_nil_of_mem hmem, fun hkeyBare hvalBare hall => ?_⟩
    have hval := (Item.entry.inj (hall _ hmem)).2
    rw [← List.cons_append, ← List.cons_append] at hval hspace
    have hspace' : 32 ∈ sep ++ val := by
      rcases List.mem_append.mp hspace with h | h
      · exact (List.mem_append.mp h).resolve_left hkey
      · rcases hcr with rfl | rfl
        · cases h
        · cases List.mem_singleton.mp h
    have hshort := (trim_tail hkey hvalid.2.2.1 (isSpace_cr hcr) hspace').2
    rw [Line.Kept, hbody]
    refine ⟨hfits, hindent.symm, hcomment, ?_, hkeyBare, hvalBare⟩
    by_contra hno
    have hlt := hshort hno
    rw [hval] at hlt
    omega

theorem bare_of_item {key val : Bytes} (h : itemOf indent piece = some (.entry key val)) :
    Bare key ∧ Bare val := by
  rw [itemOf] at h
  split at h
  · cases h
  · split at h
    · cases h
    · dsimp only at h
      split at h
      · cases h
      · cases h
        exact ⟨bare_mkStringTrim _, bare_mkStringTrim _⟩

theorem item_isEntry {item : Item} (hitem : itemOf indent piece = some item) :
    item.isEntry = true ↔ piece.head? ≠ some 91 := by
  rw [itemOf] at hitem
  split at hitem
  · next h =>
    cases hitem
    exact iff_of_false Bool.false_ne_true fun hne => hne h
  · next h =>
    refine iff_of_true ?_ h
    split at hitem
    · cases hitem
    · dsimp only at hitem
      split at hitem
      · cases hitem
      · cases hitem
        rfl

/-- A line that fits, with a mark for a comment behind its blanks or nothing at all, adds nothing
if the reader gets past it. -/
theorem readItems_silent {rest : Bytes} (hfits : line.content.length ≤ 254)
    (hcontent : line.content = line.blanks ++ rest) (hrest : rest = [] ∨ rest.head? = some 35)
    (haccepts : ∀ piece ∈ line.pieces, Accepts indent piece)
    (htail : ∀ c ∈ indent.tail, isBlank c = true) : line.readItems indent = [] := by
  -- the line is one piece, with the CR if it has one
  rcases pieces_fit hfits with ⟨cr, more, hcr, hmore, hpieces⟩
  have hpiece := haccepts _ (by rw [hpieces]; exact List.mem_cons_self)
  have hblanks := line.blanks_blank
  have hquiet : Quiet indent (line.content ++ cr) := by
    rw [hcontent] at hpiece ⊢
    generalize line.blanks = blanks at *
    refine ⟨fun h => ?_, fun h => ?_⟩
    · rcases hrest with rfl | hrest
      · have hmem := List.mem_of_head? h
        rw [List.append_nil, List.mem_append] at hmem
        rcases hmem with hmem | hmem
        · cases hblanks 91 hmem
        · rcases hcr with rfl | rfl
          · cases hmem
          · cases List.mem_singleton.mp hmem
      · cases blanks with
        | nil =>
          rw [List.nil_append, List.head?_append, hrest] at h
          cases h
        | cons c blanks =>
          cases h
          cases hblanks 91 List.mem_cons_self
    have hconforms := hpiece.2 h
    -- a header would have to begin with a bracket
    rcases hrest with rfl | hrest
    · -- a blank line: the indentation is all of it
      rw [List.append_nil] at hconforms ⊢
      have hfront : indent = blanks ++ cr ∨ indent <+: blanks := by
        rcases hcr with rfl | rfl
        · rw [List.append_nil] at hconforms
          exact Or.inr hconforms.1
        · exact List.prefix_concat_iff.mp hconforms.1
      rcases hfront with hfront | ⟨t, rfl⟩
      · exact Or.inl hfront.symm
      have hdrop : (indent ++ t ++ cr).drop indent.length = t ++ cr := by
        rw [List.append_assoc, List.drop_left]
      rw [Conforms, hdrop] at hconforms
      cases t with
      | nil =>
        rcases hcr with rfl | rfl
        · exact Or.inl (by rw [List.append_nil, List.append_nil])
        · -- a CR that did not fit is no key
          rcases hconforms.2.2 with h | h | h
          · cases h
          · cases h
          · cases List.mem_singleton.mp h
      | cons c t =>
        have hc := hconforms.2.1 c rfl
        rw [hblanks c (List.mem_append_right _ List.mem_cons_self)] at hc
        cases hc
    · cases rest with
      | nil => cases hrest
      | cons c rest =>
        cases hrest
        by_cases hne : blanks = []
        · subst hne
          cases h
        · rw [List.append_assoc, List.cons_append] at hconforms ⊢
          rw [hconforms.eq_blanks hne hblanks (by decide) htail]
          exact Or.inr ⟨rest ++ cr, by rw [List.append_assoc, List.singleton_append]⟩
  rw [readItems_fit hmore hpieces, (quiet_iff.mp hquiet).2]
  rfl

end Read

/-! ## The documents -/

section Documents

variable {d : Document} {sections : List RconfSection}

/-- Two lists made of parts are the same, and the parts of one are no shorter: then the parts
are the same. -/
theorem flatMap_eq_of_length_le {α β : Type} {f g : α → List β} {l : List α} {front : List β}
    (hle : ∀ a ∈ l, (g a).length ≤ (f a).length) (h : front ++ l.flatMap f = l.flatMap g) :
    front = [] ∧ ∀ a ∈ l, f a = g a := by
  have hlength : ∀ {l : List α}, (∀ a ∈ l, (g a).length ≤ (f a).length) →
      (l.flatMap g).length ≤ (l.flatMap f).length := by
    intro l hle
    induction l with
    | nil => exact Nat.le_refl _
    | cons a l ih =>
      rw [List.forall_mem_cons] at hle
      rw [List.flatMap_cons, List.flatMap_cons, List.length_append, List.length_append]
      exact Nat.add_le_add hle.1 (ih hle.2)
  have hfront : front = [] := by
    have hlen := congrArg List.length h
    rw [List.length_append] at hlen
    have hle' := hlength hle
    rw [← List.length_eq_zero_iff]
    omega
  refine ⟨hfront, ?_⟩
  rw [hfront, List.nil_append] at h
  clear hfront
  induction l with
  | nil => exact fun a ha => (List.not_mem_nil ha).elim
  | cons a l ih =>
    rw [List.forall_mem_cons] at hle ⊢
    rw [List.flatMap_cons, List.flatMap_cons] at h
    have hlen := congrArg List.length h
    rw [List.length_append, List.length_append] at hlen
    have hle' := hlength hle.2
    rcases List.append_inj h (by omega) with ⟨hhead, hrest⟩
    exact ⟨hhead, ih hle.2 hrest⟩

theorem flatMap_split {β : Type} (d : Document) (f : Line → List β) :
    d.flatMap f =
      (d.takeWhile (!·.isHeader)).flatMap f ++ (d.dropWhile (!·.isHeader)).flatMap f := by
  rw [← List.flatMap_append, List.takeWhile_append_dropWhile]

theorem item_of_not_isHeader {line : Line} {item : Item} (h : line.isHeader = false)
    (hitem : line.item = some item) : item.isEntry = true := by
  rw [Line.isHeader] at h
  rw [Line.item] at hitem
  cases hbody : line.body with
  | blank =>
    rw [hbody] at hitem
    cases hitem
  | comment text =>
    rw [hbody] at hitem
    cases hitem
  | header name =>
    rw [hbody] at h
    cases h
  | entry key sep val =>
    rw [hbody] at hitem
    cases hitem
    rfl

/-- What is written stands from the first header on. -/
theorem Document.Writes.before (h : d.Writes sections) :
    ∀ line ∈ d.takeWhile (!·.isHeader), line.item = none := by
  rw [Document.Writes, ← List.takeWhile_append_dropWhile (p := (!·.isHeader)) (l := d),
    List.filterMap_append] at h
  rw [← List.filterMap_eq_nil_iff]
  cases hitems : (d.takeWhile (!·.isHeader)).filterMap Line.item with
  | nil => rfl
  | cons item items =>
    -- the first item would be an entry
    have hmem : item ∈ (d.takeWhile (!·.isHeader)).filterMap Line.item := by
      rw [hitems]
      exact List.mem_cons_self
    rcases List.mem_filterMap.mp hmem with ⟨line, hline, hitem⟩
    have hheader : line.isHeader = false := by
      simpa using List.mem_takeWhile_imp hline
    have hentry := item_of_not_isHeader hheader hitem
    rw [hitems, List.cons_append] at h
    cases sections with
    | nil => cases h
    | cons s sections =>
      rw [List.flatMap_cons, RconfSection.items, List.cons_append] at h
      rw [(List.cons.inj h).1] at hentry
      cases hentry

/-- The configuration comes back if the reader gets past all pieces, and finds what is
written. -/
theorem reads_iff (hwrites : d.Writes sections) : mkRconfCreate d.text = some (.ok sections) ↔
    (∀ piece ∈ d.pieces, Accepts (indentOf d.pieces) piece) ∧
      (d.flatMap (Line.readItems (indentOf d.pieces))).dropWhile Item.isEntry =
        (d.dropWhile (!·.isHeader)).flatMap fun line => line.item.toList := by
  have hitems : d.pieces.filterMap (itemOf (indentOf d.pieces)) =
      d.flatMap (Line.readItems (indentOf d.pieces)) := by
    generalize indentOf d.pieces = indent
    exact List.filterMap_flatMap
  have hwritten : d.filterMap Line.item =
      (d.dropWhile (!·.isHeader)).flatMap fun line => line.item.toList := by
    rw [← List.filterMap_eq_flatMap_toList]
    calc d.filterMap Line.item
        = (d.takeWhile (!·.isHeader) ++ d.dropWhile (!·.isHeader)).filterMap Line.item := by
          rw [List.takeWhile_append_dropWhile]
      _ = (d.dropWhile (!·.isHeader)).filterMap Line.item := by
          rw [List.filterMap_append, List.filterMap_eq_nil_iff.mpr hwrites.before, List.nil_append]
  rw [← hwritten, hwrites, ← fold_eq_iff, ← hitems]
  constructor
  · intro h
    by_cases haccepts : ∀ piece ∈ d.pieces, Accepts (indentOf d.pieces) piece
    · rw [(create_spec d).1 haccepts] at h
      exact ⟨haccepts, Except.ok.inj (Option.some_inj.mp h)⟩
    · rcases (create_spec d).2 haccepts with ⟨e, he⟩
      rw [he] at h
      cases h
  · rintro ⟨haccepts, hfold⟩
    rw [(create_spec d).1 haccepts, hfold]

theorem mem_pieces {line : Line} {piece : Bytes} (hline : line ∈ d) (hpiece : piece ∈ line.pieces) :
    piece ∈ d.pieces :=
  List.mem_flatMap.mpr ⟨line, hline, hpiece⟩

theorem mem_of_after {line : Line} (h : line ∈ d.dropWhile (!·.isHeader)) : line ∈ d :=
  (List.dropWhile_sublist _).subset h

theorem mem_of_before {line : Line} (h : line ∈ d.takeWhile (!·.isHeader)) : line ∈ d :=
  (List.takeWhile_sublist _).subset h

/-- Nothing is lost from the first header on. -/
theorem dropWhile_items {indent : Bytes} (haccepts : ∀ piece ∈ d.pieces, Accepts indent piece) :
    (d.flatMap (Line.readItems indent)).dropWhile Item.isEntry =
      ((d.takeWhile (!·.isHeader)).flatMap (Line.readItems indent)).dropWhile Item.isEntry ++
        (d.dropWhile (!·.isHeader)).flatMap (Line.readItems indent) := by
  have hkeep : ((d.dropWhile (!·.isHeader)).flatMap (Line.readItems indent)).dropWhile
      Item.isEntry = (d.dropWhile (!·.isHeader)).flatMap (Line.readItems indent) := by
    have hhead := List.head?_dropWhile_not (!·.isHeader) d
    cases hafter : d.dropWhile (!·.isHeader) with
    | nil => rfl
    | cons line rest =>
      rw [hafter, List.head?_cons] at hhead
      have hline : line ∈ d := mem_of_after (by rw [hafter]; exact List.mem_cons_self)
      have hheader : line.isHeader = true := by simpa using hhead
      cases hbody : line.body with
      | blank => rw [Line.isHeader, hbody] at hheader; cases hheader
      | comment text => rw [Line.isHeader, hbody] at hheader; cases hheader
      | entry key sep val => rw [Line.isHeader, hbody] at hheader; cases hheader
      | header name =>
        rcases header_read hbody fun piece hpiece => haccepts piece (mem_pieces hline hpiece) with
          ⟨name', more, hread, -⟩
        rw [List.flatMap_cons, hread, List.cons_append]
        rfl
  rw [flatMap_split, List.dropWhile_append]
  split
  · next h =>
    rw [hkeep, List.isEmpty_iff.mp h, List.nil_append]
  · rfl

/-- Lines that are kept, and comments that are hushed, are read as they are written. -/
theorem reads_of_careful {indent : Bytes} (hkept : ∀ line ∈ d, line.Kept indent)
    (hhushed : d.Hushed indent) :
    (∀ piece ∈ d.pieces, Accepts indent piece) ∧
      (d.flatMap (Line.readItems indent)).dropWhile Item.isEntry =
        (d.dropWhile (!·.isHeader)).flatMap fun line => line.item.toList := by
  have hlines : ∀ line ∈ d.dropWhile (!·.isHeader), (∀ piece ∈ line.pieces, Accepts indent piece) ∧
      line.readItems indent = line.item.toList := by
    intro line hline
    cases hitem : line.item with
    | some item => exact (hkept line (mem_of_after hline)).read hitem
    | none =>
      have hquiet := fun piece hpiece => quiet_iff.mp (hhushed.2 line hline hitem piece hpiece)
      exact ⟨fun piece hpiece => (hquiet piece hpiece).1,
        List.filterMap_eq_nil_iff.mpr fun piece hpiece => (hquiet piece hpiece).2⟩
  have haccepts : ∀ piece ∈ d.pieces, Accepts indent piece := by
    intro piece hpiece
    rcases List.mem_flatMap.mp hpiece with ⟨line, hline, hpiece⟩
    rw [← List.takeWhile_append_dropWhile (p := (!·.isHeader)) (l := d), List.mem_append] at hline
    rcases hline with hline | hline
    · exact (hhushed.1 line hline piece hpiece).1
    · exact (hlines line hline).1 piece hpiece
  refine ⟨haccepts, ?_⟩
  have hbefore : ((d.takeWhile (!·.isHeader)).flatMap (Line.readItems indent)).dropWhile
      Item.isEntry = [] := by
    rw [List.dropWhile_eq_nil_iff]
    intro item hitem
    rcases List.mem_flatMap.mp hitem with ⟨line, hline, hitem⟩
    rcases List.mem_filterMap.mp hitem with ⟨piece, hpiece, hitem⟩
    exact (item_isEntry hitem).mpr (hhushed.1 line hline piece hpiece).2
  rw [dropWhile_items haccepts, hbefore, List.nil_append]
  exact List.flatMap_congr fun line hline => (hlines line hline).2

/-- Every line fits into the buffer. -/
def Document.Short (d : Document) : Prop := ∀ line ∈ d, line.content.length ≤ 254

/-- No key begins as a comment does. -/
def Document.Unmarked (d : Document) : Prop :=
  ∀ line ∈ d, ∀ key sep val, line.body = .entry key sep val → key.head? ≠ some 35

theorem mem_after_of_item {line : Line} {item : Item} (hwrites : d.Writes sections)
    (hline : line ∈ d) (hitem : line.item = some item) : line ∈ d.dropWhile (!·.isHeader) := by
  rw [← List.takeWhile_append_dropWhile (p := (!·.isHeader)) (l := d), List.mem_append] at hline
  rcases hline with hline | hline
  · rw [hwrites.before line hline] at hitem
    cases hitem
  · exact hline

theorem readItems_of_no_item {line : Line} {indent : Bytes} (hfits : line.content.length ≤ 254)
    (hitem : line.item = none) (haccepts : ∀ piece ∈ line.pieces, Accepts indent piece)
    (htail : ∀ c ∈ indent.tail, isBlank c = true) : line.readItems indent = [] := by
  rw [Line.item] at hitem
  cases hbody : line.body with
  | blank =>
    refine @readItems_silent line indent [] hfits ?_ (Or.inl rfl) haccepts htail
    rw [Line.content, lineContent, hbody]
    rfl
  | comment text =>
    refine @readItems_silent line indent (35 :: text) hfits ?_ (Or.inr rfl) haccepts htail
    rw [Line.content, lineContent, hbody]
    rfl
  | header name =>
    rw [hbody] at hitem
    cases hitem
  | entry key sep val =>
    rw [hbody] at hitem
    cases hitem

section Converse

variable {indent : Bytes} (hwrites : d.Writes sections)
  (haccepts : ∀ piece ∈ d.pieces, Accepts indent piece)
  (htail : ∀ c ∈ indent.tail, isBlank c = true)
  (hread : (d.flatMap (Line.readItems indent)).dropWhile Item.isEntry =
    (d.dropWhile (!·.isHeader)).flatMap fun line => line.item.toList)

include hwrites haccepts htail hread

/-- Where every line fits into the buffer, a key that begins as a comment does is missed. -/
theorem unmarked_of_short (hshort : d.Short) : d.Unmarked := by
  have hnone : ∀ line ∈ d, line.item = none → line.readItems indent = [] := fun line hline hitem =>
    readItems_of_no_item (hshort line hline) hitem
      (fun piece hpiece => haccepts piece (mem_pieces hline hpiece)) htail
  have hbefore : (d.takeWhile (!·.isHeader)).flatMap (Line.readItems indent) = [] :=
    List.flatMap_eq_nil_iff.mpr fun line hline =>
      hnone line (mem_of_before hline) (hwrites.before line hline)
  rw [dropWhile_items haccepts, hbefore, List.dropWhile_nil, List.nil_append] at hread
  have hlength : ∀ line ∈ d.dropWhile (!·.isHeader),
      (line.readItems indent).length ≤ line.item.toList.length := by
    intro line hline
    cases hitem : line.item with
    | none => rw [hnone line (mem_of_after hline) hitem, Option.toList_none]
    | some item =>
      rcases pieces_fit (hshort line (mem_of_after hline)) with ⟨cr, more, -, hmore, hpieces⟩
      rw [readItems_fit hmore hpieces]
      cases itemOf indent (line.content ++ cr) with
      | none => exact Nat.zero_le _
      | some _ => exact Nat.le_refl _
  have hsame := (@flatMap_eq_of_length_le _ _ _ _ _ [] hlength hread.symm).2
  intro line hline key sep val hbody hhash
  have hitem : line.item = some (.entry key val) := by rw [Line.item, hbody]
  have hafter := mem_after_of_item hwrites hline hitem
  have hcontent : line.content = line.blanks ++ (key ++ sep ++ val) := by
    rw [Line.content, lineContent, hbody]
    rfl
  have hhead : (key ++ sep ++ val).head? = some 35 := by
    rw [List.append_assoc, List.head?_append, hhash]
    rfl
  have hempty := readItems_silent (hshort line hline) hcontent (Or.inr hhead)
    (fun piece hpiece => haccepts piece (mem_pieces hline hpiece)) htail
  have hitems := hsame line hafter
  rw [hempty, hitem] at hitems
  cases hitems

/-- If the configuration comes back, every line is kept and the comments are hushed. -/
theorem careful_of_reads (hindented : d.Indented) (hunmarked : d.Unmarked) :
    (∀ line ∈ d, line.Kept indent) ∧ d.Hushed indent := by
  rcases hindented with ⟨blanks, hblanks, hentries⟩
  have hpieces : ∀ line ∈ d, ∀ piece ∈ line.pieces, Accepts indent piece := by
    intro line hline piece hpiece
    exact haccepts piece (mem_pieces hline hpiece)
  have hentry : ∀ line ∈ d, ∀ key sep val, line.body = .entry key sep val →
      line.readItems indent ≠ [] ∧ (Bare key → Bare val →
        (∀ item ∈ line.readItems indent, item = .entry key val) → line.Kept indent) := by
    intro line hline key sep val hbody
    have hline' := hentries line hline key sep val hbody
    exact entry_read hbody ⟨hline'.1 ▸ hblanks, hline'.2⟩ (hunmarked line hline key sep val hbody)
      (hpieces line hline) htail
  rw [dropWhile_items haccepts] at hread
  -- a line that says something is read as something
  have hlength : ∀ line ∈ d.dropWhile (!·.isHeader),
      line.item.toList.length ≤ (line.readItems indent).length := by
    intro line hline
    rw [Line.item]
    cases hbody : line.body with
    | blank => exact Nat.zero_le _
    | comment text => exact Nat.zero_le _
    | header name =>
      rcases header_read hbody (hpieces line (mem_of_after hline)) with ⟨name', more, h, -⟩
      rw [h]
      exact Nat.succ_le_succ (Nat.zero_le _)
    | entry key sep val =>
      exact List.length_pos_iff.mpr (hentry line (mem_of_after hline) key sep val hbody).1
  rcases flatMap_eq_of_length_le hlength hread with ⟨hbefore, hsame⟩
  refine ⟨fun line hline => ?_, fun line hline piece hpiece => ⟨?_, ?_⟩, ?_⟩
  · cases hbody : line.body with
    | blank =>
      rw [Line.Kept, hbody]
      exact trivial
    | comment text =>
      rw [Line.Kept, hbody]
      exact trivial
    | header name =>
      have hitem : line.item = some (.header name) := by rw [Line.item, hbody]
      rcases header_read hbody (hpieces line hline) with ⟨name', more, h, hkept⟩
      have hitems := hsame line (mem_after_of_item hwrites hline hitem)
      rw [h, hitem, Option.toList_some] at hitems
      exact hkept (Item.header.inj (List.cons.inj hitems).1)
    | entry key sep val =>
      have hitem : line.item = some (.entry key val) := by rw [Line.item, hbody]
      have hitems := hsame line (mem_after_of_item hwrites hline hitem)
      rw [hitem, Option.toList_some] at hitems
      have hmem : .entry key val ∈ line.readItems indent := by
        rw [hitems]
        exact List.mem_cons_self
      rcases List.mem_filterMap.mp hmem with ⟨piece, -, hpiece⟩
      have hbare := bare_of_item hpiece
      refine (hentry line hline key sep val hbody).2 hbare.1 hbare.2 fun item h => ?_
      rw [hitems] at h
      exact List.mem_singleton.mp h
  · exact hpieces line (mem_of_before hline) piece hpiece
  · intro hheader
    have hitem : itemOf indent piece = some (.header ((piece.drop 1).takeWhile (· ≠ 93))) := by
      rw [itemOf, if_pos hheader]
    have hmem : .header ((piece.drop 1).takeWhile (· ≠ 93)) ∈
        (d.takeWhile (!·.isHeader)).flatMap (Line.readItems indent) :=
      List.mem_flatMap.mpr ⟨line, hline, List.mem_filterMap.mpr ⟨piece, hpiece, hitem⟩⟩
    cases List.dropWhile_eq_nil_iff.mp hbefore _ hmem
  · intro line hline hitem piece hpiece
    have hitems := hsame line hline
    rw [hitem, Option.toList_none, Line.readItems, List.filterMap_eq_nil_iff] at hitems
    exact quiet_iff.mpr ⟨hpieces line (mem_of_after hline) piece hpiece, hitems piece hpiece⟩

end Converse

/-- A text that keeps to the conditions is read back or refused as it should be. Where no key
begins as a comment does, or no line is longer than the buffer, none of them can be left out: the
rest of a long comment may, by chance, stand in for an entry that is taken for a comment. -/
theorem reads_back_careful (d : Document) : (d.Careful → d.ReadsBack) ∧
    (d.Short ∨ d.Unmarked → d.ReadsBack → d.Careful) := by
  have htail := indentOf_tail d.pieces
  constructor
  · intro h
    constructor
    · intro sections hwrites hindented
      rcases h.read hindented ⟨sections, hwrites⟩ with ⟨hkept, hhushed⟩
      exact (reads_iff hwrites).mpr (reads_of_careful hkept hhushed)
    · intro hindented
      rcases h.refused hindented with ⟨piece, hpiece, hno⟩
      exact (create_spec d).2 fun haccepts => hno (haccepts piece hpiece)
  · intro hmarks h
    constructor
    · rintro hindented ⟨sections, hwrites⟩
      rcases (reads_iff hwrites).mp (h.1 sections hwrites hindented) with ⟨haccepts, hread⟩
      have hunmarked : d.Unmarked := by
        rcases hmarks with hshort | hunmarked
        · exact unmarked_of_short hwrites haccepts htail hread hshort
        · exact hunmarked
      exact careful_of_reads hwrites haccepts htail hread hindented hunmarked
    · intro hindented
      by_contra hno
      have haccepts : ∀ piece ∈ d.pieces, Accepts (indentOf d.pieces) piece := by
        intro piece hpiece
        by_contra hpiece'
        exact hno ⟨piece, hpiece, hpiece'⟩
      rcases h.2 hindented with ⟨e, he⟩
      rw [(create_spec d).1 haccepts] at he
      cases he

end Documents

/-! ## An entry that is indented, and one that is not -/

/-- `[A]` -/
def headerLine : Line where
  blanks := []
  body := .header [65]
  crlf := false
  blanks_blank := fun c hc => (List.not_mem_nil hc).elim
  valid := rfl
  plain := by simp [lineContent, Body.text]

/-- `  # note` -/
def noteLine : Line where
  blanks := [32, 32]
  body := .comment (bytes " note")
  crlf := false
  blanks_blank := List.all_eq_true.1 rfl
  valid := trivial
  plain := by simp [lineContent, Body.text, bytes]

/-- `  key value`, with CRLF -/
def indentedLine : Line where
  blanks := [32, 32]
  body := .entry (bytes "key") [32] (bytes "value")
  crlf := true
  blanks_blank := List.all_eq_true.1 rfl
  valid := by
    refine ⟨⟨107, rfl, fun h => (by cases h)⟩, by simp [bytes, isBlank], List.all_eq_true.1 rfl,
      fun c h => ?_, fun _ => by decide⟩
    rcases h with h | h
    · cases h
      rfl
    · cases h
      rfl
  plain := by simp [lineContent, Body.text, bytes]

/-- The text comes back as the section `A` with its entry. -/
theorem reads_back_careful_note :
    Document.ReadsBack [headerLine, noteLine, indentedLine] ∧
      mkRconfCreate (Document.text [headerLine, noteLine, indentedLine]) =
        some (.ok [⟨[65], [⟨bytes "key", bytes "value"⟩]⟩]) := by
  have hindented : Document.Indented [headerLine, noteLine, indentedLine] := by
    refine ⟨[32, 32], by decide, fun line hline key sep val hbody => ?_⟩
    simp only [List.mem_cons, List.not_mem_nil, or_false] at hline
    rcases hline with rfl | rfl | rfl
    · cases hbody
    · cases hbody
    · cases hbody
      exact ⟨rfl, by decide⟩
  have hindent : indentOf (Document.pieces [headerLine, noteLine, indentedLine]) = [32, 32] := by
    decide
  have hback : Document.ReadsBack [headerLine, noteLine, indentedLine] := by
    refine (reads_back_careful _).1 ⟨fun _ _ => ?_, fun hno => absurd hindented hno⟩
    rw [hindent]
    refine ⟨fun line hline => ?_, fun line hline => ?_, fun line hline hitem piece hpiece => ?_⟩
    · simp only [List.mem_cons, List.not_mem_nil, or_false] at hline
      rcases hline with rfl | rfl | rfl
      · exact ⟨by decide, by decide⟩
      · trivial
      · refine ⟨by decide, rfl, by decide, by decide, ?_, ?_⟩ <;>
          rintro c (h | h) <;> cases h <;> rfl
    · exact absurd hline List.not_mem_nil
    · -- only the note adds nothing
      have hnote : line = noteLine := by
        simp only [List.mem_cons, List.not_mem_nil, or_false, headerLine, List.dropWhile,
          Line.isHeader, Bool.not_true] at hline
        rcases hline with rfl | rfl | rfl
        · cases hitem
        · rfl
        · cases hitem
      subst hnote
      have hone : piece = bytes "  # note" := by
        have hpieces : noteLine.pieces = [bytes "  # note"] := by decide
        rw [hpieces] at hpiece
        exact List.mem_singleton.mp hpiece
      subst hone
      exact ⟨by decide, fun _ => Or.inr ⟨bytes " note", by decide⟩⟩
  exact ⟨hback, hback.1 [⟨[65], [⟨bytes "key", bytes "value"⟩]⟩] rfl hindented⟩

/-- `key value` -/
def bareLine : Line where
  blanks := []
  body := .entry [107, 101, 121] [32] [118, 97, 108, 117, 101]
  crlf := false
  blanks_blank := fun c hc => (List.not_mem_nil hc).elim
  valid := by
    refine ⟨⟨107, rfl, fun _ => by decide⟩, by simp [isBlank], by simp [isBlank], fun c h => ?_,
      fun _ => by decide⟩
    rcases h with h | h
    · cases h
      rfl
    · cases h
      rfl
  plain := by simp [lineContent, Body.text]

/-- The first byte of the first entry is taken for its indentation, so the entry is accepted as
`ey`. -/
theorem first_byte_is_indentation :
    mkRconfCreate (Document.text [headerLine, bareLine]) =
        some (.ok [⟨[65], [⟨[101, 121], [118, 97, 108, 117, 101]⟩]⟩]) ∧
      ¬ Document.ReadsBack [headerLine, bareLine] := by
  have hrun : mkRconfCreate (Document.text [headerLine, bareLine]) =
      some (.ok [⟨[65], [⟨[101, 121], [118, 97, 108, 117, 101]⟩]⟩]) := by decide
  refine ⟨hrun, fun h => ?_⟩
  have hindented : ¬ Document.Indented [headerLine, bareLine] := by
    rintro ⟨indent, hne, hall⟩
    exact hne (hall bareLine (by simp) _ _ _ rfl).1.symm
  rcases h.2 hindented with ⟨e, he⟩
  rw [hrun] at he
  cases he

end SuperExe.Core.Rconf
