import SuperExe.Core.Rconf

/-! # Configurations in the documented format

A text is made of lines that end in LF or CRLF: headers, entries, comments and blank lines. The
reader gives back what is written in it, and refuses an entry without value or indentation, only
where the conditions of `Careful` hold: it looks at pieces of 254 bytes, wants one indentation of
the comments as well, splits an entry at a space, and takes any white space off.
-/

namespace SuperExe.Core.Rconf

/-! ## Texts -/

/-- A line behind its blanks. -/
inductive Body where
  | blank
  | comment (text : Bytes)
  | header (name : Bytes)
  | entry (key sep val : Bytes)
deriving DecidableEq, Repr

def Body.text : Body → Bytes
  | .blank => []
  | .comment text => 35 :: text
  | .header name => 91 :: (name ++ [93])
  | .entry key sep val => key ++ sep ++ val

/-- The line is of its kind: a header is not indented, a key has no blanks, a value begins and
ends with none, and blanks stand in between. -/
def Body.Valid (blanks : Bytes) : Body → Prop
  | .blank | .comment _ => True
  | .header _ => blanks = []
  | .entry key sep val => (∃ c, key.head? = some c ∧ (blanks = [] → c ≠ 35 ∧ c ≠ 91)) ∧
      (∀ c ∈ key, isBlank c = false) ∧ (∀ c ∈ sep, isBlank c = true) ∧
      (∀ c, val.head? = some c ∨ val.getLast? = some c → isBlank c = false) ∧
      (val ≠ [] → sep ≠ [])

/-- A line without its end. -/
def lineContent (blanks : Bytes) (body : Body) : Bytes := blanks ++ body.text

/-- A line of a configuration file. -/
structure Line where
  blanks : Bytes
  body : Body
  crlf : Bool
  blanks_blank : ∀ c ∈ blanks, isBlank c = true
  valid : body.Valid blanks
  plain : ∀ c ∈ lineContent blanks body, c ≠ 0 ∧ c ≠ 10 ∧ c ≠ 13

def Line.content (line : Line) : Bytes := lineContent line.blanks line.body

def Line.text (line : Line) : Bytes :=
  line.content ++ if line.crlf then [13, 10] else [10]

def Line.item (line : Line) : Option Item :=
  match line.body with
  | .blank | .comment _ => none
  | .header name => some (.header name)
  | .entry key _ val => some (.entry key val)

/-- A configuration file. -/
abbrev Document := List Line

def Document.text (d : Document) : Bytes := d.flatMap Line.text

/-- A section as it is written. -/
def RconfSection.items (s : RconfSection) : List Item :=
  .header s.name :: s.entries.map fun e => .entry e.key e.val

/-- The text says what the configuration holds. -/
def Document.Writes (d : Document) (sections : List RconfSection) : Prop :=
  d.filterMap Line.item = sections.flatMap RconfSection.items

/-- Every entry has a value and the same blanks in front. -/
def Document.Indented (d : Document) : Prop :=
  ∃ indent, indent ≠ [] ∧ ∀ line ∈ d, ∀ key sep val, line.body = .entry key sep val →
    line.blanks = indent ∧ val ≠ []

/-- The configuration comes back, and a text with an entry that is not indented as the others or
has no value is refused. -/
def Document.ReadsBack (d : Document) : Prop :=
  (∀ sections, d.Writes sections → d.Indented → mkRconfCreate d.text = some (.ok sections)) ∧
    (¬ d.Indented → ∃ e, mkRconfCreate d.text = some (.error e))

/-! ## What the reader sees -/

/-- A line in the pieces that fit into the buffer. -/
def Line.pieces (line : Line) : List Bytes := (fgetsAll 254 line.text).map chop

def Document.pieces (d : Document) : List Bytes := d.flatMap Line.pieces

/-- A piece that adds nothing: it is empty, a comment, or the indentation, alone or with a
comment behind it. -/
def Quiet (indent piece : Bytes) : Prop :=
  piece.head? ≠ some 91 ∧ (isContent piece = true → piece = indent ∨ indent ++ [35] <+: piece)

def Line.isHeader (line : Line) : Bool :=
  match line.body with
  | .header _ => true
  | _ => false

/-- A header or an entry that is read as it is written. -/
def Line.Kept (indent : Bytes) (line : Line) : Prop :=
  match line.body with
  | .blank | .comment _ => True
  | .header name => line.content.length ≤ 254 ∧ 93 ∉ name
  | .entry key sep val => line.content.length ≤ 254 ∧ line.blanks = indent ∧
      key.head? ≠ some 35 ∧ 32 ∈ sep ∧ Bare key ∧ Bare val

/-- The comments and blank lines from the first header on are quiet in all their pieces, those
before it have the indentation and no header. -/
def Document.Hushed (d : Document) (indent : Bytes) : Prop :=
  (∀ line ∈ d.takeWhile (!·.isHeader), ∀ piece ∈ line.pieces,
    Accepts indent piece ∧ piece.head? ≠ some 91) ∧
  ∀ line ∈ d.dropWhile (!·.isHeader), line.item = none → ∀ piece ∈ line.pieces,
    Quiet indent piece

/-- What a text must keep to, beyond its format. -/
structure Document.Careful (d : Document) : Prop where
  /-- In a text that is to be read, what is said of each line holds. -/
  read : d.Indented → (∃ sections, d.Writes sections) →
    (∀ line ∈ d, line.Kept (indentOf d.pieces)) ∧ d.Hushed (indentOf d.pieces)
  /-- In a text that is to be refused, a piece differs from the first one in its indentation, or
  has no space behind it, or is half a header. -/
  refused : ¬ d.Indented → ∃ piece ∈ d.pieces, ¬ Accepts (indentOf d.pieces) piece

/-! ## Items and sections -/

section Items

variable {sections : List RconfSection}

def Item.isEntry : Item → Bool
  | .header _ => false
  | .entry _ _ => true

theorem fold_entries (name : Bytes) (entries more : List RconfEntry) :
    (more.map fun e => Item.entry e.key e.val).foldl addItem (sections ++ [⟨name, entries⟩]) =
      sections ++ [⟨name, entries ++ more⟩] := by
  induction more generalizing entries with
  | nil => rw [List.append_nil]; rfl
  | cons e more ih =>
    have hstep : addItem (sections ++ [⟨name, entries⟩]) (.entry e.key e.val) =
        sections ++ [⟨name, entries ++ [e]⟩] := by
      rw [addItem, sectionEntryAdd, List.getLast?_concat]
      dsimp only
      rw [List.dropLast_concat]
    rw [List.map_cons, List.foldl_cons, hstep, ih, List.append_assoc, List.singleton_append]

/-- The items of a configuration add up to it. -/
theorem fold_items (before sections : List RconfSection) :
    (sections.flatMap RconfSection.items).foldl addItem before = before ++ sections := by
  induction sections generalizing before with
  | nil => exact (List.append_nil before).symm
  | cons s sections ih =>
    have hadd : addItem before (.header s.name) = before ++ [⟨s.name, []⟩] := rfl
    rw [List.flatMap_cons, List.foldl_append, RconfSection.items, List.foldl_cons, hadd,
      fold_entries, List.nil_append, ih, List.append_assoc, List.singleton_append]

theorem items_addItem (hne : sections ≠ []) (item : Item) :
    addItem sections item ≠ [] ∧ (addItem sections item).flatMap RconfSection.items =
      sections.flatMap RconfSection.items ++ [item] := by
  cases item with
  | header name =>
    rw [addItem, sectionAdd, List.flatMap_append]
    exact ⟨List.append_ne_nil_of_left_ne_nil hne _, rfl⟩
  | entry key val =>
    rcases List.eq_nil_or_concat sections with h | ⟨front, last, h⟩
    · exact absurd h hne
    · rw [List.concat_eq_append] at h
      subst h
      rw [addItem, sectionEntryAdd, List.getLast?_concat]
      dsimp only
      rw [List.dropLast_concat]
      refine ⟨List.append_ne_nil_of_right_ne_nil _ (List.cons_ne_nil _ _), ?_⟩
      simp [RconfSection.items]

theorem items_fold (hne : sections ≠ []) (items : List Item) :
    (items.foldl addItem sections).flatMap RconfSection.items =
      sections.flatMap RconfSection.items ++ items := by
  induction items generalizing sections with
  | nil => exact (List.append_nil _).symm
  | cons item items ih =>
    have hitem := items_addItem hne item
    rw [List.foldl_cons, ih hitem.1, hitem.2, List.append_assoc, List.singleton_append]

/-- Entries before the first header are lost. -/
theorem fold_eq_iff (items : List Item) :
    items.foldl addItem [] = sections ↔
      items.dropWhile Item.isEntry = sections.flatMap RconfSection.items := by
  have hback : (items.foldl addItem []).flatMap RconfSection.items =
      items.dropWhile Item.isEntry := by
    induction items with
    | nil => rfl
    | cons item items ih =>
      cases item with
      | header name =>
        have hadd : addItem [] (.header name) = [⟨name, []⟩] := rfl
        rw [List.foldl_cons, hadd, items_fold (List.cons_ne_nil _ _)]
        rfl
      | entry key val => exact ih
  constructor
  · intro h
    rw [← hback, h]
  · intro h
    rw [h] at hback
    have hfold := congrArg (List.foldl addItem []) hback
    rwa [fold_items, fold_items] at hfold

end Items

/-! ## The pieces of a text -/

section Pieces

variable {line : Line} {d : Document} {indent : Bytes}

theorem Line.text_eq (line : Line) : ∃ cr : Bytes, (cr = [] ∨ cr = [13]) ∧
    line.text = (line.content ++ cr) ++ [10] ∧ 10 ∉ line.content ++ cr := by
  have hplain : ∀ c ∈ line.content, c ≠ 10 := fun c hc => (line.plain c hc).2.1
  rw [Line.text]
  cases line.crlf with
  | false =>
    refine ⟨[], Or.inl rfl, ?_, fun h => ?_⟩
    · rw [List.append_nil]
      rfl
    · rw [List.append_nil] at h
      exact hplain 10 h rfl
  | true =>
    refine ⟨[13], Or.inr rfl, ?_, fun h => ?_⟩
    · rw [List.append_assoc]
      rfl
    · rcases List.mem_append.mp h with h | h
      · exact hplain 10 h rfl
      · cases List.mem_singleton.mp h

theorem fgetsAll_text (d : Document) :
    fgetsAll 254 d.text = d.flatMap fun line => fgetsAll 254 line.text := by
  induction d with
  | nil => rfl
  | cons line d ih =>
    rcases line.text_eq with ⟨cr, -, htext, hno⟩
    rw [List.flatMap_cons, ← ih, Document.text, List.flatMap_cons, ← Document.text, htext,
      ← fgetsAll_append (by decide) hno, List.append_assoc, List.singleton_append]

theorem map_chop (d : Document) : (fgetsAll 254 d.text).map chop = d.pieces := by
  rw [fgetsAll_text, List.map_flatMap]
  rfl

theorem isPiece (d : Document) : ∀ buf ∈ fgetsAll 254 d.text, IsPiece buf := by
  intro buf hbuf
  rcases of_mem_fgetsAll (by decide) hbuf with ⟨hne, hsub, hfits⟩
  refine ⟨hne, fun h => ?_, by omega⟩
  rcases List.mem_flatMap.mp (hsub h) with ⟨line, -, hzero⟩
  rcases line.text_eq with ⟨cr, hcr, htext, -⟩
  rw [htext, List.mem_append, List.mem_append] at hzero
  rcases hzero with (hzero | hzero) | hzero
  · exact (line.plain 0 hzero).1 rfl
  · rcases hcr with rfl | rfl
    · cases hzero
    · cases List.mem_singleton.mp hzero
  · cases List.mem_singleton.mp hzero

/-- A text is read if all its pieces are accepted with its indentation. -/
theorem create_spec (d : Document) :
    ((∀ piece ∈ d.pieces, Accepts (indentOf d.pieces) piece) →
        mkRconfCreate d.text = some (.ok
          ((d.pieces.filterMap (itemOf (indentOf d.pieces))).foldl addItem []))) ∧
      ((¬ ∀ piece ∈ d.pieces, Accepts (indentOf d.pieces) piece) →
        ∃ e, mkRconfCreate d.text = some (.error e)) := by
  have hspec := @readLines_eq ⟨[], none⟩ _ (isPiece d) (fun _ h => by cases h) 0
  rw [map_chop] at hspec
  rw [mkRconfCreate]
  constructor
  · intro h
    rcases hspec.1 h with ⟨conf, hrun, hsections⟩
    rw [hrun]
    exact congrArg (fun s => some (Except.ok s)) hsections
  · intro h
    rcases hspec.2 h with ⟨e, hrun⟩
    rw [hrun]
    exact ⟨e, rfl⟩

theorem chop_of_not_mem {buf : Bytes} (h : 10 ∉ buf) : chop buf = buf := by
  rw [chop, if_neg fun hlast => h (List.mem_of_getLast? hlast)]

/-- The line break goes, and a CR before it. -/
theorem chop_line {content cr : Bytes} (hcontent : 13 ∉ content) (hcr : cr = [] ∨ cr = [13]) :
    chop ((content ++ cr) ++ [10]) = content := by
  rw [chop, if_pos List.getLast?_concat, List.dropLast_concat]
  rcases hcr with rfl | rfl
  · rw [List.append_nil, if_neg fun hlast => hcontent (List.mem_of_getLast? hlast)]
  · rw [if_pos List.getLast?_concat, List.dropLast_concat]

theorem Line.cr_not_mem (line : Line) : 13 ∉ line.content := fun h => (line.plain 13 h).2.2 rfl

theorem Line.lf_not_mem (line : Line) : 10 ∉ line.content := fun h => (line.plain 10 h).2.1 rfl

/-- A line that fits comes in one piece, but for its end. -/
theorem pieces_fit (hfits : line.content.length ≤ 254) : ∃ (cr : Bytes) (more : List Bytes),
    (cr = [] ∨ cr = [13]) ∧ (∀ piece ∈ more, piece = []) ∧
      line.pieces = (line.content ++ cr) :: more := by
  rcases line.text_eq with ⟨cr, hcr, htext, hno⟩
  rw [Line.pieces, htext]
  rcases Nat.lt_trichotomy (line.content ++ cr).length 254 with hlt | heq | hgt
  · have hone : fgetsAll 254 (line.content ++ cr ++ [10]) = [line.content ++ cr ++ [10]] :=
      fgetsAll_line hno hlt
    refine ⟨[], [], Or.inl rfl, fun _ h => (List.not_mem_nil h).elim, ?_⟩
    rw [hone, List.map_singleton, chop_line line.cr_not_mem hcr, List.append_nil]
  · have hne : line.content ++ cr ≠ [] := by
      rw [← List.length_pos_iff]
      omega
    have htwo := fgetsAll_full hne hno [10]
    rw [heq] at htwo
    refine ⟨cr, [[]], hcr, fun _ h => List.mem_singleton.mp h, ?_⟩
    rw [htwo, List.map_cons, chop_of_not_mem hno]
    rfl
  · rw [List.length_append] at hgt
    rcases hcr with rfl | rfl
    · rw [List.length_nil] at hgt
      omega
    · -- the buffer is full before the CR
      rw [List.length_singleton] at hgt
      have heq : line.content.length = 254 := by omega
      have hne : line.content ≠ [] := by
        rw [← List.length_pos_iff]
        omega
      have htwo := fgetsAll_full hne line.lf_not_mem [13, 10]
      rw [heq] at htwo
      refine ⟨[], [[]], Or.inl rfl, fun _ h => List.mem_singleton.mp h, ?_⟩
      rw [List.append_assoc, List.singleton_append, htwo, List.map_cons,
        chop_of_not_mem line.lf_not_mem, List.append_nil]
      rfl

/-- The first piece of a line that does not fit. -/
theorem pieces_long (hlong : 254 < line.content.length) :
    ∃ more, line.pieces = line.content.take 254 :: more := by
  rcases line.text_eq with ⟨cr, -, htext, -⟩
  have hlen : (line.content.take 254).length = 254 := by
    rw [List.length_take]
    omega
  have hno : 10 ∉ line.content.take 254 := fun h => line.lf_not_mem (List.mem_of_mem_take h)
  have hne : line.content.take 254 ≠ [] := by
    rw [← List.length_pos_iff]
    omega
  have hsplit : line.text = line.content.take 254 ++ (line.content.drop 254 ++ (cr ++ [10])) := by
    rw [← List.append_assoc, List.take_append_drop, htext, List.append_assoc]
  have hfull := fgetsAll_full hne hno (line.content.drop 254 ++ (cr ++ [10]))
  rw [hlen, ← hsplit] at hfull
  exact ⟨_, by rw [Line.pieces, hfull, List.map_cons, chop_of_not_mem hno]⟩

theorem chop_keeps {k : UInt8} (hlf : k ≠ 10) (hcr : k ≠ 13) (front rest : Bytes) :
    ∃ more, chop (front ++ k :: rest) = front ++ k :: more := by
  have hk : (front ++ [k]).getLast? = some k := List.getLast?_concat
  have hne : ∀ {c : UInt8}, k ≠ c → ¬ some k = some c := fun h heq => h (Option.some_inj.mp heq)
  rcases List.eq_nil_or_concat rest with rfl | ⟨rest, x, rfl⟩
  · exact ⟨[], by rw [chop, hk, if_neg (hne hlf)]⟩
  rw [List.concat_eq_append, ← List.cons_append, ← List.append_assoc, chop, List.getLast?_concat,
    List.dropLast_concat]
  by_cases hx : some x = some 10
  swap
  · exact ⟨rest ++ [x], by rw [if_neg hx, List.append_assoc, List.cons_append]⟩
  rw [if_pos hx]
  rcases List.eq_nil_or_concat rest with rfl | ⟨rest, y, rfl⟩
  · exact ⟨[], by rw [hk, if_neg (hne hcr)]⟩
  rw [List.concat_eq_append, ← List.cons_append, ← List.append_assoc, List.getLast?_concat,
    List.dropLast_concat]
  by_cases hy : some y = some 13
  · exact ⟨rest, by rw [if_pos hy]⟩
  · exact ⟨rest ++ [y], by rw [if_neg hy, List.append_assoc, List.cons_append]⟩

/-- The first byte that is no blank has less than 254 blanks in front in its piece. -/
theorem exists_piece {k : UInt8} (hlf : k ≠ 10) (hcr : k ≠ 13) {blanks : Bytes}
    (hblanks : ∀ c ∈ blanks, isBlank c = true) (rest : Bytes) : ∃ front more,
      (∀ c ∈ front, isBlank c = true) ∧ front.length < 254 ∧
        front ++ k :: more ∈ (fgetsAll 254 (blanks ++ k :: rest)).map chop := by
  induction hlen : blanks.length using Nat.strong_induction_on generalizing blanks with
  | _ m ih =>
    have hno : 10 ∉ blanks := fun h => by cases hblanks 10 h
    rcases Nat.lt_or_ge m 254 with hlt | hge
    · have hfgets := fgets_append hno (254 - m) (k :: rest)
      rw [hlen, Nat.add_sub_cancel' (Nat.le_of_lt hlt)] at hfgets
      have hnext : fgets (254 - m) (k :: rest) = k :: fgets (253 - m) rest := by
        have hsucc : 254 - m = (253 - m) + 1 := by omega
        rw [hsucc, fgets, if_neg hlf]
      rcases chop_keeps hlf hcr blanks (fgets (253 - m) rest) with ⟨more, hmore⟩
      refine ⟨blanks, more, hblanks, by omega, ?_⟩
      rw [fgetsAll_cons (by decide) (by simp), List.map_cons, hfgets, hnext, hmore]
      exact List.mem_cons_self
    · have hfront : (blanks.take 254).length = 254 := by
        rw [List.length_take]
        omega
      have hne : blanks.take 254 ≠ [] := by
        rw [← List.length_pos_iff]
        omega
      have hfull := fgetsAll_full hne (fun h => hno (List.mem_of_mem_take h))
        (blanks.drop 254 ++ k :: rest)
      rw [hfront, ← List.append_assoc, List.take_append_drop] at hfull
      have hshort : (blanks.drop 254).length < m := by
        rw [List.length_drop]
        omega
      rcases ih _ hshort (fun c hc => hblanks c (List.mem_of_mem_drop hc)) rfl with
        ⟨front, more, hfront, hlt, hmem⟩
      refine ⟨front, more, hfront, hlt, ?_⟩
      rw [hfull]
      exact List.mem_cons_of_mem _ hmem

end Pieces

end SuperExe.Core.Rconf
