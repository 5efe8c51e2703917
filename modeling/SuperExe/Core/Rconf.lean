import SuperExe.Core.SplitLine
import SuperExe.Core.Stdio

/-! # The configuration reader

`mk_rconf_create` (`mk_core/mk_rconf.c`) for the text of a file that can be opened. A line
comes as `fgets` gives it into a buffer of 255 bytes; one that begins with a NUL makes the
reader look in front of the buffer (`none`). Its warnings and its log are left out.

What the reader does depends on the lines and on one text only, its indentation
(`readLines_eq`).
-/

namespace SuperExe.Core.Rconf

open SplitLine (mkStringCharSearch mkStringCharSearch_text text_eq_of_findIdx)

/-! ## The code -/

/-- `struct mk_rconf_entry` -/
structure RconfEntry where
  key : Bytes
  val : Bytes
deriving DecidableEq, Repr

/-- `struct mk_rconf_section` -/
structure RconfSection where
  name : Bytes
  entries : List RconfEntry
deriving DecidableEq, Repr

/-- What `mk_config_error` writes before it ends the program. -/
structure ConfigError where
  line : Nat
  msg : String
deriving DecidableEq, Repr

/-- `isblank(3)` -/
def isBlank (c : UInt8) : Bool := c == 32 || c == 9

/-- What the loop of `mk_rconf_create` keeps. -/
structure Reader where
  sections : List RconfSection
  indent : Option Bytes
deriving DecidableEq, Repr

/-- `mk_rconf_section_add` -/
def sectionAdd (sections : List RconfSection) (name : Bytes) : List RconfSection :=
  sections ++ [⟨name, []⟩]

/-- `mk_rconf_section_entry_add`: an entry before all sections is dropped. -/
def sectionEntryAdd (sections : List RconfSection) (key val : Bytes) : List RconfSection :=
  match sections.getLast? with
  | none => sections
  | some last => sections.dropLast ++ [{ last with entries := last.entries ++ [⟨key, val⟩] }]

/-- The line without its line break. -/
def chop (buf : Bytes) : Bytes :=
  if buf.getLast? = some 10 then
    if buf.dropLast.getLast? = some 13 then buf.dropLast.dropLast else buf.dropLast
  else buf

/-- The `do` loop for the indentation: its first byte may be any. -/
def indentLen (buf : Bytes) : Nat := 1 + ((buf.drop 1).takeWhile isBlank).length

/-- The key and the value of a line. -/
def readEntry (line : Nat) (conf : Reader) (indentLen : Nat) (buf : Bytes) :
    Option (Except ConfigError Reader) := do
  let rest := buf.drop indentLen
  let i ← mkStringCharSearch (rest ++ [0]) 32 rest.length
  let key := mkStringCopySubstr rest 0 i
  let val := mkStringCopySubstr (buf.drop (indentLen + i).toNat) 1 (buf.length - indentLen - i)
  match key, val with
  | some key, some val =>
    if i < 0 then some (.error ⟨line, "Each key must have a value"⟩)
    else
      some (.ok { conf with
        sections := sectionEntryAdd conf.sections (mkStringTrim key) (mkStringTrim val) })
  | _, _ => some (.error ⟨line, "Each key must have a value"⟩)

/-- A line with its indentation. -/
def readIndented (line : Nat) (conf : Reader) (indent buf : Bytes) :
    Option (Except ConfigError Reader) :=
  if strncmpEq (cstr buf) (cstr indent) indent.length = false ∨
      isBlank (cstr buf indent.length) = true then
    some (.error ⟨line, "Invalid indentation level"⟩)
  else if cstr buf indent.length = 35 ∨ indent.length = buf.length then some (.ok conf)
  else readEntry line conf indent.length buf

/-- A line that is no header, when there is no indentation yet. -/
def readFirst (line : Nat) (conf : Reader) (buf : Bytes) : Option (Except ConfigError Reader) := do
  let indent ← mkStringCopySubstr buf 0 (indentLen buf)
  let conf := { conf with indent := some indent }
  if indentLen buf = buf.length then some (.ok conf) else readIndented line conf indent buf

/-- The body of the loop, for the string in the buffer. -/
def readLine (line : Nat) (conf : Reader) (buf : Bytes) : Option (Except ConfigError Reader) :=
  if buf = [] then none
  else
    let buf := chop buf
    if buf = [] then some (.ok conf)
    else if cstr buf 0 = 35 then some (.ok conf)
    else if cstr buf 0 = 91 then do
      let stop ← mkStringCharSearch (buf ++ [0]) 93 buf.length
      if stop > 0 then
        let name ← mkStringCopySubstr buf 1 stop
        some (.ok { conf with sections := sectionAdd conf.sections name })
      else some (.error ⟨line, "Bad header definition"⟩)
    else
      match conf.indent with
      | none => readFirst line conf buf
      | some indent => readIndented line conf indent buf

/-- The loop, with the number of the lines before. -/
def readLines (line : Nat) (conf : Reader) : List Bytes → Option (Except ConfigError Reader)
  | [] => some (.ok conf)
  | buf :: rest => do
    match ← readLine (line + 1) conf (buf.takeWhile (· ≠ 0)) with
    | .error e => some (.error e)
    | .ok conf => readLines (line + 1) conf rest

/-- `mk_rconf_create` -/
def mkRconfCreate (file : Bytes) : Option (Except ConfigError (List RconfSection)) :=
  (readLines 0 ⟨[], none⟩ (fgetsAll 254 file)).map (·.map (·.sections))

/-! ## What a line says -/

/-- What a line adds to the configuration. -/
inductive Item where
  | header (name : Bytes)
  | entry (key val : Bytes)
deriving DecidableEq, Repr

def addItem (sections : List RconfSection) : Item → List RconfSection
  | .header name => sectionAdd sections name
  | .entry key val => sectionEntryAdd sections key val

/-- The line is not empty, no comment at the start of the line, and no header. -/
def isContent (line : Bytes) : Bool :=
  match line with
  | [] => false
  | c :: _ => c ≠ 35 ∧ c ≠ 91

/-- What the reader takes as the indentation of a line: its first byte, and the blanks after
it. -/
def mark (line : Bytes) : Bytes := line.take (indentLen line)

/-- The line begins with the indentation and goes on without a blank, and if it is neither a
blank line nor a comment, there is a space in it. -/
def Conforms (indent line : Bytes) : Prop :=
  indent <+: line ∧ (∀ c, (line.drop indent.length).head? = some c → isBlank c = false) ∧
    (line.drop indent.length = [] ∨ (line.drop indent.length).head? = some 35 ∨
      32 ∈ line.drop indent.length)

/-- The reader gets past the line: it is empty, a comment at the start of the line, a header
that is closed, or conforms to the indentation. -/
def Accepts (indent line : Bytes) : Prop :=
  (line.head? = some 91 → 93 ∈ line) ∧ (isContent line = true → Conforms indent line)

/-- What a line with this indentation adds. -/
def itemOf (indent line : Bytes) : Option Item :=
  if line.head? = some 91 then some (.header ((line.drop 1).takeWhile (· ≠ 93)))
  else if isContent line = false then none
  else
    let rest := line.drop indent.length
    if rest = [] ∨ rest.head? = some 35 then none
    else some (.entry (mkStringTrim (rest.takeWhile (· ≠ 32)))
      (mkStringTrim (rest.dropWhile (· ≠ 32)).tail))

/-- The indentation of a text: that of the first line that has one. -/
def indentOf (lines : List Bytes) : Bytes := ((lines.find? isContent).map mark).getD []

/-! ## One line -/

section Line

variable {line indent : Bytes} {conf : Reader} {n : Nat}

theorem cstr_eq_head (line : Bytes) (i : Nat) : cstr line i = (line.drop i).head?.getD 0 := by
  rw [cstr, List.getD_eq_getElem?_getD, List.head?_drop]

theorem strncmpEq_iff (hnul : 0 ∉ indent) :
    strncmpEq (cstr line) (cstr indent) indent.length = true ↔ indent <+: line := by
  induction indent generalizing line with
  | nil => exact iff_of_true rfl List.nil_prefix
  | cons c indent ih =>
    rw [List.mem_cons, not_or] at hnul
    rw [List.length_cons, strncmpEq]
    cases line with
    | nil =>
      have hne : cstr [] 0 ≠ cstr (c :: indent) 0 := hnul.1
      rw [if_pos hne]
      exact iff_of_false Bool.false_ne_true fun h => by cases List.prefix_nil.mp h
    | cons d line =>
      have hshift : ∀ (e : UInt8) (l : Bytes), (fun i => cstr (e :: l) (i + 1)) = cstr l :=
        fun _ _ => rfl
      rw [List.cons_prefix_cons, hshift, hshift]
      by_cases heq : d = c
      · subst heq
        have hsame : cstr (d :: line) 0 = cstr (d :: indent) 0 := rfl
        have hzero : ¬ cstr (d :: line) 0 = 0 := Ne.symm hnul.1
        rw [if_neg (not_not.mpr hsame), if_neg hzero, ih hnul.2]
        exact (and_iff_right rfl).symm
      · have hne : cstr (d :: line) 0 ≠ cstr (c :: indent) 0 := heq
        rw [if_pos hne]
        exact iff_of_false Bool.false_ne_true fun h => heq h.1.symm

theorem isBlank_iff {c : UInt8} : isBlank c = true ↔ c = 32 ∨ c = 9 := by
  simp [isBlank]

/-- The parts of a text around the first `c`. -/
theorem parts_eq {c : UInt8} {front : Bytes} (hfront : c ∉ front) (rest : Bytes) :
    (front ++ c :: rest).takeWhile (· ≠ c) = front ∧
      ((front ++ c :: rest).dropWhile (· ≠ c)).tail = rest := by
  have hall : ∀ d ∈ front, decide (d ≠ c) = true := fun d hd =>
    decide_eq_true fun heq => hfront (heq ▸ hd)
  have hstop : ¬ (fun d => decide (d ≠ c)) c = true := by simp
  rw [List.takeWhile_append_of_pos hall, List.dropWhile_append_of_pos hall]
  constructor
  · rw [List.takeWhile_cons_of_neg (p := fun d => decide (d ≠ c)) hstop, List.append_nil]
  · rw [List.dropWhile_cons_of_neg (p := fun d => decide (d ≠ c)) hstop, List.tail_cons]

/-- The key and the value stand around the first space, if there is one. -/
theorem readEntry_spec {front rest : Bytes} (hsmall : rest.length < 2 ^ 31) :
    (32 ∈ rest → readEntry n conf front.length (front ++ rest) = some (.ok { conf with
        sections := sectionEntryAdd conf.sections (mkStringTrim (rest.takeWhile (· ≠ 32)))
          (mkStringTrim (rest.dropWhile (· ≠ 32)).tail) })) ∧
      (32 ∉ rest → ∃ e, readEntry n conf front.length (front ++ rest) = some (.error e)) := by
  have hdrop : (front ++ rest).drop front.length = rest := List.drop_left
  rw [readEntry, hdrop]
  dsimp only
  rw [mkStringCharSearch_text hsmall, Option.bind_eq_bind, Option.bind_some]
  -- the first blank ends the key; without one there is no value
  cases hfind : rest.findIdx? fun x => decide (x = 32) with
  | none =>
    have hno : 32 ∉ rest := fun hmem =>
      Bool.false_ne_true ((List.findIdx?_eq_none_iff.mp hfind 32 hmem).symm.trans (by decide))
    refine ⟨fun h => absurd h hno, fun _ => ⟨⟨n, "Each key must have a value"⟩, ?_⟩⟩
    have hkey : mkStringCopySubstr rest 0 (-1) = none := rfl
    rw [Option.elim_none, hkey]
  | some p =>
    rcases text_eq_of_findIdx hfind with ⟨hp, hword, htext⟩
    have hmem : 32 ∈ rest := by
      rw [htext]
      exact List.mem_append_right _ List.mem_cons_self
    refine ⟨fun _ => ?_, fun h => absurd hmem h⟩
    have hkey : mkStringCopySubstr rest 0 (p : Int) = some (rest.take p) := by
      rw [mkStringCopySubstr, if_neg (by omega)]
      simp
    -- the value is the rest of the line behind it
    have hval : mkStringCopySubstr ((front ++ rest).drop ((front.length : Int) + p).toNat) 1
        (((front ++ rest).length : Int) - front.length - p) = some (rest.drop (p + 1)) := by
      have hpos : ((front.length : Int) + p).toNat = front.length + p := by omega
      have hlen : ((front ++ rest).length : Int) - front.length - p =
          ((rest.length - p : Nat) : Int) := by
        rw [List.length_append]
        omega
      rw [hpos, hlen, mkStringCopySubstr, if_neg (by omega), ← List.drop_drop, hdrop,
        List.drop_drop, List.take_of_length_le]
      · rfl
      · rw [List.length_drop]
        omega
    have hparts := parts_eq hword (rest.drop (p + 1))
    rw [← htext] at hparts
    rw [Option.elim_some, hkey, hval, hparts.1, hparts.2]
    exact if_neg (by omega)

theorem itemOf_content (hcontent : isContent line = true) :
    itemOf indent line =
      if line.drop indent.length = [] ∨ (line.drop indent.length).head? = some 35 then none
      else some (.entry (mkStringTrim ((line.drop indent.length).takeWhile (· ≠ 32)))
        (mkStringTrim ((line.drop indent.length).dropWhile (· ≠ 32)).tail)) := by
  cases line with
  | nil => cases hcontent
  | cons c line =>
    have hne : ¬ (c :: line).head? = some 91 := fun h => by
      rw [List.head?_cons, Option.some_inj] at h
      rw [isContent, h] at hcontent
      cases hcontent
    rw [itemOf, if_neg hne, if_neg (by rw [hcontent]; decide)]

/-- With an indentation, the line is read if it conforms to it. -/
theorem readIndented_spec (hnul : 0 ∉ indent) (hline : 0 ∉ line) (hsmall : line.length < 2 ^ 31)
    (hcontent : isContent line = true) :
    (Conforms indent line → readIndented n conf indent line = some (.ok { conf with
        sections := (itemOf indent line).elim conf.sections (addItem conf.sections) })) ∧
      (¬ Conforms indent line → ∃ e, readIndented n conf indent line = some (.error e)) := by
  rw [itemOf_content hcontent, readIndented]
  -- the line begins with the indentation, or is refused
  by_cases hfront : indent <+: line
  swap
  · have hcmp : strncmpEq (cstr line) (cstr indent) indent.length = false :=
      Bool.eq_false_iff.mpr fun h => hfront ((strncmpEq_iff hnul).mp h)
    rw [if_pos (Or.inl hcmp)]
    exact ⟨fun h => absurd h.1 hfront, fun _ => ⟨_, rfl⟩⟩
  have hcmp : ¬ strncmpEq (cstr line) (cstr indent) indent.length = false := by
    rw [(strncmpEq_iff hnul).mpr hfront]
    decide
  rcases hfront with ⟨rest, rfl⟩
  have hdrop : (indent ++ rest).drop indent.length = rest := List.drop_left
  rw [cstr_eq_head, hdrop, Conforms, hdrop]
  have hrest : rest.length < 2 ^ 31 := by
    rw [List.length_append] at hsmall
    omega
  have hlength : indent.length = (indent ++ rest).length ↔ rest = [] := by
    rw [List.length_append, ← List.length_eq_zero_iff]
    omega
  simp only [hlength]
  rw [and_iff_right (List.prefix_append _ _)]
  -- behind it: nothing, a blank, a comment, or an entry
  cases rest with
  | nil =>
    rw [if_neg (not_or.mpr ⟨hcmp, by decide⟩), if_pos (Or.inr rfl), if_pos (Or.inl rfl)]
    refine ⟨fun _ => rfl, fun h => absurd ⟨fun c hc => ?_, Or.inl rfl⟩ h⟩
    cases hc
  | cons c rest =>
    rw [List.head?_cons, Option.getD_some]
    by_cases hblank : isBlank c = true
    · rw [if_pos (Or.inr hblank)]
      refine ⟨fun h => ?_, fun _ => ⟨_, rfl⟩⟩
      rw [h.1 c rfl] at hblank
      cases hblank
    rw [if_neg (not_or.mpr ⟨hcmp, hblank⟩)]
    have hnext : ∀ d, some c = some d → isBlank d = false := by
      rintro d h
      cases h
      exact Bool.eq_false_iff.mpr hblank
    rw [and_iff_right hnext]
    have hne : ¬ c :: rest = [] := List.cons_ne_nil _ _
    by_cases hcomment : c = 35
    · rw [if_pos (Or.inl hcomment), if_pos (Or.inr (congrArg some hcomment))]
      exact ⟨fun _ => rfl, fun h => absurd (Or.inr (Or.inl (congrArg some hcomment))) h⟩
    · have hno : ¬ (c = 35 ∨ c :: rest = []) := not_or.mpr ⟨hcomment, hne⟩
      have hno' : ¬ (c :: rest = [] ∨ some c = some 35) :=
        not_or.mpr ⟨hne, fun h => hcomment (Option.some_inj.mp h)⟩
      have hspace : (c :: rest = [] ∨ some c = some 35 ∨ 32 ∈ c :: rest) ↔ 32 ∈ c :: rest := by
        rw [← or_assoc, or_iff_right hno']
      rw [if_neg hno, if_neg hno', hspace]
      exact readEntry_spec hrest

theorem mark_cons (c : UInt8) (t : Bytes) : mark (c :: t) = c :: t.takeWhile isBlank := by
  rw [mark, indentLen, List.drop_one, List.tail_cons, Nat.add_comm, List.take_succ_cons]
  exact congrArg _ (List.prefix_iff_eq_take.mp (List.takeWhile_prefix isBlank)).symm

/-- What stands behind the mark of a line. -/
theorem drop_mark (c : UInt8) (t : Bytes) :
    (c :: t).drop (mark (c :: t)).length = t.dropWhile isBlank := by
  rw [mark_cons, List.length_cons, List.drop_succ_cons]
  have hsplit : (t.takeWhile isBlank ++ t.dropWhile isBlank).drop (t.takeWhile isBlank).length =
      t.dropWhile isBlank := List.drop_left
  rwa [List.takeWhile_append_dropWhile] at hsplit

/-- The first line with an indentation begins with it. -/
theorem mark_front (line : Bytes) : mark line <+: line ∧
    ∀ c, (line.drop (mark line).length).head? = some c → isBlank c = false := by
  cases line with
  | nil => exact ⟨List.nil_prefix, fun c hc => by cases hc⟩
  | cons d t =>
    rw [drop_mark, mark_cons]
    refine ⟨(List.prefix_cons_inj d).mpr (List.takeWhile_prefix isBlank), fun c hc => ?_⟩
    have hhead := List.head?_dropWhile_not isBlank t
    rw [hc] at hhead
    simpa using hhead

/-- The indentation is learned, and the line is read with it. -/
theorem readFirst_eq (hline : 0 ∉ line) (hsmall : line.length < 2 ^ 31)
    (hcontent : isContent line = true) :
    readFirst n conf line =
      readIndented n { conf with indent := some (mark line) } (mark line) line := by
  have hcopy : mkStringCopySubstr line 0 (indentLen line) = some (mark line) := by
    rw [mkStringCopySubstr, if_neg (by omega)]
    rfl
  rw [readFirst, hcopy, Option.bind_eq_bind, Option.bind_some]
  dsimp only
  split
  · next hlength =>
    -- a line of blanks after the first byte
    have hall : mark line = line := by
      rw [mark, hlength, List.take_length]
    have hconforms : Conforms (mark line) line := by
      refine ⟨(mark_front line).1, (mark_front line).2, Or.inl ?_⟩
      rw [hall, List.drop_length]
    have hnul : 0 ∉ mark line := by
      rw [hall]
      exact hline
    rw [(readIndented_spec hnul hline hsmall hcontent).1 hconforms, itemOf_content hcontent, hall,
      List.drop_length, if_pos (Or.inl rfl)]
    rfl
  · rfl

/-- The indentation once the line is read. -/
def nextIndent (indent : Option Bytes) (line : Bytes) : Option Bytes :=
  if isContent line then some (indent.getD (mark line)) else indent

/-- A line is read if it is accepted with the indentation, its own if there is none yet. -/
theorem readLine_spec {buf : Bytes} (hbuf : buf ≠ []) (hline : 0 ∉ chop buf)
    (hsmall : (chop buf).length < 2 ^ 31)
    (hnul : ∀ indent, conf.indent = some indent → 0 ∉ indent) :
    (Accepts (conf.indent.getD (mark (chop buf))) (chop buf) →
        readLine n conf buf = some (.ok
          { sections := (itemOf (conf.indent.getD (mark (chop buf))) (chop buf)).elim conf.sections
              (addItem conf.sections)
            indent := nextIndent conf.indent (chop buf) })) ∧
      (¬ Accepts (conf.indent.getD (mark (chop buf))) (chop buf) →
        ∃ e, readLine n conf buf = some (.error e)) := by
  rw [readLine, if_neg hbuf]
  dsimp only
  generalize chop buf = line at *
  -- by the first byte: nothing, a comment, a header, or a line that is indented
  cases hcase : line with
  | nil =>
    rw [if_pos rfl]
    refine ⟨fun _ => rfl, fun h => absurd ⟨fun hc => ?_, fun hc => ?_⟩ h⟩
    · cases hc
    · cases hc
  | cons c t =>
    subst hcase
    -- the code looks at the byte itself, not at the list
    have hzero : cstr (c :: t) 0 = c := rfl
    rw [if_neg (List.cons_ne_nil _ _), hzero]
    by_cases hcomment : c = 35
    · subst hcomment
      rw [if_pos rfl]
      refine ⟨fun _ => rfl, fun h => absurd ⟨fun hc => ?_, fun hc => ?_⟩ h⟩
      · cases hc
      · cases hc
    rw [if_neg hcomment]
    by_cases hheader : c = 91
    · subst hheader
      rw [if_pos rfl, mkStringCharSearch_text hsmall, Option.bind_eq_bind, Option.bind_some]
      -- without the bracket that closes it a header is refused
      cases hfind : (91 :: t).findIdx? fun x => decide (x = 93) with
      | none =>
        have hno : 93 ∉ 91 :: t := fun hmem =>
          Bool.false_ne_true ((List.findIdx?_eq_none_iff.mp hfind 93 hmem).symm.trans (by decide))
        exact ⟨fun h => absurd (h.1 rfl) hno, fun _ => ⟨_, rfl⟩⟩
      | some p =>
        rcases text_eq_of_findIdx hfind with ⟨hp, hname, htext⟩
        cases p with
        | zero => cases (List.cons.inj htext).1
        | succ p =>
          rw [List.take_succ_cons, List.cons_append] at htext
          rw [List.take_succ_cons, List.mem_cons, not_or] at hname
          have hname' := (parts_eq hname.2 ((91 :: t).drop (p + 1 + 1))).1
          rw [← (List.cons.inj htext).2] at hname'
          have hmem : 93 ∈ 91 :: t := by
            rw [htext]
            exact List.mem_cons_of_mem _ (List.mem_append_right _ List.mem_cons_self)
          have hcopy : mkStringCopySubstr (91 :: t) 1 ((p + 1 : Nat) : Int) = some (t.take p) := by
            rw [mkStringCopySubstr, if_neg (by omega)]
            have hwidth : (((p + 1 : Nat) : Int) - 1).toNat = p := by omega
            rw [hwidth]
            rfl
          refine ⟨fun _ => ?_, fun h => absurd ⟨fun _ => hmem, fun hc => ?_⟩ h⟩
          · have hhead : (91 :: t).head? = some (91 : UInt8) := rfl
            rw [Option.elim_some, if_pos (by omega), hcopy, itemOf, if_pos hhead, List.drop_one,
              List.tail_cons, hname']
            rfl
          · cases hc
    rw [if_neg hheader]
    -- neither: what decides is whether the indentation is that of the others
    have hcontent : isContent (c :: t) = true := by
      rw [isContent]
      exact decide_eq_true ⟨hcomment, hheader⟩
    have haccepts : ∀ indent, Accepts indent (c :: t) ↔ Conforms indent (c :: t) := by
      intro indent
      have hno : (c :: t).head? = some 91 → 93 ∈ c :: t := fun h =>
        absurd (Option.some_inj.mp h) hheader
      rw [Accepts, and_iff_right hno]
      exact ⟨fun h => h hcontent, fun h _ => h⟩
    rw [haccepts, nextIndent, if_pos hcontent]
    -- which the first such line sets
    cases hindent : conf.indent with
    | none =>
      have hmark : 0 ∉ mark (c :: t) := fun h => hline ((mark_front _).1.subset h)
      rw [Option.getD_none]
      dsimp only
      rw [readFirst_eq hline hsmall hcontent]
      exact readIndented_spec hmark hline hsmall hcontent
    | some indent =>
      rw [Option.getD_some]
      rcases conf with ⟨sections, learned⟩
      cases hindent
      exact readIndented_spec (hnul indent rfl) hline hsmall hcontent

end Line

/-! ## All lines -/

section Lines

variable {line : Bytes} {conf : Reader} {bufs : List Bytes}

/-- Where the indentation is not looked at, any will do. -/
theorem accepts_of_not_content (h : isContent line = false) (indent indent' : Bytes) :
    (Accepts indent line ↔ Accepts indent' line) ∧ itemOf indent line = itemOf indent' line := by
  have hno : ¬ isContent line = true := by
    rw [h]
    exact Bool.false_ne_true
  constructor
  · exact and_congr_right fun _ => iff_of_true (fun hc => absurd hc hno) fun hc => absurd hc hno
  · rw [itemOf, itemOf, if_pos h, if_pos h]

/-- A piece of the file as `fgets` gives it. -/
structure IsPiece (buf : Bytes) : Prop where
  ne_nil : buf ≠ []
  noNul : 0 ∉ buf
  small : buf.length < 2 ^ 31

theorem chop_front (buf : Bytes) : chop buf <+: buf := by
  rw [chop]
  split
  · split
    · exact (List.dropLast_prefix _).trans (List.dropLast_prefix _)
    · exact List.dropLast_prefix _
  · exact List.prefix_refl _

theorem IsPiece.chop {buf : Bytes} (h : IsPiece buf) :
    0 ∉ chop buf ∧ (chop buf).length < 2 ^ 31 :=
  ⟨fun hmem => h.noNul ((chop_front buf).subset hmem),
    Nat.lt_of_le_of_lt (chop_front buf).length_le h.small⟩

/-- The indentation that a reader has or will have. -/
def Reader.indentFor (conf : Reader) (lines : List Bytes) : Bytes :=
  conf.indent.getD (indentOf lines)

theorem indentFor_cons (conf : Reader) (line : Bytes) (lines : List Bytes)
    (sections : List RconfSection) :
    (⟨sections, nextIndent conf.indent line⟩ : Reader).indentFor lines =
        conf.indentFor (line :: lines) ∧
      (isContent line = true → conf.indentFor (line :: lines) = conf.indent.getD (mark line)) := by
  simp only [Reader.indentFor, nextIndent, indentOf, List.find?_cons]
  cases hcontent : isContent line with
  | false => exact ⟨rfl, fun h => by cases h⟩
  | true =>
    cases conf.indent with
    | none => exact ⟨rfl, fun _ => rfl⟩
    | some indent => exact ⟨rfl, fun _ => rfl⟩

/-- The lines are read if all are accepted with one indentation, the one that the reader has or
that of the first line that has one; then they add what they say with it. -/
theorem readLines_eq (hbufs : ∀ buf ∈ bufs, IsPiece buf)
    (hnul : ∀ indent, conf.indent = some indent → 0 ∉ indent) (n : Nat) :
    ((∀ line ∈ bufs.map chop, Accepts (conf.indentFor (bufs.map chop)) line) →
        ∃ conf', readLines n conf bufs = some (.ok conf') ∧ conf'.sections =
          ((bufs.map chop).filterMap (itemOf (conf.indentFor (bufs.map chop)))).foldl addItem
            conf.sections) ∧
      ((¬ ∀ line ∈ bufs.map chop, Accepts (conf.indentFor (bufs.map chop)) line) →
        ∃ e, readLines n conf bufs = some (.error e)) := by
  induction bufs generalizing conf n with
  | nil =>
    refine ⟨fun _ => ⟨conf, rfl, rfl⟩, fun h => absurd (fun line hline => ?_) h⟩
    cases hline
  | cons buf bufs ih =>
    have hpiece := hbufs buf List.mem_cons_self
    have hwhole : buf.takeWhile (· ≠ 0) = buf := by
      rw [List.takeWhile_eq_self_iff]
      exact fun c hc => decide_eq_true fun heq => hpiece.noNul (heq ▸ hc)
    rw [readLines, hwhole, List.map_cons, Option.bind_eq_bind]
    have hspec := readLine_spec (n := n + 1) hpiece.ne_nil hpiece.chop.1 hpiece.chop.2 hnul
    have hline := hpiece.chop.1
    generalize chop buf = line at *
    -- the line is read with the indentation of all of them: it sets it, or it needs none
    have hsame : (Accepts (conf.indent.getD (mark line)) line ↔
          Accepts (conf.indentFor (line :: bufs.map chop)) line) ∧
        itemOf (conf.indent.getD (mark line)) line =
          itemOf (conf.indentFor (line :: bufs.map chop)) line := by
      cases hcontent : isContent line with
      | false => exact accepts_of_not_content hcontent _ _
      | true =>
        rw [(indentFor_cons conf line (bufs.map chop) []).2 hcontent]
        exact ⟨Iff.rfl, rfl⟩
    rw [hsame.1, hsame.2] at hspec
    rw [List.forall_mem_cons]
    -- the first line that is refused ends the reading
    by_cases haccepts : Accepts (conf.indentFor (line :: bufs.map chop)) line
    swap
    · rcases hspec.2 haccepts with ⟨e, hrun⟩
      rw [hrun]
      exact ⟨fun h => absurd h.1 haccepts, fun _ => ⟨e, rfl⟩⟩
    rw [hspec.1 haccepts, and_iff_right haccepts, Option.bind_some]
    dsimp only
    have hnext : ∀ indent, nextIndent conf.indent line = some indent → 0 ∉ indent := by
      intro indent h
      rw [nextIndent] at h
      split at h
      · cases hindent : conf.indent with
        | none =>
          rw [hindent] at h
          cases h
          exact fun hmem => hline ((mark_front line).1.subset hmem)
        | some learned =>
          rw [hindent] at h
          cases h
          exact hnul _ hindent
      · exact hnul _ h
    -- the others go on from what this one has left
    have hrest := @ih ⟨(itemOf (conf.indentFor (line :: bufs.map chop)) line).elim conf.sections
      (addItem conf.sections), nextIndent conf.indent line⟩
      (fun b hb => hbufs b (List.mem_cons_of_mem _ hb)) hnext (n + 1)
    rw [(indentFor_cons conf line (bufs.map chop) _).1] at hrest
    refine ⟨fun h => ?_, hrest.2⟩
    rcases hrest.1 h with ⟨conf', hrun, hsections⟩
    refine ⟨conf', hrun, hsections.trans ?_⟩
    cases hitem : itemOf (conf.indentFor (line :: bufs.map chop)) line with
    | none => rw [List.filterMap_cons_none hitem, Option.elim_none]
    | some item => rw [List.filterMap_cons_some hitem, Option.elim_some, List.foldl_cons]

end Lines

end SuperExe.Core.Rconf
