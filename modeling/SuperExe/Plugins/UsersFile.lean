import SuperExe.Core.StringSearch
import SuperExe.Plugins.Auth

/-! # The users file

`mk_auth_conf_add_users` cuts the text of a users file at its line breaks and
takes the user in front of the first `:` and what follows five bytes behind it.
The `:` is searched up to the end of the text, its position is a copy size
before it is checked against the line, the mark `{SHA1}` has six bytes, and a
last line without line break loses its last byte.
-/

namespace SuperExe.Plugins.Auth

open SuperExe.Core SuperExe.Lib

/-! ## The code -/

/-- `struct user`: the C strings in `user` and `passwd_raw`, and the bytes at
`passwd_decoded`. -/
structure Cred where
  user : Bytes
  passwdRaw : Bytes
  passwdDecoded : Bytes
deriving DecidableEq, Repr

/-- `sizeof(cred->user)` -/
def userSize : Nat := 128

/-- `sizeof(cred->passwd_raw)` -/
def passwdRawSize : Nat := 256

/-- `strncpy(field, src, n)` and `field[n] = '\0'`: the C string in the field of
`size` bytes; `none` if a byte outside the field is written. As a `size_t` a
negative `n` is larger than any field. -/
def copyField (size : Nat) (src : Bytes) (n : Int) : Option Bytes :=
  if 0 ≤ n ∧ n < size then some ((Vhost.cString src).take n.toNat) else none

/-- What is done at `i`, the end of the line from `offset`: the user that is
added, if any; `none` if memory outside a field is written. -/
def addUser (buf : Bytes) (i offset : Nat) : Option (Option Cred) := do
  let found ← mkStringSearch (buf.drop offset) (bytes ":") .strInsensitive
  let sep : Int := toInt32 found
  if (userSize : Int) ≤ sep then return none
  if (passwdRawSize : Int) ≤ toInt32 (i - offset - sep - 1 - 5) then return none
  let user ← copyField userSize (buf.drop offset) sep
  let offset' : Int := offset + (sep + 1 + 5)
  let passwdRaw ← copyField passwdRawSize (buf.drop offset'.toNat) (i - offset')
  return (base64Decode passwdRaw).map fun passwdDecoded => { user, passwdRaw, passwdDecoded }

/-- The loop with `turns` turns left. Each user is kept with the position where
its line begins. -/
def addUsersLoop (buf : Bytes) (len : Int) : Nat → Nat → Nat → Option (List (Nat × Cred))
  | 0, _, _ => some []
  | turns + 1, i, offset =>
    if buf.getD i 0 = 10 ∨ (i : Int) = len - 1 then do
      let cred ← addUser buf i offset
      let users ← addUsersLoop buf len turns (i + 1) (i + 1)
      return (cred.map fun c => (offset, c)).toList ++ users
    else addUsersLoop buf len turns (i + 1) offset

/-- `mk_auth_conf_add_users` on a file that is not known yet and can be read;
`file_to_buffer` gives no buffer for an empty file. -/
def mkAuthConfAddUsers (content : Bytes) : Option (List (Nat × Cred)) :=
  if content = [] then some []
  else
    let buf := content ++ [0]
    let len := toInt32 (Vhost.cString buf).length
    addUsersLoop buf len len.toNat 0 0

/-! ## What it should do -/

/-- A line of the text begins at `o`. -/
def LineStart (text : Bytes) (o : Nat) : Prop := o = 0 ∨ text[o - 1]? = some 10

instance (text : Bytes) (o : Nat) : Decidable (LineStart text o) :=
  inferInstanceAs (Decidable (_ ∨ _))

/-- The line from `o` on, without its line break. -/
def lineAt (text : Bytes) (o : Nat) : Bytes := (text.drop o).takeWhile (· ≠ 10)

/-- `:{SHA1}` -/
def mark : Bytes := bytes ":{SHA1}"

/-- The line from `o` on is `user:{SHA1}digest`, with a user and a digest that
fit into their fields. -/
structure WellFormed (content : Bytes) (o : Nat) (user digest : Bytes) : Prop where
  start : LineStart content o
  line : lineAt content o = user ++ mark ++ digest
  user_colon : 58 ∉ user
  nul : 0 ∉ lineAt content o
  user_fits : user.length < userSize
  digest_fits : digest.length < passwdRawSize
  decodes : base64Decode digest ≠ none

/-- No byte outside the fields is written, and the users that are loaded are
those of the well-formed lines, each from its own line and in their order. -/
def Loads (loaded : Cred → Bytes) (written : Bytes → Option Bytes) (content : Bytes) : Prop :=
  ∃ users, mkAuthConfAddUsers content = some users ∧ users.Pairwise (fun a b => a.1 < b.1) ∧
    ∀ o user value,
      (∃ cred, (o, cred) ∈ users ∧ cred.user = user ∧ loaded cred = value) ↔
        ∃ digest, WellFormed content o user digest ∧ written digest = some value

/-- The digest as it is written in the line. -/
def LoadsTexts (content : Bytes) : Prop := Loads Cred.passwdRaw some content

/-- The digest that the text stands for. -/
def LoadsDigests (content : Bytes) : Prop := Loads Cred.passwdDecoded base64Decode content

/-! ## What a line does -/

/-- What `strlen` and the search see of the buffer. -/
def seenText (content : Bytes) : Bytes := Vhost.cString content

/-- What the loop sees of it: `len` is an `int`. -/
def seenLines (content : Bytes) : Bytes :=
  (seenText content).take (toInt32 (seenText content).length).toNat

/-- Where the loop takes the line from `o` on to end: at the line break, or at
the last byte it sees. -/
def lineEnd (seen : Bytes) (o : Nat) : Nat := min (o + (lineAt seen o).length) (seen.length - 1)

/-- The first `:` from `o` on to the end of the text, or `-1`. -/
def sepAt (text : Bytes) (o : Nat) : Int :=
  toInt32 (match (text.drop o).idxOf? 58 with
    | some p => (p : Int)
    | none => -1)

/-- One of the two checks finds the line too long. -/
def TooLong (text : Bytes) (o i : Nat) : Prop :=
  (userSize : Int) ≤ sepAt text o ∨ (passwdRawSize : Int) ≤ toInt32 (i - o - sepAt text o - 6)

/-- The `:` is in the line, with five bytes behind it. -/
def Separated (text : Bytes) (o i : Nat) : Prop := 0 ≤ sepAt text o ∧ o + sepAt text o + 6 ≤ i

/-- What is taken for the digest. -/
def takenAt (text : Bytes) (o i : Nat) : Bytes :=
  let k := (o + sepAt text o + 6).toNat
  (text.drop k).take (i - k)

/-- The line is passed over. -/
def Skipped (text : Bytes) (o i : Nat) : Prop :=
  TooLong text o i ∨ Separated text o i ∧ base64Decode (takenAt text o i) = none

section Line

variable {text rest : Bytes} {o i : Nat}

theorem cString_buf (content : Bytes) :
    ∃ rest, content ++ [0] = seenText content ++ 0 :: rest := by
  unfold seenText Vhost.cString
  induction content with
  | nil => exact ⟨[], rfl⟩
  | cons c cs ih =>
    by_cases hc : c = 0
    · subst hc
      exact ⟨cs ++ [0], by simp⟩
    · rcases ih with ⟨rest, hrest⟩
      refine ⟨rest, ?_⟩
      rw [List.takeWhile_cons, if_pos (decide_eq_true hc), List.cons_append, hrest,
        List.cons_append]

theorem cString_drop (rest : Bytes) (htext : 0 ∉ text) (ho : o ≤ text.length) :
    Vhost.cString ((text ++ 0 :: rest).drop o) = text.drop o := by
  rw [List.drop_append_of_le_length ho,
    Vhost.cString_append fun hmem => htext (List.mem_of_mem_drop hmem)]
  simp [Vhost.cString]

theorem strstrBy_colon (t : Bytes) : strstrBy tolower (bytes ":") t = t.idxOf? 58 := by
  induction t with
  | nil => rfl
  | cons c t ih =>
    have hc := tolower_toNat c
    have hpre : (bytes ":").map tolower <+: (c :: t).map tolower ↔ c = 58 := by
      have hcolon : (bytes ":").map tolower = [58] := by decide
      rw [hcolon, List.map_cons, List.cons_prefix_cons]
      constructor
      · rintro ⟨h, -⟩
        have hval : (tolower c).toNat = 58 := by rw [← h]; rfl
        apply UInt8.toNat_inj.mp
        show c.toNat = 58
        split_ifs at hc <;> omega
      · rintro rfl
        exact ⟨by decide, List.nil_prefix⟩
    rw [strstrBy, List.idxOf?_cons, ih]
    by_cases h : c = 58
    · rw [if_pos (hpre.mpr h), if_pos (by simpa using h)]
    · rw [if_neg (mt hpre.mp h), if_neg (by simpa using h)]

/-- The search ends with the text, not with the line. -/
theorem search_colon (rest : Bytes) (htext : 0 ∉ text) (ho : o ≤ text.length) :
    (mkStringSearch ((text ++ 0 :: rest).drop o) (bytes ":") .strInsensitive).map toInt32 =
      some (sepAt text o) := by
  have hnul : 0 ∈ (text ++ 0 :: rest).drop o := by
    rw [List.drop_append_of_le_length ho]
    simp
  have hstr : ((text ++ 0 :: rest).drop o).takeWhile (· != 0) = text.drop o := by
    rw [← cString_drop rest htext ho, Vhost.cString]
    congr 1
    funext c
    rw [Bool.eq_iff_iff]
    simp
  rw [mkStringSearch, mkStringSearchBase, if_pos (by decide), if_pos hnul, hstr, sepAt]
  show (match strstrBy tolower (bytes ":") (text.drop o) with
    | some p => some (p : Int)
    | none => some (-1)).map toInt32 = _
  rw [strstrBy_colon]
  cases (text.drop o).idxOf? 58 <;> rfl

/-- `addUser` in terms of the text. -/
theorem addUser_eq (htext : 0 ∉ text) (ho : o ≤ text.length) :
    addUser (text ++ 0 :: rest) i o =
      (if (userSize : Int) ≤ sepAt text o then some none
      else if (passwdRawSize : Int) ≤ toInt32 (i - o - sepAt text o - 6) then some none
      else do
        let user ← copyField userSize ((text ++ 0 :: rest).drop o) (sepAt text o)
        let passwdRaw ← copyField passwdRawSize
          ((text ++ 0 :: rest).drop (o + sepAt text o + 6).toNat) (i - (o + sepAt text o + 6))
        return (base64Decode passwdRaw).map fun passwdDecoded =>
          { user, passwdRaw, passwdDecoded }) := by
  have hfound := search_colon rest htext ho
  rw [Option.map_eq_some_iff] at hfound
  rcases hfound with ⟨found, hsearch, hsep⟩
  have hroom : (i : Int) - o - sepAt text o - 1 - 5 = i - o - sepAt text o - 6 := by omega
  have hnext : (o : Int) + (sepAt text o + 1 + 5) = o + sepAt text o + 6 := by omega
  rw [addUser, hsearch, Option.bind_eq_bind, Option.bind_some]
  simp only [hsep, hroom, hnext]
  rfl

theorem addUser_tooLong (htext : 0 ∉ text) (ho : o ≤ text.length) (h : TooLong text o i) :
    addUser (text ++ 0 :: rest) i o = some none := by
  rw [addUser_eq htext ho]
  rcases h with h | h
  · rw [if_pos h]
  · rw [if_pos h, ite_self]

/-- Without its `:` a line is written over the fields. -/
theorem addUser_outside (htext : 0 ∉ text) (ho : o ≤ text.length) (hlong : ¬ TooLong text o i)
    (h : ¬ Separated text o i) : addUser (text ++ 0 :: rest) i o = none := by
  rw [addUser_eq htext ho, if_neg fun h' => hlong (Or.inl h'), if_neg fun h' => hlong (Or.inr h')]
  by_cases hsep : 0 ≤ sepAt text o
  · have hover : ¬ (0 ≤ (i : Int) - (o + sepAt text o + 6)) := fun hle => h ⟨hsep, by omega⟩
    have hraw (src : Bytes) :
        copyField passwdRawSize src (i - (o + sepAt text o + 6)) = none :=
      if_neg fun h' => hover h'.1
    simp only [hraw]
    exact Option.bind_fun_none _
  · have huser (src : Bytes) : copyField userSize src (sepAt text o) = none :=
      if_neg fun h' => hsep h'.1
    simp only [huser]
    rfl

/-- With it the line is copied into them. -/
theorem addUser_separated (rest : Bytes) (htext : 0 ∉ text) (hi : i ≤ text.length) (hint : i < 2 ^ 31)
    (hlong : ¬ TooLong text o i) (h : Separated text o i) :
    addUser (text ++ 0 :: rest) i o =
      some ((base64Decode (takenAt text o i)).map fun passwdDecoded =>
        { user := (text.drop o).take (sepAt text o).toNat,
          passwdRaw := takenAt text o i, passwdDecoded }) := by
  rcases h with ⟨hsep, hend⟩
  have hshort : ¬ (userSize : Int) ≤ sepAt text o := fun h' => hlong (Or.inl h')
  have hroom : ¬ (passwdRawSize : Int) ≤ toInt32 (i - o - sepAt text o - 6) :=
    fun h' => hlong (Or.inr h')
  have hfits : (i : Int) - (o + sepAt text o + 6) < passwdRawSize := by
    rw [toInt32_eq (by omega) (by omega)] at hroom
    omega
  have huser : copyField userSize ((text ++ 0 :: rest).drop o) (sepAt text o) =
      some ((text.drop o).take (sepAt text o).toNat) := by
    rw [copyField, if_pos ⟨hsep, by omega⟩, cString_drop rest htext (by omega)]
  have hraw : copyField passwdRawSize ((text ++ 0 :: rest).drop (o + sepAt text o + 6).toNat)
      (i - (o + sepAt text o + 6)) = some (takenAt text o i) := by
    have hlen : ((i : Int) - (o + sepAt text o + 6)).toNat = i - (o + sepAt text o + 6).toNat := by
      omega
    rw [copyField, if_pos ⟨by omega, hfits⟩, cString_drop rest htext (by omega), hlen, takenAt]
  rw [addUser_eq htext (by omega), if_neg hshort, if_neg hroom, huser, hraw]
  rfl

theorem not_mem_seenText (content : Bytes) : 0 ∉ seenText content :=
  Vhost.zero_notMem_cString content

end Line

/-! ## The loop -/

section Loop

variable {buf seen : Bytes} {users : List (Nat × Cred)} {o i offset turns : Nat}

/-- A line of `seen` begins at `o`, not before `offset`. -/
def LineFrom (seen : Bytes) (offset o : Nat) : Prop :=
  offset ≤ o ∧ o < seen.length ∧ LineStart seen o

/-- There is no line break from `offset` to `i`. -/
def Unfinished (seen : Bytes) (offset i : Nat) : Prop :=
  ∀ k, offset ≤ k → k < i → seen[k]? ≠ some 10

theorem lineAt_length (hoff : offset ≤ i) (hi : i < seen.length)
    (h : Unfinished seen offset i) (hend : seen[i]? = some 10) :
    (lineAt seen offset).length = i - offset := by
  have hsplit : seen.drop offset = (seen.drop offset).take (i - offset) ++ seen.drop i := by
    have hdrop : (seen.drop offset).drop (i - offset) = seen.drop i := by
      rw [List.drop_drop, Nat.add_sub_cancel' hoff]
    rw [← hdrop, List.take_append_drop]
  have hall : ∀ c ∈ (seen.drop offset).take (i - offset), decide (c ≠ 10) = true := by
    intro c hc
    rcases List.mem_take_iff_getElem.mp hc with ⟨k, hk, rfl⟩
    rw [List.length_drop] at hk
    refine decide_eq_true fun hten => h (offset + k) (by omega) (by omega) ?_
    rw [List.getElem_drop] at hten
    rw [List.getElem?_eq_getElem (by omega), hten]
  have hget : seen.drop i = 10 :: seen.drop (i + 1) := by
    rw [List.getElem?_eq_getElem hi] at hend
    rw [List.drop_eq_getElem_cons hi, Option.some_inj.mp hend]
  rw [lineAt, hsplit, List.takeWhile_append_of_pos hall, hget, List.takeWhile_cons,
    if_neg (by decide), List.append_nil, List.length_take, List.length_drop]
  omega

/-- The line ends where the loop stops at it. -/
theorem lineEnd_eq (hoff : offset ≤ i) (hi : i < seen.length) (h : Unfinished seen offset i)
    (hend : seen[i]? = some 10 ∨ i = seen.length - 1) : lineEnd seen offset = i := by
  by_cases hten : seen[i]? = some 10
  · have hlen := lineAt_length hoff hi h hten
    rw [lineEnd, hlen]
    omega
  · -- the last line has no line break at all
    have hlast : i = seen.length - 1 := hend.resolve_left hten
    have hall : lineAt seen offset = seen.drop offset := by
      refine List.takeWhile_eq_self_iff.mpr fun c hc => ?_
      rcases List.mem_iff_getElem.mp hc with ⟨k, hk, rfl⟩
      rw [List.length_drop] at hk
      refine decide_eq_true fun hc => ?_
      rw [List.getElem_drop] at hc
      have hget : seen[offset + k]? = some 10 := by
        rw [List.getElem?_eq_getElem (by omega), hc]
      rcases Nat.lt_or_eq_of_le (show offset + k ≤ i by omega) with hlt | heq
      · exact h (offset + k) (by omega) hlt hget
      · exact hten (heq ▸ hget)
    rw [lineEnd, hall, List.length_drop]
    omega

/-- The lines from `offset` on are the one at `offset` and those behind its
end. -/
theorem lineFrom_iff (hoff : offset ≤ i) (hi : i < seen.length) (hstart : LineStart seen offset)
    (h : Unfinished seen offset i) (o : Nat) :
    LineFrom seen offset o ↔ o = offset ∨ LineFrom seen (i + 1) o := by
  constructor
  · rintro ⟨hle, hlt, hline⟩
    rcases Nat.lt_or_eq_of_le hle with hlater | rfl
    · refine Or.inr ⟨?_, hlt, hline⟩
      by_contra hbefore
      rcases hline with rfl | hten
      · omega
      · exact h (o - 1) (by omega) (by omega) hten
    · exact Or.inl rfl
  · rintro (rfl | ⟨hle, hlt, hline⟩)
    · exact ⟨Nat.le_refl _, by omega, hstart⟩
    · exact ⟨by omega, hlt, hline⟩

/-- What the loop gives for the lines from `offset` on. -/
structure LoopGives (buf seen : Bytes) (offset : Nat) (users : List (Nat × Cred)) : Prop where
  inside : ∀ o, LineFrom seen offset o → addUser buf (lineEnd seen o) o ≠ none
  sorted : users.Pairwise fun a b => a.1 < b.1
  loaded : ∀ o cred, (o, cred) ∈ users ↔
    LineFrom seen offset o ∧ addUser buf (lineEnd seen o) o = some (some cred)

/-- The end of a line. -/
theorem LoopGives.line {cred : Option Cred} (hoff : offset ≤ i) (hi : i < seen.length)
    (hstart : LineStart seen offset) (hline : Unfinished seen offset i)
    (hend : lineEnd seen offset = i) (hcred : addUser buf i offset = some cred)
    (h : LoopGives buf seen (i + 1) users) :
    LoopGives buf seen offset ((cred.map fun c => (offset, c)).toList ++ users) where
  inside := by
    intro o ho
    rcases (lineFrom_iff hoff hi hstart hline o).mp ho with rfl | hlater
    · rw [hend, hcred]
      exact Option.some_ne_none _
    · exact h.inside o hlater
  sorted := by
    cases cred with
    | none => exact h.sorted
    | some c =>
      refine List.pairwise_cons.mpr ⟨?_, h.sorted⟩
      rintro ⟨o, c'⟩ hmem
      have hle := ((h.loaded o c').mp hmem).1.1
      show offset < o
      omega
  loaded := by
    intro o c
    rw [List.mem_append, h.loaded, lineFrom_iff hoff hi hstart hline]
    have hfirst : (o, c) ∈ (cred.map fun c => (offset, c)).toList ↔ o = offset ∧ cred = some c := by
      cases cred with
      | none => simp
      | some c' =>
        simp only [Option.map_some, Option.toList_some, List.mem_singleton, Prod.mk.injEq,
          Option.some_inj]
        exact and_congr Iff.rfl eq_comm
    rw [hfirst]
    constructor
    · rintro (⟨rfl, rfl⟩ | ⟨hlater, hadd⟩)
      · exact ⟨Or.inl rfl, by rw [hend, hcred]⟩
      · exact ⟨Or.inr hlater, hadd⟩
    · rintro ⟨rfl | hlater, hadd⟩
      · rw [hend, hcred, Option.some_inj] at hadd
        exact Or.inl ⟨rfl, hadd⟩
      · exact Or.inr ⟨hlater, hadd⟩

/-- The loop fails at the first line that is written over the fields, and loads
what the others give. -/
theorem addUsersLoop_spec (hbuf : ∀ k < seen.length, buf[k]? = seen[k]?)
    (hturns : i + turns = seen.length) (hoff : offset ≤ i) (hlast : turns = 0 → offset = i)
    (hstart : LineStart seen offset ∨ turns = 0) (hline : Unfinished seen offset i) :
    (∀ users, addUsersLoop buf seen.length turns i offset = some users →
      LoopGives buf seen offset users) ∧
    (addUsersLoop buf seen.length turns i offset = none →
      ∃ o, LineFrom seen offset o ∧ addUser buf (lineEnd seen o) o = none) := by
  -- by induction on the bytes that are left; the line that is being read has no end before `i`
  induction turns generalizing i offset with
  | zero =>
    obtain rfl := hlast rfl
    have hno (o : Nat) : ¬ LineFrom seen offset o := fun h => by
      have := h.1
      have := h.2.1
      omega
    constructor
    · intro users husers
      obtain rfl : [] = users := by simpa [addUsersLoop] using husers
      exact ⟨fun o ho => (hno o ho).elim, List.Pairwise.nil, fun o cred => by simp [hno]⟩
    · intro h
      cases h
  | succ turns ih =>
    have hi : i < seen.length := by omega
    have hbyte : buf.getD i 0 = 10 ↔ seen[i]? = some 10 := by
      rw [List.getD_eq_getElem?_getD, hbuf i hi, List.getElem?_eq_getElem hi, Option.getD_some,
        Option.some_inj]
    have hstart' : LineStart seen offset := hstart.resolve_right (by omega)
    rw [addUsersLoop]
    -- a line ends here if this is an LF or the last byte
    by_cases hend : buf.getD i 0 = 10 ∨ (i : Int) = (seen.length : Int) - 1
    · have hend' : seen[i]? = some 10 ∨ i = seen.length - 1 := by
        rcases hend with h | h
        · exact Or.inl (hbyte.mp h)
        · exact Or.inr (by omega)
      have hstop := lineEnd_eq hoff hi hline hend'
      have hnext : LineStart seen (i + 1) ∨ turns = 0 := by
        rcases hend' with h | h
        · exact Or.inl (Or.inr h)
        · exact Or.inr (by omega)
      -- the next line starts behind it
      rcases @ih (i + 1) (i + 1) (by omega) (Nat.le_refl _) (fun _ => rfl) hnext
        (fun k _ _ => by omega) with ⟨hgives, hfails⟩
      rw [if_pos hend]
      cases hcred : addUser buf i offset with
      | none =>
        constructor
        · intro users husers
          cases husers
        · intro _
          exact ⟨offset, ⟨Nat.le_refl _, by omega, hstart'⟩, by rw [hstop, hcred]⟩
      | some cred =>
        cases hrest : addUsersLoop buf seen.length turns (i + 1) (i + 1) with
        | none =>
          constructor
          · intro users husers
            cases husers
          · intro _
            rcases hfails hrest with ⟨o, ho, hadd⟩
            exact ⟨o, (lineFrom_iff hoff hi hstart' hline o).mpr (Or.inr ho), hadd⟩
        | some rest =>
          constructor
          · intro users husers
            obtain rfl := Option.some_inj.mp husers
            exact (hgives rest hrest).line hoff hi hstart' hline hstop hcred
          · intro h
            cases h
    · have hten : seen[i]? ≠ some 10 := fun h => hend (Or.inl (hbyte.mpr h))
      rw [if_neg hend]
      refine ih (by omega) (by omega) (fun h => ?_) (Or.inl hstart') fun k hk hki => ?_
      · exact (hend (Or.inr (by omega))).elim
      · rcases Nat.lt_or_eq_of_le (Nat.le_of_lt_succ hki) with hlt | rfl
        · exact hline k hk hlt
        · exact hten

end Loop

section Run

variable {content user digest : Bytes} {cred : Cred} {o : Nat}

/-- Where the loop takes the line from `o` on to end. -/
def lineStop (content : Bytes) (o : Nat) : Nat := lineEnd (seenLines content) o

/-- The loop comes to the line from `o` on. -/
def Reached (content : Bytes) (o : Nat) : Prop :=
  o < (seenLines content).length ∧ LineStart content o

/-- What the loop does there. -/
def outcome (content : Bytes) (o : Nat) : Option (Option Cred) :=
  addUser (content ++ [0]) (lineStop content o) o

theorem seenLines_front (content : Bytes) : seenLines content <+: content :=
  (List.take_prefix _ _).trans (List.takeWhile_prefix _)

theorem getElem?_seenLines {k : Nat} (hk : k < (seenLines content).length) :
    (seenLines content)[k]? = content[k]? := by
  rcases seenLines_front content with ⟨t, ht⟩
  conv_rhs => rw [← ht]
  exact (List.getElem?_append_left hk).symm

theorem length_seenLines (content : Bytes) :
    (seenLines content).length = (toInt32 (seenText content).length).toNat := by
  have hle : (toInt32 (seenText content).length).toNat ≤ (seenText content).length := by
    unfold toInt32
    rw [Int.bmod_def]
    split <;> omega
  rw [seenLines, List.length_take, Nat.min_eq_left hle]

theorem reached_iff (content : Bytes) (o : Nat) :
    Reached content o ↔ LineFrom (seenLines content) 0 o := by
  constructor
  · rintro ⟨hlt, hstart⟩
    refine ⟨Nat.zero_le o, hlt, hstart.imp id fun h => ?_⟩
    rw [getElem?_seenLines (by omega), h]
  · rintro ⟨-, hlt, hstart⟩
    refine ⟨hlt, hstart.imp id fun h => ?_⟩
    rw [← getElem?_seenLines (by omega), h]

/-- The loop over a whole file. -/
theorem mkAuthConfAddUsers_spec (content : Bytes) :
    (∀ users, mkAuthConfAddUsers content = some users →
      LoopGives (content ++ [0]) (seenLines content) 0 users) ∧
    (mkAuthConfAddUsers content = none → ∃ o, Reached content o ∧ outcome content o = none) := by
  have hrun : mkAuthConfAddUsers content = addUsersLoop (content ++ [0])
      (seenLines content).length (seenLines content).length 0 0 := by
    have hstr : Vhost.cString (content ++ [0]) = seenText content := by
      rcases cString_buf content with ⟨rest, hbuf⟩
      have h := cString_drop rest (not_mem_seenText content) (Nat.zero_le _)
      rwa [List.drop_zero, List.drop_zero, ← hbuf] at h
    have hlen := length_seenLines content
    by_cases hnil : content = []
    · subst hnil
      rfl
    · rw [mkAuthConfAddUsers, if_neg hnil]
      simp only [hstr]
      by_cases hneg : toInt32 (seenText content).length < 0
      · rw [hlen, Int.toNat_of_nonpos (by omega), addUsersLoop, addUsersLoop]
      · rw [hlen, Int.toNat_of_nonneg (by omega)]
  have hbuf : ∀ k < (seenLines content).length, (content ++ [0])[k]? = (seenLines content)[k]? := by
    intro k hk
    have hle := (seenLines_front content).length_le
    rw [getElem?_seenLines hk, List.getElem?_append_left (by omega)]
  have hspec := @addUsersLoop_spec _ _ 0 0 _ hbuf (Nat.zero_add _) (Nat.le_refl _)
    (fun _ => rfl) (Or.inl (Or.inl rfl)) fun k _ hk => by omega
  rw [← hrun] at hspec
  refine ⟨hspec.1, fun h => ?_⟩
  rcases hspec.2 h with ⟨o, ho, hadd⟩
  exact ⟨o, (reached_iff content o).mpr ho, hadd⟩

/-- A file is loaded as it should be if each of its lines is. -/
theorem loads_iff (loaded : Cred → Bytes) (written : Bytes → Option Bytes) (content : Bytes) :
    Loads loaded written content ↔
      (∀ o, Reached content o → outcome content o ≠ none) ∧
      ∀ o user value,
        (∃ cred, Reached content o ∧ outcome content o = some (some cred) ∧ cred.user = user ∧
          loaded cred = value) ↔
        ∃ digest, WellFormed content o user digest ∧ written digest = some value := by
  rcases mkAuthConfAddUsers_spec content with ⟨hgives, hfails⟩
  have hmem {users : List (Nat × Cred)} (husers : mkAuthConfAddUsers content = some users)
      (o : Nat) (user value : Bytes) :
      (∃ cred, (o, cred) ∈ users ∧ cred.user = user ∧ loaded cred = value) ↔
        ∃ cred, Reached content o ∧ outcome content o = some (some cred) ∧ cred.user = user ∧
          loaded cred = value := by
    refine exists_congr fun cred => ?_
    rw [(hgives users husers).loaded, reached_iff, outcome, lineStop, and_assoc]
  constructor
  · rintro ⟨users, husers, -, hall⟩
    refine ⟨fun o ho => (hgives users husers).inside o ((reached_iff content o).mp ho), ?_⟩
    intro o user value
    rw [← hmem husers, hall]
  · rintro ⟨hinside, hall⟩
    cases husers : mkAuthConfAddUsers content with
    | none =>
      rcases hfails husers with ⟨o, ho, hadd⟩
      exact (hinside o ho hadd).elim
    | some users =>
      refine ⟨users, husers, (hgives users husers).sorted, fun o user value => ?_⟩
      rw [hmem husers, hall]

/-! ## Lines that are reached -/

theorem lineStop_lt (h : Reached content o) :
    o ≤ (seenText content).length ∧ lineStop content o ≤ (seenText content).length ∧
      lineStop content o < 2 ^ 31 := by
  have hlen := length_seenLines content
  have hint := (toInt32_bounds (seenText content).length).2
  have hle : (seenLines content).length ≤ (seenText content).length := by
    rw [seenLines, List.length_take]
    omega
  have hlt := h.1
  have hstop : lineStop content o ≤ (seenLines content).length - 1 := Nat.min_le_right _ _
  omega

/-- The three ways a line can go. -/
theorem outcome_cases (h : Reached content o) :
    (Skipped (seenText content) o (lineStop content o) ∧ outcome content o = some none) ∨
    (¬ Skipped (seenText content) o (lineStop content o) ∧
      (outcome content o = none ∨
        ¬ TooLong (seenText content) o (lineStop content o) ∧
        Separated (seenText content) o (lineStop content o) ∧ ∃ passwdDecoded,
          base64Decode (takenAt (seenText content) o (lineStop content o)) = some passwdDecoded ∧
          outcome content o = some (some
            { user := ((seenText content).drop o).take (sepAt (seenText content) o).toNat,
              passwdRaw := takenAt (seenText content) o (lineStop content o), passwdDecoded }))) := by
  rcases lineStop_lt h with ⟨ho, hi, hint⟩
  rcases cString_buf content with ⟨rest, hbuf⟩
  have htext := not_mem_seenText content
  rw [outcome, hbuf]
  by_cases hlong : TooLong (seenText content) o (lineStop content o)
  · exact Or.inl ⟨Or.inl hlong, addUser_tooLong htext ho hlong⟩
  by_cases hsep : Separated (seenText content) o (lineStop content o)
  · rw [addUser_separated rest htext hi hint hlong hsep]
    cases hdecode : base64Decode (takenAt (seenText content) o (lineStop content o)) with
    | none => exact Or.inl ⟨Or.inr ⟨hsep, hdecode⟩, rfl⟩
    | some passwdDecoded =>
      refine Or.inr ⟨?_, Or.inr ⟨hlong, hsep, passwdDecoded, rfl, rfl⟩⟩
      rintro (h | ⟨-, h⟩)
      · exact hlong h
      · rw [hdecode] at h
        cases h
  · refine Or.inr ⟨?_, Or.inl (addUser_outside htext ho hlong hsep)⟩
    rintro (h | ⟨h, -⟩)
    · exact hlong h
    · exact hsep h

/-- The rest of the text begins with the line. -/
theorem WellFormed.text (h : WellFormed content o user digest) (ho : o ≤ (seenText content).length) :
    ∃ t, (seenText content).drop o = user ++ 58 :: (bytes "\x7bSHA1" ++ 125 :: (digest ++ t)) := by
  have hstr : Vhost.cString (content.drop o) = (seenText content).drop o := by
    have hpre : seenText content <+: content := List.takeWhile_prefix _
    rcases cString_buf content with ⟨rest, hbuf⟩
    have hdrop := cString_drop rest (not_mem_seenText content) ho
    rw [← hbuf, List.drop_append_of_le_length (by
      have := hpre.length_le
      omega)] at hdrop
    rw [← hdrop]
    by_cases hzero : 0 ∈ content.drop o
    · rw [Vhost.cString_append_of_mem hzero]
    · rw [Vhost.cString_append hzero, Vhost.cString_eq_self.mpr hzero]
      simp [Vhost.cString]
  rcases List.takeWhile_prefix (fun c : UInt8 => decide (c ≠ 10)) (l := content.drop o) with ⟨t, ht⟩
  have hline : content.drop o = lineAt content o ++ t := ht.symm
  rw [hline, Vhost.cString_append h.nul, h.line] at hstr
  refine ⟨Vhost.cString t, ?_⟩
  have hmark : mark = 58 :: (bytes "\x7bSHA1" ++ [125]) := by decide
  rw [← hstr, hmark]
  simp

theorem WellFormed.sep (h : WellFormed content o user digest)
    (ho : o ≤ (seenText content).length) : sepAt (seenText content) o = user.length := by
  rcases h.text ho with ⟨t, ht⟩
  have hfits : user.length < 128 := h.user_fits
  have hpos : (user ++ 58 :: (bytes "\x7bSHA1" ++ 125 :: (digest ++ t))).idxOf? 58 =
      some user.length := by
    rw [List.idxOf?_eq_some_iff]
    refine ⟨by simp, by simp, fun k hk => ?_⟩
    rw [List.getElem_append_left hk]
    exact fun heq => h.user_colon (heq ▸ List.getElem_mem hk)
  have hsmall : toInt32 (user.length : Int) = user.length := toInt32_eq (by omega) (by omega)
  rw [sepAt, ht, hpos]
  exact hsmall

theorem takeWhile_length_le {s t : Bytes} (p : UInt8 → Bool) (h : s <+: t) :
    (s.takeWhile p).length ≤ (t.takeWhile p).length := by
  rcases h with ⟨u, rfl⟩
  rw [List.takeWhile_append]
  split
  · next hall =>
    rw [List.length_append, hall]
    exact Nat.le_add_right _ _
  · exact Nat.le_refl _

/-- The loop does not look behind the line. -/
theorem WellFormed.stop_le (h : WellFormed content o user digest) :
    lineStop content o ≤ o + user.length + 7 + digest.length := by
  have hlen : (lineAt content o).length = user.length + 7 + digest.length := by
    have hmark : mark.length = 7 := by decide
    rw [h.line, List.length_append, List.length_append, hmark]
  have hle : (lineAt (seenLines content) o).length ≤ (lineAt content o).length :=
    takeWhile_length_le _ ((seenLines_front content).drop o)
  have hstop : lineStop content o ≤ o + (lineAt (seenLines content) o).length :=
    Nat.min_le_left _ _
  omega

/-- The mark has a byte more than is skipped. -/
theorem WellFormed.taken (h : WellFormed content o user digest)
    (ho : o ≤ (seenText content).length) :
    takenAt (seenText content) o (lineStop content o) =
      (125 :: digest).take (lineStop content o - (o + user.length + 6)) := by
  rcases h.text ho with ⟨t, ht⟩
  have hskip : ((o : Int) + sepAt (seenText content) o + 6).toNat = o + (user.length + 6) := by
    rw [h.sep ho]
    omega
  have hdrop : (seenText content).drop (o + (user.length + 6)) = 125 :: (digest ++ t) := by
    have hsplit : user ++ 58 :: (bytes "\x7bSHA1" ++ 125 :: (digest ++ t)) =
        (user ++ bytes ":\x7bSHA1") ++ 125 :: (digest ++ t) := by
      have hmark : bytes ":\x7bSHA1" = 58 :: bytes "\x7bSHA1" := by decide
      rw [hmark]
      simp
    have hlen : (user ++ bytes ":\x7bSHA1").length = user.length + 6 := by
      have hmark : (bytes ":\x7bSHA1").length = 6 := by decide
      rw [List.length_append, hmark]
    rw [← List.drop_drop, ht, hsplit, ← hlen, List.drop_left]
  have hstop := h.stop_le
  simp only [takenAt, hskip, hdrop]
  rw [← List.cons_append, List.take_append_of_le_length (by
    rw [List.length_cons]
    omega), Nat.add_assoc]

/-- `}` means nothing in a digest. -/
theorem base64Decode_brace (n : Nat) (digest : Bytes) :
    base64Decode ((125 :: digest).take n) = base64Decode (digest.take (n - 1)) := by
  cases n with
  | zero => rfl
  | succ n =>
    have hbrace : base64Symbol 125 = none := by decide
    rw [List.take_succ_cons, Nat.add_sub_cancel, base64Decode, base64Decode,
      List.filterMap_cons_none hbrace]

/-- A digest is not a part of itself behind a `}`. -/
theorem not_prefix_brace (h : base64Decode digest ≠ none) : ¬ digest <+: 125 :: digest := by
  intro hpre
  have hall : ∀ c ∈ digest, c = 125 := by
    intro c hc
    rcases List.mem_iff_getElem.mp hc with ⟨k, hk, rfl⟩
    induction k with
    | zero => exact hpre.getElem hk
    | succ k ih =>
      have hget := hpre.getElem hk
      rw [List.getElem_cons_succ] at hget
      rw [hget]
      exact ih (by omega) (List.getElem_mem _)
  have hnone : digest.filterMap base64Symbol = [] := by
    refine List.filterMap_eq_nil_iff.mpr fun c hc => ?_
    rw [hall c hc]
    decide
  exact h (by rw [base64Decode, hnone]; rfl)

/-! ## The condition -/

/-- The loop comes to the line, takes at most 254 bytes of its digest, and these
stand for the digest. -/
def Taken (content : Bytes) (o : Nat) (user digest : Bytes) : Prop :=
  o < (seenLines content).length ∧
    lineStop content o < o + user.length + 6 + passwdRawSize ∧
    base64Decode (digest.take (lineStop content o - (o + user.length + 7))) = base64Decode digest

/-- Every well-formed line is taken, and every other line is passed over. -/
structure DigestsKept (content : Bytes) : Prop where
  taken : ∀ o user digest, WellFormed content o user digest → Taken content o user digest
  skipped : ∀ o, Reached content o → (∃ user digest, WellFormed content o user digest) ∨
    Skipped (seenText content) o (lineStop content o)

/-- There is no well-formed line, and every line is passed over. -/
structure NothingLoaded (content : Bytes) : Prop where
  none : ∀ o user digest, ¬ WellFormed content o user digest
  skipped : ∀ o, Reached content o → Skipped (seenText content) o (lineStop content o)

/-- What the loop loads of a well-formed line. -/
theorem WellFormed.loaded (h : WellFormed content o user digest) (hreached : Reached content o)
    (hcred : outcome content o = some (some cred)) :
    cred.user = user ∧
      cred.passwdRaw = (125 :: digest).take (lineStop content o - (o + user.length + 6)) ∧
      base64Decode cred.passwdRaw = some cred.passwdDecoded ∧
      lineStop content o < o + user.length + 6 + passwdRawSize := by
  rcases lineStop_lt hreached with ⟨ho, hi, hint⟩
  rcases outcome_cases hreached with ⟨-, hskip⟩ | ⟨-, hnone | ⟨hlong, hsep, d, hdecode, hsome⟩⟩
  · rw [hcred] at hskip
    cases hskip
  · rw [hcred] at hnone
    cases hnone
  · rw [hcred, Option.some_inj, Option.some_inj] at hsome
    subst hsome
    rcases h.text ho with ⟨t, ht⟩
    refine ⟨?_, h.taken ho, hdecode, ?_⟩
    · rw [h.sep ho, Int.toNat_natCast, ht, List.take_left]
    · have hroom : ¬ (passwdRawSize : Int) ≤ toInt32 (lineStop content o - o -
          sepAt (seenText content) o - 6) := fun hle => hlong (Or.inr hle)
      have hstart := hsep.2
      rw [h.sep ho] at hroom hstart
      rw [toInt32_eq (by omega) (by omega)] at hroom
      omega

/-- A line that is taken is loaded. -/
theorem WellFormed.outcome_taken (h : WellFormed content o user digest)
    (htaken : Taken content o user digest) :
    ∃ cred, outcome content o = some (some cred) ∧ cred.user = user ∧
      base64Decode digest = some cred.passwdDecoded := by
  have hreached : Reached content o := ⟨htaken.1, h.start⟩
  rcases lineStop_lt hreached with ⟨ho, hi, hint⟩
  have hdecode : base64Decode (takenAt (seenText content) o (lineStop content o)) =
      base64Decode digest := by
    rw [h.taken ho, base64Decode_brace, ← htaken.2.2]
    congr 2
  have hfits : user.length < 128 := h.user_fits
  have hsize := htaken.2.1
  -- something is taken of a digest
  have hstart : o + user.length + 7 < lineStop content o := by
    by_contra hle
    have hzero : lineStop content o - (o + user.length + 7) = 0 := by omega
    have hnone := htaken.2.2
    rw [hzero] at hnone
    exact h.decodes hnone.symm
  have hshort : ¬ TooLong (seenText content) o (lineStop content o) := by
    rw [TooLong, h.sep ho, toInt32_eq (by omega) (by omega)]
    rintro (hle | hle)
    · have : (userSize : Int) = 128 := rfl
      omega
    · omega
  have hsep : Separated (seenText content) o (lineStop content o) := by
    rw [Separated, h.sep ho]
    omega
  rcases cString_buf content with ⟨rest, hbuf⟩
  have hout := addUser_separated rest (not_mem_seenText content) hi hint hshort hsep
  cases hvalue : base64Decode digest with
  | none => exact (h.decodes hvalue).elim
  | some d =>
    rw [hdecode, hvalue, ← hbuf] at hout
    refine ⟨_, hout, ?_, rfl⟩
    rcases h.text ho with ⟨t, ht⟩
    show ((seenText content).drop o).take (sepAt (seenText content) o).toNat = user
    rw [h.sep ho, Int.toNat_natCast, ht, List.take_left]

theorem outcome_skipped (h : Reached content o)
    (hskip : Skipped (seenText content) o (lineStop content o)) : outcome content o = some none := by
  rcases outcome_cases h with ⟨-, hout⟩ | ⟨hnot, -⟩
  · exact hout
  · exact (hnot hskip).elim

theorem skipped_of_outcome (h : Reached content o) (hinside : outcome content o ≠ none)
    (hno : ∀ cred, outcome content o ≠ some (some cred)) :
    Skipped (seenText content) o (lineStop content o) := by
  rcases outcome_cases h with ⟨hskip, -⟩ | ⟨-, hnone | ⟨-, -, d, -, hsome⟩⟩
  · exact hskip
  · exact (hinside hnone).elim
  · exact (hno _ hsome).elim

/-- The digests are loaded exactly if no digest is cut and no other line is
taken. -/
theorem loadsDigests_iff (content : Bytes) : LoadsDigests content ↔ DigestsKept content := by
  rw [LoadsDigests, loads_iff]
  constructor
  · rintro ⟨hinside, hall⟩
    constructor
    · intro o user digest h
      cases hvalue : base64Decode digest with
      | none => exact (h.decodes hvalue).elim
      | some value =>
        rcases (hall o user value).mpr ⟨digest, h, hvalue⟩ with ⟨cred, hreached, hcred, -, hsame⟩
        rcases h.loaded hreached hcred with ⟨-, hraw, hdecode, hsize⟩
        refine ⟨hreached.1, hsize, ?_⟩
        rw [hraw, base64Decode_brace, hsame] at hdecode
        rw [hvalue, ← hdecode]
        congr 2
    · intro o hreached
      -- a line that is not well formed has to be skipped
      by_cases hwell : ∃ user digest, WellFormed content o user digest
      · exact Or.inl hwell
      · refine Or.inr (skipped_of_outcome hreached (hinside o hreached) fun cred hcred => ?_)
        rcases (hall o cred.user cred.passwdDecoded).mp ⟨cred, hreached, hcred, rfl, rfl⟩ with
          ⟨digest, h, -⟩
        exact hwell ⟨_, _, h⟩
  · rintro ⟨htaken, hskipped⟩
    constructor
    · intro o hreached
      -- a line that is reached gives its user, or nothing
      rcases hskipped o hreached with ⟨user, digest, h⟩ | hskip
      · rcases h.outcome_taken (htaken o user digest h) with ⟨cred, hcred, -⟩
        rw [hcred]
        exact Option.some_ne_none _
      · rw [outcome_skipped hreached hskip]
        exact Option.some_ne_none _
    · intro o user value
      constructor
      · rintro ⟨cred, hreached, hcred, rfl, rfl⟩
        rcases hskipped o hreached with ⟨user, digest, h⟩ | hskip
        · rcases h.loaded hreached hcred with ⟨huser, -, -, -⟩
          rcases h.outcome_taken (htaken o user digest h) with ⟨cred', hcred', -, hdecode⟩
          rw [hcred, Option.some_inj, Option.some_inj] at hcred'
          subst hcred'
          exact ⟨digest, huser ▸ h, hdecode⟩
        · rw [outcome_skipped hreached hskip] at hcred
          cases hcred
      · rintro ⟨digest, h, hvalue⟩
        rcases h.outcome_taken (htaken o user digest h) with ⟨cred, hcred, huser, hdecode⟩
        rw [hvalue, Option.some_inj] at hdecode
        exact ⟨cred, ⟨(htaken o user digest h).1, h.start⟩, hcred, huser, hdecode.symm⟩

/-- The texts never are: in front of every one stands a `}`. -/
theorem loadsTexts_iff (content : Bytes) : LoadsTexts content ↔ NothingLoaded content := by
  rw [LoadsTexts, loads_iff]
  constructor
  · rintro ⟨hinside, hall⟩
    have hnone : ∀ o user digest, ¬ WellFormed content o user digest := by
      intro o user digest h
      rcases (hall o user digest).mpr ⟨digest, h, rfl⟩ with ⟨cred, hreached, hcred, -, hsame⟩
      rcases h.loaded hreached hcred with ⟨-, hraw, -, -⟩
      refine not_prefix_brace h.decodes ?_
      conv_lhs => rw [← hsame, hraw]
      exact List.take_prefix _ _
    refine ⟨hnone, fun o hreached => skipped_of_outcome hreached (hinside o hreached) ?_⟩
    intro cred hcred
    rcases (hall o cred.user cred.passwdRaw).mp ⟨cred, hreached, hcred, rfl, rfl⟩ with
      ⟨digest, h, -⟩
    exact hnone _ _ _ h
  · rintro ⟨hnone, hskipped⟩
    constructor
    · intro o hreached
      rw [outcome_skipped hreached (hskipped o hreached)]
      exact Option.some_ne_none _
    · intro o user value
      constructor
      · rintro ⟨cred, hreached, hcred, -⟩
        rw [outcome_skipped hreached (hskipped o hreached)] at hcred
        cases hcred
      · rintro ⟨digest, h, -⟩
        exact (hnone _ _ _ h).elim

end Run

end SuperExe.Plugins.Auth
