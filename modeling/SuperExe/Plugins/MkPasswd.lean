import SuperExe.Core.Stdio
import SuperExe.Plugins.UsersFile
import Mathlib.Data.List.GetD
import Mathlib.Tactic.IntervalCases

/-! # Writing a users file

`mk_passwd` keeps the rows of a users file as they are and writes one of its own
for the user it was called with. What it writes the server loads, as long as the
names can be told from the rest of a row and fit, and the file is not too long
for an `int`: `base64_decode` does not mind the `}` that is left of the mark.
-/

namespace SuperExe.Plugins.Auth

open SuperExe.Core SuperExe.Lib

/-! ## The code -/

/-- `base64_table[n]` -/
def base64Char (n : UInt8) : UInt8 := base64Table.getD n.toNat 0

/-- The rest of `base64_encode` after `line_len` characters of a line. -/
def base64EncodeLoop : Bytes → Nat → Bytes
  | a :: b :: c :: rest, lineLen =>
    base64Char (a >>> 2) :: base64Char (((a &&& 3) <<< 4) ||| (b >>> 4)) ::
      base64Char (((b &&& 15) <<< 2) ||| (c >>> 6)) :: base64Char (c &&& 63) ::
      if 72 ≤ lineLen + 4 then 10 :: base64EncodeLoop rest 0
      else base64EncodeLoop rest (lineLen + 4)
  | [a, b], _ =>
    [base64Char (a >>> 2), base64Char (((a &&& 3) <<< 4) ||| (b >>> 4)),
      base64Char ((b &&& 15) <<< 2), 61, 10]
  | [a], _ => [base64Char (a >>> 2), base64Char ((a &&& 3) <<< 4), 61, 61, 10]
  | [], lineLen => if lineLen = 0 then [] else [10]

/-- `base64_encode` -/
def base64Encode (src : Bytes) : Bytes := base64EncodeLoop src 0

/-- The `SHA1_DIGEST_LEN` bytes of a digest. -/
def Digest : Type := { d : Bytes // d.length = 20 }

/-- The `snprintf` of a row. -/
def newRow (username : Bytes) (digest : Digest) : Bytes :=
  (username ++ mark ++ base64Encode digest.val).take 511

/-- The comparison of a row with a name: it ends at the `:` of the row. -/
def rowOf : Bytes → Bytes → Bool
  | r :: row, u :: username => r ≠ 58 && r = u && rowOf row username
  | r :: _, [] => r = 58
  | [], _ => false

/-- What `mk_passwd` is called for: with a password, or with `-D`. -/
inductive Request where
  | update (username password : Bytes)
  | delete (username : Bytes)

/-- `update_user` -/
def updateUser (sha1 : Bytes → Digest) (rows : List Bytes) : Request → List Bytes
  | .update username password =>
    match rows.findIdx? fun row => rowOf row username with
    | some k => rows.set k (newRow username (sha1 password))
    | none => rows ++ [newRow username (sha1 password)]
  | .delete username =>
    match rows.findIdx? fun row => rowOf row username with
    | some k => rows.eraseIdx k
    | none => rows

/-- `read_file`, with `MAX_LINE_LEN` bytes for a row. -/
def readFile (createFile : Bool) (file : Bytes) : List Bytes :=
  if createFile then [] else (fgetsAll 255 file).map Vhost.cString

/-- A call of `mk_passwd` on a file that exists: what `dump_file` writes. -/
def mkPasswd (sha1 : Bytes → Digest) (createFile : Bool) (request : Request) (file : Bytes) : Bytes :=
  (updateUser sha1 (readFile createFile file) request).flatten

/-- The file after some calls, from an empty one on. -/
def mkPasswdRun (sha1 : Bytes → Digest) (calls : List (Bool × Request)) : Bytes :=
  calls.foldl (fun file call => mkPasswd sha1 call.1 call.2 file) []

/-! ## What it is for -/

/-- The users and their digests after a request. -/
def updateAccounts (sha1 : Bytes → Digest) (accounts : List (Bytes × Digest)) :
    Request → List (Bytes × Digest)
  | .update username password =>
    match accounts.findIdx? fun account => account.1 = username with
    | some k => accounts.set k (username, sha1 password)
    | none => accounts ++ [(username, sha1 password)]
  | .delete username =>
    match accounts.findIdx? fun account => account.1 = username with
    | some k => accounts.eraseIdx k
    | none => accounts

/-- The users and their digests after some calls. -/
def accountsRun (sha1 : Bytes → Digest) (calls : List (Bool × Request)) : List (Bytes × Digest) :=
  calls.foldl (fun accounts call =>
    updateAccounts sha1 (if call.1 then [] else accounts) call.2) []

/-- The name of a request. -/
def Request.username : Request → Bytes
  | .update username _ => username
  | .delete username => username

/-- A name that can be told from the rest of its row, and fits. -/
structure PlainName (username : Bytes) : Prop where
  nul : 0 ∉ username
  lf : 10 ∉ username
  colon : 58 ∉ username
  fits : username.length < userSize

/-- The server loads these users with these digests, in this order. -/
def LoadsBack (file : Bytes) (accounts : List (Bytes × Digest)) : Prop :=
  ∃ users, mkAuthConfAddUsers file = some users ∧
    users.map (fun entry => (entry.2.user, entry.2.passwdDecoded)) =
      accounts.map fun account => (account.1, account.2.val)

/-! ## base64 -/

section Base64

variable {a b c : UInt8}

theorem base64Symbol_char_fin :
    ∀ n : Fin 64, base64Symbol (base64Table.getD n 0) = some (UInt8.ofNat n, false) := by
  decide +kernel

theorem base64Symbol_char {n : UInt8} (h : n.toNat < 64) :
    base64Symbol (base64Char n) = some (n, false) := by
  have hfin := base64Symbol_char_fin ⟨n.toNat, h⟩
  rwa [UInt8.ofNat_toNat] at hfin

/-- The six bits of the four characters. -/
theorem sextet_lt (a b c : UInt8) :
    (a >>> 2).toNat < 64 ∧ (((a &&& 3) <<< 4) ||| (b >>> 4)).toNat < 64 ∧
      (((b &&& 15) <<< 2) ||| (c >>> 6)).toNat < 64 ∧ (c &&& 63).toNat < 64 := by
  have ha := a.toNat_lt
  have hb := b.toNat_lt
  have hc := c.toNat_lt
  have h3 : (a.toNat &&& 3) < 4 := Nat.lt_of_le_of_lt Nat.and_le_right (by omega)
  have h15 : (b.toNat &&& 15) < 16 := Nat.lt_of_le_of_lt Nat.and_le_right (by omega)
  have h63 : (c.toNat &&& 63) < 64 := Nat.lt_of_le_of_lt Nat.and_le_right (by omega)
  refine ⟨?_, ?_, ?_, ?_⟩
  · rw [UInt8.toNat_shiftRight]
    show a.toNat >>> 2 < 64
    rw [Nat.shiftRight_eq_div_pow]
    omega
  · rw [UInt8.toNat_or, UInt8.toNat_shiftLeft, UInt8.toNat_shiftRight, UInt8.toNat_and]
    refine Nat.or_lt_two_pow (n := 6) ?_ ?_
    · show ((a.toNat &&& 3) <<< 4) % 256 < 64
      rw [Nat.shiftLeft_eq]
      omega
    · show b.toNat >>> 4 < 64
      rw [Nat.shiftRight_eq_div_pow]
      omega
  · rw [UInt8.toNat_or, UInt8.toNat_shiftLeft, UInt8.toNat_shiftRight, UInt8.toNat_and]
    refine Nat.or_lt_two_pow (n := 6) ?_ ?_
    · show ((b.toNat &&& 15) <<< 2) % 256 < 64
      rw [Nat.shiftLeft_eq]
      omega
    · show c.toNat >>> 6 < 64
      rw [Nat.shiftRight_eq_div_pow]
      omega
  · rw [UInt8.toNat_and]
    exact h63

theorem eq_of_bits (h : ∀ i < 8, a.toBitVec.getLsbD i = b.toBitVec.getLsbD i) : a = b :=
  UInt8.toBitVec_inj.mp (BitVec.eq_of_getLsbD_eq h)

/-- Four characters give the three bytes back. -/
theorem octets_eq (a b c : UInt8) :
    ((a >>> 2) <<< 2) ||| ((((a &&& 3) <<< 4) ||| (b >>> 4)) >>> 4) = a ∧
      ((((a &&& 3) <<< 4) ||| (b >>> 4)) <<< 4) ||| ((((b &&& 15) <<< 2) ||| (c >>> 6)) >>> 2) = b ∧
      ((((b &&& 15) <<< 2) ||| (c >>> 6)) <<< 6) ||| (c &&& 63) = c := by
  refine ⟨?_, ?_, ?_⟩
  · refine eq_of_bits fun i hi => ?_
    interval_cases i <;> simp [UInt8.toBitVec_or]
  · refine eq_of_bits fun i hi => ?_
    interval_cases i <;> simp [UInt8.toBitVec_or]
  · refine eq_of_bits fun i hi => ?_
    interval_cases i <;> simp [UInt8.toBitVec_or]

/-- What `base64_decode` makes of the characters of `base64_encode`. -/
def symbolsOf : Bytes → List (UInt8 × Bool)
  | a :: b :: c :: rest =>
    (a >>> 2, false) :: (((a &&& 3) <<< 4) ||| (b >>> 4), false) ::
      (((b &&& 15) <<< 2) ||| (c >>> 6), false) :: (c &&& 63, false) :: symbolsOf rest
  | [a, b] =>
    [(a >>> 2, false), (((a &&& 3) <<< 4) ||| (b >>> 4), false), ((b &&& 15) <<< 2, false), (0, true)]
  | [a] => [(a >>> 2, false), ((a &&& 3) <<< 4, false), (0, true), (0, true)]
  | [] => []

theorem filterMap_encode (src : Bytes) (lineLen : Nat) :
    (base64EncodeLoop src lineLen).filterMap base64Symbol = symbolsOf src := by
  have hpad : base64Symbol 61 = some (0, true) := by decide
  have hlf : base64Symbol 10 = none := by decide
  fun_induction base64EncodeLoop src lineLen with
  | case1 a b c rest lineLen ih1 ih2 =>
    rcases sextet_lt a b c with ⟨h1, h2, h3, h4⟩
    simp only [List.filterMap_cons, base64Symbol_char h1, base64Symbol_char h2,
      base64Symbol_char h3, base64Symbol_char h4, symbolsOf]
    split
    · rw [List.filterMap_cons_none hlf, ih1]
    · rw [ih2]
  | case2 a b lineLen =>
    rcases sextet_lt a b 0 with ⟨h1, h2, h3, -⟩
    have h3' : ((b &&& 15) <<< 2).toNat < 64 := by simpa using h3
    simp only [List.filterMap_cons, base64Symbol_char h1, base64Symbol_char h2,
      base64Symbol_char h3', hpad, hlf, symbolsOf, List.filterMap_nil]
  | case3 a lineLen =>
    rcases sextet_lt a 0 0 with ⟨h1, h2, -, -⟩
    have h2' : ((a &&& 3) <<< 4).toNat < 64 := by simpa using h2
    simp only [List.filterMap_cons, base64Symbol_char h1, base64Symbol_char h2', hpad, hlf,
      symbolsOf, List.filterMap_nil]
  | case4 => rfl
  | case5 lineLen h =>
    rw [List.filterMap_cons_none hlf]
    rfl

theorem length_symbolsOf (src : Bytes) : (symbolsOf src).length = (src.length + 2) / 3 * 4 := by
  fun_induction symbolsOf src with
  | case1 a b c rest ih =>
    simp only [List.length_cons, ih]
    omega
  | case2 a b => simp
  | case3 a => simp
  | case4 => rfl

theorem base64Blocks_symbols (src : Bytes) : base64Blocks (symbolsOf src) = some src := by
  fun_induction symbolsOf src with
  | case1 a b c rest ih =>
    rcases octets_eq a b c with ⟨h1, h2, h3⟩
    simp [base64Blocks, ih, h1, h2, h3]
  | case2 a b =>
    rcases octets_eq a b 0 with ⟨h1, h2, -⟩
    have h2' : (((a &&& 3) <<< 4) ||| (b >>> 4)) <<< 4 ||| ((b &&& 15) <<< 2) >>> 2 = b := by
      simpa using h2
    simp [base64Blocks, h1, h2']
  | case3 a =>
    have h1 := (octets_eq a 0 0).1
    have h1' : ((a >>> 2) <<< 2) ||| (((a &&& 3) <<< 4) >>> 4) = a := by simpa using h1
    simp [base64Blocks, h1']
  | case4 => rfl

/-- Nothing is lost by a digest's text, in front of which and behind which other
characters may stand. -/
theorem base64Decode_encode {src text : Bytes} (hne : src ≠ [])
    (htext : text.filterMap base64Symbol = (base64Encode src).filterMap base64Symbol) :
    base64Decode text = some src := by
  have hpos := List.length_pos_iff.mpr hne
  have hlen := length_symbolsOf src
  rw [base64Encode, filterMap_encode] at htext
  rw [base64Decode, htext, if_neg (by omega), base64Blocks_symbols]

/-- The text of a digest fits in a line of `base64_encode`. -/
theorem encodeLoop_line (src : Bytes) (lineLen : Nat) (hne : src ≠ [] ∨ lineLen ≠ 0)
    (hfits : lineLen + (src.length + 2) / 3 * 4 < 72) :
    ∃ line, base64EncodeLoop src lineLen = line ++ [10] ∧
      line.length = (src.length + 2) / 3 * 4 ∧ ∀ c ∈ line, c ∈ base64Table ∨ c = 61 := by
  -- what is written is taken from the table
  have hchar {n : UInt8} (h : n.toNat < 64) : base64Char n ∈ base64Table := by
    have hlen : base64Table.length = 64 := by decide
    rw [base64Char, List.getD_eq_getElem?_getD, List.getElem?_eq_getElem (by omega)]
    exact List.getElem_mem _
  -- by the groups of three bytes; as the line is short, no group breaks it
  fun_induction base64EncodeLoop src lineLen with
  | case1 a b c rest lineLen ih1 ih2 =>
    have hrest : (a :: b :: c :: rest).length = rest.length + 3 := rfl
    rw [hrest] at hfits
    rcases ih2 (Or.inr (by omega)) (by omega) with ⟨line, hline, hlen, hmem⟩
    rcases sextet_lt a b c with ⟨h1, h2, h3, h4⟩
    rw [if_neg (by omega), hline]
    refine ⟨_ :: _ :: _ :: _ :: line, rfl, ?_, ?_⟩
    · simp only [List.length_cons, hlen]
      omega
    · simp only [List.mem_cons]
      rintro d (rfl | rfl | rfl | rfl | hd)
      · exact Or.inl (hchar h1)
      · exact Or.inl (hchar h2)
      · exact Or.inl (hchar h3)
      · exact Or.inl (hchar h4)
      · exact hmem d hd
  | case2 a b lineLen =>
    rcases sextet_lt a b 0 with ⟨h1, h2, h3, -⟩
    refine ⟨[_, _, _, 61], rfl, by simp, ?_⟩
    simp only [List.mem_cons, List.not_mem_nil, or_false]
    rintro d (rfl | rfl | rfl | rfl)
    · exact Or.inl (hchar h1)
    · exact Or.inl (hchar h2)
    · exact Or.inl (hchar (by simpa using h3))
    · exact Or.inr rfl
  | case3 a lineLen =>
    rcases sextet_lt a 0 0 with ⟨h1, h2, -, -⟩
    refine ⟨[_, _, 61, 61], rfl, by simp, ?_⟩
    simp only [List.mem_cons, List.not_mem_nil, or_false]
    rintro d (rfl | rfl | rfl | rfl)
    · exact Or.inl (hchar h1)
    · exact Or.inl (hchar (by simpa using h2))
    · exact Or.inr rfl
    · exact Or.inr rfl
  | case4 =>
    rcases hne with h | h
    · exact (h rfl).elim
    · exact (h rfl).elim
  | case5 lineLen h =>
    refine ⟨[], rfl, rfl, ?_⟩
    intro c hc
    cases hc

end Base64

/-! ## The rows -/

section Rows

variable {username : Bytes} {account : Bytes × Digest} {accounts : List (Bytes × Digest)}

/-- The row of a user. -/
def accountRow (account : Bytes × Digest) : Bytes := account.1 ++ mark ++ base64Encode account.2.val

/-- The file with these users. -/
def fileOf (accounts : List (Bytes × Digest)) : Bytes := (accounts.map accountRow).flatten

/-- Every name is plain. -/
def AllPlain (accounts : List (Bytes × Digest)) : Prop := ∀ account ∈ accounts, PlainName account.1

/-- A row is a line, and what stands behind the mark in it means the digest. -/
theorem accountRow_line (h : PlainName account.1) :
    ∃ digest, accountRow account = account.1 ++ mark ++ digest ++ [10] ∧ digest.length = 28 ∧
      base64Decode digest = some account.2.val ∧ 10 ∉ account.1 ++ mark ++ digest ∧
      0 ∉ account.1 ++ mark ++ digest := by
  have hlen := account.2.property
  have hne : account.2.val ≠ [] := fun hnil => by simp [hnil] at hlen
  rcases encodeLoop_line account.2.val 0 (Or.inl hne) (by omega) with ⟨digest, hdigest, hsize, hmem⟩
  have hother {c : UInt8} (htable : c ∉ base64Table) (hpad : c ≠ 61) : c ∉ digest := fun hc =>
    (hmem c hc).elim htable hpad
  refine ⟨digest, ?_, by omega, base64Decode_encode hne ?_, ?_, ?_⟩
  · rw [accountRow, base64Encode, hdigest, List.append_assoc, List.append_assoc, List.append_assoc]
  · have hlf : base64Symbol 10 = none := by decide
    rw [base64Encode, hdigest, List.filterMap_append, List.filterMap_cons_none hlf,
      List.filterMap_nil, List.append_nil]
  · rw [List.mem_append, List.mem_append, not_or, not_or]
    exact ⟨⟨h.lf, by decide⟩, hother (by decide) (by decide)⟩
  · rw [List.mem_append, List.mem_append, not_or, not_or]
    exact ⟨⟨h.nul, by decide⟩, hother (by decide) (by decide)⟩

theorem mark_length : mark.length = 7 := by decide

/-- The row is not cut. -/
theorem newRow_eq {digest : Digest} (h : PlainName username) :
    newRow username digest = accountRow (username, digest) := by
  have hplain : PlainName (username, digest).1 := h
  rcases accountRow_line hplain with ⟨text, hrow, hsize, -, -, -⟩
  have hfits : username.length < 128 := h.fits
  have hlen : (accountRow (username, digest)).length ≤ 511 := by
    rw [hrow]
    simp only [List.length_append, mark_length, hsize, List.length_cons, List.length_nil]
    omega
  exact List.take_of_length_le hlen

/-- The comparison tells the names apart. -/
theorem rowOf_row (h : 58 ∉ username) (rest name : Bytes) :
    rowOf (username ++ 58 :: rest) name = decide (username = name) := by
  induction username generalizing name with
  | nil =>
    cases name with
    | nil => simp [rowOf]
    | cons c name => simp [rowOf]
  | cons r username ih =>
    rw [List.mem_cons, not_or] at h
    cases name with
    | nil => simp [rowOf, Ne.symm h.1]
    | cons c name =>
      rw [List.cons_append, rowOf, ih h.2]
      simp [Ne.symm h.1]

theorem findIdx?_rows (h : AllPlain accounts) (name : Bytes) :
    (accounts.map accountRow).findIdx? (fun row => rowOf row name) =
      accounts.findIdx? fun account => account.1 = name := by
  induction accounts with
  | nil => rfl
  | cons account accounts ih =>
    rw [AllPlain, List.forall_mem_cons] at h
    have hmark : mark = 58 :: bytes "{SHA1}" := by decide
    have hrow : rowOf (accountRow account) name = decide (account.1 = name) := by
      rw [accountRow, hmark, List.append_assoc, List.cons_append]
      exact rowOf_row h.1.colon _ name
    rw [List.map_cons, List.findIdx?_cons, List.findIdx?_cons, hrow, ih h.2]

/-- On the rows of some users a request does what it is for. -/
theorem updateUser_rows (sha1 : Bytes → Digest) (h : AllPlain accounts) {request : Request}
    (hname : PlainName request.username) :
    updateUser sha1 (accounts.map accountRow) request =
      (updateAccounts sha1 accounts request).map accountRow := by
  cases request with
  | update username password =>
    have hplain : PlainName username := hname
    rw [updateUser, updateAccounts, findIdx?_rows h, newRow_eq hplain]
    cases accounts.findIdx? fun account => account.1 = username with
    | none => simp
    | some k => simp only [List.map_set]
  | delete username =>
    rw [updateUser, updateAccounts, findIdx?_rows h]
    cases accounts.findIdx? fun account => account.1 = username with
    | none => rfl
    | some k => simp only [List.eraseIdx_map]

theorem allPlain_update (sha1 : Bytes → Digest) (h : AllPlain accounts) {request : Request}
    (hname : PlainName request.username) : AllPlain (updateAccounts sha1 accounts request) := by
  intro account hmem
  cases request with
  | update username password =>
    rw [updateAccounts] at hmem
    cases hfind : accounts.findIdx? fun account => account.1 = username with
    | none =>
      simp only [hfind, List.mem_append, List.mem_singleton] at hmem
      rcases hmem with hold | rfl
      · exact h account hold
      · exact hname
    | some k =>
      simp only [hfind] at hmem
      rcases List.mem_or_eq_of_mem_set hmem with hold | rfl
      · exact h account hold
      · exact hname
  | delete username =>
    rw [updateAccounts] at hmem
    cases hfind : accounts.findIdx? fun account => account.1 = username with
    | none =>
      simp only [hfind] at hmem
      exact h account hmem
    | some k =>
      simp only [hfind] at hmem
      exact h account (List.mem_of_mem_eraseIdx hmem)

/-- The rows of a file are read as they were written. -/
theorem readFile_fileOf (h : AllPlain accounts) :
    readFile false (fileOf accounts) = accounts.map accountRow := by
  rw [readFile, if_neg (by decide), fileOf]
  induction accounts with
  | nil => rfl
  | cons account accounts ih =>
    rw [AllPlain, List.forall_mem_cons] at h
    rcases accountRow_line h.1 with ⟨digest, hrow, hsize, -, hlf, hnul⟩
    have hfits : account.1.length < 128 := h.1.fits
    have hlen : (account.1 ++ mark ++ digest).length < 255 := by
      simp only [List.length_append, mark_length, hsize]
      omega
    have hstr : Vhost.cString (accountRow account) = accountRow account := by
      rw [Vhost.cString_eq_self, hrow, List.mem_append, not_or]
      exact ⟨hnul, by decide⟩
    rw [List.map_cons, List.flatten_cons, hrow, List.append_assoc, List.singleton_append,
      fgetsAll_line hlf hlen, List.map_cons, ih h.2, ← hrow, hstr]

/-- A call keeps a file of plain rows, and its rows are those of the users. -/
theorem mkPasswd_fileOf (sha1 : Bytes → Digest) (createFile : Bool) (h : AllPlain accounts)
    {request : Request} (hname : PlainName request.username) :
    mkPasswd sha1 createFile request (fileOf accounts) =
      fileOf (updateAccounts sha1 (if createFile then [] else accounts) request) := by
  cases createFile with
  | true =>
    have hnone : AllPlain [] := fun account hmem => by cases hmem
    rw [mkPasswd, readFile, if_pos rfl, if_pos rfl, ← List.map_nil (f := accountRow),
      updateUser_rows sha1 hnone hname]
    rfl
  | false =>
    rw [mkPasswd, readFile_fileOf h, updateUser_rows sha1 h hname]
    rfl

/-- So do some calls. -/
theorem mkPasswdRun_fileOf (sha1 : Bytes → Digest) (calls : List (Bool × Request))
    (hnames : ∀ call ∈ calls, PlainName call.2.username) :
    mkPasswdRun sha1 calls = fileOf (accountsRun sha1 calls) ∧
      AllPlain (accountsRun sha1 calls) := by
  have hrun : ∀ accounts, AllPlain accounts →
      calls.foldl (fun file call => mkPasswd sha1 call.1 call.2 file) (fileOf accounts) =
        fileOf (calls.foldl (fun accounts call =>
          updateAccounts sha1 (if call.1 then [] else accounts) call.2) accounts) ∧
      AllPlain (calls.foldl (fun accounts call =>
        updateAccounts sha1 (if call.1 then [] else accounts) call.2) accounts) := by
    induction calls with
    | nil => exact fun accounts h => ⟨rfl, h⟩
    | cons call calls ih =>
      intro accounts h
      rw [List.forall_mem_cons] at hnames
      have hstart : AllPlain (if call.1 then [] else accounts) := by
        split
        · exact fun account hmem => by cases hmem
        · exact h
      rw [List.foldl_cons, List.foldl_cons, mkPasswd_fileOf sha1 call.1 h hnames.1]
      exact ih hnames.2 _ (allPlain_update sha1 hstart hnames.1)
  exact hrun [] fun account hmem => by cases hmem

end Rows

/-! ## Loading them -/

section Load

variable {buf text pre : Bytes} {accounts : List (Bytes × Digest)} {len : Int} {i offset n turns : Nat}

/-- The loop within a line. -/
theorem addUsersLoop_scan (h : ∀ k < n, buf.getD (i + k) 0 ≠ 10 ∧ ((i + k : Nat) : Int) ≠ len - 1) :
    addUsersLoop buf len (n + turns) i offset = addUsersLoop buf len turns (i + n) offset := by
  induction n generalizing i with
  | zero => rw [Nat.zero_add, Nat.add_zero]
  | succ n ih =>
    have hturns : n + 1 + turns = (n + turns) + 1 := by omega
    have hhere := h 0 (Nat.succ_pos n)
    rw [Nat.add_zero] at hhere
    rw [hturns, addUsersLoop, if_neg (not_or.mpr hhere), ih]
    · congr 1
      omega
    · intro k hk
      have hnext := h (k + 1) (by omega)
      rwa [show i + (k + 1) = i + 1 + k by omega] at hnext

theorem seenLines_eq (htext : 0 ∉ text) (hint : text.length < 2 ^ 31) : seenLines text = text := by
  have hseen : seenText text = text := Vhost.cString_eq_self.mpr htext
  rw [seenLines, hseen, toInt32_eq (by omega) (by omega), Int.toNat_natCast, List.take_length]

/-- A row is a well-formed line, and the loop takes it whole. -/
theorem outcome_row {account : Bytes × Digest} {digest body post : Bytes} (h : PlainName account.1)
    (hbody : body = account.1 ++ mark ++ digest) (hsize : digest.length = 28)
    (hdecode : base64Decode digest = some account.2.val) (hlf : 10 ∉ body)
    (htext : 0 ∉ pre ++ (body ++ 10 :: post)) (hint : (pre ++ (body ++ 10 :: post)).length < 2 ^ 31)
    (hstart : LineStart (pre ++ (body ++ 10 :: post)) pre.length) :
    ∃ cred, addUser (pre ++ (body ++ 10 :: post) ++ [0]) (pre.length + body.length) pre.length =
      some (some cred) ∧ cred.user = account.1 ∧ cred.passwdDecoded = account.2.val := by
  have hline : lineAt (pre ++ (body ++ 10 :: post)) pre.length = body := by
    have hall : ∀ c ∈ body, decide (c ≠ 10) = true := by
      intro c hc
      refine decide_eq_true ?_
      rintro rfl
      exact hlf hc
    rw [lineAt, List.drop_left, List.takeWhile_append_of_pos hall, List.takeWhile_cons,
      if_neg (by decide), List.append_nil]
  have hlen : body.length = account.1.length + 35 := by
    rw [hbody, List.length_append, List.length_append, mark_length, hsize]
  have htotal : (pre ++ (body ++ 10 :: post)).length = pre.length + body.length + 1 + post.length := by
    simp only [List.length_append, List.length_cons]
    omega
  have hseen := seenLines_eq htext hint
  have hstop : lineStop (pre ++ (body ++ 10 :: post)) pre.length = pre.length + body.length := by
    rw [lineStop, hseen, lineEnd, hline, htotal]
    omega
  -- the row is a line as the format wants it
  have hwell : WellFormed (pre ++ (body ++ 10 :: post)) pre.length account.1 digest := by
    refine ⟨hstart, hline.trans hbody, h.colon, ?_, h.fits, ?_, ?_⟩
    · rw [hline]
      exact fun hmem => htext (by simp [hmem])
    · rw [hsize]
      decide
    · rw [hdecode]
      exact Option.some_ne_none _
  have htaken : Taken (pre ++ (body ++ 10 :: post)) pre.length account.1 digest := by
    refine ⟨by rw [hseen]; omega, ?_, ?_⟩
    · have : passwdRawSize = 256 := rfl
      rw [hstop]
      omega
    · rw [hstop, List.take_of_length_le (by omega)]
  -- so the loader takes it, with the digest that was written
  rcases hwell.outcome_taken htaken with ⟨cred, hcred, huser, hvalue⟩
  rw [outcome, hstop] at hcred
  rw [hdecode, Option.some_inj] at hvalue
  exact ⟨cred, hcred, huser, hvalue.symm⟩

/-- The rows that are left are loaded. -/
theorem addUsersLoop_rows (h : AllPlain accounts) (htext : 0 ∉ pre ++ fileOf accounts)
    (hint : (pre ++ fileOf accounts).length < 2 ^ 31) (hpre : LineStart (pre ++ fileOf accounts) pre.length) :
    ∃ users, addUsersLoop (pre ++ fileOf accounts ++ [0]) (pre ++ fileOf accounts).length
        (fileOf accounts).length pre.length pre.length = some users ∧
      users.map (fun entry => (entry.2.user, entry.2.passwdDecoded)) =
        accounts.map fun account => (account.1, account.2.val) := by
  -- by induction on the rows; what was read before is in front
  induction accounts generalizing pre with
  | nil => exact ⟨[], rfl, rfl⟩
  | cons account accounts ih =>
    rw [AllPlain, List.forall_mem_cons] at h
    rcases accountRow_line h.1 with ⟨digest, hrow, hsize, hdecode, hlf, hnul⟩
    have hfits : account.1.length < 128 := h.1.fits
    generalize hbody : account.1 ++ mark ++ digest = body at hrow hlf hnul
    have hfile : fileOf (account :: accounts) = body ++ 10 :: fileOf accounts := by
      rw [fileOf, List.map_cons, List.flatten_cons, hrow, List.append_assoc]
      rfl
    have hnext : pre ++ fileOf (account :: accounts) = (pre ++ body ++ [10]) ++ fileOf accounts := by
      rw [hfile]
      simp
    rcases ih h.2 (hnext ▸ htext) (hnext ▸ hint) (Or.inr (by simp)) with ⟨users, hloop, husers⟩
    rw [← hnext] at hloop
    rw [hfile] at htext hint hpre hloop ⊢
    rcases outcome_row h.1 hbody.symm hsize hdecode hlf htext hint hpre with
      ⟨cred, hcred, huser, hvalue⟩
    have hpost : (pre ++ body ++ [10]).length = pre.length + body.length + 1 := by
      simp only [List.length_append, List.length_cons, List.length_nil]
    have hturns : (body ++ 10 :: fileOf accounts).length = body.length + ((fileOf accounts).length + 1) := by
      rw [List.length_append, List.length_cons]
    -- no byte of the row ends it
    have hscan : ∀ k < body.length,
        (pre ++ (body ++ 10 :: fileOf accounts) ++ [0]).getD (pre.length + k) 0 ≠ 10 ∧
        ((pre.length + k : Nat) : Int) ≠ (pre ++ (body ++ 10 :: fileOf accounts)).length - 1 := by
      intro k hk
      have hget : (pre ++ (body ++ 10 :: fileOf accounts) ++ [0])[pre.length + k]? = some body[k] := by
        rw [List.append_assoc, List.append_assoc, List.getElem?_append_right (by omega),
          Nat.add_sub_cancel_left, List.getElem?_append_left hk, List.getElem?_eq_getElem hk]
      rw [List.getD_eq_getElem?_getD, hget, Option.getD_some, List.length_append, hturns]
      refine ⟨fun hten => hlf (hten ▸ List.getElem_mem hk), by omega⟩
    -- the LF behind it does
    have hbreak : (pre ++ (body ++ 10 :: fileOf accounts) ++ [0]).getD (pre.length + body.length) 0 =
        10 := by
      rw [List.append_assoc, List.append_assoc, List.getD_append_right _ _ _ _ (by omega),
        Nat.add_sub_cancel_left, List.getD_append_right _ _ _ _ (by omega), Nat.sub_self]
      rfl
    rw [hpost] at hloop
    refine ⟨(pre.length, cred) :: users, ?_, ?_⟩
    · have hloop' : addUsersLoop (pre ++ (body ++ 10 :: fileOf accounts) ++ [0])
          (pre ++ (body ++ 10 :: fileOf accounts)).length ((fileOf accounts).length + 1)
          (pre.length + body.length) pre.length = some ((pre.length, cred) :: users) := by
        rw [addUsersLoop, if_pos (Or.inl hbreak), hcred, hloop]
        rfl
      rw [hturns, addUsersLoop_scan hscan, hloop']
    · rw [List.map_cons, List.map_cons, husers, huser, hvalue]

/-- What was written is loaded. -/
theorem loadsBack_fileOf (h : AllPlain accounts) (hint : (fileOf accounts).length < 2 ^ 31) :
    LoadsBack (fileOf accounts) accounts := by
  cases accounts with
  | nil => exact ⟨[], rfl, rfl⟩
  | cons account accounts =>
    have htext : 0 ∉ fileOf (account :: accounts) := by
      rw [fileOf, List.mem_flatten]
      rintro ⟨row, hrow, hzero⟩
      rcases List.mem_map.mp hrow with ⟨entry, hentry, rfl⟩
      rcases accountRow_line (h entry hentry) with ⟨digest, hline, -, -, -, hnul⟩
      rw [hline, List.mem_append] at hzero
      exact hzero.elim hnul (by decide)
    have hne : fileOf (account :: accounts) ≠ [] := by
      rcases accountRow_line (h account List.mem_cons_self) with ⟨digest, hline, -⟩
      rw [fileOf, List.map_cons, List.flatten_cons, hline]
      simp
    have hstr : Vhost.cString (fileOf (account :: accounts) ++ [0]) = fileOf (account :: accounts) := by
      rw [Vhost.cString_append htext]
      simp [Vhost.cString]
    rcases @addUsersLoop_rows [] (account :: accounts) h htext hint (Or.inl rfl) with
      ⟨users, hloop, husers⟩
    refine ⟨users, ?_, husers⟩
    rw [mkAuthConfAddUsers, if_neg hne]
    simp only [hstr, toInt32_eq (show -2 ^ 31 ≤ ((fileOf (account :: accounts)).length : Int) by omega)
      (by omega), Int.toNat_natCast]
    exact hloop

end Load

/-! ## The result -/

/-- A users file is loaded as its digests are meant exactly if each well-formed
line of it is reached and its digest taken, and every other line is passed over;
the texts of the digests are loaded only where there are none. A file that
`mk_passwd` wrote for plain names is loaded with its users and digests. -/
theorem usersFile_iff (content : Bytes) :
    (LoadsTexts content ↔ NothingLoaded content) ∧
    (LoadsDigests content ↔ DigestsKept content) ∧
    ∀ (sha1 : Bytes → Digest) (calls : List (Bool × Request)),
      (∀ call ∈ calls, PlainName call.2.username) → (mkPasswdRun sha1 calls).length < 2 ^ 31 →
      LoadsBack (mkPasswdRun sha1 calls) (accountsRun sha1 calls) := by
  refine ⟨loadsTexts_iff content, loadsDigests_iff content, ?_⟩
  · intro sha1 calls hnames hint
    rcases mkPasswdRun_fileOf sha1 calls hnames with ⟨hfile, hplain⟩
    rw [hfile] at hint ⊢
    exact loadsBack_fileOf hplain hint

/-- The digest of `secret`. -/
def secretValue : Digest := ⟨secretDigest, by decide⟩

/-- Two calls, and what the server loads. -/
theorem usersFile_joe :
    LoadsBack (mkPasswdRun (fun _ => secretValue)
      [(true, .update (bytes "ann") []), (false, .update (bytes "joe") [])])
      [(bytes "ann", secretValue), (bytes "joe", secretValue)] := by
  have hann : PlainName (bytes "ann") := ⟨by decide, by decide, by decide, by decide⟩
  have hjoe : PlainName (bytes "joe") := ⟨by decide, by decide, by decide, by decide⟩
  refine (usersFile_iff []).2.2 (fun _ => secretValue)
    [(true, .update (bytes "ann") []), (false, .update (bytes "joe") [])] ?_ (by decide)
  intro call hcall
  simp only [List.mem_cons, List.not_mem_nil, or_false] at hcall
  rcases hcall with rfl | rfl
  · exact hann
  · exact hjoe

/-- A line without `:`: the byte in front of `user` is written, and all behind
it. -/
theorem line_without_colon :
    mkAuthConfAddUsers (bytes "joe\n") = none ∧ ¬ LoadsTexts (bytes "joe\n") ∧
      ¬ LoadsDigests (bytes "joe\n") := by
  have hnone : mkAuthConfAddUsers (bytes "joe\n") = none := by decide
  refine ⟨hnone, ?_, ?_⟩
  · rintro ⟨users, husers, -⟩
    rw [hnone] at husers
    cases husers
  · rintro ⟨users, husers, -⟩
    rw [hnone] at husers
    cases husers

end SuperExe.Plugins.Auth
