import SuperExe.FastCgi.Params

/-! # Decoding the parameters

The FastCGI specification's view of what the plugin sends: the stream is cut
into records by the lengths in their headers, the contents of the FCGI_PARAMS
records up to the empty one are put together, and that is cut into name-value
pairs by the length bytes.

`params_decode_iff` compares this with the list of parameters the plugin has
added.
-/

namespace SuperExe.FastCgi

open SuperExe.Core

/-! ## Decoding by the specification -/

/-- The contents of the FCGI_PARAMS records up to the empty one, and what
follows it. -/
def paramsStream : Nat → Bytes → Option (Bytes × Bytes)
  | 0, _ => none
  | fuel + 1, bs =>
    match cutRecord bs with
    | none => none
    | some (r, rest) =>
      if r.type ≠ fcgiParams then none
      else if r.content = [] then some ([], rest)
      else (paramsStream fuel rest).map fun x => (r.content ++ x.1, x.2)

/-- A length of a name-value pair: one byte, or four with the first bit set. -/
def readLength : Bytes → Option (Nat × Bytes)
  | [] => none
  | b3 :: rest =>
    if b3.toNat < 128 then some (b3.toNat, rest)
    else
      match rest with
      | b2 :: b1 :: b0 :: rest =>
        some (b3.toNat % 128 * 2 ^ 24 + b2.toNat * 2 ^ 16 + b1.toNat * 2 ^ 8 + b0.toNat, rest)
      | _ => none

/-- One name-value pair. -/
def readPair (bs : Bytes) : Option ((Bytes × Bytes) × Bytes) :=
  (readLength bs).bind fun (nameLen, bs) =>
  (readLength bs).bind fun (valLen, bs) =>
  if nameLen + valLen ≤ bs.length then
    some ((bs.take nameLen, (bs.drop nameLen).take valLen), bs.drop (nameLen + valLen))
  else none

def readPairs : Nat → Bytes → Option (List (Bytes × Bytes))
  | _, [] => some []
  | 0, _ => none
  | fuel + 1, bs => (readPair bs).bind fun (p, bs) => (readPairs fuel bs).map fun ps => p :: ps

/-- The parameters a byte stream carries, and what follows the closing
record. -/
def decodeParams (bs : Bytes) : Option (List (Bytes × Bytes) × Bytes) :=
  (paramsStream bs.length bs).bind fun (content, rest) =>
  (readPairs content.length content).map fun ps => (ps, rest)

/-! ## The records by the specification -/

section Decode

/-- The name-value pair of a parameter as the plugin writes it. -/
def pairBytes (p : Bytes × Bytes) : Bytes :=
  writeLength p.1.length ++ writeLength p.2.length ++ p.1 ++ p.2

/-- The lengths a record can carry as the plugin computes and writes them. -/
def Good (p : Bytes × Bytes) : Prop :=
  p.1.length ≠ 127 ∧ p.2.length ≠ 127 ∧ recordLength p.1.length p.2.length ≤ 65535

instance (p : Bytes × Bytes) : Decidable (Good p) := inferInstanceAs (Decidable (_ ∧ _ ∧ _))

theorem length_writeLength (n : Nat) : (writeLength n).length = if n < 127 then 1 else 4 := by
  unfold writeLength
  split <;> rfl

/-- The length the record header has is the length of the pair exactly where no
length is 127; elsewhere it is three or six bytes short. -/
theorem length_pairBytes (p : Bytes × Bytes) :
    (pairBytes p).length = recordLength p.1.length p.2.length +
      (if p.1.length = 127 then 3 else 0) + (if p.2.length = 127 then 3 else 0) := by
  simp only [pairBytes, List.length_append, length_writeLength, recordLength]
  split_ifs <;> omega

theorem paramHeader_eq (keyLen valLen : Nat) :
    paramHeader keyLen valLen = [1, fcgiParams] ++ encode16 1 ++
      encode16 (recordLength keyLen valLen % 65536) ++
      [UInt8.ofNat (paddingOf (recordLength keyLen valLen)), 0] ++
      writeLength keyLen ++ writeLength valLen := by
  simp only [paramHeader]
  split
  · rfl
  · next h =>
    have : paddingOf (recordLength keyLen valLen) = 0 := by simpa using h
    rw [this]
    rfl

/-- What stands in the header of a parameter's record: the content length and
the padding length. -/
def declared (p : Bytes × Bytes) : Nat := recordLength p.1.length p.2.length % 65536

def declaredPadding (p : Bytes × Bytes) : Nat := paddingOf (recordLength p.1.length p.2.length)

/-- What follows the header. -/
def paramBody (p : Bytes × Bytes) : Bytes := pairBytes p ++ List.replicate (declaredPadding p) 0

theorem length_paramBody (p : Bytes × Bytes) :
    (paramBody p).length = (pairBytes p).length + declaredPadding p := by
  simp [paramBody]

theorem declared_le (p : Bytes × Bytes) : declared p ≤ (pairBytes p).length := by
  have := Nat.mod_le (recordLength p.1.length p.2.length) 65536
  rw [length_pairBytes, declared]
  omega

/-- How the specification cuts the record of a parameter: with the lengths in
its header, whatever has been written. -/
theorem cutRecord_paramBytes (p : Bytes × Bytes) (rest : Bytes) :
    cutRecord (paramBytes p.1 p.2 ++ rest) = some (
      { type := fcgiParams, requestId := 1,
        content := (paramBody p ++ rest).take (declared p),
        padding := ((paramBody p ++ rest).drop (declared p)).take (declaredPadding p) },
      (paramBody p ++ rest).drop (declared p + declaredPadding p)) := by
  have hbytes : paramBytes p.1 p.2 ++ rest = [1, fcgiParams] ++ encode16 1 ++
      encode16 (declared p) ++ [UInt8.ofNat (declaredPadding p), 0] ++ (paramBody p ++ rest) := by
    simp [paramBytes, paramHeader_eq, pairBytes, paramBody, declared, declaredPadding]
  have hcl : (UInt8.ofNat (declared p / 256)).toNat * 256 + (UInt8.ofNat (declared p)).toNat =
      declared p := encode16_value (Nat.mod_lt _ (by decide))
  have hp : (UInt8.ofNat (declaredPadding p)).toNat = declaredPadding p := by
    have := paddingOf_lt (recordLength p.1.length p.2.length)
    rw [UInt8.toNat_ofNat', declaredPadding]
    omega
  have hfits : declared p + declaredPadding p ≤ (paramBody p ++ rest).length := by
    have := declared_le p
    rw [List.length_append, length_paramBody]
    omega
  rw [hbytes]
  simp only [encode16, List.cons_append, List.nil_append, cutRecord, hcl, hp]
  rw [if_pos ⟨trivial, hfits⟩]
  rfl

/-- A good parameter's record is its pair. -/
theorem paramsStream_good {p : Bytes × Bytes} (h : Good p) (fuel : Nat) (rest : Bytes) :
    paramsStream (fuel + 1) (paramBytes p.1 p.2 ++ rest) =
      (paramsStream fuel rest).map fun x => (pairBytes p ++ x.1, x.2) := by
  obtain ⟨hk, hv, hlen⟩ := h
  have hN : (pairBytes p).length = declared p := by
    rw [length_pairBytes, if_neg hk, if_neg hv, declared]
    omega
  have htake : (paramBody p ++ rest).take (declared p) = pairBytes p := by
    rw [paramBody, List.append_assoc, ← hN, List.take_left]
  have hdrop : (paramBody p ++ rest).drop (declared p + declaredPadding p) = rest := by
    rw [← hN, ← length_paramBody, List.drop_left]
  have hne : pairBytes p ≠ [] := by
    simp only [pairBytes, writeLength]
    split <;> simp
  rw [paramsStream, cutRecord_paramBytes]
  simp only [ne_eq, not_true_eq_false, if_false, htake, hdrop, hne]

/-- The closing record. -/
def closing : Bytes := buildHeader fcgiParams 1 0

theorem paramsStream_closing (fuel : Nat) (rest : Bytes) :
    paramsStream (fuel + 1) (closing ++ rest) = some ([], rest) := by
  have h : cutRecord (closing ++ rest) =
      some (⟨fcgiParams, 1, [], []⟩, rest) := cutRecord_bytes (r := ⟨fcgiParams, 1, [], []⟩)
        (by decide) rest
  rw [paramsStream, h]
  simp

/-- Every cut record takes eight bytes beside its content. -/
theorem length_of_paramsStream {fuel : Nat} {bs content rest : Bytes}
    (h : paramsStream fuel bs = some (content, rest)) :
    content.length + 8 ≤ bs.length ∧ (content ≠ [] → content.length + 16 ≤ bs.length) := by
  induction fuel generalizing bs content rest with
  | zero => cases h
  | succ fuel ih =>
    rw [paramsStream] at h
    cases hcut : cutRecord bs with
    | none => simp [hcut] at h
    | some x =>
      obtain ⟨r, rest'⟩ := x
      have hlen := length_of_cutRecord hcut
      simp only [hcut, Record.size, headerSize] at h hlen
      split at h
      · cases h
      · split at h
        · cases h
          exact ⟨by simp only [List.length_nil]; omega, fun hne => absurd rfl hne⟩
        · obtain ⟨⟨c, r'⟩, hc, heq⟩ := Option.map_eq_some_iff.mp h
          have := (ih hc).1
          cases heq
          simp only [List.length_append]
          exact ⟨by omega, fun _ => by omega⟩

/-! ### Pairs -/

theorem readLength_writeLength {n : Nat} (h : n < 2 ^ 31) (rest : Bytes) :
    readLength (writeLength n ++ rest) = some (n, rest) := by
  unfold writeLength
  split
  · next hn =>
    have hv : (UInt8.ofNat n).toNat = n := by
      rw [UInt8.toNat_ofNat']
      omega
    simp only [List.singleton_append, readLength, hv]
    rw [if_pos (by omega)]
  · have hor : ∀ m < 128, m ||| 0x80 = m + 128 := by decide
    have hm : n / 2 ^ 24 < 128 := by omega
    have h3 : (UInt8.ofNat (n / 2 ^ 24 ||| 0x80)).toNat = n / 2 ^ 24 + 128 := by
      rw [hor _ hm, UInt8.toNat_ofNat']
      omega
    have h2 : ∀ m, (UInt8.ofNat (m % 256)).toNat = m % 256 := by
      intro m
      rw [UInt8.toNat_ofNat']
      omega
    simp only [List.cons_append, List.nil_append, readLength, h3, h2]
    rw [if_neg (by omega)]
    congr 2
    omega

/-- The least number of bytes a length takes. -/
theorem length_of_readLength {bs rest : Bytes} {n : Nat} (h : readLength bs = some (n, rest)) :
    rest.length + (if n > 127 then 4 else 1) ≤ bs.length := by
  cases bs with
  | nil => cases h
  | cons b3 bs =>
    simp only [readLength] at h
    split at h
    · next hb =>
      cases h
      rw [if_neg (by omega), List.length_cons]
    · split at h
      · cases h
        simp only [List.length_cons]
        split <;> omega
      · cases h

theorem readPair_eq_some {bs rest : Bytes} {p : Bytes × Bytes} (h : readPair bs = some (p, rest)) :
    ∃ b1 b2, readLength bs = some (p.1.length, b1) ∧ readLength b1 = some (p.2.length, b2) ∧
      b2 = p.1 ++ p.2 ++ rest := by
  obtain ⟨⟨n, b1⟩, h1, h⟩ := Option.bind_eq_some_iff.mp h
  obtain ⟨⟨v, b2⟩, h2, h⟩ := Option.bind_eq_some_iff.mp h
  dsimp only at h
  split at h
  · next hle =>
    cases h
    have hn : (b2.take n).length = n := by
      rw [List.length_take]
      omega
    have hv : ((b2.drop n).take v).length = v := by
      rw [List.length_take, List.length_drop]
      omega
    refine ⟨b1, b2, by rw [hn]; exact h1, by rw [hv]; exact h2, ?_⟩
    rw [← List.take_add, List.take_append_drop]
  · cases h

/-- The least number of bytes a pair takes. -/
theorem length_of_readPair {bs rest : Bytes} {p : Bytes × Bytes}
    (h : readPair bs = some (p, rest)) :
    recordLength p.1.length p.2.length + rest.length ≤ bs.length := by
  obtain ⟨b1, b2, h1, h2, rfl⟩ := readPair_eq_some h
  have hl1 := length_of_readLength h1
  have hl2 := length_of_readLength h2
  simp only [List.length_append] at hl2
  unfold recordLength
  omega

theorem readPair_pairBytes {p : Bytes × Bytes} (hk : p.1.length < 2 ^ 31)
    (hv : p.2.length < 2 ^ 31) (rest : Bytes) :
    readPair (pairBytes p ++ rest) = some (p, rest) := by
  have hassoc : pairBytes p ++ rest = writeLength p.1.length ++
      (writeLength p.2.length ++ (p.1 ++ (p.2 ++ rest))) := by
    simp [pairBytes]
  rw [hassoc, readPair, readLength_writeLength hk]
  simp only [Option.bind_some, readLength_writeLength hv]
  simp [List.drop_append]

theorem Good.lengths {p : Bytes × Bytes} (h : Good p) :
    p.1.length < 2 ^ 31 ∧ p.2.length < 2 ^ 31 := by
  have := h.2.2
  unfold recordLength at this
  exact ⟨by omega, by omega⟩

/-- One pair off the front. -/
theorem readPairs_good {p : Bytes × Bytes} (h : Good p) (fuel : Nat) (rest : Bytes) :
    readPairs (fuel + 1) (pairBytes p ++ rest) = (readPairs fuel rest).map fun ps => p :: ps := by
  have hne : ∃ b bs, pairBytes p ++ rest = b :: bs := by
    cases hb : pairBytes p ++ rest with
    | nil =>
      have := congrArg List.length hb
      rw [List.length_append, length_pairBytes, List.length_nil, recordLength] at this
      split_ifs at this <;> omega
    | cons b bs => exact ⟨b, bs, rfl⟩
  obtain ⟨b, bs, hb⟩ := hne
  rw [hb, readPairs, ← hb, readPair_pairBytes h.lengths.1 h.lengths.2, Option.bind_some]
  exact fun h => absurd h (by simp)

/-! ### Lists of parameters -/

/-- The records of a list of parameters. -/
def paramsBytes (ps : List (Bytes × Bytes)) : Bytes := ps.flatMap fun p => paramBytes p.1 p.2

variable {ps : List (Bytes × Bytes)}

theorem paramsStream_peel (hg : ∀ p ∈ ps, Good p) (fuel : Nat) (rest : Bytes) :
    paramsStream (fuel + ps.length) (paramsBytes ps ++ rest) =
      (paramsStream fuel rest).map fun x => (ps.flatMap pairBytes ++ x.1, x.2) := by
  induction ps with
  | nil => simp [paramsBytes]
  | cons p ps ih =>
    have hps := ih fun q hq => hg q (List.mem_cons_of_mem p hq)
    have happ : paramsBytes (p :: ps) ++ rest = paramBytes p.1 p.2 ++ (paramsBytes ps ++ rest) := by
      simp [paramsBytes]
    rw [happ, List.length_cons, ← Nat.add_assoc, paramsStream_good (hg p List.mem_cons_self), hps,
      Option.map_map]
    simp [Function.comp_def]

theorem readPairs_peel (hg : ∀ p ∈ ps, Good p) (fuel : Nat) (rest : Bytes) :
    readPairs (fuel + ps.length) (ps.flatMap pairBytes ++ rest) =
      (readPairs fuel rest).map fun qs => ps ++ qs := by
  induction ps with
  | nil => simp
  | cons p ps ih =>
    have hps := ih fun q hq => hg q (List.mem_cons_of_mem p hq)
    rw [List.flatMap_cons, List.append_assoc, List.length_cons, ← Nat.add_assoc,
      readPairs_good (hg p List.mem_cons_self), hps, Option.map_map]
    simp [Function.comp_def]

theorem length_le_paramsBytes (ps : List (Bytes × Bytes)) : ps.length ≤ (paramsBytes ps).length := by
  induction ps with
  | nil => exact Nat.le_refl 0
  | cons p ps ih =>
    have hcons : paramsBytes (p :: ps) = paramBytes p.1 p.2 ++ paramsBytes ps := rfl
    have hpos : 8 ≤ (paramBytes p.1 p.2).length := by
      simp only [paramBytes, paramHeader_eq, encode16, List.length_append, List.length_cons,
        List.length_nil]
      omega
    rw [hcons, List.length_append, List.length_cons]
    omega

theorem length_le_pairsBytes (ps : List (Bytes × Bytes)) :
    ps.length ≤ (ps.flatMap pairBytes).length := by
  induction ps with
  | nil => exact Nat.le_refl 0
  | cons p ps ih =>
    have hpos : 1 ≤ (pairBytes p).length := by
      rw [length_pairBytes, recordLength]
      split_ifs <;> omega
    rw [List.flatMap_cons, List.length_append, List.length_cons]
    omega

/-- Good parameters decode to themselves. -/
theorem decodeParams_good (hg : ∀ p ∈ ps, Good p) :
    decodeParams (paramsBytes ps ++ closing) = some (ps, []) := by
  have hlen : (paramsBytes ps ++ closing).length =
      ((paramsBytes ps).length - ps.length + 7) + 1 + ps.length := by
    have := length_le_paramsBytes ps
    rw [List.length_append, show closing.length = 8 from rfl]
    omega
  have hpairs : (ps.flatMap pairBytes).length =
      (ps.flatMap pairBytes).length - ps.length + ps.length := by
    have := length_le_pairsBytes ps
    omega
  have hend := paramsStream_closing ((paramsBytes ps).length - ps.length + 7) []
  rw [List.append_nil] at hend
  have hall := readPairs_peel hg ((ps.flatMap pairBytes).length - ps.length) []
  rw [← hpairs, List.append_nil] at hall
  rw [decodeParams, hlen, paramsStream_peel hg, hend]
  simp only [Option.map_some, Option.bind_some, List.append_nil, hall]
  simp [readPairs]

/-- A pair whose length bytes are all there asks for all its bytes. -/
theorem readPair_short {p : Bytes × Bytes} (hk : p.1.length < 2 ^ 31) (hv : p.2.length < 2 ^ 31)
    {n : Nat} (hn : n < (pairBytes p).length) (hn8 : 8 ≤ n) {x : (Bytes × Bytes) × Bytes} :
    readPair ((pairBytes p).take n) ≠ some x := by
  intro h
  have hw : ∀ m, (writeLength m).length ≤ 4 := by
    intro m
    rw [length_writeLength]
    split <;> omega
  have hk4 := hw p.1.length
  have hv4 := hw p.2.length
  have hsplit : (pairBytes p).take n = writeLength p.1.length ++ (writeLength p.2.length ++
      (p.1 ++ p.2).take (n - (writeLength p.1.length).length - (writeLength p.2.length).length)) := by
    have hassoc : pairBytes p = writeLength p.1.length ++ (writeLength p.2.length ++ (p.1 ++ p.2)) := by
      simp [pairBytes]
    rw [hassoc, List.take_append, List.take_of_length_le (by omega), List.take_append,
      List.take_of_length_le (by omega)]
  have hlen : (pairBytes p).length = (writeLength p.1.length).length +
      (writeLength p.2.length).length + (p.1.length + p.2.length) := by
    simp only [pairBytes, List.length_append]
    omega
  rw [hsplit, readPair, readLength_writeLength hk] at h
  simp only [Option.bind_some, readLength_writeLength hv] at h
  rw [if_neg] at h
  · cases h
  · rw [List.length_take, List.length_append]
    omega

/-- A content that is one pair. -/
theorem readPairs_one {fuel : Nat} {bs : Bytes} {q : Bytes × Bytes}
    (h : readPairs fuel bs = some [q]) : ∃ rest, readPair bs = some (q, rest) := by
  cases bs with
  | nil => simp [readPairs] at h
  | cons b bs =>
    cases fuel with
    | zero => simp [readPairs] at h
    | succ fuel =>
      rw [readPairs] at h
      · obtain ⟨⟨p, rest⟩, hp, h⟩ := Option.bind_eq_some_iff.mp h
        obtain ⟨qs, -, hqs⟩ := Option.map_eq_some_iff.mp h
        cases hqs
        exact ⟨rest, hp⟩
      · exact fun h => absurd h (by simp)

/-- After good parameters, a list decodes to itself only if its last parameter
is good too. The records the specification cuts from a bad one hold too few
bytes for the pair: each further header costs eight bytes, and at most six are
to spare. -/
theorem good_of_decodeParams (hg : ∀ p ∈ ps, Good p) {q : Bytes × Bytes} {rest : Bytes}
    (h : decodeParams (paramsBytes ps ++ (paramBytes q.1 q.2 ++ closing)) =
      some (ps ++ [q], rest)) : Good q := by
  obtain ⟨⟨content, rest'⟩, hstream, hread⟩ := Option.bind_eq_some_iff.mp h
  obtain ⟨qs, hqs, heq⟩ := Option.map_eq_some_iff.mp hread
  cases heq
  -- the good parameters before it
  have hlen : (paramsBytes ps ++ (paramBytes q.1 q.2 ++ closing)).length =
      (paramsBytes ps ++ (paramBytes q.1 q.2 ++ closing)).length - ps.length + ps.length := by
    have := length_le_paramsBytes ps
    rw [List.length_append]
    omega
  rw [hlen, paramsStream_peel hg] at hstream
  obtain ⟨⟨c, r⟩, hc, hcontent⟩ := Option.map_eq_some_iff.mp hstream
  cases hcontent
  have hlen' : (ps.flatMap pairBytes ++ c).length =
      (ps.flatMap pairBytes ++ c).length - ps.length + ps.length := by
    have := length_le_pairsBytes ps
    rw [List.length_append]
    omega
  dsimp only at hqs
  rw [hlen', readPairs_peel hg] at hqs
  obtain ⟨qs, hqs, heq⟩ := Option.map_eq_some_iff.mp hqs
  obtain rfl : qs = [q] := List.append_cancel_left heq
  obtain ⟨r2, hpair⟩ := readPairs_one hqs
  have hneed := length_of_readPair hpair
  -- what the specification cuts from its own record
  generalize hk : (paramsBytes ps ++ (paramBytes q.1 q.2 ++ closing)).length - ps.length = k at hc
  cases k with
  | zero => cases hc
  | succ k =>
    have hdec := declared_le q
    have hN := length_pairBytes q
    rw [paramsStream, cutRecord_paramBytes] at hc
    simp only [ne_eq, not_true_eq_false, if_false] at hc
    split at hc
    · -- an empty record: no pair at all
      cases hc
      have : 2 ≤ recordLength q.1.length q.2.length := by
        unfold recordLength
        split_ifs <;> omega
      simp only [List.length_nil] at hneed
      omega
    · obtain ⟨⟨c1, r1⟩, hc1, hcc⟩ := Option.map_eq_some_iff.mp hc
      cases hcc
      obtain ⟨-, hmore⟩ := length_of_paramsStream hc1
      simp only [List.length_append, List.length_take, List.length_drop, length_paramBody,
        show closing.length = 8 from rfl] at hneed hmore
      by_cases hc1e : c1 = []
      · subst hc1e
        have hdecl : declared q = recordLength q.1.length q.2.length := by
          have : declared q ≤ recordLength q.1.length q.2.length := Nat.mod_le _ _
          simp only [List.length_nil] at hneed
          omega
        have hsmall : recordLength q.1.length q.2.length < 65536 := by
          rw [← hdecl]
          exact Nat.mod_lt _ (by decide)
        have hshort : ¬ declared q < (pairBytes q).length := by
          intro hlt
          have hlarge : 8 ≤ declared q := by
            rw [hdecl, recordLength]
            split_ifs at hN <;> omega
          have hlens : q.1.length < 2 ^ 31 ∧ q.2.length < 2 ^ 31 := by
            unfold recordLength at hsmall
            exact ⟨by omega, by omega⟩
          have htake : (paramBody q ++ closing).take (declared q) =
              (pairBytes q).take (declared q) := by
            rw [paramBody, List.append_assoc, List.take_append_of_le_length hdec]
          rw [htake, List.append_nil] at hpair
          exact readPair_short hlens.1 hlens.2 hlt hlarge hpair
        refine ⟨?_, ?_, by omega⟩
        · intro h127
          rw [if_pos h127] at hN
          omega
        · intro h127
          rw [if_pos h127] at hN
          omega
      · have := hmore hc1e
        split_ifs at hN <;> omega

end Decode

/-! ## Requests -/

section Requests

/-- The call leaves the handler alone. -/
def Add.refused (bufLen : Nat) : Add → Bool
  | .param _ _ => false
  | .header key _ => noSpace bufLen key

/-- The bytes of the buffer a call takes. -/
def Add.bufUse : Add → Nat
  | .param key val => (paramHeader key.length val.length).length
  | .header key val =>
    (headerName key).length + (paramHeader (headerName key).length val.length).length

def Add.entries (a : Add) : Nat := paramEntries a.pair.1.length a.pair.2.length

/-- The condition on a sequence of calls, with the bytes of the buffer in use
and the entries of the iov left: the buffer and the iov have room, and every
parameter that is added is good. -/
def Meets : Nat → Nat → List Add → Prop
  | bufLen, slots, [] => bufLen + headerSize ≤ bufSize ∧ 1 ≤ slots
  | bufLen, slots, a :: as =>
    if a.refused bufLen then Meets bufLen slots as
    else Good a.pair ∧ bufLen + a.bufUse ≤ bufSize ∧ a.entries ≤ slots ∧
      Meets (bufLen + a.bufUse) (slots - a.entries) as

example : Meets 0 1 [] := by simp [Meets, headerSize, bufSize]

/-- The parameters added so far. -/
structure Built (h : Params) (ps : List (Bytes × Bytes)) : Prop where
  inside : h.Inside
  bytes : h.bytes = paramsBytes ps
  room : h.iov.io.length ≤ h.iov.size

def Params.slots (h : Params) : Nat := h.iov.size - h.iov.io.length

variable {h : Params} {ps : List (Bytes × Bytes)}

theorem paramsBytes_concat (ps : List (Bytes × Bytes)) (p : Bytes × Bytes) :
    paramsBytes (ps ++ [p]) = paramsBytes ps ++ paramBytes p.1 p.2 := by
  simp [paramsBytes]

theorem run_refused {a : Add} (hr : a.refused h.bufData.length = true) :
    a.run h = some (h, []) := by
  cases a with
  | param key val => cases hr
  | header key val =>
    have : noSpace h.bufData.length key = true := hr
    simp [Add.run, addParamHttpHeader, this]

theorem length_paramHeader_le (keyLen valLen : Nat) : (paramHeader keyLen valLen).length ≤ 16 := by
  rw [paramHeader_eq]
  simp only [encode16, List.length_append, List.length_cons, List.length_nil, length_writeLength]
  split_ifs <;> omega

/-- After the check of `fcgi_add_param_http_header` the name fits the
buffer. -/
theorem headerName_fits {key : Bytes} (hr : noSpace h.bufData.length key = false) :
    h.bufData.length + (headerName key).length ≤ bufSize := by
  have hname : (headerName key).length = key.length + 5 := by
    simp only [headerName, List.length_append, List.length_map]
    exact Nat.add_comm 5 key.length
  have hsp : ¬ ((bufSize : Int) - h.bufData.length < headerSize + 8 + (key.length + 5)) := by
    simpa [noSpace] using hr
  rw [hname]
  simp only [headerSize] at hsp
  omega

/-- What one call has done that has added its parameter. -/
structure Ran (h h' : Params) (a : Add) : Prop where
  inside : h.Inside → h'.Inside
  bytes : h.Inside → h'.bytes = h.bytes ++ paramBytes a.pair.1 a.pair.2
  bufData : h'.bufData.length = h.bufData.length + a.bufUse
  io : h'.iov.io.length = h.iov.io.length + a.entries
  size : h'.iov.size = h.iov.size
  ok : h.iov.Ok → h'.iov.Ok

/-- A call that is not refused adds its parameter if there is room. -/
theorem run_ran {a : Add} (hr : a.refused h.bufData.length = false)
    (hbuf : h.bufData.length + a.bufUse ≤ bufSize)
    (hio : h.iov.io.length + a.entries ≤ h.iov.size) :
    ∃ h', a.run h = some (h', [a.pair]) ∧ Ran h h' a := by
  cases a with
  | param key val =>
    simp only [Add.bufUse, Add.entries, Add.pair] at hbuf hio ⊢
    obtain ⟨h', h1, h2, h3, h4, h5⟩ := addParam_some (h := h) (.arg key) 0
      (show ParamRoom h key.length val.length from ⟨hbuf, hio⟩)
    have hbytes := fun hin => addParam_bytes hin (Or.inl ⟨rfl, rfl⟩) h2 h3
    refine ⟨h', by simp [Add.run, h1], fun hin => (hbytes hin).2, fun hin => (hbytes hin).1, ?_, ?_,
      h4, h5⟩
    · rw [h2, List.length_append]
      rfl
    · rw [h3, List.length_append, length_paramIov]
      rfl
  | header key val =>
    have hsp : noSpace h.bufData.length key = false := hr
    have hname := headerName_fits hsp
    simp only [Add.bufUse, Add.entries, Add.pair] at hbuf hio ⊢
    -- the name first, then the parameter that refers to it
    let g : Params := { h with bufData := h.bufData ++ headerName key }
    have hg : h.write (headerName key) = some g := if_pos hname
    have hgin : h.Inside → g.Inside := by
      intro hin e he hbase
      have := hin e he hbase
      show _ ≤ (h.bufData ++ headerName key).length
      rw [List.length_append]
      omega
    have hgbytes : h.Inside → g.bytes = h.bytes := fun hin => entriesBytes_write hin rfl
    obtain ⟨h', h1, h2, h3, h4, h5⟩ := addParam_some (h := g) .buf h.bufData.length
      (show ParamRoom g (headerName key).length val.length from
        ⟨by show (h.bufData ++ headerName key).length + _ ≤ _
            rw [List.length_append]
            omega, hio⟩)
    have hbytes := fun hin => addParam_bytes (hgin hin) (Or.inr ⟨rfl, h.bufData, rfl, rfl⟩) h2 h3
    refine ⟨h', ?_, fun hin => (hbytes hin).2, fun hin => ?_, ?_, ?_, h4, h5⟩
    · simp [Add.run, addParamHttpHeader, hsp, hg, h1]
    · rw [(hbytes hin).1, hgbytes hin]
      rfl
    · rw [h2, List.length_append]
      show (h.bufData ++ headerName key).length + _ = _
      rw [List.length_append, Nat.add_assoc]
      rfl
    · rw [h3, List.length_append, length_paramIov]
      rfl

/-- Without room it writes behind one of the arrays. -/
theorem run_none {a : Add} (hr : a.refused h.bufData.length = false)
    (hroom : ¬ (h.bufData.length + a.bufUse ≤ bufSize ∧
      h.iov.io.length + a.entries ≤ h.iov.size)) : a.run h = none := by
  cases a with
  | param key val =>
    simp only [Add.bufUse, Add.entries, Add.pair] at hroom
    have hno : ¬ ParamRoom h key.length val.length := hroom
    simp [Add.run, addParam_none _ _ hno]
  | header key val =>
    have hsp : noSpace h.bufData.length key = false := hr
    have hname := headerName_fits hsp
    simp only [Add.bufUse, Add.entries, Add.pair] at hroom
    let g : Params := { h with bufData := h.bufData ++ headerName key }
    have hg : h.write (headerName key) = some g := if_pos hname
    have hno : ¬ ParamRoom g (headerName key).length val.length := by
      rintro ⟨h1, h2⟩
      apply hroom
      have h1' : (h.bufData ++ headerName key).length +
          (paramHeader (headerName key).length val.length).length ≤ bufSize := h1
      rw [List.length_append] at h1'
      exact ⟨by omega, h2⟩
    simp [Add.run, addParamHttpHeader, hsp, hg, addParam_none _ _ hno]

theorem Built.ran {h' : Params} (hb : Built h ps) {a : Add} (hran : Ran h h' a)
    (hio : h.iov.io.length + a.entries ≤ h.iov.size) : Built h' (ps ++ [a.pair]) := by
  refine ⟨hran.inside hb.inside, ?_, ?_⟩
  · rw [hran.bytes hb.inside, hb.bytes, paramsBytes_concat]
  · rw [hran.io, hran.size]
    exact hio

/-- One more parameter. -/
theorem run_some (hb : Built h ps) {a : Add} (hr : a.refused h.bufData.length = false)
    (hbuf : h.bufData.length + a.bufUse ≤ bufSize) (hio : a.entries ≤ h.slots) :
    ∃ h', a.run h = some (h', [a.pair]) ∧ Built h' (ps ++ [a.pair]) ∧
      h'.bufData.length = h.bufData.length + a.bufUse ∧ h'.slots = h.slots - a.entries := by
  have hle := hb.room
  unfold Params.slots at hio ⊢
  have hio' : h.iov.io.length + a.entries ≤ h.iov.size := by omega
  obtain ⟨h', hrun, hran⟩ := run_ran hr hbuf hio'
  refine ⟨h', hrun, hb.ran hran hio', hran.bufData, ?_⟩
  rw [hran.io, hran.size]
  omega

/-- The closing record. -/
theorem addParamEmpty_some (hb : Built h ps) (hbuf : h.bufData.length + headerSize ≤ bufSize)
    (hio : 1 ≤ h.slots) :
    ∃ h', addParamEmpty h = some h' ∧ h'.bytes = paramsBytes ps ++ closing := by
  have hlt : h.iov.io.length < h.iov.size := by
    have := hb.room
    simp only [Params.slots] at hio
    omega
  have hw : h.write (buildHeader fcgiParams 1 0) =
      some { h with bufData := h.bufData ++ closing } := if_pos hbuf
  let g : Params := ⟨h.bufData ++ closing, mkIovAdd h.iov .buf h.bufData.length headerSize⟩
  refine ⟨g, ?_, ?_⟩
  · simp [addParamEmpty, hw, iovAdd, hlt, g]
  · have hread : g.mem.read .buf h.bufData.length closing.length = closing :=
      read_buf (c := []) (by rw [List.append_nil])
    have hold : entriesBytes g.mem h.iov.io = h.bytes := entriesBytes_write hb.inside rfl
    rw [Params.bytes, MkIov.bytes, show g.iov.io = h.iov.io ++ [⟨.buf, h.bufData.length, headerSize⟩]
      from rfl, entriesBytes, List.flatMap_append, ← hb.bytes, ← hold, List.flatMap_singleton]
    exact congrArg (entriesBytes g.mem h.iov.io ++ ·) hread

theorem addParamEmpty_none (hb : Built h ps)
    (hroom : ¬ (h.bufData.length + headerSize ≤ bufSize ∧ 1 ≤ h.slots)) :
    addParamEmpty h = none := by
  have hle := hb.room
  simp only [addParamEmpty, Params.write]
  split
  · next hbuf =>
    have hio : ¬ 1 ≤ h.slots := fun hio => hroom ⟨hbuf, hio⟩
    simp only [Params.slots] at hio
    simp only [Option.bind_some, iovAdd]
    rw [if_neg (by omega)]
    rfl
  · rfl

/-- The calls `as`, made after `ps` have been added, and the closing record
decode to the parameters added by all of them, and to nothing else. -/
def Decodes (h : Params) (ps : List (Bytes × Bytes)) (as : List Add) : Prop :=
  ∃ h' qs, ((addAll h as).bind fun (h, ps) => (addParamEmpty h).map fun h => (h, ps)) =
      some (h', qs) ∧
    decodeParams h'.bytes = some (ps ++ qs, [])

theorem decodes_refused {a : Add} (hr : a.refused h.bufData.length = true) (as : List Add) :
    Decodes h ps (a :: as) ↔ Decodes h ps as := by
  have : addAll h (a :: as) = addAll h as := by
    rw [addAll, run_refused hr]
    simp
  rw [Decodes, Decodes, this]

theorem decodes_cons {a : Add} {h' : Params} (hrun : a.run h = some (h', [a.pair]))
    (as : List Add) : Decodes h ps (a :: as) ↔ Decodes h' (ps ++ [a.pair]) as := by
  have : addAll h (a :: as) = (addAll h' as).map fun x => (x.1, a.pair :: x.2) := by
    rw [addAll, hrun]
    rfl
  simp only [Decodes, this]
  cases hall : addAll h' as with
  | none => simp
  | some x =>
    obtain ⟨h1, qs⟩ := x
    cases hclose : addParamEmpty h1 with
    | none => simp [hclose]
    | some h2 => simp [hclose]

/-- The condition is enough. -/
theorem decodes_of_meets (hb : Built h ps) (hg : ∀ p ∈ ps, Good p) {as : List Add}
    (hm : Meets h.bufData.length h.slots as) : Decodes h ps as := by
  induction as generalizing h ps with
  | nil =>
    obtain ⟨h', h1, h2⟩ := addParamEmpty_some hb hm.1 hm.2
    refine ⟨h', [], by simp [addAll, h1], ?_⟩
    rw [h2, List.append_nil]
    exact decodeParams_good hg
  | cons a as ih =>
    rw [Meets] at hm
    split at hm
    · next hr =>
      rw [decodes_refused hr]
      exact ih hb hg hm
    · next hr =>
      obtain ⟨hgood, hbuf, hio, hrest⟩ := hm
      obtain ⟨h', h1, h2, h3, h4⟩ := run_some hb (by simpa using hr) hbuf hio
      rw [decodes_cons h1]
      refine ih h2 ?_ (by rw [h3, h4]; exact hrest)
      intro p hp
      rcases List.mem_append.mp hp with hp | hp
      · exact hg p hp
      · rw [List.mem_singleton.mp hp]
        exact hgood

/-- And it is needed, if the request may end after any of the calls. -/
theorem meets_of_decodes (hb : Built h ps) (hg : ∀ p ∈ ps, Good p) {as : List Add}
    (hd : ∀ n, Decodes h ps (as.take n)) : Meets h.bufData.length h.slots as := by
  induction as generalizing h ps with
  | nil =>
    obtain ⟨h', qs, hclose, -⟩ := hd 0
    by_contra hno
    rw [List.take_nil] at hclose
    simp [addAll, addParamEmpty_none hb hno] at hclose
  | cons a as ih =>
    rw [Meets]
    split
    · next hr =>
      refine ih hb hg fun n => ?_
      have := hd (n + 1)
      rwa [List.take_succ_cons, decodes_refused hr] at this
    · next hr =>
      have hr' : a.refused h.bufData.length = false := by simpa using hr
      have hone : Decodes h ps [a] := by simpa using hd 1
      have hroom : h.bufData.length + a.bufUse ≤ bufSize ∧ a.entries ≤ h.slots := by
        by_contra hno
        obtain ⟨h', qs, hrun, -⟩ := hone
        have hle := hb.room
        have hno' : ¬ (h.bufData.length + a.bufUse ≤ bufSize ∧
            h.iov.io.length + a.entries ≤ h.iov.size) := by
          unfold Params.slots at hno
          omega
        simp [addAll, run_none hr' hno'] at hrun
      obtain ⟨h', h1, h2, h3, h4⟩ := run_some hb hr' hroom.1 hroom.2
      -- the request that ends here shows that the parameter is good
      have hgood : Good a.pair := by
        rw [decodes_cons h1] at hone
        obtain ⟨h'', qs, hrun, hdec⟩ := hone
        have hclose : h'.bufData.length + headerSize ≤ bufSize ∧ 1 ≤ h'.slots := by
          by_contra hno
          simp [addAll, addParamEmpty_none h2 hno] at hrun
        obtain ⟨h3, h5, h6⟩ := addParamEmpty_some h2 hclose.1 hclose.2
        simp only [addAll, h5, Option.bind_some, Option.map_some, Option.some.injEq,
          Prod.mk.injEq] at hrun
        obtain ⟨rfl, rfl⟩ := hrun
        rw [h6, paramsBytes_concat, List.append_assoc, List.append_nil] at hdec
        exact good_of_decodeParams hg hdec
      refine ⟨hgood, hroom.1, hroom.2, ?_⟩
      rw [← h3, ← h4]
      refine ih h2 ?_ fun n => ?_
      · intro p hp
        rcases List.mem_append.mp hp with hp | hp
        · exact hg p hp
        · rw [List.mem_singleton.mp hp]
          exact hgood
      · have := hd (n + 1)
        rwa [List.take_succ_cons, decodes_cons h1] at this

/-- Where a sequence of calls meets the condition, so do its beginnings. -/
theorem meets_room {bufLen slots : Nat} {as : List Add} (hm : Meets bufLen slots as) :
    bufLen + headerSize ≤ bufSize ∧ 1 ≤ slots := by
  induction as generalizing bufLen slots with
  | nil => exact hm
  | cons a as ih =>
    rw [Meets] at hm
    split at hm
    · exact ih hm
    · have := ih hm.2.2.2
      omega

theorem meets_take {bufLen slots : Nat} {as : List Add} (hm : Meets bufLen slots as) (n : Nat) :
    Meets bufLen slots (as.take n) := by
  induction as generalizing bufLen slots n with
  | nil => simpa using hm
  | cons a as ih =>
    cases n with
    | zero => exact meets_room hm
    | succ n =>
      rw [Meets] at hm
      rw [List.take_succ_cons, Meets]
      split at hm
      · next hr =>
        rw [if_pos hr]
        exact ih hm n
      · next hr =>
        rw [if_neg hr]
        exact ⟨hm.1, hm.2.1, hm.2.2.1, ih hm.2.2.2 n⟩

theorem built_new (entries : Nat) : Built (newParams entries) [] :=
  ⟨fun _ he => absurd he List.not_mem_nil, rfl, Nat.zero_le _⟩

/-- The parameters of a request, and those of every request that stops earlier,
decode to the list the plugin has added, exactly where no name or value that is
added has 127 bytes, no record has more than 65535 bytes of content, and the
buffer and the iov have room. -/
theorem params_decode_iff (entries : Nat) (as : List Add) :
    (∀ n, ∃ h ps, encodeParams entries (as.take n) = some (h, ps) ∧
      decodeParams h.bytes = some (ps, [])) ↔ Meets headerSize entries as := by
  have hnew := built_new entries
  constructor
  · intro hd
    exact meets_of_decodes hnew (fun _ h => absurd h List.not_mem_nil) hd
  · intro hm n
    exact decodes_of_meets hnew (fun _ h => absurd h List.not_mem_nil) (meets_take hm n)

/-- One parameter with a value of 127 bytes: the record says 130 bytes and has
133. -/
theorem params_decode_127 :
    (encodeParams 16 [.param (bytes "A") (List.replicate 127 120)]).map
        (fun x => decodeParams x.1.bytes) = some none ∧
    ¬ ∃ h ps, encodeParams 16 [.param (bytes "A") (List.replicate 127 120)] = some (h, ps) ∧
      decodeParams h.bytes = some (ps, []) := by
  have hrun : (encodeParams 16 [.param (bytes "A") (List.replicate 127 120)]).map
      (fun x => decodeParams x.1.bytes) = some none := by
    decide +kernel
  refine ⟨hrun, ?_⟩
  rintro ⟨h, ps, henc, hdec⟩
  rw [henc, Option.map_some, hdec] at hrun
  cases hrun

end Requests

end SuperExe.FastCgi
