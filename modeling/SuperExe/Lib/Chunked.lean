import Mathlib.Data.List.Basic
import Mathlib.Tactic.Common

/-! # The chunked transfer coding

A chunk is its size in hexadecimal, CRLF, the data and CRLF; a chunk of size
zero ends the body. `dechunk` reads a whole body back, and `dechunk_pieces` is
the round trip: however a body was cut into chunks, what comes out is the body.
-/

namespace SuperExe.Lib

/-- The value of a hexadecimal digit. -/
def hexDigitValue (c : UInt8) : Option Nat :=
  if 48 ≤ c ∧ c ≤ 57 then some (c.toNat - 48)
  else if 97 ≤ c ∧ c ≤ 102 then some (c.toNat - 87)
  else if 65 ≤ c ∧ c ≤ 70 then some (c.toNat - 55)
  else none

/-- The number a text of hexadecimal digits is, from `acc` on. -/
def hexNumber : Nat → List UInt8 → Option Nat
  | acc, [] => some acc
  | acc, c :: cs =>
    match hexDigitValue c with
    | some d => hexNumber (acc * 16 + d) cs
    | none => none

def crlf : List UInt8 := [13, 10]

/-- The size line of a chunk: the size, and what follows the line. -/
def sizeLine (bs : List UInt8) : Option (Nat × List UInt8) :=
  let digits := bs.takeWhile (· ≠ 13)
  let rest := bs.dropWhile (· ≠ 13)
  if digits ≠ [] ∧ rest.take 2 = crlf then
    (hexNumber 0 digits).map fun n => (n, rest.drop 2)
  else none

/-- A body of at most `fuel` chunks. -/
def dechunkFrom : Nat → List UInt8 → Option (List UInt8)
  | 0, _ => none
  | fuel + 1, bs =>
    match sizeLine bs with
    | none => none
    | some (n, rest) =>
      if n = 0 then if rest = crlf then some [] else none
      else if (rest.drop n).take 2 = crlf then
        (dechunkFrom fuel (rest.drop (n + 2))).map (rest.take n ++ ·)
      else none

/-- The body a chunked message carries. -/
def dechunk (bs : List UInt8) : Option (List UInt8) := dechunkFrom bs.length bs

/-- A text that is a number in hexadecimal. -/
def IsHex (t : List UInt8) (n : Nat) : Prop := t ≠ [] ∧ hexNumber 0 t = some n

section Chunks

variable {t : List UInt8} {n : Nat}

theorem hexNumber_append (acc : Nat) (s t : List UInt8) :
    hexNumber acc (s ++ t) = (hexNumber acc s).bind fun a => hexNumber a t := by
  induction s generalizing acc with
  | nil => rfl
  | cons c cs ih =>
    rw [List.cons_append, hexNumber, hexNumber]
    cases hexDigitValue c with
    | none => rfl
    | some d => exact ih (acc * 16 + d)

theorem cr_not_mem {acc : Nat} (h : hexNumber acc t = some n) : ∀ c ∈ t, c ≠ 13 := by
  induction t generalizing acc with
  | nil => exact fun c hc => absurd hc (List.not_mem_nil)
  | cons d cs ih =>
    rw [hexNumber] at h
    cases hd : hexDigitValue d with
    | none => simp [hd] at h
    | some v =>
      simp only [hd] at h
      intro c hc
      rcases List.mem_cons.mp hc with rfl | hc
      · rintro rfl
        cases hd
      · exact ih h c hc

theorem sizeLine_isHex (ht : IsHex t n) (rest : List UInt8) :
    sizeLine (t ++ crlf ++ rest) = some (n, rest) := by
  obtain ⟨hne, hn⟩ := ht
  have hcr : ∀ c ∈ t, decide (c ≠ 13) = true := fun c hc => decide_eq_true (cr_not_mem hn c hc)
  have htake : (t ++ crlf ++ rest).takeWhile (· ≠ 13) = t := by
    rw [List.append_assoc, List.takeWhile_append_of_pos hcr]
    simp [crlf]
  have hdrop : (t ++ crlf ++ rest).dropWhile (· ≠ 13) = crlf ++ rest := by
    rw [List.append_assoc, List.dropWhile_append_of_pos hcr]
    simp [crlf]
  unfold sizeLine
  rw [htake, hdrop]
  dsimp only
  rw [if_pos ⟨hne, rfl⟩, hn]
  rfl

/-- A chunk in front. -/
theorem dechunkFrom_chunk (fuel : Nat) {data : List UInt8} (ht : IsHex t data.length)
    (hdata : data ≠ []) (rest : List UInt8) :
    dechunkFrom (fuel + 1) (t ++ crlf ++ data ++ crlf ++ rest) =
      (dechunkFrom fuel rest).map (data ++ ·) := by
  have hline : sizeLine (t ++ crlf ++ data ++ crlf ++ rest) =
      some (data.length, data ++ (crlf ++ rest)) := by
    have := sizeLine_isHex ht (data ++ (crlf ++ rest))
    simpa only [List.append_assoc] using this
  have hpos : data.length ≠ 0 := by simpa using hdata
  have hdrop : (data ++ (crlf ++ rest)).drop (data.length + 2) = rest := by
    rw [← List.drop_drop, List.drop_left]
    rfl
  rw [dechunkFrom, hline]
  dsimp only
  rw [if_neg hpos, List.drop_left, if_pos (by rfl), List.take_left, hdrop]

end Chunks

/-! ## Bodies -/

section Body

variable {size : Nat → List UInt8} (hsize : ∀ n, IsHex (size n) n)

/-- A chunk; nothing for no data. -/
def chunk (size : Nat → List UInt8) (data : List UInt8) : List UInt8 :=
  if data = [] then [] else size data.length ++ crlf ++ data ++ crlf

def lastChunk : List UInt8 := [48] ++ crlf ++ crlf

/-- The chunks a body was cut into. -/
def chunks (size : Nat → List UInt8) (pieces : List (List UInt8)) : List UInt8 :=
  pieces.flatMap (chunk size)

theorem length_chunks_le (size : Nat → List UInt8) (pieces : List (List UInt8)) :
    pieces.flatten.length ≤ (chunks size pieces).length := by
  induction pieces with
  | nil => exact Nat.le_refl _
  | cons p ps ih =>
    simp only [chunks] at ih ⊢
    rw [List.flatten_cons, List.flatMap_cons, List.length_append, List.length_append, chunk]
    split
    · next h =>
      rw [h, List.length_nil]
      omega
    · simp only [List.length_append]
      omega

/-- Chunks are longer than what they carry. -/
theorem length_chunks_lt (size : Nat → List UInt8) {pieces : List (List UInt8)} (hne : pieces.flatten ≠ []) :
    pieces.flatten.length < (chunks size pieces).length := by
  induction pieces with
  | nil => exact absurd rfl hne
  | cons p ps ih =>
    have hle := length_chunks_le size ps
    simp only [chunks] at ih hle ⊢
    rw [List.flatten_cons, List.flatMap_cons, List.length_append, List.length_append, chunk]
    split
    · next h =>
      rw [List.flatten_cons, h, List.nil_append] at hne
      have := ih hne
      rw [h, List.length_nil]
      omega
    · simp only [List.length_append, crlf, List.length_cons]
      omega

/-- Nothing to carry is nothing to send. -/
theorem chunks_eq_nil (size : Nat → List UInt8) {pieces : List (List UInt8)}
    (h : pieces.flatten = []) : chunks size pieces = [] := by
  refine List.flatMap_eq_nil_iff.mpr ?_
  intro p hp
  rw [chunk, if_pos (List.flatten_eq_nil_iff.mp h p hp)]

include hsize in
theorem dechunkFrom_pieces (pieces : List (List UInt8)) {fuel : Nat}
    (hfuel : pieces.flatten.length < fuel) :
    dechunkFrom fuel (chunks size pieces ++ lastChunk) = some pieces.flatten := by
  induction pieces generalizing fuel with
  | nil =>
    obtain ⟨k, rfl⟩ : ∃ k, fuel = k + 1 := ⟨fuel - 1, by omega⟩
    rfl
  | cons p ps ih =>
    simp only [chunks] at ih ⊢
    rw [List.flatten_cons, List.length_append] at hfuel
    rw [List.flatMap_cons, List.flatten_cons, chunk]
    split
    · next h =>
      -- an empty piece is not sent
      rw [h, List.nil_append, List.nil_append]
      exact ih (by omega)
    · next h =>
      have hpos := List.length_pos_iff.mpr h
      obtain ⟨k, rfl⟩ : ∃ k, fuel = k + 1 := ⟨fuel - 1, by omega⟩
      rw [List.append_assoc, dechunkFrom_chunk k (hsize p.length) h, ih (by omega)]
      rfl

include hsize in
/-- However a body is cut, its chunks carry the body. -/
theorem dechunk_pieces (pieces : List (List UInt8)) :
    dechunk (chunks size pieces ++ lastChunk) = some pieces.flatten := by
  have hle := length_chunks_le size pieces
  refine dechunkFrom_pieces hsize pieces ?_
  rw [List.length_append]
  simp only [lastChunk, crlf, List.length_append, List.length_cons, List.length_nil]
  omega

end Body

end SuperExe.Lib
