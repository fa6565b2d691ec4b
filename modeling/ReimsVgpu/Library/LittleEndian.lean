import Mathlib.Data.List.Basic
import Mathlib.Data.UInt

/-!
# Little-endian words

A 32-bit word as four bytes, the lowest first, and lists of bytes read as lists of words and of
pairs of words.

## Main definitions

* `LittleEndian.bytes`, `LittleEndian.word`: a word's bytes, and the word of four bytes.
* `LittleEndian.wordAt`: the word at an offset of a list of bytes.
* `LittleEndian.words`, `LittleEndian.pairs`: a list of bytes in whole words or pairs, and the bytes
  left over.

## Main results

* `LittleEndian.word_bytes`, `LittleEndian.bytes_word`: the two are inverse.
* `LittleEndian.wordAt_append`, `LittleEndian.drop_of_wordAt`: a word of the bytes around it.
* `LittleEndian.words_eq_iff`, `LittleEndian.pairs_eq_iff`: whole words and pairs.
-/

namespace LittleEndian

/-- The four bytes of a word. -/
def bytes (w : UInt32) : List UInt8 :=
  [UInt8.ofNat w.toNat, UInt8.ofNat (w.toNat / 2 ^ 8), UInt8.ofNat (w.toNat / 2 ^ 16),
    UInt8.ofNat (w.toNat / 2 ^ 24)]

/-- The word of four bytes. -/
def word (a b c d : UInt8) : UInt32 :=
  UInt32.ofNat (a.toNat + 2 ^ 8 * b.toNat + 2 ^ 16 * c.toNat + 2 ^ 24 * d.toNat)

theorem toNat_word (a b c d : UInt8) :
    (word a b c d).toNat = a.toNat + 2 ^ 8 * b.toNat + 2 ^ 16 * c.toNat + 2 ^ 24 * d.toNat := by
  have ha := a.toNat_lt
  have hb := b.toNat_lt
  have hc := c.toNat_lt
  have hd := d.toNat_lt
  rw [word, UInt32.toNat_ofNat_of_lt']
  change _ < 2 ^ 32
  omega

theorem bytes_word (a b c d : UInt8) : bytes (word a b c d) = [a, b, c, d] := by
  have ha := a.toNat_lt
  have hb := b.toNat_lt
  have hc := c.toNat_lt
  have hd := d.toNat_lt
  rw [bytes, toNat_word]
  simp only [List.cons.injEq, and_true, ← UInt8.toNat_inj, UInt8.toNat_ofNat']
  omega

theorem word_bytes (w : UInt32) :
    word (UInt8.ofNat w.toNat) (UInt8.ofNat (w.toNat / 2 ^ 8)) (UInt8.ofNat (w.toNat / 2 ^ 16))
      (UInt8.ofNat (w.toNat / 2 ^ 24)) = w := by
  have hw := w.toNat_lt
  refine UInt32.toNat_inj.mp ?_
  rw [toNat_word]
  simp only [UInt8.toNat_ofNat']
  omega

@[simp]
theorem length_bytes (w : UInt32) : (bytes w).length = 4 := rfl

/-- The word at an offset, if there is one. -/
def wordAt (l : List UInt8) (offset : ℕ) : Option UInt32 :=
  match l.drop offset with
  | a :: b :: c :: d :: _ => some (word a b c d)
  | _ => none

theorem wordAt_of_drop {l : List UInt8} {offset : ℕ} {w : UInt32} {rest : List UInt8}
    (h : l.drop offset = bytes w ++ rest) : wordAt l offset = some w := by
  rw [wordAt, h]
  exact congrArg some (word_bytes w)

theorem drop_add_four {l : List UInt8} {offset : ℕ} {w : UInt32} {rest : List UInt8}
    (h : l.drop offset = bytes w ++ rest) : l.drop (offset + 4) = rest := by
  rw [← List.drop_drop, h]
  rfl

theorem wordAt_append (l : List UInt8) (w : UInt32) (rest : List UInt8) :
    wordAt (l ++ (bytes w ++ rest)) l.length = some w :=
  wordAt_of_drop List.drop_left

/-- The bytes from a word on. -/
theorem drop_of_wordAt {l : List UInt8} {offset : ℕ} {w : UInt32} (h : wordAt l offset = some w) :
    l.drop offset = bytes w ++ l.drop (offset + 4) := by
  rw [wordAt] at h
  split at h
  · rename_i a b c d rest heq
    obtain rfl := Option.some.inj h
    rw [bytes_word, ← List.drop_drop, heq]
    rfl
  · cases h

/-- The bytes as words, and those left over. -/
def words : List UInt8 → List UInt32 × List UInt8
  | a :: b :: c :: d :: rest => (word a b c d :: (words rest).1, (words rest).2)
  | rest => ([], rest)

theorem words_flatMap (ws : List UInt32) : words (ws.flatMap bytes) = (ws, []) := by
  induction ws with
  | nil => rfl
  | cons w ws ih =>
    rw [List.flatMap_cons]
    change words (_ :: _ :: _ :: _ :: ws.flatMap bytes) = _
    rw [words, ih, word_bytes]

theorem flatMap_words (l : List UInt8) : (words l).1.flatMap bytes ++ (words l).2 = l := by
  induction l using words.induct with
  | case1 a b c d rest ih =>
    rw [words, List.flatMap_cons, bytes_word, List.append_assoc, ih]
    rfl
  | case2 l h => rw [words.eq_2 l h]; rfl

theorem length_words_rest (l : List UInt8) : (words l).2.length < 4 := by
  induction l using words.induct with
  | case1 a b c d rest ih => rwa [words]
  | case2 l h =>
    rw [words.eq_2 l h]
    match l with
    | [] | [_] | [_, _] | [_, _, _] => simp
    | a :: b :: c :: d :: rest => exact absurd rfl (h a b c d rest)

/-- Whole words are the bytes of words. -/
theorem words_eq_iff {l : List UInt8} {ws : List UInt32} :
    words l = (ws, []) ↔ l = ws.flatMap bytes := by
  constructor
  · intro h
    rw [← flatMap_words l, h, List.append_nil]
  · rintro rfl
    exact words_flatMap ws

/-- The bytes as pairs of words, and those left over. -/
def pairs : List UInt8 → List (UInt32 × UInt32) × List UInt8
  | a :: b :: c :: d :: e :: f :: g :: h :: rest =>
    ((word a b c d, word e f g h) :: (pairs rest).1, (pairs rest).2)
  | rest => ([], rest)

/-- The bytes of a pair. -/
def pairBytes (p : UInt32 × UInt32) : List UInt8 := bytes p.1 ++ bytes p.2

theorem pairs_flatMap (ps : List (UInt32 × UInt32)) :
    pairs (ps.flatMap pairBytes) = (ps, []) := by
  induction ps with
  | nil => rfl
  | cons p ps ih =>
    rw [List.flatMap_cons]
    change pairs (_ :: _ :: _ :: _ :: _ :: _ :: _ :: _ :: ps.flatMap pairBytes) = _
    rw [pairs, ih, word_bytes, word_bytes]

theorem flatMap_pairs (l : List UInt8) : (pairs l).1.flatMap pairBytes ++ (pairs l).2 = l := by
  induction l using pairs.induct with
  | case1 a b c d e f g h rest ih =>
    rw [pairs, List.flatMap_cons, pairBytes, bytes_word, bytes_word, List.append_assoc, ih]
    rfl
  | case2 l h => rw [pairs.eq_2 l h]; rfl

theorem length_pairs_rest (l : List UInt8) : (pairs l).2.length < 8 := by
  induction l using pairs.induct with
  | case1 a b c d e f g h rest ih => rwa [pairs]
  | case2 l h =>
    rw [pairs.eq_2 l h]
    match l with
    | [] | [_] | [_, _] | [_, _, _] | [_, _, _, _] | [_, _, _, _, _] | [_, _, _, _, _, _]
    | [_, _, _, _, _, _, _] => simp
    | a :: b :: c :: d :: e :: f :: g :: i :: rest => exact absurd rfl (h a b c d e f g i rest)

/-- Whole pairs are the bytes of pairs. -/
theorem pairs_eq_iff {l : List UInt8} {ps : List (UInt32 × UInt32)} :
    pairs l = (ps, []) ↔ l = ps.flatMap pairBytes := by
  constructor
  · intro h
    rw [← flatMap_pairs l, h, List.append_nil]
  · rintro rfl
    exact pairs_flatMap ps

theorem length_flatMap_bytes (ws : List UInt32) : (ws.flatMap bytes).length = 4 * ws.length := by
  induction ws with
  | nil => rfl
  | cons w ws ih =>
    rw [List.flatMap_cons, List.length_append, ih, length_bytes, List.length_cons]
    omega

theorem length_flatMap_pairBytes (ps : List (UInt32 × UInt32)) :
    (ps.flatMap pairBytes).length = 8 * ps.length := by
  induction ps with
  | nil => rfl
  | cons p ps ih =>
    rw [List.flatMap_cons, List.length_append, ih, List.length_cons]
    change 8 + _ = _
    omega

/-- As many bytes as whole words have are the bytes of words. -/
theorem exists_words {l : List UInt8} {n : ℕ} (h : l.length = 4 * n) :
    ∃ ws : List UInt32, ws.length = n ∧ l = ws.flatMap bytes := by
  have hrest := length_words_rest l
  have hl := congrArg List.length (flatMap_words l)
  rw [List.length_append, length_flatMap_bytes, h] at hl
  have hnil : (words l).2 = [] := List.eq_nil_of_length_eq_zero (by omega)
  refine ⟨(words l).1, by omega, ?_⟩
  conv_lhs => rw [← flatMap_words l, hnil, List.append_nil]

/-- As many bytes as whole pairs have are the bytes of pairs. -/
theorem exists_pairs {l : List UInt8} {n : ℕ} (h : l.length = 8 * n) :
    ∃ ps : List (UInt32 × UInt32), ps.length = n ∧ l = ps.flatMap pairBytes := by
  have hrest := length_pairs_rest l
  have hl := congrArg List.length (flatMap_pairs l)
  rw [List.length_append, length_flatMap_pairBytes, h] at hl
  have hnil : (pairs l).2 = [] := List.eq_nil_of_length_eq_zero (by omega)
  refine ⟨(pairs l).1, by omega, ?_⟩
  conv_lhs => rw [← flatMap_pairs l, hnil, List.append_nil]

/-- The first word of the pair at an index. -/
theorem wordAt_pair (l : List UInt8) (ps : List (UInt32 × UInt32)) {i : ℕ} (h : i < ps.length) :
    wordAt (l ++ ps.flatMap pairBytes) (l.length + 8 * i) = some ps[i].1 := by
  have hps : ps.flatMap pairBytes =
      (ps.take i).flatMap pairBytes ++
        (bytes ps[i].1 ++ (bytes ps[i].2 ++ (ps.drop (i + 1)).flatMap pairBytes)) := by
    conv_lhs => rw [← List.take_append_drop i ps, List.drop_eq_getElem_cons h, List.flatMap_append,
      List.flatMap_cons, pairBytes, List.append_assoc]
  have hlen : l.length + 8 * i = (l ++ (ps.take i).flatMap pairBytes).length := by
    rw [List.length_append, length_flatMap_pairBytes, List.length_take_of_le h.le]
  rw [hps, ← List.append_assoc, hlen, wordAt_append]

end LittleEndian
