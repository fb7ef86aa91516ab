import Mathlib.Data.String.Basic

/-!
# The order of bytes

Strings are ordered by code points, character by character. The bytes of their UTF-8 texts are in
the same order: of two characters, the one with the greater code point has the greater bytes, and it
is decided among the bytes that both have (`utf8EncodeChar_lt`). So it does not matter that
characters take up different numbers of bytes (`String.utf8Bytes_lt_iff`).
-/

namespace Sigil

/-- The bytes of the UTF-8 text of a string. -/
def utf8Bytes (s : String) : List UInt8 :=
  s.toByteArray.data.toList

theorem utf8Bytes_eq_flatMap (s : String) :
    utf8Bytes s = s.toList.flatMap String.utf8EncodeChar := by
  conv_lhs => rw [← String.ofList_toList (s := s)]
  rw [utf8Bytes, String.toByteArray_ofList, List.utf8Encode, List.data_toByteArray]

theorem byte_cons_lt {a b : Nat} {xs ys : List UInt8} (hb : b < 256)
    (h : a < b ∨ a = b ∧ xs < ys) : UInt8.ofNat a :: xs < UInt8.ofNat b :: ys := by
  rw [List.cons_lt_cons_iff]
  refine h.imp (fun h => ?_) fun ⟨e, h⟩ => ⟨congrArg UInt8.ofNat e, h⟩
  rw [UInt8.lt_iff_toNat_lt, UInt8.toNat_ofNat', UInt8.toNat_ofNat', Nat.mod_eq_of_lt hb,
    Nat.mod_eq_of_lt (h.trans hb)]
  exact h

/-- The bytes after the first of a character: the last `k` digits of its code point to base 64. -/
def trailingBytes : Nat → Nat → List UInt8
  | 0, _ => []
  | k + 1, v => UInt8.ofNat (v / 64 ^ k % 64 + 128) :: trailingBytes k v

/-- Code points that agree in the digits before are told apart by their last digits. -/
theorem trailingBytes_lt {v w : Nat} (h : v < w) (xs ys : List UInt8) {k : Nat}
    (e : v / 64 ^ k = w / 64 ^ k) : trailingBytes k v ++ xs < trailingBytes k w ++ ys := by
  induction k with
  | zero => exact absurd (by simpa using e) h.ne
  | succ k ih =>
    rw [Nat.pow_succ, ← Nat.div_div_eq_div_mul, ← Nat.div_div_eq_div_mul] at e
    refine byte_cons_lt (by omega) ?_
    by_cases e' : v / 64 ^ k = w / 64 ^ k
    · exact .inr ⟨by rw [e'], ih e'⟩
    · have le : v / 64 ^ k ≤ w / 64 ^ k := Nat.div_le_div_right h.le
      exact .inl (by omega)

/-- A code point in `k + 1` bytes. The first holds the digits before the last `k`, above a mark. -/
def markedBytes (k mark v : Nat) : List UInt8 :=
  UInt8.ofNat (v / 64 ^ k + mark) :: trailingBytes k v

theorem markedBytes_lt {v w k mark : Nat} (h : v < w) (hw : w / 64 ^ k + mark < 256)
    (xs ys : List UInt8) : markedBytes k mark v ++ xs < markedBytes k mark w ++ ys := by
  refine byte_cons_lt hw ?_
  by_cases e : v / 64 ^ k = w / 64 ^ k
  · exact .inr ⟨by rw [e], trailingBytes_lt h xs ys e⟩
  · have le : v / 64 ^ k ≤ w / 64 ^ k := Nat.div_le_div_right h.le
    exact .inl (by omega)

/-- The four sizes of characters, by their code points. -/
theorem utf8EncodeChar_cases (c : Char) :
    (c.val.toNat ≤ 127 ∧ String.utf8EncodeChar c = markedBytes 0 0 c.val.toNat) ∨
    (127 < c.val.toNat ∧ c.val.toNat ≤ 2047 ∧
      String.utf8EncodeChar c = markedBytes 1 192 c.val.toNat) ∨
    (2047 < c.val.toNat ∧ c.val.toNat ≤ 65535 ∧
      String.utf8EncodeChar c = markedBytes 2 224 c.val.toNat) ∨
    (65535 < c.val.toNat ∧ c.val.toNat < 0x110000 ∧
      String.utf8EncodeChar c = markedBytes 3 240 c.val.toNat) := by
  have most : c.val.toNat < 0x110000 := by
    rcases c.valid with h | h
    · exact Nat.lt_trans h (by decide)
    · exact h.2
  unfold String.utf8EncodeChar
  generalize c.val.toNat = v at most ⊢
  simp only [markedBytes, trailingBytes]
  split
  · next h => exact .inl ⟨h, by simp⟩
  split
  · next h => exact .inr (.inl ⟨by omega, h, by rw [Nat.mod_eq_of_lt (by omega)]; simp⟩)
  split
  · next h => exact .inr (.inr (.inl ⟨by omega, h, by rw [Nat.mod_eq_of_lt (by omega)]; simp⟩))
  · exact .inr (.inr (.inr ⟨by omega, most, by rw [Nat.mod_eq_of_lt (by omega)]; simp⟩))

theorem utf8EncodeChar_lt {c d : Char} (h : c < d) (xs ys : List UInt8) :
    String.utf8EncodeChar c ++ xs < String.utf8EncodeChar d ++ ys := by
  have lower : c.val.toNat < d.val.toNat := h
  rcases utf8EncodeChar_cases c with ⟨hc, ec⟩ | ⟨hc, hc', ec⟩ | ⟨hc, hc', ec⟩ | ⟨hc, hc', ec⟩ <;>
    rcases utf8EncodeChar_cases d with ⟨hd, ed⟩ | ⟨hd, hd', ed⟩ | ⟨hd, hd', ed⟩ | ⟨hd, hd', ed⟩ <;>
    rw [ec, ed] <;>
    -- The two have the same size, or the mark of the first byte tells them apart.
    first
    | exact markedBytes_lt lower (by omega) xs ys
    | exact byte_cons_lt (by omega) (.inl (by omega))

theorem flatMap_utf8EncodeChar_lt {cs ds : List Char} (h : cs < ds) :
    cs.flatMap String.utf8EncodeChar < ds.flatMap String.utf8EncodeChar := by
  induction h with
  | @nil d ds =>
    rw [List.flatMap_cons, List.flatMap_nil]
    rcases utf8EncodeChar_cases d with ⟨-, e⟩ | ⟨-, -, e⟩ | ⟨-, -, e⟩ | ⟨-, -, e⟩ <;> rw [e] <;>
      exact List.nil_lt_cons _ _
  | rel h => exact utf8EncodeChar_lt h _ _
  | cons _ ih => exact List.append_left_lt ih

theorem utf8Bytes_lt_iff {s t : String} : utf8Bytes s < utf8Bytes t ↔ s < t := by
  have increasing {s t : String} (h : s < t) : utf8Bytes s < utf8Bytes t := by
    rw [utf8Bytes_eq_flatMap, utf8Bytes_eq_flatMap]
    exact flatMap_utf8EncodeChar_lt (String.lt_iff.1 h)
  refine ⟨fun h => ?_, increasing⟩
  rcases lt_trichotomy s t with below | rfl | above
  · exact below
  · exact absurd h (List.lt_irrefl _)
  · exact absurd h (List.lt_asymm (increasing above))

end Sigil
