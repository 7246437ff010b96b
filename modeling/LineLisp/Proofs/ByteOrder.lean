/-
  LineLisp.Proofs.ByteOrder — texts in the order of their bytes. Texts are compared by the code
  points of their characters. A character with a greater code point has more bytes and a greater
  first one, or as many and a greater one where they first differ, so that the bytes of the UTF-8
  form come in the same order.
  - `Text.utf8EncodeChar_lt`: the bytes of two characters, whatever follows them.
  - `Text.bytes_lt`: the bytes of two texts.
-/

import LineLisp.Text.Bytes
import Mathlib

namespace LineLisp.Text

/-- The bytes of the UTF-8 form. -/
def bytes (s : String) : List UInt8 := s.toUTF8.data.toList

theorem bytes_eq_flatMap (s : String) : bytes s = s.toList.flatMap String.utf8EncodeChar := by
  have hutf8 : s.toUTF8 = s.toList.utf8Encode := by
    rw [String.toUTF8_eq_toByteArray, ← String.toByteArray_ofList, String.ofList_toList]
  rw [bytes, hutf8, List.utf8Encode, List.toList_data_toByteArray]

/-- Bytes are in order if the first ones are, and if those are the same by the ones after them. -/
theorem ofNat_cons_lt {a b : Nat} {as bs : List UInt8} (hb : b < 256) (hle : a ≤ b) (h : a = b → as < bs) :
    UInt8.ofNat a :: as < UInt8.ofNat b :: bs := by
  rw [List.cons_lt_cons_iff]
  rcases Nat.lt_or_eq_of_le hle with hlt | heq
  · refine .inl (UInt8.lt_iff_toNat_lt.mpr ?_)
    rwa [UInt8.toNat_ofNat', UInt8.toNat_ofNat', Nat.mod_eq_of_lt hb, Nat.mod_eq_of_lt (Nat.lt_trans hlt hb)]
  · exact .inr ⟨congrArg UInt8.ofNat heq, h heq⟩

/-- The bytes of characters are in the order of the characters. -/
theorem utf8EncodeChar_lt {c d : Char} (h : c < d) (as bs : List UInt8) :
    String.utf8EncodeChar c ++ as < String.utf8EncodeChar d ++ bs := by
  have hlt : c.val.toNat < d.val.toNat := h
  have hmax : d.val.toNat < 0x110000 := by
    rcases d.valid with h | ⟨-, h⟩
    · exact Nat.lt_trans h (by decide)
    · exact h
  simp only [String.utf8EncodeChar]
  generalize c.val.toNat = v at *
  generalize d.val.toNat = w at *
  -- The first split is by the number of bytes of the lesser character, the next one by that of the
  -- other; with as many bytes the digits to the base 64 decide one after the other.
  split
  · split
    · exact ofNat_cons_lt (by omega) (by omega) fun _ => by omega
    · split
      · exact ofNat_cons_lt (by omega) (by omega) fun _ => by omega
      · split <;> exact ofNat_cons_lt (by omega) (by omega) fun _ => by omega
  · split
    · split
      · omega
      · split
        · exact ofNat_cons_lt (by omega) (by omega) fun _ => ofNat_cons_lt (by omega) (by omega) fun _ => by omega
        · split <;> exact ofNat_cons_lt (by omega) (by omega) fun _ => by omega
    · split
      · split
        · omega
        · split
          · omega
          · split
            · exact ofNat_cons_lt (by omega) (by omega) fun _ => ofNat_cons_lt (by omega) (by omega) fun _ =>
                ofNat_cons_lt (by omega) (by omega) fun _ => by omega
            · exact ofNat_cons_lt (by omega) (by omega) fun _ => by omega
      · split
        · omega
        · split
          · omega
          · split
            · omega
            · exact ofNat_cons_lt (by omega) (by omega) fun _ => ofNat_cons_lt (by omega) (by omega) fun _ =>
                ofNat_cons_lt (by omega) (by omega) fun _ => ofNat_cons_lt (by omega) (by omega) fun _ => by omega

theorem utf8EncodeChar_ne_nil (c : Char) : String.utf8EncodeChar c ≠ [] := by
  intro h
  have hsize := String.length_utf8EncodeChar c
  rw [h] at hsize
  exact Nat.ne_of_lt c.utf8Size_pos hsize

/-- The bytes of texts are in the order of the texts. -/
theorem bytes_lt {s t : String} (h : s < t) : bytes s < bytes t := by
  have hchars (cs ds : List Char) (h : cs < ds) :
      cs.flatMap String.utf8EncodeChar < ds.flatMap String.utf8EncodeChar := by
    induction cs generalizing ds with
    | nil =>
      cases ds with
      | nil => exact absurd h (List.not_lt_nil _)
      | cons d ds =>
        obtain ⟨b, bs, hbytes⟩ := List.exists_cons_of_ne_nil (utf8EncodeChar_ne_nil d)
        rw [List.flatMap_nil, List.flatMap_cons, hbytes]
        exact List.nil_lt_cons _ _
    | cons c cs ih =>
      cases ds with
      | nil => exact absurd h (List.not_lt_nil _)
      | cons d ds =>
        rw [List.flatMap_cons, List.flatMap_cons]
        rcases List.cons_lt_cons_iff.mp h with hlt | ⟨rfl, hlt⟩
        · exact utf8EncodeChar_lt hlt _ _
        · exact List.append_left_lt (ih ds hlt)
  rw [bytes_eq_flatMap, bytes_eq_flatMap]
  exact hchars _ _ (String.lt_iff_toList_lt.mp h)

end LineLisp.Text
