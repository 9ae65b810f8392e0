/-!
Positions inside a text are counted in bytes of its UTF-8 form, while the text
itself is read as a list of characters. This module converts between the two.
-/

namespace Precedence.Text

/-- The number of bytes the characters take in UTF-8. -/
def byteLength : List Char → Nat
  | [] => 0
  | c :: cs => c.utf8Size + byteLength cs

@[simp] theorem byteLength_nil : byteLength [] = 0 := rfl

@[simp] theorem byteLength_cons (c : Char) (cs : List Char) :
    byteLength (c :: cs) = c.utf8Size + byteLength cs := rfl

@[simp] theorem byteLength_append (a b : List Char) :
    byteLength (a ++ b) = byteLength a + byteLength b := by
  induction a with
  | nil => simp
  | cons c a ih => simp [ih, Nat.add_assoc]

theorem byteLength_eq_size (text : List Char) : byteLength text = text.utf8Encode.size := by
  induction text with
  | nil => rfl
  | cons c text ih =>
      rw [List.utf8Encode_cons, ByteArray.size_append, ← ih, byteLength_cons,
        ← String.toByteArray_singleton, String.size_toByteArray, String.utf8ByteSize_singleton]

theorem byteLength_toList (source : String) : byteLength source.toList = source.utf8ByteSize := by
  rw [byteLength_eq_size, String.utf8Encode_toList, String.size_toByteArray]

/-- The characters that follow the first `n` bytes. There are none to give when
byte `n` lies inside a character or past the end of the text. -/
def dropBytes? : Nat → List Char → Option (List Char)
  | 0, cs => some cs
  | _ + 1, [] => none
  | n + 1, c :: cs =>
      if c.utf8Size ≤ n + 1 then dropBytes? (n + 1 - c.utf8Size) cs else none

/-- Cutting at the byte length of a leading part leaves what follows it. -/
theorem dropBytes?_byteLength_append (a b : List Char) :
    dropBytes? (byteLength a) (a ++ b) = some b := by
  induction a with
  | nil => cases b <;> rfl
  | cons c a ih =>
      have hc := c.utf8Size_pos
      obtain ⟨n, hn⟩ : ∃ n, byteLength (c :: a) = n + 1 :=
        ⟨c.utf8Size + byteLength a - 1, by simp only [byteLength_cons]; omega⟩
      have hle : c.utf8Size ≤ n + 1 := by simp only [byteLength_cons] at hn; omega
      have hrest : n + 1 - c.utf8Size = byteLength a := by
        simp only [byteLength_cons] at hn; omega
      rw [hn]
      simp only [List.cons_append, dropBytes?, hle, if_true, hrest, ih]

end Precedence.Text
