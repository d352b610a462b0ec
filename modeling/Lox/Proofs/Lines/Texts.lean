/-
# The lines of a text

The prompt cuts its input at the bytes that stand for a newline. No character
but the newline has such a byte, so the lines it cuts the bytes of a text into
are the lines of the text, and each of them is text again.

Key definitions: `charLines`, `linesOf`.
Key theorems: `ne_ten_of_mem_utf8EncodeChar`, `join_linesOf`, `text?_lines`.
-/
import Lox.Transcript
import Lox.Proofs.Lines.Splitting

namespace Lox

/-- Puts `before` at the beginning of the first line. -/
def onFirst {α : Type} (before : List α) : List (List α) → List (List α)
  | [] => [before]
  | line :: more => (before ++ line) :: more

/-- The lines of a text, each with the newline that ends it. -/
def charLines : List Char → List (List Char)
  | [] => []
  | c :: rest => if c = '\n' then [c] :: charLines rest else onFirst [c] (charLines rest)

def linesOf (text : String) : List String := (charLines text.toList).map String.ofList

section OnFirst

variable {α : Type}

theorem onFirst_onFirst (before after : List α) (lines : List (List α)) :
    onFirst before (onFirst after lines) = onFirst (before ++ after) lines := by
  cases lines with
  | nil => rfl
  | cons line more => exact congrArg (· :: more) (List.append_assoc before after line).symm

theorem flatten_onFirst (before : List α) (lines : List (List α)) :
    (onFirst before lines).flatten = before ++ lines.flatten := by
  cases lines with
  | nil => rfl
  | cons line more => exact List.append_assoc before line more.flatten

theorem map_onFirst {β : Type} (f : α → List β) (before : List α) (lines : List (List α)) :
    (onFirst before lines).map (List.flatMap f) =
      onFirst (before.flatMap f) (lines.map (List.flatMap f)) := by
  cases lines with
  | nil => rfl
  | cons line more =>
    show List.flatMap f (before ++ line) :: _ = (before.flatMap f ++ line.flatMap f) :: _
    rw [List.flatMap_append]

end OnFirst

/-! ### Lines of characters -/

theorem flatten_charLines : ∀ cs : List Char, (charLines cs).flatten = cs
  | [] => rfl
  | c :: rest => by
    unfold charLines
    split
    · rw [List.flatten_cons, flatten_charLines rest, List.singleton_append]
    · rw [flatten_onFirst, flatten_charLines rest, List.singleton_append]

/-- The lines of a text make up the text. -/
theorem join_linesOf (text : String) : String.join (linesOf text) = text := by
  have hl : ∀ lines : List (List Char), (lines.map String.ofList).flatMap String.toList =
      lines.flatten := by
    intro lines
    simp only [List.flatMap_map, String.toList_ofList, List.flatMap_id']
  apply String.toList_inj.mp
  rw [String.toList_join, linesOf, hl, flatten_charLines]

theorem mem_dropLast_onFirst {c : Char} {line : List Char} {lines : List (List Char)}
    (h : line ∈ (onFirst [c] lines).dropLast)
    (hl : ∀ l ∈ lines.dropLast, ∃ before, l = before ++ ['\n']) :
    ∃ before, line = before ++ ['\n'] := by
  rcases lines with _ | ⟨first, _ | ⟨second, more⟩⟩
  · cases h
  · cases h
  · have hd : line ∈ (c :: first) :: (second :: more).dropLast := h
    rcases List.mem_cons.mp hd with rfl | hm
    · obtain ⟨before, rfl⟩ := hl first List.mem_cons_self
      exact ⟨c :: before, rfl⟩
    · exact hl line (List.mem_cons_of_mem first hm)

/-- Every line but the last ends with a newline. -/
theorem newline_of_mem_dropLast : ∀ {cs line : List Char}, line ∈ (charLines cs).dropLast →
    ∃ before, line = before ++ ['\n']
  | [], _, h => by cases h
  | c :: rest, line, h => by
    unfold charLines at h
    split at h
    · rename_i hc
      subst hc
      rcases hr : charLines rest with _ | ⟨first, more⟩
      · rw [hr] at h
        cases h
      · rw [hr, List.dropLast_cons_cons] at h
        rcases List.mem_cons.mp h with rfl | hm
        · exact ⟨[], rfl⟩
        · rw [← hr] at hm
          exact newline_of_mem_dropLast hm
    · exact mem_dropLast_onFirst h fun l hl => newline_of_mem_dropLast hl

theorem endsLine_of_mem_dropLast {text line : String} (h : line ∈ (linesOf text).dropLast) :
    EndsLine line := by
  unfold linesOf at h
  rw [← List.map_dropLast] at h
  obtain ⟨cs, hcs, rfl⟩ := List.mem_map.mp h
  obtain ⟨before, rfl⟩ := newline_of_mem_dropLast hcs
  exact ⟨String.ofList before, String.ofList_append⟩

/-! ### Lines of bytes -/

theorem ne_ten_of_or {x y : UInt8} (h : 128 ≤ y.toNat) : x ||| y ≠ 10 := by
  intro he
  have hn : x.toNat ||| y.toNat = 10 := by
    rw [← UInt8.toNat_or, he]
    rfl
  have hle : y.toNat ≤ x.toNat ||| y.toNat := Nat.right_le_or
  omega

/-- Only a newline has the byte of a newline. -/
theorem ne_ten_of_mem_utf8EncodeChar {c : Char} (h : c ≠ '\n') :
    ∀ b ∈ String.utf8EncodeChar c, b ≠ 10 := by
  have ho : ∀ x y : UInt8, 128 ≤ y.toNat → x ||| y ≠ 10 := fun _ _ => ne_ten_of_or
  rcases Char.utf8Size_eq c with h1 | h2 | h3 | h4
  · rw [String.utf8EncodeChar_eq_singleton h1]
    intro b hb he
    rw [List.mem_singleton] at hb
    have hs := Char.utf8Size_eq_one_iff.mp h1
    have hv : c.val.toNat % 256 = 10 := by
      rw [← UInt32.toNat_toUInt8, ← hb, he]
      rfl
    have hlt : c.val.toNat ≤ 127 := UInt32.le_iff_toNat_le.mp hs
    refine h (Char.ext (UInt32.toNat_inj.mp ?_))
    show c.val.toNat = 10
    omega
  · rw [String.utf8EncodeChar_eq_cons_cons h2]
    simp only [List.forall_mem_cons]
    exact ⟨ho _ _ (by decide), ho _ _ (by decide), fun _ hb => by cases hb⟩
  · rw [String.utf8EncodeChar_eq_cons_cons_cons h3]
    simp only [List.forall_mem_cons]
    exact ⟨ho _ _ (by decide), ho _ _ (by decide), ho _ _ (by decide), fun _ hb => by cases hb⟩
  · rw [String.utf8EncodeChar_eq_cons_cons_cons_cons h4]
    simp only [List.forall_mem_cons]
    exact ⟨ho _ _ (by decide), ho _ _ (by decide), ho _ _ (by decide), ho _ _ (by decide),
      fun _ hb => by cases hb⟩

namespace Prompt

theorem lines_newline (rest : List UInt8) : lines (10 :: rest) = [10] :: lines rest := by
  rw [lines, if_pos rfl]

theorem lines_cons {b : UInt8} (h : b ≠ 10) (rest : List UInt8) :
    lines (b :: rest) = onFirst [b] (lines rest) := by
  rw [lines, if_neg h]
  cases lines rest <;> rfl

theorem lines_append : ∀ {bytes : List UInt8}, bytes ≠ [] → (∀ b ∈ bytes, b ≠ 10) →
    ∀ rest : List UInt8, lines (bytes ++ rest) = onFirst bytes (lines rest)
  | [], hne, _, _ => absurd rfl hne
  | [b], _, h, rest => lines_cons (h b List.mem_cons_self) rest
  | b :: b' :: bytes, _, h, rest => by
    obtain ⟨hb, hrest⟩ := List.forall_mem_cons.mp h
    rw [List.cons_append, lines_cons hb, lines_append (List.cons_ne_nil _ _) hrest rest,
      onFirst_onFirst]
    rfl

/-- The lines of the bytes are the bytes of the lines. -/
theorem lines_flatMap : ∀ cs : List Char,
    lines (cs.flatMap String.utf8EncodeChar) =
      (charLines cs).map (List.flatMap String.utf8EncodeChar)
  | [] => rfl
  | c :: rest => by
    rw [List.flatMap_cons]
    by_cases hc : c = '\n'
    · subst hc
      have hb : String.utf8EncodeChar '\n' = [10] := by decide
      have hl : charLines ('\n' :: rest) = ['\n'] :: charLines rest := by
        rw [charLines, if_pos rfl]
      rw [hl, List.map_cons, List.flatMap_singleton, hb, List.singleton_append, lines_newline,
        lines_flatMap rest]
    · have hb := ne_ten_of_mem_utf8EncodeChar hc
      have hl : charLines (c :: rest) = onFirst [c] (charLines rest) := by
        rw [charLines, if_neg hc]
      rw [hl, map_onFirst, List.flatMap_singleton, lines_append String.utf8EncodeChar_ne_nil hb,
        lines_flatMap rest]

theorem text?_flatMap (cs : List Char) :
    text? (cs.flatMap String.utf8EncodeChar) = some (String.ofList cs) := by
  have hb : (⟨(cs.flatMap String.utf8EncodeChar).toArray⟩ : ByteArray) = cs.utf8Encode := by
    apply ByteArray.ext
    rw [List.utf8Encode, List.data_toByteArray]
  unfold text? String.fromUTF8?
  rw [hb, dif_pos ByteArray.isValidUTF8_utf8Encode]
  rfl

/-- What the prompt reads from the bytes of a text are the lines of the text. -/
theorem text?_lines (text : String) :
    (lines text.toUTF8.data.toList).map text? = (linesOf text).map some := by
  have hb : text.toUTF8.data.toList = text.toList.flatMap String.utf8EncodeChar := by
    rw [String.toUTF8_eq_toByteArray, ← String.utf8Encode_toList, List.utf8Encode,
      List.toList_data_toByteArray]
  rw [hb, lines_flatMap, linesOf, List.map_map, List.map_map]
  apply List.map_congr_left
  intro cs _
  exact text?_flatMap cs

end Prompt
end Lox
