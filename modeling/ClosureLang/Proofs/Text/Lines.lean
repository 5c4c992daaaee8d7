import ClosureLang.Text.Line

/-!
# Lines that are joined come apart again

The bytes of texts joined by line feeds are cut into the bytes of these texts, and each is read back
as it was (`map_decodeLine?_joinLines`). A text that is to come back has no line feed, since the
bytes would be cut there; it does not end with a carriage return, which would be dropped with the
line feed behind it; and it is not empty, since an empty last line leaves no bytes.
-/

namespace ClosureLang

/-- The bytes of a text in UTF-8. -/
def utf8Bytes (s : String) : List UInt8 := s.toUTF8.data.toList

/-- Lines with a line feed between each two of them. -/
def joinLines (lines : List String) : String := "\n".intercalate lines

/-- A text that can be read back from a line. -/
structure IsLine (s : String) : Prop where
  nonempty : s ≠ ""
  noFeed : '\n' ∉ s.toList
  noReturn : s.toList.getLast? ≠ some '\r'

instance (s : String) : Decidable (IsLine s) :=
  decidable_of_iff (_ ∧ _ ∧ _)
    ⟨fun h => ⟨h.1, h.2.1, h.2.2⟩, fun h => ⟨h.nonempty, h.noFeed, h.noReturn⟩⟩

/-! ## Bytes -/

/-- The bytes of a text are those of its characters, one behind the other. -/
theorem utf8Bytes_eq (s : String) : utf8Bytes s = s.toList.flatMap String.utf8EncodeChar := by
  have hencode : s.toUTF8 = (s.toList.flatMap String.utf8EncodeChar).toByteArray :=
    String.utf8Encode_toList.symm
  rw [utf8Bytes, hencode, List.toList_data_toByteArray]

@[simp] theorem utf8Bytes_append (s t : String) :
    utf8Bytes (s ++ t) = utf8Bytes s ++ utf8Bytes t := by
  simp [utf8Bytes_eq]

theorem fromUTF8?_toUTF8 (s : String) : String.fromUTF8? s.toUTF8 = some s := dif_pos s.isValidUTF8

theorem fromUTF8?_utf8Bytes (s : String) :
    String.fromUTF8? ⟨(utf8Bytes s).toArray⟩ = some s := by
  rw [utf8Bytes, Array.toArray_toList]
  exact fromUTF8?_toUTF8 s

/-- In UTF-8 no character but the line feed has the byte of a line feed. -/
theorem feed_not_mem_utf8EncodeChar {c : Char} (h : c ≠ '\n') : 10 ∉ String.utf8EncodeChar c := by
  have hbyte : ∀ n : Nat, n % 256 ≠ 10 → (10 : UInt8) ≠ UInt8.ofNat n := by
    intro n hn heq
    have hmod : 10 = n % 256 := congrArg UInt8.toNat heq
    omega
  have hcode : c.val.toNat ≠ 10 := fun heq => h (Char.ext (UInt32.toNat_inj.mp heq))
  -- the bytes of a character beyond ASCII are all 128 or more
  show 10 ∉ if c.val.toNat ≤ 127 then [_] else if c.val.toNat ≤ 2047 then [_, _] else
    if c.val.toNat ≤ 65535 then [_, _, _] else [_, _, _, _]
  split
  · simp only [List.mem_cons, List.not_mem_nil, or_false]
    exact hbyte _ (by omega)
  · split
    · simp only [List.mem_cons, List.not_mem_nil, or_false, not_or]
      exact ⟨hbyte _ (by omega), hbyte _ (by omega)⟩
    · split
      · simp only [List.mem_cons, List.not_mem_nil, or_false, not_or]
        exact ⟨hbyte _ (by omega), hbyte _ (by omega), hbyte _ (by omega)⟩
      · simp only [List.mem_cons, List.not_mem_nil, or_false, not_or]
        exact ⟨hbyte _ (by omega), hbyte _ (by omega), hbyte _ (by omega), hbyte _ (by omega)⟩

/-- A text without a line feed has no byte of one. -/
theorem feed_not_mem_utf8Bytes {s : String} (h : '\n' ∉ s.toList) : 10 ∉ utf8Bytes s := by
  rw [utf8Bytes_eq]
  intro hmem
  obtain ⟨c, hc, hbyte⟩ := List.mem_flatMap.mp hmem
  refine feed_not_mem_utf8EncodeChar ?_ hbyte
  rintro rfl
  exact h hc

/-! ## Cutting -/

/-- The first cut is behind the first line feed. -/
theorem cutLines_append {line : List UInt8} (h : 10 ∉ line) (bs : List UInt8) :
    cutLines (line ++ 10 :: bs) = (line ++ [10]) :: cutLines bs := by
  induction line with
  | nil => rfl
  | cons b line ih =>
    rw [List.mem_cons, not_or] at h
    rw [List.cons_append, cutLines, if_neg (Ne.symm h.1), ih h.2]
    rfl

theorem cutLines_of_not_mem {line : List UInt8} (h : 10 ∉ line) (hne : line ≠ []) :
    cutLines line = [line] := by
  induction line with
  | nil => exact absurd rfl hne
  | cons b line ih =>
    rw [List.mem_cons, not_or] at h
    rw [cutLines, if_neg (Ne.symm h.1)]
    cases line with
    | nil => rfl
    | cons c line => rw [ih h.2 (List.cons_ne_nil _ _)]

/-! ## Reading back -/

theorem decodeLine?_utf8Bytes {line : String} (h : '\n' ∉ line.toList) :
    decodeLine? (utf8Bytes line) = some line := by
  have hlast : line.toList.getLast? ≠ some '\n' := fun hlast => h (List.mem_of_getLast? hlast)
  simp [decodeLine?, fromUTF8?_utf8Bytes, dropLineEnd, hlast]

/-- A line that was cut behind a line feed is read back without it. -/
theorem decodeLine?_feed {line : String} (h : line.toList.getLast? ≠ some '\r') :
    decodeLine? (utf8Bytes line ++ [10]) = some line := by
  have hbytes : utf8Bytes line ++ [10] = utf8Bytes (line ++ "\n") := by
    rw [utf8Bytes_append]
    rfl
  rw [hbytes, decodeLine?, fromUTF8?_utf8Bytes]
  simp [dropLineEnd, h]

/-- **Lines that are joined come apart again.** -/
theorem map_decodeLine?_joinLines : ∀ {lines : List String}, (∀ line ∈ lines, IsLine line) →
    (cutLines (utf8Bytes (joinLines lines))).map decodeLine? = lines.map some
  | [], _ => rfl
  | [line], h => by
    have hline := h line List.mem_cons_self
    have hne : utf8Bytes line ≠ [] := by
      have hchars : line.toList ≠ [] := mt String.toList_eq_nil_iff.mp hline.nonempty
      obtain ⟨c, cs, hcs⟩ := List.exists_cons_of_ne_nil hchars
      rw [utf8Bytes_eq, hcs, List.flatMap_cons]
      exact List.append_ne_nil_of_left_ne_nil String.utf8EncodeChar_ne_nil _
    rw [joinLines, String.intercalate_singleton,
      cutLines_of_not_mem (feed_not_mem_utf8Bytes hline.noFeed) hne, List.map_singleton,
      decodeLine?_utf8Bytes hline.noFeed]
    rfl
  | line :: next :: lines, h => by
    have hline := h line List.mem_cons_self
    have hbytes : utf8Bytes (joinLines (line :: next :: lines)) =
        utf8Bytes line ++ 10 :: utf8Bytes (joinLines (next :: lines)) := by
      rw [joinLines, String.intercalate_cons_cons, utf8Bytes_append, utf8Bytes_append,
        List.append_assoc]
      rfl
    have hrest := map_decodeLine?_joinLines fun l hl => h l (List.mem_cons_of_mem _ hl)
    rw [hbytes, cutLines_append (feed_not_mem_utf8Bytes hline.noFeed), List.map_cons,
      decodeLine?_feed hline.noReturn, hrest]
    rfl

end ClosureLang
