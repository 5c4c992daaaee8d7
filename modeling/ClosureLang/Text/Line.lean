/-!
# Lines of bytes

How an input that is no terminal is read as lines. Bytes are cut after every line feed, and each line
is read as UTF-8 on its own. A line feed and a carriage return before it are not part of the line.
-/

namespace ClosureLang

/-- Cuts bytes after every line feed. -/
def cutLines : List UInt8 → List (List UInt8)
  | [] => []
  | b :: bs =>
    if b = 10 then [b] :: cutLines bs
    else
      match cutLines bs with
      | [] => [[b]]
      | line :: lines => (b :: line) :: lines

/-- The lines together are all of the bytes. -/
theorem flatten_cutLines (bs : List UInt8) : (cutLines bs).flatten = bs := by
  induction bs with
  | nil => rfl
  | cons b bs ih =>
    rw [cutLines]
    split
    · simp [ih]
    · split
      · next h => rw [h] at ih; simp [← ih]
      · next h => rw [h] at ih; simp [← ih]

/-- Drops the line feed at the end and a carriage return before it. -/
def dropLineEnd (cs : List Char) : List Char :=
  if cs.getLast? = some '\n' then
    if cs.dropLast.getLast? = some '\r' then cs.dropLast.dropLast else cs.dropLast
  else cs

/-- The text of a line, unless its bytes are not UTF-8. -/
def decodeLine? (line : List UInt8) : Option String :=
  (String.fromUTF8? ⟨line.toArray⟩).map fun s => String.ofList (dropLineEnd s.toList)

end ClosureLang
