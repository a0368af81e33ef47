/-!
# Texts as lists of characters

A text is a list of characters, and an offset into it counts the bytes of its UTF-8 form. This module
measures texts in bytes, cuts them at byte offsets and at line ends, and trims them. The main
statements are that the pieces between line ends give the text back (`joinSegments_segments`) and
that a cut at a byte offset keeps both halves in order (`append_of_splitAtByte?`).
-/

namespace TreeLayout.Text

/-- The number of bytes of a text's UTF-8 form. -/
def byteSize : List Char → Nat
  | [] => 0
  | c :: cs => c.utf8Size + byteSize cs

/-- The empty text has no bytes. -/
@[simp] theorem byteSize_nil : byteSize [] = 0 := rfl

/-- A text has the bytes of its first character and of the others. -/
@[simp] theorem byteSize_cons (c : Char) (cs : List Char) :
    byteSize (c :: cs) = c.utf8Size + byteSize cs := rfl

/-- Two texts have the bytes of both. -/
@[simp] theorem byteSize_append (a b : List Char) :
    byteSize (a ++ b) = byteSize a + byteSize b := by
  induction a with
  | nil => simp
  | cons c a ih => simp [ih, Nat.add_assoc]

/-- The number of bytes of several pieces with a line end after each. -/
def linesSize : List (List Char) → Nat
  | [] => 0
  | s :: ss => byteSize s + 1 + linesSize ss

/-- Cuts a text in two at a byte offset; there is no cut past the end or inside a character. -/
def splitAtByte? : Nat → List Char → Option (List Char × List Char)
  | 0, cs => some ([], cs)
  | _ + 1, [] => none
  | n + 1, c :: cs =>
    if c.utf8Size ≤ n + 1 then
      (splitAtByte? (n + 1 - c.utf8Size) cs).map fun (before, after) => (c :: before, after)
    else none

/-- The halves of a cut, one after the other, are the text. -/
theorem append_of_splitAtByte? {n : Nat} {cs before after : List Char}
    (h : splitAtByte? n cs = some (before, after)) : before ++ after = cs := by
  induction cs generalizing n before with
  | nil => cases n <;> simp_all [splitAtByte?]
  | cons c cs ih =>
    cases n with
    | zero => simp_all [splitAtByte?]
    | succ n =>
      simp only [splitAtByte?] at h
      split at h
      · obtain ⟨⟨b, a⟩, hcut, heq⟩ := Option.map_eq_some_iff.1 h
        obtain ⟨rfl, rfl⟩ := Prod.mk.injEq .. ▸ heq
        simp [ih hcut]
      · simp at h

/-- The pieces of a text between its line ends; a text without a line end is one piece. -/
def segments : List Char → List (List Char)
  | [] => [[]]
  | c :: cs =>
    if c = '\n' then [] :: segments cs
    else
      match segments cs with
      | [] => [[c]]
      | s :: ss => (c :: s) :: ss

/-- Pieces put together again, with a line end between each two. -/
def joinSegments : List (List Char) → List Char
  | [] => []
  | [s] => s
  | s :: ss => s ++ '\n' :: joinSegments ss

/-- Each text has a piece, which may be empty. -/
theorem segments_ne_nil (cs : List Char) : segments cs ≠ [] := by
  cases cs with
  | nil => simp [segments]
  | cons c cs =>
    simp only [segments]
    split
    · simp
    · split <;> simp

/-- Cutting at the line ends loses nothing. -/
theorem joinSegments_segments (cs : List Char) : joinSegments (segments cs) = cs := by
  induction cs with
  | nil => rfl
  | cons c cs ih =>
    cases hs : segments cs with
    | nil => exact absurd hs (segments_ne_nil cs)
    | cons s ss =>
      rw [hs] at ih
      by_cases hc : c = '\n'
      · simp [segments, hc, hs, joinSegments, ih]
      · cases ss <;> simp_all [segments, joinSegments]

/-- The text without its longest ending of characters that satisfy `p`. -/
def trimEnd (p : Char → Bool) (cs : List Char) : List Char :=
  (cs.reverse.dropWhile p).reverse

/-- The longest ending of characters that satisfy `p`. -/
def ending (p : Char → Bool) (cs : List Char) : List Char :=
  (cs.reverse.takeWhile p).reverse

/-- Trimming cuts off exactly the ending. -/
theorem trimEnd_append_ending (p : Char → Bool) (cs : List Char) :
    trimEnd p cs ++ ending p cs = cs := by
  rw [trimEnd, ending, ← List.reverse_append, List.takeWhile_append_dropWhile, List.reverse_reverse]

/-- Blanks inside a line. -/
def isGap (c : Char) : Bool := c = ' ' || c = '\t'

/-- Blanks inside and between lines. -/
def isBlank (c : Char) : Bool := c = ' ' || c = '\t' || c = '\r' || c = '\n'

/-- One carriage return before a line end belongs to the line end. -/
def dropReturn (cs : List Char) : List Char :=
  if cs.getLast? = some '\r' then cs.dropLast else cs

/-- The lines of a text, each without its line end; a line end that closes the text opens no further
line. -/
def lines (cs : List Char) : List (List Char) :=
  let pieces := segments cs
  match pieces.getLast? with
  | some [] => pieces.dropLast.map dropReturn
  | some last => pieces.dropLast.map dropReturn ++ [last]
  | none => []

/-- The number written at the end of a field of at least `width` characters. -/
def padLeft (width : Nat) (s : String) : String :=
  String.ofList (List.replicate (width - s.length) ' ') ++ s

/-- Every occurrence of a character replaced by a text. -/
def replaceChar (c : Char) (text : String) (s : String) : String :=
  String.join (s.toList.map fun d => if d = c then text else String.singleton d)

/-- Lower case for the letters `A` to `Z`; the words that are looked up in lower case have no other
letters. -/
def lowercase (s : String) : String :=
  s.map Char.toLower

/-- Whether a text starts with a given beginning, and if so, what follows it. -/
def dropStart? : List Char → List Char → Option (List Char)
  | [], cs => some cs
  | _ :: _, [] => none
  | p :: ps, c :: cs => if p = c then dropStart? ps cs else none

/-- The text after a matched beginning completes the beginning to the whole. -/
theorem append_of_dropStart? {p cs rest : List Char} (h : dropStart? p cs = some rest) :
    p ++ rest = cs := by
  induction p generalizing cs with
  | nil => simp_all [dropStart?]
  | cons a p ih =>
    cases cs with
    | nil => simp [dropStart?] at h
    | cons c cs =>
      simp only [dropStart?] at h
      split at h
      · rename_i heq
        simp [heq, ih h]
      · simp at h

end TreeLayout.Text
