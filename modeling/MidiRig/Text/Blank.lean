/-!
# Blanks and words

Blanks are the characters of Unicode's `White_Space` property. Fields are trimmed of them at both
ends, and words are what stands between them.
-/

namespace MidiRig.Text

/-- Unicode's `White_Space` property. -/
def isBlank (c : Char) : Bool :=
  let n := c.toNat
  (0x09 ≤ n && n ≤ 0x0D) || n == 0x20 || n == 0x85 || n == 0xA0 || n == 0x1680 ||
    (0x2000 ≤ n && n ≤ 0x200A) || n == 0x2028 || n == 0x2029 || n == 0x202F || n == 0x205F ||
    n == 0x3000

/-- Without the blanks at both ends. -/
def trimChars (cs : List Char) : List Char :=
  ((cs.dropWhile isBlank).reverse.dropWhile isBlank).reverse

/-- Without the blanks at both ends. -/
def trim (s : String) : String := String.ofList (trimChars s.toList)

/-- Without any blank. -/
def squeeze (cs : List Char) : List Char := cs.filter (! isBlank ·)

/-- The words of a text; `current` holds the letters of the word being read, last one first. -/
def wordsFrom (current : List Char) : List Char → List (List Char)
  | [] => if current.isEmpty then [] else [current.reverse]
  | c :: cs =>
    if isBlank c then
      if current.isEmpty then wordsFrom [] cs else current.reverse :: wordsFrom [] cs
    else wordsFrom (c :: current) cs

/-- What stands between blanks, in order and never empty. -/
def words (s : String) : List String := (wordsFrom [] s.toList).map String.ofList

/-- The pieces between separators, one more than there are separators. -/
def pieces (separator : Char) (s : String) : List String :=
  (s.toList.splitOn separator).map String.ofList

/-- The text before the first separator, and the text after it where there is one. -/
def cutAt (separator : Char) (s : String) : String × Option String :=
  let cs := s.toList
  match cs.dropWhile (· != separator) with
  | [] => (s, none)
  | _ :: rest => (String.ofList (cs.takeWhile (· != separator)), some (String.ofList rest))

end MidiRig.Text
