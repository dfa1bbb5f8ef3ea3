import MidiRig.Text.Blank

/-!
# Characters and lines of a TOML text

Readers take the characters that are left and give what they have read with the rest, or nothing
where the text is malformed. A comment runs to the end of its line and holds no control
characters; a line ends with a line feed, which a carriage return may precede.
-/

namespace MidiRig.Toml

/-- Blanks within a line. -/
def isSpace (c : Char) : Bool := c == ' ' || c == '\t'

/-- Characters that texts and comments may hold: none of the control characters but the tab. -/
def isPlain (c : Char) : Bool := c == '\t' || (0x20 ≤ c.toNat && c.toNat != 0x7F)

/-- Characters of a key without quotes. -/
def isBare (c : Char) : Bool := c.isAlphanum || c == '_' || c == '-'

def skipSpaces (cs : List Char) : List Char := cs.dropWhile isSpace

/-- Skips blanks, line ends and comments; `inComment` tells whether a comment has begun. -/
def skipFiller (inComment : Bool) : List Char → Option (List Char)
  | [] => some []
  | '\n' :: cs => skipFiller false cs
  | '\r' :: '\n' :: cs => skipFiller false cs
  | c :: cs =>
    if inComment then
      if isPlain c then skipFiller true cs else none
    else if isSpace c then skipFiller false cs
    else if c == '#' then skipFiller true cs
    else some (c :: cs)

/-- Skips what may stand at the end of a line, and the end itself. -/
def endLine? (inComment : Bool) : List Char → Option (List Char)
  | [] => some []
  | '\n' :: cs => some cs
  | '\r' :: '\n' :: cs => some cs
  | c :: cs =>
    if inComment then
      if isPlain c then endLine? true cs else none
    else if isSpace c then endLine? false cs
    else if c == '#' then endLine? true cs
    else none

/-- Takes away one character that must stand here. -/
def expect? (c : Char) : List Char → Option (List Char)
  | d :: cs => if c == d then some cs else none
  | [] => none

end MidiRig.Toml
