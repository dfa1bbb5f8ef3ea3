import MidiRig.Document.Toml.Scan
import MidiRig.Event.Text

/-!
# Quoted texts

Basic texts stand between double quotes and have escapes; literal texts stand between single
quotes and have none. Either may stand between three quotes instead and then run over several
lines: a line end right after the opening quotes does not count, and one or two quotes may stand
before the closing ones. In a basic text a backslash at the end of a line skips to the next
character that is no blank.
-/

namespace MidiRig.Toml

/-! ## Escapes -/

/-- The character with this number in hexadecimal digits. -/
def scalar? (digits : List Char) : Option Char := do
  let n ← digits.foldlM (fun n c => do return 16 * n + (← Event.hexValue? c)) 0
  if n < 0xD800 || (0xDFFF < n && n < 0x110000) then some (Char.ofNat n) else none

/-- The character for which a backslash and this one stand. -/
def escaped? : Char → Option Char
  | 'b' => some '\x08'
  | 't' => some '\t'
  | 'n' => some '\n'
  | 'f' => some '\x0c'
  | 'r' => some '\r'
  | '"' => some '"'
  | '\\' => some '\\'
  | _ => none

/-! ## One line -/

/-- Puts a character in front of what the rest gives. -/
def push (c : Char) (rest : Option (List Char × List Char)) : Option (List Char × List Char) :=
  rest.map fun (text, cs) => (c :: text, cs)

/-- A basic text after its opening quote. -/
def readBasic? : List Char → Option (List Char × List Char)
  | '"' :: cs => some ([], cs)
  | '\\' :: 'u' :: a :: b :: c :: d :: cs => do
    push (← scalar? [a, b, c, d]) (readBasic? cs)
  | '\\' :: 'U' :: a :: b :: c :: d :: e :: f :: g :: h :: cs => do
    push (← scalar? [a, b, c, d, e, f, g, h]) (readBasic? cs)
  | '\\' :: c :: cs => do push (← escaped? c) (readBasic? cs)
  | c :: cs => if isPlain c then push c (readBasic? cs) else none
  | [] => none

/-- A literal text after its opening quote. -/
def readLiteral? : List Char → Option (List Char × List Char)
  | '\'' :: cs => some ([], cs)
  | c :: cs => if isPlain c then push c (readLiteral? cs) else none
  | [] => none

/-! ## Several lines -/

/-- What follows three quotes that close a text: up to two more quotes belong to the text, and
the last three close it. -/
def closeLines (quote : Char) : List Char → List Char × List Char
  | a :: b :: cs =>
    if a == quote && b == quote then ([quote, quote], cs)
    else if a == quote then ([quote], b :: cs)
    else ([], a :: b :: cs)
  | [a] => if a == quote then ([quote], []) else ([], [a])
  | [] => ([], [])

/-- Whether only blanks are left in the line. -/
def endsHere (cs : List Char) : Bool :=
  match skipSpaces cs with
  | '\n' :: _ => true
  | '\r' :: '\n' :: _ => true
  | _ => false

/-- A basic text of several lines after its opening quotes; `skipping` tells whether blanks and
line ends are being skipped. -/
def readBasicLines? (skipping : Bool) : List Char → Option (List Char × List Char)
  | '"' :: '"' :: '"' :: cs => some (closeLines '"' cs)
  | '\\' :: 'u' :: a :: b :: c :: d :: cs => do
    push (← scalar? [a, b, c, d]) (readBasicLines? false cs)
  | '\\' :: 'U' :: a :: b :: c :: d :: e :: f :: g :: h :: cs => do
    push (← scalar? [a, b, c, d, e, f, g, h]) (readBasicLines? false cs)
  | '\\' :: c :: cs =>
    if endsHere (c :: cs) then readBasicLines? true (c :: cs)
    else do push (← escaped? c) (readBasicLines? false cs)
  | '\r' :: '\n' :: cs =>
    if skipping then readBasicLines? true cs else push '\n' (readBasicLines? false cs)
  | c :: cs =>
    if skipping && (isSpace c || c == '\n') then readBasicLines? true cs
    else if isPlain c || c == '\n' then push c (readBasicLines? false cs)
    else none
  | [] => none

/-- A literal text of several lines after its opening quotes. -/
def readLiteralLines? : List Char → Option (List Char × List Char)
  | '\'' :: '\'' :: '\'' :: cs => some (closeLines '\'' cs)
  | '\r' :: '\n' :: cs => push '\n' (readLiteralLines? cs)
  | c :: cs => if isPlain c || c == '\n' then push c (readLiteralLines? cs) else none
  | [] => none

/-- Without a line end in front. -/
def dropLineEnd : List Char → List Char
  | '\n' :: cs => cs
  | '\r' :: '\n' :: cs => cs
  | cs => cs

/-- A text in any of the four forms, from its opening quotes on. -/
def readQuoted? (cs : List Char) : Option (String × List Char) :=
  let read := match cs with
    | '"' :: '"' :: '"' :: rest => readBasicLines? false (dropLineEnd rest)
    | '"' :: rest => readBasic? rest
    | '\'' :: '\'' :: '\'' :: rest => readLiteralLines? (dropLineEnd rest)
    | '\'' :: rest => readLiteral? rest
    | _ => none
  read.map fun (text, rest) => (String.ofList text, rest)

/-! ## Writing -/

/-- A character within a basic text. Quotes and backslashes are escaped, and so is all that is
not plain. -/
def quoteChar (c : Char) : String :=
  if c == '"' then "\\\""
  else if c == '\\' then "\\\\"
  else if isPlain c then String.singleton c
  else "\\u00" ++ String.ofList [Event.hexDigit (c.toNat / 16), Event.hexDigit (c.toNat % 16)]

/-- A basic text of one line. -/
def quote (s : String) : String := "\"" ++ String.join (s.toList.map quoteChar) ++ "\""

end MidiRig.Toml
