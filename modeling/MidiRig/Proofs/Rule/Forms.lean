import Mathlib.Algebra.Field.Rat
import MidiRig.Rule.Range

/-!
# The forms of range texts

The grammar of ranges as trees. A number or a note name with its sign is a `Token`, one token or two
are a `Span`, and a `Form` is the span of a domain with what it is mapped by. Each tree has a text
and stands for a value. A dash stands between tokens, and is also the sign of a number, a note, an
octave and an offset; yet what a text begins with is settled by the characters that may follow it, so
that no text has two trees (`Form.text_injective`).
-/

namespace MidiRig.Range

/-! ## Digits and signs -/

abbrev Digit := Fin 10

def digitChar (d : Digit) : Char := Nat.digitChar d

def digitsText (ds : List Digit) : List Char := ds.map digitChar

/-- The number that digits write. -/
def ofDigits (ds : List Digit) : Nat := ds.foldl (fun n d => 10 * n + d.val) 0

inductive Sign where
  | none
  | plus
  | minus
  deriving DecidableEq

namespace Sign

def mark : Sign → Option Char
  | none => .none
  | plus => some '+'
  | minus => some '-'

def text (s : Sign) : List Char := s.mark.toList

def isMinus : Sign → Bool
  | minus => true
  | _ => false

end Sign

/-! ## Numbers -/

/-- A number without a sign: digits, of which one at least stands behind the point if there is one. -/
inductive Numeral where
  | whole (first : Digit) (rest : List Digit)
  | pointed (whole : List Digit) (first : Digit) (rest : List Digit)

namespace Numeral

def text : Numeral → List Char
  | whole d ds => digitsText (d :: ds)
  | pointed ws d ds => digitsText ws ++ '.' :: digitsText (d :: ds)

/-- The number that it writes. -/
def exact : Numeral → ℚ
  | whole d ds => ofDigits (d :: ds)
  | pointed ws d ds => ofDigits ws + ofDigits (d :: ds) / 10 ^ (d :: ds).length

/-- The double nearest to it. -/
def value : Numeral → Float
  | whole d ds => Decimal.scaled (ofDigits (d :: ds)) 0
  | pointed ws d ds => Decimal.scaled (ofDigits (ws ++ d :: ds)) (-((d :: ds).length : Int))

end Numeral

/-- A number with its sign. -/
structure Signed where
  sign : Sign
  numeral : Numeral

namespace Signed

def text (x : Signed) : List Char := x.sign.text ++ x.numeral.text

def value (x : Signed) : Float := if x.sign.isMinus then -x.numeral.value else x.numeral.value

end Signed

/-! ## Note names -/

inductive Letter where
  | c | d | e | f | g | a | b
  deriving DecidableEq

namespace Letter

def char : Letter → Char
  | c => 'C'
  | d => 'D'
  | e => 'E'
  | f => 'F'
  | g => 'G'
  | a => 'A'
  | b => 'B'

/-- Semitones above the `C` of the octave. -/
def semitone : Letter → Int
  | c => 0
  | d => 2
  | e => 4
  | f => 5
  | g => 7
  | a => 9
  | b => 11

end Letter

inductive Accidental where
  | natural | sharp | flat
  deriving DecidableEq

namespace Accidental

def mark : Accidental → Option Char
  | natural => none
  | sharp => some '#'
  | flat => some 'b'

def shift : Accidental → Int
  | natural => 0
  | sharp => 1
  | flat => -1

end Accidental

/-- A note name without a sign. -/
structure Name where
  letter : Letter
  accidental : Accidental
  /-- Whether the octave has a minus. -/
  below : Bool
  octave : Digit

namespace Name

def octaveText (below : Bool) (octave : Digit) : List Char :=
  (if below then some '-' else none).toList ++ [digitChar octave]

def text (n : Name) : List Char :=
  n.letter.char :: (n.accidental.mark.toList ++ octaveText n.below n.octave)

def number (n : Name) : Int :=
  ((if n.below then -(n.octave : Int) else n.octave) + 1) * 12 + n.letter.semitone +
    n.accidental.shift

end Name

/-! ## Tokens and spans -/

/-- A note name or a number, with its sign. -/
inductive Token where
  | note (sign : Sign) (name : Name)
  | number (x : Signed)

namespace Token

def text : Token → List Char
  | note sign name => sign.text ++ name.text
  | number x => x.text

def value : Token → Float
  | note sign name => Float.ofInt (if sign.isMinus then -name.number else name.number)
  | number x => x.value

end Token

/-- `A` or `A-B`. -/
structure Span where
  first : Token
  second : Option Token

namespace Span

def secondText : Option Token → List Char
  | none => []
  | some t => '-' :: t.text

def text (s : Span) : List Char := s.first.text ++ secondText s.second

def low (s : Span) : Float := s.first.value

/-- A missing `B` is `A`. -/
def high (s : Span) : Float := (s.second.getD s.first).value

end Span

/-! ## Ranges -/

/-- What follows a domain: nothing, `*M` with an offset or without one, `=C` or `=C-D`. -/
inductive Tail where
  | plain
  | affine (factor : Signed) (offset : Option (Bool × Numeral))
  | onto (target : Span)

namespace Tail

/-- An offset has a sign; `true` tells a minus. -/
def offsetText : Option (Bool × Numeral) → List Char
  | none => []
  | some (negative, x) => (if negative then '-' else '+') :: x.text

def offsetValue : Option (Bool × Numeral) → Float
  | none => 0.0
  | some (negative, x) => if negative then -x.value else x.value

def text : Tail → List Char
  | plain => []
  | affine factor offset => '*' :: (factor.text ++ offsetText offset)
  | onto target => '=' :: target.text

def transform : Tail → Transform
  | plain => .identity
  | affine factor offset => .affine factor.value (offsetValue offset)
  | onto target => .fromTo target.low target.high

end Tail

structure Form where
  domain : Span
  tail : Tail

namespace Form

def text (f : Form) : List Char := f.domain.text ++ f.tail.text

def range (f : Form) : Range := ⟨f.domain.low, f.domain.high, f.tail.transform⟩

end Form

/-! ## What follows -/

/-- No more digits. -/
def NoDigit (rest : List Char) : Prop := ∀ c ∈ rest.head?, c.isDigit = false

/-- Nothing with which a number goes on. -/
def Closed (rest : List Char) : Prop := ∀ c ∈ rest.head?, c.isDigit = false ∧ c ≠ '.'

/-- Nothing with which a span goes on. -/
def Ended (rest : List Char) : Prop := Closed rest ∧ rest.head? ≠ some '-'

/-- No sign in front. -/
def Unsigned (cs : List Char) : Prop := ∀ c ∈ cs.head?, c ≠ '+' ∧ c ≠ '-'

theorem Closed.noDigit {rest : List Char} (h : Closed rest) : NoDigit rest :=
  fun c hc => (h c hc).1

theorem closed_nil : Closed [] := by simp [Closed]

theorem closed_cons {c : Char} (hdigit : c.isDigit = false) (hpoint : c ≠ '.') (cs : List Char) :
    Closed (c :: cs) := by
  simpa [Closed] using And.intro hdigit hpoint

theorem closed_secondText (t : Option Token) {rest : List Char} (h : Closed rest) :
    Closed (Span.secondText t ++ rest) := by
  cases t with
  | none => exact h
  | some t => exact closed_cons (by decide) (by decide) _

theorem closed_offsetText (offset : Option (Bool × Numeral)) : Closed (Tail.offsetText offset) := by
  match offset with
  | none => exact closed_nil
  | some (true, _) => exact closed_cons (by decide) (by decide) _
  | some (false, _) => exact closed_cons (by decide) (by decide) _

theorem ended_nil : Ended [] := ⟨closed_nil, by simp⟩

theorem ended_text (t : Tail) : Ended t.text := by
  cases t with
  | plain => exact ended_nil
  | affine _ _ => exact ⟨closed_cons (by decide) (by decide) _, by simp [Tail.text]⟩
  | onto _ => exact ⟨closed_cons (by decide) (by decide) _, by simp [Tail.text]⟩

/-! ## Characters -/

theorem isDigit_digitChar : ∀ d : Digit, (digitChar d).isDigit = true := by decide

theorem digitChar_injective : ∀ d e : Digit, digitChar d = digitChar e → d = e := by decide

theorem digitChar_ne {c : Char} (hc : c.isDigit = false) (d : Digit) : digitChar d ≠ c := by
  rintro rfl
  rw [isDigit_digitChar] at hc
  cases hc

theorem isDigit_of_mem_digitsText {ds : List Digit} {c : Char} (h : c ∈ digitsText ds) :
    c.isDigit = true := by
  obtain ⟨d, -, rfl⟩ := List.mem_map.mp h
  exact isDigit_digitChar d

theorem Letter.char_injective : ∀ l k : Letter, l.char = k.char → l = k := by
  intro l k
  cases l <;> cases k <;> decide

theorem Letter.isDigit_char (l : Letter) : l.char.isDigit = false := by cases l <;> decide

theorem Letter.char_ne_point (l : Letter) : l.char ≠ '.' := by cases l <;> decide

theorem unsigned_cons {c : Char} (hplus : c ≠ '+') (hminus : c ≠ '-') (cs : List Char) :
    Unsigned (c :: cs) := by
  simpa [Unsigned] using And.intro hplus hminus

theorem unsigned_digit (d : Digit) (cs : List Char) : Unsigned (digitChar d :: cs) :=
  unsigned_cons (digitChar_ne (by decide) d) (digitChar_ne (by decide) d) cs

theorem Numeral.unsigned_text (x : Numeral) (rest : List Char) : Unsigned (x.text ++ rest) := by
  match x with
  | whole d ds => exact unsigned_digit d _
  | pointed [] d ds => exact unsigned_cons (by decide) (by decide) _
  | pointed (w :: ws) d ds => exact unsigned_digit w _

theorem Name.unsigned_text (n : Name) (rest : List Char) : Unsigned (n.text ++ rest) := by
  refine unsigned_cons ?_ ?_ _ <;> cases n.letter <;> decide

/-! ## One tree for a text -/

theorem digitsText_unique {ds es : List Digit} {rest more : List Char} (hrest : NoDigit rest)
    (hmore : NoDigit more) (h : digitsText ds ++ rest = digitsText es ++ more) :
    ds = es ∧ rest = more := by
  induction ds generalizing es with
  | nil =>
    cases es with
    | nil => exact ⟨rfl, h⟩
    | cons e es =>
      have hdigit := hrest (digitChar e) (by rw [show rest = _ from h]; rfl)
      rw [isDigit_digitChar] at hdigit
      cases hdigit
  | cons d ds ih =>
    cases es with
    | nil =>
      have hdigit := hmore (digitChar d) (by rw [show more = _ from h.symm]; rfl)
      rw [isDigit_digitChar] at hdigit
      cases hdigit
    | cons e es =>
      obtain ⟨hchar, htail⟩ := List.cons.inj h
      obtain ⟨rfl, hrests⟩ := ih htail
      exact ⟨by rw [digitChar_injective d e hchar], hrests⟩

theorem noDigit_point (cs : List Char) : NoDigit ('.' :: cs) := by simp [NoDigit]

theorem Numeral.text_unique {x y : Numeral} {rest more : List Char} (hrest : Closed rest)
    (hmore : Closed more) (h : x.text ++ rest = y.text ++ more) : x = y ∧ rest = more := by
  -- a point behind digits can only be the point of the same number
  have hclosed (cs : List Char) : ¬ Closed ('.' :: cs) := by simp [Closed]
  match x, y with
  | whole d ds, whole e es =>
    obtain ⟨hdigits, hrests⟩ := digitsText_unique hrest.noDigit hmore.noDigit h
    obtain ⟨rfl, rfl⟩ := List.cons.inj hdigits
    exact ⟨rfl, hrests⟩
  | whole d ds, pointed ws e es =>
    rw [text, text, List.append_assoc] at h
    obtain ⟨-, rfl⟩ := digitsText_unique hrest.noDigit (noDigit_point _) h
    exact absurd hrest (hclosed _)
  | pointed ws d ds, whole e es =>
    rw [text, text, List.append_assoc] at h
    obtain ⟨-, rfl⟩ := digitsText_unique (noDigit_point _) hmore.noDigit h
    exact absurd hmore (hclosed _)
  | pointed ws d ds, pointed vs e es =>
    rw [text, text, List.append_assoc, List.append_assoc] at h
    obtain ⟨rfl, hpoint⟩ := digitsText_unique (noDigit_point _) (noDigit_point _) h
    obtain ⟨hdigits, hrests⟩ :=
      digitsText_unique hrest.noDigit hmore.noDigit (List.cons.inj hpoint).2
    obtain ⟨rfl, rfl⟩ := List.cons.inj hdigits
    exact ⟨rfl, hrests⟩

/-- A character that may be there or not, before a text that begins with none of the kind. -/
theorem mark_unique {m k : Option Char} {cs ds : List Char} (hcs : ∀ c ∈ k, cs.head? ≠ some c)
    (hds : ∀ c ∈ m, ds.head? ≠ some c) (h : m.toList ++ cs = k.toList ++ ds) : m = k ∧ cs = ds := by
  match m, k with
  | none, none => exact ⟨rfl, h⟩
  | some c, some d =>
    obtain ⟨rfl, hrest⟩ := List.cons.inj h
    exact ⟨rfl, hrest⟩
  | none, some d => exact absurd (congrArg List.head? h) (hcs d rfl)
  | some c, none => exact absurd (congrArg List.head? h.symm) (hds c rfl)

theorem Unsigned.head?_ne {cs : List Char} (h : Unsigned cs) {s : Sign} :
    ∀ c ∈ s.mark, cs.head? ≠ some c := by
  intro c hc hhead
  obtain ⟨hplus, hminus⟩ := h c hhead
  cases s with
  | none => cases hc
  | plus => exact hplus (Option.some.inj hc).symm
  | minus => exact hminus (Option.some.inj hc).symm

theorem Sign.text_unique {s t : Sign} {cs ds : List Char} (hcs : Unsigned cs) (hds : Unsigned ds)
    (h : s.text ++ cs = t.text ++ ds) : s = t ∧ cs = ds := by
  obtain ⟨hmark, hrest⟩ := mark_unique hcs.head?_ne hds.head?_ne h
  refine ⟨?_, hrest⟩
  cases s <;> cases t <;> first | rfl | exact absurd hmark (by decide)

theorem Signed.text_unique {x y : Signed} {rest more : List Char} (hrest : Closed rest)
    (hmore : Closed more) (h : x.text ++ rest = y.text ++ more) : x = y ∧ rest = more := by
  obtain ⟨s, x⟩ := x
  obtain ⟨t, y⟩ := y
  change s.text ++ x.text ++ rest = t.text ++ y.text ++ more at h
  rw [List.append_assoc, List.append_assoc] at h
  obtain ⟨rfl, hnumeral⟩ := Sign.text_unique (x.unsigned_text _) (y.unsigned_text _) h
  obtain ⟨rfl, hrests⟩ := Numeral.text_unique hrest hmore hnumeral
  exact ⟨rfl, hrests⟩

theorem Name.octaveText_unique {below above : Bool} {o p : Digit} {rest more : List Char}
    (h : octaveText below o ++ rest = octaveText above p ++ more) :
    below = above ∧ o = p ∧ rest = more := by
  have hhead (b : Bool) (d : Digit) (cs : List Char) :
      ∀ c ∈ (if b then some '-' else none), (digitChar d :: cs).head? ≠ some c := by
    intro c hc hhead
    cases b with
    | false => cases hc
    | true =>
      cases hc
      exact digitChar_ne (by decide) d (Option.some.inj hhead)
  rw [octaveText, octaveText, List.append_assoc, List.append_assoc] at h
  obtain ⟨hmark, hdigit⟩ := mark_unique (hhead above o rest) (hhead below p more) h
  obtain ⟨hchar, hrests⟩ := List.cons.inj hdigit
  refine ⟨?_, digitChar_injective o p hchar, hrests⟩
  cases below <;> cases above <;> first | rfl | cases hmark

/-- An octave begins with a minus or with a digit. -/
theorem Name.head?_octaveText (below : Bool) (o : Digit) (rest : List Char) {c : Char}
    (hdigit : c.isDigit = false) (hminus : c ≠ '-') :
    (octaveText below o ++ rest).head? ≠ some c := by
  intro hhead
  cases below with
  | true => exact hminus (Option.some.inj hhead).symm
  | false => exact digitChar_ne hdigit o (Option.some.inj hhead)

theorem Name.text_unique {n k : Name} {rest more : List Char}
    (h : n.text ++ rest = k.text ++ more) : n = k ∧ rest = more := by
  obtain ⟨l, a, below, o⟩ := n
  obtain ⟨l', a', above, p⟩ := k
  have hhead (a : Accidental) (below : Bool) (o : Digit) (cs : List Char) :
      ∀ c ∈ a.mark, (octaveText below o ++ cs).head? ≠ some c := by
    intro c hc
    cases a with
    | natural => cases hc
    | sharp => exact head?_octaveText _ _ _ (by cases hc; decide) (by cases hc; decide)
    | flat => exact head?_octaveText _ _ _ (by cases hc; decide) (by cases hc; decide)
  change l.char :: (a.mark.toList ++ octaveText below o ++ rest) =
    l'.char :: (a'.mark.toList ++ octaveText above p ++ more) at h
  rw [List.append_assoc, List.append_assoc] at h
  obtain ⟨hletter, hbehind⟩ := List.cons.inj h
  obtain rfl := Letter.char_injective l l' hletter
  obtain ⟨hmark, hoctave⟩ := mark_unique (hhead a' below o rest) (hhead a above p more) hbehind
  obtain ⟨rfl, rfl, hrests⟩ := octaveText_unique hoctave
  have haccidental : a = a' := by
    cases a <;> cases a' <;> first | rfl | exact absurd hmark (by decide)
  exact ⟨by rw [haccidental], hrests⟩

/-- A number begins with a digit or a point, and a note name with a letter. -/
theorem Name.text_ne (n : Name) (x : Numeral) (rest more : List Char) :
    n.text ++ rest ≠ x.text ++ more := by
  intro h
  match x with
  | .whole d ds => exact digitChar_ne n.letter.isDigit_char d (List.cons.inj h).1.symm
  | .pointed (w :: ws) d ds => exact digitChar_ne n.letter.isDigit_char w (List.cons.inj h).1.symm
  | .pointed [] d ds =>
    exact n.letter.char_ne_point (List.cons.inj h).1

theorem Token.text_unique {t u : Token} {rest more : List Char} (hrest : Closed rest)
    (hmore : Closed more) (h : t.text ++ rest = u.text ++ more) : t = u ∧ rest = more := by
  match t, u with
  | note s n, note s' n' =>
    rw [text, text, List.append_assoc, List.append_assoc] at h
    obtain ⟨rfl, hname⟩ := Sign.text_unique (n.unsigned_text _) (n'.unsigned_text _) h
    obtain ⟨rfl, hrests⟩ := Name.text_unique hname
    exact ⟨rfl, hrests⟩
  | number x, number y =>
    obtain ⟨rfl, hrests⟩ := Signed.text_unique hrest hmore h
    exact ⟨rfl, hrests⟩
  | note s n, number y =>
    rw [text, text, Signed.text, List.append_assoc, List.append_assoc] at h
    obtain ⟨-, h⟩ := Sign.text_unique (n.unsigned_text _) (y.numeral.unsigned_text _) h
    exact absurd h (n.text_ne _ _ _)
  | number x, note s n =>
    rw [text, text, Signed.text, List.append_assoc, List.append_assoc] at h
    obtain ⟨-, h⟩ := Sign.text_unique (x.numeral.unsigned_text _) (n.unsigned_text _) h
    exact absurd h.symm (n.text_ne _ _ _)

theorem Span.secondText_unique {t u : Option Token} {rest more : List Char} (hrest : Ended rest)
    (hmore : Ended more) (h : secondText t ++ rest = secondText u ++ more) :
    t = u ∧ rest = more := by
  match t, u with
  | none, none => exact ⟨rfl, h⟩
  | some t, some u =>
    obtain ⟨rfl, hrests⟩ := Token.text_unique hrest.1 hmore.1 (List.cons.inj h).2
    exact ⟨rfl, hrests⟩
  | none, some u => exact absurd (congrArg List.head? h) hrest.2
  | some t, none => exact absurd (congrArg List.head? h.symm) hmore.2

theorem Span.text_unique {s t : Span} {rest more : List Char} (hrest : Ended rest)
    (hmore : Ended more) (h : s.text ++ rest = t.text ++ more) : s = t ∧ rest = more := by
  obtain ⟨a, b⟩ := s
  obtain ⟨c, d⟩ := t
  change a.text ++ secondText b ++ rest = c.text ++ secondText d ++ more at h
  rw [List.append_assoc, List.append_assoc] at h
  obtain ⟨rfl, hsecond⟩ :=
    Token.text_unique (closed_secondText b hrest.1) (closed_secondText d hmore.1) h
  obtain ⟨rfl, hrests⟩ := secondText_unique hrest hmore hsecond
  exact ⟨rfl, hrests⟩

theorem Tail.offsetText_injective {x y : Option (Bool × Numeral)}
    (h : offsetText x = offsetText y) : x = y := by
  match x, y with
  | none, none => rfl
  | some (s, x), some (t, y) =>
    obtain ⟨hsign, htext⟩ := List.cons.inj h
    rw [← List.append_nil x.text, ← List.append_nil y.text] at htext
    obtain ⟨rfl, -⟩ := Numeral.text_unique closed_nil closed_nil htext
    cases s <;> cases t <;> first | rfl | exact absurd hsign (by decide)

theorem Tail.text_injective {t u : Tail} (h : t.text = u.text) : t = u := by
  cases t with
  | plain =>
    cases u with
    | plain => rfl
    | affine _ _ => cases h
    | onto _ => cases h
  | affine x o =>
    cases u with
    | plain => cases h
    | affine y p =>
      obtain ⟨rfl, hoffset⟩ := Signed.text_unique (closed_offsetText o) (closed_offsetText p)
        (List.cons.inj h).2
      rw [offsetText_injective hoffset]
    | onto _ => exact absurd (List.cons.inj h).1 (by decide)
  | onto s =>
    cases u with
    | plain => cases h
    | affine _ _ => exact absurd (List.cons.inj h).1 (by decide)
    | onto s' =>
      have htext := (List.cons.inj h).2
      rw [← List.append_nil s.text, ← List.append_nil s'.text] at htext
      rw [(Span.text_unique ended_nil ended_nil htext).1]

/-- No text has two trees. -/
theorem Form.text_injective {f g : Form} (h : f.text = g.text) : f = g := by
  obtain ⟨s, t⟩ := f
  obtain ⟨s', t'⟩ := g
  obtain ⟨rfl, htail⟩ := Span.text_unique (ended_text t) (ended_text t') h
  rw [Tail.text_injective htail]

end MidiRig.Range
