import Mathlib.Data.List.Basic

/-!
# Regular expressions with captures

Patterns in which only single characters are repeated. `successes` lists the ways in which a pattern
matches a beginning of a text, in the order in which a matcher with backtracking tries them: a
greedy repetition tries the longest span first and a lazy one the shortest, an alternative tries
its left side first. `find?` gives the captures of the first way that reaches the end of the text,
which is the match that `regexp` documents for a pattern between `^` and `$`.
-/

inductive Pattern where
  | empty
  | char (p : Char → Bool)
  | many (p : Char → Bool)
  | manyLazy (p : Char → Bool)
  | cat (r s : Pattern)
  | alt (r s : Pattern)
  | capture (i : ℕ) (r : Pattern)

namespace Pattern

/-- The texts of the captures by their numbers. -/
abbrev Captures := List (ℕ × List Char)

/-- One or more, as many as possible. -/
def many1 (p : Char → Bool) : Pattern := .cat (.char p) (.many p)

/-- One or more, as few as possible. -/
def many1Lazy (p : Char → Bool) : Pattern := .cat (.char p) (.manyLazy p)

/-- One or none, preferably one. -/
def opt (r : Pattern) : Pattern := .alt r .empty

def seq (rs : List Pattern) : Pattern := rs.foldr .cat .empty

/-- What is left of a text after a span of characters, the longest span first. -/
def rests (p : Char → Bool) : List Char → List (List Char)
  | [] => [[]]
  | c :: text => if p c then rests p text ++ [c :: text] else [c :: text]

/-- What is left of a text after a span of characters, the shortest span first. -/
def restsLazy (p : Char → Bool) : List Char → List (List Char)
  | [] => [[]]
  | c :: text => (c :: text) :: if p c then restsLazy p text else []

/-- The ways to match a beginning of a text, with the captures and the rest of the text. -/
def successes : Pattern → List Char → List (Captures × List Char)
  | empty, text => [([], text)]
  | char _, [] => []
  | char p, c :: text => if p c then [([], text)] else []
  | many p, text => (rests p text).map fun rest => ([], rest)
  | manyLazy p, text => (restsLazy p text).map fun rest => ([], rest)
  | cat r s, text => (r.successes text).flatMap fun m =>
      (s.successes m.2).map fun m' => (m.1 ++ m'.1, m'.2)
  | alt r s, text => r.successes text ++ s.successes text
  | capture i r, text => (r.successes text).map fun m =>
      ((i, text.take (text.length - m.2.length)) :: m.1, m.2)

/-- The captures of the first match of the whole text. -/
def find? (r : Pattern) (text : List Char) : Option Captures :=
  ((r.successes text).find? fun m => m.2.isEmpty).map Prod.fst

/-- The text of a capture; it is empty if the capture took no part in the match. -/
def submatch (m : Captures) (i : ℕ) : List Char := (m.lookup i).getD []

/-! ### Characters -/

/-- What holds of the characters of a text is decided on the text, not on all characters there
are. -/
instance (priority := 2000) (text : List Char) (P : Char → Prop) [DecidablePred P] :
    Decidable (∀ c ∈ text, P c) := List.decidableBAll P text

instance (priority := 2000) (o : Option Char) (P : Char → Prop) [DecidablePred P] :
    Decidable (∀ c ∈ o, P c) := Option.decidableForallMem o

/-- `\s`. -/
def isBlank (c : Char) : Bool := c = ' ' || c = '\t' || c = '\n' || c = '\x0c' || c = '\r'

/-- A character other than the end of a line. -/
def isAny (c : Char) : Bool := c != '\n'

/-- A letter that is the same as `c`, a small one, up to case. The long s and the sign for Kelvin
are the only such letters outside of ASCII. -/
def isFold (c d : Char) : Bool :=
  d = c || d = c.toUpper || (c = 's' && d = '\u017f') || (c = 'k' && d = '\u212a')

/-- An ASCII letter, or one of the two others that are the same up to case. -/
def isLetter (c : Char) : Bool :=
  c.isAlpha || c = '\u017f' || c = '\u212a'

/-- A word in small letters, up to case. -/
def word (s : String) : Pattern := seq (s.toList.map fun c => .char (isFold c))

/-- One character. -/
def lit (c : Char) : Pattern := .char (· = c)

end Pattern
