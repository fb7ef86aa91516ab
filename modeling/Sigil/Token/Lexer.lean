import Sigil.Decimal.Numeral
import Sigil.Text.Blank
import Sigil.Token

/-!
# Reading tokens

The lexer goes through the characters once, and what it is in the middle of is its `Mode`. A comment
runs from a comma to the end of the line. A string runs between quotes, over lines if it has to, and
knows four escapes: a quote, a backslash, `n` and `t`; before any other character a backslash stands
for itself. Everything else up to a delimiter is one atom: a number if it is a numeral, a key if it
starts like one, and a word otherwise.

The first string that does not end, or control character between tokens, refuses the whole text.
-/

namespace Sigil

/-- Why a text has no tokens. -/
inductive LexError where
  | unterminatedString (line : Nat)
  | invalidCharacter (char : Char) (line : Nat)
  deriving DecidableEq

namespace LexError

def line : LexError → Nat
  | unterminatedString line => line
  | invalidCharacter _ line => line

/-- The code point of a control character in braces; the null character has a name of its own. -/
def escaped (c : Char) : String :=
  if c.toNat = 0 then "\\0"
  else "\\u\x7b" ++ String.ofList (Nat.toDigits 16 c.toNat) ++ "\x7d"

def message : LexError → String
  | unterminatedString line => "unclosed string (starting at line " ++ toString line ++ ")"
  | invalidCharacter c line =>
    "invalid character \"" ++ escaped c ++ "\" (line " ++ toString line ++ ")"

end LexError

namespace Token

def quote : Char := '\x27'

def backslash : Char := '\\'

def bracket? (c : Char) : Option Kind :=
  match c with
  | '(' => some (.opener .scope)
  | ')' => some (.closer .scope)
  | '[' => some (.opener .collection)
  | ']' => some (.closer .collection)
  | '\x7b' => some (.opener .mapping)
  | '\x7d' => some (.closer .mapping)
  | _ => none

/-- A character that ends an atom. -/
def isDelimiter (c : Char) : Bool :=
  Text.isBlank c || c == ',' || c == quote || (bracket? c).isSome

/-- A character that a key starts with: a digit or one of the symbols around them. -/
def isKeyStart (c : Char) : Bool :=
  ('!' ≤ c && c ≤ '@') || c == '|' || c == '~'

/-- What an atom is. -/
def Kind.ofAtom (cs : List Char) : Kind :=
  match Numeral.read? cs with
  | some x => .number x
  | none =>
    if cs.head?.any isKeyStart then .key (String.ofList cs) else .word (String.ofList cs)

/-- What a backslash and the character after it stand for in a string. -/
def unescape (c : Char) : List Char :=
  if c == quote || c == backslash then [c]
  else if c == 'n' then ['\n']
  else if c == 't' then ['\t']
  else [backslash, c]

/-- What the lexer is in the middle of. Characters read so far are newest first; a string keeps the
line of its opening quote. -/
inductive Mode where
  | gap
  | comment
  | atom (seen : List Char)
  | string (start : Nat) (seen : List Char)
  | escape (start : Nat) (seen : List Char)
  deriving DecidableEq

/-- The lexer between two characters: its mode, the current line, and the tokens newest first. -/
structure Lexer where
  mode : Mode := .gap
  line : Nat := 1
  tokens : List Token := []
  deriving DecidableEq

namespace Lexer

/-- Adds a token of the given line and goes back to the gap between tokens. -/
def emit (l : Lexer) (kind : Kind) (line : Nat) : Lexer :=
  { l with mode := .gap, tokens := ⟨kind, line⟩ :: l.tokens }

/-- The line after the character `c`. -/
def lineAfter (l : Lexer) (c : Char) : Nat :=
  if c = '\n' then l.line + 1 else l.line

/-- Takes a character with which something new begins. -/
def start (l : Lexer) (c : Char) : Except LexError Lexer :=
  if c = '\n' then
    .ok { l.emit .newline l.line with line := l.line + 1 }
  else if c = ',' then
    .ok { l with mode := .comment }
  else if Text.isBlank c then
    .ok { l with mode := .gap }
  else if c = quote then
    .ok { l with mode := .string l.line [] }
  else if Text.isControl c then
    .error (.invalidCharacter c l.line)
  else
    match bracket? c with
    | some kind => .ok (l.emit kind l.line)
    | none => .ok { l with mode := .atom [c] }

/-- Takes one character. -/
def step (l : Lexer) (c : Char) : Except LexError Lexer :=
  match l.mode with
  | .gap => l.start c
  | .comment => if c = '\n' then l.start c else .ok l
  | .atom seen =>
    if isDelimiter c then (l.emit (.ofAtom seen.reverse) l.line).start c
    else .ok { l with mode := .atom (c :: seen) }
  | .string start seen =>
    if c = quote then .ok (l.emit (.string (String.ofList seen.reverse)) start)
    else if c = backslash then .ok { l with mode := .escape start seen }
    else .ok { l with mode := .string start (c :: seen), line := l.lineAfter c }
  | .escape start seen =>
    .ok { l with mode := .string start ((unescape c).reverse ++ seen), line := l.lineAfter c }

/-- The tokens, once the text has ended. -/
def finish (l : Lexer) : Except LexError (List Token) :=
  match l.mode with
  | .gap | .comment => .ok l.tokens.reverse
  | .atom seen => .ok (l.emit (.ofAtom seen.reverse) l.line).tokens.reverse
  | .string start _ | .escape start _ => .error (.unterminatedString start)

/-- Takes the characters of a text one after the other. -/
def read (l : Lexer) (cs : List Char) : Except LexError Lexer :=
  cs.foldlM step l

theorem read_append (l : Lexer) (cs ds : List Char) :
    l.read (cs ++ ds) = (l.read cs).bind (read · ds) :=
  List.foldlM_append

end Lexer

/-- The tokens of a source text. -/
def lex (source : String) : Except LexError (List Token) :=
  (Lexer.read {} source.toList).bind Lexer.finish

end Token

end Sigil
