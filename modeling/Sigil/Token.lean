import Sigil.Decimal.Text
import Sigil.Group

/-!
# Tokens

What source text is made of once blanks and comments are gone. A key and a word are both names; a
key starts with a digit or a symbol and always calls what it names, a word only at the head of a
line or scope.
-/

namespace Sigil

namespace Token

inductive Kind where
  | newline
  | opener (group : Group)
  | closer (group : Group)
  | string (text : String)
  | number (value : Float)
  | key (name : String)
  | word (name : String)
  deriving DecidableEq

/-- The text of a token in messages. Strings stand between quotes as they are. -/
def Kind.text : Kind → String
  | newline => "\\n"
  | opener g => g.opening.toString
  | closer g => g.closing.toString
  | string s => "'" ++ s ++ "'"
  | number x => Number.plain x
  | key name => name
  | word name => name

end Token

structure Token where
  kind : Token.Kind
  line : Nat
  deriving DecidableEq

def Token.text (t : Token) : String :=
  t.kind.text

end Sigil
