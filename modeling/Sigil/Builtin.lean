/-!
# Builtin operators

The thirty-one operators that every program starts with. Nine fold their arguments, six compare
neighbouring ones, and the others have a rule of their own.
-/

namespace Sigil

/-- An operator that folds its arguments. -/
inductive Fold where
  | add
  | subtract
  | multiply
  | divide
  | remainder
  | power
  | floorDivide
  | max
  | min
  deriving DecidableEq, Repr

/-- A relation that is tested on neighbouring arguments. -/
inductive Relation where
  | equal
  | notEqual
  | less
  | greater
  | lessEqual
  | greaterEqual
  deriving DecidableEq, Repr

inductive Builtin where
  | print
  | choose
  | loop
  | random
  | define
  | assign
  | function
  | increment
  | decrement
  | fold (op : Fold)
  | magnitude
  | sign
  | compare (rel : Relation)
  | not
  | every
  | any
  | length
  | range
  deriving DecidableEq, Repr

def Fold.symbol : Fold → String
  | add => "+"
  | subtract => "-"
  | multiply => "*"
  | divide => "/"
  | remainder => "%"
  | power => "**"
  | floorDivide => "//"
  | max => "|^"
  | min => "|_"

def Relation.symbol : Relation → String
  | equal => "="
  | notEqual => "!="
  | less => "<"
  | greater => ">"
  | lessEqual => "<="
  | greaterEqual => ">="

namespace Builtin

/-- The name under which an operator is bound. -/
def symbol : Builtin → String
  | print => ";"
  | choose => "?"
  | loop => "@"
  | random => "??"
  | define => ":"
  | assign => "."
  | function => "~"
  | increment => "++"
  | decrement => "--"
  | fold op => op.symbol
  | magnitude => "||"
  | sign => "+-"
  | compare rel => rel.symbol
  | not => "!"
  | every => "&"
  | any => "|"
  | length => "#"
  | range => ".."

def all : List Builtin :=
  [print, choose, loop, random, define, assign, function, increment, decrement,
    fold .add, fold .subtract, fold .multiply, fold .divide, fold .remainder, fold .power,
    fold .floorDivide, magnitude, fold .max, fold .min, sign,
    compare .equal, compare .notEqual, compare .less, compare .greater, compare .lessEqual,
    compare .greaterEqual, not, every, any, length, range]

theorem mem_all (b : Builtin) : b ∈ all := by
  cases b <;> first | decide | (rename_i x; cases x <;> decide)

/-- The operator that a symbol names. -/
def ofSymbol? (s : String) : Option Builtin :=
  all.find? (·.symbol = s)

theorem ofSymbol?_symbol (b : Builtin) : ofSymbol? b.symbol = some b := by
  cases b <;> first | decide | (rename_i x; cases x <;> decide)

end Builtin

/-- The numbers of arguments that an operator takes. -/
inductive Arity where
  | exactly (n : Nat)
  | atLeast (n : Nat)
  | between (least most : Nat)
  deriving DecidableEq, Repr

def Arity.text : Arity → String
  | exactly n => toString n
  | atLeast n => "at least " ++ toString n
  | between least most => toString least ++ " to " ++ toString most

end Sigil
