import Sigil.Node.Error
import Sigil.Token.Lexer
import Sigil.Value

/-!
# Diagnostics

Everything that can go wrong while a program is read and evaluated. Evaluation never fails: it
reports and goes on with a value in place of the one it could not compute.
-/

namespace Sigil

/-- What evaluation reports. -/
inductive EvalError where
  | notFound (name : String)
  | notAFunction (name : String)
  | notCallable (kind : Kind)
  | undeclared (name : String)
  | readOnly (name : String)
  | invalidName (op : Builtin)
  | typeMismatch (op : Builtin) (left right : Kind)
  | unsupportedOperands (op : Builtin) (left right : Kind)
  | unsupportedArgument (op : Builtin) (kind : Kind)
  | wrongArity (op : Builtin) (got : Nat) (want : Arity)
  | mixedCollection (first other : Kind)
  | invalidKey (found : String)
  | invalidRange (first last step : Float)
  | depthLimit (limit : Nat)
  deriving BEq

namespace EvalError

/-- Two operands that do not go together: of one kind that `op` knows nothing about, or of two. -/
def operands (op : Builtin) (left right : Kind) : EvalError :=
  if left = right then unsupportedOperands op left right else typeMismatch op left right

/-- Faults that are shown as errors; all others are warnings. -/
def isSevere : EvalError → Bool
  | readOnly _ | depthLimit _ => true
  | _ => false

def message : EvalError → String
  | notFound name => "couldn't find '" ++ name ++ "', returning nothing instead"
  | notAFunction name => "couldn't find function '" ++ name ++ "'"
  | notCallable kind => "not a function: " ++ kind.name
  | undeclared name => "couldn't modify '" ++ name ++ "' because it wasn't declared"
  | readOnly name => "words starting with '_' can't be modified: '" ++ name ++ "'"
  | invalidName op => "invalid name for '" ++ op.symbol ++ "'"
  | typeMismatch op left right =>
    "type mismatch at function '" ++ op.symbol ++ "': " ++ left.name ++ " and " ++ right.name
  | unsupportedOperands op left right =>
    "unknown operator: " ++ left.name ++ " " ++ op.symbol ++ " " ++ right.name
  | unsupportedArgument op kind =>
    "argument to '" ++ op.symbol ++ "' not supported, got " ++ kind.name
  | wrongArity op got want =>
    "wrong number of arguments to '" ++ op.symbol ++ "'. got=" ++ toString got ++ ", want=" ++
      want.text
  | mixedCollection first other =>
    "collections should store only one type of value, found " ++ first.name ++ " and " ++
      other.name
  | invalidKey found => "expected key, word or string for mapping assignment, got " ++ found
  | invalidRange first last step =>
    "range '..' can't go from " ++ Number.plain first ++ " to " ++ Number.plain last ++ " by " ++
      Number.plain step
  | depthLimit limit =>
    "maximum nesting depth of " ++ toString limit ++ " exceeded, stopping evaluation"

end EvalError

/-- A fault of a program, and the line it is at. -/
inductive Diagnostic where
  | lex (error : LexError)
  | parse (error : ParseError)
  | eval (error : EvalError) (line : Nat)
  deriving BEq

inductive Severity where
  | error
  | warning
  deriving DecidableEq

def Severity.mark : Severity → String
  | error => "[!] "
  | warning => "[*] "

namespace Diagnostic

def line : Diagnostic → Nat
  | lex e => e.line
  | parse e => e.line
  | eval _ line => line

def severity : Diagnostic → Severity
  | lex _ => .error
  | parse e => if e.isFatal then .error else .warning
  | eval e _ => if e.isSevere then .error else .warning

def text : Diagnostic → String
  | lex e => e.message
  | parse e => e.message
  | eval e line => e.message ++ " (line " ++ toString line ++ ")"

/-- The text that a user is shown. -/
def message (d : Diagnostic) : String :=
  d.severity.mark ++ d.text

end Diagnostic

/-- What a run does that can be seen from outside. -/
inductive Event where
  | print (text : String)
  | report (diagnostic : Diagnostic)

namespace Event

def printed? : Event → Option String
  | print text => some text
  | report _ => none

def diagnostic? : Event → Option Diagnostic
  | print _ => none
  | report d => some d

end Event

end Sigil
