import Sigil.Node.Construct
import Sigil.Token

/-!
# Reading trees

The reader takes tokens one at a time and keeps a stack of the constructs that are open, innermost
first. A key, or a word in head position, opens a call, which takes everything up to the end of the
line or of the group around it. A bracket opens a group. When a construct ends, its node is handed
to the construct around it, or becomes a statement of the program.

Faults do not stop the reader. A group that lacks its bracket ends where a group around it ends, and
a mapping drops the pair of a key that is no name, so there is always a tree. Only a closing bracket
that no open group could have opened before it ends the program.
-/

namespace Sigil

/-- Where the next token stands. At the head of a line or scope a word names what is called; a key
of a mapping is no more than a name. -/
inductive Place where
  | head
  | inner
  | key
  deriving DecidableEq

/-- The reader between two tokens. Finished statements and faults are newest first. -/
structure Reader where
  stack : List Construct := []
  /-- Whether the top level is at the head of a line. -/
  head : Bool := true
  nodes : List Node := []
  errors : List ParseError := []

/-- What becomes of an open construct when the reader goes outwards: it stays open, or it ends with
the given faults and the constructs around it are looked at too (`outwards`) or not. -/
inductive Exit where
  | stay
  | finish (faults : List ParseError) (outwards : Bool)

namespace Reader

def fault (r : Reader) (e : ParseError) : Reader :=
  { r with errors := e :: r.errors }

def push (r : Reader) (c : Construct) : Reader :=
  { r with stack := c :: r.stack }

/-- Hands a node to the innermost construct or, outside all of them, to the program. -/
def deliver (r : Reader) (n : Node) : Reader :=
  match r.stack with
  | [] => { r with nodes := n :: r.nodes, head := false }
  | c :: rest => { r with stack := c.add n :: rest, errors := c.dropped ++ r.errors }

/-- Goes outwards over the open constructs, ending those that `exit` says to end. `node?` is the
node of the construct that has just ended inside the first of them. -/
def leave (exit : Construct → List Construct → List ParseError → Exit) (r : Reader) :
    List Construct → Option Node → Reader
  | [], none => { r with stack := [] }
  | [], some n => { r with stack := [] }.deliver n
  | c :: rest, node? =>
    let inner := match node? with
      | none => c
      | some n => c.add n
    let errors := match node? with
      | none => r.errors
      | some _ => c.dropped ++ r.errors
    match exit inner rest errors with
    | .stay => { r with stack := inner :: rest, errors }
    | .finish faults outwards =>
      let r := { r with errors := inner.lacking ++ (faults ++ (inner.dropped ++ errors)) }
      if outwards then r.leave exit rest (some inner.node)
      else { r with stack := rest }.deliver inner.node

/-- Calls end, and the innermost group stays. -/
def callsExit (c : Construct) (_ : List Construct) (_ : List ParseError) : Exit :=
  if c.group?.isNone then .finish [] true else .stay

/-- A closing bracket ends the innermost group. If it is not the bracket of that group but of one
around it, the group lacks its own and the next one is looked at. -/
def bracketExit (found : Group) (line : Nat) (c : Construct) (rest : List Construct)
    (_ : List ParseError) : Exit :=
  match c.group? with
  | none => .finish [] true
  | some g =>
    if g = found then .finish [] false
    else if rest.any (·.group? == some found) then .finish [.missingClosing g c.line] true
    else .finish [.mismatchedClosing found g line] false

def isUnclosed : ParseError → Bool
  | .unclosed .. => true
  | _ => false

/-- The end of the text ends everything, and only the innermost group is at fault. -/
def textExit (c : Construct) (_ : List Construct) (errors : List ParseError) : Exit :=
  match c.group? with
  | none => .finish [] true
  | some g => .finish (if errors.any isUnclosed then [] else [.unclosed g c.line]) true

def endCalls (r : Reader) : Reader :=
  r.leave callsExit r.stack none

def close (r : Reader) (found : Group) (line : Nat) : Reader :=
  r.leave (bracketExit found line) r.stack none

def endText (r : Reader) : Reader :=
  r.leave textExit r.stack none

/-- A new line puts a scope or the top level back into head position. -/
def breakLine (r : Reader) : Reader :=
  match r.stack with
  | [] => { r with head := true }
  | .scope line body _ :: rest => { r with stack := .scope line body true :: rest }
  | _ => r

def place (r : Reader) : Place :=
  match r.stack with
  | [] => if r.head then .head else .inner
  | .scope _ _ head :: _ => if head then .head else .inner
  | .mapping _ _ .key :: _ => .key
  | _ => .inner

/-- A mapping that waits for a key goes on to drop the pair. -/
def refuseKey (r : Reader) (slot : Slot) : Reader :=
  match r.stack with
  | .mapping line pairs .key :: rest => { r with stack := .mapping line pairs slot :: rest }
  | _ => r

def booleanWord? (name : String) : Option Bool :=
  if name = Literal.booleanWord true then some true
  else if name = Literal.booleanWord false then some false
  else none

/-- Takes a word that is no key of a mapping. -/
def word (r : Reader) (name : String) (line : Nat) : Reader :=
  match booleanWord? name with
  | some b => r.deliver (.literal (.boolean b) line)
  | none =>
    if r.place = .head then r.push (.call name line [])
    else r.deliver (.reference name line)

/-- Takes one token. -/
def step (r : Reader) (t : Token) : Reader :=
  match t.kind with
  | .newline => r.endCalls.breakLine
  | .closer g => r.close g t.line
  | .opener g => (r.refuseKey (.droppedKey t.text t.line)).push (.ofGroup g t.line)
  | .string s => r.deliver (.literal (.string s) t.line)
  | .number x =>
    if r.place = .key then r.refuseKey (.droppedValue t.text t.line)
    else r.deliver (.literal (.number x) t.line)
  | .key name =>
    if r.place = .key then r.deliver (.reference name t.line)
    else r.push (.call name t.line [])
  | .word name =>
    if r.place = .key then r.deliver (.reference name t.line)
    else r.word name t.line

/-- Whether a group is open. -/
def inGroup (r : Reader) : Bool :=
  r.stack.any (·.group?.isSome)

/-- Takes tokens up to a closing bracket outside all groups, which stays in front. -/
def read (r : Reader) : List Token → Reader × List Token
  | [] => (r.endText, [])
  | t :: ts =>
    match t.kind with
    | .closer g =>
      if r.inGroup then (r.step t).read ts
      else (r.endCalls.fault (.unexpectedClosing g t.line), t :: ts)
    | _ => (r.step t).read ts

/-- Takes the tokens of one node. A call outside all groups ends before the token that ends it, and
a closing bracket where a node should begin is taken. -/
def readNode (r : Reader) : List Token → Reader × List Token
  | [] => (r.endText, [])
  | t :: ts =>
    if !r.nodes.isEmpty then (r, t :: ts)
    else if r.inGroup then (r.step t).readNode ts
    else
      match t.kind, r.stack with
      | .newline, [] => r.readNode ts
      | .newline, _ => (r.endCalls, t :: ts)
      | .closer g, [] => (r.fault (.unexpectedClosing g t.line), ts)
      | .closer _, _ => (r.endCalls, t :: ts)
      | _, _ => (r.step t).readNode ts

end Reader

/-- Tokens that are still to be read, and the faults found before them, newest first. -/
structure Cursor where
  tokens : List Token
  errors : List ParseError := []

namespace Cursor

/-- Reads one node, if there is one. `head` says whether it stands in head position. -/
def node (c : Cursor) (head : Bool) : Option Node × Cursor :=
  let (r, tokens) := Reader.readNode { head, errors := c.errors } c.tokens
  (r.nodes.head?, { tokens, errors := r.errors })

/-- Reads the statements of a program. -/
def program (c : Cursor) : List Node × Cursor :=
  let (r, tokens) := Reader.read { errors := c.errors } c.tokens
  (r.nodes.reverse, { tokens, errors := r.errors })

end Cursor

/-- The statements that tokens spell, and what is wrong with them in the order it was found. -/
def parse (tokens : List Token) : List Node × List ParseError :=
  let (statements, c) := Cursor.program { tokens }
  (statements, c.errors.reverse)

end Sigil
