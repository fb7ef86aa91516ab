import Sigil.Diagnostic
import Sigil.Value.Equality

/-!
# Environments

A stack of frames that is never empty. Names are looked up from the innermost frame outwards. A name
that starts with an underscore is bound once in a frame and never changed.
-/

namespace Sigil

abbrev Frame := Table Value

/-- The innermost frame and the frames around it, the nearest first. -/
structure Environment where
  inner : Frame
  outer : List Frame

def isReadOnly (name : String) : Bool :=
  name.toList.head? == some '_'

namespace Environment

/-- One empty frame. -/
def empty : Environment :=
  ⟨[], []⟩

/-- The frame that binds every builtin operator to its symbol. -/
def builtins : Frame :=
  Builtin.all.map fun b => (b.symbol, .operator (.builtin b))

/-- The builtin operators, and an empty frame for the names of a program. -/
def initial : Environment :=
  ⟨[], [builtins]⟩

def frames (e : Environment) : List Frame :=
  e.inner :: e.outer

/-- The number of frames. -/
def depth (e : Environment) : Nat :=
  e.frames.length

def push (e : Environment) : Environment :=
  ⟨[], e.frames⟩

/-- Drops the innermost frame, unless it is the only one. -/
def pop (e : Environment) : Environment :=
  match e.outer with
  | [] => e
  | frame :: rest => ⟨frame, rest⟩

@[simp] theorem pop_push (e : Environment) : e.push.pop = e := rfl

/-- The entry of the nearest frame that binds a name. -/
def find? (name : String) : List Frame → Option Value
  | [] => none
  | frame :: rest =>
    match Table.get? name frame with
    | some v => some v
    | none => find? name rest

def get? (e : Environment) (name : String) : Option Value :=
  find? name e.frames

def lookup (e : Environment) (name : String) : Except EvalError Value :=
  match e.get? name with
  | some v => .ok v
  | none => .error (.notFound name)

/-- Binds a name in the innermost frame, whatever it was bound to. -/
def set (e : Environment) (name : String) (v : Value) : Environment :=
  { e with inner := Table.insert name v e.inner }

@[simp] theorem get?_set_self (e : Environment) (name : String) (v : Value) :
    (e.set name v).get? name = some v := by
  simp [get?, frames, set, find?]

theorem get?_set_of_ne {name other : String} (h : other ≠ name) (e : Environment) (v : Value) :
    (e.set name v).get? other = e.get? other := by
  simp [get?, frames, set, find?, Table.get?_insert_of_ne h]

@[simp] theorem depth_set (e : Environment) (name : String) (v : Value) :
    (e.set name v).depth = e.depth := rfl

@[simp] theorem depth_push (e : Environment) : e.push.depth = e.depth + 1 := rfl

/-- Binds a name in the innermost frame. -/
def define (e : Environment) (name : String) (v : Value) : Except EvalError Unit × Environment :=
  if isReadOnly name && (Table.get? name e.inner).isSome then (.error (.readOnly name), e)
  else (.ok (), e.set name v)

/-- Replaces the entry of the nearest frame that binds a name, and gives the one before. -/
def replace? (name : String) (v : Value) : List Frame → Option (Value × List Frame)
  | [] => none
  | frame :: rest =>
    match Table.get? name frame with
    | some old => some (old, Table.insert name v frame :: rest)
    | none => (replace? name v rest).map fun (old, rest) => (old, frame :: rest)

/-- Changes the nearest binding of a name, and gives the value it had before. -/
def assign (e : Environment) (name : String) (v : Value) :
    Except EvalError Value × Environment :=
  if isReadOnly name then (.error (.readOnly name), e)
  else
    match Table.get? name e.inner with
    | some old => (.ok old, e.set name v)
    | none =>
      match replace? name v e.outer with
      | some (old, outer) => (.ok old, { e with outer })
      | none => (.error (.undeclared name), e)

def equalFrames : List Frame → List Frame → Bool
  | [], [] => true
  | f :: fs, g :: gs => f.length == g.length && Value.equalEntries f g && equalFrames fs gs
  | _, _ => false

/-- Replacing reaches a binding exactly where looking up finds one, and gives that one. -/
theorem map_fst_replace? (name : String) (v : Value) (fs : List Frame) :
    (replace? name v fs).map (·.1) = find? name fs := by
  induction fs with
  | nil => rfl
  | cons f fs ih =>
    cases h : Table.get? name f with
    | some old => simp [replace?, find?, h]
    | none => simp [replace?, find?, h, ← ih, Function.comp_def]

/-- Whether two stacks of frames bind the same names to equal values, frame by frame. -/
def equal (d e : Environment) : Bool :=
  equalFrames d.frames e.frames

end Environment

end Sigil
