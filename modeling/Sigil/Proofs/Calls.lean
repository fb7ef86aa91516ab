import Sigil.Proofs.BuiltinFrame

/-!
# What programs call

`n.calls` are the calls in a tree that are headed by a name, with the number of their arguments.
Functions are values and can be reached in many ways, by parameters and through collections, but
what they call is written in their bodies. So a condition on the calls of a program and of the
functions in its environment holds of everything that an evaluation comes to
(`Vocabulary.calling`), and the builtin operators it calls are among the calls that are written.
-/

namespace Sigil

namespace Node

mutual

/-- The calls headed by a name that are in a node: the name, and the number of arguments. -/
def calls : Node → List (String × Nat)
  | literal _ _ | reference _ _ => []
  | call head args _ =>
    head.name?.toList.map (fun name => (name, args.length)) ++ head.calls ++ allCalls args
  | scope body _ => allCalls body
  | collection items _ => allCalls items
  | mapping pairs _ => entryCalls pairs

def allCalls : List Node → List (String × Nat)
  | [] => []
  | n :: ns => n.calls ++ allCalls ns

def entryCalls : List (Node × Node) → List (String × Nat)
  | [] => []
  | (_, value) :: pairs => value.calls ++ entryCalls pairs

end

theorem mem_allCalls {c : String × Nat} {ns : List Node} :
    c ∈ allCalls ns ↔ ∃ n ∈ ns, c ∈ n.calls := by
  induction ns with
  | nil => simp [allCalls]
  | cons n ns ih => simp [allCalls, ih]

theorem mem_entryCalls {c : String × Nat} {pairs : List (Node × Node)} :
    c ∈ entryCalls pairs ↔ ∃ p ∈ pairs, c ∈ p.2.calls := by
  induction pairs with
  | nil => simp [entryCalls]
  | cons p pairs ih => simp [entryCalls, ih]

/-- All calls in the node that are headed by a name satisfy `A`. -/
def Calls (A : String → Nat → Prop) (n : Node) : Prop :=
  ∀ c ∈ n.calls, A c.1 c.2

instance (A : String → Nat → Prop) [∀ s k, Decidable (A s k)] (n : Node) : Decidable (n.Calls A) :=
  inferInstanceAs (Decidable (∀ c ∈ n.calls, A c.1 c.2))

variable {A : String → Nat → Prop} {head : Node} {args : List Node} {line : Nat}

theorem Calls.named (h : (call head args line).Calls A) {s : String} (hs : head.name? = some s) :
    A s args.length :=
  h (s, args.length) (by simp [calls, hs])

theorem Calls.ofHead (h : (call head args line).Calls A) : head.Calls A :=
  fun c hc => h c (by simp [calls, hc])

theorem Calls.ofArg (h : (call head args line).Calls A) : ∀ n ∈ args, n.Calls A :=
  fun n hn c hc => h c (List.mem_append_right _ (mem_allCalls.2 ⟨n, hn, hc⟩))

end Node

/-! ## Functions within reach -/

def Operator.function? : Operator → Option Function
  | function f => some f
  | builtin _ => none

/-- The functions in a value, at any depth. -/
def Value.functions (v : Value) : List Function :=
  v.operators.filterMap Operator.function?

theorem Value.mem_functions {f : Function} {v : Value} :
    f ∈ v.functions ↔ .function f ∈ v.operators := by
  refine List.mem_filterMap.trans ⟨?_, fun h => ⟨_, h, rfl⟩⟩
  rintro ⟨op, ho, e⟩
  cases op with
  | builtin => cases e
  | function => cases e; exact ho

/-- The functions in the values that an environment binds. -/
def Environment.functions (e : Environment) : List Function :=
  e.frames.flatMap fun frame => frame.flatMap (·.2.functions)

theorem Environment.mem_functions {f : Function} {e : Environment} :
    f ∈ e.functions ↔ ∃ frame ∈ e.frames, ∃ p ∈ frame, f ∈ p.2.functions := by
  simp only [functions, List.mem_flatMap]

namespace Vocabulary

/-- What source text leads to whose calls satisfy `A`. -/
def calling (A : String → Nat → Prop) : Vocabulary where
  node n := source.node n ∧ n.Calls A
  name := source.name
  callee _ := True
  line _ := True
  fault e := e.isLimit = false
  builtin _ := False
  name_previous := source.name_previous
  fault_operator := EvalError.isLimit_of_ofOperator
  line_node _ := trivial
  name_reference h := source.name_reference h.1
  callee_head _ _ := trivial
  node_head h hn := ⟨source.node_head h.1 hn, h.2.ofHead⟩
  node_arg h n hn := ⟨source.node_arg h.1 n hn, h.2.ofArg n hn⟩
  node_statement h n hn :=
    ⟨source.node_statement h.1 n hn, fun c hc => h.2 c (Node.mem_allCalls.2 ⟨n, hn, hc⟩)⟩
  node_item h n hn :=
    ⟨source.node_item h.1 n hn, fun c hc => h.2 c (Node.mem_allCalls.2 ⟨n, hn, hc⟩)⟩
  line_key _ _ _ := trivial
  fault_key _ _ _ _ := rfl
  node_entry h p hp :=
    ⟨source.node_entry h.1 p hp, fun c hc => h.2 c (Node.mem_entryCalls.2 ⟨p, hp, hc⟩)⟩

variable {A : String → Nat → Prop}

theorem value_calling {v : Value} (hv : source.value v) (hf : ∀ f ∈ v.functions, f.body.Calls A) :
    (calling A).value v := by
  intro op ho
  cases op with
  | builtin => exact hv _ ho
  | function f => exact ⟨(hv _ ho).1, (hv _ ho).2, hf f (Value.mem_functions.2 ho)⟩

end Vocabulary

/-- Plain frames whose functions make calls with `A`. -/
theorem Environment.Plain.calling {A : String → Nat → Prop} {k : Nat} {e : Environment}
    (h : e.Plain Vocabulary.source.value k) (hf : ∀ f ∈ e.functions, f.body.Calls A) :
    e.Plain (Vocabulary.calling A).value k := by
  obtain ⟨gs, he, hl, hg⟩ := h
  refine ⟨gs, he, hl, fun g hm p hp => ?_⟩
  obtain ⟨word, hv⟩ := hg g hm p hp
  refine ⟨word, Vocabulary.value_calling hv fun f hfv => hf f (mem_functions.2 ⟨g, ?_, p, hp, hfv⟩)⟩
  rw [he]
  exact List.mem_append_left _ hm

end Sigil
