import Sigil.Proofs.Fuel
import Sigil.Proofs.Likeness
import Sigil.Random

/-!
# Strings and their characters

A string equals a collection if and only if the collection holds its characters, one string for
each, and is not empty (`beq_characters_iff`). Equality and printing go by the text of the
collection; the length, the truth and the entries of the two are each found by a rule of its own.
`Value.Interchangeable` says that these rules agree, and that no loop tells the two apart.

A loop needs its source only for the entries, so sources with the same effects and the same entries
make the same loop (`Operator.iterate_congr`). The fuel that two sources take may differ, and more
fuel than a loop needs does not change it (`call_mono`).
-/

namespace Sigil

section

variable [Generator]

/-- Evaluation of the node ends, with some fuel, and gives `v`. -/
def Node.EvaluatesTo (n : Node) (limit : Nat) (m : Machine) (v : Value) (m' : Machine) : Prop :=
  ∃ fuel, evaluate limit fuel n m = some (v, m')

/-- The call of the operator ends, with some fuel, and gives `v`. -/
def Operator.CallsTo (op : Operator) (limit : Nat) (args : List Node) (line : Nat) (m : Machine)
    (v : Value) (m' : Machine) : Prop :=
  ∃ fuel, op.call (evaluate limit fuel) fuel args line m = some (v, m')

namespace Operator

/-- The arguments of a loop over entries, where the value need not have a name. -/
def loopArgs (source index : Node) (value? : Option Node) (body : Node) : List Node :=
  source :: index :: (value?.toList ++ [body])

theorem loop_loopArgs (ev : Node → Eval Value) (fuel line : Nat) (source index : Node)
    (value? : Option Node) (body : Node) :
    (builtin .loop).call ev fuel (loopArgs source index value? body) line =
      iterate ev line source index value? body := by
  cases value? <;> rfl

/-- The source of a loop matters by its entries only. -/
theorem iterate_congr {ev : Node → Eval Value} {source source' : Node} {v w : Value}
    {m m₁ : Machine} (hv : ev source m = some (v, m₁)) (hw : ev source' m = some (w, m₁))
    {es : List (Value × Value)} (he : v.entries? = some es) (he' : w.entries? = some es)
    (line line' : Nat) (index : Node) (value? : Option Node) (body : Node) :
    iterate ev line source index value? body m =
      iterate ev line' source' index value? body m := by
  unfold iterate
  simp only [bind, StateT.bind, hv, hw, Option.bind_some, he, he']

/-- Loops over sources with the same effects and the same entries come to the same. -/
theorem CallsTo.loop_of_entries {limit : Nat} {source source' : Node} {v w u : Value}
    {m m₁ m' : Machine} {es : List (Value × Value)} (he : v.entries? = some es)
    (he' : w.entries? = some es) (hv : source.EvaluatesTo limit m v m₁)
    (hw : source'.EvaluatesTo limit m w m₁) {index : Node} {value? : Option Node} {body : Node}
    {line : Nat} (line' : Nat)
    (h : (builtin .loop).CallsTo limit (loopArgs source index value? body) line m u m') :
    (builtin .loop).CallsTo limit (loopArgs source' index value? body) line' m u m' := by
  obtain ⟨k, h⟩ := h
  obtain ⟨f, hv⟩ := hv
  obtain ⟨f', hw⟩ := hw
  -- the fuel of all three is enough for each of them
  have looped := call_mono (by omega : k ≤ k + f + f') h
  have first := evaluate_mono (by omega : f ≤ k + f + f') hv
  have second := evaluate_mono (by omega : f' ≤ k + f + f') hw
  refine ⟨k + f + f', ?_⟩
  rw [loop_loopArgs] at looped ⊢
  rw [← looped, iterate_congr first second he he' line line']

end Operator

end

namespace Value

/-- Two values that printing, length, truth and loops cannot tell apart. -/
structure Interchangeable [Generator] (v w : Value) : Prop where
  formatAt : ∀ level, v.formatAt level = w.formatAt level
  format : v.format = w.format
  length : v.length? = w.length?
  truth : v.truth = w.truth
  entries : v.entries? = w.entries?
  loop : ∀ {limit : Nat} {source source' : Node} {m m₁ : Machine},
    source.EvaluatesTo limit m v m₁ → source'.EvaluatesTo limit m w m₁ →
    ∀ (index : Node) (value? : Option Node) (body : Node) (line line' : Nat) (u : Value)
      (m' : Machine),
      (Operator.builtin .loop).CallsTo limit (Operator.loopArgs source index value? body) line m u
          m' ↔
        (Operator.builtin .loop).CallsTo limit (Operator.loopArgs source' index value? body) line'
          m u m'

/-- The characters of a string, as strings. -/
def characters (s : String) : List Value :=
  s.toList.map letter

theorem beq_characters_iff {s : String} {items : List Value} :
    (string s == collection items) = true ↔ items ≠ [] ∧ characters s = items :=
  beq_string_collection.trans asText?_collection_eq_some_iff

theorem characters_beq_iff {s : String} {items : List Value} :
    (collection items == string s) = true ↔ items ≠ [] ∧ characters s = items :=
  beq_collection_string.trans asText?_collection_eq_some_iff

theorem characters_ne_nil_iff {s : String} : characters s ≠ [] ↔ s ≠ "" := by
  simp [characters]

theorem entries?_characters (s : String) :
    (string s).entries? = (collection (characters s)).entries? := by
  have each : (fun c : Char => string c.toString) = letter :=
    funext fun c => congrArg string String.singleton_eq_ofList
  rw [entries?, entries?, each, characters]

theorem formatAt_characters {s : String} (hs : characters s ≠ []) (level : Nat) :
    (collection (characters s)).formatAt level = s := by
  rw [formatAt, asText?_collection_eq_some_iff.2 ⟨hs, rfl⟩]

theorem interchangeable_characters [Generator] {s : String} (hs : characters s ≠ []) :
    Interchangeable (string s) (collection (characters s)) where
  formatAt level := by rw [formatAt_characters hs, Value.formatAt]
  format := (formatAt_characters hs 0).symm
  length := by rw [length?, length?, characters, List.length_map, String.length_toList]
  truth := by
    have text : s.isEmpty = false := by simpa [characters] using hs
    rw [truth, text]
    rfl
  entries := entries?_characters s
  loop {limit source source' m m₁} hv hw index value? body line line' u m' :=
    ⟨.loop_of_entries rfl (entries?_characters s).symm hv hw line',
      .loop_of_entries (entries?_characters s).symm rfl hw hv line⟩

end Value

open Value in
/-- **A string and its characters are interchangeable**: a collection that equals a string, in
either order, is not empty and holds strings of one character, and printing, length, truth and
loops do not tell it from the string. Every string that is not empty equals the collection of its
characters. -/
theorem string_interchangeable [Generator] (s : String) :
    (∀ items, (string s == collection items) = true ∨ (collection items == string s) = true →
      items ≠ [] ∧ (∀ v ∈ items, ∃ c, v = letter c) ∧
        Interchangeable (string s) (collection items)) ∧
    (s ≠ "" → (string s == collection (characters s)) = true ∧
      (collection (characters s) == string s) = true) := by
  constructor
  · intro items h
    obtain ⟨nonempty, rfl⟩ := h.elim beq_characters_iff.1 characters_beq_iff.1
    refine ⟨nonempty, fun v hv => ?_, interchangeable_characters nonempty⟩
    obtain ⟨c, -, rfl⟩ := List.mem_map.1 hv
    exact ⟨c, rfl⟩
  · intro hs
    have nonempty := characters_ne_nil_iff.2 hs
    exact ⟨beq_characters_iff.2 ⟨nonempty, rfl⟩, characters_beq_iff.2 ⟨nonempty, rfl⟩⟩

open scoped Sigil.Random

/-- A loop that prints the characters of a text, and the same loop over a collection of them. -/
theorem string_interchangeable_loop :
    let m := (({} : Config).interpreter (Generator.ofSeed 0)).machine []
    let m' := { m with trace := [.print "é", .print "a"] }
    let text : Value := .string "aé"
    let chars : Value := .collection [.string "a", .string "é"]
    let source := Node.literal (.string "aé") 1
    let source' := Node.collection [.literal (.string "a") 2, .literal (.string "é") 2] 2
    let loop (source : Node) := Operator.loopArgs source (.reference "i" 3)
      (some (.reference "v" 3)) (.call (.reference ";" 3) [.reference "v" 3] 3)
    "aé" ≠ "" ∧ (text == .collection (Value.characters "aé")) = true ∧
    (text == chars) = true ∧ text.Interchangeable chars ∧
    source.EvaluatesTo 9 m text m ∧ source'.EvaluatesTo 9 m chars m ∧
    (Operator.builtin .loop).CallsTo 9 (loop source) 1 m (.string "é") m' ∧
    (Operator.builtin .loop).CallsTo 9 (loop source') 2 m (.string "é") m' := by
  intro m m' text chars source source' loop
  have nonempty : "aé" ≠ "" := by decide
  have equal : (text == chars) = true := by decide +kernel
  have whole := ((string_interchangeable "aé").1 _ (.inl equal)).2.2
  have first : source.EvaluatesTo 9 m text m := ⟨9, rfl⟩
  have second : source'.EvaluatesTo 9 m chars m := ⟨9, rfl⟩
  have looped : (Operator.builtin .loop).CallsTo 9 (loop source) 1 m (.string "é") m' := ⟨9, rfl⟩
  exact ⟨nonempty, ((string_interchangeable "aé").2 nonempty).1, equal, whole, first, second,
    looped, (whole.loop first second _ _ _ 1 2 _ _).1 looped⟩

end Sigil
