import Sigil.Proofs.Likeness

/-!
# Equality with the sides exchanged, and with itself

Mappings are compared by looking up the entries of the first in the second, and numbers by the
rules for doubles. Still, equality does not depend on the order of its sides, as long as no mapping
has a key twice (`beq_comm_of_distinctKeys`), and a value equals itself unless NaN occurs in it, at
whatever depth (`beq_self_iff`).
-/

namespace Sigil

namespace Value

mutual

/-- The numbers that occur in a value, at whatever depth. -/
def numbers : Value → List Float
  | number x => [x]
  | collection items => itemNumbers items
  | mapping entries => entryNumbers entries
  | string _ | boolean _ | operator _ | nothing => []

def itemNumbers : List Value → List Float
  | [] => []
  | v :: vs => v.numbers ++ itemNumbers vs

def entryNumbers : List (String × Value) → List Float
  | [] => []
  | (_, v) :: entries => v.numbers ++ entryNumbers entries

end

/-- No number in a value is NaN. -/
def NaNFree (v : Value) : Prop :=
  ∀ x ∈ v.numbers, x.isNaN = false

theorem nanFree_number {x : Float} : (number x).NaNFree ↔ x.isNaN = false := by
  simp [NaNFree, numbers]

theorem nanFree_collection {items : List Value} :
    (collection items).NaNFree ↔ ∀ v ∈ items, v.NaNFree := by
  unfold NaNFree
  rw [numbers]
  induction items with
  | nil => simp [itemNumbers]
  | cons v items ih => rw [itemNumbers, List.forall_mem_append, ih, List.forall_mem_cons]

theorem nanFree_mapping {entries : List (String × Value)} :
    (mapping entries).NaNFree ↔ ∀ p ∈ entries, p.2.NaNFree := by
  unfold NaNFree
  rw [numbers]
  induction entries with
  | nil => simp [entryNumbers]
  | cons p entries ih => rw [entryNumbers, List.forall_mem_append, ih, List.forall_mem_cons]

theorem beq_collection_self {items : List Value} :
    (collection items == collection items) = true ↔ ∀ v ∈ items, (v == v) = true := by
  rw [beq_collection, List.zip_eq_zipWith, List.zipWith_self, List.forall_mem_map]
  exact and_iff_right rfl

theorem beq_mapping_self {entries : List (String × Value)} (h : (Table.names entries).Nodup) :
    (mapping entries == mapping entries) = true ↔ ∀ p ∈ entries, (p.2 == p.2) = true := by
  have found p (hp : p ∈ entries) := get?_eq_some_of_mem h hp
  rw [beq_mapping]
  constructor
  · rintro ⟨-, -, same⟩ p hp
    exact same p hp p.2 (found p hp)
  · intro same
    refine ⟨rfl, fun p hp => by rw [found p hp]; rfl, fun p hp y hy => ?_⟩
    rw [found p hp] at hy
    cases hy
    exact same p hp

theorem beq_comm_of_distinctKeys {v w : Value} (hv : v.distinctKeys = true)
    (hw : w.distinctKeys = true) : (v == w) = (w == v) :=
  Bool.eq_iff_iff.2 ⟨beq_symm hv hw, beq_symm hw hv⟩

/-- A value equals itself if and only if all of its numbers do. -/
theorem beq_self_iff {v : Value} (h : v.distinctKeys = true) : (v == v) = true ↔ v.NaNFree := by
  induction v using Value.induction with
  | number x =>
    rw [nanFree_number, Float.isNaN_eq_decide_eq_nan, decide_eq_false_iff_not]
    exact Float.beq_self_iff
  | string s => exact iff_of_true (beq_self_eq_true s) (List.forall_mem_nil _)
  | boolean b => exact iff_of_true (beq_self_eq_true b) (List.forall_mem_nil _)
  | collection items ih =>
    rw [distinctKeys_collection] at h
    rw [beq_collection_self, nanFree_collection]
    exact forall₂_congr fun v hv => ih v hv (h v hv)
  | mapping entries ih =>
    rw [distinctKeys_mapping] at h
    rw [beq_mapping_self h.1, nanFree_mapping]
    exact forall₂_congr fun p hp => ih p hp (h.2 p hp)
  | operator op =>
    refine iff_of_true ?_ (List.forall_mem_nil _)
    cases op with
    | builtin b => exact beq_self_eq_true b
    | function f => exact beq_self_eq_true f.id
  | nothing => exact iff_of_true rfl (List.forall_mem_nil _)

end Value

/-- **Equality is symmetric, and reflexive off NaN**: for values in which no mapping has a key
twice, it does not matter which of two comes first, and a value equals itself if and only if no
number in it, inside collections and mappings too, is NaN. -/
theorem equality_symmetric_reflexive :
    (∀ v w : Value, v.distinctKeys = true → w.distinctKeys = true → (v == w) = (w == v)) ∧
    ∀ v : Value, v.distinctKeys = true →
      ((v == v) = true ↔ ∀ x ∈ v.numbers, x.isNaN = false) :=
  ⟨fun _ _ hv hw => Value.beq_comm_of_distinctKeys hv hw, fun _ hv => Value.beq_self_iff hv⟩

/-- Two mappings with their entries in another order, down to the signs of a zero, with a text that
is a string in the one and characters in the other; and a mapping with NaN deep in it. -/
theorem equality_symmetric_reflexive_nested :
    let f : Value := .operator (.function ⟨0, ["x"], .literal (.number Float.nan) 1⟩)
    let inner (x y : Float) : Value := .mapping [("x", .number x), ("y", .number y)]
    let v : Value := .mapping [("text", .string "ab"), ("f", f), ("in", .collection [inner 0 1])]
    let w : Value := .mapping [
      ("in", .collection [.mapping [("y", .number 1), ("x", .number (-0))]]),
      ("text", .collection [.string "a", .string "b"]), ("f", f)]
    let u : Value := .mapping [("in", .collection [inner 0 Float.nan])]
    (v.distinctKeys = true ∧ w.distinctKeys = true ∧ u.distinctKeys = true) ∧
    ((v == w) = true ∧ (v == w) = (w == v)) ∧
    ((v == v) = true ↔ ∀ x ∈ v.numbers, x.isNaN = false) ∧
    ((u == u) = true ↔ ∀ x ∈ u.numbers, x.isNaN = false) ∧
    v.numbers = [0, 1] ∧ u.numbers = [0, Float.nan] := by
  intro f inner v w u
  have hv : v.distinctKeys = true := by decide +kernel
  have hw : w.distinctKeys = true := by decide +kernel
  have hu : u.distinctKeys = true := by decide +kernel
  obtain ⟨symmetric, reflexive⟩ := equality_symmetric_reflexive
  exact ⟨⟨hv, hw, hu⟩, ⟨by decide +kernel, symmetric v w hv hw⟩, reflexive v hv, reflexive u hu,
    rfl, rfl⟩

end Sigil
