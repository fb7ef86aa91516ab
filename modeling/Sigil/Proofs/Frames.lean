import Sigil.Proofs.Transition
import Sigil.Random

/-!
# Frames

Evaluation leaves as many frames as it found. It may bind new names in the innermost frame; in the
frames around it, it can only change what names are bound to. `Machine.SameFrames` says this of the
machine before and after, together with the count of nodes under way.
-/

namespace Sigil

namespace Table

variable {α : Type}

theorem names_subset_insert (name : String) (entry : α) (t : Table α) :
    names t ⊆ names (insert name entry t) := by
  rw [names_insert]
  split
  · exact List.Subset.refl _
  · exact List.subset_append_left _ _

theorem names_insert_of_get? {name : String} {old : α} {t : Table α} (entry : α)
    (h : get? name t = some old) : names (insert name entry t) = names t := by
  have hm : name ∈ names t := isSome_get?_iff.1 (by rw [h]; rfl)
  rw [names_insert, if_pos hm]

end Table

namespace Environment

/-- The names that each frame binds, the innermost frame first. -/
def names (e : Environment) : List (List String) :=
  e.frames.map Table.names

theorem map_names_replace? {name : String} {v old : Value} {fs gs : List Frame}
    (h : replace? name v fs = some (old, gs)) : gs.map Table.names = fs.map Table.names := by
  induction fs generalizing gs with
  | nil => cases h
  | cons f fs ih =>
    unfold replace? at h
    split at h
    · next hf => cases h; simp [Table.names_insert_of_get? v hf]
    · obtain ⟨⟨_, gs'⟩, hg, e⟩ := Option.map_eq_some_iff.1 h
      cases e
      simp [ih hg]

theorem names_assign {e e' : Environment} {name : String} {v old : Value}
    (h : e.assign name v = (.ok old, e')) : e'.names = e.names :=
  map_names_replace? (assign_eq_ok h)

end Environment

section

variable [Generator]

namespace Machine

/-- The frames bind the same names as before, but for new names in the innermost one. -/
structure SameFrames (m m' : Machine) : Prop where
  depth : m'.depth = m.depth
  outer : m'.env.outer.map Table.names = m.env.outer.map Table.names
  inner : Table.names m.env.inner ⊆ Table.names m'.env.inner

theorem SameFrames.of_names {m m' : Machine} (hd : m'.depth = m.depth)
    (h : m'.env.names = m.env.names) : SameFrames m m' := by
  obtain ⟨hi, ho⟩ := List.cons.inj h
  exact ⟨hd, ho, by rw [hi]; exact List.Subset.refl _⟩

/-- Dropping a frame that was added leaves the frames as they were: nothing is left of what the
frame bound, and the frame under it could only be assigned to. -/
theorem SameFrames.pop {m m' : Machine} (h : SameFrames { m with env := m.env.push } m') :
    SameFrames m { m' with env := m'.env.pop } := by
  have ho : m'.env.outer.map Table.names = m.env.names := h.outer
  refine of_names h.depth ?_
  unfold Environment.pop
  split
  · next hn => rw [hn] at ho; cases ho
  · next hn => rw [hn] at ho; exact ho

theorem lawful_sameFrames : Lawful SameFrames where
  refl m := .of_names rfl rfl
  trans h₁ h₂ :=
    ⟨h₂.depth.trans h₁.depth, h₂.outer.trans h₁.outer, List.Subset.trans h₁.inner h₂.inner⟩
  report m e line _ := by unfold emit; split <;> exact .of_names rfl rfl
  print m text := by unfold emit; split <;> exact .of_names rfl rfl
  set m name v := ⟨rfl, rfl, Table.names_subset_insert name v m.env.inner⟩
  assign m _ _ _ _ h := .of_names rfl (Environment.names_assign h)
  draw m random := .of_names rfl rfl
  freshId m nextId := .of_names rfl rfl
  frame h := h.pop
  deeper h := ⟨by rw [h.depth]; exact Nat.add_sub_cancel .., h.outer, h.inner⟩
  exhaust m limit line _ := by unfold emit; split <;> exact .of_names rfl rfl

end Machine

/-- **Frame discipline**: an evaluation that ends, whatever the node, the machine and the limit,
leaves the number of frames and the depth as they were, binds the same names in all frames around
the innermost, and drops no name from the innermost. -/
theorem evaluate_sameFrames {limit fuel : Nat} {n : Node} {m m' : Machine} {v : Value}
    (h : evaluate limit fuel n m = some (v, m')) :
    m'.env.depth = m.env.depth ∧ m'.depth = m.depth ∧
      m'.env.outer.map Table.names = m.env.outer.map Table.names ∧
      Table.names m.env.inner ⊆ Table.names m'.env.inner := by
  have hs := Machine.lawful_sameFrames.evaluate h
  refine ⟨?_, hs.depth, hs.outer, hs.inner⟩
  have hl := congrArg List.length hs.outer
  simp only [List.length_map] at hl
  simp only [Environment.depth, Environment.frames, List.length_cons, hl]

end

open scoped Sigil.Random

/-- A function that calls itself in a scope, without end: the limit is reached inside five frames of
its own. -/
theorem evaluate_sameFrames_recursion :
    let f : Node := .call (.reference "~" 1) [.reference "x" 1,
      .scope [.call (.reference "f" 2) [.reference "x" 2] 2, .literal (.boolean true) 3] 1] 1
    let n : Node := .scope [.call (.reference ":" 1) [.reference "f" 1, f] 1,
      .call (.reference "f" 4) [] 4] 1
    let m : Machine := { env := .initial, random := Generator.ofSeed 0, nextId := 0 }
    ∃ v m', evaluate 8 20 n m = some (v, m') ∧ m'.exhausted = true ∧
      m'.env.depth = m.env.depth ∧ m'.depth = m.depth ∧
      m'.env.outer.map Table.names = m.env.outer.map Table.names ∧
      Table.names m.env.inner ⊆ Table.names m'.env.inner := by
  intro f n m
  have hx : (evaluate 8 20 n m).map (·.2.exhausted) = some true := by decide +kernel
  obtain ⟨⟨v, m'⟩, h, hx⟩ := Option.map_eq_some_iff.1 hx
  exact ⟨v, m', h, hx, evaluate_sameFrames h⟩

end Sigil
