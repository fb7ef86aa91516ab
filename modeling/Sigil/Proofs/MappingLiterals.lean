import Sigil.Proofs.Frames
import Sigil.Proofs.Heights
import Sigil.Proofs.SelfEquality

/-!
# Mapping literals

A mapping literal evaluates its values from left to right and binds its keys one after the other.
What that leaves is determined by the keys and the values (`Table.LeftBy`): every key once, where it
is first, with the value of its last pair.

Mappings are equal in whatever order their entries are (`Value.beq_mapping_of_perm`). The values of
a literal may depend on what was evaluated before them. Those of literals, and of collections and
mappings made of these, do not (`evaluate_constant`), and so pairs with distinct keys may be
exchanged.
-/

namespace Sigil

/-! ## Tables of pairs -/

namespace Table

variable {α : Type} {pairs s t : Table α} {name : String} {entry : α}

/-- Binds names one after the other. -/
def insertAll (t pairs : Table α) : Table α :=
  pairs.foldl (fun t p => insert p.1 p.2 t) t

/-- The table that pairs leave: every name once, in the order in which the names come first, with
the entry of the last pair that has it. -/
structure LeftBy (pairs t : Table α) : Prop where
  once : (names t).Nodup
  first : names t = (names pairs).eraseDups
  last : ∀ before name entry after, pairs = before ++ (name, entry) :: after →
    name ∉ names after → get? name t = some entry

theorem nodup_insert (h : (names t).Nodup) (name : String) (entry : α) :
    (names (insert name entry t)).Nodup := by
  rw [names_insert]
  split
  · exact h
  · next hn =>
    exact h.append (List.nodup_singleton name) (List.disjoint_singleton.2 hn)

theorem insert_of_not_mem (h : name ∉ names t) (entry : α) :
    insert name entry t = t ++ [(name, entry)] := by
  induction t with
  | nil => rfl
  | cons p t ih =>
    obtain ⟨ne, h⟩ := not_or.1 (mt List.mem_cons.2 h)
    rw [insert, if_neg (Ne.symm ne), ih h, List.cons_append]

/-- New names that are distinct are bound in their order. -/
theorem insertAll_of_nodup (h : (names (t ++ pairs)).Nodup) : insertAll t pairs = t ++ pairs := by
  induction pairs generalizing t with
  | nil => exact (List.append_nil t).symm
  | cons p pairs ih =>
    rw [List.append_cons] at h ⊢
    have new : p.1 ∉ names t := by
      intro hp
      rw [names, List.map_append, List.map_append] at h
      exact List.disjoint_of_nodup_append h.of_append_left hp (List.mem_singleton.2 rfl)
    have step : insert p.1 p.2 t = t ++ [p] := insert_of_not_mem new p.2
    rw [← ih h, ← step]
    rfl

theorem eraseDups_concat (names : List String) (name : String) :
    (names ++ [name]).eraseDups =
      if name ∈ names then names.eraseDups else names.eraseDups ++ [name] := by
  rw [List.eraseDups_append]
  by_cases h : name ∈ names
  · simp [List.removeAll, h]
  · simp [List.removeAll, h, List.eraseDups_cons]

theorem leftBy_nil : LeftBy [] ([] : Table α) where
  once := .nil
  first := rfl
  last before _ _ _ e _ := by cases before <;> cases e

/-- A pair more: its name keeps its place if it has one, and takes the new entry. -/
theorem LeftBy.insert (h : LeftBy pairs t) (name : String) (entry : α) :
    LeftBy (pairs ++ [(name, entry)]) (insert name entry t) where
  once := nodup_insert h.once name entry
  first := by
    have bound : name ∈ names t ↔ name ∈ names pairs := by rw [h.first, List.mem_eraseDups]
    have names_concat : names (pairs ++ [(name, entry)]) = names pairs ++ [name] := List.map_append
    rw [names_insert, names_concat, eraseDups_concat, h.first]
    simp only [List.mem_eraseDups]
  last before other old after e hn := by
    rcases List.eq_nil_or_concat after with rfl | ⟨after, p, rfl⟩
    · obtain ⟨-, same⟩ := List.append_inj' e rfl
      cases same
      exact get?_insert_self name entry t
    · rw [List.concat_eq_append, ← List.cons_append, ← List.append_assoc] at e
      obtain ⟨rfl, same⟩ := List.append_inj' e rfl
      cases same
      rw [List.concat_eq_append, names, List.map_append, List.mem_append, not_or] at hn
      have ne : other ≠ name := fun e => hn.2 (List.mem_singleton.2 e)
      rw [get?_insert_of_ne ne]
      exact h.last before other old after rfl hn.1

theorem leftBy_insertAll (pairs : Table α) : LeftBy pairs (insertAll [] pairs) := by
  induction pairs using List.reverseRecOn with
  | nil => exact leftBy_nil
  | append_singleton pairs p ih =>
    have step : insertAll [] (pairs ++ [p]) = insert p.1 p.2 (insertAll [] pairs) :=
      List.foldl_append
    rw [step]
    exact ih.insert p.1 p.2

/-- A name of some pair is the name of a last pair. -/
theorem exists_last (h : name ∈ names pairs) :
    ∃ before entry after, pairs = before ++ (name, entry) :: after ∧ name ∉ names after := by
  induction pairs with
  | nil => cases h
  | cons p pairs ih =>
    by_cases hp : name ∈ names pairs
    · obtain ⟨before, entry, after, rfl, hn⟩ := ih hp
      exact ⟨p :: before, entry, after, rfl, hn⟩
    · rcases List.mem_cons.1 h with rfl | h
      · exact ⟨[], p.2, pairs, rfl, hp⟩
      · exact absurd h hp

/-- Tables with the same names in the same order and the same entries are the same. -/
theorem eq_of_get? (once : (names s).Nodup) (same : names s = names t)
    (h : ∀ name ∈ names s, get? name s = get? name t) : s = t := by
  induction s generalizing t with
  | nil => exact (List.map_eq_nil_iff.1 same.symm).symm
  | cons p s ih =>
    obtain _ | ⟨q, t⟩ := t
    · cases same
    obtain ⟨hp, once⟩ := List.nodup_cons.1 once
    obtain ⟨key, same⟩ := List.cons.inj same
    have key : p.1 = q.1 := key
    have head := h p.1 List.mem_cons_self
    rw [get?, get?, if_pos rfl, if_pos key.symm] at head
    have rest : s = t := by
      refine ih once same fun name hn => ?_
      have ne : p.1 ≠ name := by
        rintro rfl
        exact hp hn
      have tail := h name (List.mem_cons_of_mem _ hn)
      rwa [get?, get?, if_neg ne, if_neg (key ▸ ne)] at tail
    rw [rest, Prod.ext key (Option.some.inj head)]

theorem LeftBy.unique (hs : LeftBy pairs s) (ht : LeftBy pairs t) : s = t := by
  refine eq_of_get? hs.once (hs.first.trans ht.first.symm) fun name hn => ?_
  rw [hs.first, List.mem_eraseDups] at hn
  obtain ⟨before, entry, after, e, last⟩ := exists_last hn
  rw [hs.last before name entry after e last, ht.last before name entry after e last]

theorem leftBy_iff : LeftBy pairs t ↔ t = insertAll [] pairs :=
  ⟨fun h => h.unique (leftBy_insertAll pairs), fun h => h ▸ leftBy_insertAll pairs⟩

end Table

/-! ## Values one after the other -/

namespace Node

/-- The keys of pairs, but for those that are none. -/
def keys (pairs : List (Node × Node)) : List String :=
  pairs.filterMap (·.1.key?)

end Node

namespace Eval

variable [Generator] {limit fuel line : Nat} {pairs : List (Node × Node)} {m m' : Machine}
  {v : Value}

theorem mapping_eq_some_iff {ev : Node → Eval Value} (hk : ∀ p ∈ pairs, p.1.key?.isSome)
    {entries : Table Value} :
    mapping ev entries pairs m = some (v, m') ↔
      ∃ vs, all ev (pairs.map (·.2)) m = some (vs, m') ∧
        v = .mapping (Table.insertAll entries ((Node.keys pairs).zip vs)) := by
  induction pairs generalizing entries m with
  | nil =>
    constructor
    · intro h
      cases h
      exact ⟨[], rfl, rfl⟩
    · rintro ⟨vs, h, rfl⟩
      cases h
      rfl
  | cons p pairs ih =>
    rw [List.forall_mem_cons] at hk
    obtain ⟨name, hn⟩ := Option.isSome_iff_exists.1 hk.1
    have keys : Node.keys (p :: pairs) = name :: Node.keys pairs := List.filterMap_cons_some hn
    unfold mapping
    rw [hn, List.map_cons, keys]
    constructor
    · intro h
      obtain ⟨w, m₁, hw, h⟩ := bind_eq_some_iff.1 h
      obtain ⟨ws, hs, rfl⟩ := (ih hk.2).1 h
      exact ⟨w :: ws, all_cons_eq_some_iff.2 ⟨w, m₁, ws, hw, hs, rfl⟩, rfl⟩
    · rintro ⟨vs, h, rfl⟩
      obtain ⟨w, m₁, ws, hw, hs, rfl⟩ := all_cons_eq_some_iff.1 h
      exact bind_eq_some_iff.2 ⟨w, m₁, hw, (ih hk.2).2 ⟨ws, hs, rfl⟩⟩

theorem depth_of_all {ns : List Node} {vs : List Value}
    (h : all (evaluate limit fuel) ns m = some (vs, m')) : m'.depth = m.depth := by
  induction ns generalizing m vs with
  | nil => cases h; rfl
  | cons n ns ih =>
    obtain ⟨w, m₁, ws, hw, hs, rfl⟩ := all_cons_eq_some_iff.1 h
    exact (ih hs).trans (Machine.lawful_sameFrames.evaluate hw).depth

/-- A node that is evaluated without reaching the limit is evaluated one level deeper. -/
theorem evaluate_below_iff {n : Node} :
    evaluate limit (fuel + 1) n m = some (v, m') ∧ m'.exhausted = false ↔
      m.exhausted = false ∧ m.depth < limit ∧
        ∃ m₁, node (evaluate limit fuel) fuel n { m with depth := m.depth + 1 } = some (v, m₁) ∧
          m₁.exhausted = false ∧ m' = { m₁ with depth := m₁.depth - 1 } := by
  rw [evaluate_succ]
  constructor
  · rintro ⟨h, hx⟩
    rw [limited_apply] at h
    split at h
    · next he =>
      cases h
      rw [he] at hx
      cases hx
    · next he =>
      split at h
      · cases h
        cases hx
      · next hl =>
        obtain ⟨m₁, below, rfl⟩ := deeper_eq_some_iff.1 h
        exact ⟨Bool.not_eq_true _ ▸ he, Nat.lt_of_not_le hl, m₁, below, hx, rfl⟩
  · rintro ⟨he, hl, m₁, h, hx, rfl⟩
    rw [limited_of_below he hl]
    exact ⟨deeper_eq_some_iff.2 ⟨m₁, h, rfl⟩, hx⟩

end Eval

/-! ## Equality in any order -/

/-- Entries that equal themselves make equal mappings in any order. -/
theorem Value.beq_mapping_of_perm {s t : Table Value} (h : s.Perm t) (once : (Table.names s).Nodup)
    (self : ∀ p ∈ s, (p.2 == p.2) = true) : (mapping s == mapping t) = true := by
  have once' : (Table.names t).Nodup := (h.map _).nodup_iff.1 once
  have found p (hp : p ∈ s) := get?_eq_some_of_mem once' (h.mem_iff.1 hp)
  refine beq_mapping.2 ⟨h.length_eq, fun p hp => by rw [found p hp]; rfl, fun p hp y hy => ?_⟩
  rw [found p hp] at hy
  cases hy
  exact self p hp

/-! ## Literals -/

/-- The items as a collection, and none of them if they are of several kinds. -/
def Value.gather : List Value → Value
  | [] => .collection []
  | v :: vs =>
    match vs.find? (·.kind ≠ v.kind) with
    | none => .collection (v :: vs)
    | some _ => .collection []

namespace Node

mutual

/-- The value of literals, and of collections and mappings made of them. -/
def constant : Node → Value
  | literal value _ => .ofLiteral value
  | reference _ _ | call _ _ _ | scope _ _ => .nothing
  | collection items _ => .gather (constants items)
  | mapping pairs _ => .mapping (Table.insertAll [] (contents pairs))

def constants : List Node → List Value
  | [] => []
  | n :: ns => n.constant :: constants ns

/-- The keys and values of pairs, but for those without a key. -/
def contents : List (Node × Node) → Table Value
  | [] => []
  | (key, value) :: pairs =>
    match key.key? with
    | some name => (name, value.constant) :: contents pairs
    | none => contents pairs

end

/-- Neither a reference, a call, a scope nor a mapping with a key that is none. -/
def isConstantPart : Node → Bool
  | literal _ _ | collection _ _ => true
  | mapping pairs _ => pairs.all (·.1.key?.isSome)
  | reference _ _ | call _ _ _ | scope _ _ => false

/-- Whether a tree is made of literals, collections and mappings only. -/
def isConstant (n : Node) : Bool :=
  n.nodes.all isConstantPart

theorem constants_eq_map (ns : List Node) : constants ns = ns.map constant := by
  induction ns with
  | nil => rfl
  | cons n ns ih => rw [constants, ih, List.map_cons]

theorem contents_eq_filterMap (pairs : List (Node × Node)) :
    contents pairs = pairs.filterMap fun p => p.1.key?.map fun name => (name, p.2.constant) := by
  induction pairs with
  | nil => rfl
  | cons p pairs ih =>
    rw [contents, List.filterMap_cons, ih]
    cases p.1.key? <;> rfl

theorem isCallFree_of_isConstant {n : Node} (h : n.isConstant = true) : n.isCallFree = true := by
  refine List.all_eq_true.2 fun k hk => ?_
  have part := List.all_eq_true.1 h k hk
  cases k with
  | literal | reference | scope | collection => rfl
  | mapping => exact part
  | call => cases part

end Node

namespace Eval

variable [Generator] {α β : Type} {limit height : Nat}

/-- A computation that, if it may go `height` nodes deeper, gives `a` and leaves the frames as they
are, whichever these are. -/
def Constant (limit height : Nat) (x : Eval α) (a : α) : Prop :=
  ∃ ds, ∀ e, Shows limit height e x a e ds []

theorem constant_pure (a : α) : Constant limit height (pure a) a :=
  ⟨[], fun _ => shows_pure a⟩

theorem constant_report (line : Nat) (err : EvalError) :
    Constant limit height (report line err) () :=
  ⟨[.eval err line], fun _ => shows_report line err⟩

theorem Constant.bind {x : Eval α} {f : α → Eval β} {a : α} {b : β}
    (hx : Constant limit height x a) (hf : Constant limit height (f a) b) :
    Constant limit height (x >>= f) b :=
  have ⟨ds, hx⟩ := hx
  have ⟨ds', hf⟩ := hf
  ⟨ds ++ ds', fun e => (hx e).bind (hf e)⟩

theorem Constant.limited {x : Eval Value} {v : Value} (h : Constant limit height x v)
    (line : Nat) : Constant limit (height + 1) (limited limit line x) v :=
  have ⟨ds, h⟩ := h
  ⟨ds, fun e => (h e).limited line⟩

theorem Constant.mono {height' : Nat} {x : Eval α} {a : α} (h : Constant limit height x a)
    (hl : height ≤ height') : Constant limit height' x a :=
  have ⟨ds, h⟩ := h
  ⟨ds, fun e => (h e).mono hl⟩

section

variable {ev : Node → Eval Value}

theorem constant_all {ns : List Node} (h : ∀ n ∈ ns, Constant limit height (ev n) n.constant) :
    Constant limit height (all ev ns) (Node.constants ns) := by
  induction ns with
  | nil => exact constant_pure _
  | cons n ns ih =>
    rw [List.forall_mem_cons] at h
    exact h.1.bind ((ih h.2).bind (constant_pure _))

theorem constant_collection (line : Nat) (vs : List Value) :
    Constant limit height (collection line vs) (.gather vs) := by
  cases vs with
  | nil => exact constant_pure _
  | cons v vs =>
    unfold collection Value.gather
    simp only
    cases vs.find? (·.kind ≠ v.kind) with
    | none => exact constant_pure _
    | some w => exact (constant_report line _).bind (constant_pure _)

theorem constant_mapping {pairs : List (Node × Node)}
    (h : ∀ p ∈ pairs, p.1.key?.isSome ∧ Constant limit height (ev p.2) p.2.constant)
    (entries : Table Value) :
    Constant limit height (mapping ev entries pairs)
      (.mapping (Table.insertAll entries (Node.contents pairs))) := by
  induction pairs generalizing entries with
  | nil => exact constant_pure _
  | cons p pairs ih =>
    obtain ⟨⟨hk, hv⟩, h⟩ := List.forall_mem_cons.1 h
    obtain ⟨name, hk⟩ := Option.isSome_iff_exists.1 hk
    rw [Node.contents]
    unfold mapping
    rw [hk]
    exact hv.bind (ih h _)

end

theorem constant_evaluate {fuel : Nat} {n : Node} (hn : n.isConstant = true)
    (hf : n.height ≤ fuel) : Constant limit n.height (evaluate limit fuel n) n.constant := by
  induction fuel generalizing n with
  | zero => exact absurd hf (Nat.not_le_of_lt n.height_pos)
  | succ fuel ih =>
    rw [evaluate_succ]
    cases n with
    | literal value line => exact (constant_pure _).limited line
    | reference | call | scope => cases hn
    | collection items line =>
      have parts : ∀ n ∈ items,
          Constant limit (Node.allHeight items) (evaluate limit fuel n) n.constant := fun n hi =>
        have below := Node.height_le_allHeight hi
        (ih ((Node.all_allNodes _ items).1 hn n hi)
          (below.trans (Nat.le_of_succ_le_succ hf))).mono below
      exact ((constant_all parts).bind (constant_collection line _)).limited line
    | mapping pairs line =>
      obtain ⟨keys, values⟩ := Bool.and_eq_true_iff.1 hn
      have parts : ∀ p ∈ pairs, p.1.key?.isSome ∧
          Constant limit (Node.entryHeight pairs) (evaluate limit fuel p.2) p.2.constant :=
        fun p hp =>
          have below := Node.height_le_entryHeight hp
          ⟨List.all_eq_true.1 keys p hp, (ih ((Node.all_entryNodes _ pairs).1 values p hp)
            (below.trans (Nat.le_of_succ_le_succ hf))).mono below⟩
      exact (constant_mapping parts []).limited line

end Eval

/-- Literals end, and unless they reach the limit their value does not depend on the state. -/
theorem evaluate_constant [Generator] {n : Node} (hn : n.isConstant = true) (limit : Nat)
    (m : Machine) :
    ∃ v m', n.EvaluatesTo limit m v m' ∧ (m'.exhausted = false → v = n.constant) := by
  by_cases hd : m.depth ≤ limit
  · obtain ⟨v, m', e, -, reached⟩ :=
      Eval.reaches_evaluate (Node.isCallFree_of_isConstant hn) le_rfl m hd
    refine ⟨v, m', ⟨_, e⟩, fun hx => ?_⟩
    rw [← Bool.not_eq_true, reached, not_or, Bool.not_eq_true] at hx
    obtain ⟨ds, shows⟩ : Eval.Constant limit _ _ _ := Eval.constant_evaluate hn le_rfl
    obtain ⟨es, e', -⟩ := shows m.env m rfl hx.1 (Nat.le_of_not_lt hx.2)
    rw [e] at e'
    cases e'
    rfl
  · have ends : ∃ m', evaluate limit 1 n m = some (.nothing, m') ∧ m'.exhausted = true := by
      rw [evaluate_succ, Eval.limited_apply, if_pos (Nat.le_of_not_le hd)]
      split
      · next hx => exact ⟨m, rfl, hx⟩
      · exact ⟨_, rfl, rfl⟩
    obtain ⟨m', e, hx⟩ := ends
    exact ⟨.nothing, m', ⟨1, e⟩, fun below => absurd below (by rw [hx]; exact Bool.noConfusion)⟩

namespace Value

theorem distinctKeys_gather {vs : List Value} (h : ∀ v ∈ vs, v.distinctKeys = true) :
    (gather vs).distinctKeys = true := by
  unfold gather
  split
  · rfl
  split
  · exact distinctKeys_collection.2 h
  · rfl

theorem distinctKeys_insertAll {pairs : Table Value} (h : ∀ p ∈ pairs, p.2.distinctKeys = true) :
    (mapping (Table.insertAll [] pairs)).distinctKeys = true := by
  refine distinctKeys_mapping.2 ⟨(Table.leftBy_insertAll pairs).once, ?_⟩
  induction pairs using List.reverseRecOn with
  | nil => exact List.forall_mem_nil _
  | append_singleton pairs p ih =>
    rw [List.forall_mem_append] at h
    have step : Table.insertAll [] (pairs ++ [p]) =
        Table.insert p.1 p.2 (Table.insertAll [] pairs) := List.foldl_append
    rw [step]
    exact Table.forall_insert (P := fun v : Value => v.distinctKeys = true)
      (h.2 p List.mem_cons_self) (ih h.1)

end Value

namespace Node

theorem mem_contents {pairs : List (Node × Node)} {p : String × Value} (h : p ∈ contents pairs) :
    ∃ q ∈ pairs, p.2 = q.2.constant := by
  rw [contents_eq_filterMap] at h
  obtain ⟨q, hq, h⟩ := List.mem_filterMap.1 h
  obtain ⟨name, -, rfl⟩ := Option.map_eq_some_iff.1 h
  exact ⟨q, hq, rfl⟩

theorem distinctKeys_constant (n : Node) : n.constant.distinctKeys = true := by
  induction n using Node.induction with
  | literal value line => cases value <;> rfl
  | reference | call | scope => rfl
  | collection items line ih =>
    rw [constant, constants_eq_map]
    exact Value.distinctKeys_gather (List.forall_mem_map.2 ih)
  | mapping pairs line ih =>
    rw [constant]
    refine Value.distinctKeys_insertAll fun p hp => ?_
    obtain ⟨q, hq, e⟩ := mem_contents hp
    rw [e]
    exact (ih q hq).2

end Node

/-- Literals of mappings with the same pairs in another order and without NaN have equal values. -/
theorem beq_constant_of_perm {pairs pairs' : List (Node × Node)}
    (perm : (Node.contents pairs).Perm (Node.contents pairs'))
    (once : (Table.names (Node.contents pairs)).Nodup)
    (hv : ∀ p ∈ Node.contents pairs, p.2.NaNFree) (line line' : Nat) :
    ((Node.mapping pairs line).constant == (Node.mapping pairs' line').constant) = true := by
  have once' : (Table.names (Node.contents pairs')).Nodup := (perm.map _).nodup_iff.1 once
  rw [Node.constant, Node.constant, Table.insertAll_of_nodup once, Table.insertAll_of_nodup once']
  refine Value.beq_mapping_of_perm perm once fun p hp => ?_
  obtain ⟨q, -, e⟩ := Node.mem_contents hp
  have distinct : p.2.distinctKeys = true := e ▸ q.2.distinctKeys_constant
  exact (Value.beq_self_iff distinct).2 (hv p hp)

theorem Node.EvaluatesTo.unique [Generator] {n : Node} {limit : Nat} {m m₁ m₂ : Machine}
    {v w : Value} (h : n.EvaluatesTo limit m v m₁) (h' : n.EvaluatesTo limit m w m₂) :
    v = w ∧ m₁ = m₂ := by
  obtain ⟨f, h⟩ := h
  obtain ⟨g, h'⟩ := h'
  have both := evaluate_mono (Nat.le_add_right f g) h
  rw [evaluate_mono (Nat.le_add_left g f) h'] at both
  cases both
  exact ⟨rfl, rfl⟩

/-- **Mappings keep first places and last values**: below the limit, a mapping literal ends exactly
if its values do, evaluated from left to right, and binds every key once, where it is first in the
text, to the value of the last pair that has it. Two literals with distinct keys and the same pairs
in different orders, of which the values are literals without NaN, end in any two states, and their
values are equal unless the limit is reached. -/
theorem mapping_literal [Generator] :
    (∀ (pairs : List (Node × Node)) (line limit fuel : Nat) (m m' : Machine) (v : Value),
      (∀ p ∈ pairs, p.1.key?.isSome) →
      (evaluate limit (fuel + 1) (.mapping pairs line) m = some (v, m') ∧ m'.exhausted = false ↔
        m.exhausted = false ∧ m.depth < limit ∧ ∃ vs m₁ entries,
          Eval.all (evaluate limit fuel) (pairs.map (·.2)) { m with depth := m.depth + 1 } =
            some (vs, m₁) ∧
          m₁.exhausted = false ∧ Table.LeftBy ((Node.keys pairs).zip vs) entries ∧
          v = .mapping entries ∧ m' = { m₁ with depth := m.depth })) ∧
    ∀ (pairs pairs' : List (Node × Node)) (line line' : Nat),
      (Node.mapping pairs line).isConstant = true →
      (Node.mapping pairs' line').isConstant = true →
      (Node.contents pairs).Perm (Node.contents pairs') →
      (Table.names (Node.contents pairs)).Nodup →
      (∀ p ∈ Node.contents pairs, p.2.NaNFree) →
      ∀ (limit limit' : Nat) (m m' : Machine), ∃ v w m₁ m₁',
        (Node.mapping pairs line).EvaluatesTo limit m v m₁ ∧
        (Node.mapping pairs' line').EvaluatesTo limit' m' w m₁' ∧
        (m₁.exhausted = false → m₁'.exhausted = false → (v == w) = true) := by
  refine ⟨fun pairs line limit fuel m m' v hk => ?_,
    fun pairs pairs' line line' hn hn' perm once hv limit limit' m m' => ?_⟩
  · rw [Eval.evaluate_below_iff]
    refine and_congr_right fun _ => and_congr_right fun _ => ?_
    constructor
    · rintro ⟨m₁, h, hx, rfl⟩
      obtain ⟨vs, hs, rfl⟩ := (Eval.mapping_eq_some_iff hk).1 h
      have depth : m₁.depth - 1 = m.depth := by rw [Eval.depth_of_all hs, Nat.add_sub_cancel]
      exact ⟨vs, m₁, _, hs, hx, Table.leftBy_insertAll _, rfl, by rw [depth]⟩
    · rintro ⟨vs, m₁, entries, hs, hx, left, rfl, rfl⟩
      have depth : m₁.depth - 1 = m.depth := by rw [Eval.depth_of_all hs, Nat.add_sub_cancel]
      refine ⟨m₁, (Eval.mapping_eq_some_iff hk).2 ⟨vs, hs, ?_⟩, hx, by rw [depth]⟩
      rw [Table.leftBy_iff.1 left]
  · obtain ⟨v, m₁, e, value⟩ := evaluate_constant hn limit m
    obtain ⟨w, m₁', e', value'⟩ := evaluate_constant hn' limit' m'
    refine ⟨v, w, m₁, m₁', e, e', fun hx hx' => ?_⟩
    rw [value hx, value' hx']
    exact beq_constant_of_perm perm once hv line line'

open scoped Sigil.Random

/-- A key twice, first as a word and then as a string, around an unknown name. And the pairs of a
mapping with a collection and another mapping in it, in two orders and at other lines. -/
theorem mapping_literal_nested :
    let m := (({} : Config).interpreter (Generator.ofSeed 0)).machine []
    let m' := m.reporting 2 [.notFound "x"]
    let repeated : List (Node × Node) := [(.reference "b" 1, .literal (.number 1) 1),
      (.literal (.string "a") 2, .reference "x" 2),
      (.literal (.string "b") 3, .literal (.number 2) 3)]
    let items (l : Nat) := Node.collection [.literal (.string "s") l, .literal (.string "t") l] l
    let inner (l : Nat) := Node.mapping [(.reference "z" l, .literal (.number (-0)) l)] l
    let pairs : List (Node × Node) := [(.reference "p" 1, items 1), (.reference "q" 1, inner 1),
      (.reference "r" 1, .literal (.boolean true) 1)]
    let pairs' : List (Node × Node) := [(.literal (.string "r") 7, .literal (.boolean true) 7),
      (.literal (.string "p") 8, items 8), (.reference "q" 9, inner 9)]
    evaluate 5 5 (.mapping repeated 1) m =
      some (.mapping [("b", .number 2), ("a", .nothing)], m') ∧
    ∃ v w, (Node.mapping pairs 1).EvaluatesTo 5 m v m ∧
      (Node.mapping pairs' 7).EvaluatesTo 9 m' w m' ∧ (v == w) = true := by
  intro m m' repeated items inner pairs pairs'
  have left : Table.LeftBy [("b", Value.number 1), ("a", .nothing), ("b", .number 2)]
      [("b", .number 2), ("a", .nothing)] := Table.leftBy_iff.2 rfl
  have evaluated := (mapping_literal.1 repeated 1 5 4 m m' _ (by decide)).2
    ⟨rfl, by decide, [.number 1, .nothing, .number 2], { m' with depth := 1 }, _, rfl, rfl, left,
      rfl, rfl⟩
  have perm : (Node.contents pairs).Perm (Node.contents pairs') :=
    List.perm_append_singleton ("r", Value.boolean true) ((Node.contents pairs).take 2)
  have nanFree : ∀ p ∈ Node.contents pairs, ∀ x ∈ p.2.numbers, x.isNaN = false := by
    decide +kernel
  obtain ⟨v, w, m₁, m₁', e, e', equal⟩ := mapping_literal.2 pairs pairs' 1 7 rfl rfl perm
    (by decide +kernel) nanFree 5 9 m m'
  -- neither of the two reaches its limit
  have ends : ∃ u, (Node.mapping pairs 1).EvaluatesTo 5 m u m := ⟨_, 5, rfl⟩
  have ends' : ∃ u, (Node.mapping pairs' 7).EvaluatesTo 9 m' u m' := ⟨_, 5, rfl⟩
  obtain ⟨-, rfl⟩ := ends.choose_spec.unique e
  obtain ⟨-, rfl⟩ := ends'.choose_spec.unique e'
  exact ⟨evaluated.1, v, w, e, e', equal rfl rfl⟩

end Sigil
