import Mathlib
import Sigil.Config
import Sigil.Proofs.Transition
import Sigil.Random

/-!
# How far equality carries over

A string equals the collection of its characters, and collections are equal item by item. The first
rule looks no deeper than the items: `'ab'` equals `['a' 'b']`, and this equals `[['a'] ['b']]`,
item by item, which does not equal `'ab'`. So equality is not transitive.

`Alike` is what equality comes to along a chain: equal, item by item and entry by entry, or of the
same spelling at whatever depth (`spelling?`). It is transitive, and equality is likeness without a
clash: nowhere does a string stand against a collection that has a collection among its items
(`beq_iff_alike`).
-/

namespace Sigil

namespace Value

/-! ## Spelling -/

mutual

/-- The characters of a text, at whatever depth: those of a string, or of the items of a collection
if each of them has one. -/
def spelling? : Value → Option (List Char)
  | string s => some s.toList
  | collection items => if items.isEmpty then none else letters? items
  | number _ | boolean _ | mapping _ | operator _ | nothing => none

/-- The characters of items that have one each. -/
def letters? : List Value → Option (List Char)
  | [] => some []
  | v :: vs =>
    match v.spelling?, letters? vs with
    | some [c], some cs => some (c :: cs)
    | _, _ => none

end

theorem letters?_eq_some_iff {vs : List Value} {cs : List Char} :
    letters? vs = some cs ↔ cs.map (fun c => some [c]) = vs.map spelling? := by
  induction vs generalizing cs with
  | nil =>
    rw [letters?, Option.some.injEq, List.map_nil, List.map_eq_nil_iff]
    exact eq_comm
  | cons v vs ih =>
    rw [List.map_cons, List.map_eq_cons_iff, letters?]
    split
    · next c ds hv hs =>
      simp only [hv, ← ih, hs, Option.some.injEq]
      constructor
      · rintro rfl
        exact ⟨c, ds, rfl, rfl, rfl⟩
      · rintro ⟨_, _, rfl, e, rfl⟩
        cases e
        rfl
    · next h =>
      refine ⟨fun e => (by cases e), ?_⟩
      rintro ⟨c, ds, rfl, hv, hs⟩
      exact absurd (ih.2 hs) (h c ds hv.symm)

theorem spelling?_collection_eq_some_iff {items : List Value} {cs : List Char} :
    (collection items).spelling? = some cs ↔
      items ≠ [] ∧ cs.map (fun c => some [c]) = items.map spelling? := by
  rw [spelling?, ← letters?_eq_some_iff]
  cases items <;> simp

/-- The string of one character. -/
def letter (c : Char) : Value :=
  string (String.ofList [c])

theorem spelling?_letter (c : Char) : (letter c).spelling? = some [c] := by
  rw [letter, spelling?, String.toList_ofList]

theorem char?_eq_some_iff {v : Value} {c : Char} : v.char? = some c ↔ letter c = v := by
  cases v with
  | string s =>
    rw [char?, letter, string.injEq, ← String.toList_inj, String.toList_ofList]
    split
    · next d hs => simp [hs, eq_comm]
    · next h => exact ⟨fun e => (by cases e), fun e => absurd e.symm (h c)⟩
  | number | boolean | collection | mapping | operator | nothing => simp [char?, letter]

theorem mapM_char?_eq_some_iff {items : List Value} {cs : List Char} :
    items.mapM char? = some cs ↔ cs.map letter = items := by
  induction items generalizing cs with
  | nil => simp [eq_comm]
  | cons v items ih =>
    rw [List.mapM_cons, List.map_eq_cons_iff]
    simp only [Option.bind_eq_bind, Option.bind_eq_some_iff, char?_eq_some_iff, ih]
    constructor
    · rintro ⟨c, hv, ds, hs, e⟩
      exact ⟨c, ds, (Option.some.inj e).symm, hv, hs⟩
    · rintro ⟨c, ds, rfl, hv, hs⟩
      exact ⟨c, hv, ds, hs, rfl⟩

theorem asText?_collection_eq_some_iff {items : List Value} {s : String} :
    (collection items).asText? = some s ↔ items ≠ [] ∧ s.toList.map letter = items := by
  rw [asText?, ← mapM_char?_eq_some_iff]
  cases items with
  | nil => simp
  | cons v items =>
    simp only [List.isEmpty_cons, Bool.false_eq_true, if_false, Option.map_eq_some_iff]
    constructor
    · rintro ⟨cs, hs, rfl⟩
      exact ⟨List.cons_ne_nil _ _, by rw [String.toList_ofList]; exact hs⟩
    · rintro ⟨-, hs⟩
      exact ⟨s.toList, hs, String.ofList_toList⟩

def isCollection : Value → Bool
  | collection _ => true
  | _ => false

/-- One character that is in no collection is a string. -/
theorem eq_letter_of_spelling? {v : Value} {c : Char} (h : v.spelling? = some [c])
    (hv : v.isCollection = false) : letter c = v := by
  cases v with
  | string s =>
    rw [letter, string.injEq, ← String.toList_inj, String.toList_ofList]
    exact (Option.some.inj h).symm
  | collection => cases hv
  | number | boolean | mapping | operator | nothing => cases h

theorem map_letter_eq {items : List Value} {cs : List Char}
    (h : cs.map (fun c => some [c]) = items.map spelling?)
    (flat : ∀ v ∈ items, v.isCollection = false) : cs.map letter = items := by
  induction items generalizing cs with
  | nil => simpa using h
  | cons v items ih =>
    rw [List.map_cons, List.map_eq_cons_iff] at h
    obtain ⟨c, ds, rfl, hv, hs⟩ := h
    rw [List.forall_mem_cons] at flat
    rw [List.map_cons, eq_letter_of_spelling? hv.symm flat.1, ih hs flat.2]

/-- A collection has a text if it is spelled and none of its items is a collection. -/
theorem asText?_eq_some_iff_spelling? {items : List Value} {s : String} :
    (collection items).asText? = some s ↔
      (collection items).spelling? = some s.toList ∧ items.any isCollection = false := by
  rw [asText?_collection_eq_some_iff, spelling?_collection_eq_some_iff, and_assoc]
  refine and_congr_right fun _ => ?_
  constructor
  · rintro rfl
    exact ⟨by simp [spelling?_letter], by simp [letter, isCollection]⟩
  · rintro ⟨h, flat⟩
    exact map_letter_eq h fun v hv => by simpa using List.any_eq_false.1 flat v hv

/-! ## Equality, part by part -/

theorem beq_collection {xs ys : List Value} :
    (collection xs == collection ys) = true ↔
      xs.length = ys.length ∧ ∀ p ∈ xs.zip ys, (p.1 == p.2) = true := by
  change equalItems xs ys = true ↔ _
  induction xs generalizing ys with
  | nil => cases ys <;> simp [equalItems]
  | cons x xs ih =>
    cases ys with
    | nil => simp [equalItems]
    | cons y ys =>
      rw [equalItems, Bool.and_eq_true, ih, List.zip_cons_cons, List.forall_mem_cons,
        List.length_cons, List.length_cons, Nat.succ_inj]
      exact and_left_comm

theorem beq_mapping {xs ys : List (String × Value)} :
    (mapping xs == mapping ys) = true ↔ xs.length = ys.length ∧
      (∀ p ∈ xs, (Table.get? p.1 ys).isSome) ∧
      ∀ p ∈ xs, ∀ y, Table.get? p.1 ys = some y → (p.2 == y) = true := by
  have entries : equalEntries xs ys = true ↔ ∀ p ∈ xs, (Table.get? p.1 ys).isSome ∧
      ∀ y, Table.get? p.1 ys = some y → (p.2 == y) = true := by
    induction xs with
    | nil => simp [equalEntries]
    | cons p xs ih =>
      rw [equalEntries, Bool.and_eq_true, ih, List.forall_mem_cons]
      refine and_congr_left fun _ => ?_
      cases Table.get? p.1 ys with
      | none => simp
      | some y =>
        constructor
        · intro h
          exact ⟨rfl, fun _ e => by cases e; exact h⟩
        · rintro ⟨-, h⟩
          exact h y rfl
  change (xs.length == ys.length && equalEntries xs ys) = true ↔ _
  rw [Bool.and_eq_true, beq_iff_eq, entries, forall₂_and]

theorem beq_string_collection {s : String} {ys : List Value} :
    (string s == collection ys) = true ↔ (collection ys).asText? = some s := by
  change sameText (string s) (collection ys) = true ↔ _
  rw [sameText, show (string s).asText? = some s from rfl]
  cases (collection ys).asText? with
  | none => simp
  | some t => simpa using eq_comm

theorem beq_collection_string {xs : List Value} {t : String} :
    (collection xs == string t) = true ↔ (collection xs).asText? = some t := by
  change sameText (collection xs) (string t) = true ↔ _
  rw [sameText, show (string t).asText? = some t from rfl]
  cases (collection xs).asText? <;> simp

/-! ## Likeness -/

/-- What equality comes to along a chain of values: equal parts, or the same spelling. -/
inductive Alike : Value → Value → Prop where
  | spelled {v w : Value} {cs : List Char} : v.spelling? = some cs → w.spelling? = some cs →
      Alike v w
  | number {x y : Float} : (x == y) = true → Alike (.number x) (.number y)
  | boolean (b : Bool) : Alike (.boolean b) (.boolean b)
  | collection {xs ys : List Value} : xs.length = ys.length →
      (∀ p ∈ xs.zip ys, Alike p.1 p.2) → Alike (.collection xs) (.collection ys)
  | mapping {xs ys : List (String × Value)} : xs.length = ys.length →
      (∀ p ∈ xs, (Table.get? p.1 ys).isSome) →
      (∀ p ∈ xs, ∀ y, Table.get? p.1 ys = some y → Alike p.2 y) →
      Alike (.mapping xs) (.mapping ys)
  | operator {o p : Operator} : o.equal p = true → Alike (.operator o) (.operator p)
  | nothing : Alike .nothing .nothing

theorem map_spelling?_eq {xs ys : List Value} (hl : xs.length = ys.length)
    (h : ∀ p ∈ xs.zip ys, p.1.spelling? = p.2.spelling?) :
    xs.map spelling? = ys.map spelling? := by
  induction xs generalizing ys with
  | nil => rw [List.eq_nil_of_length_eq_zero hl.symm]
  | cons x xs ih =>
    cases ys with
    | nil => cases hl
    | cons y ys =>
      rw [List.zip_cons_cons, List.forall_mem_cons] at h
      rw [List.map_cons, List.map_cons, h.1, ih (Nat.succ.inj hl) h.2]

theorem Alike.spelling?_eq {v w : Value} (h : Alike v w) : v.spelling? = w.spelling? := by
  induction h with
  | spelled hv hw => rw [hv, hw]
  | @collection xs ys hl _ ih =>
    refine Option.ext fun cs => ?_
    rw [spelling?_collection_eq_some_iff, spelling?_collection_eq_some_iff, map_spelling?_eq hl ih,
      ← List.length_pos_iff, hl, List.length_pos_iff]
  | number | boolean | mapping | operator | nothing => rfl

/-- Items between those at the same places of two lists. -/
theorem exists_mem_zip {α : Type} {xs ys zs : List α} (hxy : xs.length = ys.length)
    (hyz : ys.length = zs.length) {p : α × α} (hp : p ∈ xs.zip zs) :
    ∃ y, (p.1, y) ∈ xs.zip ys ∧ (y, p.2) ∈ ys.zip zs := by
  induction xs generalizing ys zs with
  | nil => cases hp
  | cons x xs ih =>
    obtain ⟨y, ys, rfl⟩ := List.exists_cons_of_length_eq_add_one hxy.symm
    obtain ⟨z, zs, rfl⟩ := List.exists_cons_of_length_eq_add_one hyz.symm
    rw [List.zip_cons_cons, List.mem_cons] at hp
    rcases hp with rfl | hp
    · exact ⟨y, List.mem_cons_self, List.mem_cons_self⟩
    · obtain ⟨y', h₁, h₂⟩ := ih (Nat.succ.inj hxy) (Nat.succ.inj hyz) hp
      exact ⟨y', List.mem_cons_of_mem _ h₁, List.mem_cons_of_mem _ h₂⟩

theorem operator_equal_trans {o p q : Operator} (h : o.equal p = true) (h' : p.equal q = true) :
    o.equal q = true := by
  cases o <;> cases p <;> cases q <;> simp_all [Operator.equal]

theorem Alike.trans {u v w : Value} (h : Alike u v) (h' : Alike v w) : Alike u w := by
  induction h generalizing w with
  | spelled hu hv => exact .spelled hu (h'.spelling?_eq ▸ hv)
  | number hx =>
    cases h' with
    | spelled hs _ => cases hs
    | number hy => exact .number (BEq.trans hx hy)
  | boolean b => exact h'
  | @collection xs ys hl items ih =>
    cases h' with
    -- a chain may come to a spelling after steps from item to item
    | spelled hv hw => exact .spelled ((Alike.collection hl items).spelling?_eq ▸ hv) hw
    | collection hl' items' =>
      refine .collection (hl.trans hl') fun p hp => ?_
      obtain ⟨y, hxy, hyz⟩ := exists_mem_zip hl hl' hp
      exact ih _ hxy (items' _ hyz)
  | mapping hl bound entries ih =>
    cases h' with
    | spelled hs _ => cases hs
    | mapping hl' bound' entries' =>
      -- the entry of a key in the middle mapping leads on to the third
      refine .mapping (hl.trans hl') (fun p hp => ?_) fun p hp z hz => ?_
      · obtain ⟨y, hy⟩ := Option.isSome_iff_exists.1 (bound p hp)
        exact bound' (p.1, y) (Table.mem_of_get? hy)
      · obtain ⟨y, hy⟩ := Option.isSome_iff_exists.1 (bound p hp)
        exact ih p hp y hy (entries' _ (Table.mem_of_get? hy) z hz)
  | operator ho =>
    cases h' with
    | spelled hs _ => cases hs
    | operator hp => exact .operator (operator_equal_trans ho hp)
  | nothing => exact h'

/-- Items of the same spelling. -/
theorem alike_of_mem_zip {xs ys : List Value} {cs : List Char}
    (hx : cs.map (fun c => some [c]) = xs.map spelling?)
    (hy : cs.map (fun c => some [c]) = ys.map spelling?) :
    xs.length = ys.length ∧ ∀ p ∈ xs.zip ys, Alike p.1 p.2 := by
  induction cs generalizing xs ys with
  | nil =>
    rw [List.map_eq_nil_iff.1 hx.symm, List.map_eq_nil_iff.1 hy.symm]
    simp
  | cons c cs ih =>
    obtain ⟨x, xs, rfl, hc, hx⟩ := List.map_eq_cons_iff.1 hx.symm
    obtain ⟨y, ys, rfl, hd, hy⟩ := List.map_eq_cons_iff.1 hy.symm
    obtain ⟨hl, items⟩ := ih hx.symm hy.symm
    refine ⟨congrArg (· + 1) hl, ?_⟩
    rw [List.zip_cons_cons, List.forall_mem_cons]
    exact ⟨.spelled hc hd, items⟩

/-- Collections that are alike are so item by item. -/
theorem Alike.items {xs ys : List Value} (h : Alike (.collection xs) (.collection ys)) :
    xs.length = ys.length ∧ ∀ p ∈ xs.zip ys, Alike p.1 p.2 := by
  cases h with
  | spelled hx hy =>
    exact alike_of_mem_zip (spelling?_collection_eq_some_iff.1 hx).2
      (spelling?_collection_eq_some_iff.1 hy).2
  | collection hl items => exact ⟨hl, items⟩

/-! ## Clashes -/

mutual

/-- Whether somewhere, at the same place of two values, a string stands against a collection that
has a collection among its items. -/
def clashes : Value → Value → Bool
  | string _, collection ys => ys.any isCollection
  | collection xs, string _ => xs.any isCollection
  | collection xs, collection ys => itemsClash xs ys
  | mapping xs, mapping ys => entriesClash xs ys
  | _, _ => false

def itemsClash : List Value → List Value → Bool
  | x :: xs, y :: ys => x.clashes y || itemsClash xs ys
  | _, _ => false

def entriesClash : List (String × Value) → List (String × Value) → Bool
  | [], _ => false
  | (key, x) :: xs, ys =>
    (match Table.get? key ys with
      | some y => x.clashes y
      | none => false) || entriesClash xs ys

end

theorem itemsClash_eq_false_iff {xs ys : List Value} :
    itemsClash xs ys = false ↔ ∀ p ∈ xs.zip ys, p.1.clashes p.2 = false := by
  induction xs generalizing ys with
  | nil => simp [itemsClash]
  | cons x xs ih => cases ys <;> simp [itemsClash, ih]

theorem entriesClash_eq_false_iff {xs ys : List (String × Value)} :
    entriesClash xs ys = false ↔
      ∀ p ∈ xs, ∀ y, Table.get? p.1 ys = some y → p.2.clashes y = false := by
  induction xs with
  | nil => simp [entriesClash]
  | cons p xs ih =>
    rw [entriesClash, Bool.or_eq_false_iff, ih, List.forall_mem_cons]
    refine and_congr_left fun _ => ?_
    cases Table.get? p.1 ys <;> simp

/-- Values of different kinds that are not both texts are not alike. -/
theorem not_alike_of_kind_ne {v w : Value} (hk : v.kind ≠ w.kind)
    (hs : v.spelling? = none ∨ w.spelling? = none) : ¬Alike v w := by
  intro h
  cases h with
  | spelled hv hw =>
    rcases hs with hs | hs
    · rw [hs] at hv; cases hv
    · rw [hs] at hw; cases hw
  | number | boolean | collection | mapping | operator | nothing => exact hk rfl

theorem beq_iff_of_not_alike {v w : Value} (h : (v == w) = false) (ha : ¬Alike v w) :
    (v == w) = true ↔ Alike v w ∧ v.clashes w = false := by
  simp [h, ha]

/-- **Equality is likeness without a clash.** -/
theorem beq_iff_alike {v w : Value} : (v == w) = true ↔ Alike v w ∧ v.clashes w = false := by
  induction v using Value.induction generalizing w with
  | number x =>
    cases w with
    | number y =>
      refine ⟨fun h => ⟨.number h, rfl⟩, fun ⟨h, _⟩ => ?_⟩
      cases h with
      | spelled hs _ => cases hs
      | number h => exact h
    | string | boolean | collection | mapping | operator | nothing =>
      exact beq_iff_of_not_alike rfl (not_alike_of_kind_ne nofun (.inl rfl))
  | string s =>
    cases w with
    | string t =>
      refine ⟨fun h => ?_, fun ⟨h, _⟩ => ?_⟩
      · cases eq_of_beq (a := s) (b := t) h
        exact ⟨.spelled rfl rfl, rfl⟩
      · have same := Option.some.inj h.spelling?_eq
        rw [String.toList_inj.1 same]
        exact beq_self_eq_true t
    | collection ys =>
      rw [beq_string_collection, asText?_eq_some_iff_spelling?, clashes]
      refine and_congr_left fun _ => ⟨fun h => .spelled rfl h, fun h => h.spelling?_eq.symm⟩
    | number | boolean | mapping | operator | nothing =>
      exact beq_iff_of_not_alike rfl (not_alike_of_kind_ne nofun (.inr rfl))
  | boolean b =>
    cases w with
    | boolean c =>
      refine ⟨fun h => ?_, fun ⟨h, _⟩ => ?_⟩
      · cases eq_of_beq (a := b) (b := c) h
        exact ⟨.boolean b, rfl⟩
      · cases h with
        | spelled hs _ => cases hs
        | boolean => exact beq_self_eq_true b
    | number | string | collection | mapping | operator | nothing =>
      exact beq_iff_of_not_alike rfl (not_alike_of_kind_ne nofun (.inl rfl))
  | collection xs ih =>
    cases w with
    | collection ys =>
      rw [beq_collection, clashes, itemsClash_eq_false_iff]
      constructor
      · rintro ⟨hl, items⟩
        have items p (hp : p ∈ xs.zip ys) := (ih p.1 (List.of_mem_zip hp).1).1 (items p hp)
        exact ⟨.collection hl fun p hp => (items p hp).1, fun p hp => (items p hp).2⟩
      · rintro ⟨h, clash⟩
        obtain ⟨hl, items⟩ := h.items
        exact ⟨hl, fun p hp =>
          (ih p.1 (List.of_mem_zip hp).1).2 ⟨items p hp, clash p hp⟩⟩
    | string t =>
      rw [beq_collection_string, asText?_eq_some_iff_spelling?, clashes]
      refine and_congr_left fun _ => ⟨fun h => .spelled h rfl, fun h => h.spelling?_eq⟩
    | number | boolean | mapping | operator | nothing =>
      exact beq_iff_of_not_alike rfl (not_alike_of_kind_ne nofun (.inr rfl))
  | mapping xs ih =>
    cases w with
    | mapping ys =>
      rw [beq_mapping, clashes, entriesClash_eq_false_iff]
      constructor
      · rintro ⟨hl, bound, entries⟩
        have entries p (hp : p ∈ xs) y (hy : Table.get? p.1 ys = some y) :=
          (ih p hp).1 (entries p hp y hy)
        exact ⟨.mapping hl bound fun p hp y hy => (entries p hp y hy).1,
          fun p hp y hy => (entries p hp y hy).2⟩
      · rintro ⟨h, clash⟩
        cases h with
        | spelled hs _ => cases hs
        | mapping hl bound entries =>
          exact ⟨hl, bound, fun p hp y hy => (ih p hp).2 ⟨entries p hp y hy, clash p hp y hy⟩⟩
    | number | string | boolean | collection | operator | nothing =>
      exact beq_iff_of_not_alike rfl (not_alike_of_kind_ne nofun (.inl rfl))
  | operator op =>
    cases w with
    | operator p =>
      refine ⟨fun h => ⟨.operator h, rfl⟩, fun ⟨h, _⟩ => ?_⟩
      cases h with
      | spelled hs _ => cases hs
      | operator h => exact h
    | number | string | boolean | collection | mapping | nothing =>
      exact beq_iff_of_not_alike rfl (not_alike_of_kind_ne nofun (.inl rfl))
  | nothing =>
    cases w with
    | nothing => exact ⟨fun _ => ⟨.nothing, rfl⟩, fun _ => rfl⟩
    | number | string | boolean | collection | mapping | operator =>
      exact beq_iff_of_not_alike rfl (not_alike_of_kind_ne nofun (.inl rfl))

/-! ## Equality the other way round -/

mutual

/-- Whether no mapping in a value has a key twice. -/
def distinctKeys : Value → Bool
  | collection items => itemsDistinct items
  | mapping entries => decide (Table.names entries).Nodup && entriesDistinct entries
  | number _ | string _ | boolean _ | operator _ | nothing => true

def itemsDistinct : List Value → Bool
  | [] => true
  | v :: vs => v.distinctKeys && itemsDistinct vs

def entriesDistinct : List (String × Value) → Bool
  | [] => true
  | (_, v) :: entries => v.distinctKeys && entriesDistinct entries

end

theorem distinctKeys_collection {items : List Value} :
    (collection items).distinctKeys = true ↔ ∀ v ∈ items, v.distinctKeys = true := by
  rw [distinctKeys]
  induction items with
  | nil => simp [itemsDistinct]
  | cons v items ih => simp [itemsDistinct, ih]

theorem distinctKeys_mapping {entries : List (String × Value)} :
    (mapping entries).distinctKeys = true ↔
      (Table.names entries).Nodup ∧ ∀ p ∈ entries, p.2.distinctKeys = true := by
  have values : entriesDistinct entries = true ↔ ∀ p ∈ entries, p.2.distinctKeys = true := by
    induction entries with
    | nil => simp [entriesDistinct]
    | cons p entries ih => simp [entriesDistinct, ih]
  rw [distinctKeys, Bool.and_eq_true, decide_eq_true_iff, values]

theorem get?_eq_some_of_mem {t : Table Value} (ht : (Table.names t).Nodup) {p : String × Value}
    (hp : p ∈ t) : Table.get? p.1 t = some p.2 := by
  induction t with
  | nil => cases hp
  | cons q t ih =>
    obtain ⟨hq, ht⟩ := List.nodup_cons.1 ht
    rcases List.mem_cons.1 hp with rfl | hp
    · exact if_pos rfl
    · have bound : p.1 ∈ Table.names t := List.mem_map_of_mem hp
      have ne : q.1 ≠ p.1 := by
        intro e
        rw [← e] at bound
        exact hq bound
      rw [Table.get?, if_neg ne, ih ht hp]

theorem operator_equal_symm {o p : Operator} (h : o.equal p = true) : p.equal o = true := by
  cases o <;> cases p <;> simp_all [Operator.equal]

/-- A table that binds as many distinct names, all of which the second one binds, has all of the
names of the second. -/
theorem names_subset {xs ys : Table Value} (hx : (Table.names xs).Nodup)
    (hl : xs.length = ys.length) (h : ∀ p ∈ xs, (Table.get? p.1 ys).isSome) :
    Table.names ys ⊆ Table.names xs := by
  have sub : Table.names xs ⊆ Table.names ys := by
    intro name hn
    obtain ⟨p, hp, rfl⟩ := List.mem_map.1 hn
    exact Table.isSome_get?_iff.1 (h p hp)
  have perm := (hx.subperm sub).perm_of_length_le (by simp [Table.names, hl])
  exact perm.symm.subset

theorem beq_symm {v w : Value} (hv : v.distinctKeys = true) (hw : w.distinctKeys = true)
    (h : (v == w) = true) : (w == v) = true := by
  induction v using Value.induction generalizing w with
  | number x =>
    cases w with
    | number y => exact BEq.symm (α := Float) h
    | string | boolean | collection | mapping | operator | nothing => cases h
  | string s =>
    cases w with
    | string t => cases eq_of_beq (a := s) (b := t) h; exact h
    | collection ys => exact beq_collection_string.2 (beq_string_collection.1 h)
    | number | boolean | mapping | operator | nothing => cases h
  | boolean b =>
    cases w with
    | boolean c => cases eq_of_beq (a := b) (b := c) h; exact h
    | number | string | collection | mapping | operator | nothing => cases h
  | collection xs ih =>
    cases w with
    | collection ys =>
      rw [distinctKeys_collection] at hv hw
      obtain ⟨hl, items⟩ := beq_collection.1 h
      refine beq_collection.2 ⟨hl.symm, fun p hp => ?_⟩
      have hp' : (p.2, p.1) ∈ xs.zip ys := by
        rw [← List.zip_swap] at hp
        obtain ⟨q, hq, rfl⟩ := List.mem_map.1 hp
        exact hq
      have members := List.of_mem_zip hp'
      exact ih p.2 members.1 (hv p.2 members.1) (hw p.1 members.2) (items _ hp')
    | string t => exact beq_string_collection.2 (beq_collection_string.1 h)
    | number | boolean | mapping | operator | nothing => cases h
  | mapping xs ih =>
    cases w with
    | mapping ys =>
      rw [distinctKeys_mapping] at hv hw
      obtain ⟨hl, bound, entries⟩ := beq_mapping.1 h
      refine beq_mapping.2 ⟨hl.symm, fun q hq => ?_, fun q hq x hx => ?_⟩
      · exact Table.isSome_get?_iff.2 (names_subset hv.1 hl bound (List.mem_map_of_mem hq))
      · have member := Table.mem_of_get? hx
        have same := entries (q.1, x) member q.2 (get?_eq_some_of_mem hw.1 hq)
        exact ih (q.1, x) member (hv.2 _ member) (hw.2 q hq) same
    | number | string | boolean | collection | operator | nothing => cases h
  | operator op =>
    cases w with
    | operator p => exact operator_equal_symm h
    | number | string | boolean | collection | mapping | nothing => cases h
  | nothing =>
    cases w with
    | nothing => rfl
    | number | string | boolean | collection | mapping | operator => cases h

end Value

/-! ## Chains -/

instance : IsTrans Value Value.Alike := ⟨fun _ _ _ => Value.Alike.trans⟩

theorem Value.ofTruth_false_ne_true : ofTruth false ≠ ofTruth true := by
  intro h
  have different : (0 : Float) ≠ 1 := by decide +kernel
  exact different (Value.number.inj h)

section

variable [Generator]

/-- A chain of neighbours that is found to be equal is evaluated to its end. -/
theorem Relation.chain_equal {ev : Node → Eval Value} {line : Nat} {v : Value} {ns : List Node}
    {m m' : Machine} (h : Relation.equal.chain ev line v ns m = some (.ofTruth true, m')) :
    ∃ vs, Eval.all ev ns m = some (vs, m') ∧
      List.IsChain (fun v w : Value => (v == w) = true) (v :: vs) := by
  induction ns generalizing v m with
  | nil =>
    cases h
    exact ⟨[], rfl, .singleton _⟩
  | cons n ns ih =>
    obtain ⟨w, m₁, hw, h⟩ := Eval.bind_eq_some_iff.1 h
    simp only [Relation.holds?] at h
    cases hvw : v == w with
    | true =>
      rw [hvw] at h
      obtain ⟨ws, hs, chain⟩ := ih h
      refine ⟨w :: ws, ?_, .cons_cons hvw chain⟩
      exact Eval.bind_eq_some_iff.2 ⟨w, m₁, hw, Eval.bind_eq_some_iff.2 ⟨ws, m', hs, rfl⟩⟩
    | false =>
      rw [hvw] at h
      exact absurd (Prod.mk.inj (Option.some.inj h)).1 Value.ofTruth_false_ne_true

theorem Relation.call_equal {ev : Node → Eval Value} {line : Nat} {args : List Node}
    {m m' : Machine} (h : Relation.equal.call ev args line m = some (.ofTruth true, m')) :
    ∃ vs, Eval.all ev args m = some (vs, m') ∧
      List.IsChain (fun v w : Value => (v == w) = true) vs := by
  cases args with
  | nil =>
    cases h
    exact ⟨[], rfl, .nil⟩
  | cons n ns =>
    obtain ⟨v, m₁, hv, h⟩ := Eval.bind_eq_some_iff.1 h
    obtain ⟨vs, hs, chain⟩ := Relation.chain_equal h
    exact ⟨v :: vs, Eval.bind_eq_some_iff.2 ⟨v, m₁, hv, Eval.bind_eq_some_iff.2 ⟨vs, m', hs, rfl⟩⟩,
      chain⟩

/-- **Equality carries over where nothing clashes**: two values that are equal to one between them
are equal if and only if they do not clash. Where a chained comparison finds its arguments equal,
any two of them that do not clash are equal, whatever is between them. -/
theorem equality_carries_over :
    (∀ a b c : Value, (a == b) = true → (b == c) = true →
      ((a == c) = true ↔ a.clashes c = false)) ∧
    ∀ (ev : Node → Eval Value) (args : List Node) (line : Nat) (m m' : Machine),
      Relation.equal.call ev args line m = some (.ofTruth true, m') →
      ∃ vs, Eval.all ev args m = some (vs, m') ∧ vs.Pairwise fun v w => v.clashes w = false →
        (v == w) = true ∧ (v.distinctKeys = true → w.distinctKeys = true → (w == v) = true) := by
  constructor
  · intro a b c hab hbc
    have alike : a.Alike c := (Value.beq_iff_alike.1 hab).1.trans (Value.beq_iff_alike.1 hbc).1
    rw [Value.beq_iff_alike]
    exact and_iff_right alike
  · intro ev args line m m' h
    obtain ⟨vs, hs, chain⟩ := Relation.call_equal h
    have alike : vs.Pairwise Value.Alike :=
      (chain.imp fun v w h => (Value.beq_iff_alike.1 h).1).pairwise
    refine ⟨vs, hs, alike.imp fun {v w} h clash => ?_⟩
    have equal := Value.beq_iff_alike.2 ⟨h, clash⟩
    exact ⟨equal, fun hv hw => Value.beq_symm hv hw equal⟩

end

open scoped Sigil.Random

/-- A string, its characters, a collection of each of them, and its characters again: the string
clashes with the third of them only. -/
theorem equality_carries_over_nested :
    let a := Node.literal (.string "a") 1
    let b := Node.literal (.string "b") 1
    let args := [.literal (.string "ab") 1, .collection [a, b] 1,
      .collection [.collection [a] 1, .collection [b] 1] 1, .collection [a, b] 1]
    let text : Value := .string "ab"
    let chars : Value := .collection [.string "a", .string "b"]
    let nested : Value := .collection [.collection [.string "a"], .collection [.string "b"]]
    let m := (({} : Config).interpreter (Generator.ofSeed 0)).machine []
    ((text == nested) = true ↔ text.clashes nested = false) ∧
    Relation.equal.call (evaluate 9 9) args 1 m = some (.ofTruth true, m) ∧
    Eval.all (evaluate 9 9) args m = some ([text, chars, nested, chars], m) ∧
    [text, chars, nested, chars].Pairwise fun v w => v.clashes w = false →
      (v == w) = true ∧ (v.distinctKeys = true → w.distinctKeys = true → (w == v) = true) := by
  intro a b args text chars nested m
  have called : Relation.equal.call (evaluate 9 9) args 1 m = some (.ofTruth true, m) := rfl
  have values : Eval.all (evaluate 9 9) args m = some ([text, chars, nested, chars], m) := rfl
  obtain ⟨vs, all, pairwise⟩ := equality_carries_over.2 (evaluate 9 9) args 1 m m called
  rw [values] at all
  cases all
  exact ⟨equality_carries_over.1 text chars nested (by decide +kernel) (by decide +kernel), called,
    values, pairwise⟩

/-- Equality is not transitive, and a chained comparison is true of values that are not all
equal. -/
theorem equality_not_transitive :
    let a := Node.literal (.string "a") 1
    let b := Node.literal (.string "b") 1
    let args := [.literal (.string "ab") 1, .collection [a, b] 1,
      .collection [.collection [a] 1, .collection [b] 1] 1]
    let text : Value := .string "ab"
    let chars : Value := .collection [.string "a", .string "b"]
    let nested : Value := .collection [.collection [.string "a"], .collection [.string "b"]]
    let m := (({} : Config).interpreter (Generator.ofSeed 0)).machine []
    ((text == chars) = true ∧ (chars == nested) = true ∧ (text == nested) = false) ∧
    Relation.equal.call (evaluate 9 9) args 1 m = some (.ofTruth true, m) ∧
    Eval.all (evaluate 9 9) args m = some ([text, chars, nested], m) := by
  intro a b args text chars nested m
  exact ⟨by decide +kernel, rfl, rfl⟩

end Sigil
