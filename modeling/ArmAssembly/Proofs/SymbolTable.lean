import ArmAssembly.Proofs.ByteOrder
import ArmAssembly.Proofs.TwoPass
import Mathlib.Data.Finset.Card
import Mathlib.Data.Finset.Dedup

set_option autoImplicit false

/-! # Symbol tables and their history

A symbol table is built by calls of `Symbols.define` alone. What it shows is decided by the list of
these calls: for each name the first of them counts (`Symbols.find?_defineAll`). So all the ways to
look at a table agree with one history (`Symbols.Records`), and the order of the calls is
nowhere to be seen unless a name repeats (`Symbols.first_definition_counts`).
-/

namespace ArmAssembly

namespace Symbols

/-- Calls of `define` one after the other: what each of them answers, and the table that
they leave. -/
def defineAll (s : Symbols) : List (String × Definition) → List Bool × Symbols
  | [] => ([], s)
  | (name, d) :: calls =>
    let answered := s.define name d
    let rest := answered.2.defineAll calls
    (answered.1 :: rest.1, rest.2)

variable (s : Symbols)

theorem defineAll_append (calls more : List (String × Definition)) :
    s.defineAll (calls ++ more)
      = ((s.defineAll calls).1 ++ ((s.defineAll calls).2.defineAll more).1,
        ((s.defineAll calls).2.defineAll more).2) := by
  induction calls generalizing s with
  | nil => rfl
  | cons call calls ih => simp [defineAll, ih]

theorem length_defineAll (calls : List (String × Definition)) :
    (s.defineAll calls).1.length = calls.length := by
  induction calls generalizing s with
  | nil => rfl
  | cons call calls ih => simp [defineAll, ih]

/-- A call answers whether the name was new. -/
theorem define_fst (name : String) (d : Definition) :
    (s.define name d).1 = !s.contains name := by
  unfold define
  split <;> simp [*]

theorem define_of_contains {name : String} (h : s.contains name = true) (d : Definition) :
    (s.define name d).2 = s := by
  rw [define, if_pos h]

/-- A definition that was there counts, else the first one that the calls bring. -/
theorem find?_defineAll (calls : List (String × Definition)) (name : String) :
    (s.defineAll calls).2.find? name = (s.find? name).or (calls.lookup name) := by
  induction calls generalizing s with
  | nil => simp [defineAll]
  | cons call calls ih =>
      obtain ⟨other, d⟩ := call
      have hlookup : ((other, d) :: calls).lookup name
          = (if other = name then some d else none).or (calls.lookup name) := by
        by_cases h : other = name
        · subst h
          simp
        · have hne : (name == other) = false := beq_false_of_ne (Ne.symm h)
          simp [List.lookup_cons, hne, h]
      rw [defineAll, ih, find?_define, hlookup, Option.or_assoc]

theorem find?_empty (name : String) : empty.find? name = none := by
  simp [find?, empty]

/-- The calls on the empty table define the names that they mention. -/
theorem contains_defineAll_empty (calls : List (String × Definition)) (name : String) :
    (empty.defineAll calls).2.contains name = true ↔ name ∈ calls.map Prod.fst := by
  rw [contains_eq_isSome_find?, find?_defineAll, find?_empty, Option.none_or,
    List.lookup_isSome_iff, List.mem_map]
  exact exists_congr fun call => and_congr_right fun _ => beq_iff_eq.trans eq_comm

/-- A call answers `true` just if no call before it has its name. -/
theorem answer_defineAll (before : List (String × Definition)) (name : String) (d : Definition)
    (after : List (String × Definition)) :
    (empty.defineAll (before ++ (name, d) :: after)).1[before.length]?
      = some (decide (name ∉ before.map Prod.fst)) := by
  have hanswer : (empty.defineAll (before ++ (name, d) :: after)).1[before.length]?
      = some ((empty.defineAll before).2.define name d).1 := by
    rw [defineAll_append, List.getElem?_append_right (length_defineAll _ _).le, length_defineAll,
      Nat.sub_self]
    rfl
  rw [hanswer, define_fst, Option.some.injEq, Bool.eq_iff_iff, Bool.not_eq_true', decide_eq_true_eq,
    ← contains_defineAll_empty before name, Bool.not_eq_true]

/-- A call with a name that an earlier call has leaves the table as it is. -/
theorem defineAll_of_mem {before : List (String × Definition)} {name : String}
    (h : name ∈ before.map Prod.fst) (d : Definition) :
    (empty.defineAll (before ++ [(name, d)])).2 = (empty.defineAll before).2 := by
  rw [defineAll_append]
  exact define_of_contains _ ((contains_defineAll_empty before name).mpr h) d

/-- Tables that define the same hold the same. -/
theorem definitions_toList_eq {s t : Symbols} (h : s.find? = t.find?) :
    s.definitions.toList = t.definitions.toList :=
  (Std.TreeMap.Equiv.of_forall_constGet?_eq fun name => congrFun h name).toList_eq

theorem isEmpty_iff_address? : s.isEmpty = true ↔ ∀ name, s.address? name = none := by
  refine Std.TreeMap.isEmpty_iff_forall_contains.trans (forall_congr' fun name => ?_)
  rw [address?, Option.map_eq_none_iff, ← Option.isNone_iff_eq_none,
    ← Option.isSome_eq_false_iff, ← contains_eq_isSome_find?]
  rfl

theorem size_eq_card {names : List String}
    (h : ∀ name, s.contains name = true ↔ name ∈ names) : s.size = names.toFinset.card := by
  have hkeys : s.definitions.keys.toFinset = names.toFinset := by
    ext name
    rw [List.mem_toFinset, List.mem_toFinset, ← h, Std.TreeMap.mem_keys]
    rfl
  rw [← hkeys, List.toFinset_card_of_nodup s.definitions.nodup_keys, Std.TreeMap.length_keys]
  rfl

/-- The listed names ascend in the order of their bytes. -/
theorem toList_pairwise_textBytes :
    s.toList.Pairwise fun a b => textBytes a.1 < textBytes b.1 := by
  refine List.pairwise_map.mpr (s.definitions.ordered_keys_toList.imp fun h => ?_)
  exact textBytes_lt (compareOfLessAndEq_eq_lt.mp h)

/-! ## The order of the calls -/

/-- Where no name repeats, the first definition of a name is the only one. -/
theorem lookup_eq_some_iff_mem {calls : List (String × Definition)}
    (h : (calls.map Prod.fst).Nodup) (name : String) (d : Definition) :
    calls.lookup name = some d ↔ (name, d) ∈ calls := by
  rw [List.lookup_eq_some_iff]
  constructor
  · rintro ⟨before, after, rfl, -⟩
    exact List.mem_append_right _ (List.mem_cons_self ..)
  · intro hmem
    obtain ⟨before, after, rfl⟩ := List.append_of_mem hmem
    refine ⟨before, after, rfl, fun call hcall => ?_⟩
    rw [List.map_append, List.nodup_append] at h
    have hne : call.1 ≠ name :=
      h.2.2 _ (List.mem_map_of_mem hcall) _ (List.mem_map_of_mem (List.mem_cons_self ..))
    exact bne_iff_ne.mpr hne.symm

theorem lookup_eq_of_perm {calls other : List (String × Definition)} (hperm : calls.Perm other)
    (h : (calls.map Prod.fst).Nodup) (name : String) : calls.lookup name = other.lookup name := by
  have hother : (other.map Prod.fst).Nodup := (hperm.map Prod.fst).nodup_iff.mp h
  ext d
  rw [lookup_eq_some_iff_mem h, lookup_eq_some_iff_mem hother, hperm.mem_iff]

/-! ## All that is seen of a table

A table can be looked at in several ways. Each of them is told by the calls alone, so that no way of
looking at it depends on how the table is kept. -/

/-- What calls on the empty table answer and leave, told from the list of the calls alone. -/
structure Records (calls : List (String × Definition)) (answers : List Bool) (s : Symbols) :
    Prop where
  /-- Each call has an answer, `true` just if no call before it has its name. -/
  answers : answers.length = calls.length ∧ ∀ before name d after,
    calls = before ++ (name, d) :: after →
      answers[before.length]? = some (decide (name ∉ before.map Prod.fst))
  /-- A call with a name that an earlier call has leaves the table as it is. -/
  unchanged : ∀ before name d after, calls = before ++ (name, d) :: after →
    name ∈ before.map Prod.fst →
      (empty.defineAll (before ++ [(name, d)])).2 = (empty.defineAll before).2
  /-- The first call with a name gives its address. -/
  address : ∀ name, s.address? name = (calls.lookup name).map Definition.address
  contains : ∀ name, s.contains name = (s.address? name).isSome
  isEmpty : s.isEmpty = true ↔ ∀ name, s.address? name = none
  size : s.size = (calls.map Prod.fst).toFinset.card
  listed : ∀ name address, (name, address) ∈ s.toList ↔ s.address? name = some address
  /-- Each name is listed once, and the names are strictly ascending. -/
  ascending : s.toList.Pairwise fun a b => textBytes a.1 < textBytes b.1

theorem records_defineAll (calls : List (String × Definition)) :
    Records calls (empty.defineAll calls).1 (empty.defineAll calls).2 where
  answers := by
    refine ⟨length_defineAll empty calls, ?_⟩
    rintro before name d after rfl
    exact answer_defineAll before name d after
  unchanged := fun _ _ d _ _ hmem => defineAll_of_mem hmem d
  address name := by
    rw [address?, find?_defineAll, find?_empty, Option.none_or]
  contains name := by
    rw [contains_eq_isSome_find?, address?, Option.isSome_map]
  isEmpty := isEmpty_iff_address? _
  size := size_eq_card _ (contains_defineAll_empty calls)
  listed := mem_toList_iff _
  ascending := toList_pairwise_textBytes _

/-- **The first definition of a name counts.** What the calls of `define` answer, and all that
is seen of the table that they leave, is told by the first call with each name. So calls with
different names leave the same table in any order. -/
theorem first_definition_counts (calls : List (String × Definition)) :
    Records calls (empty.defineAll calls).1 (empty.defineAll calls).2 ∧
      ∀ other, calls.Perm other → (calls.map Prod.fst).Nodup →
        (empty.defineAll other).2.definitions.toList
          = (empty.defineAll calls).2.definitions.toList := by
  refine ⟨records_defineAll calls, fun other hperm hnodup => definitions_toList_eq ?_⟩
  funext name
  rw [find?_defineAll, find?_defineAll, lookup_eq_of_perm hperm hnodup name]

/-- Two names that differ in case only, defined in either order. -/
theorem first_definition_counts_cases :
    (empty.defineAll
        [("loop", ⟨⟨7⟩, ⟨9, 13⟩⟩), ("Loop", ⟨⟨1⟩, ⟨0, 4⟩⟩)]).2.definitions.toList
      = (empty.defineAll
          [("Loop", ⟨⟨1⟩, ⟨0, 4⟩⟩), ("loop", ⟨⟨7⟩, ⟨9, 13⟩⟩)]).2.definitions.toList :=
  (first_definition_counts [("Loop", ⟨⟨1⟩, ⟨0, 4⟩⟩), ("loop", ⟨⟨7⟩, ⟨9, 13⟩⟩)]).2 _
    (List.Perm.swap _ _ _) (by decide)

end Symbols

end ArmAssembly
