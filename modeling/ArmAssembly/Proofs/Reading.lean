import ArmAssembly.Pass

set_option autoImplicit false

/-! # What a program hands to a pass

A pass decides what becomes of an item, but not which items come. The reading of a program
(`Reading`) is the sequence of its items with the places where they end, and the way in which
it stops. Every pass is the same reading taken item by item (`Pass.go_eq_replay`), so what is
to be said about a pass is said about a list of items (`Pass.takeAll`).
-/

namespace ArmAssembly

/-- The items that a program hands over, one after the other. -/
inductive Reading where
  /-- All tokens were read. -/
  | finished (cursor : Cursor)
  /-- A statement could not be read. -/
  | stuck (problem : Problem) (cursor : Cursor)
  /-- An item, the place behind it, and the reading from there. -/
  | item (item : Located Item) (cursor : Cursor) (rest : Reading)

namespace Reading

/-- The reading of the statements that are left. -/
def ofCursor (c : Cursor) : Reading :=
  match c.after with
  | [] => .finished c
  | _ :: _ =>
    match _label : c.declaration? with
    | none =>
      match _op : Reader.operation c with
      | .ok operation e => .item operation e (ofCursor e)
      | .error problem e => .stuck problem e
    | some (label, d) =>
      match _op : Reader.operation d with
      | .ok operation e => .item label d (.item operation e (ofCursor e))
      | .error problem e => .item label d (.stuck problem e)
termination_by c.after.length
decreasing_by
  · exact Reader.length_lt_of_operation _op
  · have hlabel := Cursor.length_of_declaration _label
    have hop := Reader.length_lt_of_operation _op
    omega

/-- The reading from a place where an operation has to stand. -/
def ofOperation (c : Cursor) : Reading :=
  match Reader.operation c with
  | .ok operation d => .item operation d (ofCursor d)
  | .error problem d => .stuck problem d

theorem ofCursor_nil {c : Cursor} (hafter : c.after = []) : ofCursor c = .finished c := by
  rw [ofCursor]
  simp [hafter]

theorem ofCursor_plain {c : Cursor} (hafter : c.after ≠ []) (hlabel : c.declaration? = none) :
    ofCursor c = ofOperation c := by
  rw [ofCursor, ofOperation]
  grind

theorem ofCursor_labelled {c d : Cursor} {label : Located Item}
    (hlabel : c.declaration? = some (label, d)) :
    ofCursor c = .item label d (ofOperation d) := by
  have hlength := Cursor.length_of_declaration hlabel
  rw [ofCursor, ofOperation]
  grind

/-- The reading of a whole program. -/
def ofTokens (tokens : List Token) : Reading := ofCursor (.ofList tokens)

/-- The items of a reading. -/
def items : Reading → List (Located Item)
  | finished _ => []
  | stuck _ _ => []
  | item i _ rest => i :: rest.items

/-- The problem that stops a reading, if it does not reach the end. -/
def problem? : Reading → Option Problem
  | finished _ => none
  | stuck problem _ => some problem
  | item _ _ rest => rest.problem?

/-- The place where a reading stops. -/
def stop : Reading → Cursor
  | finished cursor => cursor
  | stuck _ cursor => cursor
  | item _ _ rest => rest.stop

/-- A pass takes the items of a reading, up to the first that it refuses. -/
def replay {σ : Type} (pass : Pass σ) :
    Reading → σ → EStateM.Result Problem (Pass.State σ) Unit
  | finished cursor, x => .ok () ⟨cursor, x⟩
  | stuck problem cursor, x => .error problem ⟨cursor, x⟩
  | item i cursor rest, x =>
    match pass i x with
    | .ok _ y => rest.replay pass y
    | .error problem y => .error problem ⟨cursor, y⟩

end Reading

namespace Pass

variable {σ : Type}

/-! ## Every pass is a replay

The pass takes an item as soon as it has read it, and the reading lists all items first. A pass that
refuses an item stops before the rest is read, so it makes no difference what the reading has there.
-/

/-- Going on after the outcome of a statement. -/
def goOn (pass : Pass σ) :
    EStateM.Result Problem (State σ) Unit → EStateM.Result Problem (State σ) Unit
  | .ok _ t => pass.go t
  | .error problem t => .error problem t

theorem go_eq_goOn {pass : Pass σ} {s : State σ} (hafter : s.cursor.after ≠ []) :
    pass.go s = pass.goOn (pass.statement s) := by
  rw [go]
  split
  · next hnil => exact absurd hnil hafter
  · split
    · next hok => rw [hok]; rfl
    · next herr => rw [herr]; rfl

/-- An operation and all that follows it, if the statements that follow are a replay. -/
theorem goOn_operation {pass : Pass σ} {c : Cursor} (x : σ)
    (ih : ∀ d : Cursor, d.after.length < c.after.length →
      ∀ y, pass.go ⟨d, y⟩ = (Reading.ofCursor d).replay pass y) :
    pass.goOn (pass.operation ⟨c, x⟩) = (Reading.ofOperation c).replay pass x := by
  simp only [operation, Reading.ofOperation]
  cases hop : Reader.operation c with
  | error problem d => rfl
  | ok item d =>
      have hd := ih d (Reader.length_lt_of_operation hop)
      simp only [take, Reading.replay]
      cases pass item x with
      | error problem y => rfl
      | ok a y => exact hd y

/-- **A pass is a replay of the reading.** What comes next depends on the place that was
reached and never on the result of the pass. -/
theorem go_eq_replay (pass : Pass σ) (c : Cursor) (x : σ) :
    pass.go ⟨c, x⟩ = (Reading.ofCursor c).replay pass x := by
  -- on the number of tokens that are left, which an operation makes smaller
  induction hn : c.after.length using Nat.strongRecOn generalizing c x with
  | ind n ih =>
      subst hn
      by_cases hafter : c.after = []
      · rw [Reading.ofCursor_nil hafter, go]
        simp [hafter, Reading.replay]
      rw [go_eq_goOn hafter, statement]
      cases hlabel : c.declaration? with
      | none =>
          rw [Reading.ofCursor_plain hafter hlabel]
          simp only [declaration, hlabel]
          exact goOn_operation x fun d hd y => ih _ hd d y rfl
      | some found =>
          obtain ⟨label, d⟩ := found
          have hlength := Cursor.length_of_declaration hlabel
          rw [Reading.ofCursor_labelled hlabel]
          simp only [declaration, hlabel, take, Reading.replay]
          cases pass label x with
          | error problem y => rfl
          | ok a y => exact goOn_operation y fun e he z => ih _ (by omega) e z rfl

/-! ## Passes over lists of items -/

/-- A pass takes a list of items, up to the first that it refuses. -/
def takeAll (pass : Pass σ) : List (Located Item) → σ → Except Problem σ
  | [], x => .ok x
  | i :: items, x =>
    match pass i x with
    | .ok _ y => takeAll pass items y
    | .error problem _ => .error problem

section

variable {pass : Pass σ} {u v : List (Located Item)} {i : Located Item} {x y : σ}

theorem takeAll_cons_eq_ok_iff :
    pass.takeAll (i :: u) x = .ok y ↔ ∃ z, pass i x = .ok () z ∧ pass.takeAll u z = .ok y := by
  rw [takeAll]
  cases hi : pass i x with
  | error problem z =>
      constructor
      · nofun
      · rintro ⟨_, hz, -⟩
        cases hz
  | ok _ z =>
      constructor
      · exact fun h => ⟨z, rfl, h⟩
      · rintro ⟨_, hz, h⟩
        cases hz
        exact h

/-- A pass takes two lists of items one after the other. -/
theorem takeAll_append_eq_ok_iff :
    pass.takeAll (u ++ v) x = .ok y ↔
      ∃ z, pass.takeAll u x = .ok z ∧ pass.takeAll v z = .ok y := by
  induction u generalizing x with
  | nil =>
      constructor
      · exact fun h => ⟨x, rfl, h⟩
      · rintro ⟨_, hz, h⟩
        cases hz
        exact h
  | cons i u ih =>
      rw [List.cons_append, takeAll_cons_eq_ok_iff]
      simp only [takeAll_cons_eq_ok_iff, ih]
      constructor
      · rintro ⟨w, hw, z, hz, h⟩
        exact ⟨z, ⟨w, hw, hz⟩, h⟩
      · rintro ⟨z, ⟨w, hw, hz⟩, h⟩
        exact ⟨w, hw, z, hz, h⟩

/-- The last item is taken behind all others. -/
theorem takeAll_concat_eq_ok_iff :
    pass.takeAll (u ++ [i]) x = .ok y ↔
      ∃ z, pass.takeAll u x = .ok z ∧ pass i z = .ok () y := by
  rw [takeAll_append_eq_ok_iff]
  simp only [takeAll_cons_eq_ok_iff]
  constructor
  · rintro ⟨z, hz, _, hi, h⟩
    cases h
    exact ⟨z, hz, hi⟩
  · rintro ⟨z, hz, hi⟩
    exact ⟨z, hz, y, hi, rfl⟩

end

/-- The outcome of a pass: a refusal comes before a statement that cannot be read, since no
item follows such a statement. -/
theorem outcome_replay (pass : Pass σ) (r : Reading) (x : σ) :
    outcome (r.replay pass x) = (do
      let y ← pass.takeAll r.items x
      match r.problem? with
      | none => .ok y
      | some problem => .error problem) := by
  induction r generalizing x with
  | finished cursor => rfl
  | stuck problem cursor => rfl
  | item i cursor rest ih =>
      simp only [Reading.replay, Reading.items, Reading.problem?, takeAll]
      -- the pass refuses the item before it comes to the rest, or goes on with the rest
      cases pass i x with
      | ok a y => exact ih y
      | error problem y => rfl

/-- A pass that refuses no item succeeds just if the reading reaches the end. -/
theorem replay_eq_ok_iff {pass : Pass σ} (accepts : ∀ i x, ∃ y, pass i x = .ok () y)
    (r : Reading) (x : σ) : (∃ s, r.replay pass x = .ok () s) ↔ r.problem? = none := by
  induction r generalizing x with
  | finished cursor => simp [Reading.replay, Reading.problem?]
  | stuck problem cursor => simp [Reading.replay, Reading.problem?]
  | item i cursor rest ih =>
      obtain ⟨y, hy⟩ := accepts i x
      simpa only [Reading.replay, Reading.problem?, hy] using ih y

theorem run_eq_replay (pass : Pass σ) (tokens : List Token) (x : σ) :
    pass.run tokens x = (Reading.ofTokens tokens).replay pass x :=
  go_eq_replay pass (.ofList tokens) x

theorem outcome_run (pass : Pass σ) (tokens : List Token) (x : σ) :
    outcome (pass.run tokens x) = (do
      let y ← pass.takeAll (Reading.ofTokens tokens).items x
      match (Reading.ofTokens tokens).problem? with
      | none => .ok y
      | some problem => .error problem) := by
  rw [run_eq_replay, outcome_replay]

end Pass

/-! ## The transcript of a reading -/

/-- The items that a transcript holds. -/
def Transcript.calls (t : Transcript) : List (Located Item) :=
  t.items.toList.map Prod.snd

/-- The transcript behind more items. -/
def Transcript.hear (t : Transcript) (items : List (Located Item)) : Transcript :=
  items.foldl (fun t i => ⟨t.address.advance i.value.units, t.items.push (t.address, i)⟩) t

theorem Transcript.calls_hear (t : Transcript) (items : List (Located Item)) :
    (t.hear items).calls = t.calls ++ items := by
  induction items generalizing t with
  | nil => exact (List.append_nil _).symm
  | cons i items ih =>
      rw [hear, List.foldl_cons, ← hear, ih]
      simp [calls]

theorem Transcript.replay_eq (r : Reading) (t : Transcript) :
    r.replay Transcript.pass t = match r.problem? with
      | none => .ok () ⟨r.stop, t.hear r.items⟩
      | some problem => .error problem ⟨r.stop, t.hear r.items⟩ := by
  induction r generalizing t with
  | finished | stuck => rfl
  | item i cursor rest ih => exact ih _

/-- The pass that only listens hears all items of the reading, and the problem that stops
it. -/
theorem Transcript.run_eq (tokens : List Token) :
    ∃ t : Transcript, t.calls = (Reading.ofTokens tokens).items ∧
      Transcript.pass.run tokens .empty = match (Reading.ofTokens tokens).problem? with
        | none => .ok () ⟨(Reading.ofTokens tokens).stop, t⟩
        | some problem => .error problem ⟨(Reading.ofTokens tokens).stop, t⟩ := by
  refine ⟨_, Transcript.calls_hear .empty _, ?_⟩
  rw [Pass.run_eq_replay, Transcript.replay_eq]

end ArmAssembly
