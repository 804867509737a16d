import ArmAssembly.Statement.Progress

set_option autoImplicit false

/-! # Passes

A pass goes over a program once and takes its items one after the other. It may refuse an
item, which ends it. The statements are read as the pass goes: the label of a statement is
taken before the rest of the statement is read, and no item is taken after one that was
refused or after a statement that could not be read.
-/

namespace ArmAssembly

/-- What a pass with results of type `σ` does with an item. -/
abbrev Pass (σ : Type) : Type := Located Item → EStateM Problem σ Unit

/-- A pass under way: the place that it has reached and its result so far. -/
structure Pass.State (σ : Type) where
  cursor : Cursor
  result : σ

namespace Pass

variable {σ : Type}

/-- Takes an item that ends at `cursor`. -/
def take (pass : Pass σ) (item : Located Item) (cursor : Cursor) (result : σ) :
    EStateM.Result Problem (State σ) Unit :=
  match pass item result with
  | .ok _ result => .ok () ⟨cursor, result⟩
  | .error problem result => .error problem ⟨cursor, result⟩

/-- Reads one operation and takes it. -/
def operation (pass : Pass σ) (s : State σ) : EStateM.Result Problem (State σ) Unit :=
  match Reader.operation s.cursor with
  | .ok item cursor => pass.take item cursor s.result
  | .error problem cursor => .error problem ⟨cursor, s.result⟩

/-- Reads and takes the label declaration of a statement, if there is one. -/
def declaration (pass : Pass σ) (s : State σ) : EStateM.Result Problem (State σ) Unit :=
  match s.cursor.declaration? with
  | some (item, cursor) => pass.take item cursor s.result
  | none => .ok () s

/-- Reads one statement and takes its items. -/
def statement (pass : Pass σ) (s : State σ) : EStateM.Result Problem (State σ) Unit :=
  match pass.declaration s with
  | .ok _ s => pass.operation s
  | .error problem s => .error problem s

theorem cursor_of_take {pass : Pass σ} {item : Located Item} {cursor : Cursor} {result : σ}
    {s : State σ} (h : pass.take item cursor result = .ok () s) : s.cursor = cursor := by
  unfold take at h
  split at h <;> cases h
  rfl

theorem length_lt_of_operation {pass : Pass σ} {s t : State σ}
    (h : pass.operation s = .ok () t) : t.cursor.after.length < s.cursor.after.length := by
  unfold operation at h
  split at h
  · next hread =>
      rw [cursor_of_take h]
      exact Reader.length_lt_of_operation hread
  · cases h

theorem length_le_of_declaration {pass : Pass σ} {s t : State σ}
    (h : pass.declaration s = .ok () t) : t.cursor.after.length ≤ s.cursor.after.length := by
  unfold declaration at h
  split at h
  · next hread =>
      have hlength := Cursor.length_of_declaration hread
      rw [cursor_of_take h]
      omega
  · cases h
    exact Nat.le_refl _

/-- A statement takes at least one token. -/
theorem length_lt_of_statement {pass : Pass σ} {s t : State σ}
    (h : pass.statement s = .ok () t) : t.cursor.after.length < s.cursor.after.length := by
  unfold statement at h
  split at h
  · next hdecl =>
      exact Nat.lt_of_lt_of_le (length_lt_of_operation h) (length_le_of_declaration hdecl)
  · cases h

/-- Goes over all statements that are left. -/
def go (pass : Pass σ) (s : State σ) : EStateM.Result Problem (State σ) Unit :=
  match s.cursor.after with
  | [] => .ok () s
  | _ :: _ =>
    match _taken : pass.statement s with
    | .ok _ t => go pass t
    | .error problem t => .error problem t
termination_by s.cursor.after.length
decreasing_by exact length_lt_of_statement _taken

/-- Goes over a whole program, starting with the result `initial`. -/
def run (pass : Pass σ) (tokens : List Token) (initial : σ) :
    EStateM.Result Problem (State σ) Unit :=
  pass.go ⟨.ofList tokens, initial⟩

end Pass

/-- The outcome of a pass without the place where it ended. -/
def Pass.outcome {σ : Type} (result : EStateM.Result Problem (Pass.State σ) Unit) :
    Except Problem σ :=
  match result with
  | .ok _ s => .ok s.result
  | .error problem _ => .error problem

/-! ## The pass that only listens -/

/-- The items of a program and the address that each was taken at. -/
structure Transcript where
  address : Address
  items : Array (Address × Located Item)

namespace Transcript

/-- Nothing was taken yet. -/
def empty : Transcript := ⟨.zero, #[]⟩

/-- Writes down every item and refuses none. -/
def pass : Pass Transcript := fun item t =>
  .ok () ⟨t.address.advance item.value.units, t.items.push (t.address, item)⟩

end Transcript

end ArmAssembly
