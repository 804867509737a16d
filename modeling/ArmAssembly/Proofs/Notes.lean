import ArmAssembly.Log
import ArmAssembly.Proofs.Reading

set_option autoImplicit false

/-! # Taking notes

Notes are taken beside a pass (`Pass.noting`). The pass answers each item as it would without them,
so a run with notes takes the same items, stops at the same place and ends alike; all that is new
is the log, which holds the notes on the items that were taken (`Pass.run_noting`). So the assembler
has one outcome, whether it takes notes or not, and its log tells the way to this outcome and no
further (`assembleLogged_eq`).
-/

namespace ArmAssembly

namespace Pass

variable {σ : Type}

/-! ## One item, and a run

The log is only ever added to at its end, so what it holds already is left open. -/

/-- The notes on a list of items, up to the first that the pass refuses. -/
def notesOn (pass : Pass σ) (notes : σ → Located Item → List Note) :
    List (Located Item) → σ → List Note
  | [], _ => []
  | i :: items, x =>
    match pass i x with
    | .ok _ y => notes x i ++ notesOn pass notes items y
    | .error _ _ => []

/-- Notes change nothing in a run, and the log is that of the items of the reading. -/
theorem replay_noting (pass : Pass σ) (notes : σ → Located Item → List Note) (r : Reading) (x : σ)
    (log : Array Note) :
    r.replay (pass.noting notes) (x, log) = match r.replay pass x with
      | .ok _ s => .ok () ⟨s.cursor, (s.result, log ++ pass.notesOn notes r.items x)⟩
      | .error problem s =>
        .error problem ⟨s.cursor, (s.result, log ++ pass.notesOn notes r.items x)⟩ := by
  induction r generalizing x log with
  | finished cursor => simp [Reading.replay, Reading.items, notesOn]
  | stuck problem cursor => simp [Reading.replay, Reading.items, notesOn]
  | item i cursor rest ih =>
      simp only [Reading.replay, Reading.items, notesOn, noting]
      -- an item that is refused ends the run and leaves no note
      cases pass i x with
      | error problem y => simp
      | ok a y =>
          have hlog : log ++ notes x i ++ pass.notesOn notes rest.items y =
              log ++ (notes x i ++ pass.notesOn notes rest.items y) := Array.ext' (by simp)
          simp only [ih, hlog]

theorem run_noting (pass : Pass σ) (notes : σ → Located Item → List Note) (tokens : List Token)
    (x : σ) (log : Array Note) :
    (pass.noting notes).run tokens (x, log) = match pass.run tokens x with
      | .ok _ s =>
        .ok () ⟨s.cursor, (s.result, log ++ pass.notesOn notes (Reading.ofTokens tokens).items x)⟩
      | .error problem s =>
        .error problem
          ⟨s.cursor, (s.result, log ++ pass.notesOn notes (Reading.ofTokens tokens).items x)⟩ := by
  rw [run_eq_replay, run_eq_replay, replay_noting]

end Pass

/-! ## The assembler

A pass that fails still leaves the notes up to its failure. The notes on the whole program are taken
only where there is one. -/

/-- The log of a sequence of tokens. -/
def logOf (tokens : List Token) : List Note :=
  let items := (Reading.ofTokens tokens).items
  let first := Layout.pass.notesOn Layout.notes items .initial
  match layoutOf tokens with
  | .error _ => first
  | .ok layout =>
    let second := (Placement.pass layout.symbols).notesOn (Placement.notes layout.symbols) items
      .initial
    match placementOf layout.symbols tokens with
    | .error _ => first ++ [.layoutEnd layout] ++ second
    | .ok placement =>
      first ++ [.layoutEnd layout] ++ second ++
        [.placementEnd placement, .assembled layout placement]

theorem assembleLogged_of_scan {source : List Char} {tokens : List Token}
    (h : scan source = .ok tokens) :
    assembleLogged source = (assembleTokens tokens, (logOf tokens).toArray) := by
  unfold assembleLogged logOf
  simp only [h, Pass.run_noting, assembleTokens, layoutOf, placementOf]
  cases Layout.pass.run tokens .initial with
  | error problem s => exact Prod.ext rfl (Array.ext' (by simp [Pass.outcome]))
  | ok _ s =>
      have hbind : (Pass.outcome (.ok () s) : Except Problem Layout) = .ok s.result := rfl
      simp only [hbind, bind, Except.bind]
      cases (Placement.pass s.result.symbols).run tokens .initial with
      | error problem t => exact Prod.ext rfl (Array.ext' (by simp [Pass.outcome]))
      | ok _ t => exact Prod.ext rfl (Array.ext' (by simp [Pass.outcome]))

/-- **Taking notes changes nothing.** The assembler that takes notes has the outcome of the one that
does not. Its log is empty if the text cannot be cut into tokens, and else that of the tokens. -/
theorem assembleLogged_eq (source : List Char) :
    assembleLogged source = (assemble source, match scan source with
      | .error _ => #[]
      | .ok tokens => (logOf tokens).toArray) := by
  cases hscan : scan source with
  | error problem =>
      unfold assembleLogged assemble
      rw [hscan]
      rfl
  | ok tokens => rw [assembleLogged_of_scan hscan, assemble_of_scan hscan]

end ArmAssembly
