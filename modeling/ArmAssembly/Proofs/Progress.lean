import ArmAssembly.Proofs.Statements
import Mathlib.Data.List.Induction

set_option autoImplicit false

/-! # Passes make progress

A statement is two tokens or more: a first word, and at least one token that the word asks for. So a
pass that takes a statement is two tokens further on, and it is over after half as many statements
as there are tokens, or one more that fails. To look for a label the pass may read up to the end and
go back again, but it goes back just to where it was. All of this holds for every pass at every
place between tokens (`Pass.progress`).
-/

namespace ArmAssembly

/-! ## Positions -/

namespace Cursor

/-- All tokens, those that were read and those that are left. -/
def tokens (c : Cursor) : List Token := c.before.reverse ++ c.after

variable {c d : Cursor} {taken : List Token}

theorem length_tokens (c : Cursor) : c.tokens.length = c.position + c.after.length := by
  simp [tokens, position]

theorem Takes.position_eq (h : c.Takes taken d) : d.position = c.position + taken.length := by
  simp [position, h.2, Nat.add_comm]

theorem ReadsTo.tokens_eq (h : c.ReadsTo d) : d.tokens = c.tokens := by
  obtain ⟨taken, hafter, hbefore⟩ := h
  simp [tokens, hafter, hbefore]

theorem ReadsTo.position_le (h : c.ReadsTo d) : c.position ≤ d.position := by
  obtain ⟨taken, htakes⟩ := h
  rw [Takes.position_eq htakes]
  exact Nat.le_add_right _ _

theorem position_le_length (c : Cursor) : c.position ≤ c.tokens.length := by
  rw [length_tokens]
  exact Nat.le_add_right _ _

/-- At the last position no token is left. -/
theorem position_eq_length_iff : c.position = c.tokens.length ↔ c.after = [] := by
  rw [length_tokens, ← List.length_eq_zero_iff]
  omega

/-! ## Looking for a label

Two tokens are read, and given back if they are no label. Near the end there may be fewer of them,
so the cursor goes back by as many as it has moved. -/

/-- Reads the next token, if there is one. -/
def read? (c : Cursor) : Option Token × Cursor :=
  match c.next with
  | .ok (t, d) => (some t, d)
  | .error _ => (none, c)

/-- Looks for a label declaration: reads two tokens, and if they are none, gives back those that
were read. -/
def lookahead (c : Cursor) : Option (Located Item) × Cursor :=
  let (name, d) := c.read?
  let (colon, e) := d.read?
  match name, colon with
  | some name, some colon =>
    if name.kind = .word && colon.kind = .colon then
      (some ⟨.label name.lexeme, name.span⟩, e)
    else (none, e.rewind (e.position - c.position))
  | _, _ => (none, e.rewind (e.position - c.position))

theorem Takes.rewind_length (h : c.Takes taken d) : d.rewind taken.length = c := by
  -- the token read last is given back first
  induction taken using List.reverseRecOn generalizing d with
  | nil => exact (takes_nil.mp h).symm
  | append_singleton taken t ih =>
      obtain ⟨e, htaken, hlast⟩ := takes_append.mp h
      obtain ⟨before, after⟩ := e
      obtain ⟨rest, rfl, rfl⟩ := takes_singleton.mp hlast
      rw [List.length_append, List.length_singleton]
      exact ih htaken

theorem ReadsTo.rewind (h : c.ReadsTo d) : d.rewind (d.position - c.position) = c := by
  obtain ⟨taken, htakes⟩ := h
  rw [Takes.position_eq htakes, Nat.add_sub_cancel_left]
  exact Takes.rewind_length htakes

theorem readsTo_read? (c : Cursor) : c.ReadsTo c.read?.2 := by
  obtain ⟨before, after⟩ := c
  cases after with
  | nil => exact .refl _
  | cons t rest => exact ⟨[t], rfl, rfl⟩

/-- Giving back what was read in vain leads to where reading began. -/
theorem lookahead_eq (c : Cursor) :
    c.lookahead = match c.declaration? with
      | some (label, d) => (some label, d)
      | none => (none, c) := by
  have hback := ((readsTo_read? c).trans (readsTo_read? c.read?.2)).rewind
  obtain ⟨before, after⟩ := c
  rcases after with _ | ⟨name, _ | ⟨colon, rest⟩⟩
  · exact congrArg (Prod.mk none) hback
  · exact congrArg (Prod.mk none) hback
  · simp only [lookahead, declaration?, read?, next] at hback ⊢
    split
    · rfl
    · rw [hback]

end Cursor

namespace Pass

variable {σ : Type} {pass : Pass σ} {s t u : State σ} {n : Nat}

/-- Where a pass stands at the end, be it taken or refused. -/
def final : EStateM.Result Problem (State σ) Unit → State σ
  | .ok _ s => s
  | .error _ s => s

theorem cursor_final_take (pass : Pass σ) (item : Located Item) (d : Cursor) (x : σ) :
    (final (pass.take item d x)).cursor = d := by
  unfold take
  cases pass item x <;> rfl

/-- A label is taken two tokens further on, whatever the pass answers; else nothing happens. -/
theorem declaration_cases (pass : Pass σ) (s : State σ) :
    (s.cursor.lookahead = (none, s.cursor) ∧ pass.declaration s = .ok () s) ∨
      ∃ name colon d, s.cursor.Takes [name, colon] d ∧
        s.cursor.lookahead = (some ⟨.label name.lexeme, name.span⟩, d) ∧
        pass.declaration s = pass.take ⟨.label name.lexeme, name.span⟩ d s.result := by
  rw [Cursor.lookahead_eq, declaration]
  cases hlabel : s.cursor.declaration? with
  | none => exact .inl ⟨rfl, rfl⟩
  | some found =>
      obtain ⟨label, d⟩ := found
      obtain ⟨name, colon, htakes, -, -, rfl⟩ := Cursor.declaration?_eq_some_iff.mp hlabel
      exact .inr ⟨name, colon, d, htakes, rfl, rfl⟩

theorem readsTo_declaration (pass : Pass σ) (s : State σ) :
    s.cursor.ReadsTo (final (pass.declaration s)).cursor := by
  obtain ⟨-, hnone⟩ | ⟨name, colon, d, htakes, -, htaken⟩ := declaration_cases pass s
  · rw [hnone]
    exact .refl _
  · rw [htaken, cursor_final_take]
    exact ⟨_, htakes⟩

/-! ## One statement -/

theorem readsTo_operation (pass : Pass σ) (s : State σ) :
    s.cursor.ReadsTo (final (pass.operation s)).cursor := by
  have hforward := Reader.compositional_forward.operation s.cursor
  unfold Reader.stop at hforward
  unfold operation
  cases hread : Reader.operation s.cursor with
  | error problem d =>
      rw [hread] at hforward
      exact hforward
  | ok item d =>
      rw [hread] at hforward
      simp only [cursor_final_take]
      exact hforward

/-- Whether or not it can be read and taken, a statement leads forward. -/
theorem readsTo_statement (pass : Pass σ) (s : State σ) :
    s.cursor.ReadsTo (final (pass.statement s)).cursor := by
  have hlabel := readsTo_declaration pass s
  unfold statement
  cases hdeclared : pass.declaration s with
  | error problem t =>
      rw [hdeclared] at hlabel
      exact hlabel
  | ok a t =>
      rw [hdeclared] at hlabel
      exact hlabel.trans (readsTo_operation pass t)

/-- An operation that is taken is its first word and at least one more token. -/
theorem position_of_operation (h : pass.operation s = .ok () t) :
    s.cursor.position + 2 ≤ t.cursor.position := by
  unfold operation at h
  cases hread : Reader.operation s.cursor with
  | error problem d =>
      rw [hread] at h
      cases h
  | ok item d =>
      rw [hread] at h
      obtain ⟨head, taken, htakes, -, hphrase, -⟩ := Reader.operation_eq_ok_iff.mp hread
      obtain ⟨second, rest, rfl, -⟩ := hphrase.second
      rw [cursor_of_take h, htakes.position_eq]
      simp only [List.length_cons]
      omega

/-- **A statement that is taken leads two tokens further on**, or more. -/
theorem position_of_statement (h : pass.statement s = .ok () t) :
    s.cursor.position + 2 ≤ t.cursor.position := by
  have hlabel := readsTo_declaration pass s
  unfold statement at h
  cases hdeclared : pass.declaration s with
  | error problem r =>
      rw [hdeclared] at h
      cases h
  | ok a r =>
      rw [hdeclared] at h hlabel
      have hbefore : s.cursor.position ≤ r.cursor.position := hlabel.position_le
      have hoperation := position_of_operation h
      omega

/-! ## Statement after statement -/

/-- `n` statements, each begun where a token is left, are taken on the way from `s` to `t`. -/
inductive Statements (pass : Pass σ) : Nat → State σ → State σ → Prop where
  | none (s : State σ) : Statements pass 0 s s
  | more {n : Nat} {s t u : State σ} (left : s.cursor.after ≠ [])
      (first : pass.statement s = .ok () t) (rest : Statements pass n t u) :
      Statements pass (n + 1) s u

theorem Statements.readsTo (h : Statements pass n s t) : s.cursor.ReadsTo t.cursor := by
  induction h with
  | none => exact .refl _
  | @more n s t u left first rest ih =>
      have hfirst := readsTo_statement pass s
      rw [first] at hfirst
      exact hfirst.trans ih

theorem Statements.position_le (h : Statements pass n s t) :
    s.cursor.position + 2 * n ≤ t.cursor.position := by
  induction h with
  | none => exact Nat.le_refl _
  | more left first rest ih =>
      have hfirst := position_of_statement first
      omega

/-- As many statements as half the tokens that are left. -/
theorem Statements.two_mul_le (h : Statements pass n s t) :
    2 * n ≤ s.cursor.tokens.length - s.cursor.position := by
  have hposition := h.position_le
  have hend := t.cursor.position_le_length
  rw [h.readsTo.tokens_eq] at hend
  omega

/-- The end of a pass: no token is left, or a statement failed. -/
theorem exists_statements (pass : Pass σ) (s : State σ) :
    ∃ n t, Statements pass n s t ∧
      ((t.cursor.after = [] ∧ pass.go s = .ok () t) ∨
        ∃ problem u, t.cursor.after ≠ [] ∧ pass.statement t = .error problem u ∧
          pass.go s = .error problem u) := by
  -- on the number of tokens that are left
  induction hn : s.cursor.after.length using Nat.strongRecOn generalizing s with
  | ind m ih =>
      subst hn
      by_cases hafter : s.cursor.after = []
      · refine ⟨0, s, .none s, .inl ⟨hafter, ?_⟩⟩
        rw [go]
        simp [hafter]
      rw [go_eq_goOn hafter]
      cases hstatement : pass.statement s with
      | error problem u => exact ⟨0, s, .none s, .inr ⟨problem, u, hafter, hstatement, rfl⟩⟩
      | ok a r =>
          obtain ⟨n, t, hrest, hends⟩ := ih _ (length_lt_of_statement hstatement) r rfl
          exact ⟨n + 1, t, .more hafter hstatement hrest, hends⟩

/-- A pass that stands at `s` moves forward, stays among the tokens and comes to an end. -/
structure Progress (pass : Pass σ) (s : State σ) : Prop where
  /-- Looking for a label leads nowhere, or hands over the label two tokens further on. -/
  label : (s.cursor.lookahead = (none, s.cursor) ∧ pass.declaration s = .ok () s) ∨
    ∃ name span d, s.cursor.lookahead = (some ⟨.label name, span⟩, d) ∧
      pass.declaration s = pass.take ⟨.label name, span⟩ d s.result ∧
      (final (pass.declaration s)).cursor = d ∧ d.position = s.cursor.position + 2
  /-- A statement that is taken is two tokens or more. -/
  statement : ∀ t, pass.statement s = .ok () t → s.cursor.position + 2 ≤ t.cursor.position
  /-- A statement ends among the same tokens, and not before it begins. -/
  within : (final (pass.statement s)).cursor.tokens = s.cursor.tokens ∧
    s.cursor.position ≤ (final (pass.statement s)).cursor.position ∧
    (final (pass.statement s)).cursor.position ≤ s.cursor.tokens.length
  /-- The pass ends behind the last token, or in a statement that fails, and takes at most one
  statement for two tokens before that. -/
  ends : ∃ n t, Statements pass n s t ∧ 2 * n ≤ s.cursor.tokens.length - s.cursor.position ∧
    ((t.cursor.position = s.cursor.tokens.length ∧ t.cursor.after = [] ∧ pass.go s = .ok () t) ∨
      ∃ problem u, t.cursor.after ≠ [] ∧ pass.statement t = .error problem u ∧
        pass.go s = .error problem u)

/-- **Every pass makes progress**, whatever it answers and wherever it stands. -/
theorem progress (pass : Pass σ) (s : State σ) : pass.Progress s where
  label := by
    obtain hnone | ⟨name, colon, d, htakes, hlookahead, htaken⟩ := declaration_cases pass s
    · exact .inl hnone
    · refine .inr ⟨_, _, d, hlookahead, htaken, ?_, htakes.position_eq⟩
      rw [htaken, cursor_final_take]
  statement t h := position_of_statement h
  within := by
    have hreads := readsTo_statement pass s
    have hend := (final (pass.statement s)).cursor.position_le_length
    rw [hreads.tokens_eq] at hend
    exact ⟨hreads.tokens_eq, hreads.position_le, hend⟩
  ends := by
    obtain ⟨n, t, htaken, ⟨hafter, hgo⟩ | hfails⟩ := exists_statements pass s
    · have hposition := Cursor.position_eq_length_iff.mpr hafter
      rw [htaken.readsTo.tokens_eq] at hposition
      exact ⟨n, t, htaken, htaken.two_mul_le, .inl ⟨hposition, hafter, hgo⟩⟩
    · exact ⟨n, t, htaken, htaken.two_mul_le, .inr hfails⟩

end Pass

end ArmAssembly
