import ArmAssembly.Proofs.Reading

set_option autoImplicit false

/-! # What a pass is called with

A pass is any machine that answers each item with a new result or with a problem. Here the
items that it is called with are written down, each with the answer (`Pass.recorded`). The
answers decide only how long this record is and what the run ends with: as long as nothing is
refused the record is that of any other pass, and the first refusal ends it
(`Pass.history_independent`).
-/

namespace ArmAssembly

/-- An item that a pass was called with, and the problem if it was refused. -/
structure Call where
  item : Located Item
  refusal? : Option Problem
deriving DecidableEq

/-- How a pass went: its calls one after the other, the place where reading ended, and the
problem if it ended with one. -/
structure History where
  calls : List Call
  cursor : Cursor
  problem? : Option Problem
deriving DecidableEq

/-- No call was refused. -/
def History.Accepted (h : History) : Prop := ∀ call ∈ h.calls, call.refusal? = none

namespace Pass

variable {σ : Type}

/-- The pass with a record of its calls beside its result. -/
def recorded (pass : Pass σ) : Pass (σ × List Call) := fun item (x, calls) =>
  match pass item x with
  | .ok _ y => .ok () (y, calls ++ [⟨item, none⟩])
  | .error problem y => .error problem (y, calls ++ [⟨item, some problem⟩])

/-- The history of a pass over a program. -/
def history (pass : Pass σ) (tokens : List Token) (x : σ) : History :=
  match pass.recorded.run tokens (x, []) with
  | .ok _ s => ⟨s.result.2, s.cursor, none⟩
  | .error problem s => ⟨s.result.2, s.cursor, some problem⟩

/-- What is left of a run with a record if the record is dropped. -/
def unrecorded :
    EStateM.Result Problem (State (σ × List Call)) Unit → EStateM.Result Problem (State σ) Unit
  | .ok _ s => .ok () ⟨s.cursor, s.result.1⟩
  | .error problem s => .error problem ⟨s.cursor, s.result.1⟩

/-- The calls that a list of items makes, up to the first that is refused. -/
def callsOn (pass : Pass σ) : List (Located Item) → σ → List Call
  | [], _ => []
  | i :: items, x =>
    match pass i x with
    | .ok _ y => ⟨i, none⟩ :: callsOn pass items y
    | .error problem _ => [⟨i, some problem⟩]

/-- The record of a run holds the calls of the items, and changes nothing in the run. -/
theorem replay_recorded (pass : Pass σ) (r : Reading) (x : σ) (calls : List Call) :
    r.replay pass.recorded (x, calls) = match r.replay pass x with
      | .ok _ s => .ok () ⟨s.cursor, (s.result, calls ++ pass.callsOn r.items x)⟩
      | .error problem s =>
        .error problem ⟨s.cursor, (s.result, calls ++ pass.callsOn r.items x)⟩ := by
  induction r generalizing x calls with
  | finished cursor => simp [Reading.replay, Reading.items, callsOn]
  | stuck problem cursor => simp [Reading.replay, Reading.items, callsOn]
  | item i cursor rest ih =>
      simp only [Reading.replay, Reading.items, callsOn, recorded]
      cases pass i x with
      | error problem y => rfl
      | ok a y =>
          simp only [ih, List.append_assoc, List.singleton_append]

/-- A run in which no call is refused hears all items and ends as the reading ends. -/
theorem replay_of_accepted {pass : Pass σ} {r : Reading} {x : σ}
    (h : ∀ call ∈ pass.callsOn r.items x, call.refusal? = none) :
    pass.callsOn r.items x = r.items.map (⟨·, none⟩) ∧
      ∃ y, r.replay pass x = match r.problem? with
        | none => .ok () ⟨r.stop, y⟩
        | some problem => .error problem ⟨r.stop, y⟩ := by
  induction r generalizing x with
  | finished cursor => exact ⟨rfl, x, rfl⟩
  | stuck problem cursor => exact ⟨rfl, x, rfl⟩
  | item i cursor rest ih =>
      simp only [Reading.replay, Reading.items, Reading.problem?, Reading.stop, callsOn] at h ⊢
      cases hi : pass i x with
      | error problem y =>
          simp only [hi] at h
          cases h _ List.mem_cons_self
      | ok a y =>
          simp only [hi] at h ⊢
          -- the item is accepted here, so the calls behind it are those of the rest
          obtain ⟨hcalls, hrun⟩ := ih fun call hcall => h call (List.mem_cons_of_mem _ hcall)
          exact ⟨by rw [hcalls, List.map_cons], hrun⟩

/-- The call that is refused is the last, and the run ends with the refusal. -/
theorem replay_of_refused {pass : Pass σ} {r : Reading} {x : σ} {k : Nat} {call : Call}
    {problem : Problem} (hcall : (pass.callsOn r.items x)[k]? = some call)
    (hrefused : call.refusal? = some problem) :
    (pass.callsOn r.items x).map Call.item = r.items.take (k + 1) ∧
      ∃ s, r.replay pass x = .error problem s := by
  induction r generalizing x k with
  | finished cursor => cases hcall
  | stuck problem cursor => cases hcall
  | item i cursor rest ih =>
      simp only [Reading.replay, Reading.items, callsOn] at hcall ⊢
      cases hi : pass i x with
      | error e y =>
          -- the call refused here is the only one from here on
          simp only [hi] at hcall ⊢
          cases k with
          | zero =>
              cases hcall
              cases hrefused
              exact ⟨rfl, _, rfl⟩
          | succ k => cases hcall
      | ok a y =>
          simp only [hi] at hcall ⊢
          cases k with
          | zero =>
              cases hcall
              cases hrefused
          | succ k =>
              obtain ⟨hitems, hrun⟩ := ih hcall
              exact ⟨by rw [List.map_cons, hitems, List.take_succ_cons], hrun⟩

theorem run_recorded (pass : Pass σ) (tokens : List Token) (x : σ) :
    pass.recorded.run tokens (x, []) = match pass.run tokens x with
      | .ok _ s => .ok () ⟨s.cursor, (s.result, pass.callsOn (Reading.ofTokens tokens).items x)⟩
      | .error problem s =>
        .error problem ⟨s.cursor, (s.result, pass.callsOn (Reading.ofTokens tokens).items x)⟩ := by
  rw [run_eq_replay, run_eq_replay, replay_recorded]
  rfl

theorem calls_history (pass : Pass σ) (tokens : List Token) (x : σ) :
    (pass.history tokens x).calls = pass.callsOn (Reading.ofTokens tokens).items x := by
  rw [history, run_recorded]
  cases pass.run tokens x <;> rfl

theorem refusal_of_mem_callsOn {pass : Pass σ} (accepts : ∀ i x, ∃ y, pass i x = .ok () y)
    {items : List (Located Item)} {x : σ} {call : Call} (h : call ∈ pass.callsOn items x) :
    call.refusal? = none := by
  induction items generalizing x with
  | nil => cases h
  | cons i items ih =>
      obtain ⟨y, hy⟩ := accepts i x
      simp only [callsOn, hy, List.mem_cons] at h
      obtain rfl | h := h
      · rfl
      · exact ih h

/-- A pass that refuses nothing, whatever it is called with, refuses nothing here. -/
theorem accepted_of_accepts {pass : Pass σ} (accepts : ∀ i x, ∃ y, pass i x = .ok () y)
    (tokens : List Token) (x : σ) : (pass.history tokens x).Accepted := by
  rw [History.Accepted, calls_history]
  exact fun call hcall => refusal_of_mem_callsOn accepts hcall

/-- The history of a pass that refuses nothing is that of the reading. -/
theorem history_of_accepted {pass : Pass σ} {tokens : List Token} {x : σ}
    (h : (pass.history tokens x).Accepted) :
    pass.history tokens x = ⟨(Reading.ofTokens tokens).items.map (⟨·, none⟩),
      (Reading.ofTokens tokens).stop, (Reading.ofTokens tokens).problem?⟩ := by
  rw [History.Accepted, calls_history] at h
  obtain ⟨hcalls, y, hrun⟩ := replay_of_accepted h
  rw [history, run_recorded, run_eq_replay, hrun, hcalls]
  cases (Reading.ofTokens tokens).problem? <;> rfl

theorem problem_of_refused {pass : Pass σ} {tokens : List Token} {x : σ} {k : Nat} {call : Call}
    {problem : Problem} (hcall : (pass.history tokens x).calls[k]? = some call)
    (hrefused : call.refusal? = some problem) :
    (pass.history tokens x).calls.map Call.item =
        (Reading.ofTokens tokens).items.take (k + 1) ∧
      (pass.history tokens x).problem? = some problem := by
  rw [calls_history] at hcall ⊢
  obtain ⟨hitems, s, hrun⟩ := replay_of_refused hcall hrefused
  refine ⟨hitems, ?_⟩
  rw [history, run_recorded, run_eq_replay, hrun]

/-- **A program makes the same calls on every pass.** The record of the calls changes nothing in
a run. Two passes that refuse nothing, be it here or anywhere, have the same history: the same
items with the same spans in the same order, the same end of reading and the same outcome. If a
pass refuses the item with index `k`, then it was called with the first `k + 1` items that a
pass is called with which refuses nothing, with no other after them, and it ends with just the
problem that it answered. -/
theorem history_independent {σ τ : Type} (pass : Pass σ) (other : Pass τ) (tokens : List Token)
    (x : σ) (y : τ) :
    unrecorded (pass.recorded.run tokens (x, [])) = pass.run tokens x ∧
    ((∀ i z, ∃ z', other i z = .ok () z') → (other.history tokens y).Accepted) ∧
    ((pass.history tokens x).Accepted → (other.history tokens y).Accepted →
      pass.history tokens x = other.history tokens y) ∧
    ((other.history tokens y).Accepted → ∀ (k : Nat) (call : Call) (problem : Problem),
      (pass.history tokens x).calls[k]? = some call → call.refusal? = some problem →
        (pass.history tokens x).calls.map Call.item =
            ((other.history tokens y).calls.map Call.item).take (k + 1) ∧
          (pass.history tokens x).problem? = some problem) := by
  refine ⟨?_, fun accepts => accepted_of_accepts accepts tokens y, ?_, ?_⟩
  · rw [run_recorded]
    cases pass.run tokens x <;> rfl
  · intro hpass hother
    rw [history_of_accepted hpass, history_of_accepted hother]
  · intro hother k call problem hcall hrefused
    obtain ⟨hitems, hproblem⟩ := problem_of_refused hcall hrefused
    have hall : (other.history tokens y).calls.map Call.item =
        (Reading.ofTokens tokens).items := by
      rw [history_of_accepted hother, List.map_map]
      exact List.map_id _
    exact ⟨by rw [hitems, hall], hproblem⟩

end Pass

end ArmAssembly
