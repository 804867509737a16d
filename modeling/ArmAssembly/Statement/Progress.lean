import ArmAssembly.Statement.Composition

set_option autoImplicit false

/-! # Readers move forward

Every reader of this grammar leaves the cursor where some number of tokens was read, whether
it succeeds or fails (`Reader.Forward`), and an operation that is read takes at least its
first word (`Reader.length_lt_of_operation`). So reading statement after statement ends.
-/

namespace ArmAssembly

namespace Reader

/-- Where the cursor stands when reading from `c` is over. -/
def stop {α : Type} (r : Reader α) (c : Cursor) : Cursor :=
  match r c with
  | .ok _ d => d
  | .error _ d => d

/-- The reader takes tokens and gives none back. -/
def Forward {α : Type} (r : Reader α) : Prop :=
  ∀ c : Cursor, c.ReadsTo (r.stop c)

theorem stop_bind {α β : Type} (r : Reader α) (k : α → Reader β) (c : Cursor) :
    (r >>= k).stop c = match r c with
      | .ok a d => (k a).stop d
      | .error _ d => d := by
  show stop (EStateM.bind r k) c = _
  simp only [stop, EStateM.bind]
  cases r c <;> rfl

theorem Forward.bind {α β : Type} {r : Reader α} {k : α → Reader β} (hr : r.Forward)
    (hk : ∀ a, r.Returns a → (k a).Forward) : (r >>= k).Forward := by
  intro c
  have first := hr c
  rw [stop_bind]
  unfold stop at first
  cases h : r c with
  | ok a d =>
      rw [h] at first
      exact first.trans (hk a ⟨c, d, h⟩ d)
  | error problem d =>
      rw [h] at first
      exact first

theorem Forward.ifDash {α : Type} {r s : Reader α} (hr : r.Forward) (hs : s.Forward) :
    (ifDash r s).Forward := by
  intro c
  show c.ReadsTo ((if c.nextIs .dash then r else s).stop c)
  split
  · exact hr c
  · exact hs c

theorem forward_token (expected : Expected) : (token expected).Forward := by
  rintro ⟨before, after⟩
  cases after with
  | nil => exact .refl _
  | cons t rest => exact ⟨[t], rfl, rfl⟩

theorem forward_listRest {α : Type} (expected : Expected) (convert : Token → Except Problem α)
    (found : List α) (before after : List Token) :
    Cursor.ReadsTo ⟨before, after⟩
      (stop (fun c => listRest expected convert found c.before c.after) ⟨before, after⟩) := by
  fun_induction listRest expected convert found before after with
  | case1 => exact .refl _
  | case2 found before t ht => exact ⟨[t], by simp [stop, listRest, ht]⟩
  | case3 found before t ht => simpa [stop, listRest, ht] using Cursor.ReadsTo.refl _
  | case4 found before t item rest ht a ha ih =>
      refine Cursor.ReadsTo.trans (d := ⟨item :: t :: before, rest⟩) ⟨[t, item], rfl, rfl⟩ ?_
      simpa [stop, listRest, ht, ha] using ih
  | case5 found before t item rest ht problem hp =>
      exact ⟨[t, item], by simp [stop, listRest, ht, hp]⟩
  | case6 found before t item rest ht => simpa [stop, listRest, ht] using Cursor.ReadsTo.refl _

/-- Every reader of the grammar moves forward. -/
theorem compositional_forward : Compositional @Forward where
  pure _ := fun c => .refl c
  fail _ := fun c => .refl c
  token := forward_token
  listRest expected _ found := fun c => forward_listRest expected _ found c.before c.after
  bind := Forward.bind
  ifDash := Forward.ifDash
  spanFrom _ := fun c => .refl c

/-! ## Progress -/

theorem operation_of_word {before rest : List Token} {head : Token} (hk : head.kind = .word) :
    operation ⟨before, head :: rest⟩ =
      (afterHead head >>= fun item => spanFrom head >>= fun span =>
        (pure ⟨item, span⟩ : Reader (Located Item))) ⟨head :: before, rest⟩ := by
  show EStateM.bind _ _ _ = _
  simp [EStateM.bind, kind, token, bind, hk, pure, EStateM.pure]

theorem operation_of_not_word {before rest : List Token} {head : Token} (hk : head.kind ≠ .word) :
    operation ⟨before, head :: rest⟩ =
      .error (head.unexpected .operation) ⟨head :: before, rest⟩ := by
  show EStateM.bind _ _ _ = _
  simp [EStateM.bind, kind, token, bind, hk, fail]

/-- An operation that is read takes at least one token. -/
theorem length_lt_of_operation {c d : Cursor} {item : Located Item}
    (h : operation c = .ok item d) : d.after.length < c.after.length := by
  obtain ⟨before, after⟩ := c
  cases after with
  | nil => cases h
  | cons head rest =>
      by_cases hk : head.kind = .word
      · have reached := (compositional_forward.tail head ⟨head :: before, rest⟩).length_le
        rw [operation_of_word hk] at h
        simp only [stop, h] at reached
        exact Nat.lt_of_le_of_lt reached (by simp)
      · rw [operation_of_not_word hk] at h
        cases h

end Reader

/-- A label declaration takes a name and a colon. -/
theorem Cursor.length_of_declaration {c d : Cursor} {item : Located Item}
    (h : c.declaration? = some (item, d)) : d.after.length + 2 = c.after.length := by
  obtain ⟨before, after⟩ := c
  match after, h with
  | name :: colon :: rest, h =>
      simp only [declaration?] at h
      split at h
      · cases h
        rfl
      · cases h

end ArmAssembly
