import ArmAssembly.Proofs.Meaning
import ArmAssembly.Proofs.Statements

set_option autoImplicit false

/-! # Programs behind other programs

What was read before does not matter to the statements that follow. Once a token of its own stands
behind it, a reader sees of the tokens before it only that one, so it does the same behind any
other tokens (`Reader.Local`), and so does the whole reading of a program
(`Reading.ofCursor_behind`). A program that can be read is read alike in front of anything but a
comma, so two programs one behind the other make the calls of both, and end as the second ends
(`Transcript.run_append`).
-/

namespace ArmAssembly

/-! ## Places behind other tokens

Tokens that were consumed are kept in reverse, so tokens in front of all others come last. Of what
was consumed only the last token is ever looked at, for the place where it ends. -/

/-- The same place behind more tokens. -/
def Cursor.behind (c : Cursor) (earlier : List Token) : Cursor :=
  ⟨c.before ++ earlier.reverse, c.after⟩

/-- The same outcome at a place behind more tokens. -/
def Reader.outcomeBehind {α : Type} (earlier : List Token) :
    EStateM.Result Problem Cursor α → EStateM.Result Problem Cursor α
  | .ok a d => .ok a (d.behind earlier)
  | .error problem d => .error problem (d.behind earlier)

namespace Cursor

theorem lastStop_behind {c : Cursor} (h : c.before ≠ []) (earlier : List Token) :
    (c.behind earlier).lastStop = c.lastStop := by
  obtain ⟨t, before, hbefore⟩ := List.exists_cons_of_ne_nil h
  unfold lastStop behind
  rw [hbefore]
  rfl

theorem nextIs_behind (c : Cursor) (earlier : List Token) (kind : TokenKind) :
    (c.behind earlier).nextIs kind = c.nextIs kind := rfl

theorem declaration?_behind (c : Cursor) (earlier : List Token) :
    (c.behind earlier).declaration? =
      c.declaration?.map fun (label, d) => (label, d.behind earlier) := by
  obtain ⟨before, after⟩ := c
  rcases after with _ | ⟨name, _ | ⟨colon, rest⟩⟩
  · rfl
  · rfl
  · by_cases hlabel : (name.kind = .word && colon.kind = .colon) = true
    · simp [declaration?, behind, hlabel]
    · simp [declaration?, behind, hlabel]

end Cursor

/-! ## Readers that are local

Where a token is missing, a reader reports the end of the last consumed token. So it is local only
from places behind a token of its own. -/

namespace Reader

variable {α β : Type}

/-- The reader moves forward, and once a token stands behind it, it does the same behind more
tokens. -/
structure Local (r : Reader α) : Prop where
  forward : r.Forward
  moved : ∀ (c : Cursor) (earlier : List Token), c.before ≠ [] →
    r (c.behind earlier) = outcomeBehind earlier (r c)

/-- Behind a token that was read before, there is still one behind. -/
theorem Forward.before_ne_nil {r : Reader α} (h : r.Forward) {c : Cursor} (hc : c.before ≠ []) :
    (r.stop c).before ≠ [] := by
  obtain ⟨taken, -, hbefore⟩ := h c
  rw [hbefore]
  exact List.append_ne_nil_of_right_ne_nil _ hc

theorem Local.bind {r : Reader α} {k : α → Reader β} (hr : r.Local)
    (hk : ∀ a, r.Returns a → (k a).Local) : (r >>= k).Local where
  forward := hr.forward.bind fun a ha => (hk a ha).forward
  moved c earlier hc := by
    have hbefore := hr.forward.before_ne_nil hc
    show EStateM.bind r k (c.behind earlier) = outcomeBehind earlier (EStateM.bind r k c)
    simp only [EStateM.bind, hr.moved c earlier hc]
    unfold stop at hbefore
    cases hread : r c with
    | error problem d => rfl
    | ok a d =>
        rw [hread] at hbefore
        exact (hk a ⟨c, d, hread⟩).moved d earlier hbefore

theorem Local.ifDash {r s : Reader α} (hr : r.Local) (hs : s.Local) : (ifDash r s).Local where
  forward := hr.forward.ifDash hs.forward
  moved c earlier hc := by
    unfold Reader.ifDash
    rw [Cursor.nextIs_behind]
    split
    · exact hr.moved c earlier hc
    · exact hs.moved c earlier hc

theorem token_behind (expected : Expected) {c : Cursor} (h : c.before ≠ [] ∨ c.after ≠ [])
    (earlier : List Token) :
    token expected (c.behind earlier) = outcomeBehind earlier (token expected c) := by
  obtain ⟨before, after⟩ := c
  cases after with
  | nil =>
      have hbefore : before ≠ [] := h.resolve_right fun hnot => hnot rfl
      have hstop := Cursor.lastStop_behind (c := ⟨before, []⟩) hbefore earlier
      unfold Cursor.behind at hstop ⊢
      simp only [token, endOfInput, outcomeBehind, hstop, Cursor.behind]
  | cons t rest => rfl

theorem listRest_behind (expected : Expected) (convert : Token → Except Problem α)
    (found : List α) (before after earlier : List Token) :
    listRest expected convert found (before ++ earlier.reverse) after =
      outcomeBehind earlier (listRest expected convert found before after) := by
  fun_induction listRest expected convert found before after with
  | case1 => rfl
  | case2 found before t ht =>
      rw [listRest, if_pos ht]
      rfl
  | case3 found before t ht =>
      rw [listRest, if_neg ht]
      rfl
  | case4 found before t item rest ht a ha ih =>
      rw [listRest, if_pos ht, ha]
      exact ih
  | case5 found before t item rest ht problem hp =>
      rw [listRest, if_pos ht, hp]
      rfl
  | case6 found before t item rest ht =>
      rw [listRest, if_neg ht]
      rfl

theorem spanFrom_local (head : Token) : (spanFrom head).Local where
  forward := compositional_forward.spanFrom head
  moved c earlier hc := by
    show EStateM.Result.ok (⟨head.span.start, (c.behind earlier).lastStop⟩ : Span) _ = _
    rw [Cursor.lastStop_behind hc]
    rfl

/-- Every reader of the grammar is local. -/
theorem compositional_local : Compositional @Local where
  pure _ := ⟨compositional_forward.pure _, fun _ _ _ => rfl⟩
  fail _ := ⟨compositional_forward.fail _, fun _ _ _ => rfl⟩
  token expected :=
    ⟨forward_token expected, fun _ earlier h => token_behind expected (.inl h) earlier⟩
  listRest expected convert found := ⟨compositional_forward.listRest expected convert found,
    fun c earlier _ => listRest_behind expected convert found c.before c.after earlier⟩
  bind := Local.bind
  ifDash := Local.ifDash
  spanFrom := spanFrom_local

theorem operation_behind {c : Cursor} (h : c.before ≠ [] ∨ c.after ≠ []) (earlier : List Token) :
    operation (c.behind earlier) = outcomeBehind earlier (operation c) := by
  obtain ⟨before, after⟩ := c
  cases after with
  | nil =>
      have hbefore : before ≠ [] := h.resolve_right fun hnot => hnot rfl
      exact compositional_local.operation.moved _ earlier hbefore
  | cons head rest =>
      show operation ⟨before ++ earlier.reverse, head :: rest⟩ = _
      by_cases hk : head.kind = .word
      · rw [operation_of_word hk, operation_of_word hk]
        -- the head is the one token behind it that the rest of an operation looks at
        exact (compositional_local.tail head).moved ⟨head :: before, rest⟩ earlier
          (List.cons_ne_nil _ _)
      · rw [operation_of_not_word hk, operation_of_not_word hk]
        rfl

end Reader

/-! ## Readings behind other tokens -/

namespace Reading

/-- The same reading at places behind more tokens. -/
def behind (earlier : List Token) : Reading → Reading
  | finished c => finished (c.behind earlier)
  | stuck problem c => stuck problem (c.behind earlier)
  | item i c rest => item i (c.behind earlier) (rest.behind earlier)

theorem items_behind (r : Reading) (earlier : List Token) :
    (r.behind earlier).items = r.items := by
  induction r with
  | finished | stuck => rfl
  | item i c rest ih => rw [behind, items, items, ih]

theorem problem?_behind (r : Reading) (earlier : List Token) :
    (r.behind earlier).problem? = r.problem? := by
  induction r with
  | finished | stuck => rfl
  | item i c rest ih => exact ih

theorem stop_behind (r : Reading) (earlier : List Token) :
    (r.behind earlier).stop = r.stop.behind earlier := by
  induction r with
  | finished | stuck => rfl
  | item i c rest ih => exact ih

theorem ofOperation_behind {c : Cursor} (h : c.before ≠ [] ∨ c.after ≠ []) (earlier : List Token)
    (ih : ∀ d : Cursor, d.after.length < c.after.length →
      ofCursor (d.behind earlier) = (ofCursor d).behind earlier) :
    ofOperation (c.behind earlier) = (ofOperation c).behind earlier := by
  unfold ofOperation
  rw [Reader.operation_behind h]
  cases hop : Reader.operation c with
  | error problem d => rfl
  | ok i d =>
      simp only [Reader.outcomeBehind, behind]
      rw [ih d (Reader.length_lt_of_operation hop)]

/-- **Statements are read alike behind any tokens.** -/
theorem ofCursor_behind (c : Cursor) (earlier : List Token) :
    ofCursor (c.behind earlier) = (ofCursor c).behind earlier := by
  -- on the number of tokens that are left
  induction hn : c.after.length using Nat.strongRecOn generalizing c with
  | ind n ih =>
      subst hn
      have hlabel := Cursor.declaration?_behind c earlier
      by_cases hafter : c.after = []
      · rw [ofCursor_nil hafter, ofCursor_nil (c := c.behind earlier) hafter]
        rfl
      cases hdeclared : c.declaration? with
      | none =>
          rw [hdeclared] at hlabel
          rw [ofCursor_plain hafter hdeclared, ofCursor_plain (c := c.behind earlier) hafter hlabel]
          exact ofOperation_behind (.inr hafter) earlier fun d hd => ih _ hd d rfl
      | some found =>
          obtain ⟨label, d⟩ := found
          rw [hdeclared] at hlabel
          have hlength := Cursor.length_of_declaration hdeclared
          rw [ofCursor_labelled hdeclared, ofCursor_labelled hlabel, behind]
          -- the label stands behind the operation
          have hbefore : d.before ≠ [] := by
            obtain ⟨name, colon, htakes, -⟩ := Cursor.declaration?_eq_some_iff.mp hdeclared
            rw [htakes.2]
            exact List.cons_ne_nil colon _
          rw [ofOperation_behind (.inl hbefore) earlier fun e he => ih _ (by omega) e rfl]

end Reading

/-! ## Transcripts one behind the other -/

namespace Address

theorem advance_advance (a : Address) (m n : Nat) :
    (a.advance m).advance n = a.advance (m + n) := by
  simp [advance, BitVec.ofNat_add, BitVec.add_assoc]

theorem advance_comm (a : Address) (m n : Nat) :
    (a.advance m).advance n = (a.advance n).advance m := by
  rw [advance_advance, advance_advance, Nat.add_comm]

end Address

namespace Transcript

/-- The transcript of a program that lies behind `units` addresses, where the items `earlier` were
taken. -/
def behind (t : Transcript) (units : Nat) (earlier : Array (Address × Located Item)) :
    Transcript :=
  ⟨t.address.advance units, earlier ++ t.items.map fun (a, i) => (a.advance units, i)⟩

/-- The items of the one transcript and then those of the other, whose addresses grow by what the
items of the first take. -/
def append (s t : Transcript) : Transcript := t.behind (Program.units s.calls) s.items

theorem hear_behind (t : Transcript) (units : Nat) (earlier : Array (Address × Located Item))
    (items : List (Located Item)) :
    (t.behind units earlier).hear items = (t.hear items).behind units earlier := by
  induction items generalizing t with
  | nil => rfl
  | cons i items ih =>
      have hstep : (t.behind units earlier).hear [i] = (t.hear [i]).behind units earlier := by
        simp [hear, behind, Address.advance_comm t.address units]
      show ((t.behind units earlier).hear [i]).hear items = _
      rw [hstep, ih]
      rfl

theorem address_hear (t : Transcript) (items : List (Located Item)) :
    (t.hear items).address = t.address.advance (Program.units items) := by
  induction items generalizing t with
  | nil => simp [hear, Address.advance]
  | cons i items ih =>
      have hunits : Program.units (i :: items) = i.value.units + Program.units items := by
        simp [Program.units]
      rw [hunits, ← Address.advance_advance]
      exact ih _

/-- Two lists of items that are heard one after the other. -/
theorem hear_append (p q : List (Located Item)) :
    empty.hear (p ++ q) = (empty.hear p).append (empty.hear q) := by
  have hcalls : (empty.hear p).calls = p := calls_hear empty p
  have hempty : empty.hear p = empty.behind (Program.units p) (empty.hear p).items := by
    have haddress := address_hear empty p
    unfold behind
    rw [← haddress]
    simp [empty]
  have hsplit : empty.hear (p ++ q) = (empty.hear p).hear q := List.foldl_append
  rw [append, hcalls, ← hear_behind, ← hempty, hsplit]

/-- **Statements do not interfere.** Behind a program that can be read, and in front of anything but
a comma, a program makes the calls that it makes alone, at addresses that grow by what the first
program takes, and ends as it ends alone. -/
theorem run_append {u v : List Token} {s : Pass.State Transcript}
    (hu : Transcript.pass.run u .empty = .ok () s) (hv : ∀ t ∈ v.head?, t.kind ≠ .comma) :
    Transcript.pass.run (u ++ v) .empty = match Transcript.pass.run v .empty with
      | .ok _ t => .ok () ⟨t.cursor.behind u, s.result.append t.result⟩
      | .error problem t => .error problem ⟨t.cursor.behind u, s.result.append t.result⟩ := by
  have hphrase := Transcript.exists_run_iff.mp ⟨s, hu, rfl⟩
  have hresult : s.result = empty.hear s.result.calls := by
    obtain ⟨hproblem, hitems⟩ := Reading.ofTokens_finished_iff.mpr hphrase
    rw [Pass.run_eq_replay, Transcript.replay_eq, hproblem, hitems] at hu
    exact congrArg Pass.State.result (EStateM.Result.ok.inj hu).2.symm
  have htakes : (Cursor.ofList (u ++ v)).Takes u ((Cursor.ofList v).behind u) := by
    simp [Cursor.Takes, Cursor.ofList, Cursor.behind]
  have hnext : ((Cursor.ofList v).behind u).nextIs .comma = false := by
    rw [Cursor.nextIs_behind]
    cases v with
    | nil => rfl
    | cons t v => exact decide_eq_false (hv t rfl)
  -- the reading of both goes on, behind the items of the first, as the second is read
  have hcontinues :
      (Reading.ofTokens (u ++ v)).Continues s.result.calls ((Reading.ofTokens v).behind u) := by
    rw [Reading.ofTokens, Reading.ofTokens, ← Reading.ofCursor_behind]
    exact Reading.ofCursor_continues hphrase htakes hnext
  rw [Pass.run_eq_replay, Pass.run_eq_replay, Transcript.replay_eq, Transcript.replay_eq,
    hcontinues.problem_eq, hcontinues.stop_eq, hcontinues.items_eq, Reading.problem?_behind,
    Reading.stop_behind, Reading.items_behind, hear_append, ← hresult]
  cases (Reading.ofTokens v).problem? with
  | none => rfl
  | some problem => rfl

/-- The tokens of `word = 1`, a list that a comma would go on with. -/
def listTokens : List Token :=
  [⟨.word, "word", ⟨0, 4⟩⟩, ⟨.equals, "=", ⟨5, 6⟩⟩, ⟨.number, "1", ⟨7, 8⟩⟩]

/-- The tokens of `a:`, a label without an operation. -/
def labelTokens : List Token := [⟨.word, "a", ⟨9, 10⟩⟩, ⟨.colon, ":", ⟨10, 11⟩⟩]

theorem run_append_label :
    ∃ s t, Transcript.pass.run listTokens .empty = .ok () s ∧
      (∀ t ∈ labelTokens.head?, t.kind ≠ .comma) ∧
      Transcript.pass.run labelTokens .empty =
        .error ⟨.malformed (.endOfInput .operation), .point 11⟩ t ∧
      Transcript.pass.run (listTokens ++ labelTokens) .empty =
        .error ⟨.malformed (.endOfInput .operation), .point 11⟩
          ⟨t.cursor.behind listTokens, s.result.append t.result⟩ := by
  have hphrase : ProgramPhrase (listTokens ++ []) _ :=
    .cons (.plain rfl (.words (by decide) rfl (.intro (a := 1) rfl .done))) .nil
  obtain ⟨s, hlist, -⟩ := Transcript.exists_run_iff.mpr hphrase
  have hlabel : Transcript.pass.run labelTokens .empty =
      .error ⟨.malformed (.endOfInput .operation), .point 11⟩
        ⟨⟨labelTokens.reverse, []⟩, ⟨.zero, #[(.zero, ⟨.label "a", ⟨9, 10⟩⟩)]⟩⟩ := by cbv
  have hhead : ∀ t ∈ labelTokens.head?, t.kind ≠ .comma := by decide
  have hboth := run_append hlist hhead
  rw [List.append_nil, hlabel] at hboth
  exact ⟨s, _, hlist, hhead, hlabel, hboth⟩

end Transcript

end ArmAssembly
