import ArmAssembly.Proofs.Reading
import ArmAssembly.Proofs.Scanning

set_option autoImplicit false

/-! # Reading two texts abreast

Spans say where tokens stand, and nothing else. Two texts with the same tokens at different places
are read abreast: every reader takes as many tokens from the one as from the other, and both
succeed or both fail with the same cause at tokens with the same index (`Reader.Abreast`). So the
one text can be read just if the other can (`Reading.abreast_ofTokens`). Two readers are compared
here, not one reader with itself, because the head of an operation is handed on to the readers of
its operands, and the heads of two texts are two tokens.
-/

namespace ArmAssembly

/-! ## The same places in two texts

Places are paired by the index of a token, and not by offsets: what lies between the tokens may be
longer in one text than in the other. The one place that no token stands at is the end. -/

section

variable (tokens tokens' : List Token)

/-- The tokens have the same index, kind and lexeme. -/
structure Token.Abreast (t u : Token) : Prop where
  index : ∃ n : Nat, tokens[n]? = some t ∧ tokens'[n]? = some u
  kind : u.kind = t.kind
  lexeme : u.lexeme = t.lexeme

/-- The spans start with tokens that have the same index. -/
def Span.Abreast (s s' : Span) : Prop :=
  ∃ (n : Nat) (t u : Token), tokens[n]? = some t ∧ tokens'[n]? = some u ∧
    s.start = t.span.start ∧ s'.start = u.span.start

/-- Where the last token ends, and the start of the text if there is none. -/
def endOf : Nat := Cursor.lastStop ⟨tokens.reverse, []⟩

/-- The problems have the same cause, and their spans start with tokens that have the same index or
are empty at the end of the last token. -/
inductive Problem.Abreast : Problem → Problem → Prop where
  | token (cause : Cause) {s s' : Span} (spans : s.Abreast tokens tokens' s') :
      Abreast ⟨cause, s⟩ ⟨cause, s'⟩
  | ending (cause : Cause) :
      Abreast ⟨cause, .point (endOf tokens)⟩ ⟨cause, .point (endOf tokens')⟩

/-- The cursors have as many tokens before them, and the same tokens after them. -/
structure Cursor.Abreast (c c' : Cursor) : Prop where
  left : c.before.reverse ++ c.after = tokens
  right : c'.before.reverse ++ c'.after = tokens'
  depth : c'.before.length = c.before.length
  views : c'.after.map Token.view = c.after.map Token.view

/-- Both come to values that are paired, or both fail with problems that are. -/
inductive Verdicts {α β : Type} (V : α → β → Prop) :
    Except Problem α → Except Problem β → Prop where
  | ok {a : α} {b : β} (values : V a b) : Verdicts V (.ok a) (.ok b)
  | error {p p' : Problem} (problems : p.Abreast tokens tokens' p') :
      Verdicts V (.error p) (.error p')

/-- Both succeed with values that are paired and leave cursors that are, or both fail with problems
that are paired. -/
inductive Reader.Outcomes {α β : Type} (V : α → β → Prop) :
    EStateM.Result Problem Cursor α → EStateM.Result Problem Cursor β → Prop where
  | ok {a : α} {b : β} {c c' : Cursor} (values : V a b) (cursors : c.Abreast tokens tokens' c') :
      Outcomes V (.ok a c) (.ok b c')
  | error {p p' : Problem} {c c' : Cursor} (problems : p.Abreast tokens tokens' p') :
      Outcomes V (.error p c) (.error p' c')

/-- From cursors that are paired, the readers come to outcomes that are. -/
def Reader.Abreast {α β : Type} (V : α → β → Prop) (r : Reader α) (r' : Reader β) : Prop :=
  ∀ c c', c.Abreast tokens tokens' c' → Outcomes tokens tokens' V (r c) (r' c')

end

section

variable {tokens tokens' : List Token}

namespace Token.Abreast

variable {t u : Token}

theorem span (h : t.Abreast tokens tokens' u) : t.span.Abreast tokens tokens' u.span := by
  obtain ⟨n, ht, hu⟩ := h.index
  exact ⟨n, t, u, ht, hu, rfl, rfl⟩

theorem sameText (h : t.Abreast tokens tokens' u) : t.SameText u := ⟨h.kind, h.lexeme⟩

end Token.Abreast

/-! ## Cursors -/

namespace Cursor.Abreast

/-- The cursors in front of two texts with the same tokens. -/
theorem ofList (h : tokens'.map Token.view = tokens.map Token.view) :
    (Cursor.ofList tokens).Abreast tokens tokens' (.ofList tokens') where
  left := rfl
  right := rfl
  depth := rfl
  views := h

variable {before before' after after' : List Token} {t u : Token}

theorem eq_nil (h : Cursor.Abreast tokens tokens' ⟨before, []⟩ ⟨before', after'⟩) :
    after' = [] :=
  List.map_eq_nil_iff.mp h.views

/-- The next token of the one text is next in the other. -/
theorem exists_next (h : Cursor.Abreast tokens tokens' ⟨before, t :: after⟩ ⟨before', after'⟩) :
    ∃ u rest, after' = u :: rest ∧ t.Abreast tokens tokens' u ∧
      Cursor.Abreast tokens tokens' ⟨t :: before, after⟩ ⟨u :: before', rest⟩ := by
  obtain ⟨hleft, hright, hdepth, hviews⟩ := h
  obtain ⟨u, rest, rfl, hview, hrest⟩ := List.map_eq_cons_iff.mp hviews
  dsimp only at hleft hright hdepth
  refine ⟨u, rest, rfl, ⟨⟨before.length, ?_, ?_⟩, congrArg Prod.fst hview,
    congrArg Prod.snd hview⟩, ⟨?_, ?_, ?_, hrest⟩⟩
  · simp [← hleft]
  · simp [← hright, ← hdepth]
  · simpa using hleft
  · simpa using hright
  · simp [hdepth]

theorem nextIs {c c' : Cursor} (h : c.Abreast tokens tokens' c') (kind : TokenKind) :
    c'.nextIs kind = c.nextIs kind := by
  obtain ⟨before, after⟩ := c
  obtain ⟨before', after'⟩ := c'
  cases after with
  | nil =>
      obtain rfl := h.eq_nil
      rfl
  | cons t after =>
      obtain ⟨u, rest, rfl, htu, -⟩ := h.exists_next
      simp only [Cursor.nextIs, htu.kind]

/-- Where tokens end too early, they end behind the last one. -/
theorem endOfInput (h : Cursor.Abreast tokens tokens' ⟨before, []⟩ ⟨before', []⟩)
    (expected : Expected) :
    (Reader.endOfInput ⟨before, []⟩ expected).Abreast tokens tokens'
      (Reader.endOfInput ⟨before', []⟩ expected) := by
  have hleft : endOf tokens = Cursor.lastStop ⟨before, []⟩ := by
    simp [endOf, ← h.left]
  have hright : endOf tokens' = Cursor.lastStop ⟨before', []⟩ := by
    simp [endOf, ← h.right]
  rw [Reader.endOfInput, Reader.endOfInput, ← hleft, ← hright]
  exact .ending _

end Cursor.Abreast

/-! ## Readers

The smallest readers are abreast, one by one. That the readers of operations are, too, is the walk
of the grammar (`Reader.closed_abreast`). -/

namespace Reader

variable {α β : Type} {V : α → α → Prop} {W : β → β → Prop}

theorem Abreast.pure {a b : α} (h : V a b) : Abreast tokens tokens' V (pure a) (pure b) := by
  intro c c' hc
  exact .ok h hc

theorem Abreast.fail {p p' : Problem} (h : p.Abreast tokens tokens' p') :
    Abreast tokens tokens' V (Reader.fail p) (Reader.fail p') := by
  intro c c' _
  exact .error h

theorem Abreast.bind {r r' : Reader α} {k k' : α → Reader β} (hr : Abreast tokens tokens' V r r')
    (hk : ∀ a b, V a b → Abreast tokens tokens' W (k a) (k' b)) :
    Abreast tokens tokens' W (r >>= k) (r' >>= k') := by
  intro c c' hc
  change Outcomes tokens tokens' W (EStateM.bind r k c) (EStateM.bind r' k' c')
  unfold EStateM.bind
  have houtcomes := hr c c' hc
  generalize r c = outcome, r' c' = outcome' at houtcomes
  cases houtcomes with
  | ok values cursors => exact hk _ _ values _ _ cursors
  | error problems => exact .error problems

theorem Abreast.ifDash {r r' s s' : Reader α} (hr : Abreast tokens tokens' V r r')
    (hs : Abreast tokens tokens' V s s') :
    Abreast tokens tokens' V (ifDash r s) (ifDash r' s') := by
  intro c c' hc
  unfold Reader.ifDash
  rw [hc.nextIs]
  split
  · exact hr c c' hc
  · exact hs c c' hc

theorem abreast_token (expected : Expected) :
    Abreast tokens tokens' (Token.Abreast tokens tokens') (token expected) (token expected) := by
  rintro ⟨before, after⟩ ⟨before', after'⟩ h
  cases after with
  | nil =>
      obtain rfl := h.eq_nil
      exact .error (h.endOfInput expected)
  | cons t after =>
      obtain ⟨u, rest, rfl, htu, hnext⟩ := h.exists_next
      exact .ok htu hnext

/-- The rest of a list. The induction is on the tokens that are left of the one text. -/
theorem abreast_listRest (expected : Expected) {convert : Token → Except Problem α}
    (hconvert : ∀ t u : Token, t.Abreast tokens tokens' u →
      t.Matched u V (convert t) (convert u))
    {found found' : List α} (hfound : Zipped V found found')
    {before before' after after' : List Token}
    (h : Cursor.Abreast tokens tokens' ⟨before, after⟩ ⟨before', after'⟩) :
    Outcomes tokens tokens' (Zipped V) (listRest expected convert found before after)
      (listRest expected convert found' before' after') := by
  fun_induction listRest expected convert found before after generalizing found' before' after' with
  | case1 found before =>
      obtain rfl := h.eq_nil
      exact .ok hfound.reverse h
  | case2 found before t hcomma =>
      -- a comma is the last token of both texts
      obtain ⟨u, rest, rfl, htu, hnext⟩ := h.exists_next
      obtain rfl := hnext.eq_nil
      rw [listRest, if_pos (htu.kind.trans hcomma)]
      exact .error (hnext.endOfInput expected)
  | case3 found before t hcomma =>
      obtain ⟨u, rest, rfl, htu, hnext⟩ := h.exists_next
      obtain rfl := hnext.eq_nil
      rw [listRest, if_neg (htu.kind ▸ hcomma)]
      exact .ok hfound.reverse h
  | case4 found before t item rest hcomma a hitem ih =>
      -- the item behind the comma is read in one text, hence in the other
      obtain ⟨u, _, rfl, htu, hnext⟩ := h.exists_next
      obtain ⟨item', rest', rfl, hitems, hrest⟩ := hnext.exists_next
      have hmatched := hconvert item item' hitems
      rw [hitem] at hmatched
      rw [listRest, if_pos (htu.kind.trans hcomma)]
      generalize convert item' = result at hmatched
      cases hmatched with
      | ok values => exact ih (.cons values hfound) hrest
  | case5 found before t item rest hcomma problem hitem =>
      -- it cannot be read in either, for the same cause
      obtain ⟨u, _, rfl, htu, hnext⟩ := h.exists_next
      obtain ⟨item', rest', rfl, hitems, hrest⟩ := hnext.exists_next
      have hmatched := hconvert item item' hitems
      rw [hitem] at hmatched
      rw [listRest, if_pos (htu.kind.trans hcomma)]
      generalize convert item' = result at hmatched
      cases hmatched with
      | error quoted => exact .error (.token _ hitems.span)
  | case6 found before t item rest hcomma =>
      obtain ⟨u, _, rfl, htu, hnext⟩ := h.exists_next
      obtain ⟨item', rest', rfl, -, -⟩ := hnext.exists_next
      rw [listRest, if_neg (htu.kind ▸ hcomma)]
      exact .ok hfound.reverse h

theorem abreast_spanFrom {head head' : Token} (h : head.Abreast tokens tokens' head') :
    Abreast tokens tokens' (Span.Abreast tokens tokens') (spanFrom head) (spanFrom head') := by
  intro c c' hc
  obtain ⟨n, ht, hu⟩ := h.index
  exact .ok ⟨n, head, head', ht, hu, rfl, rfl⟩ hc

variable (tokens tokens')

/-- **All readers of the grammar go abreast.** -/
theorem closed_abreast : Closed (Token.Abreast tokens tokens') (Span.Abreast tokens tokens')
    (Reader.Abreast tokens tokens') where
  sameText := Token.Abreast.sameText
  pure := Abreast.pure
  fail ht _ := .fail (.token _ ht.span)
  token := abreast_token
  listRest expected _ hconvert _ _ hfound _ _ hc := abreast_listRest expected hconvert hfound hc
  bind := Abreast.bind
  ifDash := Abreast.ifDash
  spanFrom := abreast_spanFrom
  failOver _ hspans := .fail (.token _ hspans)

end Reader

/-! ## Programs -/

/-- A label is declared in the one text just if it is in the other. -/
theorem Cursor.Abreast.declaration? {c c' : Cursor} (h : c.Abreast tokens tokens' c') :
    (c.declaration? = none ∧ c'.declaration? = none) ∨
      ∃ label label' d d', c.declaration? = some (label, d) ∧
        c'.declaration? = some (label', d') ∧ d.Abreast tokens tokens' d' := by
  obtain ⟨before, after⟩ := c
  obtain ⟨before', after'⟩ := c'
  rcases after with _ | ⟨name, _ | ⟨colon, rest⟩⟩
  · obtain rfl := h.eq_nil
    exact .inl ⟨rfl, rfl⟩
  · obtain ⟨name', _, rfl, -, hnext⟩ := h.exists_next
    obtain rfl := hnext.eq_nil
    exact .inl ⟨rfl, rfl⟩
  · obtain ⟨name', _, rfl, hname, hnext⟩ := h.exists_next
    obtain ⟨colon', rest', rfl, hcolon, hbehind⟩ := hnext.exists_next
    simp only [Cursor.declaration?, hname.kind, hcolon.kind]
    split
    · exact .inr ⟨_, _, _, _, rfl, rfl, hbehind⟩
    · exact .inl ⟨rfl, rfl⟩

namespace Reading

theorem abreast_ofOperation {c c' : Cursor} (h : c.Abreast tokens tokens' c')
    (ih : ∀ d d' : Cursor, d.after.length < c.after.length → d.Abreast tokens tokens' d' →
      Option.Rel (Problem.Abreast tokens tokens') (ofCursor d).problem? (ofCursor d').problem?) :
    Option.Rel (Problem.Abreast tokens tokens') (ofOperation c).problem?
      (ofOperation c').problem? := by
  have houtcomes := (Reader.closed_abreast tokens tokens').operation c c' h
  unfold ofOperation
  cases hread : Reader.operation c with
  | ok item d =>
      have hlength := Reader.length_lt_of_operation hread
      rw [hread] at houtcomes
      generalize Reader.operation c' = outcome at houtcomes
      cases houtcomes with
      | ok _ cursors => exact ih d _ hlength cursors
  | error problem d =>
      rw [hread] at houtcomes
      generalize Reader.operation c' = outcome at houtcomes
      cases houtcomes with
      | error problems => exact .some problems

/-- Reading goes on or stops in both texts. -/
theorem abreast_ofCursor {c c' : Cursor} (h : c.Abreast tokens tokens' c') :
    Option.Rel (Problem.Abreast tokens tokens') (ofCursor c).problem? (ofCursor c').problem? := by
  -- on the number of tokens that are left
  induction hn : c.after.length using Nat.strongRecOn generalizing c c' with
  | ind n ih =>
      subst hn
      have hlengths : c'.after.length = c.after.length := by
        simpa using congrArg List.length h.views
      by_cases hafter : c.after = []
      · have hafter' : c'.after = [] := by
          rw [hafter] at hlengths
          exact List.length_eq_zero_iff.mp hlengths
        rw [ofCursor_nil hafter, ofCursor_nil hafter']
        exact .none
      · have hafter' : c'.after ≠ [] := by
          intro hnil
          rw [hnil] at hlengths
          exact hafter (List.length_eq_zero_iff.mp hlengths.symm)
        rcases h.declaration? with ⟨hlabel, hlabel'⟩ | ⟨label, label', d, d', hlabel, hlabel', hd⟩
        · rw [ofCursor_plain hafter hlabel, ofCursor_plain hafter' hlabel']
          exact abreast_ofOperation h fun e e' hlength he => ih _ hlength he rfl
        · have hlength := Cursor.length_of_declaration hlabel
          rw [ofCursor_labelled hlabel, ofCursor_labelled hlabel']
          exact abreast_ofOperation hd fun e e' hlt he => ih _ (by omega) he rfl

/-- **Texts with the same tokens are read abreast**: both can be read, or both stop with the same
cause at the same place. -/
theorem abreast_ofTokens (h : tokens'.map Token.view = tokens.map Token.view) :
    Option.Rel (Problem.Abreast tokens tokens') (ofTokens tokens).problem?
      (ofTokens tokens').problem? :=
  abreast_ofCursor (.ofList h)

end Reading

end

end ArmAssembly
