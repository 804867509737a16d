import ArmAssembly.Proofs.Phrases
import ArmAssembly.Proofs.Reading

set_option autoImplicit false

/-! # Reading statement by statement

A program is a sequence of statements, each of which is a phrase with or without a label in
front of it. No statement begins with a comma and no operation goes on with a colon, so where
statements are written one after the other each is read by itself
(`Reading.ofCursor_continues`), and a program is read to its end just if it can be cut into
statements (`Reading.ofTokens_finished_iff`). Otherwise reading is stuck in the first statement that
is none (`Reading.exists_stuck`).
-/

namespace ArmAssembly

/-! ## Statements as phrases -/

/-- The part of the text from `head` to the last of the tokens `taken` after it. -/
def spanOver (head : Token) (taken : List Token) : Span :=
  ⟨head.span.start, (taken.getLast?.getD head).span.stop⟩

/-- The tokens of one statement and its items. -/
inductive StatementPhrase : List Token → List (Located Item) → Prop where
  | plain {head : Token} {taken : List Token} {item : Item} (word : head.kind = .word)
      (operation : OperationPhrase head taken item) :
      StatementPhrase (head :: taken) [⟨item, spanOver head taken⟩]
  | labelled {name colon head : Token} {taken : List Token} {item : Item}
      (label : name.kind = .word) (mark : colon.kind = .colon) (word : head.kind = .word)
      (operation : OperationPhrase head taken item) :
      StatementPhrase (name :: colon :: head :: taken)
        [⟨.label name.lexeme, name.span⟩, ⟨item, spanOver head taken⟩]

/-- No label, or a word and a colon. -/
inductive LabelPhrase : List Token → Prop where
  | absent : LabelPhrase []
  | present {name colon : Token} (label : name.kind = .word) (mark : colon.kind = .colon) :
      LabelPhrase [name, colon]

/-- A statement is an operation, with or without a label. -/
theorem LabelPhrase.statement {front : List Token} (h : LabelPhrase front) {head : Token}
    {taken : List Token} {item : Item} (hword : head.kind = .word)
    (hoperation : OperationPhrase head taken item) :
    ∃ items, StatementPhrase (front ++ head :: taken) items := by
  cases h with
  | absent => exact ⟨_, .plain hword hoperation⟩
  | present label mark => exact ⟨_, .labelled label mark hword hoperation⟩

/-- The tokens of a sequence of statements and their items. -/
inductive ProgramPhrase : List Token → List (Located Item) → Prop where
  | nil : ProgramPhrase [] []
  | cons {u v : List Token} {items more : List (Located Item)}
      (statement : StatementPhrase u items) (rest : ProgramPhrase v more) :
      ProgramPhrase (u ++ v) (items ++ more)

/-- Statements that follow statements are statements. -/
theorem ProgramPhrase.append {u v : List Token} {p q : List (Located Item)}
    (first : ProgramPhrase u p) (second : ProgramPhrase v q) :
    ProgramPhrase (u ++ v) (p ++ q) := by
  induction first with
  | nil => exact second
  | cons statement rest ih =>
      rw [List.append_assoc, List.append_assoc]
      exact .cons statement ih

/-! ## Where a phrase begins

Whether a word is a label is decided by the token behind it. An operation has a token there that is
no colon, so its first word is never taken for a label. -/

theorem numberIn_ne_colon {t : Token} {place : OperandPlace} {bits : BitVec place.width}
    (h : t.numberIn place = .ok bits) : t.kind ≠ .colon := by
  have hnumeric := (Token.numberIn_eq_ok_iff.mp h).1
  intro hcolon
  rw [hcolon] at hnumeric
  cases hnumeric

theorem register_ne_colon {t : Token} {r : Register} (h : t.register = .ok r) :
    t.kind ≠ .colon := by
  rw [Token.kind_of_register h]
  decide

/-- Flags and the register after them begin with no colon. -/
theorem FlagPhrase.second {accepted : String} {flags : List Token} {letters : List Char}
    {t : Token} {r : Register} (h : FlagPhrase accepted flags letters)
    (hregister : t.register = .ok r) (taken : List Token) :
    ∃ u rest, flags ++ t :: taken = u :: rest ∧ u.kind ≠ .colon := by
  cases h with
  | absent => exact ⟨t, taken, rfl, register_ne_colon hregister⟩
  | @present dash _ mark _ _ => exact ⟨dash, _, rfl, by rw [mark]; decide⟩

theorem OperandsPhrase.second {m : Mnemonic} {taken : List Token} {item : Item}
    (h : OperandsPhrase m taken item) : ∃ t rest, taken = t :: rest ∧ t.kind ≠ .colon := by
  -- operands begin with a number, a word, a dash or a bracket
  unfold OperandsPhrase at h
  cases hbase : m.base with
  | branch | branchLink =>
      rw [hbase] at h
      cases h with
      | offset hnumber => exact ⟨_, _, rfl, numberIn_ne_colon hnumber⟩
      | label hword => exact ⟨_, _, rfl, by rw [hword]; decide⟩
  | and | orr | add | sub =>
      rw [hbase] at h
      cases h with
      | intro hsetting hdestination => exact hsetting.second hdestination _
  | compare =>
      rw [hbase] at h
      cases h with
      | intro hfirst => exact ⟨_, _, rfl, register_ne_colon hfirst⟩
  | move | moveWide =>
      rw [hbase] at h
      cases h with
      | immediate _ hdestination | register _ hdestination | label _ hdestination =>
          exact ⟨_, _, rfl, register_ne_colon hdestination⟩
  | moveTop =>
      rw [hbase] at h
      cases h with
      | intro _ hdestination => exact ⟨_, _, rfl, register_ne_colon hdestination⟩
  | load | loadByte | store =>
      rw [hbase] at h
      cases h with
      | intro hindexing hdestination => exact hindexing.second hdestination _
  | push | pop =>
      rw [hbase] at h
      cases h with
      | intro _ hopening => exact ⟨_, _, rfl, by rw [hopening]; decide⟩

/-- The token after the first word of an operation is there, and is no colon. -/
theorem OperationPhrase.second {head : Token} {taken : List Token} {item : Item}
    (h : OperationPhrase head taken item) : ∃ t rest, taken = t :: rest ∧ t.kind ≠ .colon := by
  cases h with
  | bytes _ mark | words _ mark => exact ⟨_, _, rfl, by rw [mark]; decide⟩
  | instruction _ operands => exact operands.second

/-- A statement begins with a word. -/
theorem StatementPhrase.first {taken : List Token} {items : List (Located Item)}
    (h : StatementPhrase taken items) : ∃ t rest, taken = t :: rest ∧ t.kind = .word := by
  cases h with
  | plain word => exact ⟨_, _, rfl, word⟩
  | labelled label => exact ⟨_, _, rfl, label⟩

/-- A program begins with a word. -/
theorem ProgramPhrase.first {t : Token} {tokens : List Token} {items : List (Located Item)}
    (h : ProgramPhrase (t :: tokens) items) : t.kind = .word := by
  generalize htokens : t :: tokens = all at h
  cases h with
  | nil => cases htokens
  | cons statement =>
      obtain ⟨_, _, rfl, hword⟩ := statement.first
      rwa [(List.cons.inj htokens).1]

/-- Where no comma follows a program, no comma stands in front of it either. -/
theorem ProgramPhrase.nextIs_comma {taken : List Token} {items : List (Located Item)}
    (h : ProgramPhrase taken items) {c d : Cursor} (htakes : c.Takes taken d)
    (hnext : d.nextIs .comma = false) : c.nextIs .comma = false := by
  cases h with
  | nil => rw [Cursor.takes_nil.mp htakes, hnext]
  | cons statement rest =>
      obtain ⟨t, more, rfl, hword⟩ := statement.first
      obtain ⟨e, ht, -⟩ := Cursor.takes_cons.mp htakes
      rw [ht.nextIs, hword]
      rfl

/-! ## Reading on

A statement is read in front of anything but a comma, which would go on with a list. Behind it the
reading is that of the rest. -/

namespace Cursor

theorem Takes.lastStop {c d : Cursor} {head : Token} {taken : List Token}
    (h : c.Takes (head :: taken) d) : d.lastStop = (taken.getLast?.getD head).span.stop := by
  obtain ⟨-, hbefore⟩ := h
  unfold Cursor.lastStop
  rw [hbefore]
  rcases List.eq_nil_or_concat taken with rfl | ⟨earlier, t, rfl⟩
  · rfl
  · simp

/-- No label stands in front of an operation. -/
theorem declaration?_of_operation {c d : Cursor} {head : Token} {taken : List Token} {item : Item}
    (hphrase : OperationPhrase head taken item) (htakes : c.Takes (head :: taken) d) :
    c.declaration? = none := by
  obtain ⟨t, rest, rfl, hcolon⟩ := hphrase.second
  obtain ⟨hafter, -⟩ := htakes
  unfold declaration?
  rw [hafter]
  simp [hcolon]

theorem declaration?_eq_some_iff {c d : Cursor} {label : Located Item} :
    c.declaration? = some (label, d) ↔
      ∃ name colon, c.Takes [name, colon] d ∧ name.kind = .word ∧ colon.kind = .colon ∧
        label = ⟨.label name.lexeme, name.span⟩ := by
  obtain ⟨before, after⟩ := c
  constructor
  · intro h
    simp only [declaration?] at h
    split at h
    · next name colon rest =>
        by_cases hkinds : (name.kind = .word && colon.kind = .colon) = true
        · rw [if_pos hkinds] at h
          cases h
          simp only [Bool.and_eq_true, decide_eq_true_eq] at hkinds
          exact ⟨name, colon, ⟨rfl, rfl⟩, hkinds.1, hkinds.2, rfl⟩
        · rw [if_neg hkinds] at h
          cases h
    · cases h
  · rintro ⟨name, colon, ⟨hafter, hbefore⟩, hname, hcolon, rfl⟩
    obtain ⟨before', after'⟩ := d
    simp only at hafter hbefore
    subst hbefore hafter
    simp [declaration?, hname, hcolon]

end Cursor

namespace Reading

/-- The reading `r` gives the items `items` and then goes on like the reading `s`. -/
structure Continues (r : Reading) (items : List (Located Item)) (s : Reading) : Prop where
  items_eq : r.items = items ++ s.items
  problem_eq : r.problem? = s.problem?
  stop_eq : r.stop = s.stop

theorem Continues.refl (r : Reading) : r.Continues [] r := ⟨rfl, rfl, rfl⟩

theorem Continues.trans {r s t : Reading} {u v : List (Located Item)}
    (first : r.Continues u s) (second : s.Continues v t) : r.Continues (u ++ v) t where
  items_eq := by rw [first.items_eq, second.items_eq, List.append_assoc]
  problem_eq := first.problem_eq.trans second.problem_eq
  stop_eq := first.stop_eq.trans second.stop_eq

theorem continues_item (i : Located Item) (c : Cursor) (rest : Reading) :
    (item i c rest).Continues [i] rest := ⟨rfl, rfl, rfl⟩

theorem ofOperation_continues {c d : Cursor} {head : Token} {taken : List Token} {item : Item}
    (hword : head.kind = .word) (hphrase : OperationPhrase head taken item)
    (htakes : c.Takes (head :: taken) d) (hnext : d.nextIs .comma = false) :
    (ofOperation c).Continues [⟨item, spanOver head taken⟩] (ofCursor d) := by
  have hspan : spanOver head taken = ⟨head.span.start, d.lastStop⟩ := by
    rw [htakes.lastStop]
    rfl
  have hop : Reader.operation c = .ok ⟨item, spanOver head taken⟩ d :=
    Reader.operation_eq_ok_iff.mpr ⟨head, taken, htakes, hword, hphrase, hspan, fun _ => hnext⟩
  unfold ofOperation
  rw [hop]
  exact continues_item _ _ _

theorem ofCursor_continues_statement {taken : List Token} {items : List (Located Item)}
    (hphrase : StatementPhrase taken items) {c d : Cursor} (htakes : c.Takes taken d)
    (hnext : d.nextIs .comma = false) : (ofCursor c).Continues items (ofCursor d) := by
  cases hphrase with
  | plain word operation =>
      have hafter : c.after ≠ [] := by
        rw [htakes.1]
        exact List.cons_ne_nil _ _
      rw [ofCursor_plain hafter (Cursor.declaration?_of_operation operation htakes)]
      exact ofOperation_continues word operation htakes hnext
  | @labelled name colon _ _ _ label mark word operation =>
      obtain ⟨e, hlabel, htakes⟩ := (Cursor.takes_append (u := [name, colon])).mp htakes
      rw [ofCursor_labelled
        (Cursor.declaration?_eq_some_iff.mpr ⟨name, colon, hlabel, label, mark, rfl⟩)]
      exact (continues_item _ _ _).trans (ofOperation_continues word operation htakes hnext)

/-- **Statements do not interfere.** A program that stands in front of anything but a comma is
read as if it stood alone, and then reading goes on behind it. -/
theorem ofCursor_continues {taken : List Token} {items : List (Located Item)}
    (hphrase : ProgramPhrase taken items) {c d : Cursor} (htakes : c.Takes taken d)
    (hnext : d.nextIs .comma = false) : (ofCursor c).Continues items (ofCursor d) := by
  induction hphrase generalizing c with
  | nil =>
      rw [Cursor.takes_nil.mp htakes]
      exact .refl _
  | cons statement rest ih =>
      obtain ⟨e, hstatement, hrest⟩ := Cursor.takes_append.mp htakes
      -- the next statement begins with a word, so a list at the end of this one is closed
      have hbetween := rest.nextIs_comma hrest hnext
      exact (ofCursor_continues_statement statement hstatement hbetween).trans (ih hrest)

/-! ## Reading to the end -/

theorem exists_phrase_of_operation {c : Cursor} (h : (ofOperation c).problem? = none) :
    ∃ head taken item d, c.Takes (head :: taken) d ∧ head.kind = .word ∧
      OperationPhrase head taken item ∧ (ofCursor d).problem? = none ∧
      (ofOperation c).items = ⟨item, spanOver head taken⟩ :: (ofCursor d).items := by
  unfold ofOperation at h ⊢
  cases hop : Reader.operation c with
  | error problem d =>
      rw [hop] at h
      cases h
  | ok located d =>
      rw [hop] at h
      obtain ⟨value, span⟩ := located
      obtain ⟨head, taken, htakes, hword, hphrase, hspan, -⟩ := Reader.operation_eq_ok_iff.mp hop
      refine ⟨head, taken, value, d, htakes, hword, hphrase, h, ?_⟩
      rw [spanOver, ← htakes.lastStop, ← hspan]
      rfl

/-- What is read to its end is a sequence of statements. -/
theorem programPhrase_of_ofCursor (c : Cursor) (h : (ofCursor c).problem? = none) :
    ProgramPhrase c.after (ofCursor c).items := by
  -- on the number of tokens that are left
  induction hn : c.after.length using Nat.strongRecOn generalizing c with
  | ind n ih =>
      subst hn
      by_cases hafter : c.after = []
      · rw [ofCursor_nil hafter, hafter]
        exact .nil
      -- a statement comes next, with a label or without one
      cases hlabel : c.declaration? with
      | none =>
          rw [ofCursor_plain hafter hlabel] at h ⊢
          obtain ⟨head, taken, item, d, htakes, hword, hphrase, hrest, hitems⟩ :=
            exists_phrase_of_operation h
          rw [hitems, htakes.1]
          have hshorter : d.after.length < c.after.length := by
            simp only [htakes.length_eq, List.length_cons]
            omega
          exact .cons (.plain hword hphrase) (ih _ hshorter d hrest rfl)
      | some found =>
          obtain ⟨label, e⟩ := found
          rw [ofCursor_labelled hlabel] at h ⊢
          obtain ⟨name, colon, hname, hword, hcolon, rfl⟩ :=
            Cursor.declaration?_eq_some_iff.mp hlabel
          obtain ⟨head, taken, item, d, htakes, hhead, hphrase, hrest, hitems⟩ :=
            exists_phrase_of_operation h
          have hall := hname.trans htakes
          rw [items, hitems, hall.1]
          have hshorter : d.after.length < c.after.length := by
            simp only [hall.length_eq, List.length_append, List.length_cons]
            omega
          exact .cons (.labelled hword hcolon hhead hphrase) (ih _ hshorter d hrest rfl)

/-- **A program is read to its end just if it is a sequence of statements**, and then its items
are those of the statements. -/
theorem ofTokens_finished_iff {tokens : List Token} {items : List (Located Item)} :
    ((ofTokens tokens).problem? = none ∧ (ofTokens tokens).items = items) ↔
      ProgramPhrase tokens items := by
  constructor
  · rintro ⟨hproblem, rfl⟩
    exact programPhrase_of_ofCursor _ hproblem
  · intro hphrase
    have htakes : (Cursor.ofList tokens).Takes tokens ⟨tokens.reverse, []⟩ := by
      simp [Cursor.Takes, Cursor.ofList]
    have hall := ofCursor_continues hphrase htakes rfl
    rw [ofCursor_nil (c := ⟨tokens.reverse, []⟩) rfl] at hall
    exact ⟨hall.problem_eq, by rw [ofTokens, hall.items_eq, Reading.items, List.append_nil]⟩

/-! ## Where reading stops -/

/-- Reading from `c` comes through the statements `earlier` and the label `front` to the place `e`,
where no operation can be read. -/
structure Stuck (c : Cursor) (earlier front : List Token) (e : Cursor) (problem : Problem)
    (d : Cursor) : Prop where
  statements : ∃ items, ProgramPhrase earlier items
  label : LabelPhrase front
  takes : c.Takes (earlier ++ front) e
  begun : front ++ e.after ≠ []
  operation : Reader.operation e = .error problem d

/-- A reading that is stuck behind a statement is stuck. -/
theorem Stuck.cons {c c' e d : Cursor} {taken earlier front : List Token}
    {items : List (Located Item)} {problem : Problem} (hstatement : StatementPhrase taken items)
    (htakes : c.Takes taken c') (h : Stuck c' earlier front e problem d) :
    Stuck c (taken ++ earlier) front e problem d where
  statements := by
    obtain ⟨_, hearlier⟩ := h.statements
    exact ⟨_, .cons hstatement hearlier⟩
  label := h.label
  takes := by
    rw [List.append_assoc]
    exact htakes.trans h.takes
  begun := h.begun
  operation := h.operation

/-- Behind a label, a reading is stuck here or further on. -/
theorem exists_stuck_of_ofOperation {c e : Cursor} {front : List Token} {problem : Problem}
    (hlabel : LabelPhrase front) (htakes : c.Takes front e) (hbegun : c.after ≠ [])
    (h : (ofOperation e).problem? = some problem)
    (ih : ∀ d : Cursor, d.after.length < e.after.length → (ofCursor d).problem? = some problem →
      ∃ earlier front e' d', Stuck d earlier front e' problem d') :
    ∃ earlier front e' d', Stuck c earlier front e' problem d' := by
  unfold ofOperation at h
  cases hop : Reader.operation e with
  | error p d =>
      rw [hop] at h
      cases h
      exact ⟨[], front, e, d, ⟨[], .nil⟩, hlabel, htakes, htakes.1 ▸ hbegun, hop⟩
  | ok located d =>
      rw [hop] at h
      obtain ⟨head, taken, htaken, hword, hphrase, -⟩ := Reader.operation_eq_ok_iff.mp hop
      obtain ⟨items, hstatement⟩ := hlabel.statement hword hphrase
      obtain ⟨earlier, front', e', d', hstuck⟩ := ih d (Reader.length_lt_of_operation hop) h
      exact ⟨_, front', e', d', hstuck.cons hstatement (htakes.trans htaken)⟩

/-- **A reading that does not reach the end** is stuck at the operation of the first statement that
cannot be read. -/
theorem exists_stuck {c : Cursor} {problem : Problem} (h : (ofCursor c).problem? = some problem) :
    ∃ earlier front e d, Stuck c earlier front e problem d := by
  -- on the number of tokens that are left
  induction hn : c.after.length using Nat.strongRecOn generalizing c with
  | ind n ih =>
      subst hn
      by_cases hafter : c.after = []
      · rw [ofCursor_nil hafter] at h
        cases h
      cases hlabel : c.declaration? with
      | none =>
          rw [ofCursor_plain hafter hlabel] at h
          exact exists_stuck_of_ofOperation .absent (Cursor.takes_nil.mpr rfl) hafter h
            fun d hd hproblem => ih _ hd hproblem rfl
      | some found =>
          obtain ⟨label, e⟩ := found
          have hlength := Cursor.length_of_declaration hlabel
          rw [ofCursor_labelled hlabel] at h
          obtain ⟨name, colon, htakes, hname, hcolon, -⟩ :=
            Cursor.declaration?_eq_some_iff.mp hlabel
          exact exists_stuck_of_ofOperation (.present hname hcolon) htakes hafter h
            fun d hd hproblem => ih _ (by omega) hproblem rfl

end Reading

/-- Tokens form one program only. -/
theorem ProgramPhrase.unique {tokens : List Token} {items items' : List (Located Item)}
    (h : ProgramPhrase tokens items) (h' : ProgramPhrase tokens items') : items = items' :=
  (Reading.ofTokens_finished_iff.mpr h).2.symm.trans (Reading.ofTokens_finished_iff.mpr h').2

/-- A program can be read just if it is a sequence of statements, and what is heard of it are the
items of the statements. -/
theorem Transcript.exists_run_iff {tokens : List Token} {items : List (Located Item)} :
    (∃ s, Transcript.pass.run tokens .empty = .ok () s ∧ s.result.calls = items) ↔
      ProgramPhrase tokens items := by
  obtain ⟨t, hcalls, hrun⟩ := Transcript.run_eq tokens
  rw [← Reading.ofTokens_finished_iff, ← hcalls]
  cases hend : (Reading.ofTokens tokens).problem? with
  | some problem =>
      rw [hend] at hrun
      rw [hrun]
      exact ⟨nofun, nofun⟩
  | none =>
      rw [hend] at hrun
      rw [hrun]
      constructor
      · rintro ⟨s, hs, rfl⟩
        cases hs
        exact ⟨rfl, rfl⟩
      · rintro ⟨-, hitems⟩
        exact ⟨_, rfl, hitems⟩

end ArmAssembly
