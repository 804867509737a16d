import ArmAssembly.Proofs.Abreast
import ArmAssembly.Proofs.Statements
import ArmAssembly.Proofs.TwoPass

set_option autoImplicit false

/-! # What problems report

A reader that fails blames one of the tokens or their end (`Problem.Concerns`), and what a message
quotes is the lexeme of the token that it points at. This carries over from parts to wholes if one
keeps in view that the tokens which pass from reader to reader are tokens of the text
(`Reader.sequential_blames`). Only a `byte` directive that has been read to its end can be blamed as
a whole, for its digits (`Problem.OfOperation`).
-/

namespace ArmAssembly

/-! ## Problems over tokens -/

/-- The problem points at the token and quotes it. -/
structure Problem.Quotes (problem : Problem) (t : Token) : Prop where
  cause : t.Quoted problem.cause
  span : problem.span = t.span

/-- The tokens form a `byte` directive with these literals. -/
structure BytesDirective (head equals : Token) (taken literals : List Token) : Prop where
  name : head.isNamed "byte" = true
  mark : equals.kind = .equals
  list : ListPhrase Token.hexLiteral taken literals

/-- The problem is with one of the tokens, or with their end, and then all of them were read: `d` is
where reading came to. -/
inductive Problem.Concerns (tokens : List Token) (problem : Problem) (d : Cursor) : Prop where
  | token {t : Token} (mem : t ∈ tokens) (quotes : problem.Quotes t)
  | ending (expected : Expected)
      (eq : problem = ⟨.malformed (.endOfInput expected), .point (endOf tokens)⟩)
      (read : d.after = [])

/-- The problem is with one of the tokens, with their end, or with the digits of a whole `byte`
directive, which is what was read of the tokens `after`. -/
inductive Problem.OfOperation (tokens after : List Token) (problem : Problem) (d : Cursor) :
    Prop where
  | concerns (concerns : problem.Concerns tokens d)
  | digits {head equals : Token} {taken literals : List Token}
      (reads : after = head :: equals :: (taken ++ d.after))
      (closed : d.nextIs .comma = false)
      (directive : BytesDirective head equals taken literals)
      (unpaired : bytesOfLiterals literals (spanOver head (equals :: taken)) = .error problem)

/-- Where a token is converted twice and this fails, the problem quotes the token. -/
theorem Token.Matched.quotes {t : Token} {α : Type} {V : α → α → Prop} {result : Except Problem α}
    {problem : Problem} (h : t.Matched t V result result) (hfails : result = .error problem) :
    problem.Quotes t := by
  rw [hfails] at h
  cases h with
  | error quoted => exact ⟨quoted, rfl⟩

/-! ## Readers

Of a reader it is said that its problems concern the tokens, provided that all its continuations do.
Whether the tokens before the cursor were read by this reader or by another makes no difference. -/

/-- The cursor stands somewhere among the tokens. -/
def Cursor.Among (tokens : List Token) (c : Cursor) : Prop :=
  c.before.reverse ++ c.after = tokens

namespace Cursor.Among

variable {tokens before rest : List Token} {t : Token}

theorem eq {c : Cursor} (h : c.Among tokens) : c.before.reverse ++ c.after = tokens := h

theorem of_takes {c d : Cursor} {taken : List Token} (h : c.Among tokens) (ht : c.Takes taken d) :
    d.Among tokens := by
  obtain ⟨hafter, hbefore⟩ := ht
  unfold Among at h ⊢
  rw [← h, hafter, hbefore, List.reverse_append, List.reverse_reverse, List.append_assoc]

theorem next (h : Among tokens ⟨before, t :: rest⟩) : Among tokens ⟨t :: before, rest⟩ :=
  h.of_takes (Cursor.takes_singleton.mpr ⟨rest, rfl, rfl⟩)

theorem mem (h : Among tokens ⟨before, t :: rest⟩) : t ∈ tokens := by
  unfold Among at h
  rw [← h]
  exact List.mem_append_right _ List.mem_cons_self

/-- A cursor with no tokens after it stands at the end of the last one. -/
theorem lastStop (h : Among tokens ⟨before, []⟩) : Cursor.lastStop ⟨before, []⟩ = endOf tokens := by
  unfold Among at h
  rw [List.append_nil] at h
  rw [endOf, ← h, List.reverse_reverse]

end Cursor.Among

namespace Reader

variable {tokens : List Token} {α β : Type}

theorem concerns_endOfInput {before : List Token} (h : Cursor.Among tokens ⟨before, []⟩)
    (expected : Expected) :
    (endOfInput ⟨before, []⟩ expected).Concerns tokens ⟨before, []⟩ := by
  refine .ending expected ?_ rfl
  rw [endOfInput, h.lastStop]

/-- The outcome is a value that `V` pairs with something, at a place among the tokens, or a problem
over them. -/
def Accounted (tokens : List Token) (V : α → α → Prop) : EStateM.Result Problem Cursor α → Prop
  | .ok a d => (∃ b, V a b) ∧ d.Among tokens
  | .error problem d => problem.Concerns tokens d

/-- From any place among the tokens, the first reader comes to an outcome that they account for. -/
def Blames (tokens : List Token) (V : α → α → Prop) (r _r' : Reader α) : Prop :=
  ∀ c, c.Among tokens → Accounted tokens V (r c)

/-- One token of the text, on both sides. -/
def OneOf (tokens : List Token) (t u : Token) : Prop := t = u ∧ t ∈ tokens

namespace Blames

variable {V : α → α → Prop} {W : β → β → Prop}

theorem bind {r r' : Reader α} {k k' : α → Reader β} (hr : Blames tokens V r r')
    (hk : ∀ a b, V a b → Blames tokens W (k a) (k' b)) :
    Blames tokens W (r >>= k) (r' >>= k') := by
  intro c hc
  have hfirst := hr c hc
  cases hread : r c with
  | error problem d =>
      rw [hread] at hfirst
      rw [bind_of_error hread]
      exact hfirst
  | ok a d =>
      rw [hread] at hfirst
      rw [bind_of_ok hread]
      obtain ⟨⟨b, hab⟩, hd⟩ := hfirst
      exact hk a b hab d hd

theorem ifDash {r r' s s' : Reader α} (hr : Blames tokens V r r') (hs : Blames tokens V s s') :
    Blames tokens V (ifDash r s) (ifDash r' s') := by
  intro c hc
  unfold Reader.ifDash
  split
  · exact hr c hc
  · exact hs c hc

theorem token (expected : Expected) :
    Blames tokens (OneOf tokens) (token expected) (token expected) := by
  rintro ⟨before, after⟩ hc
  cases after with
  | nil => exact concerns_endOfInput hc expected
  | cons t rest => exact ⟨⟨t, rfl, hc.mem⟩, hc.next⟩

theorem listRest (expected : Expected) {convert : Token → Except Problem α}
    (hconvert : ∀ t u, OneOf tokens t u → t.Matched u V (convert t) (convert u))
    {found found' : List α} (hfound : Zipped V found found') {before after : List Token}
    (hc : Cursor.Among tokens ⟨before, after⟩) :
    Accounted tokens (Zipped V) (Reader.listRest expected convert found before after) := by
  fun_induction Reader.listRest expected convert found before after generalizing found' with
  | case1 | case3 | case6 => exact ⟨⟨_, hfound.reverse⟩, hc⟩
  | case2 => exact concerns_endOfInput hc.next expected
  | case4 found before t item rest ht a ha ih =>
      -- the item that was read is paired with itself
      have hmatched := hconvert item item ⟨rfl, hc.next.mem⟩
      rw [ha] at hmatched
      cases hmatched with
      | ok values => exact ih (.cons values hfound) hc.next.next
  | case5 found before t item rest ht problem hp =>
      exact .token hc.next.mem ((hconvert item item ⟨rfl, hc.next.mem⟩).quotes hp)

end Blames

variable (tokens)

/-- **The readers of the grammar blame tokens.** -/
theorem sequential_blames : Sequential (OneOf tokens) (Blames tokens) where
  sameText := by
    rintro t _ ⟨rfl, -⟩
    exact ⟨rfl, rfl⟩
  pure hab := fun _ hc => ⟨⟨_, hab⟩, hc⟩
  fail ht quoted := fun _ _ => .token ht.2 ⟨quoted, rfl⟩
  token := Blames.token
  listRest expected _ hconvert _ _ hfound := fun _ hc =>
    Blames.listRest expected hconvert hfound hc
  bind := Blames.bind
  ifDash := Blames.ifDash

variable {tokens}

/-! ## Operations

The readers for operands are covered by the walk over the grammar. What is left is the step before
them: the first word, and the digits of a `byte` directive, which are looked at when all of it has
been read. -/

/-- What a `byte` directive is blamed for is a token of it, or all of its digits. -/
theorem ofOperation_bytes {head : Token} {before rest : List Token} {problem : Problem} {d : Cursor}
    (hname : head.isNamed "byte" = true) (hc : Cursor.Among tokens ⟨head :: before, rest⟩)
    (h : bytes head ⟨head :: before, rest⟩ = .error problem d) :
    problem.OfOperation tokens (head :: rest) d := by
  have hmark := (sequential_blames tokens).kind .equals .equals _ hc
  unfold bytes at h
  cases hequals : kind .equals .equals ⟨head :: before, rest⟩ with
  | error found e =>
      rw [hequals] at hmark
      rw [bind_of_error hequals] at h
      cases h
      exact .concerns hmark
  | ok equals e =>
      obtain ⟨hequals', hkind⟩ := kind_eq_ok_iff.mp hequals
      have hliterals := (sequential_blames tokens).list .hexLiteral
        (fun t u ht => ((sequential_blames tokens).sameText ht).hexLiteral ht) e
        (hc.of_takes hequals')
      rw [bind_of_ok hequals] at h
      cases hlist : list .hexLiteral Token.hexLiteral e with
      | error found f =>
          rw [hlist] at hliterals
          rw [bind_of_error hlist] at h
          cases h
          exact .concerns hliterals
      | ok literals f =>
          obtain ⟨taken, htaken, hphrase, hclosed⟩ := list_eq_ok_iff.mp hlist
          have htakes : Cursor.Takes ⟨before, head :: rest⟩ (head :: equals :: taken) f :=
            .cons (Cursor.takes_singleton.mpr ⟨rest, rfl, rfl⟩) (hequals'.cons htaken)
          have hspan : spanFrom head f = .ok (spanOver head (equals :: taken)) f :=
            spanFrom_eq_ok_iff.mpr ⟨by rw [htakes.lastStop]; rfl, rfl⟩
          rw [bind_of_ok hlist, bind_of_ok hspan] at h
          cases hpairs : bytesOfLiterals literals (spanOver head (equals :: taken)) with
          | ok contents =>
              rw [hpairs] at h
              cases h
          | error found =>
              rw [hpairs] at h
              cases h
              exact .digits htakes.1 hclosed ⟨hname, hkind, hphrase⟩ hpairs

theorem ofOperation_afterHead {head : Token} {before rest : List Token} {problem : Problem}
    {d : Cursor} (hc : Cursor.Among tokens ⟨head :: before, rest⟩)
    (h : afterHead head ⟨head :: before, rest⟩ = .error problem d) :
    problem.OfOperation tokens (head :: rest) d := by
  have hhead : head ∈ tokens := by
    rw [← hc.eq]
    simp
  unfold afterHead at h
  by_cases hbyte : head.isNamed "byte" = true
  · rw [if_pos hbyte] at h
    exact ofOperation_bytes hbyte hc h
  rw [if_neg hbyte] at h
  by_cases hword : head.isNamed "word" = true
  · have hwords := (sequential_blames tokens).words _ hc
    rw [if_pos hword] at h
    rw [h] at hwords
    exact .concerns hwords
  rw [if_neg hword] at h
  cases hmnemonic : Mnemonic.ofWord? head.lexeme with
  | some m =>
      have hoperands := (sequential_blames tokens).operands ⟨rfl, hhead⟩ m _ hc
      simp only [hmnemonic] at h
      rw [h] at hoperands
      exact .concerns hoperands
  | none =>
      simp only [hmnemonic] at h
      cases h
      exact .concerns (.token hhead ⟨.unknownOperation, rfl⟩)

/-- **An operation that cannot be read** is blamed on one of the tokens, on their end, or on the
digits of a `byte` directive. -/
theorem ofOperation_of_error {c d : Cursor} {problem : Problem} (hc : c.Among tokens)
    (h : operation c = .error problem d) : problem.OfOperation tokens c.after d := by
  obtain ⟨before, after⟩ := c
  cases after with
  | nil =>
      cases h
      exact .concerns (concerns_endOfInput hc .operation)
  | cons head rest =>
      by_cases hword : head.kind = .word
      · rw [operation_of_word hword] at h
        cases hread : afterHead head ⟨head :: before, rest⟩ with
        | error found e =>
            rw [bind_of_error hread] at h
            cases h
            exact ofOperation_afterHead hc.next hread
        | ok item e =>
            rw [bind_of_ok hread] at h
            cases h
      · rw [operation_of_not_word hword] at h
        cases h
        exact .concerns (.token hc.mem ⟨.unexpected _, rfl⟩)

end Reader

/-! ## Assembling -/

/-- **What is wrong with tokens** is the first operation that cannot be read; or they form a program
and the label that an item uses has no address, or one that is too far away. -/
theorem stuck_or_used_of_assembleTokens {tokens : List Token} {problem : Problem}
    (h : assembleTokens tokens = .error problem) :
    (∃ earlier front e d, Reading.Stuck (.ofList tokens) earlier front e problem d ∧
        problem.OfOperation tokens e.after d) ∨
      ∃ items, ProgramPhrase tokens items ∧ ∃ i ∈ items, ∃ name, i.value.used? = some name ∧
        problem.span = name.span ∧ Item.Unusable name problem.cause := by
  have hassemble := assembleTokens_eq tokens
  cases hend : (Reading.ofTokens tokens).problem? with
  | some stopped =>
      simp only [hend] at hassemble
      rw [h] at hassemble
      cases hassemble
      obtain ⟨earlier, front, e, d, hstuck⟩ := Reading.exists_stuck hend
      have hamong : (Cursor.ofList tokens).Among tokens := rfl
      exact .inl ⟨earlier, front, e, d, hstuck,
        Reader.ofOperation_of_error (hamong.of_takes hstuck.takes) hstuck.operation⟩
  | none =>
      simp only [hend] at hassemble
      cases hcode : Program.code (Reading.ofTokens tokens).items with
      | ok bytes =>
          rw [hcode] at hassemble
          obtain ⟨binary, hbinary, -⟩ := hassemble
          rw [h] at hbinary
          cases hbinary
      | error refused =>
          rw [hcode] at hassemble
          rw [h] at hassemble
          cases hassemble
          obtain ⟨n, i, hi, -, hitem⟩ := Program.exists_of_code_eq_error hcode
          exact .inr ⟨_, Reading.ofTokens_finished_iff.mp ⟨hend, rfl⟩, i, List.mem_of_getElem? hi,
            Item.exists_used_of_code_eq_error hitem⟩

end ArmAssembly
