import ArmAssembly.Proofs.Bytes
import ArmAssembly.Proofs.Comments
import ArmAssembly.Proofs.Locations
import ArmAssembly.Proofs.StatementSpans

set_option autoImplicit false

/-! # Where failures point

A text that is not assembled fails over a place in it. This is a character that belongs to no
token, one token, a `byte` directive as a whole, or the end of the last token, and the last only if
the tokens run out in a statement (`Problem.PointsAt`). The line and the column that are reported
are those of this place, however many bytes the characters before it take
(`assembleSource_pointsAt`).
-/

namespace ArmAssembly

/-! ## Causes and tokens

A place is told as a part of the text: the bytes of a character, of a token or of a directive, or
the end of the last token. For each it is said which causes are reported there. That every failure
is one of these is shown by where it comes from: from scanning, from reading, or from a name. -/

/-- The cause is with this token: it quotes the token, or the token is a label that cannot be
used. -/
inductive Token.Explains (t : Token) (cause : Cause) : Prop where
  | quoted (quoted : t.Quoted cause)
  | label (word : t.kind = .word) (unusable : Item.Unusable t.name cause)

/-- What a problem with a text points at. -/
inductive Problem.PointsAt (source : List Char) (problem : Problem) : Prop where
  /-- The bytes of a character that begins no token, blank or comment. -/
  | symbol {before behind : List Char} {symbol : Char} {tokens : List Token}
      (text : source = before ++ symbol :: behind)
      (scanned : Cut 0 before tokens (symbol :: behind)) (stray : isKnown symbol = false)
      (cause : problem.cause = .unknownSymbol symbol)
      (span : problem.span = ⟨byteLength before, byteLength before + symbol.utf8Size⟩)
  /-- One token of the text. -/
  | token {tokens : List Token} {t : Token} {written : List Char}
      (scanned : scan source = .ok tokens) (mem : t ∈ tokens)
      (only : ∀ u ∈ tokens, u.span = problem.span → u = t)
      (cause : t.Explains problem.cause) (span : problem.span = t.span)
      (text : problem.span.text? source = some written)
      (spelled : written = t.lexeme.toList ∨
        t.kind.isNumeric = true ∧ written = '#' :: t.lexeme.toList)
  /-- A whole `byte` directive, behind statements that can be read and a label or none. -/
  | directive {tokens earlier front taken literals rest : List Token} {head equals : Token}
      {items : Program} {part : List Char} (scanned : scan source = .ok tokens)
      (among : tokens = earlier ++ (front ++ (head :: equals :: taken ++ rest)))
      (statements : ProgramPhrase earlier items) (label : LabelPhrase front)
      (directive : BytesDirective head equals taken literals)
      (closed : ∀ t ∈ rest.head?, t.kind ≠ .comma)
      (odd : (literals.flatMap Token.digits).length % 2 = 1)
      (cause : problem.cause =
        .unencodable (.oddDigitCount (", ".intercalate (literals.map Token.lexeme))))
      (span : problem.span = spanOver head (equals :: taken))
      (text : problem.span.text? source = some part)
      (whole : Cut head.span.start part (head :: equals :: taken) [])
  /-- The end of the last token, where the statement that was begun last goes on. -/
  | ending {tokens earlier front : List Token} {last : Token} {e d : Cursor} {expected : Expected}
      (scanned : scan source = .ok tokens)
      (stuck : Reading.Stuck (.ofList tokens) earlier front e problem d) (read : d.after = [])
      (cause : problem.cause = .malformed (.endOfInput expected))
      (ends : tokens.getLast? = some last) (span : problem.span = .point last.span.stop)

theorem Located.mem_names_of_used? {i : Located Item} {name : Located String}
    (h : i.value.used? = some name) : name ∈ i.names := by
  unfold Located.names
  split
  · next hlabel =>
      rw [hlabel] at h
      cases h
  · rw [h]
    exact List.mem_singleton_self name

section

variable {source : List Char} {tokens : List Token} {problem : Problem}

/-- Tokens of a text with the same span are the same. -/
theorem eq_of_span_eq (hscan : scan source = .ok tokens) {t u : Token} (ht : t ∈ tokens)
    (hu : u ∈ tokens) (h : u.span = t.span) : u = t := by
  have hnodup : (tokens.map (·.span.start)).Nodup :=
    List.pairwise_map.mpr ((pairwise_start_of_scan hscan).imp Nat.ne_of_lt)
  exact List.inj_on_of_nodup_map hnodup hu ht (by rw [h])

/-- A problem that is explained by one token of a text points at it. -/
theorem pointsAt_token (hscan : scan source = .ok tokens) {t : Token} (ht : t ∈ tokens)
    (hcause : t.Explains problem.cause) (hspan : problem.span = t.span) :
    problem.PointsAt source := by
  obtain ⟨before, written, behind, -, -, -, htext, hstands⟩ :=
    (scan_eq_ok_iff.mp hscan).standsIn ht
  exact .token hscan ht (fun u hu heq => eq_of_span_eq hscan ht hu (heq.trans hspan)) hcause hspan
    (hspan ▸ htext) hstands.spelled

theorem pointsAt_of_scan_error (h : scan source = .error problem) : problem.PointsAt source := by
  obtain ⟨before, tokens, rest, rfl, hcut, rfl | ⟨c, behind, rfl, hunknown⟩⟩ := exists_cut 0 source
  · rw [List.append_nil, hcut.scan_eq] at h
    cases h
  · rw [(hcut.scan_of_unknown hunknown).1] at h
    cases h
    exact .symbol rfl hcut (not_isKnown_of_unknown hunknown) rfl rfl

/-- A label that is used is a word of the text. -/
theorem pointsAt_of_used (hscan : scan source = .ok tokens) {items : Program}
    (hphrase : ProgramPhrase tokens items) {i : Located Item} (hi : i ∈ items)
    {name : Located String} (hused : i.value.used? = some name) (hspan : problem.span = name.span)
    (hcause : Item.Unusable name problem.cause) : problem.PointsAt source := by
  have hname : name ∈ Program.names items :=
    List.mem_flatMap.mpr ⟨i, hi, Located.mem_names_of_used? hused⟩
  obtain ⟨t, ht, hword, rfl⟩ := mem_wordNames.mp (hphrase.names_subset_words hname)
  exact pointsAt_token hscan ht (.label hword hcause) hspan

theorem endOf_of_getLast? {last : Token} (h : tokens.getLast? = some last) :
    endOf tokens = last.span.stop := by
  obtain ⟨earlier, rfl⟩ := List.getLast?_eq_some_iff.mp h
  rw [endOf, List.reverse_concat]
  rfl

/-- The text from the first of some tokens to the last is cut into these tokens. -/
theorem exists_text?_spanOver {u taken v : List Token} {head : Token}
    (hscan : scan source = .ok (u ++ (head :: taken ++ v))) :
    ∃ part, (spanOver head taken).text? source = some part ∧
      Cut head.span.start part (head :: taken) [] := by
  obtain ⟨before, part, behind, rfl, hstart, hstop, hcut⟩ := (scan_eq_ok_iff.mp hscan).exists_part
  refine ⟨part, ?_, hcut⟩
  rw [spanOver_eq, hstop, hstart, Nat.zero_add]
  exact Span.text?_eq before part behind

/-- **An operation that cannot be read** points at one of its tokens, at its digits, or behind the
last token. -/
theorem pointsAt_of_stuck (hscan : scan source = .ok tokens) {earlier front : List Token}
    {e d : Cursor} (hstuck : Reading.Stuck (.ofList tokens) earlier front e problem d)
    (h : problem.OfOperation tokens e.after d) : problem.PointsAt source := by
  have htokens : tokens = earlier ++ front ++ e.after := hstuck.takes.1
  cases h with
  | concerns concerns =>
      -- one token is to blame, or there was none left
      cases concerns with
      | token mem quotes => exact pointsAt_token hscan mem (.quoted quotes.cause) quotes.span
      | ending expected heq read =>
          have hne : tokens ≠ [] := by
            rw [htokens, List.append_assoc]
            exact List.append_ne_nil_of_right_ne_nil _ hstuck.begun
          obtain ⟨last, hlast⟩ := Option.ne_none_iff_exists'.mp
            (mt List.getLast?_eq_none_iff.mp hne)
          refine .ending hscan hstuck read (by rw [heq]) hlast ?_
          rw [heq, endOf_of_getLast? hlast]
  | @digits head equals taken literals reads closed directive unpaired =>
      have hdigits := Grammar.isHexDigit_of_literals directive.list fun t ht =>
        isShaped_of_scan hscan t (by simp [htokens, reads, ht])
      obtain ⟨hodd, rfl⟩ := bytesOfLiterals_eq_error hdigits unpaired
      obtain ⟨items, hearlier⟩ := hstuck.statements
      have hamong : tokens = earlier ++ front ++ (head :: equals :: taken ++ d.after) := by
        rw [htokens, reads]
        rfl
      rw [hamong] at hscan
      obtain ⟨part, htext, hwhole⟩ := exists_text?_spanOver hscan
      refine .directive hscan (List.append_assoc _ _ _) hearlier hstuck.label directive
        (fun t ht hcomma => ?_) hodd rfl rfl htext hwhole
      obtain ⟨more, hafter⟩ := List.head?_eq_some_iff.mp ht
      simp only [Cursor.nextIs, hafter, hcomma, decide_true] at closed
      cases closed

/-- What a problem points at begins where characters of the text end. -/
theorem Problem.PointsAt.exists_before (h : problem.PointsAt source) :
    ∃ before behind, source = before ++ behind ∧ problem.span.start = byteLength before := by
  have hstart {tokens : List Token} {t : Token} (hscan : scan source = .ok tokens)
      (ht : t ∈ tokens) : ∃ before written behind, source = before ++ (written ++ behind) ∧
        t.span = ⟨byteLength before, byteLength (before ++ written)⟩ := by
    obtain ⟨before, written, behind, hsource, hspan, -⟩ := (scan_eq_ok_iff.mp hscan).standsIn ht
    exact ⟨before, written, behind, hsource, hspan⟩
  cases h with
  | symbol text _ _ _ span => exact ⟨_, _, text, by rw [span]⟩
  | token scanned mem _ _ span =>
      obtain ⟨before, written, behind, hsource, ht⟩ := hstart scanned mem
      exact ⟨before, _, hsource, by rw [span, ht]⟩
  | @directive tokens _ _ _ _ _ head _ _ _ scanned among _ _ _ _ _ _ span =>
      have hhead : head ∈ tokens := by simp [among]
      obtain ⟨before, written, behind, hsource, ht⟩ := hstart scanned hhead
      exact ⟨before, _, hsource, by rw [span, spanOver, ht]⟩
  | ending scanned _ _ _ ends span =>
      obtain ⟨before, written, behind, hsource, ht⟩ := hstart scanned (List.mem_of_getLast? ends)
      rw [← List.append_assoc] at hsource
      exact ⟨_, behind, hsource, by rw [span, ht]; rfl⟩

end

/-- **Every failure points at its cause.** A text that is not assembled has a problem that points at
a place in it. The line that is reported is one more than the line feeds before this place, and the
column is one more than the characters since the last of them. In a text of fewer than `2 ^ 32 - 1`
characters no place has a line or a column that takes more than 32 bits. -/
theorem assembleSource_pointsAt {source : List Char} {failure : Failure}
    (h : assembleSource source = .error failure) :
    ∃ problem before behind, assemble source = .error problem ∧ problem.PointsAt source ∧
      source = before ++ behind ∧ problem.span.start = byteLength before ∧
      failure = .program problem.cause
        ⟨1 + before.count '\n', 1 + (before.rtakeWhile (· ≠ '\n')).length⟩ ∧
      (source.length < 2 ^ 32 - 1 → ∀ offset, (Location.ofOffset source offset).line < 2 ^ 32 ∧
        (Location.ofOffset source offset).column < 2 ^ 32) := by
  obtain ⟨problem, hassemble, rfl⟩ := exists_problem_of_assembleSource h
  have hpoints : problem.PointsAt source := by
    -- the text cannot be scanned, or its tokens cannot be assembled
    cases hscan : scan source with
    | error unknown =>
        rw [assemble, hscan] at hassemble
        cases hassemble
        exact pointsAt_of_scan_error hscan
    | ok tokens =>
        rw [assemble_of_scan hscan] at hassemble
        obtain ⟨earlier, front, e, d, hstuck, hoperation⟩ |
            ⟨items, hphrase, i, hi, name, hused, hspan, hcause⟩ :=
          stuck_or_used_of_assembleTokens hassemble
        · exact pointsAt_of_stuck hscan hstuck hoperation
        · exact pointsAt_of_used hscan hphrase hi hused hspan hcause
  obtain ⟨before, behind, rfl, hstart⟩ := hpoints.exists_before
  refine ⟨problem, before, behind, hassemble, hpoints, rfl, hstart, ?_, fun hlength offset => ?_⟩
  · rw [Problem.failure, hstart, Location.ofOffset_append]
  · obtain ⟨hline, hcolumn⟩ := Location.ofOffset_le (before ++ behind) offset
    omega

/-- The tokens of a branch to a label that is not defined, behind a comment with a character of two
bytes. -/
def strayBranchTokens : List Token := [⟨.word, "B", ⟨5, 6⟩⟩, ⟨.word, "x", ⟨7, 8⟩⟩]

theorem strayBranchTokens_phrase :
    ProgramPhrase strayBranchTokens [⟨.branch .always false (.label ⟨"x", ⟨7, 8⟩⟩), ⟨5, 8⟩⟩] :=
  .cons (.plain rfl (.instruction (m := ⟨.branch, .always, none⟩) (by decide) (.label rfl))) .nil

theorem assembleSource_strayBranch :
    ∃ problem, assembleSource "# é\nB x".toList = .error (.program (.undefinedLabel "x") ⟨2, 3⟩) ∧
      assemble "# é\nB x".toList = .error problem ∧ problem.span = ⟨7, 8⟩ ∧
      problem.PointsAt "# é\nB x".toList := by
  have hscan : scan "# é\nB x".toList = .ok strayBranchTokens := by cbv
  have hcode := assembleTokens_of_phrase strayBranchTokens_phrase
  have hassemble : assemble "# é\nB x".toList = .error ⟨.undefinedLabel "x", ⟨7, 8⟩⟩ :=
    (assemble_of_scan hscan).trans hcode
  have hfailure : assembleSource "# é\nB x".toList =
      .error (.program (.undefinedLabel "x") ⟨2, 3⟩) := by
    rw [assembleSource, hassemble]
    rfl
  obtain ⟨problem, before, behind, hproblem, hpoints, -⟩ := assembleSource_pointsAt hfailure
  rw [hassemble] at hproblem
  cases hproblem
  exact ⟨_, hfailure, hassemble, rfl, hpoints⟩

end ArmAssembly
