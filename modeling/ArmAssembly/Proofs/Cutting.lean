import ArmAssembly.Proofs.Grammar

set_option autoImplicit false

/-! # Texts cut into tokens

What a piece of a text is can be said without a scanner: which characters stand between two tokens
(`Passed`), and how a token is written and what may not come behind it (`Token.Stands`). A text is
cut into tokens if it is made of such pieces, each in front of the text that is really left behind
it (`Cut`). Scanning finds the only cut of a text (`scan_eq_ok_iff`), and where it fails it has cut
all that stands before a character that begins no piece (`exists_cut`). Wherever a text begins, it
is cut into the same tokens (`Cut.move`).
-/

namespace ArmAssembly

/-! ## Pieces of a text

The scanner asks of the next characters what piece they are. Here it is the other way round: the
pieces are described by how they are written and by what may follow them, without a scanner. That
the scanner finds just these pieces is shown below, in both directions. -/

/-- A letter `x` comes next that no hexadecimal digit follows. -/
def LosesZero (rest : List Char) : Prop :=
  ∃ x more, rest = x :: more ∧ isHexMark x = true ∧ Breaks isHexDigit more

/-- The text ends here, or the line. -/
def LineEnds (rest : List Char) : Prop :=
  ∀ c ∈ rest.head?, c = '\n'

/-- In front of `rest`, `body` is what follows the `#` of a comment. -/
structure IsComment (body rest : List Char) : Prop where
  unmarked : Breaks Char.isDigit (body ++ rest)
  line : ∀ c ∈ body, c ≠ '\n'
  ends : LineEnds rest

/-- What is passed over in front of the second text: blanks, comments and marked zeros that a
letter `x` has taken away from. -/
inductive Passed : List Char → List Char → Prop where
  | nil (rest : List Char) : Passed [] rest
  | blank {c : Char} {gap rest : List Char} (isBlank : isBlank c = true)
      (more : Passed gap rest) : Passed (c :: gap) rest
  | comment {body gap rest : List Char} (isComment : IsComment body (gap ++ rest))
      (more : Passed gap rest) : Passed ('#' :: (body ++ gap)) rest
  | zero {gap rest : List Char} (loses : LosesZero (gap ++ rest))
      (more : Passed gap rest) : Passed ('#' :: '0' :: gap) rest

/-- The token does not go on in `rest`. -/
def Token.Ends (t : Token) (rest : List Char) : Prop :=
  match t.kind with
  | .word => Breaks Char.isAlphanum rest
  | .number => Breaks Char.isDigit rest ∧ (t.lexeme = "0" → hexFollows rest = false)
  | .hexNumber => Breaks isHexDigit rest
  | _ => True

/-- In front of `rest`, the text `written` is the token `t`. -/
structure Token.Stands (t : Token) (written rest : List Char) : Prop where
  spelled : written = t.lexeme.toList ∨
    t.kind.isNumeric = true ∧ written = '#' :: t.lexeme.toList
  shaped : t.isShaped = true
  ends : t.Ends rest
  keepsZero : written = ['#', '0'] → Breaks isHexMark rest

/-- The text, which begins at byte `start` and stands in front of the last text, is cut into the
tokens. -/
inductive Cut : Nat → List Char → List Token → List Char → Prop where
  | done {start : Nat} {gap rest : List Char} (passed : Passed gap rest) : Cut start gap [] rest
  | token {start : Nat} {gap written text rest : List Char} {t : Token} {tokens : List Token}
      (passed : Passed gap (written ++ (text ++ rest))) (stands : t.Stands written (text ++ rest))
      (first : t.span.start = start + byteLength gap)
      (last : t.span.stop = t.span.start + byteLength written)
      (behind : Cut t.span.stop text tokens rest) :
      Cut start (gap ++ (written ++ text)) (t :: tokens) rest

/-! ## Classes of characters -/

theorem not_isAlpha_of_isDigit {c : Char} (h : c.isDigit = true) : c.isAlpha = false := by
  simp only [Char.isDigit, Char.isAlpha, Char.isUpper, Char.isLower, Bool.and_eq_true,
    decide_eq_true_eq, Bool.or_eq_false_iff, Bool.and_eq_false_iff, decide_eq_false_iff_not,
    ge_iff_le, UInt32.le_iff_toNat_le] at h ⊢
  have hupper : '9'.val.toNat < 'A'.val.toNat := by decide
  have hlower : '9'.val.toNat < 'a'.val.toNat := by decide
  omega

theorem not_isBlank_of_isDigit {c : Char} (h : c.isDigit = true) : isBlank c = false := by
  cases hblank : isBlank c with
  | false => rfl
  | true =>
      simp only [isBlank, Bool.or_eq_true, decide_eq_true_eq] at hblank
      rcases hblank with (((rfl | rfl) | rfl) | rfl) | rfl <;> exact absurd h (by decide)

theorem not_isDigit_of_isHexMark {c : Char} (h : isHexMark c = true) : c.isDigit = false := by
  simp only [isHexMark, Bool.or_eq_true, decide_eq_true_eq] at h
  rcases h with rfl | rfl <;> rfl

theorem isAlpha_of_isHexMark {c : Char} (h : isHexMark c = true) : c.isAlpha = true := by
  simp only [isHexMark, Bool.or_eq_true, decide_eq_true_eq] at h
  rcases h with rfl | rfl <;> rfl

theorem ne_of_class {p : Char → Bool} {c d : Char} (hc : p c = true) (hd : p d = false) :
    c ≠ d := by
  rintro rfl
  rw [hc] at hd
  cases hd

theorem breaks_dropWhile (p : Char → Bool) (text : List Char) : Breaks p (text.dropWhile p) := by
  intro c hc
  have hnot := List.head?_dropWhile_not p text
  rw [Option.mem_def.mp hc] at hnot
  exact hnot

/-! ## Where a line ends -/

theorem lineEnds_nil : LineEnds [] := by
  intro c hc
  cases hc

theorem lineEnds_feed (rest : List Char) : LineEnds ('\n' :: rest) := by
  intro c hc
  cases hc
  rfl

theorem LineEnds.eq_nil_or_feed {rest : List Char} (h : LineEnds rest) :
    rest = [] ∨ ∃ more, rest = '\n' :: more := by
  cases rest with
  | nil => exact .inl rfl
  | cons c more =>
      have hc : c = '\n' := h c rfl
      exact .inr ⟨more, by rw [hc]⟩

theorem LineEnds.breaks {p : Char → Bool} {rest : List Char} (h : LineEnds rest)
    (hp : p '\n' = false) : Breaks p rest := by
  intro c hc
  rw [h c hc, hp]

/-! ## Runs of characters -/

theorem byteLength_append (u v : List Char) :
    byteLength (u ++ v) = byteLength u + byteLength v := by
  induction u with
  | nil => exact (Nat.zero_add _).symm
  | cons c u ih =>
      rw [List.cons_append, byteLength, byteLength, ih, Nat.add_assoc]

theorem take_leading (p : Char → Bool) (text : List Char) :
    text.take (leading p text) = text.takeWhile p :=
  (List.prefix_iff_eq_take.mp (List.takeWhile_prefix p)).symm

theorem drop_leading (p : Char → Bool) (text : List Char) :
    text.drop (leading p text) = text.dropWhile p := by
  nth_rewrite 2 [← List.takeWhile_append_dropWhile (p := p) (l := text)]
  exact List.drop_left' rfl

/-- Scanning goes on behind all blanks that come next. -/
theorem scanFrom_blanks (start : Nat) (found : List Token) (text : List Char) :
    scanFrom start found text =
      scanFrom (start + byteLength (text.takeWhile isBlank)) found (text.dropWhile isBlank) := by
  cases text with
  | nil => rfl
  | cons c rest =>
      by_cases hc : isBlank c = true
      · rw [List.takeWhile_cons_of_pos hc, List.dropWhile_cons_of_pos hc, scanFrom, pieceAt,
          if_pos hc]
        simp only [take_leading, drop_leading]
      · rw [List.takeWhile_cons_of_neg hc, List.dropWhile_cons_of_neg hc]
        rfl

/-- The blanks that a piece takes, if it takes blanks. -/
theorem isBlank_of_pieceAt {c : Char} (hc : isBlank c = true) {rest : List Char} {more : Nat}
    (h : pieceAt c rest = .skipped more) : ∀ d ∈ c :: rest.take more, isBlank d = true := by
  rw [pieceAt, if_pos hc] at h
  intro d hd
  rcases List.mem_cons.mp hd with rfl | hd
  · exact hc
  · rw [← Piece.skipped.inj h, take_leading] at hd
    exact List.mem_takeWhile_imp hd

/-! ## Numbers -/

theorem hexFollows_eq_true_iff {rest : List Char} :
    hexFollows rest = true ↔
      ∃ x d more, rest = x :: d :: more ∧ isHexMark x = true ∧ isHexDigit d = true := by
  constructor
  · intro h
    rcases rest with _ | ⟨x, _ | ⟨d, more⟩⟩
    · cases h
    · cases h
    · rw [hexFollows, Bool.and_eq_true] at h
      exact ⟨x, d, more, rfl, h⟩
  · rintro ⟨x, d, more, rfl, hx, hd⟩
    rw [hexFollows, hx, hd]
    rfl

theorem hexFollows_cons {x : Char} {more : List Char} :
    hexFollows (x :: more) = false ↔ (isHexMark x = true → Breaks isHexDigit more) := by
  cases more with
  | nil => exact ⟨fun _ _ => breaks_nil _, fun _ => rfl⟩
  | cons d more =>
      rw [hexFollows, Bool.and_eq_false_iff]
      constructor
      · rintro (hx | hd) hmark
        · rw [hx] at hmark
          cases hmark
        · exact breaks_cons _ hd
      · intro h
        cases hx : isHexMark x with
        | false => exact .inl rfl
        | true => exact .inr (h hx d rfl)

/-- A marked zero is passed over where a letter `x` follows but no hexadecimal number. -/
theorem losesZero_iff {rest : List Char} :
    (rest.head?.any isHexMark && !hexFollows rest) = true ↔ LosesZero rest := by
  cases rest with
  | nil => exact ⟨nofun, fun ⟨_, _, h, _⟩ => nomatch h⟩
  | cons x more =>
      rw [Bool.and_eq_true, Bool.not_eq_true', hexFollows_cons]
      constructor
      · rintro ⟨hx, hmore⟩
        exact ⟨x, more, rfl, hx, hmore hx⟩
      · rintro ⟨_, _, ⟨⟩, hx, hmore⟩
        exact ⟨hx, fun _ => hmore⟩

theorem breaks_of_not_losesZero {rest : List Char} (h : ¬ LosesZero rest)
    (hnot : hexFollows rest = false) : Breaks isHexMark rest := by
  cases rest with
  | nil => exact breaks_nil _
  | cons x more =>
      refine breaks_cons _ (Bool.eq_false_iff.mpr fun hx => h ?_)
      exact ⟨x, more, rfl, hx, hexFollows_cons.mp hnot hx⟩

/-- What is found where a number begins is a number that ends there. -/
theorem shape_of_numberAt {d : Char} {rest : List Char} {kind : TokenKind} {more : Nat}
    (hd : d.isDigit = true) (h : numberAt d rest = (kind, more)) (span : Span) :
    kind.isNumeric = true ∧
      Token.isShaped ⟨kind, String.ofList (d :: rest.take more), span⟩ = true ∧
      Token.Ends ⟨kind, String.ofList (d :: rest.take more), span⟩ (rest.drop more) := by
  unfold numberAt at h
  by_cases hhex : (d = '0' && hexFollows rest) = true
  · rw [if_pos hhex] at h
    cases h
    rw [Bool.and_eq_true, decide_eq_true_eq, hexFollows_eq_true_iff] at hhex
    obtain ⟨rfl, x, e, more, rfl, hx, he⟩ := hhex
    have hdrop : (x :: e :: more).drop 1 = e :: more := rfl
    refine ⟨rfl, ?_, ?_⟩
    · rw [hdrop, Nat.add_comm, List.take_succ_cons, take_leading]
      simp [Token.isShaped, isHexLexeme, hx, he]
    · rw [hdrop, Nat.add_comm, List.drop_succ_cons, drop_leading]
      exact breaks_dropWhile _ _
  · rw [if_neg hhex] at h
    cases h
    refine ⟨rfl, ?_, ?_⟩
    · rw [take_leading]
      simp [Token.isShaped, hd]
    · rw [take_leading, drop_leading]
      refine ⟨breaks_dropWhile _ _, fun hzero => ?_⟩
      -- a single zero takes nothing, so all of `rest` is left
      have hlist : d :: rest.takeWhile Char.isDigit = ['0'] := by
        rw [← String.toList_ofList (l := d :: _), show String.ofList _ = "0" from hzero]
        rfl
      obtain ⟨rfl, hnone⟩ := List.cons.inj hlist
      have hrest : rest.dropWhile Char.isDigit = rest := by
        nth_rewrite 2 [← List.takeWhile_append_dropWhile (p := Char.isDigit) (l := rest)]
        rw [hnone, List.nil_append]
      rw [hrest]
      simpa using hhex

/-- Where a number stands, it is found. -/
theorem numberAt_of_shape {t : Token} {rest : List Char} (hnumeric : t.kind.isNumeric = true)
    (hshaped : t.isShaped = true) (hends : t.Ends rest) :
    ∃ d more, t.lexeme.toList = d :: more ∧ d.isDigit = true ∧
      numberAt d (more ++ rest) = (t.kind, more.length) := by
  obtain ⟨kind, lexeme, span⟩ := t
  simp only [TokenKind.isNumeric, Bool.or_eq_true, decide_eq_true_eq] at hnumeric
  -- a decimal number must not go on as a hexadecimal one, and the other way round
  rcases hnumeric with rfl | rfl
  · simp only [Token.isShaped, Bool.and_eq_true, Bool.not_eq_true', List.isEmpty_eq_false_iff]
      at hshaped
    obtain ⟨hbreaks, hzero⟩ := hends
    obtain ⟨hdigits, hne⟩ := hshaped
    obtain ⟨d, more, hlexeme⟩ := List.exists_cons_of_ne_nil hne
    rw [hlexeme, List.all_cons, Bool.and_eq_true] at hdigits
    refine ⟨d, more, hlexeme, hdigits.1, ?_⟩
    have hnot : (d = '0' && hexFollows (more ++ rest)) = false := by
      rw [Bool.and_eq_false_iff, decide_eq_false_iff_not, Classical.or_iff_not_imp_left,
        Classical.not_not]
      rintro rfl
      cases more with
      | nil => exact hzero (String.toList_injective hlexeme)
      | cons x more =>
          -- what follows the zero is a digit and no letter
          rw [List.all_cons, Bool.and_eq_true] at hdigits
          refine hexFollows_cons.mpr fun hx => ?_
          rw [not_isDigit_of_isHexMark hx] at hdigits
          exact absurd hdigits.2.1 Bool.false_ne_true
    rw [numberAt, hnot, if_neg Bool.false_ne_true, leading_append hdigits.2 hbreaks]
  · simp only [Token.isShaped] at hshaped
    unfold isHexLexeme at hshaped
    split at hshaped
    · next zero x digits hlexeme =>
        simp only [Bool.and_eq_true, decide_eq_true_eq, Bool.not_eq_true',
          List.isEmpty_eq_false_iff] at hshaped
        obtain ⟨⟨⟨rfl, hx⟩, hdigits⟩, hne⟩ := hshaped
        obtain ⟨e, digits, rfl⟩ := List.exists_cons_of_ne_nil hne
        have he : isHexDigit e = true := List.all_eq_true.mp hdigits e List.mem_cons_self
        have hfollows : hexFollows (x :: e :: digits ++ rest) = true :=
          hexFollows_eq_true_iff.mpr ⟨x, e, digits ++ rest, rfl, hx, he⟩
        refine ⟨'0', x :: e :: digits, hlexeme, rfl, ?_⟩
        rw [numberAt, hfollows, Bool.and_true, decide_eq_true rfl, if_pos rfl, List.cons_append,
          List.drop_succ_cons, List.drop_zero, leading_append hdigits hends, Nat.add_comm]
        rfl
    · cases hshaped

/-! ## Pieces that are found -/

theorem kind_of_shaped_zero {kind : TokenKind} {span : Span} (hnumeric : kind.isNumeric = true)
    (hshaped : Token.isShaped ⟨kind, String.ofList ['0'], span⟩ = true) : kind = .number := by
  simp only [TokenKind.isNumeric, Bool.or_eq_true, decide_eq_true_eq] at hnumeric
  rcases hnumeric with rfl | rfl
  · rfl
  · simp [Token.isShaped, isHexLexeme] at hshaped

theorem isShaped_of_mark {c : Char} {kind : TokenKind} (h : mark? c = some kind) (span : Span) :
    Token.isShaped ⟨kind, String.ofList [c], span⟩ = true := by
  unfold mark? at h
  split at h <;> cases h <;> simp [Token.isShaped, mark?]

theorem ends_of_mark {c : Char} {kind : TokenKind} (h : mark? c = some kind) (lexeme : String)
    (span : Span) (rest : List Char) : Token.Ends ⟨kind, lexeme, span⟩ rest := by
  unfold mark? at h
  split at h <;> cases h <;> exact trivial

section

variable {c : Char} {rest : List Char} {kind : TokenKind} {more : Nat}

/-- What a `#` is found to begin is a comment or a marked zero. -/
theorem passed_of_markedPiece (h : markedPiece rest = .skipped more) :
    Passed ('#' :: rest.take more) (rest.drop more) := by
  cases rest with
  | nil =>
      have hcomment : IsComment [] ([] ++ []) := ⟨breaks_nil _, nofun, lineEnds_nil⟩
      rw [List.take_nil, List.drop_nil]
      exact .comment hcomment (.nil [])
  | cons d rest =>
      rw [markedPiece] at h
      -- before a digit the mark belongs to a number, or to a zero that is lost; else to a comment
      by_cases hd : d.isDigit = true
      · rw [if_pos hd] at h
        by_cases hzero : (d = '0' && rest.head?.any isHexMark && !hexFollows rest) = true
        · rw [if_pos hzero] at h
          cases h
          rw [Bool.and_assoc, Bool.and_eq_true, decide_eq_true_eq, losesZero_iff] at hzero
          obtain ⟨rfl, hloses⟩ := hzero
          exact .zero hloses (.nil rest)
        · rw [if_neg hzero] at h
          cases h
      · rw [if_neg hd] at h
        cases h
        rw [take_leading, drop_leading, ← List.append_nil (List.takeWhile _ _)]
        refine .comment ⟨?_, fun c hc => ?_, fun c hc => ?_⟩ (.nil _)
        · rw [List.nil_append, List.takeWhile_append_dropWhile]
          exact breaks_cons _ (Bool.eq_false_iff.mpr hd)
        · simpa using List.mem_takeWhile_imp hc
        · simpa using breaks_dropWhile _ _ c hc

/-- What is passed over at the front of a text. -/
theorem passed_of_piece (h : pieceAt c rest = .skipped more) :
    Passed (c :: rest.take more) (rest.drop more) := by
  by_cases hblank : isBlank c = true
  · have hall := isBlank_of_pieceAt hblank h
    generalize c :: rest.take more = gap at hall
    induction gap with
    | nil => exact .nil _
    | cons d gap ih =>
        exact .blank (hall d List.mem_cons_self) (ih fun e he => hall e (List.mem_cons_of_mem _ he))
  · rw [pieceAt, if_neg hblank] at h
    by_cases hmark : c = '#'
    · rw [if_pos hmark] at h
      rw [hmark]
      exact passed_of_markedPiece h
    · rw [if_neg hmark] at h
      split at h
      · cases h
      · split at h
        · cases h
        · split at h <;> cases h

/-- What a `#` is found to mark is a number. -/
theorem stands_of_markedPiece (h : markedPiece rest = .token kind more) (span : Span) :
    Token.Stands ⟨kind, lexemeOf kind ('#' :: rest.take more), span⟩ ('#' :: rest.take more)
      (rest.drop more) := by
  cases rest with
  | nil => cases h
  | cons d rest =>
      rw [markedPiece] at h
      by_cases hd : d.isDigit = true
      · rw [if_pos hd] at h
        by_cases hzero : (d = '0' && rest.head?.any isHexMark && !hexFollows rest) = true
        · rw [if_pos hzero] at h
          cases h
        · rw [if_neg hzero] at h
          rw [Bool.and_assoc, Bool.and_eq_true, decide_eq_true_eq, losesZero_iff] at hzero
          cases hnumber : numberAt d rest with
          | mk kind' taken =>
              rw [hnumber] at h
              cases h
              obtain ⟨hnumeric, hshaped, hends⟩ := shape_of_numberAt hd hnumber span
              rw [List.take_succ_cons, List.drop_succ_cons, lexemeOf, if_pos hnumeric]
              refine ⟨.inr ⟨hnumeric, by rw [String.toList_ofList]⟩, hshaped, hends, fun heq => ?_⟩
              -- the number is a single zero, and no letter takes away from it
              simp only [List.cons.injEq, true_and] at heq
              obtain ⟨rfl, hnone⟩ := heq
              rw [hnone] at hshaped hends
              have hrest : rest.drop taken = rest := by
                nth_rewrite 2 [← List.take_append_drop taken rest]
                rw [hnone, List.nil_append]
              obtain rfl := kind_of_shaped_zero hnumeric hshaped
              rw [hrest] at hends ⊢
              exact breaks_of_not_losesZero (fun h => hzero ⟨rfl, h⟩) (hends.2 rfl)
      · rw [if_neg hd] at h
        cases h

/-- What is found to be a token at the front of a text. -/
theorem stands_of_piece (h : pieceAt c rest = .token kind more) (span : Span) :
    Token.Stands ⟨kind, lexemeOf kind (c :: rest.take more), span⟩ (c :: rest.take more)
      (rest.drop more) := by
  unfold pieceAt at h
  split at h
  · cases h
  split at h
  · next hmark =>
      rw [hmark]
      exact stands_of_markedPiece h span
  next hmark =>
  rw [lexemeOf_of_ne hmark]
  have hspelled : c :: rest.take more = (String.ofList (c :: rest.take more)).toList := by
    rw [String.toList_ofList]
  have hzero : c :: rest.take more = ['#', '0'] → Breaks isHexMark (rest.drop more) :=
    fun heq => absurd (List.cons.inj heq).1 hmark
  split at h
  · next halpha =>
      cases h
      refine ⟨.inl hspelled, ?_, ?_, hzero⟩
      · rw [take_leading]
        simp [Token.isShaped, isWord, halpha]
      · rw [drop_leading]
        exact breaks_dropWhile _ _
  split at h
  · next hdigit =>
      cases hnumber : numberAt c rest with
      | mk kind' taken =>
          rw [hnumber] at h
          cases h
          obtain ⟨-, hshaped, hends⟩ := shape_of_numberAt hdigit hnumber span
          exact ⟨.inl hspelled, hshaped, hends, hzero⟩
  split at h
  · next kind' hkind =>
      cases h
      exact ⟨.inl hspelled, isShaped_of_mark hkind span, ends_of_mark hkind _ _ _, hzero⟩
  · cases h

end

/-! ## Scanning what is cut

The other direction: in front of a piece that is described above, the scanner takes just this piece.
So a text that is cut into tokens is scanned into them. -/

theorem markedPiece_of_isComment {body rest : List Char} (h : IsComment body rest) :
    markedPiece (body ++ rest) = .skipped body.length := by
  have hleading : leading (· ≠ '\n') (body ++ rest) = body.length :=
    leading_append (List.all_eq_true.mpr fun c hc => decide_eq_true (h.line c hc))
      (h.ends.breaks rfl)
  cases heq : body ++ rest with
  | nil =>
      rw [(List.append_eq_nil_iff.mp heq).1]
      rfl
  | cons d more =>
      have hd : d.isDigit = false := h.unmarked d (by rw [heq]; rfl)
      rw [markedPiece, hd, if_neg Bool.false_ne_true, ← heq, hleading]

theorem markedPiece_of_losesZero {rest : List Char} (h : LosesZero rest) :
    markedPiece ('0' :: rest) = .skipped 1 := by
  have hdigit : '0'.isDigit = true := rfl
  rw [markedPiece, if_pos hdigit, Bool.and_assoc, losesZero_iff.mpr h]
  rfl

theorem pieceAt_of_marked {rest : List Char} : pieceAt '#' rest = markedPiece rest := rfl

/-- Scanning goes on behind what is passed over. -/
theorem Passed.scanFrom_eq {gap rest : List Char} (h : Passed gap rest) (start : Nat)
    (found : List Token) :
    scanFrom start found (gap ++ rest) = scanFrom (start + byteLength gap) found rest := by
  induction h generalizing start with
  | nil rest => rfl
  | @blank c gap rest hblank _ ih =>
      rw [List.cons_append, scanFrom_blanks, List.takeWhile_cons_of_pos hblank,
        List.dropWhile_cons_of_pos hblank, byteLength, byteLength, ← Nat.add_assoc,
        ← scanFrom_blanks, ih, Nat.add_assoc]
  | @comment body gap rest hcomment _ ih =>
      have hpiece : pieceAt '#' (body ++ (gap ++ rest)) = .skipped body.length := by
        rw [pieceAt_of_marked, markedPiece_of_isComment hcomment]
      rw [List.cons_append, List.append_assoc, scanFrom_skipped hpiece, ih, Nat.add_assoc,
        ← byteLength_append]
      rfl
  | @zero gap rest hloses _ ih =>
      have hpiece : pieceAt '#' (['0'] ++ (gap ++ rest)) = .skipped 1 := by
        rw [pieceAt_of_marked]
        exact markedPiece_of_losesZero hloses
      have hskip : scanFrom start found ('#' :: (['0'] ++ (gap ++ rest))) = _ :=
        scanFrom_skipped hpiece
      rw [ih, Nat.add_assoc, ← byteLength_append] at hskip
      exact hskip

namespace Token.Stands

variable {t : Token} {written rest : List Char}

/-- The digits of a number are found, with or without a mark in front of them. -/
theorem exists_piece_of_isNumeric (h : t.Stands written rest)
    (hnumeric : t.kind.isNumeric = true) :
    ∃ c more, written = c :: more ∧ pieceAt c (more ++ rest) = .token t.kind more.length ∧
      lexemeOf t.kind written = t.lexeme := by
  obtain ⟨d, more, hlexeme, hd, hnumber⟩ := numberAt_of_shape hnumeric h.shaped h.ends
  -- the number stands there without a mark, or with one
  rcases h.spelled with hwritten | ⟨-, hwritten⟩
  · have hne : d ≠ '#' := ne_of_class hd rfl
    refine ⟨d, more, hwritten.trans hlexeme, ?_, ?_⟩
    · rw [pieceAt, not_isBlank_of_isDigit hd, if_neg Bool.false_ne_true, if_neg hne,
        not_isAlpha_of_isDigit hd, if_neg Bool.false_ne_true, if_pos hd, hnumber]
    · rw [hwritten, hlexeme, lexemeOf_of_ne hne, ← hlexeme, String.ofList_toList]
  · rw [hlexeme] at hwritten
    refine ⟨'#', d :: more, hwritten, ?_, ?_⟩
    · have hkeeps : ¬ (d = '0' ∧ LosesZero (more ++ rest)) := by
        rintro ⟨rfl, x, behind, heq, hx, hbreaks⟩
        -- no digit comes behind the zero, so it is the whole number
        have hnone : leading Char.isDigit (more ++ rest) = 0 := by
          rw [heq, leading, List.takeWhile_cons_of_neg]
          · rfl
          · rw [not_isDigit_of_isHexMark hx]
            exact Bool.false_ne_true
        rw [numberAt, heq, hexFollows_cons.mpr fun _ => hbreaks, Bool.and_false,
          if_neg Bool.false_ne_true, ← heq, hnone] at hnumber
        obtain rfl := List.length_eq_zero_iff.mp (Prod.mk.inj hnumber).2.symm
        rw [List.nil_append] at heq
        have hnot := h.keepsZero hwritten x (by rw [heq]; rfl)
        rw [hx] at hnot
        cases hnot
      rw [← losesZero_iff, ← decide_eq_true_eq (p := d = '0'), ← Bool.and_eq_true,
        ← Bool.and_assoc] at hkeeps
      rw [pieceAt_of_marked, List.cons_append, markedPiece, if_pos hd, if_neg hkeeps, hnumber,
        List.length_cons]
    · rw [hwritten, lexemeOf, if_pos hnumeric, ← hlexeme, String.ofList_toList]

/-- Where a token stands, scanning finds it. -/
theorem exists_piece (h : t.Stands written rest) :
    ∃ c more, written = c :: more ∧ pieceAt c (more ++ rest) = .token t.kind more.length ∧
      lexemeOf t.kind written = t.lexeme := by
  by_cases hnumeric : t.kind.isNumeric = true
  · exact h.exists_piece_of_isNumeric hnumeric
  have hwritten : written = t.lexeme.toList :=
    h.spelled.resolve_right fun hmarked => hnumeric hmarked.1
  have hlexeme {c : Char} {more : List Char} (heq : t.lexeme.toList = c :: more) (hne : c ≠ '#') :
      lexemeOf t.kind written = t.lexeme := by
    rw [hwritten, heq, lexemeOf_of_ne hne, ← heq, String.ofList_toList]
  have hshaped := h.shaped
  have hends := h.ends
  unfold Token.isShaped at hshaped
  unfold Token.Ends at hends
  -- a word, a number of either base, or a mark
  split at hshaped
  · next hkind =>
      rw [hkind] at hends ⊢
      cases heq : t.lexeme.toList with
      | nil =>
          rw [heq] at hshaped
          cases hshaped
      | cons c more =>
          rw [heq, isWord, Bool.and_eq_true] at hshaped
          refine ⟨c, more, hwritten.trans heq, pieceAt_word hshaped.1 hshaped.2 hends, ?_⟩
          rw [← hkind]
          exact hlexeme heq (ne_of_class hshaped.1 rfl)
  · next hkind => exact absurd (by rw [hkind]; rfl) hnumeric
  · next hkind => exact absurd (by rw [hkind]; rfl) hnumeric
  · simp only [decide_eq_true_eq] at hshaped
    obtain ⟨c, heq, hmark⟩ := List.map_eq_singleton_iff.mp hshaped
    refine ⟨c, [], hwritten.trans heq, pieceAt_mark hmark rest, hlexeme heq ?_⟩
    rintro rfl
    cases hmark

theorem ne_nil (h : t.Stands written rest) : written ≠ [] := by
  obtain ⟨c, more, rfl, -⟩ := h.exists_piece
  exact List.cons_ne_nil c more

/-- A token is scanned where it stands. -/
theorem scanFrom_eq (h : t.Stands written rest) (found : List Token)
    (hlast : t.span.stop = t.span.start + byteLength written) :
    scanFrom t.span.start found (written ++ rest) = scanFrom t.span.stop (t :: found) rest := by
  obtain ⟨c, more, rfl, hpiece, hlexeme⟩ := h.exists_piece
  rw [List.cons_append, scanFrom_token hpiece, hlexeme, ← hlast]

end Token.Stands

/-- A text that is cut into tokens is scanned into these tokens. -/
theorem Cut.scanFrom_eq {start : Nat} {text rest : List Char} {tokens : List Token}
    (h : Cut start text tokens rest) (found : List Token) :
    scanFrom start found (text ++ rest) =
      scanFrom (start + byteLength text) (tokens.reverse ++ found) rest := by
  induction h generalizing found with
  | done passed => exact passed.scanFrom_eq _ _
  | token passed stands first last behind ih =>
      rw [List.append_assoc, List.append_assoc, passed.scanFrom_eq, ← first,
        stands.scanFrom_eq _ last, ih, byteLength_append, byteLength_append, ← Nat.add_assoc,
        ← Nat.add_assoc, ← first, ← last, List.reverse_cons, List.append_assoc]
      rfl

/-- The characters of a lexeme are letters, digits and marks. -/
theorem class_of_mem_lexeme {t : Token} (h : t.isShaped = true) {c : Char}
    (hc : c ∈ t.lexeme.toList) : c.isAlphanum = true ∨ ∃ kind, mark? c = some kind := by
  unfold Token.isShaped at h
  split at h
  · unfold isWord at h
    split at h
    · next d more hlexeme =>
        rw [Bool.and_eq_true] at h
        rw [hlexeme] at hc
        rcases List.mem_cons.mp hc with rfl | hc
        · exact .inl (by rw [Char.isAlphanum, h.1, Bool.true_or])
        · exact .inl (List.all_eq_true.mp h.2 c hc)
    · cases h
  · rw [Bool.and_eq_true] at h
    exact .inl (by rw [Char.isAlphanum, List.all_eq_true.mp h.1 c hc, Bool.or_true])
  · unfold isHexLexeme at h
    split at h
    · next zero x digits hlexeme =>
        simp only [Bool.and_eq_true, decide_eq_true_eq] at h
        obtain ⟨⟨⟨rfl, hx⟩, hdigits⟩, -⟩ := h
        rw [hlexeme] at hc
        rcases List.mem_cons.mp hc with rfl | hc
        · exact .inl rfl
        rcases List.mem_cons.mp hc with rfl | hc
        · exact .inl (by rw [Char.isAlphanum, isAlpha_of_isHexMark hx, Bool.true_or])
        · exact .inl (isAlphanum_of_isHexDigit (List.all_eq_true.mp hdigits c hc))
    · cases h
  · rw [decide_eq_true_eq] at h
    obtain ⟨d, hlexeme, hmark⟩ := List.map_eq_singleton_iff.mp h
    rw [hlexeme, List.mem_singleton] at hc
    exact .inr ⟨_, hc ▸ hmark⟩

/-- The characters of a token are those of its lexeme, and the `#` in front of a number. -/
theorem Token.Stands.mem_lexeme {t : Token} {written rest : List Char} (h : t.Stands written rest)
    {c : Char} (hc : c ∈ written) : c = '#' ∨ c ∈ t.lexeme.toList := by
  rcases h.spelled with hwritten | ⟨-, hwritten⟩
  · exact .inr (hwritten ▸ hc)
  · rw [hwritten] at hc
    exact List.mem_cons.mp hc

/-! ## Every text is cut -/

theorem Passed.append {a b rest : List Char} (first : Passed a (b ++ rest))
    (second : Passed b rest) : Passed (a ++ b) rest := by
  generalize hmiddle : b ++ rest = middle at first
  induction first with
  | nil => exact second
  | blank hblank _ ih => exact .blank hblank (ih hmiddle)
  | @comment body gap _ hcomment _ ih =>
      subst hmiddle
      rw [List.cons_append, List.append_assoc]
      rw [← List.append_assoc] at hcomment
      exact .comment hcomment (ih rfl)
  | zero hloses _ ih =>
      subst hmiddle
      rw [← List.append_assoc] at hloses
      exact .zero hloses (ih rfl)

/-- A text is cut behind what is passed over in front of it. -/
theorem Cut.of_passed {start : Nat} {gap text rest : List Char} {tokens : List Token}
    (passed : Passed gap (text ++ rest)) (h : Cut (start + byteLength gap) text tokens rest) :
    Cut start (gap ++ text) tokens rest := by
  cases h with
  | done more => exact .done (passed.append more)
  | @token _ gap' written text _ t tokens more stands first last behind =>
      rw [List.append_assoc, List.append_assoc] at passed
      rw [← List.append_assoc]
      refine .token (passed.append more) stands ?_ last behind
      rw [first, byteLength_append, Nat.add_assoc]

/-- Every text is cut up to its end or up to a character that begins no piece. -/
theorem exists_cut (start : Nat) (text : List Char) :
    ∃ before tokens rest, text = before ++ rest ∧ Cut start before tokens rest ∧
      (rest = [] ∨ ∃ c behind, rest = c :: behind ∧ pieceAt c behind = .unknown) := by
  -- on the pieces that are found one after the other
  fun_induction scanFrom start [] text with
  | case1 start => exact ⟨[], [], [], rfl, .done (.nil []), .inl rfl⟩
  | case2 start found c rest more hpiece ih =>
      obtain ⟨before, tokens, behind, hrest, hcut, hend⟩ := ih
      have hpassed := passed_of_piece hpiece
      rw [hrest] at hpassed
      refine ⟨_, tokens, behind, ?_, .of_passed hpassed hcut, hend⟩
      rw [List.append_assoc, ← hrest, List.cons_append, List.take_append_drop]
  | case3 start found c rest kind more hpiece text stop ih =>
      obtain ⟨before, tokens, behind, hrest, hcut, hend⟩ := ih
      have hstands := stands_of_piece hpiece ⟨start, stop⟩
      rw [hrest] at hstands
      refine ⟨_, _, behind, ?_, .token (.nil _) hstands (Nat.add_zero _).symm rfl hcut, hend⟩
      rw [List.nil_append, List.append_assoc, ← hrest, List.cons_append, List.take_append_drop]
  | case4 start found c rest hpiece =>
      exact ⟨[], [], c :: rest, rfl, .done (.nil _), .inr ⟨c, rest, rfl, hpiece⟩⟩

theorem scanFrom_unknown {c : Char} {rest : List Char} (h : pieceAt c rest = .unknown)
    (start : Nat) (found : List Token) :
    scanFrom start found (c :: rest) = .error ⟨.unknownSymbol c, ⟨start, start + c.utf8Size⟩⟩ := by
  rw [scanFrom, h]

theorem Cut.scan_eq {source : List Char} {tokens : List Token} (h : Cut 0 source tokens []) :
    scan source = .ok tokens := by
  have hscan := h.scanFrom_eq []
  rw [List.append_nil, List.append_nil, scanFrom, List.reverse_reverse] at hscan
  exact hscan

/-- **Scanning finds the cut of a text**, and succeeds just if there is one up to the end. -/
theorem scan_eq_ok_iff {source : List Char} {tokens : List Token} :
    scan source = .ok tokens ↔ Cut 0 source tokens [] := by
  refine ⟨fun h => ?_, Cut.scan_eq⟩
  obtain ⟨before, tokens', rest, rfl, hcut, rfl | ⟨c, behind, rfl, hunknown⟩⟩ := exists_cut 0 source
  · rw [List.append_nil] at h ⊢
    rw [hcut.scan_eq] at h
    exact Except.ok.inj h ▸ hcut
  · rw [scan, hcut.scanFrom_eq, scanFrom_unknown hunknown] at h
    cases h

/-! ## Tokens at other places

Where a text begins matters only to the spans. Behind other text the same tokens are cut, all of
them moved by the same distance. -/

theorem Token.Stands.of_view {t u : Token} {written rest : List Char} (h : t.Stands written rest)
    (hview : u.view = t.view) : u.Stands written rest := by
  obtain ⟨kind, lexeme, span⟩ := t
  obtain ⟨kind', lexeme', span'⟩ := u
  obtain ⟨rfl, rfl⟩ := Prod.mk.inj hview
  exact ⟨h.spelled, h.shaped, h.ends, h.keepsZero⟩

/-- Where the last of the tokens ends, and `start` if there is none. -/
def stopOf (start : Nat) : List Token → Nat
  | [] => start
  | t :: tokens => stopOf t.span.stop tokens

/-- A text is cut into the same tokens wherever it begins, and all of them move with it. -/
theorem Cut.move {start : Nat} {text rest : List Char} {tokens : List Token}
    (h : Cut start text tokens rest) (start' : Nat) :
    ∃ tokens', Cut start' text tokens' rest ∧ tokens'.map Token.view = tokens.map Token.view ∧
      tokens'.head?.map (·.span.start + start) = tokens.head?.map (·.span.start + start') ∧
      stopOf start' tokens' + start = stopOf start tokens + start' := by
  induction h generalizing start' with
  | done passed => exact ⟨[], .done passed, rfl, rfl, Nat.add_comm _ _⟩
  | @token start gap written _ _ t _ passed stands first last _ ih =>
      let place := start' + byteLength gap
      let moved : Token := ⟨t.kind, t.lexeme, ⟨place, place + byteLength written⟩⟩
      obtain ⟨tokens', hcut, hviews, -, hstop⟩ := ih moved.span.stop
      have hplace : moved.span.start + start = t.span.start + start' := by
        rw [first]
        show start' + byteLength gap + start = start + byteLength gap + start'
        omega
      have hends : moved.span.stop = moved.span.start + byteLength written := rfl
      refine ⟨moved :: tokens', .token passed (stands.of_view rfl) rfl rfl hcut, ?_, ?_, ?_⟩
      · rw [List.map_cons, List.map_cons, hviews]
        rfl
      · exact congrArg some hplace
      · rw [stopOf, stopOf]
        omega

end ArmAssembly
