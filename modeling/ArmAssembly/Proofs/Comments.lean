import ArmAssembly.Proofs.Lossless

set_option autoImplicit false

/-! # Which texts can be scanned

What scanning does with a text can be told line by line. A line goes up to its first `#` that no
digit follows (`codeOf`), and a text can be scanned just if all that is left of its lines is made
of known characters. If not, the first unknown character that is left is to blame, and all that
stands before it can be scanned. What is cut off the lines makes no token (`scan_visible`).
-/

namespace ArmAssembly

/-! ## Lines without their comments

There are two ways to say what is left of a text. `uncommented` takes the lines one by one, as a
reader of the text would; `visibleFrom` goes through the text once and keeps the place of every
character that is left, which is needed to say where a text fails. They are shown to be the same. -/

/-- A line up to its first `#` that no digit follows. -/
def codeOf : List Char → List Char
  | [] => []
  | c :: line => if c = '#' && !line.head?.any Char.isDigit then [] else c :: codeOf line

/-- A text without its comments, line by line. -/
def uncommented (source : List Char) : List Char :=
  ['\n'].intercalate ((source.splitOn '\n').map codeOf)

/-- The characters of `text`, which begins at byte `start`, that belong to no comment. The first
line may belong to a comment that began before it. -/
def visibleFrom (start : Nat) (hidden : Bool) : List Char → List (Located Char)
  | [] => []
  | c :: text =>
    let next := start + c.utf8Size
    if c = '\n' then ⟨c, ⟨start, next⟩⟩ :: visibleFrom next false text
    else if hidden || (c = '#' && !text.head?.any Char.isDigit) then visibleFrom next true text
    else ⟨c, ⟨start, next⟩⟩ :: visibleFrom next false text

/-- The characters of a text that belong to no comment. -/
def visible (source : List Char) : List (Located Char) := visibleFrom 0 false source

/-- A letter, a digit, a blank or a mark. -/
def isKnown (c : Char) : Bool :=
  c.isAlphanum ||
    [' ', '\t', '\r', '\n', '\x0c', ',', ':', '-', '[', ']', '=', '#'].contains c

section

variable {start : Nat} {hidden : Bool} {c : Char} {text rest : List Char}

theorem visibleFrom_feed : visibleFrom start hidden ('\n' :: text) =
    ⟨'\n', ⟨start, start + 1⟩⟩ :: visibleFrom (start + 1) false text := rfl

theorem visibleFrom_hidden (hc : c ≠ '\n') :
    visibleFrom start true (c :: text) = visibleFrom (start + c.utf8Size) true text := by
  rw [visibleFrom, if_neg hc, Bool.true_or, if_pos rfl]

theorem visibleFrom_comment (h : Breaks Char.isDigit text) :
    visibleFrom start false ('#' :: text) = visibleFrom (start + 1) true text := by
  have hhead : text.head?.any Char.isDigit = false := by
    cases text with
    | nil => rfl
    | cons d text => exact h d rfl
  rw [visibleFrom, hhead]
  rfl

theorem visibleFrom_cons (h : c = '#' → text.head?.any Char.isDigit = true) :
    visibleFrom start false (c :: text) =
      ⟨c, ⟨start, start + c.utf8Size⟩⟩ :: visibleFrom (start + c.utf8Size) false text := by
  have hcomment : (false || (c = '#' && !text.head?.any Char.isDigit)) = false := by
    rw [Bool.false_or, Bool.and_eq_false_iff, decide_eq_false_iff_not,
      Classical.or_iff_not_imp_left, Classical.not_not, Bool.not_eq_false']
    exact h
  rw [visibleFrom, hcomment, if_neg Bool.false_ne_true]
  exact ite_self _

end

/-! ### The same, line by line -/

theorem head?_of_splitOn {text line : List Char} {more : List (List Char)}
    (h : text.splitOn '\n' = line :: more) :
    line.head?.any Char.isDigit = text.head?.any Char.isDigit := by
  cases text with
  | nil =>
      rw [List.splitOn_nil] at h
      rw [← (List.cons.inj h).1]
  | cons c text =>
      rw [List.splitOn_cons_eq_if_modifyHead] at h
      split at h
      · next hfeed =>
          rw [← (List.cons.inj h).1, beq_iff_eq.mp hfeed]
          rfl
      · obtain ⟨line', more', hlines⟩ := List.exists_cons_of_ne_nil (List.splitOn_ne_nil '\n' text)
        rw [hlines] at h
        rw [← (List.cons.inj h).1]
        rfl

theorem intercalate_cons_cons_eq (c : Char) (line : List Char) (more : List (List Char)) :
    ['\n'].intercalate ((c :: line) :: more) = c :: ['\n'].intercalate (line :: more) := by
  cases more with
  | nil => rw [List.intercalate_singleton, List.intercalate_singleton]
  | cons => rw [List.intercalate_cons_cons, List.intercalate_cons_cons]; rfl

theorem map_value_visibleFrom (text : List Char) (start : Nat) :
    (visibleFrom start false text).map Located.value =
        ['\n'].intercalate ((text.splitOn '\n').map codeOf) ∧
      (visibleFrom start true text).map Located.value =
        ['\n'].intercalate ([] :: (text.splitOn '\n').tail.map codeOf) := by
  -- the two halves need each other: a comment begins in the one and ends in the other
  induction text generalizing start with
  | nil => exact ⟨rfl, rfl⟩
  | cons c text ih =>
      obtain ⟨line, more, hlines⟩ := List.exists_cons_of_ne_nil (List.splitOn_ne_nil '\n' text)
      have hhead := head?_of_splitOn hlines
      rw [List.splitOn_cons_eq_if_modifyHead]
      simp only [hlines, List.map_cons, List.tail_cons, List.modifyHead_cons] at ih ⊢
      by_cases hc : c = '\n'
      · subst hc
        -- the line ends, whether it was hidden or not
        rw [visibleFrom_feed, visibleFrom_feed, List.map_cons, (ih (start + 1)).1]
        exact ⟨rfl, rfl⟩
      · rw [if_neg (by rwa [beq_iff_eq]), visibleFrom_hidden hc]
        refine ⟨?_, (ih _).2⟩
        rw [List.map_cons, codeOf, hhead]
        by_cases hcomment : (c = '#' && !text.head?.any Char.isDigit) = true
        · rw [visibleFrom, if_neg hc, Bool.false_or, if_pos hcomment, if_pos hcomment, (ih _).2]
        · rw [visibleFrom, if_neg hc, Bool.false_or, if_neg hcomment, if_neg hcomment,
            List.map_cons, (ih _).1, intercalate_cons_cons_eq]

/-- The characters that belong to no comment are those of the lines without their comments. -/
theorem map_value_visible (source : List Char) :
    (visible source).map Located.value = uncommented source :=
  (map_value_visibleFrom source 0).1

theorem uncommented_eq (start : Nat) (text : List Char) :
    uncommented text = (visibleFrom start false text).map Located.value :=
  (map_value_visibleFrom text start).1.symm

/-! ## What follows a piece

Taking comments away changes what stands behind a piece of the text. But all that a piece looks at
behind its end is whether the line ends there, and a comment ends where its line ends. -/

section

variable {c : Char} {text : List Char}

theorem uncommented_cons (h : c = '#' → text.head?.any Char.isDigit = true) :
    uncommented (c :: text) = c :: uncommented text := by
  rw [uncommented_eq 0, visibleFrom_cons h, List.map_cons, ← uncommented_eq]

/-- What follows the `#` of a comment is cut off up to the end of the line. -/
theorem lineEnds_hidden (text : List Char) (start : Nat) :
    LineEnds ((visibleFrom start true text).map Located.value) := by
  induction text generalizing start with
  | nil => exact lineEnds_nil
  | cons c text ih =>
      by_cases hc : c = '\n'
      · subst hc
        exact lineEnds_feed _
      · rw [visibleFrom_hidden hc]
        exact ih _

/-- Without its comments a text goes on as before, up to where the first comment was. -/
theorem endsLike_uncommented (text : List Char) : EndsLike text (uncommented text) := by
  induction text with
  | nil => exact .line [] lineEnds_nil
  | cons c more ih =>
      -- the text goes on with the same character, or its first comment begins here
      by_cases hmarked : c = '#' → more.head?.any Char.isDigit = true
      · rw [uncommented_cons hmarked]
        exact .cons c ih
      · obtain ⟨rfl, hdigit⟩ := Classical.not_imp.mp hmarked
        have hbreaks : Breaks Char.isDigit more := by
          intro d hd
          rw [Option.mem_def.mp hd] at hdigit
          exact Bool.eq_false_iff.mpr hdigit
        rw [uncommented_eq 0, visibleFrom_comment hbreaks]
        exact .line _ (lineEnds_hidden _ _)

theorem LosesZero.uncommented (h : LosesZero text) : LosesZero (uncommented text) := by
  obtain ⟨x, more, rfl, hx, hmore⟩ := h
  have hmark : x ≠ '#' := ne_of_class hx rfl
  exact ⟨x, _, uncommented_cons fun h => absurd h hmark, hx,
    (endsLike_uncommented more).breaks rfl hmore⟩

end

/-! ## What is visible of a piece

Of each kind of piece it is said which characters of it are left, that these are known, and that
they are the same piece in front of what is left of the rest. The induction over the pieces of a
text then puts the visible parts together. -/

theorem isKnown_of_isAlphanum {c : Char} (h : c.isAlphanum = true) : isKnown c = true := by
  rw [isKnown, h, Bool.true_or]

theorem isKnown_of_isBlank {c : Char} (h : isBlank c = true) : isKnown c = true := by
  simp only [isBlank, Bool.or_eq_true, decide_eq_true_eq] at h
  rcases h with (((rfl | rfl) | rfl) | rfl) | rfl <;> rfl

theorem isKnown_of_mark {c : Char} {kind : TokenKind} (h : mark? c = some kind) :
    isKnown c = true := by
  unfold mark? at h
  split at h <;> cases h <;> rfl

theorem markedPiece_ne_unknown (rest : List Char) : markedPiece rest ≠ .unknown := by
  unfold markedPiece
  split
  · split
    · split <;> nofun
    · nofun
  · nofun

/-- A character that begins no piece is unknown. -/
theorem not_isKnown_of_unknown {c : Char} {rest : List Char} (h : pieceAt c rest = .unknown) :
    isKnown c = false := by
  -- all checks on the first character of a piece have failed
  unfold pieceAt at h
  split at h
  · cases h
  next hblank =>
  split at h
  · exact absurd h (markedPiece_ne_unknown rest)
  next hcomment =>
  split at h
  · cases h
  next halpha =>
  split at h
  · cases h
  next hdigit =>
  cases hmark : mark? c with
  | some kind =>
      rw [hmark] at h
      cases h
  | none =>
      refine Bool.eq_false_iff.mpr fun hknown => ?_
      have halphanum : c.isAlphanum = false := by
        rw [Char.isAlphanum, Bool.eq_false_iff.mpr halpha, Bool.eq_false_iff.mpr hdigit]
        rfl
      simp only [isKnown, halphanum, Bool.false_or, List.contains_iff_mem, List.mem_cons,
        List.not_mem_nil, or_false] at hknown
      rcases hknown with rfl | rfl | rfl | rfl | rfl | rfl | rfl | rfl | rfl | rfl | rfl | rfl
      iterate 5 exact hblank rfl
      iterate 6 cases hmark
      exact hcomment rfl

/-- The characters of `text`, which begins at byte `start`. -/
def locate (start : Nat) : List Char → List (Located Char)
  | [] => []
  | c :: text => ⟨c, ⟨start, start + c.utf8Size⟩⟩ :: locate (start + c.utf8Size) text

theorem map_value_locate (start : Nat) (text : List Char) :
    (locate start text).map Located.value = text := by
  induction text generalizing start with
  | nil => rfl
  | cons c text ih => rw [locate, List.map_cons, ih]

theorem visibleFrom_plain {text : List Char} (h : ∀ c ∈ text, c ≠ '#') (rest : List Char)
    (start : Nat) : visibleFrom start false (text ++ rest) =
      locate start text ++ visibleFrom (start + byteLength text) false rest := by
  induction text generalizing start with
  | nil => rfl
  | cons c text ih =>
      have hc : c ≠ '#' := h c List.mem_cons_self
      rw [List.cons_append, visibleFrom_cons fun heq => absurd heq hc,
        ih fun d hd => h d (List.mem_cons_of_mem _ hd), locate, byteLength, Nat.add_assoc]
      rfl

theorem visibleFrom_body {body : List Char} (h : ∀ c ∈ body, c ≠ '\n') (rest : List Char)
    (start : Nat) :
    visibleFrom start true (body ++ rest) = visibleFrom (start + byteLength body) true rest := by
  induction body generalizing start with
  | nil => rfl
  | cons c body ih =>
      rw [List.cons_append, visibleFrom_hidden (h c List.mem_cons_self),
        ih fun d hd => h d (List.mem_cons_of_mem _ hd), byteLength, Nat.add_assoc]

theorem visibleFrom_of_lineEnds {rest : List Char} (h : LineEnds rest) (start : Nat) :
    visibleFrom start true rest = visibleFrom start false rest := by
  rcases h.eq_nil_or_feed with rfl | ⟨more, rfl⟩ <;> rfl

/-- All that is visible of what is passed over is known, and is passed over again. -/
theorem Passed.exists_visible {gap rest : List Char} (h : Passed gap rest) (start : Nat) :
    ∃ known, visibleFrom start false (gap ++ rest) =
        known ++ visibleFrom (start + byteLength gap) false rest ∧
      (∀ c ∈ known, isKnown c.value = true) ∧
      Passed (known.map Located.value) (uncommented rest) := by
  -- a blank stays, a comment goes, and of a zero that is lost both characters stay
  induction h generalizing start with
  | nil rest => exact ⟨[], rfl, nofun, .nil _⟩
  | @blank c gap rest hblank _ ih =>
      obtain ⟨known, hvisible, hknown, hpassed⟩ := ih (start + c.utf8Size)
      have hmark : c ≠ '#' := ne_of_class hblank rfl
      refine ⟨⟨c, ⟨start, start + c.utf8Size⟩⟩ :: known, ?_, ?_, .blank hblank hpassed⟩
      · rw [List.cons_append, visibleFrom_cons fun h => absurd h hmark, hvisible, byteLength,
          Nat.add_assoc]
        rfl
      · exact List.forall_mem_cons.mpr ⟨isKnown_of_isBlank hblank, hknown⟩
  | @comment body gap rest hcomment _ ih =>
      obtain ⟨known, hvisible, hknown, hpassed⟩ := ih (start + 1 + byteLength body)
      refine ⟨known, ?_, hknown, hpassed⟩
      rw [List.cons_append, List.append_assoc, visibleFrom_comment hcomment.unmarked,
        visibleFrom_body hcomment.line, visibleFrom_of_lineEnds hcomment.ends, hvisible, byteLength,
        byteLength_append, ← Nat.add_assoc, ← Nat.add_assoc]
      rfl
  | @zero gap rest hloses _ ih =>
      obtain ⟨known, hvisible, hknown, hpassed⟩ := ih (start + 1 + 1)
      refine ⟨⟨'#', ⟨start, start + 1⟩⟩ :: ⟨'0', ⟨start + 1, start + 1 + 1⟩⟩ :: known, ?_, ?_, ?_⟩
      · have hmark : visibleFrom start false ('#' :: '0' :: (gap ++ rest)) =
            ⟨'#', ⟨start, start + 1⟩⟩ :: visibleFrom (start + 1) false ('0' :: (gap ++ rest)) :=
          visibleFrom_cons fun _ => rfl
        have hzero : visibleFrom (start + 1) false ('0' :: (gap ++ rest)) =
            ⟨'0', ⟨start + 1, start + 1 + 1⟩⟩ :: visibleFrom (start + 1 + 1) false (gap ++ rest) :=
          visibleFrom_cons fun h => absurd h (by decide)
        have hlength : start + byteLength ('#' :: '0' :: gap) = start + 1 + 1 + byteLength gap := by
          rw [byteLength, byteLength, ← Nat.add_assoc, ← Nat.add_assoc]
          rfl
        rw [List.cons_append, List.cons_append, hmark, hzero, hvisible, hlength]
        rfl
      · exact List.forall_mem_cons.mpr ⟨rfl, List.forall_mem_cons.mpr ⟨rfl, hknown⟩⟩
      · refine .zero ?_ hpassed
        have hloses := hloses.uncommented
        rw [uncommented_eq (start + 1 + 1), hvisible, List.map_append, ← uncommented_eq] at hloses
        exact hloses

theorem isKnown_of_mem_lexeme {t : Token} (h : t.isShaped = true) {c : Char}
    (hc : c ∈ t.lexeme.toList) : isKnown c = true ∧ c ≠ '#' := by
  rcases class_of_mem_lexeme h hc with halphanum | ⟨kind, hmark⟩
  · exact ⟨isKnown_of_isAlphanum halphanum, ne_of_class halphanum rfl⟩
  · refine ⟨isKnown_of_mark hmark, ?_⟩
    rintro rfl
    cases hmark

/-- A token is visible as it is written, and all of it is known. -/
theorem Token.Stands.visible {t : Token} {written rest : List Char} (h : t.Stands written rest)
    (start : Nat) :
    visibleFrom start false (written ++ rest) =
        locate start written ++ visibleFrom (start + byteLength written) false rest ∧
      ∀ c ∈ written, isKnown c = true := by
  have hknown {c : Char} (hc : c ∈ t.lexeme.toList) := isKnown_of_mem_lexeme h.shaped hc
  constructor
  · rcases h.spelled with hwritten | ⟨hnumeric, hwritten⟩
    · rw [hwritten]
      exact visibleFrom_plain (fun c hc => (hknown hc).2) rest start
    · obtain ⟨d, more, hlexeme, hd, -⟩ := numberAt_of_shape hnumeric h.shaped h.ends
      rw [hlexeme] at hknown
      rw [hwritten, hlexeme]
      have hmark : visibleFrom start false ('#' :: (d :: more ++ rest)) =
          ⟨'#', ⟨start, start + 1⟩⟩ :: visibleFrom (start + 1) false (d :: more ++ rest) :=
        visibleFrom_cons fun _ => hd
      have hlength :
          start + byteLength ('#' :: d :: more) = start + 1 + byteLength (d :: more) := by
        rw [byteLength, ← Nat.add_assoc]
        rfl
      rw [List.cons_append, hmark, visibleFrom_plain (fun c hc => (hknown hc).2), hlength]
      rfl
  · intro c hc
    rcases h.mem_lexeme hc with rfl | hc
    · rfl
    · exact (hknown hc).1

/-- All that is visible of a text that is cut into tokens is known, and is cut into the same
tokens. -/
theorem Cut.exists_visible {start : Nat} {text rest : List Char} {tokens : List Token}
    (h : Cut start text tokens rest) :
    ∃ known, visibleFrom start false (text ++ rest) =
        known ++ visibleFrom (start + byteLength text) false rest ∧
      (∀ c ∈ known, isKnown c.value = true) ∧
      ∀ start', ∃ tokens', Cut start' (known.map Located.value) tokens' (uncommented rest) ∧
        tokens'.map Token.view = tokens.map Token.view := by
  induction h with
  | @done start gap rest passed =>
      obtain ⟨known, hvisible, hknown, hpassed⟩ := passed.exists_visible start
      exact ⟨known, hvisible, hknown, fun start' => ⟨[], .done hpassed, rfl⟩⟩
  | @token start gap written text rest t tokens passed stands first last _ ih =>
      obtain ⟨front, hfront, hfrontKnown, hpassed⟩ := passed.exists_visible start
      obtain ⟨hwritten, hwrittenKnown⟩ := stands.visible t.span.start
      obtain ⟨behind, hbehind, hbehindKnown, hcut⟩ := ih
      have hrest : uncommented (text ++ rest) =
          behind.map Located.value ++ uncommented rest := by
        rw [uncommented_eq t.span.stop, hbehind, List.map_append, ← uncommented_eq]
      have hnext : uncommented (written ++ (text ++ rest)) =
          written ++ (behind.map Located.value ++ uncommented rest) := by
        rw [uncommented_eq t.span.start, hwritten, List.map_append, map_value_locate,
          ← uncommented_eq, hrest]
      refine ⟨front ++ (locate t.span.start written ++ behind), ?_, ?_, fun start' => ?_⟩
      · rw [List.append_assoc, List.append_assoc, hfront, ← first, hwritten, ← last, hbehind,
          byteLength_append, byteLength_append, ← Nat.add_assoc, ← Nat.add_assoc, ← first, ← last,
          List.append_assoc, List.append_assoc]
      · intro c hc
        rcases List.mem_append.mp hc with hc | hc
        · exact hfrontKnown c hc
        rcases List.mem_append.mp hc with hc | hc
        · refine hwrittenKnown c.value ?_
          rw [← map_value_locate t.span.start written]
          exact List.mem_map_of_mem hc
        · exact hbehindKnown c hc
      -- the same token, at the place where its characters have moved to
      · let place := start' + byteLength (front.map Located.value)
        let moved : Token := ⟨t.kind, t.lexeme, ⟨place, place + byteLength written⟩⟩
        obtain ⟨tokens', hmore, hviews⟩ := hcut moved.span.stop
        have hstands := (endsLike_uncommented _).stands stands
        rw [hrest] at hstands
        rw [hnext] at hpassed
        refine ⟨moved :: tokens', ?_, ?_⟩
        · rw [List.map_append, List.map_append, map_value_locate]
          exact .token hpassed (hstands.of_view rfl) rfl rfl hmore
        · rw [List.map_cons, List.map_cons, hviews]
          rfl

/-! ## The whole text -/

section

variable {before behind source : List Char} {tokens : List Token} {c : Char}

theorem Cut.visible_source (h : Cut 0 source tokens []) :
    (∀ c ∈ visible source, isKnown c.value = true) ∧
      ∃ tokens', scan (uncommented source) = .ok tokens' ∧
        tokens'.map Token.view = tokens.map Token.view := by
  obtain ⟨known, hvisible, hknown, hcut⟩ := h.exists_visible
  rw [List.append_nil] at hvisible
  have hsource : visible source = known := hvisible.trans (List.append_nil known)
  obtain ⟨tokens', hcut, hviews⟩ := hcut 0
  rw [← map_value_visible, hsource]
  exact ⟨hknown, tokens', hcut.scan_eq, hviews⟩

/-- The first unknown character that is visible is the one that begins no piece. -/
theorem Cut.visible_of_unknown (h : Cut 0 before tokens (c :: behind))
    (hunknown : pieceAt c behind = .unknown) :
    ∃ known more, visible (before ++ c :: behind) =
        known ++ ⟨c, ⟨byteLength before, byteLength before + c.utf8Size⟩⟩ :: more ∧
      ∀ d ∈ known, isKnown d.value = true := by
  obtain ⟨known, hvisible, hknown, -⟩ := h.exists_visible
  have hmark : c ≠ '#' := by
    rintro rfl
    exact markedPiece_ne_unknown behind hunknown
  rw [visibleFrom_cons fun heq => absurd heq hmark, Nat.zero_add] at hvisible
  exact ⟨known, _, hvisible, hknown⟩

theorem Cut.scan_of_unknown (h : Cut 0 before tokens (c :: behind))
    (hunknown : pieceAt c behind = .unknown) :
    scan (before ++ c :: behind) =
        .error ⟨.unknownSymbol c, ⟨byteLength before, byteLength before + c.utf8Size⟩⟩ ∧
      scan before = .ok tokens := by
  constructor
  · rw [scan, h.scanFrom_eq, scanFrom_unknown hunknown, Nat.zero_add]
  · -- an unknown character is no letter `x` that could take away a zero
    have hbreaks : Breaks isHexMark (c :: behind) := by
      refine breaks_cons _ (Bool.eq_false_iff.mpr fun hx => ?_)
      have hknown : isKnown c = true :=
        isKnown_of_isAlphanum (by rw [Char.isAlphanum, isAlpha_of_isHexMark hx, Bool.true_or])
      rw [not_isKnown_of_unknown hunknown] at hknown
      cases hknown
    exact ((EndsLike.line _ lineEnds_nil).cut (fun _ => hbreaks) h).scan_eq

end

/-- **Scanning is told by the lines without their comments.** A text can be scanned just if all
characters that belong to no comment are known. If not, the first unknown one is to blame, and all
that stands before it can be scanned. Comments make no token. -/
theorem scan_visible (source : List Char) :
    ((∃ tokens, scan source = .ok tokens) ↔ ∀ c ∈ uncommented source, isKnown c = true) ∧
      (∀ c, (visible source).find? (!isKnown ·.value) = some c →
        scan source = .error ⟨.unknownSymbol c.value, c.span⟩ ∧
          ∃ before behind tokens, source = before ++ c.value :: behind ∧
            c.span = ⟨byteLength before, byteLength (before ++ [c.value])⟩ ∧
            scan before = .ok tokens) ∧
      ∀ tokens, scan source = .ok tokens → ∃ tokens', scan (uncommented source) = .ok tokens' ∧
        tokens'.map Token.view = tokens.map Token.view := by
  obtain ⟨before, tokens, rest, rfl, hcut, rfl | ⟨c, behind, rfl, hunknown⟩⟩ := exists_cut 0 source
  · -- the whole text is cut
    rw [List.append_nil]
    obtain ⟨hknown, tokens', hscan', hviews⟩ := hcut.visible_source
    refine ⟨⟨fun _ c hc => ?_, fun _ => ⟨tokens, hcut.scan_eq⟩⟩, fun c hc => ?_, fun found h => ?_⟩
    · rw [← map_value_visible, List.mem_map] at hc
      obtain ⟨d, hd, rfl⟩ := hc
      exact hknown d hd
    · have hc' := List.find?_some hc
      rw [hknown c (List.mem_of_find?_eq_some hc)] at hc'
      cases hc'
    · rw [hcut.scan_eq] at h
      exact ⟨tokens', hscan', Except.ok.inj h ▸ hviews⟩
  · -- the cut stops in front of the character `c`
    obtain ⟨known, more, hvisible, hknown⟩ := hcut.visible_of_unknown hunknown
    obtain ⟨hscan, hbefore⟩ := hcut.scan_of_unknown hunknown
    have hc := not_isKnown_of_unknown hunknown
    rw [← map_value_visible, hvisible, hscan]
    refine ⟨⟨nofun, fun h => ?_⟩, fun d hd => ?_, nofun⟩
    · rw [List.map_append, List.map_cons] at h
      rw [h c (List.mem_append_right _ List.mem_cons_self)] at hc
      cases hc
    · have hnone : known.find? (!isKnown ·.value) = none :=
        List.find?_eq_none.mpr fun e he => by rw [hknown e he]; exact Bool.false_ne_true
      rw [List.find?_append, hnone, Option.none_or,
        List.find?_cons_of_pos (by rw [hc]; rfl)] at hd
      cases hd
      exact ⟨rfl, before, behind, tokens, rfl, by rw [byteLength_append]; rfl, hbefore⟩

/-- The second `#` begins a comment, the first one and the last one mark numbers. -/
example : uncommented "B #1 #é\n#2".toList = "B #1 \n#2".toList := by decide

end ArmAssembly
