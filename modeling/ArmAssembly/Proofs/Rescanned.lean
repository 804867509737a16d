import ArmAssembly.Proofs.Literals
import ArmAssembly.Proofs.Respaced

set_option autoImplicit false

/-! # Scanning a text again

The lexemes of a text, set side by side with a blank between each two, are a text in its own right.
Tokens that touched in the first text are apart in the second one, the mark of a number is gone, and
so are comments and lost zeros. Still every lexeme is found again as a token of the same kind
(`scan_canonical`), for it is shaped as its kind asks for and no token goes on behind a blank
(`Token.stands_of_isShaped`). So a text that is spaced like that is its own spaced form, and it is
assembled to the same image with the same symbols.
-/

namespace ArmAssembly

/-! ## Tokens with blanks between them -/

/-- The lexemes of the tokens with a blank between each two of them. -/
def spaced (tokens : List Token) : List Char :=
  [' '].intercalate (tokens.map fun t => t.lexeme.toList)

/-- A text in its spaced form, if it can be scanned. -/
def canonical (source : List Char) : Except Problem (List Char) :=
  (scan source).map spaced

theorem spaced_singleton (t : Token) : spaced [t] = t.lexeme.toList := by
  simp [spaced]

theorem spaced_cons_cons (t u : Token) (tokens : List Token) :
    spaced (t :: u :: tokens) = t.lexeme.toList ++ ([' '] ++ spaced (u :: tokens)) := by
  simp [spaced]

/-- The spaced form depends on the lexemes alone. -/
theorem spaced_of_views {tokens tokens' : List Token}
    (h : tokens'.map Token.view = tokens.map Token.view) : spaced tokens' = spaced tokens := by
  have hlexemes (us : List Token) : (us.map fun t => t.lexeme.toList) =
      (us.map Token.view).map fun view => view.2.toList := by
    rw [List.map_map]
    rfl
  rw [spaced, hlexemes, h, ← hlexemes, spaced]

/-! ## A token in front of a blank

A blank belongs to no token and begins no hexadecimal digits. So it ends every token, and it takes
nothing away from a zero. -/

/-- The text ends here or goes on with a blank space. -/
abbrev Parts (rest : List Char) : Prop := Breaks (· ≠ ' ') rest

theorem parts_blank (rest : List Char) : Parts (' ' :: rest) :=
  breaks_cons rest rfl

/-- No class of characters without the blank goes on here. -/
theorem Parts.breaks {p : Char → Bool} {rest : List Char} (h : Parts rest) (hp : p ' ' = false) :
    Breaks p rest :=
  h.mono fun _ hc => decide_eq_true (ne_of_class hc hp)

theorem Parts.hexFollows {rest : List Char} (h : Parts rest) : hexFollows rest = false := by
  cases rest with
  | nil => rfl
  | cons c rest =>
      refine hexFollows_cons.mpr fun hmark => ?_
      rw [h.breaks (p := isHexMark) rfl c rfl] at hmark
      cases hmark

theorem Token.ends_of_parts (t : Token) {rest : List Char} (h : Parts rest) : t.Ends rest := by
  unfold Token.Ends
  split
  · exact h.breaks rfl
  · exact ⟨h.breaks rfl, fun _ => h.hexFollows⟩
  · exact h.breaks rfl
  · trivial

/-- Where its lexeme is parted from what follows, there the token stands. -/
theorem Token.stands_of_isShaped {t : Token} {rest : List Char} (hshaped : t.isShaped = true)
    (hrest : Parts rest) : t.Stands t.lexeme.toList rest where
  spelled := .inl rfl
  shaped := hshaped
  ends := t.ends_of_parts hrest
  keepsZero _ := hrest.breaks rfl

/-! ## The spaced form is cut into the same tokens -/

/-- A lexeme at byte `start`, and the text behind it. -/
theorem Cut.lexeme_append {start stop : Nat} {t : Token} {text : List Char} {tokens : List Token}
    (hshaped : t.isShaped = true) (hparts : Parts text)
    (hstop : stop = start + byteLength t.lexeme.toList) (h : Cut stop text tokens []) :
    Cut start (t.lexeme.toList ++ text) (⟨t.kind, t.lexeme, ⟨start, stop⟩⟩ :: tokens) [] := by
  have hstands : t.Stands t.lexeme.toList (text ++ []) := by
    rw [List.append_nil]
    exact t.stands_of_isShaped hshaped hparts
  exact .token (.nil _) (hstands.of_view rfl) rfl hstop h

/-- Tokens that are shaped as their kinds ask for are found again in their spaced form. -/
theorem exists_cut_spaced {tokens : List Token} (hshaped : ∀ t ∈ tokens, t.isShaped = true)
    (start : Nat) :
    ∃ tokens', Cut start (spaced tokens) tokens' [] ∧
      tokens'.map Token.view = tokens.map Token.view := by
  induction tokens generalizing start with
  | nil => exact ⟨[], .done (.nil []), rfl⟩
  | cons t tokens ih =>
      obtain ⟨ht, hmore⟩ := List.forall_mem_cons.mp hshaped
      -- the last token ends with the text, each other one before a blank
      cases tokens with
      | nil =>
          rw [spaced_singleton, ← List.append_nil t.lexeme.toList]
          exact ⟨_, .lexeme_append ht (breaks_nil _) rfl (.done (.nil [])), rfl⟩
      | cons u tokens =>
          let stop := start + byteLength t.lexeme.toList
          obtain ⟨tokens', hcut, hviews⟩ := ih hmore (stop + byteLength [' '])
          refine ⟨⟨t.kind, t.lexeme, ⟨start, stop⟩⟩ :: tokens', ?_, ?_⟩
          · rw [spaced_cons_cons]
            have hblank : Passed [' '] (spaced (u :: tokens) ++ []) := .blank rfl (.nil _)
            exact .lexeme_append ht (parts_blank _) rfl (.of_passed hblank hcut)
          · rw [List.map_cons, List.map_cons, hviews]
            rfl

/-- **Scanning a text again** finds the tokens that the first scan found: the spaced form of a text
that can be scanned has tokens of the same kinds with the same lexemes in the same order. It is its
own spaced form, and if the text is assembled, then so is its spaced form, to the same image and the
same symbols; if it is not, then neither is its spaced form, for the same cause. -/
theorem scan_canonical {source : List Char} {tokens : List Token}
    (hscan : scan source = .ok tokens) :
    canonical source = .ok (spaced tokens) ∧
      (∃ tokens', scan (spaced tokens) = .ok tokens' ∧
        tokens'.map Token.view = tokens.map Token.view) ∧
      canonical (spaced tokens) = .ok (spaced tokens) ∧
      match assembleSource source with
      | .ok binary => ∃ binary', assembleSource (spaced tokens) = .ok binary' ∧
          binary'.image = binary.image ∧ binary'.symbols.toList = binary.symbols.toList
      | .error failure => ∃ cause here here', failure = .program cause here ∧
          assembleSource (spaced tokens) = .error (.program cause here') := by
  obtain ⟨tokens', hcut, hviews⟩ := exists_cut_spaced (isShaped_of_scan hscan) 0
  have hscan' : scan (spaced tokens) = .ok tokens' := hcut.scan_eq
  refine ⟨?_, ⟨tokens', hscan', hviews⟩, ?_, ?_⟩
  · rw [canonical, hscan]
    rfl
  · rw [canonical, hscan']
    exact congrArg Except.ok (spaced_of_views hviews)
  · have hverdicts := assembleTokens_of_views (nodup_names_of_scan hscan) hviews
    unfold assembleSource
    rw [assemble_of_scan hscan, assemble_of_scan hscan']
    generalize assembleTokens tokens = verdict, assembleTokens tokens' = verdict' at hverdicts
    cases hverdicts with
    | ok alike => exact ⟨_, rfl, alike.image, alike.symbols⟩
    | error problems =>
        cases problems with
        | token cause | ending cause => exact ⟨cause, _, _, rfl, rfl⟩

/-- Tokens that touch, and a marked zero that the letter of a label takes away. -/
def touchingTokens : List Token :=
  [⟨.word, "word", ⟨0, 4⟩⟩, ⟨.equals, "=", ⟨4, 5⟩⟩, ⟨.number, "12", ⟨5, 8⟩⟩, ⟨.word, "x", ⟨10, 11⟩⟩,
    ⟨.colon, ":", ⟨11, 12⟩⟩, ⟨.word, "B", ⟨12, 13⟩⟩, ⟨.word, "x", ⟨14, 15⟩⟩]

theorem touchingTokens_phrase :
    ProgramPhrase touchingTokens
      [⟨.data (.words [12#32]), ⟨0, 8⟩⟩, ⟨.label "x", ⟨10, 11⟩⟩,
        ⟨.branch .always false (.label ⟨"x", ⟨14, 15⟩⟩), ⟨12, 15⟩⟩] :=
  .cons (.plain rfl (.words (by decide) rfl (.intro rfl .done)))
    (.cons
      (.labelled rfl rfl rfl
        (.instruction (m := ⟨.branch, .always, none⟩) (by decide) (.label rfl)))
      .nil)

/-- The spaced form of a text without any blank but one. -/
theorem scan_canonical_touching :
    ∃ binary binary', assembleSource "word=#12#0x:B x".toList = .ok binary ∧
      canonical "word=#12#0x:B x".toList = .ok "word = 12 x : B x".toList ∧
      canonical "word = 12 x : B x".toList = .ok "word = 12 x : B x".toList ∧
      assembleSource "word = 12 x : B x".toList = .ok binary' ∧
      binary.image.toList = [0x0c, 0x00, 0x00, 0x00, 0xfe, 0xff, 0xff, 0xea] ∧
      binary'.image = binary.image := by
  have hscan : scan "word=#12#0x:B x".toList = .ok touchingTokens := by cbv
  have hspaced : spaced touchingTokens = "word = 12 x : B x".toList := rfl
  obtain ⟨binary, hbinary, -, himage⟩ :=
    assembleSource_of_phrase hscan touchingTokens_phrase rfl
  have hagain := scan_canonical hscan
  rw [hbinary, hspaced] at hagain
  obtain ⟨hcanonical, -, hfixed, binary', hbinary', himage', -⟩ := hagain
  exact ⟨binary, binary', hbinary, hcanonical, hfixed, hbinary', himage, himage'⟩

end ArmAssembly
