import ArmAssembly.Proofs.Respaced

set_option autoImplicit false

/-! # Capitals and small letters

The case of letters matters in the names of labels and nowhere else. Tokens that are of the same
kinds and differ at most in the case of letters, but not at the names, form the same program
(`assembleTokens_recased`). Which tokens are names is asked of the tokens with their indices for
spans (`namePlaces`), because the spans of tokens that come from no text may be all the same.
-/

namespace ArmAssembly

/-! ## Tokens by their indices

Numbered tokens have all different spans, so a span tells which token an item has taken its name
from. Their lexemes are the same, and so is their program. -/

/-- The tokens with their indices for spans. -/
def numbered (tokens : List Token) : List Token :=
  tokens.mapIdx fun n t => { t with span := ⟨n, n + 1⟩ }

/-- The indices of the tokens that reading takes as names, declared or used. -/
def namePlaces (tokens : List Token) : List Nat :=
  (Program.names (Reading.ofTokens (numbered tokens)).items).map fun name => name.span.start

theorem getElem?_numbered (tokens : List Token) (n : Nat) :
    (numbered tokens)[n]? = (tokens[n]?).map fun t => { t with span := ⟨n, n + 1⟩ } :=
  List.getElem?_mapIdx

theorem views_numbered (tokens : List Token) :
    (numbered tokens).map Token.view = tokens.map Token.view := by
  refine List.ext_getElem? fun n => ?_
  rw [List.getElem?_map, getElem?_numbered, List.getElem?_map, Option.map_map]
  rfl

section

variable {tokens tokens' : List Token} {n : Nat} {t u : Token}

theorem start_of_numbered (h : (numbered tokens)[n]? = some t) : t.span.start = n := by
  rw [getElem?_numbered] at h
  obtain ⟨_, -, rfl⟩ := Option.map_eq_some_iff.mp h
  rfl

/-- A token is known by the name that it has when it is numbered. -/
theorem eq_of_name_numbered {m : Nat} (ht : (numbered tokens)[n]? = some t)
    (hu : (numbered tokens)[m]? = some u) (h : t.name = u.name) : n = m := by
  have hspan : t.span = u.span := congrArg Located.span h
  rw [← start_of_numbered ht, ← start_of_numbered hu, hspan]

theorem nodup_names_numbered (tokens : List Token) : ((numbered tokens).map Token.name).Nodup := by
  refine List.nodup_iff_getElem?_ne_getElem?.mpr fun i j hij hj heq => ?_
  rw [List.length_map] at hj
  rw [List.getElem?_map, List.getElem?_map, List.getElem?_eq_getElem (hij.trans hj),
    List.getElem?_eq_getElem hj] at heq
  have hsame := eq_of_name_numbered (List.getElem?_eq_getElem (hij.trans hj))
    (List.getElem?_eq_getElem hj) (Option.some.inj heq)
  omega

/-- Names that are read abreast with the same numbered name are read abreast. -/
theorem NamesAbreast.of_numbered {name first second : Located String}
    (h : NamesAbreast (numbered tokens) tokens name first)
    (h' : NamesAbreast (numbered tokens) tokens' name second) :
    NamesAbreast tokens tokens' first second := by
  obtain ⟨t, u, ⟨⟨n, ht, hu⟩, hkind, hlexeme⟩, rfl, rfl⟩ := h
  obtain ⟨t', u', ⟨⟨m, ht', hu'⟩, hkind', hlexeme'⟩, hname, rfl⟩ := h'
  obtain rfl := eq_of_name_numbered ht ht' hname
  rw [ht] at ht'
  cases ht'
  exact ⟨u, u', ⟨⟨n, hu, hu'⟩, hkind'.trans hkind.symm, hlexeme'.trans hlexeme.symm⟩, rfl, rfl⟩

/-- A numbered name is read abreast with the token that has its number. -/
theorem NamesAbreast.getElem?_start {name other : Located String}
    (h : NamesAbreast (numbered tokens) tokens name other) :
    (tokens[name.span.start]?).map Token.name = some other := by
  obtain ⟨t, u, ⟨⟨n, ht, hu⟩, -, -⟩, rfl, rfl⟩ := h
  have hstart : t.name.span.start = n := start_of_numbered ht
  rw [hstart, hu]
  rfl

end

/-! ## Items without their places -/

/-- The item without the place of the name in it. -/
def Item.unplaced : Item → Item
  | branch condition link (.label name) => branch condition link (.label ⟨name.value, .point 0⟩)
  | loadLabel condition destination name => loadLabel condition destination ⟨name.value, .point 0⟩
  | item => item

/-- What the items of a program ask for, without their places. -/
def Program.unplaced (p : Program) : List Item := p.map fun i => i.value.unplaced

theorem Located.Corresponds.unplaced {i i' : Located Item} (h : i.Corresponds SameName i') :
    i'.value.unplaced = i.value.unplaced := by
  cases h with
  | label names => exact congrArg Item.label names
  | operation _ _ items =>
      cases items with
      | instruction | offset | data => rfl
      | @branch _ _ n n' names =>
          have hname : n'.value = n.value := names
          simp only [Item.unplaced, hname]
      | @loadLabel _ _ n n' names =>
          have hname : n'.value = n.value := names
          simp only [Item.unplaced, hname]

/-- Programs with the same names are the same but for the places. -/
theorem Program.Corresponds.unplaced {p p' : Program} (h : p.Corresponds SameName p') :
    Program.unplaced p' = Program.unplaced p := by
  induction h with
  | nil => rfl
  | cons hi _ ih =>
      unfold Program.unplaced at ih ⊢
      rw [List.map_cons, List.map_cons, hi.unplaced, ih]

/-! ## Tokens in another case

The numbered tokens are set side by side with the tokens as they are, and with the tokens in another
case. Both programs correspond to that of the numbered tokens, and so to each other. -/

section

variable {tokens tokens' : List Token}

/-- A numbered token in another case is renamed to itself if it is a name, and alike if not. -/
theorem renamed_numbered (halike : List.Forall₂ Token.Alike tokens tokens')
    {names : List (Located String)}
    (hnames : ∀ name ∈ names, (tokens'[name.span.start]?).map Token.lexeme =
      (tokens[name.span.start]?).map Token.lexeme) :
    List.Forall₂ (Token.Renamed (NamesAbreast (numbered tokens) tokens') names) (numbered tokens)
      tokens' := by
  obtain ⟨hlength, hget⟩ := List.forall₂_iff_get.mp halike
  have hnumbered : (numbered tokens).length = tokens'.length := by
    rw [← hlength, numbered, List.length_mapIdx]
  refine List.forall₂_of_length_eq_of_get hnumbered fun n hn hn' => ?_
  have ht : n < tokens.length := hlength ▸ hn'
  have hnth : (numbered tokens)[n]? = some { tokens[n] with span := ⟨n, n + 1⟩ } := by
    rw [getElem?_numbered, List.getElem?_eq_getElem ht]
    rfl
  have hat : (numbered tokens).get ⟨n, hn⟩ = { tokens[n] with span := ⟨n, n + 1⟩ } :=
    Option.some.inj ((List.getElem?_eq_getElem hn).symm.trans hnth)
  have hu : tokens'[n]? = some tokens'[n] := List.getElem?_eq_getElem hn'
  have htu : tokens[n].Alike tokens'[n] := hget n ht hn'
  rw [hat]
  refine ⟨htu.kind, fun hname => ?_, fun _ => htu.folded⟩
  have hlexeme : tokens'[n].lexeme = tokens[n].lexeme := by
    have hsame := hnames _ hname
    simpa [Token.name, ht, hn'] using hsame
  exact ⟨_, _, ⟨⟨n, hnth, hu⟩, htu.kind, hlexeme⟩, rfl, rfl⟩

/-- The names that are paired with numbered names are the tokens with these numbers. -/
theorem names_eq_filterMap {names others : List (Located String)}
    (h : List.Forall₂ (NamesAbreast (numbered tokens) tokens) names others) :
    others = (names.map fun name => name.span.start).filterMap fun n =>
      (tokens[n]?).map Token.name := by
  induction h with
  | nil => rfl
  | cons hname _ ih =>
      rw [List.map_cons, List.filterMap_cons]
      simp only [hname.getElem?_start]
      rw [← ih]

end

/-- Tokens that form a program do so when they are numbered. -/
theorem ProgramPhrase.numbered {tokens : List Token} {p : Program} (h : ProgramPhrase tokens p) :
    ProgramPhrase (ArmAssembly.numbered tokens)
      (Reading.ofTokens (ArmAssembly.numbered tokens)).items := by
  have habreast := Reading.abreast_ofTokens (views_numbered tokens)
  rw [(Reading.ofTokens_finished_iff.mpr h).1] at habreast
  refine Reading.ofTokens_finished_iff.mp ⟨?_, rfl⟩
  generalize (Reading.ofTokens (ArmAssembly.numbered tokens)).problem? = problem at habreast
  cases habreast
  rfl

theorem Problem.Abreast.cause {tokens tokens' : List Token} {p p' : Problem}
    (h : p.Abreast tokens tokens' p') : p'.cause = p.cause := by
  cases h <;> rfl

/-- **Case matters in names only.** Let tokens form a program, and let other tokens be of the same
kinds and differ from them at most in the case of letters, but not at the places of names. Then the
other tokens form the same program but for the places of its items, the first pass finds the same
symbols, and the second makes the same image or fails with the same cause at the same token. -/
theorem assembleTokens_recased {tokens tokens' : List Token} {s : Pass.State Transcript}
    (hread : Transcript.pass.run tokens .empty = .ok () s)
    (halike : List.Forall₂ Token.Alike tokens tokens')
    (hnames : ∀ n ∈ namePlaces tokens,
      (tokens'[n]?).map Token.lexeme = (tokens[n]?).map Token.lexeme) :
    Program.names s.result.calls =
        (namePlaces tokens).filterMap (fun n => (tokens[n]?).map Token.name) ∧
      (∃ s', Transcript.pass.run tokens' .empty = .ok () s' ∧
        Program.unplaced s'.result.calls = Program.unplaced s.result.calls) ∧
      (∃ layout layout', layoutOf tokens = .ok layout ∧ layoutOf tokens' = .ok layout' ∧
        layout'.symbols.toList = layout.symbols.toList) ∧
      match assembleTokens tokens with
      | .ok binary => ∃ binary', assembleTokens tokens' = .ok binary' ∧
          binary'.image = binary.image ∧ binary'.symbols.toList = binary.symbols.toList
      | .error problem => ∃ problem', assembleTokens tokens' = .error problem' ∧
          problem'.cause = problem.cause ∧ problem.Abreast tokens tokens' problem' := by
  have hphrase : ProgramPhrase tokens s.result.calls :=
    Transcript.exists_run_iff.mp ⟨s, hread, rfl⟩
  -- both programs correspond to that of the numbered tokens, where a name is only one token
  obtain ⟨items, hitems, hplaces⟩ : ∃ items : Program, ProgramPhrase (numbered tokens) items ∧
      namePlaces tokens = items.names.map fun name => name.span.start :=
    ⟨_, hphrase.numbered, rfl⟩
  obtain ⟨calls, hcalls, hfirst⟩ := hitems.renamed (nodup_names_numbered tokens)
    ((forall₂_abreast (views_numbered tokens).symm).imp fun _ _ htu => htu.renamed _)
  obtain rfl := hcalls.unique hphrase
  obtain ⟨items', hphrase', hsecond⟩ := hitems.renamed (nodup_names_numbered tokens)
    (renamed_numbered halike fun name hname =>
      hnames _ (hplaces ▸ List.mem_map_of_mem hname))
  have hcorresponds : Program.Corresponds (NamesAbreast tokens tokens') s.result.calls items' :=
    hfirst.comp (fun _ _ _ hname hname' => hname.of_numbered hname') hsecond
  have hsame := hcorresponds.mono fun _ _ => NamesAbreast.same
  refine ⟨?_, ?_, ?_, ?_⟩
  · rw [hplaces]
    exact names_eq_filterMap hfirst.names
  · obtain ⟨s', hrun, hheard⟩ := Transcript.exists_run_iff.mpr hphrase'
    exact ⟨s', hrun, by rw [hheard, hsame.unplaced]⟩
  · obtain ⟨layout, hlayout, hsymbols⟩ := exists_layoutOf_of_phrase hphrase
    obtain ⟨layout', hlayout', hsymbols'⟩ := exists_layoutOf_of_phrase hphrase'
    have haddress : layout'.symbols.address? = layout.symbols.address? := by
      rw [hsymbols, hsymbols', hsame.address?_eq]
    exact ⟨layout, layout', hlayout, hlayout', Symbols.toList_eq_of_address? haddress⟩
  · have hverdicts := assembleTokens_of_corresponds hphrase hphrase' hcorresponds
    generalize assembleTokens tokens = verdict, assembleTokens tokens' = verdict' at hverdicts
    cases hverdicts with
    | ok alike => exact ⟨_, rfl, alike.image, alike.symbols⟩
    | error problems => exact ⟨_, rfl, problems.cause, problems⟩

/-- The tokens of `x: MOVi R10, 0xff` and `B x`, with the words that are no names as they are
given. -/
def spelled (move register number branch : String) : List Token :=
  [⟨.word, "x", ⟨0, 1⟩⟩, ⟨.colon, ":", ⟨1, 2⟩⟩, ⟨.word, move, ⟨2, 3⟩⟩, ⟨.word, register, ⟨3, 4⟩⟩,
    ⟨.comma, ",", ⟨4, 5⟩⟩, ⟨.hexNumber, number, ⟨5, 6⟩⟩, ⟨.word, branch, ⟨6, 7⟩⟩,
    ⟨.word, "x", ⟨7, 8⟩⟩]

/-- The items of `x: MOVi R10, 0xff` and `B x`. -/
def spelledItems : Program :=
  [⟨.label "x", ⟨0, 1⟩⟩, ⟨.instruction ⟨.always, .moveWide .bottom ⟨10⟩ 0xff⟩, ⟨2, 6⟩⟩,
    ⟨.branch .always false (.label ⟨"x", ⟨7, 8⟩⟩), ⟨6, 8⟩⟩]

theorem spelled_phrase : ProgramPhrase (spelled "movi" "r10" "0xfF" "b") spelledItems :=
  .cons
    (.labelled rfl rfl rfl
      (.instruction (m := ⟨.move, .always, some .immediate⟩) (by decide)
        (.immediate rfl (by decide) rfl (by decide))))
    (.cons
      (.plain rfl (.instruction (m := ⟨.branch, .always, none⟩) (by decide) (.label rfl)))
      .nil)

/-- Only the first token and the last are names. -/
theorem assembleTokens_spelled :
    ∃ binary, assembleTokens (spelled "MovI" "R10" "0XFf" "B") = .ok binary ∧
      binary.image.toList = [0xff, 0xa0, 0x00, 0xe3, 0xfd, 0xff, 0xff, 0xea] := by
  have hplaces : namePlaces (spelled "movi" "r10" "0xfF" "b") = [0, 7] := by
    have hnumbered : numbered (spelled "movi" "r10" "0xfF" "b") =
        spelled "movi" "r10" "0xfF" "b" := rfl
    rw [namePlaces, hnumbered, (Reading.ofTokens_finished_iff.mpr spelled_phrase).2]
    rfl
  have hsame (t : Token) : t.Alike t := ⟨rfl, rfl⟩
  have halike : List.Forall₂ Token.Alike (spelled "movi" "r10" "0xfF" "b")
      (spelled "MovI" "R10" "0XFf" "B") :=
    .cons (hsame _) (.cons (hsame _) (.cons ⟨rfl, by decide⟩ (.cons ⟨rfl, by decide⟩
      (.cons (hsame _) (.cons ⟨rfl, by decide⟩ (.cons ⟨rfl, by decide⟩
        (.cons (hsame _) .nil)))))))
  have hnames : ∀ n ∈ namePlaces (spelled "movi" "r10" "0xfF" "b"),
      ((spelled "MovI" "R10" "0XFf" "B")[n]?).map Token.lexeme =
        ((spelled "movi" "r10" "0xfF" "b")[n]?).map Token.lexeme := by
    rw [hplaces]
    decide
  obtain ⟨s, hread, -⟩ := Transcript.exists_run_iff.mpr spelled_phrase
  obtain ⟨-, -, -, hrecased⟩ := assembleTokens_recased hread halike hnames
  have hassemble := assembleTokens_of_phrase spelled_phrase
  have hcode : spelledItems.code =
      .ok [0xff, 0xa0, 0x00, 0xe3, 0xfd, 0xff, 0xff, 0xea] := by rfl
  rw [hcode] at hassemble
  obtain ⟨binary, hbinary, -, himage⟩ := hassemble
  rw [hbinary] at hrecased
  obtain ⟨binary', hbinary', himage', -⟩ := hrecased
  exact ⟨binary', hbinary', by rw [himage', himage]⟩

end ArmAssembly
