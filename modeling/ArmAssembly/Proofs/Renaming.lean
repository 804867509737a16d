import ArmAssembly.Proofs.RenamedTokens

set_option autoImplicit false

/-! # Labels by other names

A program whose labels get other names is the same program. Each token that is a name gets
another word, different ones for different names; what the word means elsewhere does not matter,
so a label may be called like a mnemonic, a directive or a register. The image stays what it is,
and the symbol table has the new names with the old addresses. If the program cannot be assembled,
then it cannot be assembled for the same reason, and the same token is to blame
(`assembleTokens_rename`).
-/

namespace ArmAssembly

/-! ## The renaming

A token is renamed by its span, not by its word: the same word may be a label in one place and a
mnemonic in another. The causes that quote a label are the only ones that change. -/

variable {r : String → String} {names : List (Located String)}

/-- The token with another word, if it is one of the names. -/
def Token.rename (r : String → String) (names : List (Located String)) (t : Token) : Token :=
  if t.name ∈ names then { t with lexeme := r t.lexeme } else t

/-- The cause with another name in it. -/
def Cause.rename (r : String → String) : Cause → Cause
  | undefinedLabel name => undefinedLabel (r name)
  | movedLabel name first second => movedLabel (r name) first second
  | cause => cause

/-- The problem with another name in it, at the same place. -/
def Problem.rename (r : String → String) (problem : Problem) : Problem :=
  ⟨problem.cause.rename r, problem.span⟩

/-- A name is paired with what takes its place. -/
def Renames (r : String → String) (names : List (Located String)) : NameRelation :=
  fun n n' => n ∈ names ∧ n' = ⟨r n.value, n.span⟩

theorem Renames.faithful (hr : Set.InjOn r {name | name ∈ names.map Located.value}) :
    (Renames r names).Faithful := by
  rintro n _ m _ ⟨hn, rfl⟩ ⟨hm, rfl⟩
  have heq := hr.eq_iff (List.mem_map_of_mem hn) (List.mem_map_of_mem hm)
  exact heq.symm

@[simp] theorem Token.span_rename (t : Token) : (t.rename r names).span = t.span := by
  unfold rename
  split <;> rfl

theorem Token.renamed_rename (t : Token) :
    t.Renamed (Renames r names) names (t.rename r names) := by
  unfold rename
  by_cases hname : t.name ∈ names
  · rw [if_pos hname]
    exact ⟨rfl, fun _ => ⟨hname, rfl⟩, fun hplain => absurd hname hplain⟩
  · rw [if_neg hname]
    exact ⟨rfl, fun h => absurd h hname, fun _ => rfl⟩

theorem renamed_map_rename (tokens : List Token) :
    List.Forall₂ (Token.Renamed (Renames r names) names) tokens
      (tokens.map (Token.rename r names)) :=
  List.forall₂_map_right_iff.mpr (List.forall₂_same.mpr fun t _ => t.renamed_rename)

/-- The problems are the same but for the new name, and are found at a name. -/
theorem Problem.Corresponds.eq_rename {problem problem' : Problem}
    (h : problem.Corresponds (Renames r names) problem') :
    problem' = problem.rename r ∧ ∃ n ∈ names, n.span = problem.span := by
  cases h with
  | undefinedLabel renamed =>
      obtain ⟨hn, rfl⟩ := renamed
      exact ⟨rfl, _, hn, rfl⟩
  | unencodable cause renamed =>
      obtain ⟨hn, rfl⟩ := renamed
      exact ⟨rfl, _, hn, rfl⟩

/-! ## The symbols of a renamed program -/

section Programs

variable {p p' : Program}

/-- A name that is declared is one of the names of the program. -/
theorem Program.exists_name_of_declares {name : String} (h : p.Declares name) :
    ∃ n ∈ p.names, n.value = name := by
  obtain ⟨i, hi, hlabel⟩ := h
  refine ⟨⟨name, i.span⟩, List.mem_flatMap.mpr ⟨i, hi, ?_⟩, rfl⟩
  rw [Located.names, hlabel]
  exact List.mem_cons_self

/-- A name has an address just if it takes the place of a name with this address. -/
theorem Program.Corresponds.address?_eq_some_iff (h : p.Corresponds (Renames r p.names) p')
    (hr : Set.InjOn r {name | name ∈ p.names.map Located.value}) {name : String}
    {address : Address} :
    p'.address? name = some address ↔ ∃ old, p.address? old = some address ∧ r old = name := by
  have hfaithful := Renames.faithful hr
  constructor
  · intro hname
    obtain ⟨n, n', hn, rfl⟩ := h.exists_of_declares (Program.declares_of_address? hname)
    have hold : p.address? n.value = some address := (h.address? hfaithful hn).symm.trans hname
    exact ⟨n.value, hold, (congrArg Located.value hn.2).symm⟩
  · rintro ⟨old, hold, rfl⟩
    obtain ⟨n, hn, rfl⟩ :=
      Program.exists_name_of_declares (Program.declares_of_address? hold)
    exact (h.address? hfaithful ⟨hn, rfl⟩).trans hold

/-- The symbols of the renamed program are those of the program, each with its new name. -/
theorem Program.Corresponds.symbols_perm (h : p.Corresponds (Renames r p.names) p')
    (hr : Set.InjOn r {name | name ∈ p.names.map Located.value}) {symbols symbols' : Symbols}
    (hsymbols : symbols.address? = p.address?) (hsymbols' : symbols'.address? = p'.address?) :
    symbols'.toList.Perm (symbols.toList.map fun (name, address) => (r name, address)) := by
  refine Symbols.toList_perm ?_ fun name address => ?_
  · -- the names in the table are names of the program, so they stay different
    have hnames : ∀ name ∈ symbols.toList.map Prod.fst, name ∈ p.names.map Located.value := by
      intro name hname
      obtain ⟨n, hn, hvalue⟩ :=
        Program.exists_name_of_declares (Program.declares_of_mem_names hsymbols hname)
      exact List.mem_map.mpr ⟨n, hn, hvalue⟩
    have hkeys : (symbols.toList.map fun (name, address) => (r name, address)).map Prod.fst =
        (symbols.toList.map Prod.fst).map r := by
      rw [List.map_map, List.map_map]
      rfl
    rw [hkeys]
    exact symbols.nodup_names.map_on fun a ha b hb heq => hr (hnames a ha) (hnames b hb) heq
  · rw [hsymbols', h.address?_eq_some_iff hr, ← hsymbols]
    simp only [List.mem_map, Prod.mk.injEq, Prod.exists, Symbols.mem_toList_iff]
    constructor
    · rintro ⟨old, found, hold, rfl, rfl⟩
      exact ⟨old, hold, rfl⟩
    · rintro ⟨old, hold, rfl⟩
      exact ⟨old, address, hold, rfl, rfl⟩

end Programs

/-! ## Assembling a renamed program -/

/-- **Label names are only names.** When the names in a program that can be read are replaced by
others, different ones by different ones, the outcome of assembling stays the same: the same
image and the same addresses for the new names, or the same failure over the same token. -/
theorem assembleTokens_rename {source : List Char} {tokens : List Token}
    {s : Pass.State Transcript} (hscan : scan source = .ok tokens)
    (hread : Transcript.pass.run tokens .empty = .ok () s)
    (hr : Set.InjOn r {name | name ∈ (Program.names s.result.calls).map Located.value}) :
    let renamed := tokens.map (Token.rename r (Program.names s.result.calls))
    match assembleTokens tokens with
    | .ok binary => ∃ binary', assembleTokens renamed = .ok binary' ∧
        binary'.image = binary.image ∧
        binary'.symbols.toList.Perm
          (binary.symbols.toList.map fun (name, address) => (r name, address))
    | .error problem => assembleTokens renamed = .error (problem.rename r) ∧
        ∃ (k : Nat) (t t' : Token), tokens[k]? = some t ∧ renamed[k]? = some t' ∧
          t.span = problem.span ∧ t'.span = problem.span := by
  intro renamed
  have hphrase : ProgramPhrase tokens s.result.calls :=
    Transcript.exists_run_iff.mp ⟨s, hread, rfl⟩
  obtain ⟨items', hphrase', hcorresponds⟩ :=
    hphrase.renamed (nodup_names_of_scan hscan) (renamed_map_rename tokens)
  have hassemble := assembleTokens_of_phrase hphrase
  have hassemble' := assembleTokens_of_phrase hphrase'
  have houtcome := hcorresponds.code (Renames.faithful hr)
  generalize Program.code s.result.calls = outcome at hassemble houtcome
  generalize Program.code items' = outcome' at hassemble' houtcome
  -- both programs have the same bytes, or both fail over one name
  cases houtcome with
  | ok bytes =>
      obtain ⟨binary, hbinary, hsymbols, himage⟩ := hassemble
      obtain ⟨binary', hbinary', hsymbols', himage'⟩ := hassemble'
      have hsame : binary'.image = binary.image := Array.toList_inj.mp (himage'.trans himage.symm)
      rw [hbinary]
      exact ⟨binary', hbinary', hsame, hcorresponds.symbols_perm hr hsymbols hsymbols'⟩
  | error problems =>
      obtain ⟨rfl, n, hn, hspan⟩ := problems.eq_rename
      -- a name is a token, and the token keeps its place among the tokens
      obtain ⟨t, ht, rfl⟩ := List.mem_map.mp (hphrase.names_subset hn)
      obtain ⟨k, hk⟩ := List.mem_iff_getElem?.mp ht
      have hk' : renamed[k]? = some (t.rename r (Program.names s.result.calls)) := by
        rw [List.getElem?_map, hk]
        rfl
      rw [hassemble]
      exact ⟨hassemble', k, t, _, hk, hk', hspan, t.span_rename.trans hspan⟩

/-- The tokens of `a: B b` and, in the next line, `b: B a`. -/
def crossTokens : List Token :=
  [⟨.word, "a", ⟨0, 1⟩⟩, ⟨.colon, ":", ⟨1, 2⟩⟩, ⟨.word, "B", ⟨3, 4⟩⟩, ⟨.word, "b", ⟨5, 6⟩⟩,
    ⟨.word, "b", ⟨7, 8⟩⟩, ⟨.colon, ":", ⟨8, 9⟩⟩, ⟨.word, "B", ⟨10, 11⟩⟩, ⟨.word, "a", ⟨12, 13⟩⟩]

/-- The items of `crossTokens`. -/
def crossProgram : Program :=
  [⟨.label "a", ⟨0, 1⟩⟩, ⟨.branch .always false (.label ⟨"b", ⟨5, 6⟩⟩), ⟨3, 6⟩⟩,
    ⟨.label "b", ⟨7, 8⟩⟩, ⟨.branch .always false (.label ⟨"a", ⟨12, 13⟩⟩), ⟨10, 13⟩⟩]

theorem crossTokens_phrase : ProgramPhrase crossTokens crossProgram :=
  .cons
    (.labelled rfl rfl rfl
      (.instruction (m := ⟨.branch, .always, none⟩) (by decide) (.label rfl)))
    (.cons
      (.labelled rfl rfl rfl
        (.instruction (m := ⟨.branch, .always, none⟩) (by decide) (.label rfl)))
      .nil)

/-- The label `a` gets the name of a directive, every other label that of an instruction. -/
def crossName (name : String) : String :=
  if name = "a" then "word" else "B"

/-- The renamed program is `word: B B` and `B: B word`. -/
theorem assembleTokens_crossTokens :
    scan "a: B b\nb: B a".toList = .ok crossTokens ∧
      (∃ s, Transcript.pass.run crossTokens .empty = .ok () s ∧ s.result.calls = crossProgram) ∧
      ∃ binary binary', assembleTokens crossTokens = .ok binary ∧
        assembleTokens
          [⟨.word, "word", ⟨0, 1⟩⟩, ⟨.colon, ":", ⟨1, 2⟩⟩, ⟨.word, "B", ⟨3, 4⟩⟩,
            ⟨.word, "B", ⟨5, 6⟩⟩, ⟨.word, "B", ⟨7, 8⟩⟩, ⟨.colon, ":", ⟨8, 9⟩⟩,
            ⟨.word, "B", ⟨10, 11⟩⟩, ⟨.word, "word", ⟨12, 13⟩⟩] = .ok binary' ∧
        binary'.image.toList = [0xff, 0xff, 0xff, 0xea, 0xfd, 0xff, 0xff, 0xea] ∧
        binary'.symbols.toList.Perm
          (binary.symbols.toList.map fun (name, address) => (crossName name, address)) := by
  have hscan : scan "a: B b\nb: B a".toList = .ok crossTokens := by cbv
  obtain ⟨s, hread, hcalls⟩ := Transcript.exists_run_iff.mpr crossTokens_phrase
  have hnames : ∀ x ∈ crossProgram.names.map Located.value,
      ∀ y ∈ crossProgram.names.map Located.value, crossName x = crossName y → x = y := by decide
  have hinj : Set.InjOn crossName
      {name | name ∈ (Program.names s.result.calls).map Located.value} := by
    rw [hcalls]
    exact fun x hx y hy heq => hnames x hx y hy heq
  have hrename := assembleTokens_rename hscan hread hinj
  have hassemble := assembleTokens_of_phrase crossTokens_phrase
  have hcode : crossProgram.code =
      .ok [0xff, 0xff, 0xff, 0xea, 0xfd, 0xff, 0xff, 0xea] := by rfl
  rw [hcode] at hassemble
  obtain ⟨binary, hbinary, -, himage⟩ := hassemble
  rw [hbinary, hcalls] at hrename
  obtain ⟨binary', hbinary', himage', hsymbols⟩ := hrename
  exact ⟨hscan, ⟨s, hread, hcalls⟩, binary, binary', hbinary, hbinary', by rw [himage', himage],
    hsymbols⟩

end ArmAssembly
