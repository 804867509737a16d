import ArmAssembly.Proofs.Abreast
import ArmAssembly.Proofs.Entries

set_option autoImplicit false

/-! # Texts that are spaced otherwise

Blanks, line breaks, comments and the mark before a number leave no trace but the spans of the
tokens. So two texts whose tokens agree in kind and lexeme are assembled to the same image, the same
symbols and the same entries, and if one of them fails, then both fail with the same cause at the
same token (`assembleSource_respaced`). Where reading stops is settled by reading both abreast;
behind that, the two passes meet items that correspond, and never look at a span.
-/

namespace ArmAssembly

/-! ## Entries without their places -/

/-- The entry without the place that it was written at. -/
def Entry.unplaced : Entry → Entry
  | instruction a i word _ => instruction a i word (.point 0)
  | data a block _ => data a block (.point 0)
  | entry => entry

theorem Entry.units_unplaced (e : Entry) : e.unplaced.units = e.units := by
  cases e <;> rfl

namespace Placement

/-- The same is listed so far, be it from other places. -/
structure Alike (p p' : Placement) : Prop where
  address : p'.address = p.address
  declared : p'.declared = p.declared
  entries : p'.entries.map Entry.unplaced = p.entries.map Entry.unplaced

theorem Alike.refl (p : Placement) : p.Alike p := ⟨rfl, rfl, rfl⟩

theorem Alike.append {p p' : Placement} (h : p.Alike p') {e e' : Entry}
    (he : e'.unplaced = e.unplaced) : (p.append e).Alike (p'.append e') where
  address := by
    have hunits : e'.units = e.units := by rw [← e'.units_unplaced, he, e.units_unplaced]
    simp only [Placement.append, h.address, hunits]
  declared := h.declared
  entries := by
    simp only [Placement.append, Array.map_push, h.entries, he]

end Placement

/-! ## Two second passes

Both passes have done the same so far, and take items that correspond. The first is known to accept
its item, and the second does what the first did, since names that are paired have the same address.
-/

/-- Where names stay the same, so do their addresses. -/
theorem Program.Corresponds.address?_eq {p p' : Program} (h : p.Corresponds SameName p') :
    p'.address? = p.address? := by
  funext name
  have hname : SameName ⟨name, .point 0⟩ ⟨name, .point 0⟩ := rfl
  exact h.address? SameName.faithful hname

section

variable {symbols symbols' : Symbols}

namespace Placement

theorem branchField_of_same {here : Address} {n n' : Located String} (hn : SameName n n')
    (hsymbols : symbols'.address? = symbols.address?) {field : BitVec 24}
    (h : branchField symbols here (.label n) = .ok field) :
    branchField symbols' here (.label n') = .ok field := by
  rw [branchField_label] at h ⊢
  rw [hsymbols, hn]
  cases hname : symbols.address? n.value with
  | none =>
      rw [hname] at h
      cases h
  | some destination =>
      rw [hname] at h
      by_cases hreaches : Item.BranchReaches (Item.branchDistance here destination)
      · simp only [if_pos hreaches] at h ⊢
        exact h
      · simp only [if_neg hreaches] at h
        cases h

theorem labelValue_of_same {n n' : Located String} (hn : SameName n n')
    (hsymbols : symbols'.address? = symbols.address?) {value : BitVec 16}
    (h : labelValue symbols n = .ok value) : labelValue symbols' n' = .ok value := by
  rw [labelValue_eq] at h ⊢
  rw [hsymbols, hn]
  cases hname : symbols.address? n.value with
  | none =>
      rw [hname] at h
      cases h
  | some address =>
      rw [hname] at h
      by_cases hfits : Item.labelByte address < 2 ^ 16
      · simp only [if_pos hfits] at h ⊢
        exact h
      · simp only [if_neg hfits] at h
        cases h

variable {i i' : Located Item} {p p' q : Placement}

theorem declare_of_corresponds (hi : i.Corresponds SameName i')
    (hp : p.Alike p') : (p.declare i).Alike (p'.declare i') := by
  cases hi with
  | @label n n' names =>
      have hname : n'.value = n.value := names
      refine ⟨hp.address, ?_, hp.entries⟩
      simp only [declare, hp.declared]
      rw [hname]
  | operation _ _ items => cases items <;> exact hp

/-- Items that correspond have the same entry, but for its place. -/
theorem entry?_of_corresponds (hi : i.Corresponds SameName i')
    (hsymbols : symbols'.address? = symbols.address?) (hp : p.Alike p') {o : Option Entry}
    (h : p.entry? symbols i = .ok o) :
    ∃ o', p'.entry? symbols' i' = .ok o' ∧ o'.map Entry.unplaced = o.map Entry.unplaced := by
  obtain ⟨haddress, hdeclared, -⟩ := hp
  -- the two checks of a label, and the address or the field that a label comes to
  cases hi with
  | @label n n' names =>
      have hname : n'.value = n.value := names
      simp only [labelEntry, entry?] at h ⊢
      rw [hdeclared, haddress, hname, hsymbols]
      by_cases hknown : p.declared.contains n.value = true
      · rw [if_pos hknown] at h ⊢
        exact ⟨o, h, rfl⟩
      · rw [if_neg hknown] at h ⊢
        cases hfound : symbols.address? n.value with
        | none =>
            rw [hfound] at h
            cases h
        | some address =>
            rw [hfound] at h
            by_cases hhere : address = p.address
            · simp only [if_pos hhere] at h ⊢
              exact ⟨o, h, rfl⟩
            · simp only [if_neg hhere] at h
              cases h
  | operation span span' items =>
      cases items with
      | instruction | offset | data =>
          cases h
          refine ⟨_, rfl, ?_⟩
          rw [haddress]
          rfl
      | @branch condition link n n' names =>
          obtain ⟨field, hfield, rfl⟩ := entry?_branch_eq_ok_iff.mp h
          have hfield' := branchField_of_same names hsymbols hfield
          rw [← haddress] at hfield'
          refine ⟨_, entry?_branch_eq_ok_iff.mpr ⟨field, hfield', rfl⟩, ?_⟩
          rw [haddress]
          rfl
      | @loadLabel condition destination n n' names =>
          obtain ⟨value, hvalue, rfl⟩ := entry?_loadLabel_eq_ok_iff.mp h
          have hvalue' := labelValue_of_same names hsymbols hvalue
          refine ⟨_, entry?_loadLabel_eq_ok_iff.mpr ⟨value, hvalue', rfl⟩, ?_⟩
          rw [haddress]
          rfl

/-- **One item in two second passes.** If the one pass takes it, so does the other, and the same is
listed. -/
theorem pass_of_corresponds (hi : i.Corresponds SameName i')
    (hsymbols : symbols'.address? = symbols.address?) (hp : p.Alike p')
    (h : pass symbols i p = .ok () q) :
    ∃ q', pass symbols' i' p' = .ok () q' ∧ q.Alike q' := by
  have hdeclare := declare_of_corresponds hi hp
  unfold pass at h ⊢
  cases hentry : p.entry? symbols i with
  | error problem =>
      rw [hentry] at h
      cases h
  | ok o =>
      obtain ⟨o', ho', hsame⟩ := entry?_of_corresponds hi hsymbols hp hentry
      rw [hentry] at h
      rw [ho']
      cases o with
      | none =>
          cases h
          rw [Option.map_eq_none_iff.mp hsame]
          exact ⟨p', rfl, hp⟩
      | some e =>
          cases h
          obtain ⟨e', rfl, he⟩ := Option.map_eq_some_iff.mp hsame
          exact ⟨_, rfl, hdeclare.append he⟩

/-- **Two second passes** over items that correspond list the same. -/
theorem takeAll_of_corresponds {items items' : Program}
    (hitems : Program.Corresponds SameName items items')
    (hsymbols : symbols'.address? = symbols.address?) (hp : p.Alike p')
    (h : (pass symbols).takeAll items p = .ok q) :
    ∃ q', (pass symbols').takeAll items' p' = .ok q' ∧ q.Alike q' := by
  induction hitems generalizing p p' with
  | nil =>
      cases h
      exact ⟨p', rfl, hp⟩
  | @cons i i' items items' hi _ ih =>
      obtain ⟨r, htaken, hrest⟩ := Pass.takeAll_cons_eq_ok_iff.mp h
      obtain ⟨r', hr', hsame⟩ := pass_of_corresponds hi hsymbols hp htaken
      obtain ⟨q', hq', halike⟩ := ih hsame hrest
      exact ⟨q', Pass.takeAll_cons_eq_ok_iff.mpr ⟨r', hr', hq'⟩, halike⟩

end Placement

end

/-- The names in ascending order do not depend on where they were defined. -/
theorem Symbols.toList_eq_of_address? {s s' : Symbols} (h : s'.address? = s.address?) :
    s'.toList = s.toList := by
  have hperm : s'.toList.Perm s.toList := by
    refine toList_perm s.nodup_names fun name address => ?_
    rw [mem_toList_iff, h]
  have hsorted (t : Symbols) : t.toList.Pairwise fun a b => compare a.1 b.1 = .lt :=
    List.pairwise_map.mpr t.definitions.ordered_keys_toList
  refine hperm.eq_of_pairwise (fun a b _ _ hab hba => ?_) (hsorted s') (hsorted s)
  -- no name stands both before and behind another
  have hswap : compare b.1 a.1 = (compare a.1 b.1).swap := Std.OrientedCmp.eq_swap
  rw [hswap, hab] at hba
  cases hba

/-! ## Names that are read abreast

A name of the one text is paired with the name at the same index of the other. In a scanned text no
two tokens have the same span, so this tells also the occurrences of a label apart. -/

section

variable (tokens tokens' : List Token)

/-- The names are tokens with the same index. -/
def NamesAbreast : NameRelation := fun n n' =>
  ∃ t u : Token, t.Abreast tokens tokens' u ∧ n = t.name ∧ n' = u.name

variable {tokens tokens'}

theorem NamesAbreast.same {n n' : Located String} (h : NamesAbreast tokens tokens' n n') :
    SameName n n' := by
  obtain ⟨t, u, htu, rfl, rfl⟩ := h
  exact htu.lexeme

theorem NamesAbreast.faithful : (NamesAbreast tokens tokens').Faithful := by
  intro n n' m m' hn hm
  exact SameName.faithful hn.same hm.same

/-- The tokens of two texts are read abreast, one by one. -/
theorem forall₂_abreast (h : tokens'.map Token.view = tokens.map Token.view) :
    List.Forall₂ (Token.Abreast tokens tokens') tokens tokens' := by
  have hlength : tokens.length = tokens'.length := by
    simpa using (congrArg List.length h).symm
  refine List.forall₂_of_length_eq_of_get hlength fun n hn hn' => ?_
  have hview : tokens'[n].view = tokens[n].view := by
    have hat := congrArg (fun views => views[n]?) h
    simpa [hn, hn'] using hat
  exact ⟨⟨n, List.getElem?_eq_getElem hn, List.getElem?_eq_getElem hn'⟩, congrArg Prod.fst hview,
    congrArg Prod.snd hview⟩

theorem Token.Abreast.renamed {t u : Token} (h : t.Abreast tokens tokens' u)
    (names : List (Located String)) : t.Renamed (NamesAbreast tokens tokens') names u where
  kind := h.kind
  name _ := ⟨t, u, h, rfl, rfl⟩
  plain _ := by rw [h.lexeme]

/-- Problems over names that are read abreast are read abreast. -/
theorem Problem.Corresponds.abreast {p p' : Problem}
    (h : p.Corresponds (NamesAbreast tokens tokens') p') : p.Abreast tokens tokens' p' := by
  cases h with
  | undefinedLabel names =>
      obtain ⟨t, u, htu, rfl, rfl⟩ := names
      have hname : u.name.value = t.name.value := htu.lexeme
      rw [hname]
      exact .token _ htu.span
  | unencodable cause names =>
      obtain ⟨t, u, htu, rfl, rfl⟩ := names
      exact .token _ htu.span

end

/-! ## Assembling texts that are spaced otherwise -/

section

variable {tokens tokens' : List Token}

/-- The binaries have the same image, the same symbols and, but for their places, the same
entries. -/
structure Binary.Alike (binary binary' : Binary) : Prop where
  image : binary'.image = binary.image
  symbols : binary'.symbols.toList = binary.symbols.toList
  entries : binary'.entries.map Entry.unplaced = binary.entries.map Entry.unplaced

/-- Tokens whose items correspond are assembled alike, if they can be assembled. -/
theorem exists_alike_of_corresponds {items items' : Program} (hphrase : ProgramPhrase tokens items)
    (hphrase' : ProgramPhrase tokens' items') (hitems : items.Corresponds SameName items')
    {binary : Binary} (h : assembleTokens tokens = .ok binary) :
    ∃ binary', assembleTokens tokens' = .ok binary' ∧ binary.Alike binary' := by
  have houtcome := hitems.code SameName.faithful
  have hassemble := assembleTokens_of_phrase hphrase
  have hassemble' := assembleTokens_of_phrase hphrase'
  generalize items.code = outcome at hassemble houtcome
  generalize items'.code = outcome' at hassemble' houtcome
  cases houtcome with
  | error problems =>
      rw [h] at hassemble
      cases hassemble
  | ok bytes =>
      obtain ⟨_, hbinary, hsymbols, himage⟩ := hassemble
      rw [h] at hbinary
      cases hbinary
      obtain ⟨binary', hbinary', hsymbols', himage'⟩ := hassemble'
      have haddress : binary'.symbols.address? = binary.symbols.address? := by
        rw [hsymbols, hsymbols', hitems.address?_eq]
      obtain ⟨q, htaken, -, hentries⟩ := exists_takeAll_of_assembleTokens hphrase h
      obtain ⟨q', htaken', -, hentries'⟩ := exists_takeAll_of_assembleTokens hphrase' hbinary'
      obtain ⟨r, hr, halike⟩ := Placement.takeAll_of_corresponds hitems haddress (.refl _) htaken
      rw [htaken'] at hr
      cases hr
      refine ⟨binary', hbinary', ?_, Symbols.toList_eq_of_address? haddress, ?_⟩
      · exact Array.toList_inj.mp (himage'.trans himage.symm)
      · rw [← hentries, ← hentries']
        exact halike.entries

/-- Tokens whose items correspond, with names that are read abreast, are assembled alike. -/
theorem assembleTokens_of_corresponds {items items' : Program}
    (hphrase : ProgramPhrase tokens items) (hphrase' : ProgramPhrase tokens' items')
    (hitems : items.Corresponds (NamesAbreast tokens tokens') items') :
    Verdicts tokens tokens' Binary.Alike (assembleTokens tokens) (assembleTokens tokens') := by
  have houtcome := hitems.code NamesAbreast.faithful
  have hassemble := assembleTokens_of_phrase hphrase
  have hassemble' := assembleTokens_of_phrase hphrase'
  generalize items.code = outcome at hassemble houtcome
  generalize items'.code = outcome' at hassemble' houtcome
  cases houtcome with
  | error problems =>
      rw [hassemble, hassemble']
      exact .error problems.abreast
  | ok bytes =>
      obtain ⟨binary, hbinary, -⟩ := hassemble
      obtain ⟨binary', hbinary', halike⟩ := exists_alike_of_corresponds hphrase hphrase'
        (hitems.mono fun _ _ => NamesAbreast.same) hbinary
      rw [hbinary, hbinary']
      exact .ok halike

/-- Whether tokens can be assembled does not depend on where they stand, nor does what is wrong with
them. -/
theorem assembleTokens_of_views (hnodup : (tokens.map Token.name).Nodup)
    (hviews : tokens'.map Token.view = tokens.map Token.view) :
    Verdicts tokens tokens' Binary.Alike (assembleTokens tokens) (assembleTokens tokens') := by
  have hread := Reading.abreast_ofTokens hviews
  cases hend : (Reading.ofTokens tokens).problem? with
  | none =>
      have hphrase : ProgramPhrase tokens (Reading.ofTokens tokens).items :=
        Reading.ofTokens_finished_iff.mp ⟨hend, rfl⟩
      obtain ⟨items', hphrase', hitems⟩ :=
        hphrase.renamed hnodup ((forall₂_abreast hviews).imp fun _ _ htu => htu.renamed _)
      exact assembleTokens_of_corresponds hphrase hphrase' hitems
  | some problem =>
      -- the first pass ends where reading does
      have hassemble := assembleTokens_eq tokens
      have hassemble' := assembleTokens_eq tokens'
      rw [hend] at hread
      simp only [hend] at hassemble
      generalize (Reading.ofTokens tokens').problem? = end' at hread hassemble'
      cases hread with
      | some problems =>
          rw [hassemble, hassemble']
          exact .error problems

end

/-- **Only kinds and lexemes matter.** If the tokens of two texts agree in kind and lexeme, whatever
stands between them, then either both texts are assembled, to the same image, the same symbols and
the same entries up to their places; or both fail, with the same cause, at the start of the token
with the same index or both at the end of the last token. -/
theorem assembleSource_respaced {source source' : List Char} {tokens tokens' : List Token}
    (hscan : scan source = .ok tokens) (hscan' : scan source' = .ok tokens')
    (hviews : tokens'.map Token.view = tokens.map Token.view) :
    match assembleSource source with
    | .ok binary => ∃ binary', assembleSource source' = .ok binary' ∧
        binary'.image = binary.image ∧ binary'.symbols.toList = binary.symbols.toList ∧
        binary'.entries.map Entry.unplaced = binary.entries.map Entry.unplaced
    | .error failure => ∃ cause span span',
        assemble source = .error ⟨cause, span⟩ ∧ assemble source' = .error ⟨cause, span'⟩ ∧
        failure = .program cause (.ofOffset source span.start) ∧
        assembleSource source' = .error (.program cause (.ofOffset source' span'.start)) ∧
        (span.Abreast tokens tokens' span' ∨
          span = .point (endOf tokens) ∧ span' = .point (endOf tokens')) := by
  have hverdicts := assembleTokens_of_views (nodup_names_of_scan hscan) hviews
  unfold assembleSource
  rw [assemble_of_scan hscan, assemble_of_scan hscan']
  generalize assembleTokens tokens = verdict, assembleTokens tokens' = verdict' at hverdicts
  cases hverdicts with
  | ok alike => exact ⟨_, rfl, alike.image, alike.symbols, alike.entries⟩
  | error problems =>
      cases problems with
      | token cause spans => exact ⟨cause, _, _, rfl, rfl, rfl, rfl, .inl spans⟩
      | ending cause => exact ⟨cause, _, _, rfl, rfl, rfl, rfl, .inr ⟨rfl, rfl⟩⟩

/-- The tokens of `MOVi R0, #5`. -/
def moveFiveTokens : List Token :=
  [⟨.word, "MOVi", ⟨0, 4⟩⟩, ⟨.word, "R0", ⟨5, 7⟩⟩, ⟨.comma, ",", ⟨7, 8⟩⟩, ⟨.number, "5", ⟨9, 11⟩⟩]

theorem moveFiveTokens_phrase :
    ProgramPhrase moveFiveTokens
      [⟨.instruction ⟨.always, .moveWide .bottom ⟨0⟩ 5⟩, ⟨0, 11⟩⟩] :=
  .cons
    (.plain rfl
      (.instruction (m := ⟨.move, .always, some .immediate⟩) (by decide)
        (.immediate rfl (by decide) rfl (by decide))))
    .nil

/-- Without the mark before the number, and with a line break and a comment. -/
theorem assembleSource_moveFive :
    ∃ binary binary', assembleSource "MOVi R0, #5".toList = .ok binary ∧
      assembleSource "MOVi R0\n, 5 # five".toList = .ok binary' ∧
      binary'.image.toList = [0x05, 0x00, 0x00, 0xe3] ∧
      binary'.entries.map Entry.unplaced = binary.entries.map Entry.unplaced := by
  have hscan : scan "MOVi R0, #5".toList = .ok moveFiveTokens := by cbv
  have hscan' : scan "MOVi R0\n, 5 # five".toList =
      .ok [⟨.word, "MOVi", ⟨0, 4⟩⟩, ⟨.word, "R0", ⟨5, 7⟩⟩, ⟨.comma, ",", ⟨8, 9⟩⟩,
        ⟨.number, "5", ⟨10, 11⟩⟩] := by cbv
  obtain ⟨binary, hbinary, -, himage⟩ :=
    assembleSource_of_phrase hscan moveFiveTokens_phrase rfl
  have hrespaced := assembleSource_respaced hscan hscan' rfl
  rw [hbinary] at hrespaced
  obtain ⟨binary', hbinary', himage', -, hentries⟩ := hrespaced
  exact ⟨binary, binary', hbinary, hbinary', by rw [himage', himage]; rfl, hentries⟩

end ArmAssembly
