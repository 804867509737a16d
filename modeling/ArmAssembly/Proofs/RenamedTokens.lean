import ArmAssembly.Proofs.Alike
import ArmAssembly.Proofs.Correspondence
import ArmAssembly.Proofs.Statements

set_option autoImplicit false

/-! # Tokens with other names

Whether a word is a label, a mnemonic, a directive, a register or the letters of flags is decided
by its place among the tokens. So the tokens that are names may be replaced by any words, and the
others by tokens that are alike: what results is read as items that correspond
(`ProgramPhrase.renamed`). The induction goes over the statements; each token belongs to one of
them only, so the names of the others do not matter to it (`renamed_restrict`).
-/

namespace ArmAssembly

variable {N : NameRelation}

/-! ## Tokens that are renamed

Which tokens are names is told by a list of names with their spans. A token that is not in the list
must stay what it is up to the case of its letters, and one that is gets a name that is paired. -/

/-- A token taken as a name. -/
def Token.name (t : Token) : Located String := ⟨t.lexeme, t.span⟩

/-- The words among the tokens, taken as names. -/
def wordNames (tokens : List Token) : List (Located String) :=
  (tokens.filter (·.kind = .word)).map Token.name

theorem wordNames_append (u v : List Token) : wordNames (u ++ v) = wordNames u ++ wordNames v := by
  rw [wordNames, List.filter_append, List.map_append]
  rfl

theorem mem_wordNames {n : Located String} {tokens : List Token} :
    n ∈ wordNames tokens ↔ ∃ t ∈ tokens, t.kind = .word ∧ t.name = n := by
  simp [wordNames, and_assoc]

theorem wordNames_cons_of_word {t : Token} (h : t.kind = .word) (tokens : List Token) :
    wordNames (t :: tokens) = t.name :: wordNames tokens := by
  rw [wordNames, List.filter_cons_of_pos, List.map_cons]
  · rfl
  · exact decide_eq_true h

theorem wordNames_subset_cons (t : Token) (tokens : List Token) :
    wordNames tokens ⊆ wordNames (t :: tokens) := by
  rw [← List.singleton_append, wordNames_append]
  exact List.subset_append_right _ _

theorem wordNames_subset (tokens : List Token) : wordNames tokens ⊆ tokens.map Token.name :=
  List.map_subset _ (List.filter_subset_self tokens)

/-- The tokens of a text are told apart by their places, whatever words they are. -/
theorem nodup_names_of_scan {source : List Char} {tokens : List Token}
    (h : scan source = .ok tokens) : (tokens.map Token.name).Nodup := by
  refine List.pairwise_map.mpr ((pairwise_start_of_scan h).imp fun {t u} hlt heq => ?_)
  have hspan : t.span = u.span := congrArg Located.span heq
  exact Nat.lt_irrefl _ (hspan ▸ hlt)

/-- The token is one of the names and is given a name that is paired with it, or it is none of
them and is alike. -/
structure Token.Renamed (N : NameRelation) (names : List (Located String)) (t u : Token) :
    Prop where
  kind : u.kind = t.kind
  name : t.name ∈ names → N t.name u.name
  plain : t.name ∉ names → folded u.lexeme = folded t.lexeme

namespace Token.Renamed

variable {names names' : List (Located String)} {t u : Token}

theorem alike (h : t.Renamed N names u) (hplain : t.name ∉ names) : t.Alike u where
  kind := h.kind
  folded := h.plain hplain

theorem restrict (h : t.Renamed N names u) (hiff : t.name ∈ names' ↔ t.name ∈ names) :
    t.Renamed N names' u where
  kind := h.kind
  name hname := h.name (hiff.mp hname)
  plain hplain := h.plain fun hname => hplain (hiff.mpr hname)

end Token.Renamed

/-- Which other names there are does not matter to tokens. -/
theorem renamed_restrict {names names' : List (Located String)} {u w : List Token}
    (h : List.Forall₂ (Token.Renamed N names) u w)
    (hiff : ∀ t ∈ u, t.name ∈ names' ↔ t.name ∈ names) :
    List.Forall₂ (Token.Renamed N names') u w :=
  ((List.forall₂_and_left u w).mpr ⟨hiff, h⟩).imp fun _ _ htu => htu.2.restrict htu.1

/-- Where there are no names, all tokens are alike. -/
theorem alike_of_renamed {u w : List Token} (h : List.Forall₂ (Token.Renamed N []) u w) :
    List.Forall₂ Token.Alike u w :=
  h.imp fun _ _ htu => htu.alike List.not_mem_nil

theorem same_of_renamed {u w : List Token} (h : List.Forall₂ (Token.Renamed N []) u w) :
    List.Forall₂ Token.SameMeaning u w :=
  (alike_of_renamed h).imp fun _ _ => .alike

/-! ## Phrases of renamed tokens

Among operands at most one token is a name: the last one of a branch or of a moved label. Of all
other tokens it has to be shown that they are no names, so that they are alike to those which
replace them. -/

section Phrases

variable {m : Mnemonic} {taken taken' : List Token} {item : Item} {span : Span}

theorem BranchPhrase.renamed {link : Bool} (h : BranchPhrase m link taken item)
    (hrenamed : List.Forall₂ (Token.Renamed N (Located.names ⟨item, span⟩)) taken taken') :
    ∃ item', BranchPhrase m link taken' item' ∧ item.Corresponds N item' := by
  cases h with
  | offset hnumber =>
      obtain ⟨u, hu, rfl⟩ := forall₂_one.mp (same_of_renamed hrenamed)
      exact ⟨_, .offset (hu.numberIn hnumber), .offset _ _ _⟩
  | label hword =>
      obtain ⟨u, hu, rfl⟩ := forall₂_one.mp hrenamed
      exact ⟨_, .label (hu.kind.trans hword), .branch _ _ (hu.name List.mem_cons_self)⟩

theorem MovePhrase.renamed (h : MovePhrase m taken item)
    (hnodup : (taken.map Token.name).Nodup)
    (hrenamed : List.Forall₂ (Token.Renamed N (Located.names ⟨item, span⟩)) taken taken') :
    ∃ item', MovePhrase m taken' item' ∧ item.Corresponds N item' := by
  cases h with
  | immediate hform hdestination hseparator hnumber =>
      obtain ⟨d, comma, s, hd, hc, hs, rfl⟩ := forall₂_three.mp (same_of_renamed hrenamed)
      exact ⟨_, .immediate hform (hd.register hdestination) (hc.kind hseparator rfl)
        (hs.numberIn hnumber), .instruction _⟩
  | register hform hdestination hseparator hsource =>
      obtain ⟨d, comma, s, hd, hc, hs, rfl⟩ := forall₂_three.mp (alike_of_renamed hrenamed)
      exact ⟨_, .register hform (hd.register hdestination) (hc.kind.trans hseparator)
        (hs.register hsource), .instruction _⟩
  | @label destination _ name _ hform hdestination hseparator hword =>
      obtain ⟨d, comma, s, hd, hc, hs, rfl⟩ := forall₂_three.mp hrenamed
      -- only the last token is a name, so the register is alike
      have hne : destination.name ∉ [name.name] := by
        simp only [List.map_cons, List.nodup_cons, List.mem_cons, not_or] at hnodup
        exact List.mem_singleton.not.mpr hnodup.1.2.1
      exact ⟨_, .label hform ((hd.alike hne).register hdestination) (hc.kind.trans hseparator)
        (hs.kind.trans hword), .loadLabel _ _ (hs.name List.mem_cons_self)⟩

/-- Operands that are renamed ask for an item that corresponds. -/
theorem OperandsPhrase.renamed (h : OperandsPhrase m taken item)
    (hnodup : (taken.map Token.name).Nodup)
    (hrenamed : List.Forall₂ (Token.Renamed N (Located.names ⟨item, span⟩)) taken taken') :
    ∃ item', OperandsPhrase m taken' item' ∧ item.Corresponds N item' := by
  unfold OperandsPhrase at h ⊢
  cases hbase : m.base with
  | branch | branchLink =>
      rw [hbase] at h
      exact h.renamed hrenamed
  | move | moveWide =>
      rw [hbase] at h
      exact h.renamed hnodup hrenamed
  | and | orr | add | sub | compare | moveTop | load | loadByte | store | push | pop =>
      -- all other operands ask for an instruction, which has no names
      rw [hbase] at h
      obtain ⟨i, rfl⟩ : ∃ i, item = .instruction i := by
        cases h
        exact ⟨_, rfl⟩
      exact ⟨_, h.same (same_of_renamed hrenamed), .instruction i⟩

/-- The name that operands use is one of their words. -/
theorem OperandsPhrase.names_subset_words (h : OperandsPhrase m taken item) :
    Located.names ⟨item, span⟩ ⊆ wordNames taken := by
  unfold OperandsPhrase at h
  cases hbase : m.base with
  | branch | branchLink =>
      rw [hbase] at h
      cases h with
      | offset => exact List.nil_subset _
      | label hword =>
          rw [wordNames_cons_of_word hword]
          exact List.Subset.refl _
  | move | moveWide =>
      rw [hbase] at h
      cases h with
      | immediate | register => exact List.nil_subset _
      | @label destination comma name _ _ _ _ hword =>
          refine List.Subset.trans ?_ (wordNames_subset_cons destination _)
          refine List.Subset.trans ?_ (wordNames_subset_cons comma _)
          rw [wordNames_cons_of_word hword]
          exact List.Subset.refl _
  | and | orr | add | sub | compare | moveTop | load | loadByte | store | push | pop =>
      rw [hbase] at h
      obtain ⟨i, rfl⟩ : ∃ i, item = .instruction i := by
        cases h
        exact ⟨_, rfl⟩
      exact List.nil_subset _

variable {head : Token}

theorem OperationPhrase.names_subset_words (h : OperationPhrase head taken item) :
    Located.names ⟨item, span⟩ ⊆ wordNames taken := by
  cases h with
  | bytes | words => exact List.nil_subset _
  | instruction _ operands => exact operands.names_subset_words

/-- An operation that is renamed asks for an item that corresponds. Its first word is no name,
so it is the same operation. -/
theorem OperationPhrase.renamed (h : OperationPhrase head taken item)
    (hnodup : ((head :: taken).map Token.name).Nodup) {w : List Token}
    (hrenamed : List.Forall₂ (Token.Renamed N (Located.names ⟨item, span⟩)) (head :: taken) w) :
    ∃ head' taken' item', w = head' :: taken' ∧ head'.kind = head.kind ∧
      OperationPhrase head' taken' item' ∧ item.Corresponds N item' := by
  obtain ⟨head', taken', hhead, htaken, rfl⟩ := List.forall₂_cons_left_iff.mp hrenamed
  rw [List.map_cons, List.nodup_cons] at hnodup
  have halike : head.Alike head' := hhead.alike fun hname =>
    hnodup.1 (wordNames_subset _ (h.names_subset_words hname))
  cases h with
  | bytes name mark list pairs =>
      obtain ⟨equals, rest, he, hlist, rfl⟩ :=
        List.forall₂_cons_left_iff.mp (alike_of_renamed htaken)
      -- the literals are alike, and so are their digits
      obtain ⟨literals, hphrase, hliterals⟩ :=
        list.related hlist (fun _ _ htu => htu.kind.trans) fun t u a htu ha => by
          obtain ⟨hkind, rfl⟩ := Token.hexLiteral_eq_ok_iff.mp ha
          exact ⟨u, Token.hexLiteral_eq_ok_iff.mpr ⟨htu.kind.trans hkind, rfl⟩, htu⟩
      rw [← bytesOfDigits?_toUpper, ← digits_toUpper hliterals, bytesOfDigits?_toUpper] at pairs
      exact ⟨head', _, _, rfl, halike.kind,
        .bytes ((halike.isNamed _).trans name) (he.kind.trans mark) hphrase pairs, .data _⟩
  | words name mark list =>
      obtain ⟨equals, rest, he, hlist, rfl⟩ :=
        List.forall₂_cons_left_iff.mp (same_of_renamed htaken)
      exact ⟨head', _, _, rfl, halike.kind,
        .words ((halike.isNamed _).trans name) (he.kind mark rfl)
          (list.same hlist fun _ _ _ htu => htu.dataWord), .data _⟩
  | instruction name operands =>
      obtain ⟨item', hoperands, hitem⟩ := operands.renamed hnodup.2 htaken
      exact ⟨head', taken', item', rfl, halike.kind,
        .instruction (halike.ofWord?.trans name) hoperands, hitem⟩

end Phrases

/-! ## Statements of renamed tokens

A label is one more name in front of an operation. Since no token of a text stands twice, the names
of a program are shared out among its statements. -/

section Statements

variable {taken taken' : List Token} {items : Program}

theorem StatementPhrase.names_subset_words (h : StatementPhrase taken items) :
    items.names ⊆ wordNames taken := by
  cases h with
  | plain _ operation =>
      rw [Program.names_singleton]
      exact List.Subset.trans operation.names_subset_words (wordNames_subset_cons _ _)
  | @labelled name colon head _ _ label _ _ operation =>
      rw [Program.names_cons, Program.names_singleton, wordNames_cons_of_word label]
      refine List.cons_subset_cons _ (List.Subset.trans operation.names_subset_words ?_)
      exact List.Subset.trans (wordNames_subset_cons head _) (wordNames_subset_cons colon _)

/-- The names in a program are among its words. -/
theorem ProgramPhrase.names_subset_words (h : ProgramPhrase taken items) :
    items.names ⊆ wordNames taken := by
  induction h with
  | nil => exact List.nil_subset _
  | cons statement rest ih =>
      rw [Program.names_append, wordNames_append]
      exact List.append_subset.mpr
        ⟨List.subset_append_of_subset_left _ statement.names_subset_words,
        List.subset_append_of_subset_right _ ih⟩

/-- The names in a program are among its tokens. -/
theorem ProgramPhrase.names_subset (h : ProgramPhrase taken items) :
    items.names ⊆ taken.map Token.name :=
  List.Subset.trans h.names_subset_words (wordNames_subset taken)

theorem StatementPhrase.renamed (h : StatementPhrase taken items)
    (hnodup : (taken.map Token.name).Nodup)
    (hrenamed : List.Forall₂ (Token.Renamed N items.names) taken taken') :
    ∃ items', StatementPhrase taken' items' ∧ Program.Corresponds N items items' := by
  cases h with
  | plain word operation =>
      rw [Program.names_singleton] at hrenamed
      obtain ⟨head', rest', item', rfl, hhead, hphrase, hitem⟩ :=
        operation.renamed hnodup hrenamed
      exact ⟨_, .plain (hhead.trans word) hphrase, .cons (.operation _ _ hitem) .nil⟩
  | @labelled name colon head taken item label mark word operation =>
      obtain ⟨name', _, hname, hbehind, rfl⟩ := List.forall₂_cons_left_iff.mp hrenamed
      obtain ⟨colon', _, hcolon, hrest, rfl⟩ := List.forall₂_cons_left_iff.mp hbehind
      simp only [List.map_cons, List.nodup_cons, List.mem_cons, not_or] at hnodup
      obtain ⟨⟨-, hhead, htaken⟩, -, hoperation⟩ := hnodup
      -- the label stands once among the tokens, so for the operation it is no name
      have hne : ∀ t ∈ head :: taken, t.name ≠ name.name := by
        intro t ht heq
        obtain rfl | ht := List.mem_cons.mp ht
        · exact hhead heq.symm
        · exact htaken (heq ▸ List.mem_map_of_mem ht)
      rw [Program.names_cons, Program.names_singleton] at hrest
      have hoperands := renamed_restrict hrest fun t ht =>
        (List.mem_cons.trans (or_iff_right (hne t ht))).symm
      obtain ⟨head', rest', item', rfl, hkind, hphrase, hitem⟩ :=
        operation.renamed (List.nodup_cons.mpr hoperation) hoperands
      exact ⟨_, .labelled (hname.kind.trans label) (hcolon.kind.trans mark) (hkind.trans word)
        hphrase, .cons (.label (hname.name List.mem_cons_self)) (.cons (.operation _ _ hitem) .nil)⟩

/-- **Names are only names.** A program whose tokens are renamed is a program of items that
correspond. -/
theorem ProgramPhrase.renamed (h : ProgramPhrase taken items)
    (hnodup : (taken.map Token.name).Nodup)
    (hrenamed : List.Forall₂ (Token.Renamed N items.names) taken taken') :
    ∃ items', ProgramPhrase taken' items' ∧ Program.Corresponds N items items' := by
  induction h generalizing taken' with
  | nil =>
      cases hrenamed
      exact ⟨[], .nil, .nil⟩
  | @cons u v items more statement rest ih =>
      obtain ⟨u', v', hu, hv, rfl⟩ := forall₂_append_left_iff.mp hrenamed
      rw [List.map_append, List.nodup_append'] at hnodup
      obtain ⟨hnodup, hnodup', hdisjoint⟩ := hnodup
      rw [Program.names_append] at hu hv
      -- each of the two parts has its own tokens, and so its own names
      have hmore : ∀ t ∈ u, t.name ∉ Program.names more := fun t ht hname =>
        hdisjoint (List.mem_map_of_mem ht) (rest.names_subset hname)
      have hitems : ∀ t ∈ v, t.name ∉ Program.names items := fun t ht hname =>
        hdisjoint (wordNames_subset _ (statement.names_subset_words hname)) (List.mem_map_of_mem ht)
      have hstatement := renamed_restrict hu fun t ht =>
        (List.mem_append.trans (or_iff_left (hmore t ht))).symm
      have hrest := renamed_restrict hv fun t ht =>
        (List.mem_append.trans (or_iff_right (hitems t ht))).symm
      obtain ⟨items', hphrase, hfirst⟩ := statement.renamed hnodup hstatement
      obtain ⟨more', hphrase', hsecond⟩ := ih hnodup' hrest
      exact ⟨items' ++ more', .cons hphrase hphrase', List.rel_append hfirst hsecond⟩

end Statements

/-! ## Assembling statements -/

/-- Tokens that form statements are assembled to what their items mean. -/
theorem assembleTokens_of_phrase {tokens : List Token} {items : Program}
    (h : ProgramPhrase tokens items) :
    match items.code with
    | .error problem => assembleTokens tokens = .error problem
    | .ok bytes => ∃ binary, assembleTokens tokens = .ok binary ∧
        binary.symbols.address? = items.address? ∧ binary.image.toList = bytes := by
  have hassemble := assembleTokens_eq tokens
  obtain ⟨hproblem, hitems⟩ := Reading.ofTokens_finished_iff.mpr h
  simp only [hproblem, hitems] at hassemble
  exact hassemble

/-- The first pass over tokens that form statements finds the labels of their items. -/
theorem exists_layoutOf_of_phrase {tokens : List Token} {p : Program} (h : ProgramPhrase tokens p) :
    ∃ layout, layoutOf tokens = .ok layout ∧ layout.symbols.address? = p.address? := by
  obtain ⟨layout, htaken, -, hsymbols⟩ := Layout.exists_takeAll p
  obtain ⟨hproblem, hitems⟩ := Reading.ofTokens_finished_iff.mpr h
  refine ⟨layout, ?_, hsymbols⟩
  rw [layoutOf, Pass.outcome_run, hproblem, hitems, htaken]
  rfl

end ArmAssembly
