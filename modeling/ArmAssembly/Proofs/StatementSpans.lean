import ArmAssembly.Proofs.Entries
import ArmAssembly.Proofs.Lossless

set_option autoImplicit false

/-! # The text of a statement

An operation has the span from its first token to its last. The text there, taken by itself, is
cut into the same tokens, so it is a program of that operation alone (`Cut.standsAlone`), and it
has no white space at its ends. Items stand one behind the other like their tokens, names are
written at their spans, and the second pass hands the spans on to the entries of the listing. So
what a listing shows beside a word is the statement, the whole of it and nothing else
(`statement_spans_exact`).
-/

namespace ArmAssembly

/-! ## Operations among tokens -/

section Operations

variable {tokens taken : List Token} {items : Program} {i : Located Item} {head : Token}

theorem spanOver_eq (head : Token) (taken : List Token) :
    spanOver head taken = ⟨head.span.start, stopOf head.span.stop taken⟩ := by
  have hstop : (taken.getLast?.getD head).span.stop = stopOf head.span.stop taken := by
    induction taken generalizing head with
    | nil => rfl
    | cons t taken ih =>
        rw [List.getLast?_cons, Option.getD_some, stopOf]
        exact ih t
  rw [spanOver, hstop]

theorem StatementPhrase.exists_operation (h : StatementPhrase tokens items) (hi : i ∈ items)
    (hoperation : i.value.declared? = none) :
    ∃ u head taken, tokens = u ++ head :: taken ∧ head.kind = .word ∧
      OperationPhrase head taken i.value ∧ i.span = spanOver head taken := by
  cases h with
  | @plain head taken _ word operation =>
      rw [List.mem_singleton.mp hi]
      exact ⟨[], head, taken, rfl, word, operation, rfl⟩
  | @labelled name colon head taken _ _ _ word operation =>
      rcases List.mem_cons.mp hi with rfl | hi
      · cases hoperation
      · rw [List.mem_singleton.mp hi]
        exact ⟨[name, colon], head, taken, rfl, word, operation, rfl⟩

/-- An operation of a program is a phrase among its tokens. -/
theorem ProgramPhrase.exists_operation (h : ProgramPhrase tokens items) (hi : i ∈ items)
    (hoperation : i.value.declared? = none) :
    ∃ u head taken v, tokens = u ++ (head :: taken ++ v) ∧ head.kind = .word ∧
      OperationPhrase head taken i.value ∧ i.span = spanOver head taken := by
  induction h with
  | nil => cases hi
  | @cons tokens w items more statement rest ih =>
      rcases List.mem_append.mp hi with hi | hi
      · obtain ⟨u, head, taken, rfl, hphrase⟩ := statement.exists_operation hi hoperation
        exact ⟨u, head, taken, w, List.append_assoc _ _ _, hphrase⟩
      · obtain ⟨u, head, taken, v, rfl, hphrase⟩ := ih hi
        exact ⟨tokens ++ u, head, taken, v, (List.append_assoc _ _ _).symm, hphrase⟩

/-! ## Items one behind the other -/

/-- An item begins with one of the tokens of its statement and ends with one. -/
theorem StatementPhrase.exists_ends (h : StatementPhrase tokens items) (hi : i ∈ items) :
    ∃ t ∈ tokens, ∃ u ∈ tokens, i.span = ⟨t.span.start, u.span.stop⟩ := by
  have hlast (head : Token) (taken : List Token) :
      taken.getLast?.getD head ∈ head :: taken := by
    cases hlast : taken.getLast? with
    | none => exact List.mem_cons_self
    | some t => exact List.mem_cons_of_mem _ (List.mem_of_getLast? hlast)
  cases h with
  | @plain head taken =>
      rw [List.mem_singleton.mp hi]
      exact ⟨head, List.mem_cons_self, _, hlast head taken, rfl⟩
  | @labelled name colon head taken =>
      have hbehind {t : Token} (ht : t ∈ head :: taken) : t ∈ name :: colon :: head :: taken :=
        List.mem_cons_of_mem _ (List.mem_cons_of_mem _ ht)
      rcases List.mem_cons.mp hi with rfl | hi
      · exact ⟨name, List.mem_cons_self, name, List.mem_cons_self, rfl⟩
      · rw [List.mem_singleton.mp hi]
        exact ⟨head, hbehind List.mem_cons_self, _, hbehind (hlast head taken), rfl⟩

theorem ProgramPhrase.exists_ends (h : ProgramPhrase tokens items) (hi : i ∈ items) :
    ∃ t ∈ tokens, ∃ u ∈ tokens, i.span = ⟨t.span.start, u.span.stop⟩ := by
  induction h with
  | nil => cases hi
  | cons statement rest ih =>
      rcases List.mem_append.mp hi with hi | hi
      · obtain ⟨t, ht, u, hu, hspan⟩ := statement.exists_ends hi
        exact ⟨t, List.mem_append_left _ ht, u, List.mem_append_left _ hu, hspan⟩
      · obtain ⟨t, ht, u, hu, hspan⟩ := ih hi
        exact ⟨t, List.mem_append_right _ ht, u, List.mem_append_right _ hu, hspan⟩

/-- Where tokens stand one behind the other, so do the items. -/
theorem ProgramPhrase.pairwise (h : ProgramPhrase tokens items)
    (htokens : tokens.Pairwise fun t u => t.span.stop ≤ u.span.start) :
    items.Pairwise fun i j => i.span.stop ≤ j.span.start := by
  induction h with
  | nil => exact .nil
  | cons statement rest ih =>
      obtain ⟨hstatement, hrest, hbetween⟩ := List.pairwise_append.mp htokens
      refine List.pairwise_append.mpr ⟨?_, ih hrest, fun i hi j hj => ?_⟩
      · cases statement with
        | plain => exact List.pairwise_singleton _ _
        | @labelled name colon head =>
            have hlabel : name.span.stop ≤ head.span.start :=
              (List.pairwise_cons.mp hstatement).1 head
                (List.mem_cons_of_mem _ List.mem_cons_self)
            exact List.pairwise_pair.mpr hlabel
      · obtain ⟨_, -, u, hu, hi⟩ := statement.exists_ends hi
        obtain ⟨t, ht, _, -, hj⟩ := rest.exists_ends hj
        rw [hi, hj]
        exact hbetween u hu t ht

end Operations

/-! ## Texts without white space at their ends

A token begins and ends with a letter, a digit or a mark, also when a `#` stands in front of it. So
there is nothing to be trimmed off a text that begins and ends with its tokens. -/

theorem not_isWhiteSpace_of_isAlphanum {c : Char} (h : c.isAlphanum = true) :
    isWhiteSpace c = false := by
  have hrange : (48 ≤ c.toNat ∧ c.toNat ≤ 57) ∨ (65 ≤ c.toNat ∧ c.toNat ≤ 90) ∨
      (97 ≤ c.toNat ∧ c.toNat ≤ 122) := by
    simp only [Char.isAlphanum, Char.isAlpha, Char.isUpper, Char.isLower, Char.isDigit,
      Bool.or_eq_true, Bool.and_eq_true, decide_eq_true_eq, UInt32.le_iff_toNat_le, ge_iff_le] at h
    have hdigits : '0'.val.toNat = 48 ∧ '9'.val.toNat = 57 := by decide
    have hupper : 'A'.val.toNat = 65 ∧ 'Z'.val.toNat = 90 := by decide
    have hlower : 'a'.val.toNat = 97 ∧ 'z'.val.toNat = 122 := by decide
    have hc : c.toNat = c.val.toNat := rfl
    omega
  simp only [isWhiteSpace, Bool.or_eq_false_iff, Bool.and_eq_false_iff, decide_eq_false_iff_not,
    beq_eq_false_iff_ne]
  omega

/-- No character of a token is white space. -/
theorem Token.Stands.not_isWhiteSpace {t : Token} {written rest : List Char}
    (h : t.Stands written rest) {c : Char} (hc : c ∈ written) : isWhiteSpace c = false := by
  rcases h.mem_lexeme hc with rfl | hc
  · rfl
  rcases class_of_mem_lexeme h.shaped hc with halphanum | ⟨kind, hmark⟩
  · exact not_isWhiteSpace_of_isAlphanum halphanum
  · unfold mark? at hmark
    split at hmark <;> cases hmark <;> rfl

theorem dropWhile_of_breaks {p : Char → Bool} {text : List Char} (h : Breaks p text) :
    text.dropWhile p = text := by
  cases text with
  | nil => rfl
  | cons c text =>
      rw [List.dropWhile_cons_of_neg]
      rw [h c rfl]
      exact Bool.false_ne_true

theorem trimmed_of_breaks {text : List Char} (hfirst : Breaks isWhiteSpace text)
    (hlast : Breaks isWhiteSpace text.reverse) : trimmed text = text := by
  rw [trimmed, dropWhile_of_breaks hfirst, dropWhile_of_breaks hlast, List.reverse_reverse]

theorem eq_nil_of_byteLength {text : List Char} (h : byteLength text = 0) : text = [] := by
  cases text with
  | nil => rfl
  | cons c text => exact absurd h (byteLength_cons_pos c text).ne'

theorem stopOf_concat (start : Nat) (tokens : List Token) (t : Token) :
    stopOf start (tokens ++ [t]) = t.span.stop := by
  induction tokens generalizing start with
  | nil => rfl
  | cons u tokens ih => exact ih u.span.stop

/-- A text that goes from its first token to its last has no white space at its ends. -/
theorem Cut.trimmed_eq {text : List Char} {t : Token} {tokens : List Token}
    (h : Cut t.span.start text (t :: tokens) [])
    (hstop : stopOf t.span.stop tokens = t.span.start + byteLength text) :
    trimmed text = text := by
  have hbreaks {u : Token} {written rest : List Char} (hstands : u.Stands written rest)
      {ends : List Char} (hends : ∀ c ∈ ends, c ∈ written) (hne : ends ≠ []) (more : List Char) :
      Breaks isWhiteSpace (ends ++ more) := by
    obtain ⟨c, ends, rfl⟩ := List.exists_cons_of_ne_nil hne
    exact breaks_cons _ (hstands.not_isWhiteSpace (hends c List.mem_cons_self))
  refine trimmed_of_breaks ?_ ?_
  · obtain ⟨before, gap, written, behind, rfl, -, hstart, -, -, hstands, -⟩ :=
      Cut.exists_token (u := []) h
    -- the first token begins where the text does
    have hnone : byteLength (before ++ gap) = 0 := by omega
    rw [← List.append_assoc, eq_nil_of_byteLength hnone]
    exact hbreaks hstands (fun _ hc => hc) hstands.ne_nil behind
  · obtain ⟨u, last, hlast⟩ : ∃ u last, t :: tokens = u ++ [last] :=
      (List.eq_nil_or_concat' (t :: tokens)).resolve_left (List.cons_ne_nil _ _)
    have hstop' : stopOf t.span.start (t :: tokens) = t.span.start + byteLength text := hstop
    rw [hlast, stopOf_concat] at hstop'
    rw [hlast] at h
    obtain ⟨before, gap, written, behind, rfl, -, hstart, hend, -, hstands, -⟩ :=
      Cut.exists_token h
    -- the last token ends where the text does
    have hnone : byteLength behind = 0 := by
      simp only [byteLength_append] at hstart hstop'
      omega
    rw [eq_nil_of_byteLength hnone, List.append_nil, ← List.append_assoc, List.reverse_append]
    exact hbreaks hstands (fun _ hc => List.mem_reverse.mp hc)
      (List.reverse_ne_nil_iff.mpr hstands.ne_nil) _

/-! ## Operations by themselves

The tokens of an operation are found again in the text at its span, at places that are moved to the
beginning. What is read from them differs in the spans of its names only. -/

/-- The text at the span of the item is a program by itself, whose only item asks for the same and
spans all of it. In a listing this text is shown as it is. -/
def Located.StandsAlone (source : List Char) (i : Located Item) : Prop :=
  ∃ text tokens s j, i.span.text? source = some text ∧ scan text = .ok tokens ∧
    Transcript.pass.run tokens .empty = .ok () s ∧ s.result.calls = [j] ∧
    i.value.Corresponds SameName j.value ∧ j.span = ⟨0, byteLength text⟩ ∧
    Entry.written source i.span = String.ofList text

/-- An operation is read alike from its own text. -/
theorem Cut.standsAlone {source : List Char} {u taken v : List Token} {head : Token} {item : Item}
    (h : Cut 0 source (u ++ (head :: taken ++ v)) [])
    (hnodup : ((u ++ (head :: taken ++ v)).map Token.name).Nodup) (hword : head.kind = .word)
    (hphrase : OperationPhrase head taken item) :
    Located.StandsAlone source ⟨item, spanOver head taken⟩ := by
  obtain ⟨before, text, behind, rfl, hstart, hstop, hcut⟩ := h.exists_part
  -- the part is cut into the same tokens when it begins at byte zero
  obtain ⟨tokens, hmoved, hviews, hfirst, hlast⟩ := hcut.move 0
  rw [List.map_append, List.map_append] at hnodup
  have hown : ((head :: taken).map Token.name).Nodup := hnodup.of_append_right.of_append_left
  have hrenamed : List.Forall₂
      (Token.Renamed SameName (Located.names ⟨item, spanOver head taken⟩)) (head :: taken) tokens :=
    renamed_of_views hviews
  obtain ⟨head', taken', item', rfl, hkind, hphrase', hitem⟩ := hphrase.renamed hown hrenamed
  have hspan : spanOver head taken = ⟨byteLength before, byteLength before + byteLength text⟩ := by
    rw [spanOver_eq, hstop, hstart, Nat.zero_add]
  have hspan' : spanOver head' taken' = ⟨0, byteLength text⟩ := by
    simp only [List.head?_cons, Option.map_some, Option.some.injEq] at hfirst
    simp only [stopOf, hstop] at hlast
    rw [spanOver_eq, Span.mk.injEq]
    omega
  have htext : (spanOver head taken).text? (before ++ (text ++ behind)) = some text := by
    rw [hspan]
    exact Span.text?_eq before text behind
  have hprogram : ProgramPhrase (head' :: taken' ++ []) ([⟨item', spanOver head' taken'⟩] ++ []) :=
    .cons (.plain (hkind.trans hword) hphrase') .nil
  rw [List.append_nil] at hprogram
  obtain ⟨s, hrun, hcalls⟩ := Transcript.exists_run_iff.mpr hprogram
  refine ⟨text, head' :: taken', s, _, htext, hmoved.scan_eq, hrun, hcalls, hitem, hspan', ?_⟩
  rw [Entry.written, Span.text, htext, Option.getD_some, hcut.trimmed_eq hstop]

/-! ## The spans of entries -/

/-- The span of the statement that an entry was made of. -/
def Entry.span? : Entry → Option Span
  | label _ _ => none
  | instruction _ _ _ span => some span
  | data _ _ span => some span

/-- The operations of a program, which are all items but the labels. -/
def Program.operations (p : Program) : Program := p.filter fun i => i.value.declared?.isNone

theorem Program.mem_operations {p : Program} {i : Located Item} :
    i ∈ p.operations ↔ i ∈ p ∧ i.value.declared? = none := by
  rw [operations, List.mem_filter, Option.isNone_iff_eq_none]

namespace Placement

variable {symbols : Symbols} {p q : Placement}

/-- An operation hands its span to its entry. -/
theorem span?_of_entry {i : Located Item} {o : Option Entry} (h : p.entry? symbols i = .ok o) :
    o.toList.filterMap Entry.span? = (Program.operations [i]).map Located.span := by
  obtain ⟨item, span⟩ := i
  cases item with
  | label name =>
      simp only [labelEntry, entry?] at h
      split at h
      · cases h
        rfl
      · split at h
        · split at h <;> cases h
          rfl
        · cases h
  | instruction | data =>
      cases h
      rfl
  | branch condition link target =>
      obtain ⟨field, -, rfl⟩ := entry?_branch_eq_ok_iff.mp h
      rfl
  | loadLabel condition destination name =>
      obtain ⟨value, -, rfl⟩ := entry?_loadLabel_eq_ok_iff.mp h
      rfl

theorem spans_of_pass {i : Located Item} (h : pass symbols i p = .ok () q) :
    q.entries.toList.filterMap Entry.span? =
      p.entries.toList.filterMap Entry.span? ++ (Program.operations [i]).map Located.span := by
  unfold pass at h
  split at h
  · next e hentry =>
      cases h
      have hentries : ((p.declare i).append e).entries.toList = p.entries.toList ++ [e] := by
        rw [Placement.append, entries_declare, Array.toList_push]
      rw [hentries, List.filterMap_append, ← span?_of_entry hentry]
      rfl
  · next hentry =>
      cases h
      rw [← span?_of_entry hentry]
      exact (List.append_nil _).symm
  · cases h

/-- The entries that are added have the spans of the operations that are taken. -/
theorem spans_takeAll {items : Program} (h : (pass symbols).takeAll items p = .ok q) :
    q.entries.toList.filterMap Entry.span? =
      p.entries.toList.filterMap Entry.span? ++ (Program.operations items).map Located.span := by
  induction items generalizing p with
  | nil =>
      cases h
      exact (List.append_nil _).symm
  | cons i items ih =>
      obtain ⟨z, hi, hitems⟩ := Pass.takeAll_cons_eq_ok_iff.mp h
      have hsplit : Program.operations (i :: items) =
          Program.operations [i] ++ Program.operations items :=
        List.filter_append [i] items
      rw [ih hitems, spans_of_pass hi, hsplit, List.map_append, List.append_assoc]

end Placement

/-! ## The whole program -/

/-- The text at the span of an operation is its statement, items stand one behind the other, and
the text at the span of a name is the name. The entries of a listing are made of the operations in
their order. -/
structure ExactSpans (source : List Char) (calls : Program) : Prop where
  alone : ∀ i ∈ calls.operations, i.StandsAlone source
  ordered : calls.Pairwise fun i j => i.span.stop ≤ j.span.start
  named : ∀ n ∈ calls.names, n.span.text? source = some n.value.toList
  listed : ∀ binary, assembleSource source = .ok binary →
    binary.entries.toList.filterMap Entry.span? = calls.operations.map Located.span

theorem Cut.text?_name {source : List Char} {tokens : List Token} (h : Cut 0 source tokens [])
    {n : Located String} (hn : n ∈ wordNames tokens) :
    n.span.text? source = some n.value.toList := by
  obtain ⟨t, ht, hkind, rfl⟩ := mem_wordNames.mp hn
  obtain ⟨_, written, _, -, -, -, htext, hstands⟩ := h.standsIn ht
  have hwritten : written = t.lexeme.toList := by
    refine hstands.spelled.resolve_right fun hmarked => ?_
    rw [hkind] at hmarked
    cases hmarked.1
  rw [hwritten] at htext
  exact htext

/-- **The spans of statements are exact.** In every program that can be read, the text at the span
of an operation is that operation and nothing else, and is what the listing shows beside it. -/
theorem statement_spans_exact {source : List Char} {tokens : List Token}
    {s : Pass.State Transcript} (hscan : scan source = .ok tokens)
    (hrun : Transcript.pass.run tokens .empty = .ok () s) :
    ExactSpans source s.result.calls := by
  have hphrase := Transcript.exists_run_iff.mp ⟨s, hrun, rfl⟩
  have hcut := scan_eq_ok_iff.mp hscan
  refine ⟨fun i hi => ?_, hphrase.pairwise hcut.pairwise.2, fun n hn => ?_, fun binary h => ?_⟩
  · obtain ⟨hi, hoperation⟩ := Program.mem_operations.mp hi
    obtain ⟨u, head, taken, v, rfl, hword, hitem, hspan⟩ := hphrase.exists_operation hi hoperation
    obtain ⟨value, span⟩ := i
    obtain rfl : span = spanOver head taken := hspan
    exact hcut.standsAlone (nodup_names_of_scan hscan) hword hitem
  · exact hcut.text?_name (hphrase.names_subset_words hn)
  · obtain ⟨q, htaken, -, hentries⟩ := exists_takeAll_of_assembleSource h
    rw [Program.ofSource_eq hscan hphrase] at htaken
    rw [← hentries, Placement.spans_takeAll htaken]
    rfl

/-- The tokens of a branch to itself that is written in two lines, with a comment in the first. -/
def twoLineTokens : List Token :=
  [⟨.word, "a", ⟨0, 1⟩⟩, ⟨.colon, ":", ⟨1, 2⟩⟩, ⟨.word, "B", ⟨3, 4⟩⟩, ⟨.word, "a", ⟨10, 11⟩⟩]

theorem statement_spans_exact_twoLines :
    scan "a: B # é\na".toList = .ok twoLineTokens ∧
      ∃ s, Transcript.pass.run twoLineTokens .empty = .ok () s ∧
        s.result.calls = [⟨.label "a", ⟨0, 1⟩⟩,
          ⟨.branch .always false (.label ⟨"a", ⟨10, 11⟩⟩), ⟨3, 11⟩⟩] ∧
        ExactSpans "a: B # é\na".toList s.result.calls := by
  have hscan : scan "a: B # é\na".toList = .ok twoLineTokens := by cbv
  have hphrase : ProgramPhrase (twoLineTokens ++ []) _ :=
    .cons (.labelled rfl rfl rfl
      (.instruction (m := ⟨.branch, .always, none⟩) (by decide) (.label rfl))) .nil
  obtain ⟨s, hrun, hcalls⟩ := Transcript.exists_run_iff.mpr hphrase
  exact ⟨hscan, s, hrun, hcalls, statement_spans_exact hscan hrun⟩

end ArmAssembly
