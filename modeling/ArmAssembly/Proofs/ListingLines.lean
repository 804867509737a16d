import ArmAssembly.Proofs.LineBreaks
import ArmAssembly.Proofs.Renaming
import ArmAssembly.Proofs.StatementSpans
import ArmAssembly.Proofs.SymbolTable

set_option autoImplicit false

/-! # The lines of a listing

A listing has a line for its title, for each symbol, for the gap, for the title of the program and
for each entry, and besides that a line for each line break inside a statement: the statement is
shown as it was written, and only its ends are free of white space. So there is one line for each
entry just if every statement stands on one line (`listing_lines`).
-/

namespace ArmAssembly

/-! ## What is shown of a source text

A name is a word, and what is written for an item has no line break in it. So line breaks can come
from the statement only, which is shown as it stands in the source. -/

section

variable {source : List Char} {binary : Binary}

/-- The names of a program are words, which have no line breaks. -/
theorem lineBreaks_of_address? (h : assembleSource source = .ok binary) {name : String}
    {a : Address} (ha : binary.symbols.address? name = some a) : lineBreaks name = 0 := by
  obtain ⟨tokens, hscan, hphrase, -, hsymbols⟩ := exists_phrase_of_assembleSource h
  rw [hsymbols] at ha
  obtain ⟨n, hn, rfl⟩ := Program.exists_name_of_declares (Program.declares_of_address? ha)
  obtain ⟨t, ht, -, rfl⟩ := mem_wordNames.mp (hphrase.names_subset_words hn)
  obtain ⟨_, _, _, -, -, -, -, hstands⟩ := (scan_eq_ok_iff.mp hscan).standsIn ht
  refine List.count_eq_zero.mpr fun hfeed => ?_
  rcases class_of_mem_lexeme hstands.shaped hfeed with hclass | ⟨kind, hmark⟩
  · cases hclass
  · cases hmark

/-- A statement is shown as it stands in the text. -/
theorem written_eq_text (h : assembleSource source = .ok binary) {e : Entry}
    (he : e ∈ binary.entries.toList) {span : Span} (hspan : e.span? = some span) :
    (Entry.written source span).toList = span.text source := by
  obtain ⟨tokens, hscan, hphrase, -, -⟩ := exists_phrase_of_assembleSource h
  obtain ⟨q, htaken, -, hentries⟩ := exists_takeAll_of_assembleSource h
  have hmem : span ∈ (Program.ofSource source).operations.map Located.span := by
    have hspans := Placement.spans_takeAll htaken
    rw [hentries] at hspans
    rw [← List.nil_append ((Program.ofSource source).operations.map Located.span)]
    exact hspans ▸ List.mem_filterMap.mpr ⟨e, he, hspan⟩
  obtain ⟨i, hi, rfl⟩ := List.mem_map.mp hmem
  obtain ⟨hi, hoperation⟩ := Program.mem_operations.mp hi
  obtain ⟨u, head, taken, v, rfl, hword, hitem, hwhole⟩ := hphrase.exists_operation hi hoperation
  obtain ⟨text, -, -, -, htext, -, -, -, -, -, hwritten⟩ :=
    (scan_eq_ok_iff.mp hscan).standsAlone (nodup_names_of_scan hscan) hword hitem
  rw [← hwhole] at htext hwritten
  rw [hwritten, String.toList_ofList, Span.text, htext, Option.getD_some]

/-- How often the statement of an entry goes on on a new line. -/
def Entry.breaks (source : List Char) (e : Entry) : Nat :=
  match e.span? with
  | some span => (span.text source).count '\n'
  | none => 0

/-- An entry is shown with the line breaks of its statement and no others. -/
theorem Entry.lineBreaks_text (h : assembleSource source = .ok binary) {e : Entry}
    (he : e ∈ binary.entries.toList) : lineBreaks (e.text source) = e.breaks source := by
  have hwritten {span : Span} (hspan : e.span? = some span) :
      lineBreaks (Entry.written source span) = (span.text source).count '\n' := by
    rw [lineBreaks, written_eq_text h he hspan]
  have hgap : lineBreaks "  " = 0 := by decide
  have hremark : lineBreaks " ; " = 0 := by decide
  cases e with
  | label a name =>
      -- a name that has an entry is in the symbol table, so it is a word of the source
      obtain ⟨q, htaken, -, hentries⟩ := exists_takeAll_of_assembleSource h
      have hcoherent := (Placement.coherent_initial binary.symbols).takeAll htaken
      rw [← hentries] at he
      have hname : lineBreaks name = 0 :=
        lineBreaks_of_address? h (hcoherent.found name a (List.mem_filterMap.mpr ⟨_, he, rfl⟩))
      simp +decide [Entry.text, Entry.breaks, Entry.span?, Address.hex, hname]
  | instruction a i word span =>
      simp [Entry.text, Entry.breaks, Entry.span?, Address.hex, wordText, i.lineBreaks_text,
        hwritten rfl, hgap, hremark]
  | data a block span =>
      simp [Entry.text, Entry.breaks, Entry.span?, Address.hex, block.lineBreaks_text,
        hwritten rfl, hgap, hremark]

/-! ## The lines of a listing

The parts of a listing are ended by line breaks of their own, so its lines are those of its parts.
-/

/-- The line of a symbol. -/
def symbolLine (symbol : String × Address) : String :=
  padRight 20 symbol.1 ++ " = " ++ padLeft 6 ' ' symbol.2.text

/-- The lines of an entry. -/
def Entry.lines (source : List Char) (e : Entry) : List (List Char) :=
  (e.text source).toList.splitOn '\n'

/-- The lines of a listing: those of the symbols and of the entries, with titles. -/
def listingLines (symbols : Symbols) (entryLines : List (List Char)) : List (List Char) :=
  "Symbol Table:".toList :: (symbols.toList.map fun symbol => (symbolLine symbol).toList)
    ++ [] :: "Program:".toList :: entryLines

theorem length_listingLines (symbols : Symbols) (entryLines : List (List Char)) :
    (listingLines symbols entryLines).length = 3 + symbols.size + entryLines.length := by
  have hsize : symbols.toList.length = symbols.size := by
    rw [Symbols.toList, List.length_map]
    exact Std.TreeMap.length_toList
  simp only [listingLines, List.length_append, List.length_cons, List.length_map, hsize]
  omega

theorem lineBreaks_symbolLine {name : String} (h : lineBreaks name = 0) (address : Address) :
    lineBreaks (symbolLine (name, address)) = 0 := by
  have hequals : lineBreaks " = " = 0 := by decide
  rw [symbolLine, lineBreaks_append, lineBreaks_append, lineBreaks_padRight,
    lineBreaks_padLeft (by decide), h, hequals, Address.text, lineBreaks_toString]

theorem hasLines_symbols (h : assembleSource source = .ok binary) :
    HasLines binary.symbols.text.toList
      (binary.symbols.toList.map fun symbol => (symbolLine symbol).toList) := by
  rw [Symbols.text, String.toList_join, List.flatMap_map, List.map_eq_flatMap]
  refine HasLines.flatMap fun ⟨name, address⟩ hsymbol => .of_lineBreaks ?_
  have haddress := (Symbols.mem_toList_iff _ _ _).mp hsymbol
  exact lineBreaks_symbolLine (lineBreaks_of_address? h haddress) address

theorem hasLines_listing (h : assembleSource source = .ok binary) :
    HasLines (binary.listing source).toList
      (listingLines binary.symbols (binary.entries.toList.flatMap (Entry.lines source))) := by
  have htitle : HasLines "Symbol Table:\n".toList ["Symbol Table:".toList] :=
    .of_lineBreaks (s := "Symbol Table:") (by decide)
  have hprogram : HasLines "\nProgram:\n".toList [[], "Program:".toList] :=
    (HasLines.of_lineBreaks (s := "") (by decide)).append
      (HasLines.of_lineBreaks (s := "Program:") (by decide))
  have hentries : HasLines
      (String.join (binary.entries.toList.map fun e => e.text source ++ "\n")).toList
      (binary.entries.toList.flatMap (Entry.lines source)) := by
    rw [String.toList_join, List.flatMap_map]
    refine HasLines.flatMap fun e _ => ?_
    rw [String.toList_append]
    exact .splitOn _
  have hall := ((htitle.append (hasLines_symbols h)).append hprogram).append hentries
  have htext : binary.listing source = "Symbol Table:\n" ++ binary.symbols.text ++ "\nProgram:\n"
      ++ String.join (binary.entries.toList.map fun e => e.text source ++ "\n") := rfl
  simpa only [htext, String.toList_append, listingLines, List.append_assoc, List.cons_append,
    List.nil_append] using hall

/-! ## One line for each entry

Of the lines of an entry the first begins with its address, and the others are what the statement
has behind a line break. Counting the line breaks of the listing in both ways shows that there must
be none of the others. -/

/-- The line begins with the address in at least four hexadecimal digits with capital letters, and
a blank behind them. -/
def BeginsWith (a : Address) (line : List Char) : Prop :=
  ∃ digits rest, line = digits ++ ' ' :: rest ∧ 4 ≤ digits.length ∧
    digits.all isCapitalHexDigit = true ∧ numeralValue 16 digits = a.toNat

theorem Address.hex_toList (a : Address) :
    a.hex.toList = (upperHex a.toNat).toList.leftpad 4 '0' := by
  rw [Address.hex, paddedHex, padLeft, String.toList_ofList]

theorem beginsWith_hex (a : Address) (rest : List Char) :
    BeginsWith a (a.hex.toList ++ ' ' :: rest) := by
  refine ⟨a.hex.toList, rest, rfl, ?_, ?_, ?_⟩
  · rw [a.hex_toList, List.length_leftpad]
    exact Nat.le_max_left _ _
  · rw [a.hex_toList, List.leftpad, List.all_append, isCapitalHexDigit_upperHex, Bool.and_true,
      List.all_replicate]
    simp +decide
  · rw [a.hex_toList, numeralValue_leftpad, numeralValue_upperHex]

/-- An entry is shown behind its address. -/
theorem Entry.exists_text_eq (source : List Char) (e : Entry) :
    ∃ rest, (e.text source).toList = e.address.hex.toList ++ ' ' :: rest := by
  cases e with
  | label a name =>
      refine ⟨"         ".toList ++ (name ++ ":").toList, ?_⟩
      simp [Entry.text, Entry.address]
  | instruction | data =>
      apply Exists.intro
      simp only [Entry.text, Entry.address, String.toList_append, List.append_assoc]
      rfl

/-- The first line of an entry begins with its address. -/
theorem Entry.exists_lines_eq (source : List Char) (e : Entry) :
    ∃ line more, e.lines source = line :: more ∧ BeginsWith e.address line := by
  obtain ⟨rest, htext⟩ := e.exists_text_eq source
  obtain ⟨line, more, hlines⟩ := List.exists_cons_of_ne_nil (List.splitOn_ne_nil '\n' rest)
  have hfront : '\n' ∉ e.address.hex.toList ++ [' '] := by
    have hhex : lineBreaks e.address.hex = 0 := lineBreaks_paddedHex 4 _
    rw [List.mem_append, not_or]
    exact ⟨List.count_eq_zero.mp hhex, by decide⟩
  refine ⟨e.address.hex.toList ++ ' ' :: line, more, ?_, beginsWith_hex _ _⟩
  rw [Entry.lines, htext, List.append_cons, splitOn_append_of_not_mem hfront, hlines,
    List.modifyHead_cons, ← List.append_cons]

theorem Entry.length_lines (source : List Char) (e : Entry) :
    (e.lines source).length = 1 + lineBreaks (e.text source) := by
  have hcount := (HasLines.splitOn (e.text source).toList).count_eq
  rw [List.count_append] at hcount
  rw [Entry.lines, ← hcount]
  exact Nat.add_comm _ _

/-- The listing has one line for each symbol, in ascending order, and one line for each entry, which
begins with its address. -/
structure IsLineStructured (source : List Char) (binary : Binary) : Prop where
  ascending : binary.symbols.toList.Pairwise fun a b => textBytes a.1 < textBytes b.1
  lines : ∃ entryLines, HasLines (binary.listing source).toList
    (listingLines binary.symbols entryLines) ∧
      List.Forall₂ (fun e line => BeginsWith e.address line) binary.entries.toList entryLines

/-- What the lines of a listing are. -/
structure ListingLines (source : List Char) (binary : Binary) : Prop where
  ascending : binary.symbols.toList.Pairwise fun a b => textBytes a.1 < textBytes b.1
  lines : HasLines (binary.listing source).toList
    (listingLines binary.symbols (binary.entries.toList.flatMap (Entry.lines source)))
  /-- The first line of an entry begins with its address, and a line more is there for each line
  break in its statement. -/
  entry : ∀ e ∈ binary.entries.toList, ∃ line more, e.lines source = line :: more ∧
    BeginsWith e.address line ∧ more.length = e.breaks source
  count : (binary.listing source).toList.count '\n' = 3 + binary.symbols.size
    + binary.entries.size + (binary.entries.toList.map (Entry.breaks source)).sum
  /-- There is one line for each entry just if no statement goes on on a new line. -/
  structured : IsLineStructured source binary ↔
    ∀ e ∈ binary.entries.toList, e.breaks source = 0

theorem Entry.exists_lines_of_mem (h : assembleSource source = .ok binary) {e : Entry}
    (he : e ∈ binary.entries.toList) :
    ∃ line more, e.lines source = line :: more ∧ BeginsWith e.address line ∧
      more.length = e.breaks source := by
  obtain ⟨line, more, hlines, hbegins⟩ := e.exists_lines_eq source
  have hlength := e.length_lines source
  rw [hlines, List.length_cons, Entry.lineBreaks_text h he] at hlength
  exact ⟨line, more, hlines, hbegins, by omega⟩

theorem length_flatMap_lines (h : assembleSource source = .ok binary) :
    (binary.entries.toList.flatMap (Entry.lines source)).length =
      binary.entries.size + (binary.entries.toList.map (Entry.breaks source)).sum := by
  have hlines : ∀ e ∈ binary.entries.toList, (e.lines source).length = 1 + e.breaks source :=
    fun e he => by rw [e.length_lines, Entry.lineBreaks_text h he]
  calc (binary.entries.toList.flatMap (Entry.lines source)).length
      = (binary.entries.toList.map fun e => (e.lines source).length).sum := List.length_flatMap
    _ = (binary.entries.toList.map fun e => 1 + e.breaks source).sum := by
        rw [List.map_congr_left hlines]
    _ = binary.entries.size + (binary.entries.toList.map (Entry.breaks source)).sum := by
        rw [List.sum_map_add]
        simp

theorem count_listing (h : assembleSource source = .ok binary) :
    (binary.listing source).toList.count '\n' = 3 + binary.symbols.size
      + binary.entries.size + (binary.entries.toList.map (Entry.breaks source)).sum := by
  rw [(hasLines_listing h).count_eq, length_listingLines, length_flatMap_lines h, ← Nat.add_assoc]

theorem isLineStructured_iff (h : assembleSource source = .ok binary) :
    IsLineStructured source binary ↔ ∀ e ∈ binary.entries.toList, e.breaks source = 0 := by
  constructor
  · rintro ⟨-, entryLines, hlines, hbegin⟩
    -- the line breaks are counted twice
    have hcount := hlines.count_eq
    rw [length_listingLines, ← hbegin.length_eq, count_listing h, Array.length_toList] at hcount
    have hsum : (binary.entries.toList.map (Entry.breaks source)).sum = 0 := by omega
    exact fun e he => List.sum_eq_zero_iff.mp hsum _ (List.mem_map_of_mem he)
  · intro hunbroken
    have hone : ∀ e ∈ binary.entries.toList, e.lines source = [(e.text source).toList] := by
      intro e he
      have hnone : lineBreaks (e.text source) = 0 :=
        (Entry.lineBreaks_text h he).trans (hunbroken e he)
      exact List.splitOn_eq_singleton (List.count_eq_zero.mp hnone)
    refine ⟨binary.symbols.toList_pairwise_textBytes,
      binary.entries.toList.map fun e => (e.text source).toList, ?_, ?_⟩
    · rw [List.map_eq_flatMap, ← List.flatMap_congr hone]
      exact hasLines_listing h
    · refine List.forall₂_map_right_iff.mpr (List.forall₂_same.mpr fun e _ => ?_)
      obtain ⟨rest, htext⟩ := e.exists_text_eq source
      rw [htext]
      exact beginsWith_hex _ _

end

/-- **The lines of a listing.** After the title there is a line for each symbol, in ascending order,
and after the title of the program each entry has its address in front and takes one line, and one
more for each line break inside its statement. So the listing has one line for each entry just if
every statement of the program stands on one line. -/
theorem listing_lines {source : List Char} {binary : Binary}
    (h : assembleSource source = .ok binary) : ListingLines source binary where
  ascending := binary.symbols.toList_pairwise_textBytes
  lines := hasLines_listing h
  entry := fun _ he => Entry.exists_lines_of_mem h he
  count := count_listing h
  structured := isLineStructured_iff h

/-- The tokens of a branch with its number on a line of its own. -/
def brokenBranchTokens : List Token := [⟨.word, "B", ⟨0, 1⟩⟩, ⟨.number, "1", ⟨2, 3⟩⟩]

/-- The branch is assembled, and its entry spans the line break. -/
theorem exists_brokenBranch : ∃ binary, assembleSource "B\n1".toList = .ok binary ∧
    binary.entries.toList.filterMap Entry.span? = [⟨0, 3⟩] := by
  have hscan : scan "B\n1".toList = .ok brokenBranchTokens := by cbv
  have hphrase : ProgramPhrase (brokenBranchTokens ++ [])
      ([⟨.branch .always false (.offset 1), ⟨0, 3⟩⟩] ++ []) :=
    .cons (.plain rfl
      (.instruction (m := ⟨.branch, .always, none⟩) (by decide) (.offset rfl))) .nil
  obtain ⟨binary, hbinary, -, -⟩ := assembleSource_of_phrase hscan hphrase rfl
  obtain ⟨q, htaken, -, hentries⟩ := exists_takeAll_of_assembleSource hbinary
  rw [Program.ofSource_eq hscan hphrase] at htaken
  refine ⟨binary, hbinary, ?_⟩
  rw [← hentries, Placement.spans_takeAll htaken]
  rfl

theorem listing_lines_brokenBranch : ∃ binary, assembleSource "B\n1".toList = .ok binary ∧
    ListingLines "B\n1".toList binary := by
  obtain ⟨binary, hbinary, -⟩ := exists_brokenBranch
  exact ⟨binary, hbinary, listing_lines hbinary⟩

/-- A branch with its number on a line of its own takes two lines of the listing. -/
theorem not_isLineStructured_brokenBranch :
    ∃ binary, assembleSource "B\n1".toList = .ok binary ∧
      ¬ IsLineStructured "B\n1".toList binary := by
  obtain ⟨binary, hbinary, hspans⟩ := exists_brokenBranch
  refine ⟨binary, hbinary, fun hstructured => ?_⟩
  have hmem : (⟨0, 3⟩ : Span) ∈ binary.entries.toList.filterMap Entry.span? :=
    hspans ▸ List.mem_cons_self
  obtain ⟨e, he, hspan⟩ := List.mem_filterMap.mp hmem
  have hnone := (isLineStructured_iff hbinary).mp hstructured e he
  have hone : e.breaks "B\n1".toList = 1 := by
    rw [Entry.breaks, hspan]
    decide
  rw [hone] at hnone
  cases hnone

end ArmAssembly
