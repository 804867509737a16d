import ArmAssembly.Proofs.Relocation

set_option autoImplicit false

/-! # The entries of a listing

Image, listing and address are three accounts of what the second pass has assembled. Every item
has one of four answers: it is refused, it is a label that was declared before, or it adds the
entry of a label or of an operation (`Placement.Answer`). Whatever is answered, the image holds
just the bytes of the entries, and the address is what they take (`Placement.Coherent`); this also
holds when the pass goes on behind items that it refuses (`Placement.coherent_carryOn`). In a
program that is assembled, the labels among the entries are those of the symbol table.
-/

namespace ArmAssembly

/-! ## Lists of entries -/

namespace Entry

/-- The name and the address of a label. -/
def label? : Entry → Option (String × Address)
  | label a name => some (name, a)
  | _ => none

/-- The word of an instruction is its encoding. -/
def IsEncoded : Entry → Prop
  | instruction _ i word _ => word = i.encode
  | _ => True

/-- How many addresses the entries take. -/
def total (entries : List Entry) : Nat := (entries.map units).sum

/-- The labels among the entries with their addresses, in the order of the entries. -/
def labels (entries : List Entry) : List (String × Address) := entries.filterMap label?

/-- The names of the labels among the entries. -/
def labelNames (entries : List Entry) : List String := (labels entries).map Prod.fst

@[simp] theorem total_append_singleton (entries : List Entry) (e : Entry) :
    total (entries ++ [e]) = total entries + e.units := by
  simp [total]

theorem labels_append_singleton (entries : List Entry) (e : Entry) :
    labels (entries ++ [e]) = labels entries ++ e.label?.toList := by
  rw [labels, List.filterMap_append, labels]
  cases h : e.label? <;> simp [h]

theorem labelNames_append_of_some {e : Entry} {name : String} {a : Address}
    (h : e.label? = some (name, a)) (entries : List Entry) :
    labelNames (entries ++ [e]) = labelNames entries ++ [name] := by
  rw [labelNames, labels_append_singleton, h, List.map_append]
  rfl

theorem labelNames_append_of_none {e : Entry} (h : e.label? = none) (entries : List Entry) :
    labelNames (entries ++ [e]) = labelNames entries := by
  rw [labelNames, labels_append_singleton, h, Option.toList_none, List.append_nil, labelNames]

end Entry

namespace Placement

/-! ## What an item can bring about

The second pass checks an item in several places, but it has only four answers. All that is said
below about a step of the pass is said of these four. -/

/-- The answers of the second pass at `p` to the item `i`. -/
inductive Answer (symbols : Symbols) (i : Located Item) (p : Placement) :
    EStateM.Result Problem Placement Unit → Prop where
  | refused (problem : Problem) : Answer symbols i p (.error problem (p.declare i))
  | repeated {name : String} (label : i.value = .label name)
      (known : p.declared.contains name = true) : Answer symbols i p (.ok () p)
  | label {name : String} (label : i.value = .label name)
      (new : p.declared.contains name = false) (found : symbols.address? name = some p.address) :
      Answer symbols i p (.ok () ((p.declare i).append (.label p.address name)))
  | operation {e : Entry} (other : ∀ name, i.value ≠ .label name) (here : e.address = p.address)
      (plain : e.label? = none) (encoded : e.IsEncoded) : Answer symbols i p (.ok () (p.append e))

variable {symbols : Symbols} {i : Located Item} {p q : Placement}

theorem declare_of_not_label (p : Placement) (h : ∀ name, i.value ≠ .label name) :
    p.declare i = p := by
  unfold declare
  split
  · next name hname => exact absurd hname (h name)
  · rfl

@[simp] theorem image_declare (p : Placement) (i : Located Item) :
    (p.declare i).image = p.image := by
  unfold declare
  split <;> rfl

@[simp] theorem entries_declare (p : Placement) (i : Located Item) :
    (p.declare i).entries = p.entries := by
  unfold declare
  split <;> rfl

@[simp] theorem address_declare (p : Placement) (i : Located Item) :
    (p.declare i).address = p.address := by
  unfold declare
  split <;> rfl

/-- An operation is refused, or it adds one entry, which is no label. -/
theorem exists_entry_of_operation (hlabel : ∀ name, i.value ≠ .label name) {o : Option Entry}
    (h : p.entry? symbols i = .ok o) :
    ∃ e, o = some e ∧ e.address = p.address ∧ e.label? = none ∧ e.IsEncoded := by
  obtain ⟨item, span⟩ := i
  cases item with
  | label name => exact absurd rfl (hlabel name)
  | instruction i =>
      cases h
      exact ⟨_, rfl, rfl, rfl, rfl⟩
  | data block =>
      cases h
      exact ⟨_, rfl, rfl, rfl, trivial⟩
  | branch condition link target =>
      obtain ⟨field, -, rfl⟩ := entry?_branch_eq_ok_iff.mp h
      exact ⟨_, rfl, rfl, rfl, rfl⟩
  | loadLabel condition destination name =>
      obtain ⟨value, -, rfl⟩ := entry?_loadLabel_eq_ok_iff.mp h
      exact ⟨_, rfl, rfl, rfl, rfl⟩

/-- A label that is new adds its entry where the symbols have it, and otherwise is refused. -/
theorem answer_of_label {name : String} (hi : i.value = .label name) :
    Answer symbols i p (pass symbols i p) := by
  simp only [pass, entry?, hi]
  by_cases hknown : p.declared.contains name = true
  · simp only [if_pos hknown]
    exact .repeated hi hknown
  · simp only [if_neg hknown, labelEntry]
    cases hfound : symbols.address? name with
    | none => exact .refused _
    | some address =>
        by_cases hhere : address = p.address
        · simp only [if_pos hhere]
          exact .label hi (Bool.eq_false_iff.mpr hknown) (by rw [hfound, hhere])
        · simp only [if_neg hhere]
          exact .refused _

/-- **The second pass has four answers**, and no other. -/
theorem answer_pass (symbols : Symbols) (i : Located Item) (p : Placement) :
    Answer symbols i p (pass symbols i p) := by
  by_cases hlabel : ∃ name, i.value = .label name
  · obtain ⟨name, hi⟩ := hlabel
    exact answer_of_label hi
  · have hother : ∀ name, i.value ≠ .label name := fun name hi => hlabel ⟨name, hi⟩
    cases hentry : p.entry? symbols i with
    | error problem =>
        simp only [pass, hentry]
        exact .refused problem
    | ok o =>
        obtain ⟨e, rfl, hhere, hplain, hencoded⟩ := exists_entry_of_operation hother hentry
        simp only [pass, hentry, declare_of_not_label p hother]
        exact .operation hother hhere hplain hencoded

/-- An item that is refused leaves image, listing and address as they were. -/
theorem unchanged_of_pass_eq_error {problem : Problem} (h : pass symbols i p = .error problem q) :
    q.image = p.image ∧ q.entries = p.entries ∧ q.address = p.address := by
  have hanswer := answer_pass symbols i p
  rw [h] at hanswer
  cases hanswer with
  | refused => exact ⟨image_declare p i, entries_declare p i, address_declare p i⟩

/-! ## Accounts that agree -/

/-- Image, listing and address agree with each other, and the labels with the symbols. -/
structure Coherent (symbols : Symbols) (p : Placement) : Prop where
  /-- The image is the bytes of the entries, one entry behind the other. -/
  image : p.image.toList = p.entries.toList.flatMap Entry.image
  encoded : ∀ e ∈ p.entries.toList, e.IsEncoded
  /-- An entry stands at the address that the entries before it take, modulo 2 ^ 32. -/
  addresses : ∀ (before after : List Entry) (e : Entry),
    p.entries.toList = before ++ e :: after → e.address = .ofNat (Entry.total before)
  /-- The address reached is what all entries take. -/
  address : p.address = .ofNat (Entry.total p.entries.toList)
  /-- No name has two entries. -/
  distinct : (Entry.labelNames p.entries.toList).Nodup
  /-- A label stands where the symbols have it. -/
  found : ∀ name a, (name, a) ∈ Entry.labels p.entries.toList → symbols.address? name = some a
  /-- A label with an entry is declared. -/
  declared : ∀ name ∈ Entry.labelNames p.entries.toList, p.declared.contains name = true

theorem coherent_initial (symbols : Symbols) : Coherent symbols initial where
  image := rfl
  encoded := by
    intro e he
    cases he
  addresses := by
    intro before after e h
    cases before <;> cases h
  address := rfl
  distinct := List.nodup_nil
  found := by
    intro name a h
    cases h
  declared := by
    intro name h
    cases h

/-- A name that is declared and has no entry changes nothing. -/
theorem Coherent.declare (h : p.Coherent symbols) (i : Located Item) :
    (p.declare i).Coherent symbols where
  image := by simpa using h.image
  encoded := by simpa using h.encoded
  addresses := by simpa using h.addresses
  address := by simpa using h.address
  distinct := by simpa using h.distinct
  found := by simpa using h.found
  declared := by
    intro name hname
    rw [entries_declare] at hname
    exact (contains_declare p i name).mpr (.inl (h.declared name hname))

/-- One more entry at the address reached keeps the accounts in agreement. A label has to be new
among the entries, declared, and where the symbols have it. -/
theorem Coherent.append (h : p.Coherent symbols) {e : Entry} (hhere : e.address = p.address)
    (hencoded : e.IsEncoded)
    (hlabel : ∀ name a, e.label? = some (name, a) →
      name ∉ Entry.labelNames p.entries.toList ∧ symbols.address? name = some a ∧
        p.declared.contains name = true) :
    (p.append e).Coherent symbols := by
  have hentries : (p.append e).entries.toList = p.entries.toList ++ [e] := Array.toList_push
  have hlabels : ∀ name a, (name, a) ∈ Entry.labels (p.append e).entries.toList →
      (name, a) ∈ Entry.labels p.entries.toList ∨ e.label? = some (name, a) := by
    intro name a hmem
    rw [hentries, Entry.labels_append_singleton] at hmem
    exact (List.mem_append.mp hmem).imp_right Option.mem_toList.mp
  constructor
  · have himage : (p.append e).image.toList = p.image.toList ++ e.image := by
      simp [Placement.append]
    rw [himage, hentries, h.image, List.flatMap_append, List.flatMap_singleton]
  · intro e' he'
    rw [hentries, List.mem_append, List.mem_singleton] at he'
    rcases he' with he' | rfl
    · exact h.encoded e' he'
    · exact hencoded
  · intro before after e' hsplit
    rw [hentries] at hsplit
    rcases List.eq_nil_or_concat after with rfl | ⟨earlier, last, rfl⟩
    · -- the entry is the new one
      obtain ⟨hbefore, he'⟩ := List.append_inj' hsplit rfl
      cases he'
      rw [← hbefore, hhere, h.address]
    · have hsplit' : p.entries.toList ++ [e] = (before ++ e' :: earlier) ++ [last] := by
        rw [hsplit, List.concat_eq_append]
        simp
      obtain ⟨hbefore, -⟩ := List.append_inj' hsplit' rfl
      exact h.addresses before earlier e' hbefore
  · have haddress : (p.append e).address = p.address.advance e.units := rfl
    rw [haddress, hentries, Entry.total_append_singleton, h.address, Address.ofNat_advance]
  · rw [hentries]
    cases hname : e.label? with
    | none =>
        rw [Entry.labelNames_append_of_none hname]
        exact h.distinct
    | some label =>
        obtain ⟨name, a⟩ := label
        obtain ⟨hnew, -, -⟩ := hlabel name a hname
        rw [Entry.labelNames_append_of_some hname, ← List.concat_eq_append]
        exact h.distinct.concat hnew
  · intro name a hmem
    rcases hlabels name a hmem with hold | hnew
    · exact h.found name a hold
    · exact (hlabel name a hnew).2.1
  · intro name hname
    obtain ⟨⟨_, a⟩, hmem, rfl⟩ := List.mem_map.mp hname
    rcases hlabels _ a hmem with hold | hnew
    · exact h.declared _ (List.mem_map_of_mem hold)
    · exact (hlabel _ a hnew).2.2

/-! ## Going on behind items that are refused

The assembler stops at the first item that is refused. The accounts agree even without this: a
refused item changes none of them, at most its name is noted as declared. -/

/-- Where the second pass stands behind an item, taken or refused. -/
def after (symbols : Symbols) (p : Placement) (i : Located Item) : Placement :=
  match pass symbols i p with
  | .ok _ q => q
  | .error _ q => q

/-- Where the second pass stands behind a list of items, if it goes on whenever an item is
refused. -/
def carryOn (symbols : Symbols) (items : Program) : Placement :=
  items.foldl (after symbols) initial

/-- **One item keeps the accounts in agreement**, be it taken or refused. -/
theorem Coherent.after (h : p.Coherent symbols) (i : Located Item) :
    (after symbols p i).Coherent symbols := by
  unfold Placement.after
  have hanswer := answer_pass symbols i p
  generalize pass symbols i p = result at hanswer
  cases hanswer with
  | refused => exact h.declare i
  | repeated => exact h
  | @label name hi hnew hfound =>
      refine (h.declare i).append (address_declare p i).symm trivial ?_
      rintro _ _ ⟨⟩
      -- those with an entry are declared, so the new label has none
      refine ⟨fun hmem => ?_, hfound, (contains_declare p i name).mpr (.inr hi)⟩
      rw [entries_declare] at hmem
      rw [h.declared name hmem] at hnew
      cases hnew
  | operation _ hhere hplain hencoded =>
      refine h.append hhere hencoded fun name a hlabel => ?_
      rw [hplain] at hlabel
      cases hlabel

theorem Coherent.foldl_after (h : p.Coherent symbols) (items : Program) :
    (items.foldl (Placement.after symbols) p).Coherent symbols := by
  induction items generalizing p with
  | nil => exact h
  | cons i items ih => exact ih (h.after i)

/-- **Image, listing and address agree** behind any list of items, whichever of them are
refused. -/
theorem coherent_carryOn (symbols : Symbols) (items : Program) :
    (carryOn symbols items).Coherent symbols :=
  (coherent_initial symbols).foldl_after items

/-- Items that are all taken are taken one after the other. -/
theorem takeAll_eq_foldl {items : Program} (h : (pass symbols).takeAll items p = .ok q) :
    q = items.foldl (after symbols) p := by
  induction items generalizing p with
  | nil =>
      cases h
      rfl
  | cons i items ih =>
      obtain ⟨r, hi, hitems⟩ := Pass.takeAll_cons_eq_ok_iff.mp h
      have hafter : after symbols p i = r := by rw [after, hi]
      rw [List.foldl_cons, hafter]
      exact ih hitems

theorem Coherent.takeAll (h : p.Coherent symbols) {items : Program}
    (htaken : (Placement.pass symbols).takeAll items p = .ok q) : q.Coherent symbols := by
  rw [takeAll_eq_foldl htaken]
  exact h.foldl_after items

end Placement

/-! ## The labels of an assembled program

A name has an entry where it is declared first. So the names of the entries are those of the
declarations, each once and in this order, and with coherence they are the symbol table. -/

/-- The name that an item declares. -/
def Item.declared? : Item → Option String
  | label name => some name
  | _ => none

/-- The names that a program declares, one for each declaration. -/
def Program.declarations (p : Program) : List String := p.filterMap fun i => i.value.declared?

theorem Item.declared?_eq_some_iff {item : Item} {name : String} :
    item.declared? = some name ↔ item = .label name := by
  cases item <;> simp [declared?]

theorem Program.mem_declarations {p : Program} {name : String} :
    name ∈ p.declarations ↔ p.Declares name := by
  simp only [declarations, List.mem_filterMap, Item.declared?_eq_some_iff, Declares]

theorem Program.declarations_append_label {p : Program} {i : Located Item} {name : String}
    (hi : i.value = .label name) : declarations (p ++ [i]) = p.declarations ++ [name] := by
  rw [declarations, List.filterMap_append, declarations]
  simp [hi, Item.declared?]

theorem Program.declarations_append_other {p : Program} {i : Located Item}
    (hi : ∀ name, i.value ≠ .label name) : declarations (p ++ [i]) = p.declarations := by
  have hnone : i.value.declared? = none := by
    cases h : i.value.declared? with
    | none => rfl
    | some name => exact absurd (Item.declared?_eq_some_iff.mp h) (hi name)
  rw [declarations, List.filterMap_append, declarations]
  simp [hnone]

theorem eraseDups_concat_of_mem {α : Type} [BEq α] [LawfulBEq α] {l : List α} {a : α}
    (h : a ∈ l) : (l ++ [a]).eraseDups = l.eraseDups := by
  rw [List.eraseDups_append]
  simp [List.removeAll, h]

theorem eraseDups_concat_of_not_mem {α : Type} [BEq α] [LawfulBEq α] {l : List α} {a : α}
    (h : a ∉ l) : (l ++ [a]).eraseDups = l.eraseDups ++ [a] := by
  rw [List.eraseDups_append]
  simp [List.removeAll, h, List.eraseDups_cons]

namespace Placement

/-- When all items are taken, every name that is declared has one entry, in the order of the first
declarations. -/
theorem labelNames_takeAll {symbols : Symbols} {items : Program} {q : Placement}
    (h : (pass symbols).takeAll items initial = .ok q) :
    Entry.labelNames q.entries.toList = (Program.declarations items).eraseDups ∧
      ∀ name, q.declared.contains name = true ↔ name ∈ Program.declarations items := by
  -- on the item that is taken last, because the first declaration of a name counts
  induction items using List.reverseRecOn generalizing q with
  | nil =>
      cases h
      exact ⟨rfl, fun name => by simp [initial, Program.declarations]⟩
  | append_singleton items i ih =>
      obtain ⟨p, htaken, hlast⟩ := Pass.takeAll_concat_eq_ok_iff.mp h
      obtain ⟨hnames, hdeclared⟩ := ih htaken
      have hanswer := answer_pass symbols i p
      rw [hlast] at hanswer
      cases hanswer with
      | @repeated name hi hknown =>
          have hmem := (hdeclared name).mp hknown
          rw [Program.declarations_append_label hi, eraseDups_concat_of_mem hmem]
          refine ⟨hnames, fun other => ?_⟩
          rw [hdeclared, List.mem_append, List.mem_singleton]
          exact ⟨.inl, fun hother => hother.elim id fun heq => heq ▸ hmem⟩
      | @label name hi hnew hfound =>
          have hmem : name ∉ Program.declarations items := by
            rw [← hdeclared, hnew]
            exact Bool.false_ne_true
          rw [Program.declarations_append_label hi, eraseDups_concat_of_not_mem hmem]
          constructor
          · have hentries : ((p.declare i).append (.label p.address name)).entries.toList =
                p.entries.toList ++ [.label p.address name] := by
              simp [Placement.append]
            rw [hentries, Entry.labelNames_append_of_some rfl, hnames]
          · intro other
            have hcontains := contains_declare p i other
            rw [hdeclared, hi, Item.label.injEq] at hcontains
            rw [List.mem_append, List.mem_singleton, eq_comm (a := other)]
            exact hcontains
      | @operation e hother hhere hplain hencoded =>
          rw [Program.declarations_append_other hother]
          have hentries : (p.append e).entries.toList = p.entries.toList ++ [e] :=
            Array.toList_push
          rw [hentries, Entry.labelNames_append_of_none hplain]
          exact ⟨hnames, hdeclared⟩

end Placement

/-- The second pass of tokens that are assembled takes all items of their program, and what it ends
with is the binary. -/
theorem exists_takeAll_of_assembleTokens {tokens : List Token} {p : Program} {binary : Binary}
    (hphrase : ProgramPhrase tokens p) (h : assembleTokens tokens = .ok binary) :
    ∃ q, (Placement.pass binary.symbols).takeAll p .initial = .ok q ∧
      q.image = binary.image ∧ q.entries = binary.entries := by
  obtain ⟨layout, q, -, hplacement, rfl, -⟩ := exists_passes_of_assembleTokens h
  obtain ⟨-, htaken⟩ := Pass.takeAll_of_outcome hplacement
  obtain ⟨-, hitems⟩ := Reading.ofTokens_finished_iff.mpr hphrase
  rw [hitems] at htaken
  exact ⟨q, htaken, rfl, rfl⟩

theorem exists_takeAll_of_assembleSource {source : List Char} {binary : Binary}
    (h : assembleSource source = .ok binary) :
    ∃ q, (Placement.pass binary.symbols).takeAll (Program.ofSource source) .initial = .ok q ∧
      q.image = binary.image ∧ q.entries = binary.entries := by
  obtain ⟨tokens, hscan, hassemble⟩ := assembleSource_eq_ok_iff.mp h
  obtain ⟨tokens', hscan', hphrase, -, -⟩ := exists_phrase_of_assembleSource h
  rw [hscan] at hscan'
  cases hscan'
  exact exists_takeAll_of_assembleTokens hphrase hassemble

/-- **Image, address and listing never drift apart.** Whatever items the second pass is called with
and whatever symbols it has, also when it goes on behind items that it refuses: the image is the
bytes of the entries, every entry stands where the entries before it end, and no label has two
entries or stands elsewhere than the symbols say. An item that is refused leaves image, listing and
address as they were. In a program that is assembled the labels with entries are those of the symbol
table, in the order in which they are declared first. -/
theorem image_address_and_listing_agree :
    (∀ (symbols : Symbols) (items : Program),
      (Placement.carryOn symbols items).Coherent symbols) ∧
    (∀ (symbols : Symbols) (i : Located Item) (p q : Placement) (problem : Problem),
      Placement.pass symbols i p = .error problem q →
        q.image = p.image ∧ q.entries = p.entries ∧ q.address = p.address) ∧
    ∀ (source : List Char) (binary : Binary), assembleSource source = .ok binary →
      (Entry.labels binary.entries.toList).Perm binary.symbols.toList ∧
        Entry.labelNames binary.entries.toList =
          (Program.ofSource source).declarations.eraseDups := by
  refine ⟨Placement.coherent_carryOn, ?_, ?_⟩
  · intro symbols i p q problem h
    exact Placement.unchanged_of_pass_eq_error h
  · intro source binary h
    obtain ⟨q, htaken, -, hentries⟩ := exists_takeAll_of_assembleSource h
    obtain ⟨-, -, -, -, hsymbols⟩ := exists_phrase_of_assembleSource h
    have hcoherent := (Placement.coherent_initial binary.symbols).takeAll htaken
    have hnames := (Placement.labelNames_takeAll htaken).1
    rw [hentries] at hnames
    refine ⟨(Symbols.toList_perm ?_ fun name a => ?_).symm, hnames⟩
    · rw [← hentries]
      exact hcoherent.distinct
    · rw [← hentries]
      constructor
      · exact hcoherent.found name a
      · intro ha
        -- the name is declared, so it has an entry, and the entry has the address of the symbols
        have hdeclares : (Program.ofSource source).Declares name := by
          rw [hsymbols] at ha
          exact Program.declares_of_address? ha
        have hmem : name ∈ Entry.labelNames q.entries.toList := by
          rw [hentries, hnames, List.mem_eraseDups]
          exact Program.mem_declarations.mpr hdeclares
        obtain ⟨⟨_, b⟩, hlabel, rfl⟩ := List.mem_map.mp hmem
        have hb := hcoherent.found _ b hlabel
        rw [ha] at hb
        cases hb
        exact hlabel

end ArmAssembly
