import ArmAssembly.Proofs.Lines
import ArmAssembly.Proofs.RenamedTokens

set_option autoImplicit false

/-! # Programs one behind the other

A program means the same wherever it lies, unless it moves the place of a label into a register.
Behind another program all its addresses grow by what the other takes, and with them the places
that its branches go to, so their distances stay (`Item.branchDistance_advance`). If no label is
declared in both, the image of two programs one behind the other is the image of the one and the
image of the other (`Program.code_append`). Texts are put together line by line, so two texts can be
assembled apart and joined afterwards (`assembleSource_append`).

Addresses wrap around, which is why the two programs together must leave room for the two
addresses by which a branch is ahead of itself.
-/

namespace ArmAssembly

/-! ## Addresses without a wrap -/

namespace Address

theorem toNat_ofNat {n : Nat} (h : n < 2 ^ 32) : (ofNat n).toNat = n := by
  have hmod : (ofNat n).toNat = n % 2 ^ 32 := BitVec.toNat_ofNat n 32
  rw [hmod, Nat.mod_eq_of_lt h]

theorem toNat_advance {a : Address} {k : Nat} (h : a.toNat + k < 2 ^ 32) :
    (a.advance k).toNat = a.toNat + k := by
  have hsum : (a.advance k).toNat = (a.toNat + k % 2 ^ 32) % 2 ^ 32 := by
    simp [advance, toNat, BitVec.toNat_add]
  have hk : k < 2 ^ 32 := by omega
  rw [hsum, Nat.mod_eq_of_lt hk, Nat.mod_eq_of_lt h]

end Address

namespace Program

variable {p q : Program}

theorem units_take_le (p : Program) (n : Nat) : units (p.take n) ≤ p.units := by
  have hsplit : p.units = units (p.take n) + units (p.drop n) := by
    rw [← units_append, List.take_append_drop]
  omega

/-- An item ends where its program ends, or before. -/
theorem units_take_add_le {n : Nat} {i : Located Item} (h : p[n]? = some i) :
    units (p.take n) + i.value.units ≤ p.units := by
  obtain ⟨hn, hi⟩ := List.getElem?_eq_some_iff.mp h
  have htake : p.take (n + 1) = p.take n ++ [i] := by
    rw [List.take_succ_eq_append_getElem hn, hi]
  have hle := p.units_take_le (n + 1)
  rw [htake, units_append, units_singleton] at hle
  exact hle

theorem toNat_addressAt (hp : p.units < 2 ^ 32) (n : Nat) :
    (p.addressAt n).toNat = units (p.take n) :=
  Address.toNat_ofNat (Nat.lt_of_le_of_lt (p.units_take_le n) hp)

theorem toNat_le_of_address? (hp : p.units < 2 ^ 32) {name : String} {address : Address}
    (h : p.address? name = some address) : address.toNat ≤ p.units := by
  obtain ⟨n, -, rfl⟩ := Option.map_eq_some_iff.mp h
  rw [toNat_addressAt hp]
  exact p.units_take_le n

theorem addressAt_append_left {n : Nat} (h : n ≤ p.length) :
    addressAt (p ++ q) n = p.addressAt n := by
  rw [addressAt, addressAt, List.take_append_of_le_length h]

theorem addressAt_append_right (p q : Program) (n : Nat) :
    addressAt (p ++ q) (p.length + n) = (q.addressAt n).advance p.units := by
  rw [addressAt, addressAt, List.take_length_add_append, units_append, Address.ofNat_advance,
    Nat.add_comm]

end Program

/-! ## Items that move

An item comes to the same elsewhere if the distances of its branches stay and it moves no label.
This is used twice: for the first program, which only gets more labels behind it, and for the
second, which moves as a whole. -/

namespace Item

/-- The item moves the place of a label into a register. -/
def MovesLabel (item : Item) : Prop :=
  ∃ condition destination name, item = loadLabel condition destination name

/-- A branch whose place and whose label move by the same number of addresses keeps its
distance. -/
theorem branchDistance_advance {here destination : Address} {k : Nat}
    (hhere : here.toNat + 2 + k < 2 ^ 32) (hdestination : destination.toNat + k < 2 ^ 32) :
    branchDistance (here.advance k) (destination.advance k) = branchDistance here destination := by
  have hadvanced : (here.advance k).toNat = here.toNat + k := Address.toNat_advance (by omega)
  have htarget : (destination.advance k).toNat = destination.toNat + k :=
    Address.toNat_advance hdestination
  unfold branchDistance
  rw [hadvanced, htarget, Nat.mod_eq_of_lt (by omega), Nat.mod_eq_of_lt (by omega)]
  omega

variable {item : Item} {labels labels' : String → Option Address} {here here' : Address}
  {bytes : List UInt8}

/-- All that an item has from its labels and its place is the distance to a label or the address
of a label. Where these are the same, the item comes to the same. -/
theorem code_eq_of_distances (h : item.code labels here = .ok bytes)
    (hbranch : ∀ condition link name destination, item = .branch condition link (.label name) →
      labels name.value = some destination →
      ∃ destination', labels' name.value = some destination' ∧
        branchDistance here' destination' = branchDistance here destination)
    (hload : ∀ condition register name address, item = .loadLabel condition register name →
      labels name.value = some address → labels' name.value = some address) :
    item.code labels' here' = .ok bytes := by
  -- only an item that uses a label looks at the labels, or at the place where it is
  cases item with
  | label | instruction | data => exact h
  | branch condition link target =>
      cases target with
      | offset field => exact h
      | label name =>
          simp only [code] at h ⊢
          cases hname : labels name.value with
          | none =>
              rw [hname] at h
              cases h
          | some destination =>
              obtain ⟨destination', hname', hdistance⟩ :=
                hbranch condition link name destination rfl hname
              rw [hname] at h
              simp only [hname', hdistance]
              exact h
  | loadLabel condition register name =>
      simp only [code] at h ⊢
      cases hname : labels name.value with
      | none =>
          rw [hname] at h
          cases h
      | some address =>
          rw [hname] at h
          rw [hload condition register name address rfl hname]
          exact h

/-- What an item comes to does not change when there are more labels. -/
theorem code_of_more_labels (h : item.code labels here = .ok bytes)
    (hmore : ∀ name address, labels name = some address → labels' name = some address) :
    item.code labels' here = .ok bytes := by
  refine code_eq_of_distances h ?_ ?_
  · intro condition link name destination _ hname
    exact ⟨destination, hmore _ _ hname, rfl⟩
  · intro condition register name address _ hname
    exact hmore _ _ hname

/-- An item that moves no label comes to the same when its place and all labels move by the same
number of addresses. -/
theorem code_advance {k : Nat} (h : item.code labels here = .ok bytes)
    (hmoves : ¬ item.MovesLabel) (hhere : here.toNat + item.units + k + 1 < 2 ^ 32)
    (hlabels : ∀ name address, labels name = some address →
      address.toNat + k < 2 ^ 32 ∧ labels' name = some (address.advance k)) :
    item.code labels' (here.advance k) = .ok bytes := by
  refine code_eq_of_distances h ?_ ?_
  · rintro condition link name destination rfl hname
    obtain ⟨hroom, hname'⟩ := hlabels _ _ hname
    have hahead : here.toNat + 2 + k < 2 ^ 32 := by
      have hunits : (branch condition link (.label name)).units = 1 := rfl
      omega
    exact ⟨_, hname', branchDistance_advance hahead hroom⟩
  · rintro condition register name address rfl _
    exact absurd ⟨condition, register, name, rfl⟩ hmoves

end Item

/-! ## Programs that move -/

namespace Program

theorem mapM_eq_ok_of_imp {α β : Type} {f g : α → Except Problem β} {l : List α} {bs : List β}
    (h : l.mapM f = .ok bs) (himp : ∀ a ∈ l, ∀ b, f a = .ok b → g a = .ok b) :
    l.mapM g = .ok bs := by
  induction l generalizing bs with
  | nil => exact h
  | cons a l ih =>
      rw [List.mapM_cons] at h ⊢
      obtain ⟨b, hb, h⟩ := bind_eq_ok_iff.mp h
      obtain ⟨rest, hl, h⟩ := bind_eq_ok_iff.mp h
      have hrest := ih hl fun c hc => himp c (List.mem_cons_of_mem _ hc)
      rw [himp a List.mem_cons_self b hb, hrest]
      exact h

variable {p q : Program}

theorem code_eq_ok_iff {bytes : List UInt8} :
    p.code = .ok bytes ↔
      ∃ blocks, p.zipIdx.mapM p.codeAt = .ok blocks ∧ blocks.flatten = bytes := by
  unfold code
  cases p.zipIdx.mapM p.codeAt <;> simp [Except.map]

/-- In front of another program an item comes to what it comes to by itself. -/
theorem codeAt_append_left {i : Located Item} {n : Nat} (hi : p[n]? = some i) {bytes : List UInt8}
    (h : p.codeAt (i, n) = .ok bytes) (q : Program) : codeAt (p ++ q) (i, n) = .ok bytes := by
  have hn : n ≤ p.length := (List.getElem?_eq_some_iff.mp hi).1.le
  rw [codeAt] at h ⊢
  rw [addressAt_append_left hn]
  refine Item.code_of_more_labels h fun name address hname => ?_
  rw [address?_append, hname]
  rfl

/-- Behind another program an item comes to what it comes to by itself, if it moves no label and
the other program has none of its labels. -/
theorem codeAt_append_right {i : Located Item} {n : Nat} (hi : q[n]? = some i) {bytes : List UInt8}
    (h : q.codeAt (i, n) = .ok bytes) (hdisjoint : ∀ name, p.Declares name → ¬ q.Declares name)
    (hmoves : ¬ i.value.MovesLabel) (hunits : p.units + q.units ≤ 2 ^ 32 - 2) :
    codeAt (p ++ q) (i, p.length + n) = .ok bytes := by
  have hq : q.units < 2 ^ 32 := by omega
  have hends : units (q.take n) + i.value.units ≤ q.units := units_take_add_le hi
  rw [codeAt] at h ⊢
  rw [addressAt_append_right]
  refine Item.code_advance h hmoves ?_ fun name address hname => ?_
  · rw [toNat_addressAt hq]
    omega
  · have hnone : p.address? name = none :=
      address?_eq_none_iff.mpr fun hp => hdisjoint name hp (declares_of_address? hname)
    have haddress := toNat_le_of_address? hq hname
    refine ⟨by omega, ?_⟩
    rw [address?_append, hnone, hname]
    rfl

/-- **Programs one behind the other.** The image of two programs, of which the second moves no
label and declares none of the first, is the image of the one and the image of the other. -/
theorem code_append {first second : List UInt8} (hp : p.code = .ok first)
    (hq : q.code = .ok second) (hdisjoint : ∀ name, p.Declares name → ¬ q.Declares name)
    (hmoves : ∀ i ∈ q, ¬ i.value.MovesLabel) (hunits : p.units + q.units ≤ 2 ^ 32 - 2) :
    code (p ++ q) = .ok (first ++ second) := by
  obtain ⟨blocks, hblocks, rfl⟩ := code_eq_ok_iff.mp hp
  obtain ⟨blocks', hblocks', rfl⟩ := code_eq_ok_iff.mp hq
  have hfirst : p.zipIdx.mapM (codeAt (p ++ q)) = .ok blocks := by
    refine mapM_eq_ok_of_imp hblocks ?_
    rintro ⟨i, n⟩ hmem bytes hbytes
    exact codeAt_append_left (List.mem_zipIdx_iff_getElem?.mp hmem) hbytes q
  have hsecond : (q.zipIdx p.length).mapM (codeAt (p ++ q)) = .ok blocks' := by
    rw [List.zipIdx_eq_map_add, List.mapM_map]
    refine mapM_eq_ok_of_imp hblocks' ?_
    rintro ⟨i, n⟩ hmem bytes hbytes
    have hi : q[n]? = some i := List.mem_zipIdx_iff_getElem?.mp hmem
    exact codeAt_append_right hi hbytes hdisjoint (hmoves i (List.mem_of_getElem? hi)) hunits
  refine code_eq_ok_iff.mpr ⟨blocks ++ blocks', ?_, List.flatten_append⟩
  rw [List.zipIdx_append, List.mapM_append, Nat.zero_add, hfirst, hsecond]
  rfl

end Program

/-! ## The program in a text -/

/-- The program that a text holds: what is heard of it. -/
def Program.ofSource (source : List Char) : Program :=
  match scan source with
  | .error _ => []
  | .ok tokens =>
    match Transcript.pass.run tokens .empty with
    | .ok _ s => s.result.calls
    | .error _ s => s.result.calls

section Sources

variable {source : List Char} {tokens : List Token} {p : Program}

theorem Program.ofSource_eq (hscan : scan source = .ok tokens) (hphrase : ProgramPhrase tokens p) :
    ofSource source = p := by
  obtain ⟨s, hrun, hcalls⟩ := Transcript.exists_run_iff.mpr hphrase
  unfold ofSource
  simp only [hscan, hrun]
  exact hcalls

/-- A text is assembled if its tokens form statements whose items have an image. -/
theorem assembleSource_of_phrase (hscan : scan source = .ok tokens)
    (hphrase : ProgramPhrase tokens p) {bytes : List UInt8} (hcode : p.code = .ok bytes) :
    ∃ binary, assembleSource source = .ok binary ∧ binary.symbols.address? = p.address? ∧
      binary.image.toList = bytes := by
  have hassemble := assembleTokens_of_phrase hphrase
  rw [hcode] at hassemble
  obtain ⟨binary, hbinary, hsymbols, himage⟩ := hassemble
  exact ⟨binary, assembleSource_eq_ok_iff.mpr ⟨tokens, hscan, hbinary⟩, hsymbols, himage⟩

/-- A text that is assembled holds a program with this image and these labels. -/
theorem exists_phrase_of_assembleSource {binary : Binary} (h : assembleSource source = .ok binary) :
    ∃ tokens, scan source = .ok tokens ∧ ProgramPhrase tokens (Program.ofSource source) ∧
      (Program.ofSource source).code = .ok binary.image.toList ∧
      binary.symbols.address? = (Program.ofSource source).address? := by
  obtain ⟨tokens, hscan, hbinary⟩ := assembleSource_eq_ok_iff.mp h
  have hassemble := assembleTokens_eq tokens
  cases hend : (Reading.ofTokens tokens).problem? with
  | some problem =>
      simp only [hend] at hassemble
      rw [hbinary] at hassemble
      cases hassemble
  | none =>
      simp only [hend] at hassemble
      have hphrase : ProgramPhrase tokens (Reading.ofTokens tokens).items :=
        Reading.ofTokens_finished_iff.mp ⟨hend, rfl⟩
      rw [Program.ofSource_eq hscan hphrase]
      cases hcode : Program.code (Reading.ofTokens tokens).items with
      | error problem =>
          rw [hcode] at hassemble
          rw [hbinary] at hassemble
          cases hassemble
      | ok bytes =>
          rw [hcode] at hassemble
          obtain ⟨found, hfound, hsymbols, rfl⟩ := hassemble
          rw [hbinary] at hfound
          cases hfound
          exact ⟨tokens, hscan, hphrase, rfl, hsymbols⟩

end Sources

/-! ## Tokens that have moved -/

/-- The names are the same, be it at different places. -/
def SameName : NameRelation := fun n n' => n'.value = n.value

theorem SameName.faithful : SameName.Faithful := by
  intro n n' m m' hn hm
  rw [hn, hm]

theorem Token.renamed_of_view {names : List (Located String)} {t u : Token}
    (h : u.view = t.view) : t.Renamed SameName names u where
  kind := congrArg Prod.fst h
  name _ := congrArg Prod.snd h
  plain _ := congrArg (folded ∘ Prod.snd) h

/-- Tokens that stand elsewhere keep their names. -/
theorem renamed_of_views {names : List (Located String)} {tokens tokens' : List Token}
    (h : tokens'.map Token.view = tokens.map Token.view) :
    List.Forall₂ (Token.Renamed SameName names) tokens tokens' := by
  have hpairs :
      List.Forall₂ (fun t u => t = u) (tokens'.map Token.view) (tokens.map Token.view) := by
    rw [h]
    exact List.forall₂_same.mpr fun _ _ => rfl
  rw [List.forall₂_map_left_iff, List.forall₂_map_right_iff] at hpairs
  exact hpairs.flip.imp fun _ _ => Token.renamed_of_view

/-- Tokens that stand elsewhere form the same statements. -/
theorem ProgramPhrase.of_views {tokens tokens' : List Token} {p : Program}
    (h : ProgramPhrase tokens p) (hnodup : (tokens.map Token.name).Nodup)
    (hviews : tokens'.map Token.view = tokens.map Token.view) :
    ∃ p', ProgramPhrase tokens' p' ∧ Program.Corresponds SameName p p' :=
  h.renamed hnodup (renamed_of_views hviews)

/-! ## Assembling apart -/

/-- The names in a symbol table with their addresses as numbers. -/
def Symbols.numbers (s : Symbols) : List (String × Nat) :=
  s.toList.map fun (name, address) => (name, address.toNat)

/-- The labels of two programs one behind the other are the labels of the one, and the labels of the
other moved by what the one takes. -/
theorem Symbols.toList_perm_append {p q : Program} {a b c : Symbols}
    (ha : a.address? = p.address?) (hb : b.address? = q.address?)
    (hc : c.address? = Program.address? (p ++ q))
    (hdisjoint : ∀ name, p.Declares name → ¬ q.Declares name) :
    c.toList.Perm
      (a.toList ++ b.toList.map fun (name, address) => (name, address.advance p.units)) := by
  have hnames : (b.toList.map fun (name, address) => (name, address.advance p.units)).map Prod.fst =
      b.toList.map Prod.fst := by
    rw [List.map_map]
    rfl
  refine toList_perm ?_ fun name address => ?_
  · rw [List.map_append, hnames]
    refine List.nodup_append'.mpr ⟨a.nodup_names, b.nodup_names, fun name hfirst hsecond => ?_⟩
    exact hdisjoint name (Program.declares_of_mem_names ha hfirst)
      (Program.declares_of_mem_names hb hsecond)
  · have hmoved : (name, address) ∈
        (b.toList.map fun (name, address) => (name, address.advance p.units)) ↔
          ∃ old, q.address? name = some old ∧ old.advance p.units = address := by
      simp only [List.mem_map, Prod.mk.injEq, Prod.exists, mem_toList_iff, hb]
      constructor
      · rintro ⟨other, old, hold, rfl, rfl⟩
        exact ⟨old, hold, rfl⟩
      · rintro ⟨old, hold, rfl⟩
        exact ⟨name, old, hold, rfl, rfl⟩
    rw [List.mem_append, hmoved, mem_toList_iff, ha, hc, Program.address?_append]
    cases hfirst : p.address? name with
    | none => simp
    | some found =>
        -- the name is declared in the first program, so the second has no address for it
        have hnone : q.address? name = none :=
          Program.address?_eq_none_iff.mpr (hdisjoint name (Program.declares_of_address? hfirst))
        simp [hnone]

/-- As numbers, the addresses of the second program grow by what the first takes. -/
theorem Symbols.numbers_perm_append {p q : Program} {a b c : Symbols}
    (ha : a.address? = p.address?) (hb : b.address? = q.address?)
    (hc : c.address? = Program.address? (p ++ q))
    (hdisjoint : ∀ name, p.Declares name → ¬ q.Declares name)
    (hunits : p.units + q.units < 2 ^ 32) :
    c.numbers.Perm (a.numbers ++ b.numbers.map fun (name, n) => (name, n + p.units)) := by
  have hperm := (toList_perm_append ha hb hc hdisjoint).map fun (name, address) =>
    (name, address.toNat)
  have hmoved : (b.toList.map fun (name, address) => (name, address.advance p.units)).map
        (fun (name, address) => (name, address.toNat)) =
      b.numbers.map fun (name, n) => (name, n + p.units) := by
    unfold numbers
    rw [List.map_map, List.map_map]
    refine List.map_inj_left.mpr ?_
    rintro ⟨name, address⟩ hmem
    rw [mem_toList_iff, hb] at hmem
    have hle : address.toNat ≤ q.units := Program.toNat_le_of_address? (by omega) hmem
    have hadvance : (address.advance p.units).toNat = address.toNat + p.units :=
      Address.toNat_advance (by omega)
    exact congrArg (Prod.mk name) hadvance
  rw [List.map_append, hmoved] at hperm
  exact hperm

/-- **Texts can be assembled apart.** If two texts are assembled, no label is declared in both, the
second moves no label into a register and there are addresses for both, then the two with a line
feed between them are assembled: to the image of the one and the image of the other, with the labels
of the one, and the labels of the other moved by the addresses that the one takes. -/
theorem assembleSource_append {first second : List Char} {a b : Binary}
    (ha : assembleSource first = .ok a) (hb : assembleSource second = .ok b)
    (hdisjoint : ∀ name, (Program.ofSource first).Declares name →
      ¬ (Program.ofSource second).Declares name)
    (hmoves : ∀ i ∈ Program.ofSource second, ¬ i.value.MovesLabel)
    (hunits : (Program.ofSource first).units + (Program.ofSource second).units ≤ 2 ^ 32 - 2) :
    ∃ c, assembleSource (first ++ '\n' :: second) = .ok c ∧ c.image = a.image ++ b.image ∧
      c.symbols.numbers.Perm (a.symbols.numbers ++
        b.symbols.numbers.map fun (name, n) => (name, n + (Program.ofSource first).units)) := by
  obtain ⟨u, hscan, hphrase, hcode, hsymbols⟩ := exists_phrase_of_assembleSource ha
  obtain ⟨v, hscan', hphrase', hcode', hsymbols'⟩ := exists_phrase_of_assembleSource hb
  generalize Program.ofSource first = p at *
  generalize Program.ofSource second = q at *
  -- the tokens of the second text, at other places than before
  obtain ⟨v', hjoined, hv⟩ := scan_lines hscan hscan'
  obtain ⟨p', hp', hp⟩ := hphrase.of_views (nodup_names_of_scan hscan) rfl
  obtain ⟨q', hq', hq⟩ := hphrase'.of_views (nodup_names_of_scan hscan') hv
  have hsame : Program.Corresponds SameName (p ++ q) (p' ++ q') := List.rel_append hp hq
  have haddress : Program.address? (p' ++ q') = Program.address? (p ++ q) := by
    funext name
    have hname : SameName ⟨name, .point 0⟩ ⟨name, .point 0⟩ := rfl
    exact hsame.address? SameName.faithful hname
  have hbytes : Program.code (p' ++ q') = .ok (a.image.toList ++ b.image.toList) := by
    have houtcome := hsame.code SameName.faithful
    rw [Program.code_append hcode hcode' hdisjoint hmoves hunits] at houtcome
    generalize Program.code (p' ++ q') = outcome at houtcome
    cases houtcome
    rfl
  obtain ⟨c, hc, hlabels, himage⟩ := assembleSource_of_phrase hjoined (hp'.append hq') hbytes
  have hjoin : c.image = a.image ++ b.image := by
    rw [← Array.toList_inj, himage, Array.toList_append]
  exact ⟨c, hc, hjoin, Symbols.numbers_perm_append hsymbols hsymbols' (hlabels.trans haddress)
    hdisjoint (by omega)⟩

/-- The tokens of a branch to itself, whose label is `name`. -/
def selfBranchTokens (name : String) : List Token :=
  [⟨.word, name, ⟨0, 1⟩⟩, ⟨.colon, ":", ⟨1, 2⟩⟩, ⟨.word, "B", ⟨3, 4⟩⟩, ⟨.word, name, ⟨5, 6⟩⟩]

/-- The items of a branch to itself. -/
def selfBranch (name : String) : Program :=
  [⟨.label name, ⟨0, 1⟩⟩, ⟨.branch .always false (.label ⟨name, ⟨5, 6⟩⟩), ⟨3, 6⟩⟩]

theorem selfBranchTokens_phrase (name : String) :
    ProgramPhrase (selfBranchTokens name) (selfBranch name) :=
  .cons
    (.labelled rfl rfl rfl
      (.instruction (m := ⟨.branch, .always, none⟩) (by decide) (.label rfl)))
    .nil

/-- The first text ends inside a comment. -/
theorem assembleSource_selfBranches :
    ∃ a b c, assembleSource "a: B a # end".toList = .ok a ∧
      assembleSource "b: B b".toList = .ok b ∧
      assembleSource "a: B a # end\nb: B b".toList = .ok c ∧
      c.image.toList = [0xfe, 0xff, 0xff, 0xea, 0xfe, 0xff, 0xff, 0xea] ∧
      c.symbols.numbers.Perm
        (a.symbols.numbers ++ b.symbols.numbers.map fun (name, n) => (name, n + 1)) := by
  have hscan : scan "a: B a # end".toList = .ok (selfBranchTokens "a") := by cbv
  have hscan' : scan "b: B b".toList = .ok (selfBranchTokens "b") := by cbv
  have hfirst := Program.ofSource_eq hscan (selfBranchTokens_phrase "a")
  have hsecond := Program.ofSource_eq hscan' (selfBranchTokens_phrase "b")
  have hcode : (selfBranch "a").code = .ok [0xfe, 0xff, 0xff, 0xea] := by rfl
  have hcode' : (selfBranch "b").code = .ok [0xfe, 0xff, 0xff, 0xea] := by rfl
  have hdeclares (name other : String) : (selfBranch name).Declares other ↔ name = other := by
    simp [Program.Declares, selfBranch]
  have hunits (name : String) : (selfBranch name).units = 1 := rfl
  obtain ⟨a, ha, -, himage⟩ :=
    assembleSource_of_phrase hscan (selfBranchTokens_phrase "a") hcode
  obtain ⟨b, hb, -, himage'⟩ :=
    assembleSource_of_phrase hscan' (selfBranchTokens_phrase "b") hcode'
  have hdisjoint : ∀ name, (selfBranch "a").Declares name → ¬ (selfBranch "b").Declares name := by
    intro name hname hname'
    rw [hdeclares] at hname hname'
    rw [← hname'] at hname
    exact absurd hname (by decide)
  have hmoves : ∀ i ∈ selfBranch "b", ¬ i.value.MovesLabel := by
    intro i hi
    rintro ⟨condition, register, name, hload⟩
    simp only [selfBranch, List.mem_cons, List.not_mem_nil, or_false] at hi
    rcases hi with rfl | rfl <;> cases hload
  have hjoined := assembleSource_append ha hb
  rw [hfirst, hsecond, hunits, hunits] at hjoined
  obtain ⟨c, hc, hbytes, hnumbers⟩ := hjoined hdisjoint hmoves (by decide)
  refine ⟨a, b, c, ha, hb, hc, ?_, hnumbers⟩
  rw [hbytes, Array.toList_append, himage, himage']
  rfl

end ArmAssembly
