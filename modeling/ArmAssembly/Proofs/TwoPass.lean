import ArmAssembly.File.Host
import ArmAssembly.Proofs.Meaning
import ArmAssembly.Proofs.Scanning

set_option autoImplicit false

/-! # Two passes and one meaning

The first pass finds for every label the address that the program gives it
(`Layout.foldl_add`). The second pass, with these addresses, comes item by item to what the
program means (`Placement.takeAll_eq`). So assembling a source text is reading it, and then
taking its meaning (`assembleSource_refines_meaning`).
-/

namespace ArmAssembly

/-! ## The first pass -/

theorem Symbols.address?_empty (name : String) : Symbols.empty.address? name = none := by
  simp [address?, find?, empty]

theorem Symbols.contains_eq_isSome_find? (s : Symbols) (name : String) :
    s.contains name = (s.find? name).isSome :=
  Std.TreeMap.contains_eq_isSome_getElem?

/-- The first definition of a name counts. -/
theorem Symbols.find?_define (s : Symbols) (name other : String) (d : Definition) :
    (s.define name d).2.find? other
      = (s.find? other).or (if name = other then some d else none) := by
  by_cases hname : s.contains name = true
  · -- the name is there already, so nothing changes
    by_cases h : name = other
    · subst h
      have hsome : (s.find? name).isSome = true := s.contains_eq_isSome_find? name ▸ hname
      obtain ⟨e, he⟩ := Option.isSome_iff_exists.mp hsome
      simp [define, hname, he]
    · simp [define, hname, h]
  · by_cases h : name = other
    · subst h
      have hnone : s.find? name = none := by
        rw [← Option.not_isSome_iff_eq_none, ← s.contains_eq_isSome_find?]
        exact hname
      rw [hnone]
      simp [define, hname, find?]
    · simp [define, hname, find?, Std.TreeMap.getElem?_insert, h]

theorem Symbols.address?_define (s : Symbols) (name other : String) (d : Definition) :
    (s.define name d).2.address? other
      = (s.address? other).or (if name = other then some d.address else none) := by
  rw [address?, find?_define, Option.map_or, address?]
  split <;> rfl

namespace Layout

theorem takeAll_eq (p : Program) (layout : Layout) :
    Layout.pass.takeAll p layout = .ok (p.foldl add layout) := by
  induction p generalizing layout with
  | nil => rfl
  | cons i p ih => exact ih (layout.add i)

/-- The first pass counts addresses, and gives each label the address of its first
declaration. -/
theorem foldl_add (p : Program) :
    (p.foldl add .initial).address = .ofNat p.units ∧
      ∀ name, (p.foldl add .initial).symbols.address? name = p.address? name := by
  induction p using List.reverseRecOn with
  | nil => exact ⟨rfl, Symbols.address?_empty⟩
  | append_singleton p i ih =>
      obtain ⟨haddress, hsymbols⟩ := ih
      -- the last item adds its addresses, and at most one label, which lies behind all of `p`
      rw [List.foldl_append, List.foldl_cons, List.foldl_nil]
      set layout := p.foldl add .initial with hlayout
      have hlabel : ∀ name, (Program.address? [i] name).map (fun a => a.advance (Program.units p))
          = if i.value = .label name then some layout.address else none := by
        intro name
        rw [Program.address?_label, haddress]
        split <;> simp [Address.ofNat_advance]
      simp only [Program.address?_append, hlabel, Program.units_append, Program.units_singleton,
        ← Address.ofNat_advance, ← haddress, ← hsymbols]
      unfold add
      split
      · next name hname =>
          simp only [hname, Item.label.injEq]
          exact ⟨by simp [Item.units, Address.advance],
            fun other => Symbols.address?_define _ _ other _⟩
      · next hother =>
          have hne : ∀ name, i.value ≠ .label name := hother
          simp [hne]

end Layout

/-! ## The second pass

Between two items the second pass stands at the address that the items before take, and has
marked the labels that they declare (`Placement.Follows`). -/

/-- A field of 24 bits holds every distance that a branch can reach. -/
theorem toInt_ofInt_of_branchReaches {distance : Int} (h : Item.BranchReaches distance) :
    (BitVec.ofInt 24 distance).toInt = distance := by
  obtain ⟨hlow, hhigh⟩ := h
  rw [BitVec.toInt_ofInt]
  exact Int.bmod_eq_of_le (by omega) (by omega)

namespace Placement

theorem distanceFrom_advance (here destination : Address) :
    destination.distanceFrom (here.advance 2) = Item.branchDistance here destination := by
  simp [Address.distanceFrom, Address.advance, Address.toNat, Item.branchDistance,
    BitVec.toNat_add]

theorem ofSigned_eq (n : Int) :
    (Item.BranchReaches n → Field.ofSigned n = .ok (.ofInt 24 n)) ∧
      (¬ Item.BranchReaches n → ∃ e, Field.ofSigned n = .error e) := by
  unfold Item.BranchReaches Field.ofSigned
  constructor
  · rintro ⟨hlow, hhigh⟩
    rw [if_neg (by omega), if_neg (by omega)]
  · intro hout
    by_cases hlow : n < -0x800000
    · exact ⟨_, if_pos hlow⟩
    · exact ⟨_, by rw [if_neg hlow, if_pos (by omega)]⟩

theorem branchField_label (symbols : Symbols) (here : Address) (name : Located String) :
    branchField symbols here (.label name) = match symbols.address? name.value with
      | none => .error ⟨.undefinedLabel name.value, name.span⟩
      | some destination =>
        let distance := Item.branchDistance here destination
        if Item.BranchReaches distance then .ok (.ofInt 24 distance)
        else .error ⟨.unencodable (.tooWide (toString distance) .branchTarget), name.span⟩ := by
  cases hname : symbols.address? name.value with
  | none =>
      simp only [branchField, resolve, hname]
      rfl
  | some destination =>
      obtain ⟨hfits, hout⟩ := ofSigned_eq (Item.branchDistance here destination)
      simp only [branchField, resolve, hname, bind, Except.bind, distanceFrom_advance]
      by_cases h : Item.BranchReaches (Item.branchDistance here destination)
      · rw [hfits h, if_pos h]
      · obtain ⟨e, he⟩ := hout h
        rw [he, if_neg h]
        rfl

theorem ofNat?_eq (w n : Nat) :
    Field.ofNat? w n = if n < 2 ^ w then some (BitVec.ofNat w n) else none := by
  unfold Field.ofNat?
  simp only [Nat.pow_eq]
  by_cases h : n < 2 ^ w
  · rw [dif_pos h, if_pos h, BitVec.ofNatLT_eq_ofNat]
  · rw [dif_neg h, if_neg h]

theorem labelValue_eq (symbols : Symbols) (name : Located String) :
    labelValue symbols name = match symbols.address? name.value with
      | none => .error ⟨.undefinedLabel name.value, name.span⟩
      | some address =>
        let byte := Item.labelByte address
        if byte < 2 ^ 16 then .ok (.ofNat 16 byte)
        else .error ⟨.unencodable (.tooWide ("0x" ++ upperHex byte) .labelAddress), name.span⟩ := by
  cases hname : symbols.address? name.value with
  | none =>
      simp only [labelValue, resolve, hname]
      rfl
  | some address =>
      have hbyte : loadAddress + 4 * address.toNat = Item.labelByte address := rfl
      simp only [labelValue, resolve, hname, bind, Except.bind, hbyte, ofNat?_eq]
      by_cases h : Item.labelByte address < 2 ^ 16
      · rw [if_pos h, if_pos h]
      · rw [if_neg h, if_neg h]
        rfl

/-- An entry in the listing stands for `bytes` in the image and takes `units` addresses. -/
def Yields (e : Entry) (bytes : List UInt8) (units : Nat) : Prop :=
  e.image = bytes ∧ e.units = units

/-- What an item that declares no label comes to is decided by its meaning. -/
theorem entry?_eq (symbols : Symbols) (p : Placement) (i : Located Item)
    (hlabel : ∀ name, i.value ≠ .label name) :
    match i.value.code symbols.address? p.address with
    | .ok bytes => ∃ e, p.entry? symbols i = .ok (some e) ∧ Yields e bytes i.value.units
    | .error problem => p.entry? symbols i = .error problem := by
  obtain ⟨item, span⟩ := i
  cases item with
  | label name => exact absurd rfl (hlabel name)
  | instruction i => exact ⟨_, rfl, rfl, rfl⟩
  | data block => exact ⟨_, rfl, rfl, rfl⟩
  | branch condition link target =>
      cases target with
      | offset field => exact ⟨_, rfl, rfl, rfl⟩
      | label name =>
          simp only [Item.code, entry?, branchField_label]
          cases hname : symbols.address? name.value with
          | none => rfl
          | some destination =>
              by_cases h : Item.BranchReaches (Item.branchDistance p.address destination)
              · simp only [if_pos h]
                exact ⟨_, rfl, rfl, rfl⟩
              · simp only [if_neg h]
                rfl
  | loadLabel condition destination name =>
      simp only [Item.code, entry?, labelValue_eq]
      cases hname : symbols.address? name.value with
      | none => rfl
      | some address =>
          by_cases h : Item.labelByte address < 2 ^ 16
          · simp only [if_pos h]
            exact ⟨_, rfl, rfl, rfl⟩
          · simp only [if_neg h]
            rfl

theorem bind_pure_eq_ok_iff {α β : Type} {x : Except Problem α} {f : α → β} {b : β} :
    (x >>= fun a => pure (f a)) = .ok b ↔ ∃ a, x = .ok a ∧ f a = b := by
  simp only [bind_eq_ok_iff, pure, Except.pure, Except.ok.injEq]

/-- A branch has an entry just if its field can be filled. -/
theorem entry?_branch_eq_ok_iff {symbols : Symbols} {p : Placement} {condition : Condition}
    {link : Bool} {target : Target} {span : Span} {o : Option Entry} :
    p.entry? symbols ⟨.branch condition link target, span⟩ = .ok o ↔
      ∃ field, branchField symbols p.address target = .ok field ∧
        some (instructionEntry p.address ⟨condition, .branch link field⟩ span) = o :=
  bind_pure_eq_ok_iff

/-- A label is loaded just if the byte that it lies at fits into the instruction. -/
theorem entry?_loadLabel_eq_ok_iff {symbols : Symbols} {p : Placement} {condition : Condition}
    {destination : Register} {name : Located String} {span : Span} {o : Option Entry} :
    p.entry? symbols ⟨.loadLabel condition destination name, span⟩ = .ok o ↔
      ∃ value, labelValue symbols name = .ok value ∧
        some (instructionEntry p.address ⟨condition, .moveWide .bottom destination value⟩ span) =
          o :=
  bind_pure_eq_ok_iff

/-- Where the second pass stands after the items `done`. -/
structure Follows (done : Program) (p : Placement) : Prop where
  address : p.address = .ofNat done.units
  declared : ∀ name, p.declared.contains name = true ↔ done.Declares name

theorem follows_initial : Follows [] initial where
  address := rfl
  declared name := by simp [initial, Program.Declares]

theorem contains_declare (p : Placement) (i : Located Item) (name : String) :
    (p.declare i).declared.contains name = true
      ↔ p.declared.contains name = true ∨ i.value = .label name := by
  unfold declare
  split
  · next other hother =>
      simp only [hother, Std.TreeSet.contains_insert, Bool.or_eq_true, beq_iff_eq,
        Std.LawfulEqCmp.compare_eq_iff_eq, Item.label.injEq]
      exact or_comm
  · next hother =>
      have hne : i.value ≠ .label name := hother name
      simp [hne]

theorem Follows.append {done : Program} {p : Placement} {i : Located Item} {e : Entry}
    (hp : Follows done p) (hunits : e.units = i.value.units) :
    Follows (done ++ [i]) ((p.declare i).append e) where
  address := by
    have haddress : (p.declare i).address = p.address := by
      unfold declare
      split <;> rfl
    simp [Placement.append, haddress, hp.address, hunits, Address.ofNat_advance]
  declared name := by
    show (p.declare i).declared.contains name = true ↔ _
    rw [contains_declare, hp.declared, Program.declares_append, Program.declares_singleton]

/-- A label that the program has declared already changes nothing. -/
theorem Follows.of_declared {done : Program} {p : Placement} {i : Located Item} {name : String}
    (hp : Follows done p) (hi : i.value = .label name) (hname : done.Declares name) :
    Follows (done ++ [i]) p where
  address := by simp [hi, Item.units, hp.address]
  declared other := by
    simp only [hp.declared, Program.declares_append, Program.declares_singleton, hi,
      Item.label.injEq]
    constructor
    · exact Or.inl
    · rintro (h | rfl)
      · exact h
      · exact hname

/-- **One item in the second pass.** With the addresses that the program gives its labels, an
item adds its meaning to the image or ends the pass with its problem. -/
theorem pass_eq {symbols : Symbols} {done todo : Program} {i : Located Item} {p : Placement}
    (hsymbols : symbols.address? = Program.address? (done ++ i :: todo))
    (hp : Follows done p) :
    match i.value.code symbols.address? p.address with
    | .ok bytes => ∃ q, pass symbols i p = .ok () q ∧ Follows (done ++ [i]) q ∧
        q.image.toList = p.image.toList ++ bytes
    | .error problem => ∃ q, pass symbols i p = .error problem q := by
  -- only a label may change what is declared, and no label comes to bytes
  by_cases hlabel : ∃ name, i.value = .label name
  · obtain ⟨name, hi⟩ := hlabel
    simp only [hi, Item.code, pass, entry?]
    by_cases hname : done.Declares name
    · rw [if_pos ((hp.declared name).mpr hname)]
      exact ⟨p, rfl, hp.of_declared hi hname, by simp⟩
    · -- the first declaration: here is where the first pass found the label
      have haddress : symbols.address? name = some p.address := by
        rw [hsymbols, List.append_cons, Program.address?_append, Program.address?_append,
          Program.address?_eq_none_iff.mpr hname, Program.address?_label, if_pos hi, hp.address]
        simp [Address.ofNat_advance]
      rw [if_neg (fun h => hname ((hp.declared name).mp h))]
      simp only [labelEntry, haddress, if_true, Except.map]
      refine ⟨_, rfl, hp.append (by rw [hi]; rfl), ?_⟩
      simp [Placement.append, declare, hi, Entry.image]
  · have hother : ∀ name, i.value ≠ .label name := fun name hi => hlabel ⟨name, hi⟩
    have hentry := entry?_eq symbols p i hother
    have hdeclare : p.declare i = p := by
      unfold declare
      split
      · next name hi => exact absurd hi (hother name)
      · rfl
    cases hcode : i.value.code symbols.address? p.address with
    | error problem =>
        rw [hcode] at hentry
        exact ⟨p.declare i, by simp only [pass, hentry]⟩
    | ok bytes =>
        rw [hcode] at hentry
        obtain ⟨e, he, hbytes, hunits⟩ := hentry
        refine ⟨(p.declare i).append e, by simp only [pass, he], hp.append hunits, ?_⟩
        simp [Placement.append, hdeclare, hbytes]

/-- **A run of the second pass.** What is left of a program comes to its meaning, or to the
first problem in it. -/
theorem takeAll_eq {symbols : Symbols} (done : Program) {todo : Program} {p : Placement}
    (hsymbols : symbols.address? = Program.address? (done ++ todo)) (hp : Follows done p) :
    match (todo.zipIdx done.length).mapM (Program.codeAt (done ++ todo)) with
    | .ok blocks => ∃ q, (pass symbols).takeAll todo p = .ok q ∧
        q.image.toList = p.image.toList ++ blocks.flatten
    | .error problem => (pass symbols).takeAll todo p = .error problem := by
  -- `Follows` carries the induction: what is done decides where the pass stands
  induction todo generalizing done p with
  | nil => exact ⟨p, rfl, by simp⟩
  | cons i todo ih =>
      have hstep := pass_eq hsymbols hp
      have hhead : Program.codeAt (done ++ i :: todo) (i, done.length)
          = i.value.code symbols.address? p.address := by
        rw [Program.codeAt, Program.addressAt_length, hsymbols, hp.address]
      rw [List.zipIdx_cons, List.mapM_cons, hhead]
      cases hcode : i.value.code symbols.address? p.address with
      | error problem =>
          rw [hcode] at hstep
          obtain ⟨q, hq⟩ := hstep
          simp only [bind, Except.bind, Pass.takeAll, hq]
      | ok bytes =>
          rw [hcode] at hstep
          obtain ⟨q, hq, hfollows, himage⟩ := hstep
          have hrest := ih (done ++ [i]) (by simpa using hsymbols) hfollows
          simp only [List.length_append, List.length_singleton, List.append_assoc,
            List.singleton_append] at hrest
          simp only [bind, Except.bind, pure, Except.pure, Pass.takeAll, hq]
          cases hblocks : (todo.zipIdx (done.length + 1)).mapM
              (Program.codeAt (done ++ i :: todo)) with
          | error problem =>
              rw [hblocks] at hrest
              exact hrest
          | ok blocks =>
              rw [hblocks] at hrest
              obtain ⟨r, hr, hrimage⟩ := hrest
              exact ⟨r, hr, by simp [hrimage, himage]⟩

/-- The second pass over a whole program has its meaning as the image. -/
theorem takeAll_initial {symbols : Symbols} {p : Program}
    (hsymbols : symbols.address? = p.address?) :
    match p.code with
    | .ok bytes => ∃ q, (pass symbols).takeAll p initial = .ok q ∧ q.image.toList = bytes
    | .error problem => (pass symbols).takeAll p initial = .error problem := by
  have hrun := takeAll_eq [] hsymbols follows_initial
  simp only [List.length_nil, List.nil_append] at hrun
  unfold Program.code
  cases hblocks : p.zipIdx.mapM p.codeAt with
  | error problem =>
      rw [hblocks] at hrun
      exact hrun
  | ok blocks =>
      rw [hblocks] at hrun
      obtain ⟨q, hq, himage⟩ := hrun
      exact ⟨q, hq, by simpa [initial] using himage⟩

end Placement

/-! ## The assembler

The first pass fails only if reading does. If it does not, then the second pass meets the same items
and has the symbols of the whole program, as the meaning asks for. -/

/-- Assembling tokens is reading them, and then taking the meaning of what was read. -/
theorem assembleTokens_eq (tokens : List Token) :
    let program : Program := (Reading.ofTokens tokens).items
    match (Reading.ofTokens tokens).problem? with
    | some problem => assembleTokens tokens = .error problem
    | none => match program.code with
      | .error problem => assembleTokens tokens = .error problem
      | .ok bytes => ∃ binary, assembleTokens tokens = .ok binary ∧
          binary.symbols.address? = program.address? ∧ binary.image.toList = bytes := by
  intro program
  set layout := program.foldl Layout.add .initial with hlayout
  have hsymbols : layout.symbols.address? = program.address? :=
    funext (Layout.foldl_add program).2
  cases hend : (Reading.ofTokens tokens).problem? with
  | some problem =>
      -- the first pass fails already, whatever the labels are
      have hfirst : layoutOf tokens = .error problem := by
        rw [layoutOf, Pass.outcome_run, Layout.takeAll_eq, hend]
        rfl
      simp only [assembleTokens, hfirst]
      rfl
  | none =>
      -- the second pass reads the same items, now with the addresses of the labels
      have hfirst : layoutOf tokens = .ok layout := by
        rw [layoutOf, Pass.outcome_run, Layout.takeAll_eq, hend]
        rfl
      have hsecond : placementOf layout.symbols tokens
          = (Placement.pass layout.symbols).takeAll program .initial := by
        rw [placementOf, Pass.outcome_run, hend]
        cases (Placement.pass layout.symbols).takeAll program .initial <;> rfl
      have hrun := Placement.takeAll_initial hsymbols
      cases hcode : program.code with
      | error problem =>
          rw [hcode] at hrun
          simp only [assembleTokens, hfirst, hsecond, bind, Except.bind, hrun]
      | ok bytes =>
          rw [hcode] at hrun
          obtain ⟨p, hp, himage⟩ := hrun
          simp only [assembleTokens, hfirst, hsecond, bind, Except.bind, hp]
          exact ⟨_, rfl, hsymbols, himage⟩

theorem assembleSource_eq_ok_iff {source : List Char} {binary : Binary} :
    assembleSource source = .ok binary ↔
      ∃ tokens, scan source = .ok tokens ∧ assembleTokens tokens = .ok binary := by
  unfold assembleSource assemble
  cases hscan : scan source with
  | error problem => simp [bind, Except.bind]
  | ok tokens => cases h : assembleTokens tokens <;> simp [bind, Except.bind, h]

theorem assembleSource_eq_error_iff {source : List Char} {failure : Failure} :
    assembleSource source = .error failure ↔
      ∃ problem, failure = problem.failure source ∧
        (scan source = .error problem ∨
          ∃ tokens, scan source = .ok tokens ∧ assembleTokens tokens = .error problem) := by
  unfold assembleSource assemble
  cases hscan : scan source with
  | error problem => simp [bind, Except.bind, eq_comm]
  | ok tokens => cases h : assembleTokens tokens <;> simp [bind, Except.bind, h, eq_comm]

theorem Symbols.mem_toList_iff (s : Symbols) (name : String) (address : Address) :
    (name, address) ∈ s.toList ↔ s.address? name = some address := by
  simp only [toList, List.mem_map, Prod.mk.injEq, Prod.exists, address?, find?,
    Option.map_eq_some_iff, Std.TreeMap.mem_toList_iff_getElem?_eq_some]
  constructor
  · rintro ⟨other, d, hd, rfl, rfl⟩
    exact ⟨d, hd, rfl⟩
  · rintro ⟨d, hd, rfl⟩
    exact ⟨name, d, hd, rfl, rfl⟩

theorem Symbols.nodup_names (s : Symbols) : (s.toList.map Prod.fst).Nodup := by
  rw [toList, List.map_map]
  refine List.pairwise_map.mpr (s.definitions.distinct_keys_toList.imp fun hne heq => hne ?_)
  exact Std.LawfulEqCmp.compare_eq_iff_eq.mpr heq

/-- A symbol table lists the names that have an address, in an order of its own. -/
theorem Symbols.toList_perm {s : Symbols} {pairs : List (String × Address)}
    (hnodup : (pairs.map Prod.fst).Nodup)
    (hpairs : ∀ name address, (name, address) ∈ pairs ↔ s.address? name = some address) :
    s.toList.Perm pairs := by
  refine (List.perm_ext_iff_of_nodup s.nodup_names.of_map hnodup.of_map).mpr ?_
  rintro ⟨name, address⟩
  rw [s.mem_toList_iff, hpairs]

/-- The names in the symbol table of a program are those that it declares. -/
theorem Program.declares_of_mem_names {p : Program} {symbols : Symbols}
    (hsymbols : symbols.address? = p.address?) {name : String}
    (hname : name ∈ symbols.toList.map Prod.fst) : p.Declares name := by
  obtain ⟨⟨_, address⟩, hmem, rfl⟩ := List.mem_map.mp hname
  rw [Symbols.mem_toList_iff, hsymbols] at hmem
  exact Program.declares_of_address? hmem

end ArmAssembly
