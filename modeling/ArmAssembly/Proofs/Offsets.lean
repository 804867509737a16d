import ArmAssembly.Proofs.Entries

set_option autoImplicit false

/-! # Addresses and offsets

Addresses count statements, while the processor counts bytes. The two go together as long as every
address holds four bytes, but a block of bytes takes one address whatever its length. So the offset
in the image is four times the address, and what the blocks of bytes before have in excess of four
(`Placement.Passes.size`). A label that is moved into a register, or that a branch goes to, is where
the program looks for it just if this excess is none, or the same for the branch and its label
(`offset_eq_address_add_excess`).
-/

namespace ArmAssembly

/-! ## Excess

Every item but a block of bytes has four bytes for each address that it takes. The excess of a block
is what it has more than these, and it is negative if it has less. -/

/-- How many bytes an item has in excess of four for each of its addresses. -/
def Item.excess : Item → Int
  | data (.bytes contents) => contents.length - 4
  | _ => 0

namespace Program

/-- The excess of the items of a program, all together. -/
def excess (p : Program) : Int := (p.map fun i => i.value.excess).sum

/-- Every block of bytes in the program has four of them. -/
def FillsAddresses (p : Program) : Prop :=
  ∀ i ∈ p, ∀ contents, i.value = .data (.bytes contents) → contents.length = 4

theorem excess_append_singleton (p : Program) (i : Located Item) :
    excess (p ++ [i]) = excess p + i.value.excess := by
  simp [excess]

theorem FillsAddresses.excess_take {p : Program} (h : p.FillsAddresses) (n : Nat) :
    excess (p.take n) = 0 := by
  refine List.sum_eq_zero fun k hk => ?_
  obtain ⟨i, hi, rfl⟩ := List.mem_map.mp hk
  have hmem : i ∈ p := List.mem_of_mem_take hi
  unfold Item.excess
  split
  · next contents hvalue => simp [h i hmem contents hvalue]
  · rfl

end Program

theorem Block.length_image_words (contents : List (BitVec 32)) :
    (words contents).image.length = 4 * contents.length := by
  simp [image, List.length_flatMap, littleEndian, Nat.mul_comm]

namespace Item

variable {labels : String → Option Address} {here : Address} {bytes : List UInt8}

/-- A branch that comes to bytes reaches its label, by the distance in its field. -/
theorem exists_of_code_branch {condition : Condition} {link : Bool} {name : Located String}
    (h : (branch condition link (.label name)).code labels here = .ok bytes) :
    ∃ destination, labels name.value = some destination ∧
      BranchReaches (branchDistance here destination) ∧
      bytes = littleEndian (Instruction.encode
        ⟨condition, .branch link (.ofInt 24 (branchDistance here destination))⟩) := by
  simp only [code] at h
  cases hname : labels name.value with
  | none =>
      rw [hname] at h
      cases h
  | some destination =>
      rw [hname] at h
      by_cases hreaches : BranchReaches (branchDistance here destination)
      · simp only [if_pos hreaches] at h
        cases h
        exact ⟨destination, rfl, hreaches, rfl⟩
      · simp only [if_neg hreaches] at h
        cases h

/-- A move of a label that comes to bytes has the number for the label in its field. -/
theorem exists_of_code_loadLabel {condition : Condition} {register : Register}
    {name : Located String}
    (h : (loadLabel condition register name).code labels here = .ok bytes) :
    ∃ address, labels name.value = some address ∧ labelByte address < 2 ^ 16 ∧
      bytes = littleEndian (Instruction.encode
        ⟨condition, .moveWide .bottom register (.ofNat 16 (labelByte address))⟩) := by
  simp only [code] at h
  cases hname : labels name.value with
  | none =>
      rw [hname] at h
      cases h
  | some address =>
      rw [hname] at h
      by_cases hfits : labelByte address < 2 ^ 16
      · simp only [if_pos hfits] at h
        cases h
        exact ⟨address, rfl, hfits, rfl⟩
      · simp only [if_neg hfits] at h
        cases h

/-- An item comes to four bytes for each of its addresses, and its excess. -/
theorem length_code {item : Item} (h : item.code labels here = .ok bytes) :
    (bytes.length : Int) = 4 * item.units + item.excess := by
  -- each item has four bytes for an address, and a block of bytes what it holds
  cases item with
  | label name | instruction i =>
      cases h
      rfl
  | data block =>
      cases h
      cases block with
      | bytes contents =>
          simp only [units, excess, Block.units, Block.image]
          omega
      | words contents =>
          simp only [units, excess, Block.units, Block.length_image_words]
          omega
  | branch condition link target =>
      cases target with
      | offset field =>
          cases h
          rfl
      | label name =>
          obtain ⟨destination, -, -, rfl⟩ := exists_of_code_branch h
          rfl
  | loadLabel condition destination name =>
      obtain ⟨address, -, -, rfl⟩ := exists_of_code_loadLabel h
      rfl

end Item

/-! ## The second pass on its way

The pass is stopped before an item, to compare the image with the address there. What has been
assembled by then does not change any more, and what comes behind it only makes the image longer. -/

namespace Placement

/-- The second pass goes over `done` and stands at `here`, and `todo` takes it from there to
`last`. -/
structure Passes (symbols : Symbols) (done todo : Program) (here last : Placement) : Prop where
  taken : (pass symbols).takeAll done initial = .ok here
  left : (pass symbols).takeAll todo here = .ok last
  follows : Follows done here
  /-- The image has four bytes for each address, and the excess. -/
  size : (here.image.size : Int) = 4 * Program.units done + Program.excess done

variable {symbols : Symbols} {done todo : Program} {i : Located Item} {here last : Placement}

/-- An item that is taken comes to bytes, which are put at the end of the image. -/
theorem exists_code_of_pass {p q : Placement}
    (hsymbols : symbols.address? = Program.address? (done ++ i :: todo)) (hp : Follows done p)
    (h : pass symbols i p = .ok () q) :
    ∃ bytes, i.value.code symbols.address? p.address = .ok bytes ∧
      q.image.toList = p.image.toList ++ bytes := by
  have hstep := pass_eq hsymbols hp
  cases hcode : i.value.code symbols.address? p.address with
  | error problem =>
      rw [hcode] at hstep
      obtain ⟨r, hr⟩ := hstep
      rw [h] at hr
      cases hr
  | ok bytes =>
      rw [hcode] at hstep
      obtain ⟨r, hr, -, himage⟩ := hstep
      rw [h] at hr
      cases hr
      exact ⟨bytes, rfl, himage⟩

/-- **One item on the way.** -/
theorem Passes.next (h : Passes symbols done (i :: todo) here last)
    (hsymbols : symbols.address? = Program.address? (done ++ i :: todo)) :
    ∃ bytes there, i.value.code symbols.address? here.address = .ok bytes ∧
      Passes symbols (done ++ [i]) todo there last ∧
      there.image.toList = here.image.toList ++ bytes := by
  obtain ⟨there, hthere, hleft⟩ := Pass.takeAll_cons_eq_ok_iff.mp h.left
  obtain ⟨bytes, hcode, himage⟩ := exists_code_of_pass hsymbols h.follows hthere
  have htaken := Pass.takeAll_concat_eq_ok_iff.mpr ⟨here, h.taken, hthere⟩
  refine ⟨bytes, there, hcode, ⟨htaken, hleft, h.follows.pass hsymbols hthere, ?_⟩, himage⟩
  -- four bytes for each address of the item, and its excess
  have hlength := congrArg List.length himage
  rw [List.length_append, Array.length_toList, Array.length_toList] at hlength
  have hbytes := Item.length_code hcode
  have hsize := h.size
  rw [Program.units_append, Program.units_singleton, Program.excess_append_singleton]
  omega

/-- **A run.** The second pass of a program that is taken passes every point of it. -/
theorem exists_passes {p : Program} (hsymbols : symbols.address? = p.address?)
    (h : (pass symbols).takeAll p initial = .ok last) (hp : p = done ++ todo) :
    ∃ here, Passes symbols done todo here last := by
  induction done using List.reverseRecOn generalizing todo with
  | nil => exact ⟨initial, rfl, by rwa [hp] at h, follows_initial, rfl⟩
  | append_singleton done i ih =>
      rw [← List.append_cons] at hp
      obtain ⟨here, hhere⟩ := ih hp
      obtain ⟨-, there, -, hthere, -⟩ := hhere.next (by rw [hsymbols, hp])
      exact ⟨there, hthere⟩

/-- What is in the image stays there. -/
theorem Passes.image_isPrefix (h : Passes symbols done todo here last)
    (hsymbols : symbols.address? = Program.address? (done ++ todo)) :
    here.image.toList <+: last.image.toList := by
  induction todo generalizing done here with
  | nil =>
      cases h.left
      exact List.prefix_refl _
  | cons i todo ih =>
      obtain ⟨bytes, there, -, hthere, himage⟩ := h.next hsymbols
      have hrest := ih hthere (by simpa using hsymbols)
      rw [himage] at hrest
      exact (List.prefix_append _ _).trans hrest

end Placement

/-! ## Points of an assembled program -/

/-- Where the second pass of an assembled program stands before the item with index `n`: the
address that it has reached, and the image so far. -/
def Binary.placementAt (binary : Binary) (p : Program) (n : Nat) : Except Problem Placement :=
  (Placement.pass binary.symbols).takeAll (p.take n) .initial

/-- The index of the first declaration of a label. -/
def Program.declaration? (p : Program) (name : String) : Option Nat :=
  p.findIdx? fun i => i.value = .label name

namespace Placement

/-- The bytes come next in the image. -/
def Precedes (here : Placement) (bytes : List UInt8) (binary : Binary) : Prop :=
  here.image.toList ++ bytes <+: binary.image.toList

/-- The number is the place of the label in memory, when the image is loaded at `loadAddress`. -/
def LiesAt (label : Placement) (value : BitVec 16) : Prop :=
  value.toNat = loadAddress + label.image.size

/-- A branch with this field goes to the label, when the processor counts in bytes: a branch is
ahead of itself by eight of them, and its field counts words. -/
def BranchesTo (here label : Placement) (field : BitVec 24) : Prop :=
  (here.image.size : Int) + 8 + 4 * field.toInt = label.image.size

variable {here label : Placement} {destination : Address} {e e' : Int}

/-- A move loads the place of its label just if there is no excess before the label. -/
theorem liesAt_labelByte_iff (hfits : Item.labelByte destination < 2 ^ 16)
    (hlabel : (label.image.size : Int) = 4 * destination.toNat + e) :
    label.LiesAt (.ofNat 16 (Item.labelByte destination)) ↔ e = 0 := by
  rw [LiesAt, BitVec.toNat_ofNat, Nat.mod_eq_of_lt hfits, Item.labelByte, loadAddress]
  omega

/-- A branch goes to its label just if there is the same excess before both. The two addresses that
it is ahead of itself must not wrap around. -/
theorem branchesTo_branchDistance_iff (hroom : here.address.toNat + 2 < 2 ^ 32)
    (hreaches : Item.BranchReaches (Item.branchDistance here.address destination))
    (hhere : (here.image.size : Int) = 4 * here.address.toNat + e)
    (hlabel : (label.image.size : Int) = 4 * destination.toNat + e') :
    here.BranchesTo label (.ofInt 24 (Item.branchDistance here.address destination)) ↔ e = e' := by
  rw [BranchesTo, toInt_ofInt_of_branchReaches hreaches, Item.branchDistance,
    Nat.mod_eq_of_lt (by omega)]
  omega

end Placement

section Points

variable {source : List Char} {binary : Binary}

/-- The second pass stands somewhere before every item of an assembled program, and what it has put
into the image by then is four bytes for each address, and the excess. -/
theorem exists_placementAt (h : assembleSource source = .ok binary)
    (hunits : (Program.ofSource source).units ≤ 2 ^ 32 - 2) (n : Nat) :
    ∃ here, binary.placementAt (Program.ofSource source) n = .ok here ∧
      here.address = (Program.ofSource source).addressAt n ∧
      (here.image.size : Int) =
        4 * here.address.toNat + Program.excess ((Program.ofSource source).take n) := by
  obtain ⟨last, htaken, -, -⟩ := exists_takeAll_of_assembleSource h
  obtain ⟨-, -, -, -, hsymbols⟩ := exists_phrase_of_assembleSource h
  generalize Program.ofSource source = p at *
  obtain ⟨here, hhere⟩ :=
    Placement.exists_passes hsymbols htaken (List.take_append_drop n p).symm
  have haddress : here.address = p.addressAt n := hhere.follows.address
  refine ⟨here, hhere.taken, haddress, ?_⟩
  rw [haddress, Program.toNat_addressAt (by omega)]
  exact hhere.size

/-- The item with index `n` comes to bytes, and they stand in the image where the second pass is
before the item. -/
theorem exists_bytesAt (h : assembleSource source = .ok binary) {n : Nat} {i : Located Item}
    (hi : (Program.ofSource source)[n]? = some i) {here : Placement}
    (hhere : binary.placementAt (Program.ofSource source) n = .ok here) :
    ∃ bytes, i.value.code binary.symbols.address? here.address = .ok bytes ∧
      here.Precedes bytes binary := by
  obtain ⟨last, htaken, himage, -⟩ := exists_takeAll_of_assembleSource h
  obtain ⟨-, -, -, -, hsymbols⟩ := exists_phrase_of_assembleSource h
  generalize Program.ofSource source = p at *
  obtain ⟨hn, hget⟩ := List.getElem?_eq_some_iff.mp hi
  have hsplit : p = p.take n ++ i :: p.drop (n + 1) := by
    rw [← hget, List.getElem_cons_drop, List.take_append_drop]
  obtain ⟨found, hfound⟩ := Placement.exists_passes hsymbols htaken hsplit
  have hsame : found = here := by
    have htwice := hfound.taken.symm.trans hhere
    cases htwice
    rfl
  -- the bytes of the item stand right behind the image that is there before it
  subst hsame
  obtain ⟨bytes, there, hcode, hthere, hgrown⟩ := hfound.next (by rw [hsymbols, ← hsplit])
  refine ⟨bytes, hcode, ?_⟩
  have hprefix := hthere.image_isPrefix (by rw [← List.append_cons, hsymbols, ← hsplit])
  rw [Placement.Precedes, ← hgrown, ← himage]
  exact hprefix

/-- A label with an address lies where it is declared first. -/
theorem exists_labelAt (h : assembleSource source = .ok binary)
    (hunits : (Program.ofSource source).units ≤ 2 ^ 32 - 2) {name : String} {address : Address}
    (hname : binary.symbols.address? name = some address) :
    ∃ m label, (Program.ofSource source).declaration? name = some m ∧
      binary.placementAt (Program.ofSource source) m = .ok label ∧ label.address = address ∧
      (label.image.size : Int) =
        4 * address.toNat + Program.excess ((Program.ofSource source).take m) := by
  obtain ⟨-, -, -, -, hsymbols⟩ := exists_phrase_of_assembleSource h
  rw [hsymbols] at hname
  obtain ⟨m, hm, rfl⟩ := Option.map_eq_some_iff.mp hname
  obtain ⟨label, hlabel, haddress, hsize⟩ := exists_placementAt h hunits m
  rw [haddress] at hsize
  exact ⟨m, label, hm, hlabel, haddress, hsize⟩

end Points

/-- **The offset in the image is four times the address, and the excess.** In a program that is
assembled and leaves room for the two addresses by which a branch is ahead of itself, this holds
before every item, and so for every label. A move of a label loads the place at which the label lies
just if the blocks before the label have no excess; a branch, counted in bytes, goes to its label
just if the excess before the branch is that before the label. Where all blocks of bytes have four
of them, moves and branches always find their labels. -/
theorem offset_eq_address_add_excess {source : List Char} {binary : Binary}
    (h : assembleSource source = .ok binary)
    (hunits : (Program.ofSource source).units ≤ 2 ^ 32 - 2) :
    let p := Program.ofSource source
    (∀ (n : Nat) (i : Located Item), p[n]? = some i →
      ∃ here bytes, binary.placementAt p n = .ok here ∧
        i.value.code binary.symbols.address? here.address = .ok bytes ∧
        here.Precedes bytes binary ∧
        (here.image.size : Int) = 4 * here.address.toNat + Program.excess (p.take n)) ∧
    (∀ (name : String) (address : Address), binary.symbols.address? name = some address →
      ∃ m label, p.declaration? name = some m ∧ binary.placementAt p m = .ok label ∧
        label.address = address ∧
        (label.image.size : Int) = 4 * address.toNat + Program.excess (p.take m)) ∧
    (∀ (n : Nat) (span : Span) (condition : Condition) (register : Register)
      (name : Located String), p[n]? = some ⟨.loadLabel condition register name, span⟩ →
      ∃ m here label value, p.declaration? name.value = some m ∧
        binary.placementAt p n = .ok here ∧ binary.placementAt p m = .ok label ∧
        here.Precedes
          (littleEndian (Instruction.encode ⟨condition, .moveWide .bottom register value⟩)) binary ∧
        (label.LiesAt value ↔ Program.excess (p.take m) = 0) ∧
        (p.FillsAddresses → label.LiesAt value)) ∧
    ∀ (n : Nat) (span : Span) (condition : Condition) (link : Bool) (name : Located String),
      p[n]? = some ⟨.branch condition link (.label name), span⟩ →
      ∃ m here label field, p.declaration? name.value = some m ∧
        binary.placementAt p n = .ok here ∧ binary.placementAt p m = .ok label ∧
        here.Precedes (littleEndian (Instruction.encode ⟨condition, .branch link field⟩)) binary ∧
        (here.BranchesTo label field ↔
          Program.excess (p.take n) = Program.excess (p.take m)) ∧
        (p.FillsAddresses → here.BranchesTo label field) := by
  dsimp only
  refine ⟨?_, fun name address hname => exists_labelAt h hunits hname, ?_, ?_⟩
  · intro n i hi
    obtain ⟨here, hhere, -, hsize⟩ := exists_placementAt h hunits n
    obtain ⟨bytes, hcode, hnext⟩ := exists_bytesAt h hi hhere
    exact ⟨here, bytes, hhere, hcode, hnext, hsize⟩
  · intro n span condition register name hi
    obtain ⟨here, hhere, -, -⟩ := exists_placementAt h hunits n
    obtain ⟨bytes, hcode, hnext⟩ := exists_bytesAt h hi hhere
    obtain ⟨address, hname, hfits, rfl⟩ := Item.exists_of_code_loadLabel hcode
    obtain ⟨m, label, hm, hlabel, -, hsize⟩ := exists_labelAt h hunits hname
    have hlies := Placement.liesAt_labelByte_iff hfits hsize
    exact ⟨m, here, label, _, hm, hhere, hlabel, hnext, hlies,
      fun hfills => hlies.mpr (hfills.excess_take m)⟩
  · intro n span condition link name hi
    obtain ⟨here, hhere, haddress, hsize⟩ := exists_placementAt h hunits n
    obtain ⟨bytes, hcode, hnext⟩ := exists_bytesAt h hi hhere
    obtain ⟨destination, hname, hreaches, rfl⟩ := Item.exists_of_code_branch hcode
    obtain ⟨m, label, hm, hlabel, -, hsize'⟩ := exists_labelAt h hunits hname
    -- the branch takes an address itself
    have hroom : here.address.toNat + 1 ≤ (Program.ofSource source).units := by
      have hends := Program.units_take_add_le hi
      rw [haddress, Program.toNat_addressAt (by omega)]
      exact hends
    have hgoes := Placement.branchesTo_branchDistance_iff (by omega) hreaches hsize hsize'
    refine ⟨m, here, label, _, hm, hhere, hlabel, hnext, hgoes, fun hfills => hgoes.mpr ?_⟩
    rw [hfills.excess_take, hfills.excess_take]

/-- The tokens of a branch over a block of three bytes to a move of its own place. -/
def shortBlockTokens : List Token :=
  [⟨.word, "B", ⟨0, 1⟩⟩, ⟨.word, "x", ⟨2, 3⟩⟩,
    ⟨.word, "byte", ⟨4, 8⟩⟩, ⟨.equals, "=", ⟨9, 10⟩⟩, ⟨.hexNumber, "0x010203", ⟨11, 19⟩⟩,
    ⟨.word, "x", ⟨20, 21⟩⟩, ⟨.colon, ":", ⟨21, 22⟩⟩, ⟨.word, "MOVl", ⟨23, 27⟩⟩,
    ⟨.word, "R0", ⟨28, 30⟩⟩, ⟨.comma, ",", ⟨30, 31⟩⟩, ⟨.word, "x", ⟨32, 33⟩⟩]

/-- The items of a branch over a block of three bytes to a move of its own place. -/
def shortBlock : Program :=
  [⟨.branch .always false (.label ⟨"x", ⟨2, 3⟩⟩), ⟨0, 3⟩⟩, ⟨.data (.bytes [1, 2, 3]), ⟨4, 19⟩⟩,
    ⟨.label "x", ⟨20, 21⟩⟩, ⟨.loadLabel .always ⟨0⟩ ⟨"x", ⟨32, 33⟩⟩, ⟨23, 33⟩⟩]

theorem shortBlockTokens_phrase : ProgramPhrase shortBlockTokens shortBlock :=
  .cons (.plain rfl (.instruction (m := ⟨.branch, .always, none⟩) (by decide) (.label rfl)))
    (.cons (.plain rfl (.bytes (by decide) rfl (.intro rfl .done) (by decide)))
      (.cons
        (.labelled rfl rfl rfl
          (.instruction (m := ⟨.move, .always, some .label⟩) (by decide)
            (.label rfl (by decide) rfl rfl)))
        .nil))

/-- The label has the address 2 and lies at the byte 7, so the move behind a block of three bytes
does not load its place, and the branch over the block misses it. -/
theorem assembleSource_shortBlock :
    ∃ binary label, assembleSource "B x\nbyte = 0x010203\nx: MOVl R0, x".toList = .ok binary ∧
      binary.placementAt shortBlock 2 = .ok label ∧ label.address = .ofNat 2 ∧
      label.image.size = 7 ∧
      (∃ here field, binary.placementAt shortBlock 0 = .ok here ∧
        here.Precedes (littleEndian (Instruction.encode ⟨.always, .branch false field⟩)) binary ∧
        ¬ here.BranchesTo label field) ∧
      ∃ here value, binary.placementAt shortBlock 3 = .ok here ∧
        here.Precedes
          (littleEndian (Instruction.encode ⟨.always, .moveWide .bottom ⟨0⟩ value⟩)) binary ∧
        ¬ label.LiesAt value := by
  have hscan : scan "B x\nbyte = 0x010203\nx: MOVl R0, x".toList = .ok shortBlockTokens := by cbv
  have hprogram := Program.ofSource_eq hscan shortBlockTokens_phrase
  obtain ⟨bytes, hcode⟩ : ∃ bytes, shortBlock.code = .ok bytes := ⟨_, rfl⟩
  obtain ⟨binary, hbinary, hsymbols, -⟩ :=
    assembleSource_of_phrase hscan shortBlockTokens_phrase hcode
  have hx : binary.symbols.address? "x" = some (.ofNat 2) := by
    rw [hsymbols]
    rfl
  have hfirst : shortBlock.declaration? "x" = some 2 := rfl
  have hshort : Program.excess (shortBlock.take 2) = -1 := rfl
  have hagree := offset_eq_address_add_excess hbinary
  rw [hprogram] at hagree
  obtain ⟨-, hlabels, hmoves, hbranches⟩ := hagree (by decide)
  obtain ⟨_, label, hm, hlabel, haddress, hsize⟩ := hlabels "x" _ hx
  obtain ⟨_, here, found, field, hm', hhere, hfound, hnext, hgoes, -⟩ := hbranches 0 _ _ _ _ rfl
  obtain ⟨_, before, moved, value, hm'', hbefore, hmoved, hnext', hlies, -⟩ :=
    hmoves 3 _ _ _ _ rfl
  rw [hfirst] at hm hm' hm''
  cases hm
  cases hm'
  cases hm''
  rw [hlabel] at hfound hmoved
  cases hfound
  cases hmoved
  rw [hshort] at hsize hgoes hlies
  have hoffset : label.image.size = 7 := Int.ofNat.inj hsize
  refine ⟨binary, label, hbinary, hlabel, haddress, hoffset, ⟨here, field, hhere, hnext, ?_⟩,
    before, value, hbefore, hnext', ?_⟩
  · rw [hgoes]
    decide
  · rw [hlies]
    decide

end ArmAssembly
