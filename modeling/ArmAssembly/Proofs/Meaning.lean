import ArmAssembly.Placement
import ArmAssembly.Proofs.Reading
import Mathlib

set_option autoImplicit false

/-! # What a program means

A program is the list of its items. Its meaning is given here in one piece, with no passes and
no state: the address of an item is the number of addresses that the items before it take, a
label stands for the address of its first declaration, and the image is what the items come to
one after the other, each in the light of all labels (`Program.code`).
-/

namespace ArmAssembly

/-- A program as it reaches the passes: its items in the order in which they are written. -/
abbrev Program : Type := List (Located Item)

namespace Program

/-- How many addresses the items of a program take. -/
def units (p : Program) : Nat := (p.map fun i => i.value.units).sum

/-- The address of the item with index `n`: what the items before it take, modulo 2 ^ 32. -/
def addressAt (p : Program) (n : Nat) : Address := .ofNat (units (p.take n))

/-- The address of a label: that of its first declaration. -/
def address? (p : Program) (name : String) : Option Address :=
  (p.findIdx? fun i => i.value = .label name).map p.addressAt

/-- The program declares the name as a label. -/
def Declares (p : Program) (name : String) : Prop := ∃ i ∈ p, i.value = .label name

@[simp] theorem units_nil : units [] = 0 := rfl

@[simp] theorem units_singleton (i : Located Item) : units [i] = i.value.units := by
  simp [units]

@[simp] theorem units_append (p q : Program) : units (p ++ q) = units p + units q := by
  simp [units]

@[simp] theorem declares_append (p q : Program) (name : String) :
    Declares (p ++ q) name ↔ p.Declares name ∨ q.Declares name := by
  simp [Declares, or_and_right, exists_or]

@[simp] theorem declares_singleton (i : Located Item) (name : String) :
    Declares [i] name ↔ i.value = .label name := by
  simp [Declares]

theorem addressAt_length (p q : Program) : addressAt (p ++ q) p.length = .ofNat p.units := by
  simp [addressAt]

end Program

theorem Address.ofNat_advance (m n : Nat) :
    (Address.ofNat m).advance n = Address.ofNat (m + n) := by
  simp [advance, ofNat, BitVec.ofNat_add]

namespace Program

theorem address?_eq_none_iff {p : Program} {name : String} :
    p.address? name = none ↔ ¬ p.Declares name := by
  simp [address?, Declares, List.findIdx?_eq_none_iff]

theorem declares_of_address? {p : Program} {name : String} {address : Address}
    (h : p.address? name = some address) : p.Declares name := by
  by_contra hnot
  rw [address?_eq_none_iff.mpr hnot] at h
  cases h

/-- A label of `p ++ q` has its address in `p`, or it has its address in `q`, moved by the
addresses that `p` takes. -/
theorem address?_append (p q : Program) (name : String) :
    address? (p ++ q) name
      = (p.address? name).or ((q.address? name).map fun a => a.advance p.units) := by
  rw [address?, List.findIdx?_append]
  cases hp : List.findIdx? (fun i => i.value = .label name) p with
  | some n =>
      -- what stands before the declaration is the same in `p ++ q`
      have hn : n < p.length := (List.findIdx?_eq_some_iff_getElem.mp hp).1
      have htake : (p ++ q).take n = p.take n := List.take_append_of_le_length (by omega)
      simp [address?, hp, addressAt, htake]
  | none =>
      cases hq : List.findIdx? (fun i => i.value = .label name) q with
      | none => simp [address?, hp, hq]
      | some n =>
          -- all of `p` stands before the declaration, and then what `q` has there
          have htake : (p ++ q).take (n + p.length) = p ++ q.take n := by
            rw [Nat.add_comm, List.take_length_add_append]
          simp [address?, hp, hq, addressAt, htake, Address.ofNat_advance, Nat.add_comm]

theorem address?_label (i : Located Item) (name : String) :
    address? [i] name = if i.value = .label name then some (.ofNat 0) else none := by
  by_cases h : i.value = .label name <;> simp [address?, addressAt, h]

end Program

namespace Item

/-- How far `destination` lies behind the address two beyond a branch at `here`. -/
def branchDistance (here destination : Address) : Int :=
  destination.toNat - ((here.toNat + 2) % 2 ^ 32 : Nat)

/-- The distance fits into a branch. -/
def BranchReaches (distance : Int) : Prop := -2 ^ 23 ≤ distance ∧ distance < 2 ^ 23

instance (distance : Int) : Decidable (BranchReaches distance) :=
  inferInstanceAs (Decidable (_ ∧ _))

/-- The byte at which a label lies in memory, if each address before it holds four bytes. -/
def labelByte (address : Address) : Nat := 0x8000 + 4 * address.toNat

/-- The item at `here` can be assembled when the labels have the addresses `labels`. -/
def Resolves (labels : String → Option Address) (here : Address) : Item → Prop
  | branch _ _ (.label name) =>
    ∃ destination, labels name.value = some destination ∧
      BranchReaches (branchDistance here destination)
  | loadLabel _ _ name =>
    ∃ address, labels name.value = some address ∧ labelByte address < 2 ^ 16
  | _ => True

/-- What the item at `here` comes to in the image, or why it comes to nothing. -/
def code (labels : String → Option Address) (here : Address) :
    Item → Except Problem (List UInt8)
  | label _ => .ok []
  | instruction i => .ok (littleEndian i.encode)
  | branch condition link (.offset field) =>
    .ok (littleEndian (Instruction.encode ⟨condition, .branch link field⟩))
  | branch condition link (.label name) =>
    match labels name.value with
    | none => .error ⟨.undefinedLabel name.value, name.span⟩
    | some destination =>
      let distance := branchDistance here destination
      if BranchReaches distance then
        .ok (littleEndian (Instruction.encode ⟨condition, .branch link (.ofInt 24 distance)⟩))
      else .error ⟨.unencodable (.tooWide (toString distance) .branchTarget), name.span⟩
  | loadLabel condition destination name =>
    match labels name.value with
    | none => .error ⟨.undefinedLabel name.value, name.span⟩
    | some address =>
      let byte := labelByte address
      if byte < 2 ^ 16 then
        .ok (littleEndian
          (Instruction.encode ⟨condition, .moveWide .bottom destination (.ofNat 16 byte)⟩))
      else .error ⟨.unencodable (.tooWide ("0x" ++ upperHex byte) .labelAddress), name.span⟩
  | data block => .ok block.image

theorem code_isOk_iff (labels : String → Option Address) (here : Address) (item : Item) :
    (∃ bytes, item.code labels here = .ok bytes) ↔ item.Resolves labels here := by
  cases item with
  | label name => simp [code, Resolves]
  | instruction i => simp [code, Resolves]
  | data block => simp [code, Resolves]
  | branch condition link target =>
      cases target with
      | offset field => simp [code, Resolves]
      | label name =>
          simp only [code, Resolves]
          cases hlabel : labels name.value with
          | none => simp
          | some d =>
              by_cases h : BranchReaches (branchDistance here d) <;> simp [h]
  | loadLabel condition destination name =>
      simp only [code, Resolves]
      cases hlabel : labels name.value with
      | none => simp
      | some a =>
          simp only [Option.some.injEq, exists_eq_left']
          by_cases h : labelByte a < 2 ^ 16
          · rw [if_pos h]
            exact ⟨fun _ => h, fun _ => ⟨_, rfl⟩⟩
          · rw [if_neg h]
            exact ⟨nofun, fun hlt => absurd hlt h⟩

/-! ### Items that can be refused

Only a label that is used can be in the way of an item, and then the problem is reported where its
name stands. -/

/-- The label that an item uses. -/
def used? : Item → Option (Located String)
  | branch _ _ (.label name) => some name
  | loadLabel _ _ name => some name
  | _ => none

/-- What can be wrong with a label that is used: it has no address, the distance to the address is
too far for a branch, or the byte that it lies at is too far for a register. -/
inductive Unusable (name : Located String) : Cause → Prop where
  | undefined : Unusable name (.undefinedLabel name.value)
  | unreachable (distance : Int) :
      Unusable name (.unencodable (.tooWide (toString distance) .branchTarget))
  | unloadable (byte : Nat) :
      Unusable name (.unencodable (.tooWide ("0x" ++ upperHex byte) .labelAddress))

/-- An item comes to nothing only over the label that it uses. -/
theorem exists_used_of_code_eq_error {labels : String → Option Address} {here : Address}
    {item : Item} {problem : Problem} (h : item.code labels here = .error problem) :
    ∃ name, item.used? = some name ∧ problem.span = name.span ∧ Unusable name problem.cause := by
  -- a branch or a move fails over its label: it has no address, or one too far away
  cases item with
  | label name | instruction i | data block => cases h
  | branch condition link target =>
      cases target with
      | offset field => cases h
      | label name =>
          refine ⟨name, rfl, ?_⟩
          simp only [code] at h
          cases hlabel : labels name.value with
          | none =>
              rw [hlabel] at h
              cases h
              exact ⟨rfl, .undefined⟩
          | some destination =>
              rw [hlabel] at h
              by_cases hreaches : BranchReaches (branchDistance here destination)
              · simp only [if_pos hreaches] at h
                cases h
              · simp only [if_neg hreaches] at h
                cases h
                exact ⟨rfl, .unreachable _⟩
  | loadLabel condition destination name =>
      refine ⟨name, rfl, ?_⟩
      simp only [code] at h
      cases hlabel : labels name.value with
      | none =>
          rw [hlabel] at h
          cases h
          exact ⟨rfl, .undefined⟩
      | some address =>
          rw [hlabel] at h
          by_cases hfits : labelByte address < 2 ^ 16
          · simp only [if_pos hfits] at h
            cases h
          · simp only [if_neg hfits] at h
            cases h
            exact ⟨rfl, .unloadable _⟩

end Item

/-- A chain of two steps succeeds just if the first does, and the second with its result. -/
theorem bind_eq_ok_iff {ε α β : Type} {x : Except ε α} {k : α → Except ε β} {b : β} :
    (x >>= k) = .ok b ↔ ∃ a, x = .ok a ∧ k a = .ok b := by
  cases x with
  | error e => exact iff_of_false nofun nofun
  | ok a =>
      constructor
      · intro h
        exact ⟨a, rfl, h⟩
      · rintro ⟨_, ⟨⟩, h⟩
        exact h

namespace Program

/-- What the item with index `n` comes to. -/
def codeAt (p : Program) : Located Item × Nat → Except Problem (List UInt8)
  | (i, n) => i.value.code p.address? (p.addressAt n)

/-- The image of a program, or the problem of the first item that comes to nothing. -/
def code (p : Program) : Except Problem (List UInt8) :=
  (p.zipIdx.mapM p.codeAt).map List.flatten

theorem mapM_eq_ok_iff {α β : Type} (f : α → Except Problem β) (l : List α) :
    (∃ bs, l.mapM f = .ok bs) ↔ ∀ a ∈ l, ∃ b, f a = .ok b := by
  induction l with
  | nil => simp [pure, Except.pure]
  | cons a l ih =>
      rw [List.mapM_cons, List.forall_mem_cons, ← ih]
      cases f a with
      | error problem => simp [bind, Except.bind]
      | ok b => cases l.mapM f <;> simp [bind, Except.bind, pure, Except.pure]

theorem exists_of_mapM_eq_error {α β : Type} {f : α → Except Problem β} {l : List α}
    {problem : Problem} (h : l.mapM f = .error problem) :
    ∃ done a todo, l = done ++ a :: todo ∧ (∀ x ∈ done, ∃ b, f x = .ok b) ∧
      f a = .error problem := by
  induction l with
  | nil => cases h
  | cons a l ih =>
      rw [List.mapM_cons] at h
      cases ha : f a with
      | error e =>
          rw [ha] at h
          cases h
          exact ⟨[], a, l, rfl, by simp, ha⟩
      | ok b =>
          -- the first element is in order, so the failure is behind it
          rw [ha] at h
          cases hl : l.mapM f with
          | ok bs => rw [hl] at h; cases h
          | error e =>
              rw [hl] at h
              cases h
              obtain ⟨done, x, todo, rfl, hdone, hx⟩ := ih hl
              exact ⟨a :: done, x, todo, rfl, List.forall_mem_cons.mpr ⟨⟨b, ha⟩, hdone⟩, hx⟩

theorem mapM_eq_ok_map {α β : Type} {f : α → Except Problem β} {g : α → β} {l : List α}
    (h : ∀ a ∈ l, f a = .ok (g a)) : l.mapM f = .ok (l.map g) := by
  induction l with
  | nil => rfl
  | cons a l ih =>
      rw [List.mapM_cons, h a List.mem_cons_self, ih fun b hb => h b (List.mem_cons_of_mem _ hb)]
      rfl

/-- The image of a program whose items come to the same bytes wherever they stand. -/
theorem code_eq_flatMap {p : Program} {bytes : Item → List UInt8}
    (h : ∀ i ∈ p, ∀ labels here, i.value.code labels here = .ok (bytes i.value)) :
    p.code = .ok ((p.map Located.value).flatMap bytes) := by
  have hblocks : p.zipIdx.mapM p.codeAt = .ok (p.zipIdx.map fun entry => bytes entry.1.value) := by
    refine mapM_eq_ok_map fun entry hentry => ?_
    obtain ⟨i, n⟩ := entry
    exact h i (List.fst_mem_of_mem_zipIdx hentry) _ _
  have hvalues : (p.zipIdx.map fun entry => bytes entry.1.value) =
      (p.map Located.value).map bytes := by
    rw [← List.zipIdx_map_fst 0 p, List.map_map, List.map_map]
    simp
  rw [code, hblocks, hvalues]
  rfl

/-- A program has an image just if every item can be assembled. -/
theorem code_isOk_iff (p : Program) :
    (∃ bytes, p.code = .ok bytes) ↔
      ∀ (n : Nat) (i : Located Item), p[n]? = some i →
        i.value.Resolves p.address? (p.addressAt n) := by
  have hmap : (∃ bytes, p.code = .ok bytes) ↔ ∃ blocks, p.zipIdx.mapM p.codeAt = .ok blocks := by
    unfold code
    cases p.zipIdx.mapM p.codeAt <;> simp [Except.map]
  rw [hmap, mapM_eq_ok_iff]
  simp only [Prod.forall, List.mem_zipIdx_iff_getElem?, codeAt, Item.code_isOk_iff]
  exact forall_comm

/-- A program without an image has a first item that cannot be assembled. -/
theorem exists_of_code_eq_error {p : Program} {problem : Problem} (h : p.code = .error problem) :
    ∃ (n : Nat) (i : Located Item), p[n]? = some i ∧
      (∀ (m : Nat) (j : Located Item), m < n → p[m]? = some j →
        j.value.Resolves p.address? (p.addressAt m)) ∧
      i.value.code p.address? (p.addressAt n) = .error problem := by
  unfold code at h
  cases hblocks : p.zipIdx.mapM p.codeAt with
  | ok blocks => rw [hblocks] at h; cases h
  | error e =>
      rw [hblocks] at h
      cases h
      obtain ⟨done, ⟨i, n⟩, todo, hsplit, hdone, hi⟩ := exists_of_mapM_eq_error hblocks
      -- the entry behind `done` is the item with the index `done.length`
      have hat : ∀ m : Nat, p.zipIdx[m]? = (p[m]?).map fun j => (j, m) := by
        intro m
        simp [List.getElem?_zipIdx]
      have hn : p[done.length]? = some i ∧ done.length = n := by
        have hhere := hat done.length
        rw [hsplit] at hhere
        rw [List.getElem?_append_right (Nat.le_refl _), Nat.sub_self] at hhere
        obtain ⟨j, hj, heq⟩ := Option.map_eq_some_iff.mp hhere.symm
        cases heq
        exact ⟨hj, rfl⟩
      obtain ⟨hhere, rfl⟩ := hn
      refine ⟨done.length, i, hhere, ?_, hi⟩
      intro m j hm hj
      rw [← Item.code_isOk_iff]
      refine hdone (j, m) ?_
      have hmem : p.zipIdx[m]? = some (j, m) := by rw [hat, hj]; rfl
      rw [hsplit, List.getElem?_append_left hm] at hmem
      exact List.mem_of_getElem? hmem

end Program

end ArmAssembly
