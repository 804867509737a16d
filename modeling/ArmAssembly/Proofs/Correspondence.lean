import ArmAssembly.Proofs.InStep

set_option autoImplicit false

/-! # Programs with other names

The names of labels are the only words of a program that mean nothing by themselves. Two items
correspond under a relation between names if they ask for the same, with names that the relation
pairs (`Located.Corresponds`). If the relation pairs equal names with equal names and different
ones with different ones, then programs that correspond have the same addresses
(`Program.Corresponds.address?`) and the same image, or they fail in the same way over names that
are paired (`Program.Corresponds.code`).
-/

namespace ArmAssembly

/-! ## Names

A name is kept with the place where it is written, because two texts may use one name for two labels
and tell them apart by place only. -/

/-- The names in an item: the one that it declares, or the one that it uses. -/
def Located.names (i : Located Item) : List (Located String) :=
  match i.value with
  | .label name => [⟨name, i.span⟩]
  | item => item.used?.toList

/-- The names in a program, declared and used. -/
def Program.names (p : Program) : List (Located String) := p.flatMap Located.names

@[simp] theorem Program.names_append (p q : Program) : names (p ++ q) = p.names ++ q.names :=
  List.flatMap_append

theorem Program.names_cons (i : Located Item) (p : Program) :
    names (i :: p) = i.names ++ p.names := List.flatMap_cons

theorem Program.names_singleton (i : Located Item) : names [i] = i.names :=
  List.append_nil i.names

/-- A relation between names. -/
abbrev NameRelation : Type := Located String → Located String → Prop

variable {N : NameRelation}

/-! ## Items that correspond

The relation between names is left open. It is a map of names where labels are renamed, and equality
up to places where a text is only laid out otherwise. -/

/-- The operations ask for the same, with names that are paired. -/
inductive Item.Corresponds (N : NameRelation) : Item → Item → Prop where
  | instruction (i : Instruction) : Corresponds N (.instruction i) (.instruction i)
  | offset (condition : Condition) (link : Bool) (field : BitVec 24) :
      Corresponds N (.branch condition link (.offset field))
        (.branch condition link (.offset field))
  | branch (condition : Condition) (link : Bool) {n n' : Located String} (names : N n n') :
      Corresponds N (.branch condition link (.label n)) (.branch condition link (.label n'))
  | loadLabel (condition : Condition) (destination : Register) {n n' : Located String}
      (names : N n n') :
      Corresponds N (.loadLabel condition destination n) (.loadLabel condition destination n')
  | data (block : Block) : Corresponds N (.data block) (.data block)

/-- The items ask for the same, with names that are paired, be it from different places. -/
inductive Located.Corresponds (N : NameRelation) : Located Item → Located Item → Prop where
  | label {n n' : Located String} (names : N n n') :
      Corresponds N ⟨.label n.value, n.span⟩ ⟨.label n'.value, n'.span⟩
  | operation {item item' : Item} (span span' : Span) (items : item.Corresponds N item') :
      Corresponds N ⟨item, span⟩ ⟨item', span'⟩

/-- The items of the programs correspond one by one. -/
def Program.Corresponds (N : NameRelation) (p p' : Program) : Prop :=
  List.Forall₂ (Located.Corresponds N) p p'

/-! ## Other relations -/

section

variable {M L : NameRelation}

theorem Item.Corresponds.mono {item item' : Item} (h : item.Corresponds N item')
    (hN : ∀ n n', N n n' → M n n') : item.Corresponds M item' := by
  cases h with
  | instruction i => exact .instruction i
  | offset => exact .offset _ _ _
  | branch _ _ names => exact .branch _ _ (hN _ _ names)
  | loadLabel _ _ names => exact .loadLabel _ _ (hN _ _ names)
  | data block => exact .data block

theorem Located.Corresponds.mono {i i' : Located Item} (h : i.Corresponds N i')
    (hN : ∀ n n', N n n' → M n n') : i.Corresponds M i' := by
  cases h with
  | label names => exact .label (hN _ _ names)
  | operation _ _ items => exact .operation _ _ (items.mono hN)

/-- Items that correspond under a relation do so under any that pairs more names. -/
theorem Program.Corresponds.mono {p p' : Program} (h : p.Corresponds N p')
    (hN : ∀ n n', N n n' → M n n') : p.Corresponds M p' :=
  h.imp fun _ _ hi => Located.Corresponds.mono hi hN

theorem Item.Corresponds.comp (hL : ∀ name n m, N name n → M name m → L n m)
    {item first second : Item} (h : item.Corresponds N first) (h' : item.Corresponds M second) :
    first.Corresponds L second := by
  cases h with
  | instruction i =>
      cases h'
      exact .instruction i
  | offset =>
      cases h'
      exact .offset _ _ _
  | branch _ _ names =>
      cases h' with
      | branch _ _ names' => exact .branch _ _ (hL _ _ _ names names')
  | loadLabel _ _ names =>
      cases h' with
      | loadLabel _ _ names' => exact .loadLabel _ _ (hL _ _ _ names names')
  | data block =>
      cases h'
      exact .data block

theorem Located.Corresponds.comp (hL : ∀ name n m, N name n → M name m → L n m)
    {i first second : Located Item} (h : i.Corresponds N first) (h' : i.Corresponds M second) :
    first.Corresponds L second := by
  -- an item that is a label in the one pair is a label in the other
  cases h with
  | @label name _ names =>
      obtain ⟨value, span⟩ := name
      generalize hi : (⟨.label value, span⟩ : Located Item) = i at h'
      cases h' with
      | @label name' _ names' =>
          obtain ⟨value', span'⟩ := name'
          cases hi
          exact .label (hL _ _ _ names names')
      | operation _ _ items =>
          cases hi
          cases items
  | operation _ _ items =>
      generalize hi : (⟨_, _⟩ : Located Item) = i at h'
      cases h' with
      | label =>
          cases hi
          cases items
      | operation _ _ items' =>
          cases hi
          exact .operation _ _ (items.comp hL items')

/-- Two programs that correspond to one correspond to each other. -/
theorem Program.Corresponds.comp (hL : ∀ name n m, N name n → M name m → L n m)
    {p first second : Program} (h : p.Corresponds N first) (h' : p.Corresponds M second) :
    first.Corresponds L second := by
  induction h generalizing second with
  | nil =>
      cases h'
      exact .nil
  | cons hi _ ih =>
      cases h' with
      | cons hi' hrest' => exact .cons (Located.Corresponds.comp hL hi hi') (ih hrest')

theorem Located.Corresponds.names {i i' : Located Item} (h : i.Corresponds N i') :
    List.Forall₂ N i.names i'.names := by
  cases h with
  | label names => exact .cons names .nil
  | operation _ _ items =>
      cases items with
      | instruction | offset | data => exact .nil
      | branch _ _ names => exact .cons names .nil
      | loadLabel _ _ names => exact .cons names .nil

/-- The names in programs that correspond are paired one by one. -/
theorem Program.Corresponds.names {p p' : Program} (h : p.Corresponds N p') :
    List.Forall₂ N p.names p'.names := by
  induction h with
  | nil => exact .nil
  | cons hi _ ih =>
      rw [Program.names_cons, Program.names_cons]
      exact List.rel_append hi.names ih

end

/-! ## Outcomes that correspond -/

/-- The problems are the same, but for a name that is paired. -/
inductive Problem.Corresponds (N : NameRelation) : Problem → Problem → Prop where
  | undefinedLabel {n n' : Located String} (names : N n n') :
      Corresponds N ⟨.undefinedLabel n.value, n.span⟩ ⟨.undefinedLabel n'.value, n'.span⟩
  | unencodable (cause : Unencodable) {n n' : Located String} (names : N n n') :
      Corresponds N ⟨.unencodable cause, n.span⟩ ⟨.unencodable cause, n'.span⟩

/-- Both succeed with the same result, or both fail with problems that correspond. -/
inductive SameOutcome (N : NameRelation) {α : Type} : Except Problem α → Except Problem α → Prop
    where
  | ok (a : α) : SameOutcome N (.ok a) (.ok a)
  | error {problem problem' : Problem} (problems : problem.Corresponds N problem') :
      SameOutcome N (.error problem) (.error problem')

namespace SameOutcome

variable {α β : Type} {r r' : Except Problem α}

theorem map (h : SameOutcome N r r') (f : α → β) : SameOutcome N (r.map f) (r'.map f) := by
  cases h with
  | ok a => exact .ok (f a)
  | error problems => exact .error problems

theorem bind {k k' : α → Except Problem β} (h : SameOutcome N r r')
    (hk : ∀ a, SameOutcome N (k a) (k' a)) : SameOutcome N (r >>= k) (r' >>= k') := by
  cases h with
  | ok a => exact hk a
  | error problems => exact .error problems

theorem mapM {γ : Type} {f : β → Except Problem α} {g : γ → Except Problem α} {l : List β}
    {l' : List γ} (h : List.Forall₂ (fun b c => SameOutcome N (f b) (g c)) l l') :
    SameOutcome N (l.mapM f) (l'.mapM g) := by
  induction h with
  | nil => exact .ok []
  | cons hhead _ ih =>
      rw [List.mapM_cons, List.mapM_cons]
      exact hhead.bind fun a => ih.bind fun as => .ok (a :: as)

end SameOutcome

/-! ## The meaning of programs that correspond

All that a name contributes is the address of its label. So a relation that keeps equal names equal
and different ones different keeps the address of every label, and with the addresses the image. -/

/-- The relation pairs equal names with equal names, and different ones with different ones. -/
def NameRelation.Faithful (N : NameRelation) : Prop :=
  ∀ ⦃n n' m m' : Located String⦄, N n n' → N m m' → (n.value = m.value ↔ n'.value = m'.value)

/-- Items that correspond come to the same, if names that are paired have the same address. -/
theorem Item.Corresponds.code {item item' : Item} (h : item.Corresponds N item')
    {labels labels' : String → Option Address}
    (hlabels : ∀ n n', N n n' → labels' n'.value = labels n.value) (here : Address) :
    SameOutcome N (item.code labels here) (item'.code labels' here) := by
  cases h with
  | instruction | offset | data => exact .ok _
  | @branch _ _ n n' names =>
      simp only [Item.code, hlabels n n' names]
      cases labels n.value with
      | none => exact .error (.undefinedLabel names)
      | some destination =>
          by_cases hreaches : BranchReaches (branchDistance here destination)
          · simp only [if_pos hreaches]
            exact .ok _
          · simp only [if_neg hreaches]
            exact .error (.unencodable _ names)
  | @loadLabel _ _ n n' names =>
      simp only [Item.code, hlabels n n' names]
      cases labels n.value with
      | none => exact .error (.undefinedLabel names)
      | some address =>
          by_cases hfits : labelByte address < 2 ^ 16
          · simp only [if_pos hfits]
            exact .ok _
          · simp only [if_neg hfits]
            exact .error (.unencodable _ names)

namespace Located.Corresponds

variable {i i' : Located Item}

theorem units (h : i.Corresponds N i') : i'.value.units = i.value.units := by
  cases h with
  | label => rfl
  | operation _ _ items => cases items <;> rfl

/-- The one item declares a name just if the other declares the name that is paired with it. -/
theorem label_iff (h : i.Corresponds N i') (hN : N.Faithful) {n n' : Located String}
    (hn : N n n') : i'.value = .label n'.value ↔ i.value = .label n.value := by
  cases h with
  | label names =>
      rw [Item.label.injEq, Item.label.injEq]
      exact (hN names hn).symm
  | operation _ _ items => cases items <;> exact ⟨nofun, nofun⟩

theorem code (h : i.Corresponds N i') {labels labels' : String → Option Address}
    (hlabels : ∀ n n', N n n' → labels' n'.value = labels n.value) (here : Address) :
    SameOutcome N (i.value.code labels here) (i'.value.code labels' here) := by
  cases h with
  | label => exact .ok []
  | operation _ _ items => exact items.code hlabels here

end Located.Corresponds

namespace Program.Corresponds

variable {p p' : Program}

theorem units (h : p.Corresponds N p') : p'.units = p.units := by
  induction h with
  | nil => rfl
  | cons hi _ ih =>
      unfold Program.units at ih ⊢
      rw [List.map_cons, List.map_cons, List.sum_cons, List.sum_cons, hi.units, ih]

theorem addressAt (h : p.Corresponds N p') (n : Nat) : p'.addressAt n = p.addressAt n := by
  have htake : Program.Corresponds N (p.take n) (p'.take n) := List.forall₂_take n h
  rw [Program.addressAt, Program.addressAt, htake.units]

theorem findIdx?_label (h : p.Corresponds N p') (hN : N.Faithful) {n n' : Located String}
    (hn : N n n') :
    p'.findIdx? (fun i => i.value = .label n'.value) =
      p.findIdx? (fun i => i.value = .label n.value) := by
  induction h with
  | nil => rfl
  | cons hi _ ih => simp only [List.findIdx?_cons, hi.label_iff hN hn, ih]

/-- Names that are paired have the same address. -/
theorem address? (h : p.Corresponds N p') (hN : N.Faithful) {n n' : Located String}
    (hn : N n n') : p'.address? n'.value = p.address? n.value := by
  rw [Program.address?, Program.address?, h.findIdx?_label hN hn]
  exact congrArg (Option.map · _) (funext h.addressAt)

/-- A declared name is paired with another. -/
theorem exists_of_declares (h : p.Corresponds N p') {name : String} (hname : p'.Declares name) :
    ∃ n n', N n n' ∧ n'.value = name := by
  obtain ⟨i', hi', hlabel⟩ := hname
  induction h with
  | nil => cases hi'
  | cons hi _ ih =>
      -- the declaration is the first item, or it comes later
      obtain rfl | hmem := List.mem_cons.mp hi'
      · cases hi with
        | label names => exact ⟨_, _, names, Item.label.inj hlabel⟩
        | operation _ _ items =>
            subst hlabel
            cases items
      · exact ih hmem

/-- **Programs that correspond have the same meaning**: the same image, or the same problem over
names that are paired. -/
theorem code (h : p.Corresponds N p') (hN : N.Faithful) : SameOutcome N p.code p'.code := by
  have hcode : ∀ (q q' : Program) (k : Nat), q.Corresponds N q' →
      List.Forall₂ (fun a b => SameOutcome N (p.codeAt a) (p'.codeAt b)) (q.zipIdx k)
        (q'.zipIdx k) := by
    intro q q' k hq
    induction hq generalizing k with
    | nil => exact .nil
    | cons hi _ ih =>
        rw [List.zipIdx_cons, List.zipIdx_cons]
        refine .cons ?_ (ih (k + 1))
        rw [Program.codeAt, Program.codeAt, h.addressAt]
        exact hi.code (fun n n' hn => h.address? hN hn) _
  exact (SameOutcome.mapM (hcode p p' 0 h)).map List.flatten

end Program.Corresponds

end ArmAssembly
