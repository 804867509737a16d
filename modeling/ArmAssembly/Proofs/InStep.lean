import ArmAssembly.Proofs.Blame

set_option autoImplicit false

/-! # The passes go in step

The two passes keep different things in mind and count addresses each for itself. But before
every item they stand at the same address (`Placement.Follows.takeAll`), so a label lies in the
second pass where the first pass has found it, and the only items that the second pass refuses
are those that use a label (`passes_in_step`). What else can be wrong with a program is wrong
with its tokens, and found in the first pass.
-/

namespace ArmAssembly

/-! ## One item, and a run

What the second pass knows of the program is the items that are taken, and the symbols of all of it.
That it stands where these items end is kept by every item that it takes (`Placement.Follows`). -/

namespace Placement

variable {symbols : Symbols} {done todo : Program} {i : Located Item} {p q : Placement}

/-- The second pass refuses an item just for what the item means. -/
theorem code_eq_error_of_pass {problem : Problem}
    (hsymbols : symbols.address? = Program.address? (done ++ i :: todo)) (hp : Follows done p)
    (h : pass symbols i p = .error problem q) :
    i.value.code symbols.address? p.address = .error problem := by
  have hstep := pass_eq hsymbols hp
  cases hcode : i.value.code symbols.address? p.address with
  | ok bytes =>
      rw [hcode] at hstep
      obtain ⟨r, hr, -⟩ := hstep
      rw [h] at hr
      cases hr
  | error e =>
      rw [hcode] at hstep
      obtain ⟨r, hr⟩ := hstep
      rw [h] at hr
      cases hr
      rfl

/-- An item that the second pass takes is done. -/
theorem Follows.pass (hsymbols : symbols.address? = Program.address? (done ++ i :: todo))
    (hp : Follows done p) (h : pass symbols i p = .ok () q) : Follows (done ++ [i]) q := by
  have hstep := pass_eq hsymbols hp
  cases hcode : i.value.code symbols.address? p.address with
  | ok bytes =>
      rw [hcode] at hstep
      obtain ⟨r, hr, hfollows, -⟩ := hstep
      rw [h] at hr
      cases hr
      exact hfollows
  | error problem =>
      rw [hcode] at hstep
      obtain ⟨r, hr⟩ := hstep
      rw [h] at hr
      cases hr

/-- The items that the second pass takes one after the other are done. -/
theorem Follows.takeAll {taken : Program}
    (hsymbols : symbols.address? = Program.address? (done ++ (taken ++ todo)))
    (hp : Follows done p) (h : (Placement.pass symbols).takeAll taken p = .ok q) :
    Follows (done ++ taken) q := by
  induction taken generalizing done p with
  | nil =>
      cases h
      rwa [List.append_nil]
  | cons i taken ih =>
      rw [Pass.takeAll] at h
      cases hi : Placement.pass symbols i p with
      | error problem r =>
          rw [hi] at h
          cases h
      | ok _ r =>
          rw [hi] at h
          have hr := hp.pass hsymbols hi
          rw [List.append_cons]
          exact ih (by simpa using hsymbols) hr h

/-- No label is refused: it is declared already, or it lies where the first pass has found it. -/
theorem exists_pass_label {name : String}
    (hsymbols : symbols.address? = Program.address? (done ++ i :: todo)) (hp : Follows done p)
    (hi : i.value = .label name) : ∃ q, Placement.pass symbols i p = .ok () q := by
  have hstep := pass_eq hsymbols hp
  rw [hi] at hstep
  obtain ⟨q, hq, -⟩ := hstep
  exact ⟨q, hq⟩

end Placement

/-- The symbols that the first pass finds, as the program has them. -/
theorem Layout.exists_takeAll (p : Program) :
    ∃ layout, Layout.pass.takeAll p .initial = .ok layout ∧
      layout.address = .ofNat p.units ∧ layout.symbols.address? = p.address? :=
  have hfound := foldl_add p
  ⟨_, takeAll_eq p .initial, hfound.1, funext hfound.2⟩

/-! ## Whose fault a failure is

A label that has moved would be the fault of the assembler. Scanning and reading report other
causes, and so does an item that cannot be assembled. -/

/-- The second pass has found a label elsewhere than the first. -/
def Cause.IsMovedLabel (cause : Cause) : Prop :=
  ∃ name first second, cause = .movedLabel name first second

/-- Nothing that is wrong with an operation is a label that is found elsewhere. -/
theorem Problem.OfOperation.not_isMovedLabel {tokens after : List Token} {problem : Problem}
    {d : Cursor} (h : problem.OfOperation tokens after d) : ¬ problem.cause.IsMovedLabel := by
  rintro ⟨name, first, second, hmoved⟩
  cases h with
  | concerns concerns =>
      cases concerns with
      | token _ quotes =>
          have hquoted := quotes.cause
          rw [hmoved] at hquoted
          cases hquoted
      | ending _ heq =>
          rw [heq] at hmoved
          cases hmoved
  | digits _ _ _ unpaired =>
      unfold bytesOfLiterals at unpaired
      dsimp only at unpaired
      split at unpaired
      · cases unpaired
        cases hmoved
      · split at unpaired <;> cases unpaired
        cases hmoved

/-- No label is found elsewhere by the second pass than by the first. -/
theorem assembleTokens_not_isMovedLabel {tokens : List Token} {problem : Problem}
    (h : assembleTokens tokens = .error problem) : ¬ problem.cause.IsMovedLabel := by
  obtain ⟨_, _, _, _, _, hoperation⟩ | ⟨_, _, _, _, _, _, _, hunusable⟩ :=
    stuck_or_used_of_assembleTokens h
  · exact hoperation.not_isMovedLabel
  · rintro ⟨name, first, second, hmoved⟩
    rw [hmoved] at hunusable
    cases hunusable

theorem scan_not_isMovedLabel {source : List Char} {problem : Problem}
    (h : scan source = .error problem) : ¬ problem.cause.IsMovedLabel := by
  obtain ⟨symbol, hsymbol⟩ := scan_error h
  rintro ⟨name, first, second, hmoved⟩
  rw [hmoved] at hsymbol
  cases hsymbol

/-! ## The assembler -/

/-- A pass that comes to an end has read all statements and taken all items. -/
theorem Pass.takeAll_of_outcome {σ : Type} {pass : Pass σ} {tokens : List Token} {x y : σ}
    (h : outcome (pass.run tokens x) = .ok y) :
    (Reading.ofTokens tokens).problem? = none ∧
      pass.takeAll (Reading.ofTokens tokens).items x = .ok y := by
  rw [outcome_run] at h
  obtain ⟨z, htaken, h⟩ := bind_eq_ok_iff.mp h
  cases hend : (Reading.ofTokens tokens).problem? with
  | some problem =>
      rw [hend] at h
      cases h
  | none =>
      rw [hend] at h
      cases h
      exact ⟨rfl, htaken⟩

/-- The two passes of a program that is assembled, which end at the same address. -/
theorem exists_passes_of_assembleTokens {tokens : List Token} {binary : Binary}
    (h : assembleTokens tokens = .ok binary) :
    ∃ layout placement, layoutOf tokens = .ok layout ∧
      placementOf layout.symbols tokens = .ok placement ∧
      binary = ⟨placement.image, layout.symbols, placement.entries⟩ ∧
      layout.address = placement.address := by
  unfold assembleTokens at h
  obtain ⟨layout, hfirst, h⟩ := bind_eq_ok_iff.mp h
  obtain ⟨placement, hsecond, h⟩ := bind_eq_ok_iff.mp h
  cases h
  refine ⟨layout, placement, hfirst, hsecond, rfl, ?_⟩
  -- both passes have taken all items, so their addresses can be compared
  obtain ⟨found, hfound, haddress, hsymbols⟩ :=
    Layout.exists_takeAll (Reading.ofTokens tokens).items
  have hlayout := (Pass.takeAll_of_outcome hfirst).2
  rw [hfound] at hlayout
  cases hlayout
  have hplacement := (Pass.takeAll_of_outcome hsecond).2
  have hall : layout.symbols.address? =
      Program.address? ([] ++ ((Reading.ofTokens tokens).items ++ [])) := by
    simpa using hsymbols
  have hfollows := Placement.follows_initial.takeAll hall hplacement
  rw [haddress, hfollows.address]
  rfl

/-- **The passes go in step.** For every sequence of items, whether or not it can be read from a
text: before each item that the second pass takes with the symbols of the first, both passes
stand at the same address, no label declaration is refused, and an item that is refused uses a
label. So no program fails over a label that has moved, and the passes of a program that is
assembled end at the same address. -/
theorem passes_in_step :
    (∀ program : Program, ∃ layout, Layout.pass.takeAll program .initial = .ok layout ∧
      ∀ (done todo : Program) (q : Placement), program = done ++ todo →
        (Placement.pass layout.symbols).takeAll done .initial = .ok q →
        (∃ reached, Layout.pass.takeAll done .initial = .ok reached ∧
          reached.address = q.address) ∧
        ∀ (i : Located Item) (rest : Program), todo = i :: rest →
          (∀ name, i.value = .label name →
            ∃ r, Placement.pass layout.symbols i q = .ok () r) ∧
          ∀ problem r, Placement.pass layout.symbols i q = .error problem r →
            ∃ name, i.value.used? = some name ∧ problem.span = name.span) ∧
    (∀ (source : List Char) (failure : Failure), assembleSource source = .error failure →
      ∀ name first second location,
        failure ≠ .program (.movedLabel name first second) location) ∧
    ∀ (source : List Char) (binary : Binary), assembleSource source = .ok binary →
      ∃ tokens layout placement, scan source = .ok tokens ∧ layoutOf tokens = .ok layout ∧
        placementOf layout.symbols tokens = .ok placement ∧
        binary = ⟨placement.image, layout.symbols, placement.entries⟩ ∧
        layout.address = placement.address := by
  refine ⟨fun program => ?_, ?_, ?_⟩
  · obtain ⟨layout, hlayout, -, hsymbols⟩ := Layout.exists_takeAll program
    refine ⟨layout, hlayout, fun done todo q hprogram hq => ?_⟩
    rw [hprogram] at hsymbols
    have hfollows : Placement.Follows done q :=
      Placement.follows_initial.takeAll (by simpa using hsymbols) hq
    constructor
    · obtain ⟨reached, hreached, haddress, -⟩ := Layout.exists_takeAll done
      exact ⟨reached, hreached, by rw [haddress, hfollows.address]⟩
    · rintro i rest rfl
      refine ⟨fun name hi => Placement.exists_pass_label hsymbols hfollows hi, ?_⟩
      intro problem r hrefused
      have hcode := Placement.code_eq_error_of_pass hsymbols hfollows hrefused
      obtain ⟨name, hused, hspan, -⟩ := Item.exists_used_of_code_eq_error hcode
      exact ⟨name, hused, hspan⟩
  · intro source failure hfailure name first second location hmoved
    obtain ⟨problem, rfl, hproblem⟩ := assembleSource_eq_error_iff.mp hfailure
    have hcause : problem.cause.IsMovedLabel :=
      ⟨name, first, second, (Failure.program.inj hmoved).1⟩
    obtain hscan | ⟨tokens, -, hassemble⟩ := hproblem
    · exact scan_not_isMovedLabel hscan hcause
    · exact assembleTokens_not_isMovedLabel hassemble hcause
  · intro source binary hbinary
    obtain ⟨tokens, hscan, hassemble⟩ := assembleSource_eq_ok_iff.mp hbinary
    obtain ⟨layout, placement, hpasses⟩ := exists_passes_of_assembleTokens hassemble
    exact ⟨tokens, layout, placement, hscan, hpasses⟩

end ArmAssembly
