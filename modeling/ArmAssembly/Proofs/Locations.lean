import ArmAssembly.Proofs.Lossless
import ArmAssembly.Text.Location

set_option autoImplicit false

/-! # Lines and columns of a text

A location is found by walking to it, character by character. Where the walk ends can be read off
the text that stands before it (`Location.ofOffset_append`): every line feed there has begun a line,
and the characters behind the last one have taken a column each. No line or column exceeds the
length of the text by more than one (`Location.ofOffset_le`), so counters do not overflow that have
room for one more than this (`Location.ofOffsetBelow_eq`).

Each step of the walk leads further in the order of lines and columns (`Location.key_lt_after`). So
the places of a text, which are the offsets between two characters and those at its ends, have
locations in their own order, and can be found by them (`Location.ofOffset_identifies_places`).
-/

namespace ArmAssembly

/-! ## Places -/

/-- A character of `text` begins at byte `offset`, or the text ends there. -/
def IsPlace (text : List Char) (offset : Nat) : Prop :=
  ∃ before behind, text = before ++ behind ∧ offset = byteLength before

/-- A text can be cut at its places. -/
theorem isPlace_iff {text : List Char} {offset : Nat} :
    IsPlace text offset ↔ (dropBytes text offset).isSome = true := by
  constructor
  · rintro ⟨before, behind, rfl, rfl⟩
    rw [dropBytes_append]
    rfl
  · intro h
    obtain ⟨behind, hdrop⟩ := Option.isSome_iff_exists.mp h
    obtain ⟨before, htext, hoffset⟩ := exists_of_dropBytes hdrop
    exact ⟨before, behind, htext, hoffset⟩

instance (text : List Char) (offset : Nat) : Decidable (IsPlace text offset) :=
  decidable_of_iff _ isPlace_iff.symm

/-- Of two places in a text, the first has some characters between it and the second. -/
theorem exists_between {u v behind rest : List Char} (htext : u ++ behind = v ++ rest)
    (hlt : byteLength u < byteLength v) : ∃ c more, v = u ++ c :: more := by
  rcases List.append_eq_append_iff.mp htext with ⟨w, rfl, -⟩ | ⟨w, rfl, -⟩
  · cases w with
    | nil =>
        rw [List.append_nil] at hlt
        exact absurd hlt (Nat.lt_irrefl _)
    | cons c more => exact ⟨c, more, rfl⟩
  · rw [byteLength_append] at hlt
    omega

namespace Location

/-! ## The walk

A location only depends on the characters in front of it, so a place has the same location in any
text that begins with these. An offset inside a character is passed by, and the walk goes on to the
end. -/

/-- The walk to the end of `before` goes over its characters. -/
theorem walk_append (before behind : List Char) (reached : Nat) (here : Location) :
    walk (reached + byteLength before) (before ++ behind) reached here =
      before.foldl after here := by
  induction before generalizing reached here with
  | nil =>
      cases behind with
      | nil => rfl
      | cons c behind => exact if_pos rfl
  | cons c before ih =>
      have hne : reached ≠ reached + byteLength (c :: before) := by
        have hpos := c.utf8Size_pos
        rw [byteLength]
        omega
      rw [List.cons_append, walk, if_neg hne, byteLength, ← Nat.add_assoc, ih]
      rfl

theorem ofOffset_eq_foldl (before behind : List Char) :
    ofOffset (before ++ behind) (byteLength before) = before.foldl after origin := by
  have hwalk := walk_append before behind 0 origin
  rwa [Nat.zero_add] at hwalk

/-- Line feeds are counted, and so are the characters behind the last one. -/
theorem foldl_after_origin (text : List Char) :
    text.foldl after origin = ⟨1 + text.count '\n', 1 + (text.rtakeWhile (· ≠ '\n')).length⟩ := by
  induction text using List.reverseRecOn with
  | nil => rfl
  | append_singleton text c ih =>
      rw [List.foldl_concat, ih, List.count_append]
      by_cases hc : c = '\n'
      · subst hc
        rw [List.rtakeWhile_concat_neg _ _ _ (by simp)]
        simp [after, Nat.add_assoc]
      · rw [List.rtakeWhile_concat_pos _ _ _ (by simpa using hc)]
        simp [after, hc, Nat.add_assoc]

/-- **The location of a place in a text**: the line is one more than the line feeds before it, and
the column is one more than the characters since the last of them. -/
theorem ofOffset_append (before behind : List Char) :
    ofOffset (before ++ behind) (byteLength before) =
      ⟨1 + before.count '\n', 1 + (before.rtakeWhile (· ≠ '\n')).length⟩ := by
  rw [ofOffset_eq_foldl, foldl_after_origin]

/-- The walk to an offset at which it finds no character goes over the whole text. -/
theorem walk_of_not_reached {offset : Nat} {text : List Char} {reached : Nat} (here : Location)
    (h : ∀ before behind, text = before ++ behind → offset ≠ reached + byteLength before) :
    walk offset text reached here = text.foldl after here := by
  induction text generalizing reached here with
  | nil => rfl
  | cons c text ih =>
      have hne : reached ≠ offset := (h [] (c :: text) rfl).symm
      rw [walk, if_neg hne, List.foldl_cons]
      apply ih
      intro before behind htext
      have hcons := h (c :: before) behind (by rw [htext, List.cons_append])
      rwa [byteLength, ← Nat.add_assoc] at hcons

/-- **An offset that is no place** has the location of the end of the text. -/
theorem ofOffset_of_not_isPlace {text : List Char} {offset : Nat} (h : ¬ IsPlace text offset) :
    ofOffset text offset = ofOffset text (byteLength text) := by
  have hend : ofOffset text (byteLength text) = text.foldl after origin := by
    have hwhole := ofOffset_eq_foldl text []
    rwa [List.append_nil] at hwhole
  rw [hend]
  apply walk_of_not_reached
  intro before behind htext hoffset
  rw [Nat.zero_add] at hoffset
  exact h ⟨before, behind, htext, hoffset⟩

/-! ## Counters

Each character adds one to the line or to the column, or sets the column back. So the walk never
gets beyond the length of the text, and counters with room for this never overflow. -/

/-- One character moves the counters on by one at most. -/
theorem after_le (here : Location) (c : Char) :
    (here.after c).line ≤ here.line + 1 ∧ (here.after c).column ≤ here.column + 1 := by
  unfold after
  split_ifs
  · exact ⟨Nat.le_refl _, Nat.le_add_left _ _⟩
  · exact ⟨Nat.le_add_right _ _, Nat.le_refl _⟩

theorem walk_le (offset : Nat) (text : List Char) (reached : Nat) (here : Location) :
    (walk offset text reached here).line ≤ here.line + text.length ∧
      (walk offset text reached here).column ≤ here.column + text.length := by
  induction text generalizing reached here with
  | nil => exact ⟨Nat.le_refl _, Nat.le_refl _⟩
  | cons c text ih =>
      rw [walk, List.length_cons]
      split_ifs with hreached
      · exact ⟨Nat.le_add_right _ _, Nat.le_add_right _ _⟩
      · have hafter := after_le here c
        have hwalk := ih (reached + c.utf8Size) (here.after c)
        omega

/-- Counters that can hold one more than the length of a text do not overflow on it. -/
theorem ofOffset_le (text : List Char) (offset : Nat) :
    (ofOffset text offset).line ≤ text.length + 1 ∧
      (ofOffset text offset).column ≤ text.length + 1 := by
  have hbounds := walk_le offset text 0 origin
  rw [Nat.add_comm text.length]
  exact hbounds

/-- The walk with counters for the numbers below `limit`. It breaks off at a character behind which
one of them would have to hold more. -/
def walkBelow (limit offset : Nat) : List Char → Nat → Location → Option Location
  | [], _, here => some here
  | c :: text, reached, here =>
    if reached = offset then some here
    else if (here.after c).line < limit ∧ (here.after c).column < limit then
      walkBelow limit offset text (reached + c.utf8Size) (here.after c)
    else none

/-- The location of an offset, found with counters for the numbers below `limit`. -/
def ofOffsetBelow (limit : Nat) (text : List Char) (offset : Nat) : Option Location :=
  walkBelow limit offset text 0 origin

theorem walkBelow_eq {limit : Nat} (offset : Nat) (text : List Char) (reached : Nat)
    {here : Location} (hlines : here.line + text.length < limit)
    (hcolumns : here.column + text.length < limit) :
    walkBelow limit offset text reached here = some (walk offset text reached here) := by
  induction text generalizing reached here with
  | nil => rfl
  | cons c text ih =>
      rw [List.length_cons] at hlines hcolumns
      have hafter := after_le here c
      have hfits : (here.after c).line < limit ∧ (here.after c).column < limit := by omega
      rw [walkBelow, walk, if_pos hfits]
      split_ifs with hreached
      · rfl
      · apply ih <;> omega

/-- **Counting does not overflow** in a text that leaves room for one more character. -/
theorem ofOffsetBelow_eq {limit : Nat} {text : List Char} (hlength : text.length + 1 < limit)
    (offset : Nat) : ofOffsetBelow limit text offset = some (ofOffset text offset) := by
  have hlimit : 1 + text.length < limit := by omega
  exact walkBelow_eq offset text 0 hlimit hlimit

/-! ## The order of places

Locations are compared by line and then by column. A line feed leads to a later line, any other
character to a later column, so the order of locations is that of the walk. -/

/-- Lines count before columns. -/
def key (here : Location) : ℕ ×ₗ ℕ := toLex (here.line, here.column)

theorem key_lt_after (here : Location) (c : Char) : here.key < (here.after c).key := by
  rw [key, key, Prod.Lex.toLex_lt_toLex]
  -- a line feed leads to the next line, all else to the next column
  by_cases hc : c = '\n'
  · left
    rw [after, if_pos hc]
    exact Nat.lt_succ_self here.line
  · right
    rw [after, if_neg hc]
    exact ⟨rfl, Nat.lt_succ_self here.column⟩

theorem key_lt_foldl (here : Location) (c : Char) (text : List Char) :
    here.key < ((c :: text).foldl after here).key := by
  induction text generalizing here c with
  | nil => exact key_lt_after here c
  | cons d text ih =>
      calc here.key < (here.after c).key := key_lt_after here c
        _ < ((d :: text).foldl after (here.after c)).key := ih (here.after c) d

/-- **The locations of places are in the order of the places.** -/
theorem strictMonoOn_key (text : List Char) :
    StrictMonoOn (fun offset => (ofOffset text offset).key) {offset | IsPlace text offset} := by
  rintro _ ⟨u, behind, rfl, rfl⟩ _ ⟨v, rest, htext, rfl⟩ hlt
  -- the later place is reached from the earlier one by some characters
  obtain ⟨c, more, rfl⟩ := exists_between htext hlt
  show (ofOffset (u ++ behind) (byteLength u)).key <
    (ofOffset (u ++ behind) (byteLength (u ++ c :: more))).key
  rw [ofOffset_eq_foldl, htext, ofOffset_eq_foldl, List.foldl_append]
  exact key_lt_foldl (u.foldl after origin) c more

theorem injOn_ofOffset (text : List Char) :
    Set.InjOn (ofOffset text) {offset | IsPlace text offset} := by
  intro a ha b hb heq
  exact (strictMonoOn_key text).injOn ha hb (congrArg key heq)

/-! ## Places by their locations -/

/-- Looks for the place with the location `target` in a text that begins at byte `reached` and at
`here`. -/
def seek (target : Location) : List Char → Nat → Location → Option Nat
  | [], reached, here => if here = target then some reached else none
  | c :: text, reached, here =>
    if here = target then some reached
    else seek target text (reached + c.utf8Size) (here.after c)

/-- The offset of the place with the location `target`, if the text has one. -/
def offset? (text : List Char) (target : Location) : Option Nat :=
  seek target text 0 origin

theorem seek_foldl (before behind : List Char) (reached : Nat) (here : Location) :
    seek (before.foldl after here) (before ++ behind) reached here =
      some (reached + byteLength before) := by
  induction before generalizing reached here with
  | nil => cases behind <;> exact if_pos rfl
  | cons c before ih =>
      -- the locations on the way are read before the target, so none of them is taken for it
      have hne : here ≠ (c :: before).foldl after here := by
        intro heq
        exact (key_lt_foldl here c before).ne (congrArg key heq)
      rw [List.cons_append, seek, if_neg hne, List.foldl_cons, ih, byteLength, Nat.add_assoc]

theorem exists_of_seek {target : Location} {text : List Char} {reached offset : Nat}
    {here : Location} (h : seek target text reached here = some offset) :
    ∃ before behind, text = before ++ behind ∧ offset = reached + byteLength before ∧
      before.foldl after here = target := by
  induction text generalizing reached here with
  | nil =>
      rw [seek] at h
      split_ifs at h with hhere
      cases h
      exact ⟨[], [], rfl, rfl, hhere⟩
  | cons c text ih =>
      rw [seek] at h
      split_ifs at h with hhere
      · cases h
        exact ⟨[], c :: text, rfl, rfl, hhere⟩
      · obtain ⟨before, behind, rfl, rfl, htarget⟩ := ih h
        refine ⟨c :: before, behind, rfl, ?_, htarget⟩
        rw [byteLength, Nat.add_assoc]

/-- **A place is found by its location**, and nothing is found by any other. -/
theorem offset?_eq_some_iff {text : List Char} {target : Location} {offset : Nat} :
    offset? text target = some offset ↔ IsPlace text offset ∧ ofOffset text offset = target := by
  constructor
  · intro h
    obtain ⟨before, behind, rfl, rfl, rfl⟩ := exists_of_seek h
    rw [Nat.zero_add]
    exact ⟨⟨before, behind, rfl, rfl⟩, ofOffset_eq_foldl before behind⟩
  · rintro ⟨⟨before, behind, rfl, rfl⟩, rfl⟩
    rw [offset?, ofOffset_eq_foldl, seek_foldl, Nat.zero_add]

/-- **Locations identify places.** In a text of fewer than `2 ^ 32 - 1` characters counters of 32
bits never overflow. The location of a place counts the line feeds before it and the characters
since the last of them. Later places have later locations, so no two places share one, and a place
can be found by its location. All other offsets have the location of the end of the text. -/
theorem ofOffset_identifies_places (text : List Char) (hlength : text.length < 2 ^ 32 - 1) :
    (∀ offset, ofOffsetBelow (2 ^ 32) text offset = some (ofOffset text offset)) ∧
    (∀ before behind, text = before ++ behind → ofOffset text (byteLength before) =
      ⟨1 + before.count '\n', 1 + (before.rtakeWhile (· ≠ '\n')).length⟩) ∧
    StrictMonoOn (fun offset => (ofOffset text offset).key) {offset | IsPlace text offset} ∧
    Set.InjOn (ofOffset text) {offset | IsPlace text offset} ∧
    (∀ target offset, offset? text target = some offset ↔
      IsPlace text offset ∧ ofOffset text offset = target) ∧
    ∀ offset, ¬ IsPlace text offset → ofOffset text offset = ofOffset text (byteLength text) := by
  refine ⟨?_, ?_, strictMonoOn_key text, injOn_ofOffset text, ?_, ?_⟩
  · intro offset
    apply ofOffsetBelow_eq
    omega
  · rintro before behind rfl
    exact ofOffset_append before behind
  · intro target offset
    exact offset?_eq_some_iff
  · intro offset hoffset
    exact ofOffset_of_not_isPlace hoffset

/-- A text of two lines that begins with a character of two bytes. The second of these is no
place. -/
theorem ofOffset_identifies_places_twoBytes :
    ['é', '\n', 'x'].length < 2 ^ 32 - 1 ∧ ofOffset ['é', '\n', 'x'] 3 = ⟨2, 1⟩ ∧
      offset? ['é', '\n', 'x'] ⟨2, 1⟩ = some 3 ∧ ¬ IsPlace ['é', '\n', 'x'] 1 ∧
      ofOffset ['é', '\n', 'x'] 1 = ofOffset ['é', '\n', 'x'] 4 := by
  have hlength : ['é', '\n', 'x'].length < 2 ^ 32 - 1 := by decide
  have hinside : ¬ IsPlace ['é', '\n', 'x'] 1 := by decide
  obtain ⟨-, hlocation, -, -, hfound, hother⟩ := ofOffset_identifies_places _ hlength
  have hthree : ofOffset ['é', '\n', 'x'] 3 = ⟨2, 1⟩ := hlocation ['é', '\n'] ['x'] rfl
  have hplace : IsPlace ['é', '\n', 'x'] 3 := ⟨['é', '\n'], ['x'], rfl, rfl⟩
  exact ⟨hlength, hthree, (hfound _ _).mpr ⟨hplace, hthree⟩, hinside, hother 1 hinside⟩

end Location

end ArmAssembly
