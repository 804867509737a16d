import ArmAssembly.Proofs.Cutting

set_option autoImplicit false

/-! # Scanning line by line

What follows a text matters to its last pieces only, and to them no further than up to the end of
the line. So a text stays cut into the same tokens if what follows it is exchanged for a text that
goes on alike and then ends, or ends its line (`EndsLike.cut`). In particular two texts with a line
feed between them are cut into the tokens of the one and the tokens of the other (`scan_lines`),
wherever the first one ends: inside a comment, a number, a word or a run of blanks.
-/

namespace ArmAssembly

/-! ## Exchanging what follows

The two texts agree up to where the second one ends or ends its line, and may differ behind that
place. A piece looks no further than the end of its line at what follows it, so it cannot tell the
texts apart. -/

/-- The second text goes on like the first one, until it ends or its line does. -/
inductive EndsLike : List Char → List Char → Prop where
  | line (x : List Char) {y : List Char} (ends : LineEnds y) : EndsLike x y
  | cons (c : Char) {x y : List Char} (more : EndsLike x y) : EndsLike (c :: x) (c :: y)

theorem LineEnds.breaks_append {p : Char → Bool} {text x y : List Char}
    (h : LineEnds (text ++ y)) (hp : p '\n' = false)
    (hnil : text = [] → LineEnds y → Breaks p x) : Breaks p (text ++ x) := by
  cases text with
  | nil => exact hnil rfl h
  | cons c text => exact breaks_cons _ (by rw [h c rfl, hp])

namespace EndsLike

variable {x y : List Char}

theorem append (h : EndsLike x y) (text : List Char) : EndsLike (text ++ x) (text ++ y) := by
  induction text with
  | nil => exact h
  | cons c text ih => exact .cons c ih

theorem breaks {p : Char → Bool} (h : EndsLike x y) (hp : p '\n' = false) (hx : Breaks p x) :
    Breaks p y := by
  cases h with
  | line _ ends => exact ends.breaks hp
  | cons c more => exact breaks_cons _ (hx c rfl)

theorem lineEnds (h : EndsLike x y) (hx : LineEnds x) : LineEnds y := by
  cases h with
  | line _ ends => exact ends
  | cons c more => exact fun d hd => hx d hd

theorem hexFollows_eq_false (h : EndsLike x y) (hx : hexFollows x = false) :
    hexFollows y = false := by
  cases h with
  | line _ ends =>
      rcases ends.eq_nil_or_feed with rfl | ⟨more, rfl⟩
      · rfl
      · exact hexFollows_cons.mpr nofun
  | cons c more => exact hexFollows_cons.mpr fun hc => more.breaks rfl (hexFollows_cons.mp hx hc)

theorem isComment {body : List Char} (h : EndsLike x y) (hx : IsComment body x) :
    IsComment body y where
  unmarked := (h.append body).breaks rfl hx.unmarked
  line := hx.line
  ends := h.lineEnds hx.ends

/-- The letter that takes away a zero must not be lost itself. -/
theorem losesZero (h : EndsLike x y) (hkeep : LineEnds y → Breaks isHexMark x)
    (hx : LosesZero x) : LosesZero y := by
  obtain ⟨c, more, rfl, hc, hmore⟩ := hx
  -- the `x` is still there, for the end of a line does not come before it
  cases h with
  | line _ ends =>
      have hnot := hkeep ends c rfl
      rw [hc] at hnot
      cases hnot
  | cons c hlike => exact ⟨c, _, rfl, hc, hlike.breaks rfl hmore⟩

theorem passed {gap : List Char} (h : EndsLike x y) (hkeep : LineEnds y → Breaks isHexMark x)
    (hx : Passed gap x) : Passed gap y := by
  induction hx with
  | nil => exact .nil y
  | blank hblank _ ih => exact .blank hblank (ih h hkeep)
  | comment hcomment _ ih => exact .comment ((h.append _).isComment hcomment) (ih h hkeep)
  | zero hloses _ ih =>
      refine .zero ((h.append _).losesZero (fun hends => ?_) hloses) (ih h hkeep)
      exact hends.breaks_append rfl fun _ => hkeep

theorem ends {t : Token} (h : EndsLike x y) (hx : t.Ends x) : t.Ends y := by
  unfold Token.Ends at hx ⊢
  -- what ends a token is told by a class of characters, and a line feed is in none of them
  split
  · next hkind =>
      rw [hkind] at hx
      exact h.breaks rfl hx
  · next hkind =>
      rw [hkind] at hx
      exact ⟨h.breaks rfl hx.1, fun hzero => h.hexFollows_eq_false (hx.2 hzero)⟩
  · next hkind =>
      rw [hkind] at hx
      exact h.breaks rfl hx
  · trivial

theorem stands {t : Token} {written : List Char} (h : EndsLike x y) (hx : t.Stands written x) :
    t.Stands written y where
  spelled := hx.spelled
  shaped := hx.shaped
  ends := h.ends hx.ends
  keepsZero := fun hzero => h.breaks rfl (hx.keepsZero hzero)

/-- **What follows a text may be exchanged**, if no letter `x` that takes away a zero is lost. -/
theorem cut {start : Nat} {text : List Char} {tokens : List Token} (h : EndsLike x y)
    (hkeep : LineEnds y → Breaks isHexMark x) (hx : Cut start text tokens x) :
    Cut start text tokens y := by
  induction hx with
  | done passed => exact .done (h.passed hkeep passed)
  | @token _ gap written text _ t _ passed stands first last _ ih =>
      have hbehind := h.append text
      refine .token ((hbehind.append written).passed (fun hends => ?_) passed)
        (hbehind.stands stands) first last (ih h hkeep)
      exact hends.breaks_append rfl fun hnil => absurd hnil stands.ne_nil

end EndsLike

/-! ## Texts one behind the other -/

theorem Cut.append {start : Nat} {a b rest : List Char} {u v : List Token}
    (first : Cut start a u (b ++ rest)) (second : Cut (start + byteLength a) b v rest) :
    Cut start (a ++ b) (u ++ v) rest := by
  generalize hmiddle : b ++ rest = middle at first
  induction first with
  | done passed =>
      subst hmiddle
      exact .of_passed passed second
  | @token start gap written text _ t tokens passed stands first last _ ih =>
      subst hmiddle
      rw [← List.append_assoc text] at passed stands
      have hstart : start + byteLength (gap ++ (written ++ text)) =
          t.span.stop + byteLength text := by
        rw [last, first, byteLength_append, byteLength_append, Nat.add_assoc, Nat.add_assoc]
      rw [hstart] at second
      rw [List.append_assoc, List.append_assoc]
      exact .token passed stands first last (ih second rfl)

/-- **Lines are scanned one by one.** Two texts with a line feed between them are cut into the
tokens of the one, and into the tokens of the other at later places. -/
theorem scan_lines {first second : List Char} {u v : List Token} (hfirst : scan first = .ok u)
    (hsecond : scan second = .ok v) :
    ∃ v', scan (first ++ '\n' :: second) = .ok (u ++ v') ∧
      v'.map Token.view = v.map Token.view := by
  obtain ⟨v', hmoved, hviews, -⟩ :=
    (scan_eq_ok_iff.mp hsecond).move (0 + byteLength first + byteLength ['\n'])
  have hfeed : Passed ['\n'] (second ++ []) := .blank rfl (.nil _)
  have hlast : Cut (0 + byteLength first) ('\n' :: second) v' [] := .of_passed hfeed hmoved
  have hopen : EndsLike [] ('\n' :: second ++ []) := .line [] (lineEnds_feed _)
  have hline := hopen.cut (fun _ => breaks_nil _) (scan_eq_ok_iff.mp hfirst)
  exact ⟨v', (hline.append hlast).scan_eq, hviews⟩

end ArmAssembly
