import ArmAssembly.Proofs.Lines

set_option autoImplicit false

/-! # Scanning loses nothing

A text can be taken apart at any of its tokens (`Cut.exists_token`), and the tokens of a part are
found in it by themselves (`Cut.exists_part`). So spans are exact: at the span of a token stands
how the token is written, and what stands at no span is made of blanks, comments and marked zeros
that a letter has taken away from (`scan_lossless`).
-/

namespace ArmAssembly

/-! ## Parts of a text

A part that is cut off behind a token has nothing behind it any more. This does no harm, since the
end of a text ends any piece. -/

/-- A text is cut in two where a token ends. -/
theorem Cut.split {start : Nat} {text rest : List Char} {u v : List Token}
    (h : Cut start text (u ++ v) rest) :
    ∃ a b, text = a ++ b ∧ stopOf start u = start + byteLength a ∧ Cut start a u [] ∧
      Cut (stopOf start u) b v rest := by
  induction u generalizing start text with
  | nil => exact ⟨[], text, rfl, rfl, .done (.nil []), h⟩
  | cons t u ih =>
      cases h with
      | @token _ gap written text _ _ _ passed stands first last behind =>
          obtain ⟨a, b, rfl, hstop, ha, hb⟩ := ih behind
          rw [List.append_assoc a] at passed stands
          refine ⟨gap ++ (written ++ a), b, ?_, ?_, ?_, hb⟩
          · rw [List.append_assoc, List.append_assoc]
          · rw [stopOf, hstop, last, first, byteLength_append, byteLength_append]
            simp only [Nat.add_assoc]
          -- the first part ends where the text was cut, which does its last token no harm
          · have hlike : EndsLike (a ++ (b ++ rest)) (a ++ []) :=
              (EndsLike.line _ lineEnds_nil).append a
            refine .token ((hlike.append written).passed (fun hends => ?_) passed)
              (hlike.stands stands) first last ha
            exact hends.breaks_append rfl fun hnil => absurd hnil stands.ne_nil

/-- What stands in front of a token, how the token is written, and what is cut behind it. -/
theorem Cut.exists_token {start : Nat} {text rest : List Char} {t : Token} {u v : List Token}
    (h : Cut start text (u ++ t :: v) rest) :
    ∃ before gap written behind, text = before ++ (gap ++ (written ++ behind)) ∧
      stopOf start u = start + byteLength before ∧
      t.span.start = start + byteLength (before ++ gap) ∧
      t.span.stop = t.span.start + byteLength written ∧
      Passed gap (written ++ (behind ++ rest)) ∧ t.Stands written (behind ++ rest) ∧
      Cut t.span.stop behind v rest := by
  obtain ⟨before, text', rfl, hstop, -, hcut⟩ := h.split
  cases hcut with
  | @token _ gap written behind _ _ _ passed stands first last more =>
      refine ⟨before, gap, written, behind, rfl, hstop, ?_, last, passed, stands, more⟩
      rw [first, hstop, byteLength_append, Nat.add_assoc]

/-- The tokens `t :: v` are those of a part of the text that begins where the first of them does
and ends where the last of them does. -/
theorem Cut.exists_part {start : Nat} {text rest : List Char} {t : Token} {u v w : List Token}
    (h : Cut start text (u ++ (t :: v ++ w)) rest) :
    ∃ before part behind, text = before ++ (part ++ behind) ∧
      t.span.start = start + byteLength before ∧
      stopOf t.span.stop v = t.span.start + byteLength part ∧
      Cut t.span.start part (t :: v) [] := by
  obtain ⟨before, gap, written, text', rfl, -, hstart, hstop, -, hstands, hcut⟩ := h.exists_token
  have hwhole : Cut t.span.start ([] ++ (written ++ text')) (t :: v ++ w) rest :=
    .token (.nil _) hstands rfl hstop hcut
  obtain ⟨part, behind, htext, hlast, hpart, -⟩ := hwhole.split
  rw [List.nil_append] at htext
  refine ⟨before ++ gap, part, behind, ?_, hstart, hlast, hpart⟩
  rw [htext, List.append_assoc]

/-! ## The text of a span -/

/-- A text that is not empty takes up bytes. -/
theorem exists_byteLength_eq (c : Char) (text : List Char) :
    ∃ n, c.utf8Size + byteLength text = n + 1 :=
  Nat.exists_eq_add_one.mpr (byteLength_cons_pos c text)

theorem dropBytes_append (before rest : List Char) :
    dropBytes (before ++ rest) (byteLength before) = some rest := by
  induction before with
  | nil => exact dropBytes.eq_1 rest
  | cons c before ih =>
      rw [List.cons_append, byteLength]
      obtain ⟨n, hn⟩ := exists_byteLength_eq c before
      rw [hn, dropBytes, if_pos (by omega), ← hn, Nat.add_sub_cancel_left, ih]

/-- What follows some bytes of a text follows the characters that take up these bytes. -/
theorem exists_of_dropBytes {text rest : List Char} {n : Nat} (h : dropBytes text n = some rest) :
    ∃ before, text = before ++ rest ∧ n = byteLength before := by
  fun_induction dropBytes text n with
  | case1 text =>
      cases h
      exact ⟨[], rfl, rfl⟩
  | case2 => cases h
  | case3 c text n hle ih =>
      obtain ⟨before, rfl, hn⟩ := ih h
      refine ⟨c :: before, rfl, ?_⟩
      rw [byteLength]
      omega
  | case4 => cases h

theorem takeBytes_append (text rest : List Char) :
    takeBytes (text ++ rest) (byteLength text) = some text := by
  induction text with
  | nil => exact takeBytes.eq_1 rest
  | cons c text ih =>
      rw [List.cons_append, byteLength]
      obtain ⟨n, hn⟩ := exists_byteLength_eq c text
      rw [hn, takeBytes, if_pos (by omega), ← hn, Nat.add_sub_cancel_left, ih]
      rfl

/-- The text at the span of a part is that part. -/
theorem Span.text?_eq (before text behind : List Char) :
    Span.text? ⟨byteLength before, byteLength before + byteLength text⟩
      (before ++ (text ++ behind)) = some text := by
  rw [Span.text?, if_pos (Nat.le_add_right _ _), dropBytes_append, Option.bind_some,
    Nat.add_sub_cancel_left, takeBytes_append]

/-! ## The whole text -/

theorem Cut.pairwise {start : Nat} {text rest : List Char} {tokens : List Token}
    (h : Cut start text tokens rest) :
    (∀ t ∈ tokens, start ≤ t.span.start) ∧
      tokens.Pairwise fun t u => t.span.stop ≤ u.span.start := by
  induction h with
  | done => exact ⟨nofun, .nil⟩
  | @token start gap written text rest t tokens _ _ first last _ ih =>
      refine ⟨fun u hu => ?_, List.pairwise_cons.mpr ih⟩
      rcases List.mem_cons.mp hu with rfl | hu
      · rw [first]
        exact Nat.le_add_right _ _
      · have hbehind := ih.1 u hu
        omega

/-- The token stands at its span. -/
def Token.StandsIn (t : Token) (source : List Char) : Prop :=
  ∃ before written behind, source = before ++ (written ++ behind) ∧
    t.span = ⟨byteLength before, byteLength (before ++ written)⟩ ∧ t.span.start < t.span.stop ∧
    t.span.text? source = some written ∧ t.Stands written behind

theorem Cut.standsIn {source : List Char} {tokens : List Token} (h : Cut 0 source tokens [])
    {t : Token} (ht : t ∈ tokens) : t.StandsIn source := by
  obtain ⟨u, v, rfl⟩ := List.append_of_mem ht
  obtain ⟨before, gap, written, behind, rfl, -, hstart, hstop, -, hstands, -⟩ := h.exists_token
  have hspan : t.span =
      ⟨byteLength (before ++ gap), byteLength (before ++ gap) + byteLength written⟩ := by
    rw [Nat.zero_add] at hstart
    rw [← hstart, ← hstop]
  rw [List.append_nil] at hstands
  refine ⟨before ++ gap, written, behind, (List.append_assoc _ _ _).symm, ?_, ?_, ?_, hstands⟩
  · rw [hspan, byteLength_append (before ++ gap)]
  · obtain ⟨c, more, rfl, -⟩ := hstands.exists_piece
    rw [hstop]
    exact Nat.lt_add_of_pos_right (byteLength_cons_pos c more)
  · rw [hspan, ← List.append_assoc before]
    exact Span.text?_eq _ _ _

/-- The tokens stand in the text one behind the other, and nothing but blanks, comments and lost
zeros stands in front of them, between them or behind them. -/
structure AccountFor (tokens : List Token) (source : List Char) : Prop where
  ordered : tokens.Pairwise fun t u => t.span.stop ≤ u.span.start
  standing : ∀ t ∈ tokens, t.StandsIn source
  between : ∀ u v, tokens = u ++ v → ∃ before gap behind, source = before ++ (gap ++ behind) ∧
    stopOf 0 u = byteLength before ∧
    (v.head?.map (·.span.start)).getD (byteLength source) = byteLength (before ++ gap) ∧
    Passed gap behind

/-- **Scanning loses nothing and makes nothing up.** The tokens of a text stand one behind the
other, each spelled as it is written and as long as it can be, and all that stands between them is
passed over for a reason. -/
theorem scan_lossless {source : List Char} {tokens : List Token} (h : scan source = .ok tokens) :
    AccountFor tokens source := by
  have hcut := scan_eq_ok_iff.mp h
  refine ⟨hcut.pairwise.2, fun t ht => hcut.standsIn ht, fun u v huv => ?_⟩
  subst huv
  cases v with
  | nil =>
      obtain ⟨before, gap, rfl, hstop, -, hgap⟩ := hcut.split
      cases hgap with
      | done passed =>
          refine ⟨before, gap, [], by rw [List.append_nil], ?_, rfl, passed⟩
          rw [hstop, Nat.zero_add]
  | cons t v =>
      obtain ⟨before, gap, written, behind, rfl, hstop, hstart, -, hgap, -, -⟩ :=
        hcut.exists_token
      rw [Nat.zero_add] at hstop hstart
      rw [List.append_nil] at hgap
      exact ⟨before, gap, written ++ behind, rfl, hstop, hstart, hgap⟩

/-- A comment with a character of two bytes, a marked number, and a marked zero that is lost to the
letter behind it. -/
theorem scan_lossless_lostZero :
    scan "# é\nB #0x2#0x".toList =
        .ok [⟨.word, "B", ⟨5, 6⟩⟩, ⟨.hexNumber, "0x2", ⟨7, 11⟩⟩, ⟨.word, "x", ⟨13, 14⟩⟩] ∧
      AccountFor [⟨.word, "B", ⟨5, 6⟩⟩, ⟨.hexNumber, "0x2", ⟨7, 11⟩⟩, ⟨.word, "x", ⟨13, 14⟩⟩]
        "# é\nB #0x2#0x".toList := by
  have hscan : scan "# é\nB #0x2#0x".toList =
      .ok [⟨.word, "B", ⟨5, 6⟩⟩, ⟨.hexNumber, "0x2", ⟨7, 11⟩⟩, ⟨.word, "x", ⟨13, 14⟩⟩] := by cbv
  exact ⟨hscan, scan_lossless hscan⟩

end ArmAssembly
