import ArmAssembly.Token.Scan
import Mathlib

set_option autoImplicit false

/-! # Scanning piece by piece

Scanning fails only over a character that begins no piece (`scan_error`). What a text is cut
into depends on the text alone and not on what was found before it, so texts can be scanned one
behind the other (`Scans.append`). A word, a number or a run of blanks ends where the class of
its characters ends; that the next text does not go on with the class is the only thing to be
known about it (`Breaks`).
-/

namespace ArmAssembly

theorem scanFrom_error {start : Nat} {found : List Token} {text : List Char} {problem : Problem}
    (h : scanFrom start found text = .error problem) :
    ∃ symbol, problem.cause = .unknownSymbol symbol := by
  fun_induction scanFrom start found text with
  | case1 start found => cases h
  | case2 start found c rest more hpiece ih => exact ih h
  | case3 start found c rest kind more hpiece text stop ih => exact ih h
  | case4 start found c rest hpiece =>
      cases h
      exact ⟨c, rfl⟩

/-- Scanning fails only over a character that belongs to no token. -/
theorem scan_error {source : List Char} {problem : Problem} (h : scan source = .error problem) :
    ∃ symbol, problem.cause = .unknownSymbol symbol := scanFrom_error h

/-! ## The order of tokens -/

theorem byteLength_cons_pos (c : Char) (text : List Char) : 0 < byteLength (c :: text) :=
  Nat.add_pos_left c.utf8Size_pos _

theorem pairwise_start_of_scanFrom {start : Nat} {found : List Token} {text : List Char}
    {tokens : List Token} (h : scanFrom start found text = .ok tokens)
    (hfound : found.Pairwise fun t u => u.span.start < t.span.start)
    (hbefore : ∀ t ∈ found, t.span.start < start) :
    tokens.Pairwise fun t u => t.span.start < u.span.start := by
  fun_induction scanFrom start found text with
  | case1 start found =>
      cases h
      exact List.pairwise_reverse.mpr hfound
  | case2 start found c rest more hpiece ih =>
      exact ih h hfound fun t ht => Nat.lt_add_right _ (hbefore t ht)
  | case3 start found c rest kind more hpiece text stop ih =>
      have hstop : start < stop := Nat.lt_add_of_pos_right (byteLength_cons_pos c _)
      refine ih h (List.pairwise_cons.mpr ⟨hbefore, hfound⟩) fun t ht => ?_
      obtain rfl | ht := List.mem_cons.mp ht
      · exact hstop
      · exact (hbefore t ht).trans hstop
  | case4 start found c rest hpiece => cases h

/-- The tokens of a text begin one behind the other, so no two have the same place. -/
theorem pairwise_start_of_scan {source : List Char} {tokens : List Token}
    (h : scan source = .ok tokens) :
    tokens.Pairwise fun t u => t.span.start < u.span.start :=
  pairwise_start_of_scanFrom h .nil fun _ => nofun

/-! ## One piece -/

section

variable {c : Char} {more rest : List Char} {kind : TokenKind} {start : Nat} {found : List Token}

/-- Scanning goes on behind a piece that is passed over. -/
theorem scanFrom_skipped (h : pieceAt c (more ++ rest) = .skipped more.length) :
    scanFrom start found (c :: (more ++ rest)) =
      scanFrom (start + byteLength (c :: more)) found rest := by
  rw [scanFrom, h]
  simp only [List.take_left', List.drop_left']

/-- Scanning finds a token and goes on behind it. -/
theorem scanFrom_token (h : pieceAt c (more ++ rest) = .token kind more.length) :
    scanFrom start found (c :: (more ++ rest)) =
      scanFrom (start + byteLength (c :: more))
        (⟨kind, lexemeOf kind (c :: more), ⟨start, start + byteLength (c :: more)⟩⟩ :: found)
        rest := by
  rw [scanFrom, h]
  simp only [List.take_left', List.drop_left']

/-- No mark is left out where there is none. -/
theorem lexemeOf_of_ne (h : c ≠ '#') (kind : TokenKind) (more : List Char) :
    lexemeOf kind (c :: more) = String.ofList (c :: more) := by
  unfold lexemeOf
  split
  · next heq => exact absurd (List.cons.inj heq).1 h
  · rfl

end

/-! ## Texts one behind the other

Where a text begins and what was found before it are left open in `Scans`, so that the texts which
are put together need not be known. -/

/-- What a token is without its place: its kind and its lexeme. -/
abbrev View : Type := TokenKind × String

/-- A token without its place. -/
def Token.view (t : Token) : View := (t.kind, t.lexeme)

/-- In front of `rest`, the text is cut into tokens with the given kinds and lexemes, whatever
was found before it. -/
def Scans (text : List Char) (views : List View) (rest : List Char) : Prop :=
  ∀ start found, ∃ (stop : Nat) (tokens : List Token), tokens.map Token.view = views ∧
    scanFrom start found (text ++ rest) = scanFrom stop (tokens.reverse ++ found) rest

namespace Scans

variable {u v rest : List Char} {a b : List View}

theorem nil (rest : List Char) : Scans [] [] rest :=
  fun start _ => ⟨start, [], rfl, rfl⟩

theorem append (first : Scans u a (v ++ rest)) (second : Scans v b rest) :
    Scans (u ++ v) (a ++ b) rest := by
  intro start found
  obtain ⟨middle, tokens, hviews, hfirst⟩ := first start found
  obtain ⟨stop, tokens', hviews', hsecond⟩ := second middle (tokens.reverse ++ found)
  refine ⟨stop, tokens ++ tokens', by rw [List.map_append, hviews, hviews'], ?_⟩
  rw [List.append_assoc, hfirst, hsecond, List.reverse_append, List.append_assoc]

theorem of_skipped {c : Char} {more : List Char}
    (h : pieceAt c (more ++ rest) = .skipped more.length) : Scans (c :: more) [] rest :=
  fun _ _ => ⟨_, [], rfl, scanFrom_skipped h⟩

theorem of_token {c : Char} {more : List Char} {kind : TokenKind}
    (h : pieceAt c (more ++ rest) = .token kind more.length) :
    Scans (c :: more) [(kind, lexemeOf kind (c :: more))] rest :=
  fun _ _ => ⟨_, [_], rfl, scanFrom_token h⟩

/-- A text that is cut into tokens up to its end is scanned. -/
theorem scan_eq {text : List Char} {views : List View} (h : Scans text views []) :
    ∃ tokens, scan text = .ok tokens ∧ tokens.map Token.view = views := by
  obtain ⟨stop, tokens, hviews, hscan⟩ := h 0 []
  rw [List.append_nil, List.append_nil, scanFrom, List.reverse_reverse] at hscan
  exact ⟨tokens, hscan, hviews⟩

end Scans

/-! ## Single pieces -/

/-- A run of characters of the class `p` ends in front of `rest`. -/
def Breaks (p : Char → Bool) (rest : List Char) : Prop :=
  ∀ c ∈ rest.head?, p c = false

theorem breaks_nil (p : Char → Bool) : Breaks p [] := by
  intro c hc
  cases hc

theorem breaks_cons {p : Char → Bool} {c : Char} (rest : List Char) (h : p c = false) :
    Breaks p (c :: rest) := by
  intro d hd
  cases hd
  exact h

theorem Breaks.mono {p q : Char → Bool} {rest : List Char} (h : Breaks p rest)
    (hpq : ∀ c, q c = true → p c = true) : Breaks q rest := by
  intro c hc
  cases hq : q c with
  | false => rfl
  | true => rw [← h c hc, hpq c hq]

theorem leading_append {p : Char → Bool} {more rest : List Char} (hmore : more.all p = true)
    (hrest : Breaks p rest) : leading p (more ++ rest) = more.length := by
  rw [leading, List.takeWhile_append_of_pos (List.all_eq_true.mp hmore), List.length_append]
  cases rest with
  | nil => rfl
  | cons c rest => simp [hrest c rfl]

/-- A letter and then letters and digits. -/
def isWord : List Char → Bool
  | c :: cs => c.isAlpha && cs.all Char.isAlphanum
  | [] => false

theorem not_isBlank_of_isAlpha {c : Char} (h : c.isAlpha = true) : isBlank c = false := by
  cases hblank : isBlank c with
  | false => rfl
  | true =>
      simp only [isBlank, Bool.or_eq_true, decide_eq_true_eq] at hblank
      rcases hblank with (((rfl | rfl) | rfl) | rfl) | rfl <;> exact absurd h (by decide)

theorem isAlphanum_of_isHexDigit {c : Char} (h : isHexDigit c = true) : c.isAlphanum = true := by
  simp only [isHexDigit, Char.isAlphanum, Char.isAlpha, Char.isUpper, Char.isLower, Char.isDigit,
    Bool.or_eq_true, Bool.and_eq_true, decide_eq_true_eq, Char.le_def, UInt32.le_iff_toNat_le,
    ge_iff_le] at h ⊢
  have hupper : 'F'.val.toNat ≤ 'Z'.val.toNat := by decide
  have hlower : 'f'.val.toNat ≤ 'z'.val.toNat := by decide
  omega

/-- A letter begins a word. -/
theorem pieceAt_word {c : Char} {more rest : List Char} (hc : c.isAlpha = true)
    (hmore : more.all Char.isAlphanum = true) (hrest : Breaks Char.isAlphanum rest) :
    pieceAt c (more ++ rest) = .token .word more.length := by
  have hmark : c ≠ '#' := by
    rintro rfl
    exact absurd hc (by decide)
  rw [pieceAt, not_isBlank_of_isAlpha hc, if_neg Bool.false_ne_true, if_neg hmark, if_pos hc,
    leading_append hmore hrest]

theorem pieceAt_mark {c : Char} {kind : TokenKind} (h : mark? c = some kind) (rest : List Char) :
    pieceAt c rest = .token kind 0 := by
  unfold mark? at h
  split at h <;> cases h <;> rfl

theorem scans_word {word rest : List Char} (hword : isWord word = true)
    (hrest : Breaks Char.isAlphanum rest) :
    Scans word [(.word, String.ofList word)] rest := by
  cases word with
  | nil => cases hword
  | cons c more =>
      rw [isWord, Bool.and_eq_true] at hword
      obtain ⟨hc, hmore⟩ := hword
      have hmark : c ≠ '#' := by
        rintro rfl
        exact absurd hc (by decide)
      rw [← lexemeOf_of_ne hmark .word more]
      exact Scans.of_token (pieceAt_word hc hmore hrest)

/-- A hexadecimal number behind the mark that tells it from a comment. -/
theorem scans_hexNumber {digits rest : List Char} (hne : digits ≠ [])
    (hdigits : digits.all isHexDigit = true) (hrest : Breaks isHexDigit rest) :
    Scans ('#' :: '0' :: 'x' :: digits) [(.hexNumber, String.ofList ('0' :: 'x' :: digits))]
      rest := by
  have hfollows : hexFollows ('x' :: (digits ++ rest)) = true := by
    cases digits with
    | nil => exact absurd rfl hne
    | cons d ds =>
        rw [List.all_cons, Bool.and_eq_true] at hdigits
        rw [List.cons_append, hexFollows, hdigits.1]
        rfl
  refine Scans.of_token (c := '#') ?_
  have hpiece : pieceAt '#' ('0' :: 'x' :: (digits ++ rest)) =
      markedPiece ('0' :: 'x' :: (digits ++ rest)) := rfl
  rw [List.cons_append, List.cons_append, hpiece, markedPiece]
  simp [numberAt, hfollows, leading_append hdigits hrest]
  omega

theorem scans_mark {c : Char} {kind : TokenKind} (h : mark? c = some kind) (rest : List Char) :
    Scans [c] [(kind, String.ofList [c])] rest := by
  have hmark : c ≠ '#' := by
    rintro rfl
    cases h
  rw [← lexemeOf_of_ne hmark kind []]
  exact Scans.of_token (pieceAt_mark h _)

theorem scans_blank {c : Char} {rest : List Char} (h : isBlank c = true)
    (hrest : Breaks isBlank rest) : Scans [c] [] rest := by
  have hleading : leading isBlank ([] ++ rest) = 0 := leading_append rfl hrest
  refine Scans.of_skipped ?_
  rw [pieceAt, if_pos h, hleading]
  rfl

/-! ## A piece and what follows it -/

/-- The text begins with a character that is no blank. -/
def Opens (text : List Char) : Prop :=
  ∃ c more, text = c :: more ∧ isBlank c = false

theorem opens_cons {c : Char} (more : List Char) (h : isBlank c = false) : Opens (c :: more) :=
  ⟨c, more, rfl, h⟩

theorem Opens.append {text : List Char} (h : Opens text) (more : List Char) :
    Opens (text ++ more) := by
  obtain ⟨c, text, rfl, hc⟩ := h
  exact opens_cons _ hc

theorem Opens.intercalate {text : String} (h : Opens text.toList) (separator : String)
    (texts : List String) : Opens (separator.intercalate (text :: texts)).toList := by
  cases texts with
  | nil =>
      rw [String.intercalate_singleton]
      exact h
  | cons next texts =>
      rw [String.intercalate_cons_cons, String.toList_append, String.toList_append,
        List.append_assoc]
      exact h.append _

theorem Opens.breaks {text : List Char} (h : Opens text) (rest : List Char) :
    Breaks isBlank (text ++ rest) := by
  obtain ⟨c, text, rfl, hc⟩ := h
  exact breaks_cons _ hc

namespace Scans

variable {text rest : List Char} {views : List View}

theorem word_append {word : String} (hword : isWord word.toList = true)
    (hbreaks : Breaks Char.isAlphanum (text ++ rest)) (h : Scans text views rest) :
    Scans (word.toList ++ text) ((.word, word) :: views) rest := by
  have hscan := scans_word hword hbreaks
  rw [String.ofList_toList] at hscan
  exact hscan.append h

theorem mark_cons {c : Char} {kind : TokenKind} (hmark : mark? c = some kind)
    (h : Scans text views rest) :
    Scans (c :: text) ((kind, String.ofList [c]) :: views) rest :=
  (scans_mark hmark (text ++ rest)).append h

theorem blank_cons {c : Char} (hblank : isBlank c = true) (hopens : Opens text)
    (h : Scans text views rest) : Scans (c :: text) views rest :=
  (scans_blank hblank (hopens.breaks rest)).append h

end Scans

end ArmAssembly
