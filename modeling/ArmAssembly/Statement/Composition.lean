import ArmAssembly.Statement.Reader

set_option autoImplicit false

/-! # What all readers of the grammar have in common

The readers of the grammar are put together from single tokens. What holds of the smallest readers
and carries over from parts to wholes holds of all of them, so the grammar is walked once, here.

The walk has two readers in view, side by side. `P V r r'` says that `r` and `r'` are related and
come to values that `V` pairs; what the relation `P` is, the walk leaves open. It has to hold of the
smallest readers and of readers one after the other (`Reader.Sequential`). That is enough for all
operations but `byte` directives, which look at the part of the text that they take up
(`Reader.Closed`). The two readers can stand in two texts that are compared, or be the same reader
twice, where `V` only keeps track of the tokens that pass from part to part. A property of single
readers is a relation that looks at the first reader alone (`Reader.Compositional`).
-/

namespace ArmAssembly

/-- The cause quotes the token. -/
inductive Token.Quoted (t : Token) : Cause → Prop where
  | unexpected (expected : Expected) :
      Quoted t (.malformed (.unexpected expected t.kind t.lexeme))
  | unknownOperation : Quoted t (.malformed (.unknownOperation t.lexeme))
  | badFlag (base : BaseName) {flag : Char} (accepted : String)
      (letter : flag ∈ folded t.lexeme) : Quoted t (.malformed (.badFlag base flag accepted))
  | missingSuffix (choices : String) : Quoted t (.malformed (.missingSuffix t.lexeme choices))
  | immediateOnly : Quoted t (.malformed (.immediateOnly t.lexeme))
  | needlessSuffix : Quoted t (.malformed (.needlessSuffix t.lexeme))
  | notRegister : Quoted t (.malformed (.notRegister t.lexeme))
  | tooWide (place : OperandPlace) : Quoted t (.unencodable (.tooWide t.lexeme place))
  | noSuchRegister : Quoted t (.unencodable (.noSuchRegister t.lexeme))
  | noRotatedForm : Quoted t (.unencodable (.noRotatedForm t.lexeme))

/-! ## Single tokens

What a token is converted to depends on its kind and its lexeme, and so does the cause if the
conversion fails. Where the token stands shows in the span of the problem, and nowhere else. -/

/-- The tokens differ at most in where they stand. -/
structure Token.SameText (t u : Token) : Prop where
  kind : u.kind = t.kind
  lexeme : u.lexeme = t.lexeme

/-- Both are values that are paired, or they are problems with the one token and with the other, for
one cause that quotes them. -/
inductive Token.Matched (t u : Token) {α : Type} (V : α → α → Prop) :
    Except Problem α → Except Problem α → Prop where
  | ok {a b : α} (values : V a b) : Matched t u V (.ok a) (.ok b)
  | error {cause : Cause} (quoted : t.Quoted cause) :
      Matched t u V (.error ⟨cause, t.span⟩) (.error ⟨cause, u.span⟩)

namespace Token.SameText

variable {t u : Token} (h : t.SameText u)
include h

theorem unexpected (expected : Expected) :
    u.unexpected expected = u.malformed (.unexpected expected t.kind t.lexeme) := by
  rw [Token.unexpected, h.kind, h.lexeme]

theorem digits : u.digits = t.digits := by
  rw [Token.digits, Token.digits, h.kind, h.lexeme]

theorem value : u.value = t.value := by
  rw [Token.value, Token.value, h.kind, h.digits]

theorem isNamed (name : String) : u.isNamed name = t.isNamed name := by
  rw [Token.isNamed, Token.isNamed, h.kind, h.lexeme]

theorem register : t.Matched u Eq t.register u.register := by
  unfold Token.register
  rw [h.kind, h.lexeme]
  split
  · split
    · split
      · exact .ok rfl
      · exact .error .noSuchRegister
    · exact .error .notRegister
  · exact .error .notRegister

/-- The token itself is the value of the conversions that only look at its kind. -/
theorem numeric {T : Token → Token → Prop} (ht : T t u) : t.Matched u T t.numeric u.numeric := by
  unfold Token.numeric
  rw [h.kind, h.unexpected]
  split
  · exact .ok ht
  · exact .error (.unexpected _)

theorem hexLiteral {T : Token → Token → Prop} (ht : T t u) :
    t.Matched u T t.hexLiteral u.hexLiteral := by
  unfold Token.hexLiteral
  rw [h.kind, h.unexpected]
  split
  · exact .ok ht
  · exact .error (.unexpected _)

theorem field (place : OperandPlace) : t.Matched u Eq (t.field place) (u.field place) := by
  unfold Token.field
  rw [h.value, h.lexeme]
  split
  · exact .ok rfl
  · exact .error (.tooWide _)

theorem rotatedByte : t.Matched u Eq t.rotatedByte u.rotatedByte := by
  unfold Token.rotatedByte
  rw [h.value, h.lexeme]
  split
  · exact .ok rfl
  · exact .error .noRotatedForm

theorem dataWord : t.Matched u Eq t.dataWord u.dataWord := by
  have hfield := h.field .dataWord
  unfold Token.dataWord Token.numeric
  rw [h.kind, h.unexpected]
  split
  · exact hfield
  · exact .error (.unexpected _)

end Token.SameText

/-! ## Values side by side -/

/-- Values that are not looked at. -/
def Unread {α β : Type} (_ : α) (_ : β) : Prop := True

theorem unread {α β : Type} (a : α) (b : β) : Unread a b := trivial

/-- The lists have the same length, and their items are paired. -/
def Zipped {α : Type} (V : α → α → Prop) (xs ys : List α) : Prop :=
  ∃ pairs : List (α × α),
    (∀ p ∈ pairs, V p.1 p.2) ∧ pairs.map Prod.fst = xs ∧ pairs.map Prod.snd = ys

namespace Zipped

variable {α : Type} {V : α → α → Prop} {a b : α} {xs ys : List α}

theorem nil : Zipped V [] [] := ⟨[], by simp, rfl, rfl⟩

theorem cons (h : V a b) (hrest : Zipped V xs ys) : Zipped V (a :: xs) (b :: ys) := by
  obtain ⟨pairs, hpairs, rfl, rfl⟩ := hrest
  refine ⟨(a, b) :: pairs, fun p hp => ?_, rfl, rfl⟩
  rcases List.mem_cons.mp hp with rfl | hmem
  · exact h
  · exact hpairs p hmem

theorem reverse (h : Zipped V xs ys) : Zipped V xs.reverse ys.reverse := by
  obtain ⟨pairs, hpairs, rfl, rfl⟩ := h
  exact ⟨pairs.reverse, fun p hp => hpairs p (List.mem_reverse.mp hp), List.map_reverse,
    List.map_reverse⟩

/-- What is the same for items that are paired is the same for the lists. -/
theorem map_eq {β : Type} {f : α → β} (h : Zipped V xs ys) (hf : ∀ a b, V a b → f b = f a) :
    ys.map f = xs.map f := by
  obtain ⟨pairs, hpairs, rfl, rfl⟩ := h
  rw [List.map_map, List.map_map]
  exact List.map_congr_left fun p hp => hf _ _ (hpairs p hp)

end Zipped

namespace Reader

/-- The one reader if a dash comes next, and else the other. -/
def ifDash {α : Type} (r s : Reader α) : Reader α :=
  fun c => (if c.nextIs .dash then r else s) c

/-- The flags of an instruction where a dash comes next. -/
def flagLetters (base : BaseName) (accepted : String) : Reader (List Char) := do
  let _ ← token .flagLetters
  let letters ← kind .word .flagLetters
  let capitals := folded letters.lexeme
  match capitals.find? (!accepted.toList.contains ·) with
  | some flag => fail (letters.malformed (.badFlag base flag accepted))
  | none => return capitals

theorem flags_eq (base : BaseName) (accepted : String) :
    flags base accepted = ifDash (flagLetters base accepted) (pure []) := rfl

/-! ## Relations that carry over from parts to wholes -/

/-- The smallest readers are related, and the relation carries over to readers one after the other.
`T` pairs the tokens of the two sides. -/
structure Sequential (T : Token → Token → Prop)
    (P : {α : Type} → (α → α → Prop) → Reader α → Reader α → Prop) : Prop where
  sameText : ∀ {t u : Token}, T t u → t.SameText u
  pure : ∀ {α : Type} {V : α → α → Prop} {a b : α}, V a b → P V (pure a) (pure b)
  fail : ∀ {α : Type} {V : α → α → Prop} {t u : Token} {cause : Cause}, T t u → t.Quoted cause →
    P V (fail ⟨cause, t.span⟩) (fail ⟨cause, u.span⟩)
  token : ∀ expected : Expected, P T (token expected) (token expected)
  listRest : ∀ {α : Type} {V : α → α → Prop} (expected : Expected)
    {convert : Token → Except Problem α},
    (∀ t u, T t u → t.Matched u V (convert t) (convert u)) →
    ∀ {found found' : List α}, Zipped V found found' →
      P (Zipped V) (fun c => listRest expected convert found c.before c.after)
        fun c => listRest expected convert found' c.before c.after
  bind : ∀ {α β : Type} {V : α → α → Prop} {W : β → β → Prop} {r r' : Reader α}
    {k k' : α → Reader β}, P V r r' → (∀ a b, V a b → P W (k a) (k' b)) →
      P W (r >>= k) (r' >>= k')
  ifDash : ∀ {α : Type} {V : α → α → Prop} {r r' s s' : Reader α}, P V r r' → P V s s' →
    P V (ifDash r s) (ifDash r' s')

/-- So are the readers that look at the part of the text that an operation takes up. `S` pairs these
parts. -/
structure Closed (T : Token → Token → Prop) (S : Span → Span → Prop)
    (P : {α : Type} → (α → α → Prop) → Reader α → Reader α → Prop) : Prop
    extends Sequential T P where
  spanFrom : ∀ {head head' : Token}, T head head' → P S (spanFrom head) (spanFrom head')
  failOver : ∀ {α : Type} {V : α → α → Prop} {s s' : Span} (cause : Cause), S s s' →
    P V (Reader.fail ⟨cause, s⟩) (Reader.fail ⟨cause, s'⟩)

namespace Sequential

variable {T : Token → Token → Prop} {P : {α : Type} → (α → α → Prop) → Reader α → Reader α → Prop}
  {α β : Type} {V : α → α → Prop} {W : β → β → Prop} (h : Sequential T P)
include h

/-- Where values are the same on both sides, what comes behind them can be, too. -/
theorem bind_same {r r' : Reader α} {k k' : α → Reader β} (hr : P Eq r r')
    (hk : ∀ a, P W (k a) (k' a)) : P W (r >>= k) (r' >>= k') :=
  h.bind hr fun a _ hab => hab ▸ hk a

theorem ofExcept {t u : Token} {x y : Except Problem α} (ht : T t u) (hresult : t.Matched u V x y) :
    P V (ofExcept x) (ofExcept y) := by
  cases hresult with
  | ok values => exact h.pure values
  | error quoted => exact h.fail ht quoted

theorem kind (k : TokenKind) (expected : Expected) : P T (kind k expected) (kind k expected) := by
  refine h.bind (h.token _) fun t u ht => ?_
  rw [(h.sameText ht).kind, (h.sameText ht).unexpected]
  split
  · exact h.pure ht
  · exact h.fail ht (.unexpected _)

theorem comma : P Eq comma comma :=
  h.bind (h.kind _ _) fun _ _ _ => h.pure rfl

theorem register : P Eq register register :=
  h.bind (h.token _) fun _ _ ht => h.ofExcept ht (h.sameText ht).register

theorem number : P T number number :=
  h.bind (h.token _) fun _ _ ht => h.ofExcept ht ((h.sameText ht).numeric ht)

theorem field (place : OperandPlace) : P Eq (field place) (field place) :=
  h.bind h.number fun _ _ ht => h.ofExcept ht ((h.sameText ht).field place)

/-- A label keeps the place where it is used, so the two need not be the same. -/
theorem label : P Unread label label :=
  h.bind (h.kind _ _) fun _ _ _ => h.pure (unread _ _)

theorem list (expected : Expected) {convert : Token → Except Problem α}
    (hconvert : ∀ t u, T t u → t.Matched u V (convert t) (convert u)) :
    P (Zipped V) (list expected convert) (list expected convert) :=
  h.bind (h.token _) fun t u ht => h.bind (h.ofExcept ht (hconvert t u ht)) fun _ _ hfirst =>
    h.listRest expected hconvert (.cons hfirst .nil)

theorem flags (base : BaseName) (accepted : String) :
    P Eq (flags base accepted) (flags base accepted) := by
  rw [flags_eq]
  refine h.ifDash ?_ (h.pure rfl)
  refine h.bind (h.token _) fun _ _ _ => h.bind (h.kind _ _) fun letters letters' ht => ?_
  rw [(h.sameText ht).lexeme]
  dsimp only
  split
  · next flag hflag => exact h.fail ht (.badFlag _ _ (List.mem_of_find?_eq_some hflag))
  · exact h.pure rfl

/-! ### Operations

What an operation is read as has spans in it, so nothing is said of these values. -/

theorem branch (m : Mnemonic) (link : Bool) : P Unread (branch m link) (branch m link) := by
  refine h.bind (h.token _) fun t u ht => ?_
  rw [(h.sameText ht).kind, (h.sameText ht).unexpected]
  split
  · exact h.bind_same (h.ofExcept ht ((h.sameText ht).field _)) fun _ => h.pure (unread _ _)
  · split
    · exact h.pure (unread _ _)
    · exact h.fail ht (.unexpected _)

theorem words : P Unread words words :=
  h.bind (h.kind _ _) fun _ _ _ =>
    h.bind (h.list _ fun _ _ ht => (h.sameText ht).dataWord) fun _ _ _ => h.pure (unread _ _)

variable {head head' : Token} (hhead : T head head')
include hhead

theorem operand (suffix : Option Suffix) {number number' : Reader α}
    (hnumber : P Eq number number') :
    P Eq (operand head suffix number) (operand head' suffix number') := by
  unfold Reader.operand
  rw [(h.sameText hhead).lexeme]
  split
  · exact h.bind_same hnumber fun _ => h.pure rfl
  · exact h.bind_same h.register fun _ => h.pure rfl
  · exact h.fail hhead (.missingSuffix _)

theorem arithmetic (m : Mnemonic) (operation : Arithmetic) :
    P Unread (arithmetic head m operation) (arithmetic head' m operation) :=
  h.bind_same (h.flags _ _) fun _ => h.bind_same h.register fun _ => h.bind_same h.comma fun _ =>
    h.bind_same h.register fun _ => h.bind_same h.comma fun _ =>
      h.bind_same (h.operand hhead _ (h.bind h.number fun _ _ ht =>
        h.ofExcept ht (h.sameText ht).rotatedByte)) fun _ => h.pure (unread _ _)

theorem compare (m : Mnemonic) : P Unread (compare head m) (compare head' m) :=
  h.bind_same h.register fun _ => h.bind_same h.comma fun _ =>
    h.bind_same (h.operand hhead _ (h.field _)) fun _ => h.pure (unread _ _)

theorem move (m : Mnemonic) : P Unread (move head m) (move head' m) := by
  unfold Reader.move
  rw [(h.sameText hhead).lexeme]
  split
  · exact h.fail hhead (.missingSuffix _)
  · refine h.bind_same h.register fun _ => h.bind_same h.comma fun _ => ?_
    split
    · exact h.bind_same (h.field _) fun _ => h.pure (unread _ _)
    · exact h.bind_same h.register fun _ => h.pure (unread _ _)
    · exact h.bind h.label fun _ _ _ => h.pure (unread _ _)

theorem moveTop (m : Mnemonic) : P Unread (moveTop head m) (moveTop head' m) := by
  unfold Reader.moveTop
  rw [(h.sameText hhead).lexeme]
  split
  · exact h.bind_same h.register fun _ => h.bind_same h.comma fun _ =>
      h.bind_same (h.field _) fun _ => h.pure (unread _ _)
  · exact h.fail hhead .immediateOnly

theorem transfer (m : Mnemonic) (kind : TransferKind) :
    P Unread (transfer head m kind) (transfer head' m kind) :=
  h.bind_same (h.flags _ _) fun _ => h.bind_same h.register fun _ => h.bind_same h.comma fun _ =>
    h.bind_same h.register fun _ => h.bind_same h.comma fun _ =>
      h.bind_same (h.operand hhead _ (h.field _)) fun _ => h.pure (unread _ _)

theorem stack (m : Mnemonic) (kind : StackKind) :
    P Unread (stack head m kind) (stack head' m kind) := by
  unfold Reader.stack
  rw [(h.sameText hhead).lexeme]
  split
  · exact h.fail hhead .needlessSuffix
  · exact h.bind (h.kind _ _) fun _ _ _ =>
      h.bind (h.list _ fun _ _ ht => (h.sameText ht).register) fun _ _ _ =>
        h.bind (h.kind _ _) fun _ _ _ => h.pure (unread _ _)

theorem operands (m : Mnemonic) : P Unread (operands head m) (operands head' m) := by
  unfold Reader.operands
  cases m.base with
  | branch | branchLink => exact h.branch _ _
  | and | orr | add | sub => exact h.arithmetic hhead _ _
  | compare => exact h.compare hhead _
  | move | moveWide => exact h.move hhead _
  | moveTop => exact h.moveTop hhead _
  | load | loadByte | store => exact h.transfer hhead _ _
  | push | pop => exact h.stack hhead _ _

end Sequential

namespace Closed

variable {T : Token → Token → Prop} {S : Span → Span → Prop}
  {P : {α : Type} → (α → α → Prop) → Reader α → Reader α → Prop} (h : Closed T S P)
include h

/-- The digits of literals that are paired are the same, so they make the same bytes, or are blamed
for the same cause. -/
theorem bytesOfLiterals {literals literals' : List Token} {s s' : Span}
    (hliterals : Zipped T literals literals') (hspans : S s s') :
    P Eq (Reader.ofExcept (bytesOfLiterals literals s))
      (Reader.ofExcept (bytesOfLiterals literals' s')) := by
  have hlexemes : literals'.map Token.lexeme = literals.map Token.lexeme :=
    hliterals.map_eq fun _ _ ht => (h.sameText ht).lexeme
  have hdigits : literals'.flatMap Token.digits = literals.flatMap Token.digits := by
    rw [List.flatMap_def, List.flatMap_def, hliterals.map_eq fun _ _ ht => (h.sameText ht).digits]
  unfold ArmAssembly.bytesOfLiterals
  rw [hlexemes, hdigits]
  dsimp only
  split
  · exact h.failOver _ hspans
  · split
    · exact h.pure rfl
    · exact h.failOver _ hspans

variable {head head' : Token} (hhead : T head head')
include hhead

theorem bytes : P Unread (bytes head) (bytes head') :=
  h.bind (h.kind _ _) fun _ _ _ =>
    h.bind (h.list _ fun _ _ ht => (h.sameText ht).hexLiteral ht) fun _ _ hliterals =>
      h.bind (h.spanFrom hhead) fun _ _ hspans =>
        h.bind_same (h.bytesOfLiterals hliterals hspans) fun _ => h.pure (unread _ _)

theorem afterHead : P Unread (afterHead head) (afterHead head') := by
  unfold Reader.afterHead
  rw [(h.sameText hhead).isNamed, (h.sameText hhead).isNamed, (h.sameText hhead).lexeme]
  split
  · exact h.bytes hhead
  · split
    · exact h.words
    · split
      · exact h.operands hhead _
      · exact h.fail hhead .unknownOperation

/-- An operation behind its first word. -/
theorem tail :
    P Unread
      (do
        let item ← Reader.afterHead head
        let span ← Reader.spanFrom head
        return (⟨item, span⟩ : Located Item))
      (do
        let item ← Reader.afterHead head'
        let span ← Reader.spanFrom head'
        return (⟨item, span⟩ : Located Item)) :=
  h.bind (h.afterHead hhead) fun _ _ _ => h.bind (h.spanFrom hhead) fun _ _ _ =>
    h.pure (unread _ _)

omit hhead in
/-- **The walk of the grammar**: an operation is related to itself. -/
theorem operation : P Unread operation operation :=
  h.bind (h.kind _ _) fun _ _ hhead => h.tail hhead

end Closed

/-! ## Properties of single readers

A property of single readers becomes a relation if the second reader is not looked at. The values
that the first one comes to still have to be paired with something, or nothing would be known of
what comes behind them. -/

/-- The reader comes to this value somewhere. -/
def Returns {α : Type} (r : Reader α) (a : α) : Prop := ∃ c d, r c = .ok a d

/-- The property carries over from parts to wholes. What comes behind a reader needs to have it only
for the values that the reader comes to. -/
structure Compositional (P : {α : Type} → Reader α → Prop) : Prop where
  pure : ∀ {α : Type} (a : α), P (pure a)
  fail : ∀ {α : Type} (problem : Problem), P (fail problem : Reader α)
  token : ∀ expected : Expected, P (token expected)
  listRest : ∀ {α : Type} (expected : Expected) (convert : Token → Except Problem α)
    (found : List α), P fun c => listRest expected convert found c.before c.after
  bind : ∀ {α β : Type} {r : Reader α} {k : α → Reader β}, P r → (∀ a, r.Returns a → P (k a)) →
    P (r >>= k)
  ifDash : ∀ {α : Type} {r s : Reader α}, P r → P s → P (ifDash r s)
  spanFrom : ∀ head : Token, P (spanFrom head)

/-- The first reader has the property, and what it comes to is paired with some value. -/
def Alone (P : {α : Type} → Reader α → Prop) {α : Type} (V : α → α → Prop) (r _r' : Reader α) :
    Prop :=
  P r ∧ ∀ a, r.Returns a → ∃ b, V a b

theorem returns_bind {α β : Type} {r : Reader α} {k : α → Reader β} {b : β}
    (h : (r >>= k).Returns b) : ∃ a, r.Returns a ∧ (k a).Returns b := by
  obtain ⟨c, e, h⟩ := h
  change EStateM.bind r k c = _ at h
  unfold EStateM.bind at h
  cases hread : r c with
  | error problem d =>
      rw [hread] at h
      cases h
  | ok a d =>
      rw [hread] at h
      exact ⟨a, ⟨c, d, hread⟩, d, e, h⟩

/-- If every item that can be read has a partner, so has the list of them. -/
theorem exists_zipped_of_listRest {α : Type} {V : α → α → Prop} {expected : Expected}
    {convert : Token → Except Problem α} (hconvert : ∀ t a, convert t = .ok a → ∃ b, V a b)
    {found found' xs : List α} (hfound : Zipped V found found') {before after : List Token}
    {d : Cursor} (h : listRest expected convert found before after = .ok xs d) :
    ∃ ys, Zipped V xs ys := by
  fun_induction listRest expected convert found before after generalizing found' with
  | case1 | case3 | case6 =>
      cases h
      exact ⟨_, hfound.reverse⟩
  | case2 | case5 => cases h
  | case4 found before t item rest ht a ha ih =>
      obtain ⟨b, hab⟩ := hconvert item a ha
      exact ih (.cons hab hfound) h

namespace Compositional

variable {P : {α : Type} → Reader α → Prop} (h : Compositional P)
include h

/-- The tokens of the second reader are those of the first. -/
theorem closed : Closed Eq Unread (Alone P) where
  sameText := by
    rintro t _ rfl
    exact ⟨rfl, rfl⟩
  pure {α V a b} hab := by
    refine ⟨h.pure a, ?_⟩
    rintro _ ⟨c, d, hread⟩
    cases hread
    exact ⟨b, hab⟩
  fail _ _ := by
    refine ⟨h.fail _, ?_⟩
    rintro _ ⟨c, d, hread⟩
    cases hread
  failOver cause _ := by
    refine ⟨h.fail _, ?_⟩
    rintro _ ⟨c, d, hread⟩
    cases hread
  token expected := ⟨h.token expected, fun t _ => ⟨t, rfl⟩⟩
  listRest {α V} expected {convert} hconvert {found found'} hfound := by
    refine ⟨h.listRest expected convert found, ?_⟩
    rintro xs ⟨c, d, hread⟩
    refine exists_zipped_of_listRest (fun t a ha => ?_) hfound hread
    have hmatched := hconvert t t rfl
    rw [ha] at hmatched
    cases hmatched with
    | ok values => exact ⟨_, values⟩
  bind {α β V W r r' k k'} hr hk := by
    refine ⟨h.bind hr.1 fun a ha => ?_, fun b hb => ?_⟩
    · obtain ⟨b, hab⟩ := hr.2 a ha
      exact (hk a b hab).1
    · obtain ⟨a, ha, hb⟩ := returns_bind hb
      obtain ⟨a', haa'⟩ := hr.2 a ha
      exact (hk a a' haa').2 b hb
  ifDash {α V r r' s s'} hr hs := by
    refine ⟨h.ifDash hr.1 hs.1, ?_⟩
    rintro a ⟨c, d, hread⟩
    unfold Reader.ifDash at hread
    split at hread
    · exact hr.2 a ⟨c, d, hread⟩
    · exact hs.2 a ⟨c, d, hread⟩
  spanFrom {head head'} _ := ⟨h.spanFrom head, fun span _ => ⟨span, unread _ _⟩⟩

theorem operation : P operation := h.closed.operation.1

/-- An operation behind its first word. -/
theorem tail (head : Token) :
    P (do
      let item ← Reader.afterHead head
      let span ← Reader.spanFrom head
      return (⟨item, span⟩ : Located Item)) :=
  (h.closed.tail (rfl : head = head)).1

end Compositional

end Reader

end ArmAssembly
