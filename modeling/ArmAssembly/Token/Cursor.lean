import ArmAssembly.Token

set_option autoImplicit false

/-! # A place between tokens

A cursor stands between the tokens that were read and the tokens that are left. It can go
back, and it never loses a token: the tokens before it and after it are always the same
sequence.
-/

namespace ArmAssembly

/-- A place in a sequence of tokens: those before it, the nearest first, and those after. -/
structure Cursor where
  before : List Token
  after : List Token
deriving DecidableEq

/-- There was no token at a cursor's place. -/
structure EndOfStream where
  position : Nat
deriving DecidableEq

/-- The wording of a missing token. -/
def EndOfStream.message (e : EndOfStream) : String :=
  s!"unexpected end of input after token {e.position}"

namespace Cursor

/-- The place in front of all tokens. -/
def ofList (tokens : List Token) : Cursor := ⟨[], tokens⟩

/-- How many tokens were read. -/
def position (c : Cursor) : Nat := c.before.length

/-- There are tokens left. -/
def hasNext (c : Cursor) : Bool := !c.after.isEmpty

/-- The next token, which stays unread. -/
def peek? (c : Cursor) : Option Token := c.after.head?

/-- The next token is of this kind. -/
def nextIs (c : Cursor) (kind : TokenKind) : Bool :=
  match c.after with
  | [] => false
  | t :: _ => t.kind = kind

/-- Reads the next token. -/
def next (c : Cursor) : Except EndOfStream (Token × Cursor) :=
  match c.after with
  | [] => .error ⟨c.position⟩
  | t :: rest => .ok (t, ⟨t :: c.before, rest⟩)

/-- The token read last. -/
def previous (c : Cursor) : Except EndOfStream Token :=
  match c.before with
  | [] => .error ⟨c.position⟩
  | t :: _ => .ok t

/-- Gives back the last `n` tokens, or all if there were fewer. -/
def rewind (c : Cursor) : Nat → Cursor
  | 0 => c
  | n + 1 =>
    match c.before with
    | [] => c
    | t :: earlier => rewind ⟨earlier, t :: c.after⟩ n

/-- Gives back all tokens. -/
def reset (c : Cursor) : Cursor := c.rewind c.position

/-- Reading some tokens leads from one place to the other. -/
def ReadsTo (c d : Cursor) : Prop :=
  ∃ taken, c.after = taken ++ d.after ∧ d.before = taken.reverse ++ c.before

theorem ReadsTo.refl (c : Cursor) : c.ReadsTo c := ⟨[], rfl, rfl⟩

theorem ReadsTo.trans {c d e : Cursor} (first : c.ReadsTo d) (second : d.ReadsTo e) :
    c.ReadsTo e := by
  obtain ⟨taken, hafter, hbefore⟩ := first
  obtain ⟨more, hafter', hbefore'⟩ := second
  exact ⟨taken ++ more, by simp [hafter, hafter'], by simp [hbefore, hbefore']⟩

theorem ReadsTo.length_le {c d : Cursor} (h : c.ReadsTo d) : d.after.length ≤ c.after.length := by
  obtain ⟨taken, hafter, -⟩ := h
  simp [hafter]

/-- Where the token read last ends, and the start of the text if none was read. -/
def lastStop (c : Cursor) : Nat :=
  match c.before with
  | [] => 0
  | t :: _ => t.span.stop

end Cursor

end ArmAssembly
