import Mathlib.Data.Nat.Notation
import UvaAnalysis.Tree.Statement

/-!
# Parsing with a cursor

A reader is given the tokens that are left and the levels of nesting that are left, and its loops
are bounded by the tokens at hand.  A procedure is given nothing of the kind.  All procedures share
a cursor, which has the index of the next token, the number of levels that are open and the children
of the node that is being built; each procedure moves it on, and raises and lowers the count of
levels as it goes.  Their loops go on until a token ends them.

Here are the moves of a cursor.  They are computations that may call procedures, and take these from
a table, since a procedure may call itself inside what it reads.
-/

namespace UvaAnalysis

namespace Tree

/-- The state that the procedures of a parser share. -/
structure Cursor where
  /-- The index of the next token. -/
  position : ℕ
  /-- The number of statements and expressions that are open. -/
  depth : ℕ
  /-- The children that the node under construction has so far. -/
  nodes : List Tree
  /-- The least precedences of all chains of binary operators that were asked for so far.  Nothing
  is decided by them. -/
  asked : List ℕ

/-- A computation that moves a cursor and may fail with a fault.  After a failure the cursor stays
where it is, and without a result the computation does not come to an end. -/
abbrev Motion (α : Type) := ExceptT Fault (StateT Cursor Option) α

/-- The procedures that are called from within themselves: the loops, which call themselves for the
next round, and those that may stand inside what they read. -/
structure Procedures where
  elements : (close : String) → Motion (List Tree)
  suffixes : (subject : Tree) → Motion Tree
  unary : Motion Tree
  operators : (least : ℕ) → (left : Tree) → Motion Tree
  expression : Motion Tree
  parameters : Motion Unit
  statements : (closers : List String) → Motion Unit
  statement : Motion Unit
  program : Motion Unit

/-- A computation that moves a cursor and may call procedures. -/
abbrev Parser (α : Type) := ReaderT Procedures Motion α

namespace Cursor

/-- The cursor before the first token, with nothing open. -/
def start : Cursor :=
  ⟨0, 0, [], []⟩

/-- The tokens from the cursor on. -/
def left (s : Cursor) (tokens : List Token) : List Token :=
  tokens.drop s.position

/-- The cursor after the next token. -/
def next (s : Cursor) : Cursor :=
  { s with position := s.position + 1 }

/-- The cursor one level further in. -/
def deeper (s : Cursor) : Cursor :=
  { s with depth := s.depth + 1 }

/-- The cursor one level further out. -/
def shallower (s : Cursor) : Cursor :=
  { s with depth := s.depth - 1 }

/-- The cursor at the start of a new node. -/
def opened (s : Cursor) : Cursor :=
  { s with nodes := [] }

/-- The cursor with the children that were made as a node, after the children there were before. -/
def closed (s : Cursor) (kind : Kind) (before : List Tree) : Cursor :=
  { s with nodes := before ++ [⟨kind, none, s.nodes⟩] }

/-- The cursor once a chain of operators of at least the precedence `least` was asked for. -/
def noted (s : Cursor) (least : ℕ) : Cursor :=
  { s with asked := s.asked ++ [least] }

end Cursor

namespace Parser

section

variable {α : Type} (tokens : List Token)

/-- Call a procedure of the table. -/
def call (procedure : Procedures → Motion α) : Parser α :=
  procedure

/-- Carry out `body`, and then move the cursor whether or not it failed. -/
def ending (move : Cursor → Cursor) (body : Parser α) : Parser α :=
  fun calls s => (body calls s).map fun (result, s') => (result, move s')

/-- The next token, which is not taken. -/
def peek : Parser (Option Token) := do
  return tokens[(← get).position]?

/-- Move behind the next token. -/
def advance : Parser Unit :=
  modify Cursor.next

/-- Add a child to the node that is being built. -/
def push (node : Tree) : Parser Unit :=
  modify fun s => { s with nodes := s.nodes ++ [node] }

/-- Add the child that a computation makes. -/
def add (child : Parser Tree) : Parser Unit := do
  let node ← child
  push node

/-- Note that a chain of operators of at least the precedence `least` is asked for. -/
def note (least : ℕ) : Parser Unit :=
  modify (·.noted least)

/-- The next token, which must be there and is not taken. -/
def demand (expected : Expected) : Parser Token := do
  match ← peek tokens with
  | some t => return t
  | none => throw (.endOfInput expected)

/-- Take the next token if it satisfies `wanted`. -/
def take? (wanted : Token → Bool) : Parser (Option Token) := do
  match ← peek tokens with
  | some t =>
    if wanted t then
      advance
      return some t
    else
      return none
  | none => return none

/-- Take the next token if it has a given category and text, and tell whether it has. -/
def accept (category : Token.Category) (text : String) : Parser Bool := do
  return (← take? tokens (·.is category text)).isSome

/-- Take the next token, which must have a given category and text. -/
def expect (category : Token.Category) (text : String) : Parser Unit := do
  let t ← demand tokens (.words [text])
  if ← accept tokens category text then
    return ()
  else
    throw (.unexpected (.words [text]) t)

/-- Take the next token, which must be an identifier. -/
def identifier (expected : Expected) : Parser Token := do
  let t ← demand tokens expected
  if t.category = .identifier then
    advance
    return t
  else
    throw (.unexpected expected t)

/-- Enter one more level, unless too many are open. -/
def enter (what : Expected) : Parser Unit := do
  if nestingLimit ≤ (← get).depth then
    throw (.nestedTooDeep what (← demand tokens what))
  else
    modify Cursor.deeper

/-- A computation one level further in, which is left again whether or not the computation fails. -/
def nested (what : Expected) (body : Parser α) : Parser α := do
  enter tokens what
  ending Cursor.shallower body

/-- Build a node of the children that `body` makes, and keep it whether or not `body` fails. -/
def build (kind : Kind) (body : Parser Unit) : Parser Unit := do
  let before := (← get).nodes
  modify Cursor.opened
  ending (·.closed kind before) body

end

end Parser

end Tree

end UvaAnalysis
