import UvaAnalysis.Token.Lexer

/-!
# Expansion of includes

The one directive is `#include` before a string literal, and the tokens of the file it names stand
in its place.  They keep their own file as origin, so each token can be traced to the bytes it was
read from.

The stream is first divided into items, which settles what each directive is by looking at most one
token ahead.  Each item then expands by itself: what one directive comes to does not depend on the
others.  A directive that cannot be expanded leaves nothing but a fault.

The files that are being expanded are kept on a stack.  A file on the stack is not included again,
and at most `includeLimit` files may be open besides the first; the room that is left is what the
recursion goes down on.
-/

namespace UvaAnalysis

namespace Token

/-- A unit of a token stream that expands by itself. -/
inductive Item where
  /-- A token that is no directive. -/
  | token (t : Token)
  /-- An include directive and the string literal after it. -/
  | inclusion (directive target : Token)
  /-- An include directive that no string literal follows. -/
  | includeWithoutPath (directive : Token)
  /-- Any other directive. -/
  | unknown (directive : Token)
  deriving DecidableEq, Repr

/-- Whether a token is an include directive. -/
def isInclude (t : Token) : Bool :=
  t.is .directive "include"

/-- The items of a token stream. -/
def Item.ofTokens : List Token → List Item
  | [] => []
  | [t] =>
    if t.isInclude then [.includeWithoutPath t]
    else if t.category = .directive then [.unknown t]
    else [.token t]
  | t :: next :: rest =>
    if t.isInclude then
      if next.isStringLiteral then .inclusion t next :: ofTokens rest
      else .includeWithoutPath t :: ofTokens (next :: rest)
    else if t.category = .directive then .unknown t :: ofTokens (next :: rest)
    else .token t :: ofTokens (next :: rest)

/-- The file that an include directive names. -/
def includedPath (directive target : Token) : Path :=
  directive.origin.locate ⟨target.text⟩

/-- What an item comes to, when `splice` gives the tokens of a file that may be included, and
`stack` holds the files that are being expanded. -/
def Item.expand (stack : List Path) (splice : Path → Salvage (List Token)) :
    Item → Salvage (List Token)
  | .token t => ⟨[t], []⟩
  | .inclusion directive target =>
    let path := includedPath directive target
    if stack.any (·.sameAs path) then ⟨[], [.includeCycle path]⟩ else splice path
  | .includeWithoutPath directive => ⟨[], [.includeWithoutPath directive]⟩
  | .unknown directive => ⟨[], [.unknownDirective directive]⟩

/-- Expand the directives of a stream while the files on `stack`, the innermost first, are being
expanded, and `room` more may be opened. -/
def expandWithin (files : Files) : (room : Nat) → (stack : List Path) → List Token →
    Salvage (List Token)
  | 0, stack, tokens =>
    Salvage.flatMap (Item.ofTokens tokens) <|
      Item.expand stack fun path => ⟨[], [.includeTooDeep path]⟩
  | room + 1, stack, tokens =>
    Salvage.flatMap (Item.ofTokens tokens) <|
      Item.expand stack fun path =>
        match files.read path with
        | .error cause => ⟨[], [.includeUnreadable path cause]⟩
        | .ok source =>
          let lexed := tokenize path source
          let expanded := expandWithin files room (path :: stack) lexed.value
          ⟨expanded.value, lexed.faults ++ expanded.faults⟩

/-- Expand the directives of a stream that belongs to the file `primary`. -/
def expand (files : Files) (primary : Path) (tokens : List Token) : Salvage (List Token) :=
  expandWithin files includeLimit [primary.normalize] tokens

end Token

end UvaAnalysis
