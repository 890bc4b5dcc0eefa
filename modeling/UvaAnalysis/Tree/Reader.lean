import UvaAnalysis.Fault
import UvaAnalysis.Tree.Basic

/-!
# Reading from a list of tokens

A reader takes what it wants from the front of a list of tokens and leaves the rest.  When it fails
it leaves the tokens from the offending one on, so the rest always says how far it got.
-/

namespace UvaAnalysis

/-- A computation that takes tokens from the front of a list and may fail with a fault. -/
abbrev Reader (α : Type) := EStateM Fault (List Token) α

namespace Reader

variable {α : Type}

/-- Fail at the next token, because what begins there is inside too much else. -/
def tooDeep (what : Expected) : Reader α
  | [] => .error (.endOfInput what) []
  | t :: rest => .error (.nestedTooDeep what t) (t :: rest)

/-- Take the next token if it satisfies `wanted`. -/
def take? (wanted : Token → Bool) : Reader (Option Token)
  | [] => .ok none []
  | t :: rest => if wanted t then .ok (some t) rest else .ok none (t :: rest)

/-- Take the next token if it has a given category and text, and tell whether it has. -/
def accept (category : Token.Category) (text : String) : Reader Bool
  | [] => .ok false []
  | t :: rest => if t.is category text then .ok true rest else .ok false (t :: rest)

/-- Take the next token, which must have a given category and text. -/
def expect (category : Token.Category) (text : String) : Reader Unit
  | [] => .error (.endOfInput (.words [text])) []
  | t :: rest =>
    if t.is category text then .ok () rest
    else .error (.unexpected (.words [text]) t) (t :: rest)

/-- Take the next token, which must be an identifier. -/
def identifier (expected : Expected) : Reader Token
  | [] => .error (.endOfInput expected) []
  | t :: rest =>
    if t.category = .identifier then .ok t rest
    else .error (.unexpected expected t) (t :: rest)

variable {β : Type}

/-- A reader that takes nothing. -/
@[simp] theorem pure_apply (a : α) (tokens : List Token) :
    (pure a : Reader α) tokens = .ok a tokens := rfl

/-- One reader after another: the second starts where the first stopped, and a failure of the first
is final. -/
theorem bind_apply (reader : Reader α) (next : α → Reader β) (tokens : List Token) :
    (reader >>= next) tokens =
      match reader tokens with
      | .ok a rest => next a rest
      | .error fault rest => .error fault rest := by
  change EStateM.bind reader next tokens = _
  unfold EStateM.bind
  cases reader tokens <;> rfl

end Reader

end UvaAnalysis
