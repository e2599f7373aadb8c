/-!
# Index tuples and patterns

The members of a family sit at tuples of integers; the empty tuple is the place of a scalar. A
pattern is a template for such tuples, in which a component may be left open.
-/

namespace MipModel

abbrev Index := List Int

namespace Index

/-- Whether an integer can be an index component: it must be one of 64 bits. -/
def inRange (n : Int) : Bool :=
  decide (-9223372036854775808 ≤ n) && decide (n ≤ 9223372036854775807)

/-- Components between parentheses; nothing for the empty tuple. -/
def tupleText (components : List String) : String :=
  if components.isEmpty then "" else "(" ++ ", ".intercalate components ++ ")"

def text (index : Index) : String := tupleText (index.map toString)

end Index

inductive Pattern.Component where
  /-- Exactly this integer. -/
  | value (n : Int)
  /-- Any integer. -/
  | wildcard
  /-- A symbol without a value; it fits no integer. -/
  | unbound (symbol : String)
  deriving DecidableEq, Repr

namespace Pattern.Component

def fits : Pattern.Component → Int → Bool
  | value n, m => n == m
  | wildcard, _ => true
  | unbound _, _ => false

def value? : Pattern.Component → Option Int
  | value n => some n
  | _ => none

def text : Pattern.Component → String
  | value n => toString n
  | wildcard => "_"
  | unbound symbol => symbol

end Pattern.Component

/-- A template for index tuples. -/
abbrev Pattern := List Pattern.Component

namespace Pattern

def exact (index : Index) : Pattern := index.map .value

/-- Whether a tuple fits, component by component. -/
def fits : Pattern → Index → Bool
  | [], [] => true
  | c :: p, n :: index => c.fits n && fits p index
  | _, _ => false

def hasWildcard (p : Pattern) : Bool := p.any (· = .wildcard)

/-- The only tuple that fits, if every component is fixed. -/
def index? : Pattern → Option Index
  | [] => some []
  | c :: p => do return (← c.value?) :: (← index? p)

def text (p : Pattern) : String := Index.tupleText (p.map Pattern.Component.text)

end Pattern
end MipModel
