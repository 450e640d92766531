/-!
# Expressions

Trees of numbers, variables and binary operators. A statement is an expression
too: an assignment is the operator `=` with its target on the left, and a guard
is a comparison. Printing writes every operation in parentheses, except an
assignment. A tree that was put together by hand may lack an operand; trees that
come from text never do.
-/
namespace AffineRelations

/-- Binary operators. An operator is also known by a code; a code that belongs
to none of the twelve is kept as it is. -/
inductive Op where
  | assign | add | sub | mul | div | mod
  | less | lessEq | greater | greaterEq | equal | notEqual
  | other (code : Int)
  deriving DecidableEq, Repr

namespace Op

/-- The operators that have a text, in the order of their codes. -/
def known : List Op :=
  [.assign, .add, .sub, .mul, .div, .mod, .less, .lessEq, .greater, .greaterEq, .equal, .notEqual]

def ofCode (code : Int) : Op :=
  if code < 0 then .other code else (known[code.toNat]?).getD (.other code)

def text : Op → String
  | .assign => "="
  | .add => "+"
  | .sub => "-"
  | .mul => "*"
  | .div => "/"
  | .mod => "%"
  | .less => "<"
  | .lessEq => "<="
  | .greater => ">"
  | .greaterEq => ">="
  | .equal => "=="
  | .notEqual => "!="
  | .other code => s!"Op({code})"

def ofText? (s : String) : Option Op := known.find? fun op => op.text == s

def isAdditive : Op → Bool
  | .add | .sub => true
  | _ => false

def isMultiplicative : Op → Bool
  | .mul | .div | .mod => true
  | _ => false

def isRelational : Op → Bool
  | .less | .lessEq | .greater | .greaterEq | .equal | .notEqual => true
  | _ => false

end Op

inductive Expr where
  | num (value : Int64)
  | var (name : String)
  | bin (op : Op) (left right : Expr)
  /-- An operand that is not there. -/
  | absent
  deriving DecidableEq, Repr

namespace Expr

def render : Expr → String
  | .num n => toString n.toInt
  | .var x => x
  | .bin .assign l r => l.render ++ " = " ++ r.render
  | .bin op l r => "(" ++ l.render ++ " " ++ op.text ++ " " ++ r.render ++ ")"
  | .absent => "%!s(<nil>)"

/-- Target and value of an assignment to a variable. -/
def assignment? : Expr → Option (String × Expr)
  | .bin .assign (.var x) value => some (x, value)
  | _ => none

def isAdditive : Expr → Bool
  | .bin op _ _ => op.isAdditive
  | _ => false

/-- The variables from left to right, with repetitions. -/
def occurrences : Expr → List String
  | .num _ => []
  | .var x => [x]
  | .bin _ l r => l.occurrences ++ r.occurrences
  | .absent => []

/-- The variables in the order of their first occurrence. -/
def vars (e : Expr) : List String := e.occurrences.eraseDups

/-- Changes the sign: of a number at once, of all else by a factor. -/
def negate : Expr → Expr
  | .num n => .num (-n)
  | e => .bin .mul (.num (-1)) e

end Expr

end AffineRelations
