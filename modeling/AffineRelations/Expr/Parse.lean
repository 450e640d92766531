import AffineRelations.Expr.Token

/-!
# Reading statements

The grammar, with the loosest operators first:

    stmt    = rel ["=" rel]
    rel     = sum [relop sum]
    sum     = product {("+" | "-") product}
    product = unary {("*" | "/" | "%") unary}
    unary   = "-" unary | primary
    primary = integer | name | "(" rel ")"

The left side of an assignment is a name. A minus sign in front of a number
changes the number, in front of anything else it is a factor.

Tokens are read one after another. Between two tokens the reader holds, for
each open parenthesis, the operators on each level of the grammar that still
wait for their right operand, and the operand that has just been completed.
-/
namespace AffineRelations

/-- The operators of one parenthesis that wait for an operand, each with its
left operand; `minus` counts the signs in front of the operand to come. -/
structure Level where
  relation : Option (Op × Expr)
  sum : Option (Op × Expr)
  product : Option (Op × Expr)
  minus : Nat
  deriving DecidableEq, Repr

namespace Level

def start : Level := ⟨none, none, none, 0⟩

/-- Applies the operator that waits, if there is one. -/
def apply (waiting : Option (Op × Expr)) (e : Expr) : Expr :=
  match waiting with
  | some (op, l) => .bin op l e
  | none => e

/-- The product that ends with `e`. -/
def closeProduct (l : Level) (e : Expr) : Expr := apply l.product e

/-- The sum that ends with `e`. -/
def closeSum (l : Level) (e : Expr) : Expr := apply l.sum (l.closeProduct e)

/-- The relation that ends with `e`. -/
def closeRelation (l : Level) (e : Expr) : Expr := apply l.relation (l.closeSum e)

/-- The operand `e` behind the signs that wait for it. -/
def signed (l : Level) (e : Expr) : Expr := Nat.repeat Expr.negate l.minus e

end Level

/-- What has been read: the target of the assignment, the enclosing
parentheses from the inside out, the innermost level, and the operand to the
left, or `none` if one has to follow. -/
structure Reading where
  target : Option String
  outer : List Level
  level : Level
  operand : Option Expr
  deriving DecidableEq, Repr

namespace Reading

def start : Reading := ⟨none, [], .start, none⟩

/-- Takes a primary as the operand that was to follow. -/
def complete (st : Reading) (e : Expr) : Reading :=
  { st with operand := some (st.level.signed e), level := { st.level with minus := 0 } }

/-- Leaves the operand to an operator of the level. -/
def await (st : Reading) (l : Level) : Reading := { st with level := l, operand := none }

/-- The complaint about a token that cannot follow an operand. -/
def misplaced (st : Reading) (text : String) : SyntaxCause :=
  if st.outer.isEmpty then .unexpected text else .expectedParen text

/-- Reads a token where an operand has to follow. -/
def readOperand (st : Reading) : Token → Except SyntaxCause Reading
  | .int cs => match (Literal.ofText cs).toInt64? with
    | some n => .ok (st.complete (.num n))
    | none => .error (.badInteger (String.ofList cs))
  | .name x => .ok (st.complete (.var x))
  | .leftParen => .ok { st with outer := st.level :: st.outer, level := .start }
  | .op .sub => .ok { st with level := { st.level with minus := st.level.minus + 1 } }
  | t => .error (.unexpected t.text)

/-- Reads an operator behind the operand `e`. -/
def readOp (st : Reading) (e : Expr) (op : Op) : Except SyntaxCause Reading :=
  let l := st.level
  if op.isMultiplicative then
    .ok (st.await { l with product := some (op, l.closeProduct e) })
  else if op.isAdditive then
    .ok (st.await { l with sum := some (op, l.closeSum e), product := none })
  else if op.isRelational ∧ l.relation = none then
    .ok (st.await { l with relation := some (op, l.closeSum e), sum := none, product := none })
  else if op = .assign ∧ st.outer = [] ∧ st.target = none then
    match l.closeRelation e with
    | .var x => .ok { st with target := some x, level := .start, operand := none }
    | lhs => .error (.badTarget lhs.render)
  else .error (st.misplaced op.text)

/-- Reads a token behind the operand `e`. -/
def readOperator (st : Reading) (e : Expr) : Token → Except SyntaxCause Reading
  | .op op => st.readOp e op
  | .rightParen => match st.outer with
    | l :: outer =>
      .ok ({ st with outer := outer, level := l }.complete (st.level.closeRelation e))
    | [] => .error (.unexpected Token.rightParen.text)
  | t => .error (st.misplaced t.text)

def read (st : Reading) (t : Token) : Except SyntaxCause Reading :=
  match st.operand with
  | none => st.readOperand t
  | some e => st.readOperator e t

/-- Reads tokens in a row; a complaint points to the token that caused it. -/
def readAll (st : Reading) : List (Position × Token) → Except SyntaxError Reading
  | [] => .ok st
  | (pos, t) :: ts => match st.read t with
    | .ok st => st.readAll ts
    | .error cause => .error ⟨some pos, cause⟩

/-- The statement that ends here. -/
def finish (st : Reading) : Except SyntaxCause Expr :=
  match st.operand with
  | none => .error .unexpectedEnd
  | some e =>
    if st.outer.isEmpty then
      let value := st.level.closeRelation e
      .ok (match st.target with
        | some x => .bin .assign (.var x) value
        | none => value)
    else .error (.expectedParen "")

end Reading

namespace Expr

def ofTokens (ts : TokenList) : Except SyntaxError Expr :=
  match Reading.start.readAll ts.items with
  | .error e => .error e
  | .ok st => match ts.ending with
    | .broken e => .error e
    | .eof pos => match st.finish with
      | .ok e => .ok e
      | .error cause => .error ⟨pos, cause⟩

def ofSource (s : Source) : Except SyntaxError Expr := ofTokens (.ofSource s)

/-- Reads a statement. -/
def parse (s : String) : Except SyntaxError Expr := ofSource (.ofString s)

/-- Reads a statement from bytes that may not be valid UTF-8. -/
def parseBytes (bytes : List UInt8) : Except SyntaxError Expr := ofSource (.ofBytes bytes)

end Expr

end AffineRelations
