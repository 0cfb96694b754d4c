import RpcBindings.Rust.Parser

/-!
What the parts of the grammar need of each other.

The grammar of Rust is one knot: types hold expressions, expressions hold types, patterns and
statements. Each part is written over a `Grammar`, the parsers for whatever is nested one level
deeper, and a grammar of any depth is tied from these parts at the end.
-/

namespace RpcBindings.Rust

/-- What later parts of the grammar ask of a type. -/
structure TypeShape where
  type : RustType
  /-- The text of the one bound that the type is, when it is no more than that, without
  parentheses. -/
  bound? : Option String := none
  /-- The last token is the brace that closes a macro call. -/
  endsInBrace : Bool := false

def TypeShape.text (t : TypeShape) : String := t.type.text

/-- The kinds of expression that later parts of the grammar tell apart. -/
inductive ExprForm where
  | range
  | comparison
  /-- An expression with a block of its own, which needs nothing after it as a statement. -/
  | blockLike
  /-- A macro call between braces. -/
  | braceMacro
  /-- An expression without a meaning of its own, which is printed as it is written. -/
  | verbatim
  | other
  deriving DecidableEq, Repr

/-- What later parts of the grammar ask of an expression. -/
structure ExprShape where
  text : String
  form : ExprForm := .other
  /-- The form of the leftmost operand of the binary operators. -/
  lead : ExprForm := form
  /-- The value, when the expression is one string literal. -/
  string? : Option String := none
  /-- The last token is the brace that closes a block. -/
  endsInBrace : Bool := false

/-- The kinds of pattern that later parts of the grammar tell apart. -/
inductive PatternForm where
  /-- One name, bound. -/
  | name (name : String)
  /-- The rest of a sequence. -/
  | rest
  /-- A range without one of its bounds. -/
  | openRange
  | range
  /-- A pattern without a meaning of its own, which is printed as it is written. -/
  | verbatim
  | other
  deriving DecidableEq, Repr

structure PatternShape where
  text : String
  form : PatternForm := .other

/-- The parsers for what is nested deeper. -/
structure Grammar where
  /-- A type; the flag allows bounds joined by `+`. -/
  type : Bool → Parser TypeShape
  /-- A generic argument. -/
  arg : Parser GenericArg
  /-- A generic parameter. -/
  param : Parser ArgText
  /-- An expression; the flag allows a struct literal without parentheses around it. -/
  expr : Bool → Parser ExprShape
  /-- An expression without binary operators outside its operand. -/
  unary : Bool → Parser ExprShape
  /-- The binary operators of at least some strength after a left operand. -/
  climb : Bool → ExprShape → Nat → Parser ExprShape
  /-- An expression as a statement or as the body of a `match` arm. -/
  statementExpr : Parser ExprShape
  /-- A pattern without alternatives. -/
  pattern : Parser PatternShape
  /-- The statements of a block, up to its end. -/
  statements : Parser String
  /-- An item with its attributes. -/
  item : Parser String
  /-- The fields between braces of a struct that stands as the type of a field. -/
  innerFields : Parser String
  /-- What a `use` names, and whether any of it begins at the root of all crates; the flag allows
  that. -/
  useTree : Bool → Parser (String × Bool)

namespace Grammar

/-- The grammar in which nothing nests. -/
def none : Grammar where
  type _ := .fail
  arg := .fail
  param := .fail
  expr _ := .fail
  unary _ := .fail
  climb _ _ _ := .fail
  statementExpr := .fail
  pattern := .fail
  statements := .fail
  item := .fail
  innerFields := .fail
  useTree _ := .fail

/-- The text of a type. -/
def typeText (g : Grammar) (plus : Bool) : Parser String := do
  return (← g.type plus).text

/-- The text of an expression. -/
def exprText (g : Grammar) (allowStruct : Bool) : Parser String := do
  return (← g.expr allowStruct).text

/-- The text of a pattern. -/
def patternText (g : Grammar) : Parser String := do
  return (← g.pattern).text

end Grammar

end RpcBindings.Rust
