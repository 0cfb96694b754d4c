import RpcBindings.Rust.Grammar.Pattern
import RpcBindings.Rust.Literal
import RpcBindings.Text.Affix

/-!
Expressions.

An expression is an operand followed by binary operators. Stronger operators are read first, of
equally strong ones the left; assignments associate to the right, comparisons do not chain, and a
range takes no operator after it. Where a block must follow, as after `if`, an expression may not
be a struct literal.
-/

namespace RpcBindings.Rust.Parser

/-! ## Binding strength -/

/-- How strongly operators bind, weakest first. -/
inductive Strength where
  | jump
  | assign
  | range
  | or
  | and
  | letting
  | compare
  | bitOr
  | bitXor
  | bitAnd
  | shift
  | sum
  | product
  | cast
  deriving DecidableEq

/-- The place of a strength in the order. -/
def Strength.rank (s : Strength) : Nat := s.ctorIdx

/-- The binary operators, longer ones before those that they begin with. -/
def binaryOperators : List (String × Strength) :=
  [("+=", .assign), ("-=", .assign), ("*=", .assign), ("/=", .assign), ("%=", .assign),
    ("^=", .assign), ("&=", .assign), ("|=", .assign), ("<<=", .assign), (">>=", .assign),
    ("&&", .and), ("||", .or), ("<<", .shift), (">>", .shift), ("==", .compare),
    ("<=", .compare), ("!=", .compare), (">=", .compare), ("+", .sum), ("-", .sum),
    ("*", .product), ("/", .product), ("%", .product), ("^", .bitXor), ("&", .bitAnd),
    ("|", .bitOr), ("<", .compare), (">", .compare)]

/-- The binary operator that comes next. -/
def nextOperator? (ts : List Token) : Option (String × Strength) :=
  binaryOperators.find? fun o => atPunct o.1 ts

/-- Whether an assignment comes next. -/
def atAssignment (ts : List Token) : Bool :=
  atPunct "=" ts && !atPunct "=>" ts

/-- The strength of what comes next, when it is read as an operator. -/
def nextStrength (ts : List Token) : Nat :=
  match nextOperator? ts with
  | some o => o.2.rank
  | none =>
    if atAssignment ts then Strength.assign.rank
    else if atPunct ".." ts then Strength.range.rank
    else if atWord "as" ts then Strength.cast.rank
    else Strength.jump.rank

/-! ## Binary operators -/

/-- The stronger operators after the right operand of an operator. -/
def strongerFrom (g : Grammar) (allowStruct : Bool) (rank : Nat) :
    Nat → ExprShape → Parser ExprShape
  | 0, _ => fail
  | fuel + 1, operand => fun i =>
    let next := nextStrength i.tokens
    if rank < next || (next == rank && rank == Strength.assign.rank) then
      match g.climb allowStruct operand next i with
      | none => none
      | some (larger, after) =>
        if after.tokens.length = i.tokens.length then some (larger, after)
        else strongerFrom g allowStruct rank fuel larger after
    else some (operand, i)

/-- The right operand of an operator: an operand and the stronger operators after it. -/
def rightOperand (g : Grammar) (allowStruct : Bool) (rank : Nat) : Parser ExprShape := do
  let operand ← g.unary allowStruct
  stepwise fun fuel => strongerFrom g allowStruct rank fuel operand

/-- Whether a range ends here, without an upper bound. -/
def atRangeEnd (allowStruct : Bool) (ts : List Token) : Bool :=
  atEnd ts || atDot ts || (!allowStruct && atBrace ts) ||
    [",", ";", "?", "=>", "=", "+", "/", "%", "^", ">", "<=", "!=", "-=", "*=", "&=", "|=",
      "<<="].any (fun s => atPunct s ts) || atWord "as" ts

/-- A range from its operator on, after the text of its lower bound. -/
def rangeExpr (g : Grammar) (allowStruct : Bool) (lower : String) : Parser ExprShape := do
  let operator ← rangeOperator false
  if ← test (fun ts => operator == ".." && atRangeEnd allowStruct ts) then
    return { text := lower ++ operator, form := .range }
  let upper ← rightOperand g allowStruct Strength.range.rank
  return {
    text := lower ++ operator ++ upper.text
    form := .range
    endsInBrace := upper.endsInBrace }

/-- Whether the token after a cast would be taken for a part of the operand. -/
def atCastTrailer (ts : List Token) : Bool :=
  atDot ts || atPunct "?" ts || atBracket ts || atParen ts

/-- A binary operator or an assignment with its right operand. -/
def operation (g : Grammar) (allowStruct : Bool) (left : ExprShape) (operator : String)
    (strength : Strength) : Parser ExprShape := do
  let _ ← punct operator
  let right ← rightOperand g allowStruct strength.rank
  return {
    text := left.text ++ operator ++ right.text
    form := if strength = .compare then .comparison else .other
    lead := left.lead
    endsInBrace := right.endsInBrace }

/-- A cast after its operand. -/
def castType (g : Grammar) (left : ExprShape) : Parser ExprShape := do
  let w ← word "as"
  let t ← g.type false
  require fun ts => !atCastTrailer ts
  return { text := left.text ++ w ++ t.text, lead := left.lead, endsInBrace := t.endsInBrace }

/-- One binary operator with its right operand, if one of at least a rank comes next. -/
def operatorStep (g : Grammar) (allowStruct : Bool) (left : ExprShape) (base : Nat) :
    Parser (Option ExprShape) := fun i =>
  if left.form == .range then some (none, i)
  else match nextOperator? i.tokens with
  | some (operator, strength) =>
    if strength.rank < base then some (none, i)
    else if strength = .compare && left.form == .comparison then none
    else (some <$> operation g allowStruct left operator strength) i
  | none =>
    if base ≤ Strength.assign.rank && atAssignment i.tokens then
      (some <$> operation g allowStruct left "=" .assign) i
    else if base ≤ Strength.range.rank && atPunct ".." i.tokens then
      (some <$> rangeExpr g allowStruct left.text) i
    else if base ≤ Strength.cast.rank && atWord "as" i.tokens then (some <$> castType g left) i
    else some (none, i)

/-- The steps of `climbOver`. -/
def climbFrom (g : Grammar) (allowStruct : Bool) (base : Nat) :
    Nat → ExprShape → Parser ExprShape
  | 0, _ => fail
  | fuel + 1, left => do
    match ← operatorStep g allowStruct left base with
    | none => return left
    | some larger => climbFrom g allowStruct base fuel larger

/-- The binary operators of at least a rank after a left operand. -/
def climbOver (g : Grammar) (allowStruct : Bool) (left : ExprShape) (base : Nat) :
    Parser ExprShape :=
  stepwise fun fuel => climbFrom g allowStruct base fuel left

/-- An expression. -/
def exprOver (g : Grammar) (allowStruct : Bool) : Parser ExprShape := do
  let operand ← g.unary allowStruct
  climbOver g allowStruct operand Strength.jump.rank

/-! ## Blocks and control flow -/

/-- An expression with a block of its own. -/
def ownBlock (text : Parser String) : Parser ExprShape := do
  return { text := ← text, form := .blockLike, endsInBrace := true }

/-- A loop's or a block's name. -/
def optLabel : Parser String :=
  optional atLifetime (cat [lifetime, punct ":"])

/-- The branches of `if`. -/
def branchesFrom (g : Grammar) : Nat → Parser String
  | 0 => fail
  | fuel + 1 => do
    let branch ← cat [word "if", g.exprText false, block g]
    return branch ++ (← optional (atWord "else") do
      let w ← word "else"
      return w ++ (← if ← test (atWord "if") then branchesFrom g fuel else block g))

/-- `if` with its branches. -/
def ifExpr (g : Grammar) : Parser ExprShape :=
  ownBlock (stepwise (branchesFrom g))

def whileExpr (g : Grammar) : Parser ExprShape :=
  ownBlock (cat [optLabel, word "while", g.exprText false, attributedBlock g])

def forExpr (g : Grammar) : Parser ExprShape :=
  ownBlock (cat [optLabel, word "for", choiceText g, word "in", g.exprText false,
    attributedBlock g])

def loopExpr (g : Grammar) : Parser ExprShape :=
  ownBlock (cat [optLabel, word "loop", attributedBlock g])

/-- A block after a word that says how it runs. -/
def wordBlock (g : Grammar) (w : String) : Parser ExprShape :=
  ownBlock (cat [word w, attributedBlock g])

/-- A block that a failure leaves. -/
def tryBlock (g : Grammar) : Parser ExprShape :=
  ownBlock (cat [word "try", block g])

def blockExpr (g : Grammar) : Parser ExprShape :=
  ownBlock (cat [optLabel, attributedBlock g])

/-- A loop or a block with a name. -/
def labeledExpr (g : Grammar) : Parser ExprShape := do
  if ← test (skip 2 (atWord "while")) then whileExpr g
  else if ← test (skip 2 (atWord "for")) then forExpr g
  else if ← test (skip 2 (atWord "loop")) then loopExpr g
  else blockExpr g

/-- Whether a closure that is generic over lifetimes comes next, not a loop. -/
def atForClosure (ts : List Token) : Bool :=
  atWord "for" ts && skip 1 atGenerics ts

/-! ## Operands -/

/-- Whether an expression can begin here. -/
def atExpr (ts : List Token) : Bool :=
  (atIdent ts && !atWord "as" ts) || atParen ts || atBracket ts || atBrace ts || atLiteral ts ||
    atBang ts || (atPunct "-" ts && !atPunct "-=" ts && !atPunct "->" ts) ||
    (atPunct "*" ts && !atPunct "*=" ts) || (atPunct "|" ts && !atPunct "|=" ts) ||
    (atPunct "&" ts && !atPunct "&=" ts) || atPunct ".." ts ||
    (atPunct "<" ts && !atPunct "<=" ts && !atPunct "<<=" ts) || atPunct "::" ts ||
    atLifetime ts || atPunct "#" ts

/-- Attributes before what has a form: none stay before what is printed as it is written, and a range
gets parentheses. -/
def attach (attributes : String) (isVerbatim isRange : Bool) (text : String) : String :=
  if attributes == "" || isVerbatim then text
  else if isRange then attributes ++ "(" ++ text ++ ")"
  else attributes ++ text

/-- A parameter of a closure. -/
def closureParam (g : Grammar) : Parser String := do
  let attributes ← outerText g
  let p ← g.pattern
  if ← test (atPunct ":") then return attributes ++ p.text ++ (← typeAnnotation g)
  return attach attributes (p.form == .verbatim) (p.form == .range || p.form == .openRange) p.text

/-- A closure. -/
def closureExpr (g : Grammar) (allowStruct : Bool) : Parser ExprShape := do
  let head ← cat [optional (atWord "for") (forLifetimes g), optWord "const", optWord "static",
    optWord "async", optWord "move", punct "|", separatedText (atPunct "|") "," (closureParam g),
    punct "|"]
  if ← test (atPunct "->") then
    let body ← cat [punct "->", g.typeText true, block g]
    return { text := head ++ body, endsInBrace := true }
  else
    let body ← g.expr allowStruct
    return { text := head ++ body.text, endsInBrace := body.endsInBrace }

/-- A field of a struct literal. -/
def fieldValue (g : Grammar) : Parser String := do
  let attributes ← outerText g
  if ← test atInteger then
    return attributes ++ (← cat [fieldNumber, punct ":", g.exprText true])
  else
    return attributes ++ (← cat [name, optional (atPunct ":") (cat [punct ":", g.exprText true])])

/-- The content of a struct literal's braces: fields, and a value that the others come from. -/
def fieldValues (g : Grammar) : Parser String := do
  return listText "," (← elements atEnd "," fun _ => do
    if ← test (atPunct "..") then
      return (← cat [punct "..", optional (fun ts => !atEnd ts) (g.exprText true)], true)
    else return (← fieldValue g, false))

/-- A path, a macro call or a struct literal. -/
def pathExpr (g : Grammar) (allowStruct : Bool) : Parser ExprShape := do
  let p ← qualifiedPath g true
  if ← test (atMacroCall p) then
    let (d, args) ← macroArgs
    let inBraces := d == .brace
    return {
      text := p.text ++ args
      form := if inBraces then .braceMacro else .other
      endsInBrace := inBraces }
  if ← test (fun ts => allowStruct && atBrace ts) then
    return { text := p.text ++ (← braces (fieldValues g)), endsInBrace := true }
  return { text := p.text }

/-- An array, or one value repeated. -/
def arrayContent (g : Grammar) : Parser String := do
  if ← test atEnd then return ""
  let first ← g.exprText true
  if ← test (atPunct ";") then return first ++ (← cat [punct ";", g.exprText true])
  else if ← test atEnd then return first
  else return first ++ (← cat [punct ",", commaText (g.exprText true)])

/-- A word with a value that may be missing. -/
def jump (g : Grammar) (w : String) : Parser ExprShape := do
  let text ← word w
  if ← test atExpr then
    let value ← g.expr true
    return { text := text ++ value.text, endsInBrace := value.endsInBrace }
  return { text }

/-- Whether a loop or a block with a name comes next after attributes. -/
def atNamedBlock : List Token → Bool
  | .punct '#' _ :: .group .bracket _ :: ts => atNamedBlock ts
  | ts => atLifetime ts

/-- `break` with a loop's name and a value, each of which may be missing. A value that begins with a
name of its own gets parentheses, so that the name is not taken for the loop's. -/
def breakExpr (g : Grammar) (allowStruct : Bool) : Parser ExprShape := do
  let w ← word "break"
  require fun ts => !(atLifetime ts && skip 1 (atPunct ":") ts)
  let label ← optLifetime
  let text := w ++ label
  let isNamed ← test fun ts => label == "" && atNamedBlock ts
  if ← test (fun ts => atExpr ts && (allowStruct || !atBrace ts)) then
    let value ← g.expr true
    return {
      text := text ++ if isNamed then between .paren value.text else value.text
      endsInBrace := value.endsInBrace }
  return { text }

/-- A call in tail position, which is printed as it is written. -/
def becomeExpr (g : Grammar) : Parser ExprShape := do
  let t ← verbatimTail do
    let _ ← word "become"
    g.expr true
  return { text := t.text, form := .verbatim, endsInBrace := t.endsInBrace }

/-- A pattern and the value that it is matched with, as a condition. -/
def letExpr (g : Grammar) (allowStruct : Bool) : Parser ExprShape := do
  let head ← cat [word "let", choiceText g, punct "="]
  let operand ← g.unary allowStruct
  let value ← climbOver g allowStruct operand Strength.compare.rank
  return { text := head ++ value.text, endsInBrace := value.endsInBrace }

/-- An arm of `match`. Without a block of its own it ends in a comma, unless it is the last. -/
def matchArm (g : Grammar) : Parser String := do
  let head ← cat [outerText g, choiceText g,
    optional (atWord "if") (cat [word "if", g.exprText true]), punct "=>"]
  let body ← g.statementExpr
  let comma ← if body.form != .blockLike && !(← test atEnd) then punct "," else optPunct ","
  return head ++ body.text ++ comma

/-- A `match` with its arms. -/
def matchExpr (g : Grammar) : Parser ExprShape :=
  ownBlock (cat [word "match", g.exprText false,
    braces (cat [innerText g, manyText (fun ts => !atEnd ts) (matchArm g)])])

/-- Whether a closure comes next, by its first words. -/
def atClosure (ts : List Token) : Bool :=
  atPunct "|" ts || atWord "move" ts || atForClosure ts ||
    (atWord "const" ts && !skip 1 atBrace ts) || atWord "static" ts ||
    (atWord "async" ts && (skip 1 (atPunct "|") ts || skip 1 (atWord "move") ts))

/-- Whether a block that runs later comes next. -/
def atAsyncBlock (ts : List Token) : Bool :=
  atWord "async" ts && (skip 1 atBrace ts || (skip 1 (atWord "move") ts && skip 2 atBrace ts))

/-- Whether a block comes next that a failure leaves. -/
def atTryBlock (ts : List Token) : Bool :=
  atWord "try" ts && skip 1 atBrace ts

def atPathExpr (ts : List Token) : Bool :=
  atPathStart ts ||
    (atWord "try" ts && (skip 1 (atPunct "!") ts || skip 1 (atPunct "::") ts))

/-- An operand that is a text of its own. -/
def textExpr (text : Parser String) : Parser ExprShape := do
  return { text := ← text }

/-- A literal as an operand. -/
def literalExpr : Parser ExprShape := do
  match ← literal with
  | (.str v, text) => return { text, string? := some v }
  | (_, text) => return { text }

/-- An operand without what is applied to it. -/
def atomExpr (g : Grammar) (allowStruct : Bool) : Parser ExprShape := do
  if ← test atLiteral then literalExpr
  else if ← test atAsyncBlock then
    return { text := ← cat [word "async", optWord "move", block g], endsInBrace := true }
  else if ← test atTryBlock then tryBlock g
  else if ← test atClosure then closureExpr g allowStruct
  else if ← test atBuiltin then return { text := ← builtin, form := .verbatim }
  else if ← test atPathExpr then pathExpr g allowStruct
  else if ← test atParen then textExpr (parens (commaText (g.exprText true)))
  else if ← test (atWord "break") then breakExpr g allowStruct
  else if ← test (atWord "continue") then textExpr (cat [word "continue", optLifetime])
  else if ← test (atWord "return") then jump g "return"
  else if ← test (atWord "become") then becomeExpr g
  else if ← test atBracket then textExpr (brackets (arrayContent g))
  else if ← test (atWord "let") then letExpr g allowStruct
  else if ← test (atWord "if") then ifExpr g
  else if ← test (atWord "while") then whileExpr g
  else if ← test (atWord "for") then forExpr g
  else if ← test (atWord "loop") then loopExpr g
  else if ← test (atWord "match") then matchExpr g
  else if ← test (atWord "yield") then jump g "yield"
  else if ← test (atWord "unsafe") then wordBlock g "unsafe"
  else if ← test (atWord "const") then wordBlock g "const"
  else if ← test atBrace then blockExpr g
  else if ← test (atPunct "..") then rangeExpr g allowStruct ""
  else if ← test (atWord "_") then textExpr ident
  else if ← test atLifetime then labeledExpr g
  else fail

/-! ## What is applied to an operand -/

/-- The field number that a part of a number is. -/
def numberPart? (part : List Char) : Option Nat :=
  match Literal.int? part with
  | some (n, false, []) => if isFieldNumber n then some n else none
  | _ => none

/-- The field numbers that a number with points in it stands for, and whether a point ends it. -/
def fieldNumbers? (text : String) : Option (List Nat × Bool) :=
  let parts := Text.splitOn '.' text.toList
  let (parts, dotted) := match parts.reverse with
    | [] :: more => (more.reverse, true)
    | _ => (parts, false)
  (parts.mapM numberPart?).map fun ns => (ns, dotted)

/-- Whether a number with a point in it comes next. -/
def atFloat : List Token → Bool
  | .literal .float _ :: _ => true
  | _ => false

/-- What follows the point of a field access or a method call. -/
def memberTrailer (g : Grammar) : Parser String := do
  if ← test (atWord "await") then ident
  else if ← test atInteger then fieldNumber
  else
    let n ← name
    let turbofish ← optional (atPunct "::") do
      let colons ← punct "::"
      require (atPunct "<")
      return colons ++ (← angleArgs g).text
    return n ++ turbofish ++ (← optional (fun ts => turbofish != "" || atParen ts)
      (parens (commaText (g.exprText true))))

/-- What follows the point of a field access that is written as a number with points. -/
def floatTrailer (g : Grammar) : Parser String := do
  match fieldNumbers? (← literal).2 with
  | none => fail
  | some (ns, dotted) =>
    let fields := String.intercalate "." (ns.map numberText)
    if dotted then return fields ++ "." ++ (← memberTrailer g) else return fields

/-- What is applied to an operand, if anything: arguments, a member, an index, or `?`. -/
def trailer (g : Grammar) (isRange : Bool) : Parser (Option String) := do
  if ← test atParen then return some (← parens (commaText (g.exprText true)))
  else if ← test (fun ts => atDot ts && !isRange) then
    let dot ← punct "."
    return some (dot ++ (← if ← test atFloat then floatTrailer g else memberTrailer g))
  else if ← test atBracket then return some (← brackets (g.exprText true))
  else if ← test (fun ts => atPunct "?" ts && !isRange) then return some (← punct "?")
  else return none

/-- An operand with all that is applied to it. -/
def trailers (g : Grammar) (operand : ExprShape) : Parser ExprShape := do
  match ← trailer g (operand.form == .range) with
  | none => return operand
  | some first =>
    let more ← repeatWhile (trailer g false)
    return { text := operand.text ++ first ++ String.join more }

/-- The operators before an operand. -/
def signs : Parser String := do
  if ← test (atPunct "&") then
    let mark ← punct "&"
    if ← test (fun ts => atWord "raw" ts && skip 1 (atWords ["mut", "const"]) ts) then
      return mark ++ (← cat [word "raw", ident])
    else return mark ++ (← optWord "mut")
  else if ← test (atPunct "*") then punct "*"
  else if ← test (atPunct "!") then punct "!"
  else punct "-"

/-- Whether an operator stands before an operand. -/
def atSign (ts : List Token) : Bool :=
  ["&", "*", "!", "-"].any fun s => atPunct s ts

/-- An expression without binary operators outside its operand and without attributes. -/
def operand (g : Grammar) (allowStruct : Bool) : Parser ExprShape := do
  if ← test atSign then
    let head ← signs
    let e ← g.unary allowStruct
    return { text := head ++ e.text, endsInBrace := e.endsInBrace }
  else trailers g (← atomExpr g allowStruct)

/-- An expression without binary operators outside its operand. Attributes stay before an operand
that is printed as it is written, and are refused before a range. -/
def unaryOver (g : Grammar) (allowStruct : Bool) : Parser ExprShape := fun i =>
  match outerText g i with
  | none => none
  | some (attributes, start) =>
    match operand g allowStruct start with
    | none => none
    | some (e, after) =>
      if e.form == .verbatim then some ({ e with text := tokensText (i.taken after) }, after)
      else if e.form == .range && attributes != "" then none
      else some ({ e with text := attributes ++ e.text }, after)

/-- An expression with a block of its own that can begin a statement, if one comes next. -/
def ownBlock? (g : Grammar) (ts : List Token) : Option (Parser ExprShape) :=
  if atWord "if" ts then some (ifExpr g)
  else if atWord "while" ts then some (whileExpr g)
  else if atWord "for" ts && !atForClosure ts then some (forExpr g)
  else if atWord "loop" ts then some (loopExpr g)
  else if atWord "match" ts then some (matchExpr g)
  else if atTryBlock ts then some (tryBlock g)
  else if atWord "unsafe" ts then some (wordBlock g "unsafe")
  else if atWord "const" ts && skip 1 atBrace ts then some (wordBlock g "const")
  else if atBrace ts then some (blockExpr g)
  else if atLifetime ts then some (labeledExpr g)
  else none

/-- An expression with attributes before it, which belong to its leftmost operand. -/
def attachTo (attributes : String) (e : ExprShape) : ExprShape :=
  { e with text := attach attributes (e.lead == .verbatim) (e.lead == .range) e.text }

/-- An expression as a statement or as a `match` arm: one with a block of its own ends at the
block, unless a member or `?` follows. -/
def statementExprOver (g : Grammar) : Parser ExprShape := do
  let attributes ← outerText g
  match ownBlock? g (← get).tokens with
  | none =>
    let first := attachTo attributes (← g.unary true)
    climbOver g true first Strength.jump.rank
  | some own =>
    let e ← own
    if ← test (fun ts => atDot ts || atPunct "?" ts) then
      let first := attachTo attributes (← trailers g e)
      climbOver g true first Strength.jump.rank
    else return attachTo attributes e

end RpcBindings.Rust.Parser
