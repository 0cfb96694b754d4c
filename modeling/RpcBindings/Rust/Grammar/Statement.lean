import RpcBindings.Rust.Grammar.Item

/-!
Statements: items, `let`, macro calls and expressions.

An expression without a block of its own ends in a semicolon, unless it is the last statement.
-/

namespace RpcBindings.Rust.Parser

/-- Whether a statement begins with a word that only items begin with. -/
def atItem (ts : List Token) : Bool :=
  atWords ["pub", "extern", "use", "fn", "mod", "type", "struct", "enum", "trait", "impl",
    "macro"] ts ||
  (atWord "crate" ts && !skip 1 (atPunct "::") ts) ||
  (atWord "static" ts &&
    (skip 1 (atWord "mut") ts ||
      (skip 1 atName ts &&
        !(skip 1 (atWord "async") ts &&
          (skip 2 (atWord "move") ts || skip 2 (atPunct "|") ts))))) ||
  (atWord "const" ts &&
    !(skip 1 atBrace ts || skip 1 (atWord "static") ts ||
      (skip 1 (atWord "async") ts && !skip 2 (atWords ["unsafe", "extern", "fn"]) ts) ||
      skip 1 (atWord "move") ts || skip 1 (atPunct "|") ts)) ||
  (atWord "unsafe" ts && !skip 1 atBrace ts) ||
  (atWord "async" ts && skip 1 (atWords ["unsafe", "extern", "fn"]) ts) ||
  (atWord "union" ts && skip 1 atName ts) ||
  (atWord "auto" ts && skip 1 (atWord "trait") ts) ||
  (atWord "default" ts && skip 1 (atWords ["unsafe", "impl"]) ts)

/-- How a statement begins that begins with a macro's path. -/
inductive MacroStart where
  /-- A macro that defines a name. -/
  | item
  /-- A call between braces that is a statement of its own. -/
  | block
  | none

/-- How a statement begins, as far as macros go. -/
def macroStart (ts : List Token) : MacroStart :=
  match namePath ⟨ts, false⟩ with
  | .none => .none
  | .some (_, rest) =>
    let after := rest.tokens
    if atPunct "!" after then
      if skip 1 atName after || skip 1 (atWord "try") after then .item
      else if skip 1 atBrace after && !skip 2 atDot after && !skip 2 (atPunct "?") after then .block
      else .none
    else .none

/-- A `let` statement. A value that ends in a brace cannot have an `else` after it. -/
def letStatement (g : Grammar) : Parser String := do
  let head ← cat [word "let", g.patternText, typeAnnotation g]
  let value ← optional (atPunct "=") do
    let w ← punct "="
    let e ← g.expr true
    return w ++ e.text ++
      (← optional (fun ts => !e.endsInBrace && atWord "else" ts) (cat [word "else", block g]))
  return head ++ value ++ (← punct ";")

/-- A macro call between braces as a statement. -/
def macroStatement : Parser String := do
  let p ← namePath
  return p.text ++ (← macroArgs).2 ++ (← optPunct ";")

/-- A statement that is no item: its text, and whether another statement may follow it. -/
def plainStatement (g : Grammar) : Parser (String × Bool) := do
  let attributes ← outerText g
  match macroStart (← get).tokens with
  | .block => return (attributes ++ (← macroStatement), true)
  | _ =>
    if ← test (atWord "let") then return (attributes ++ (← letStatement g), true)
    let e ← g.statementExpr
    let semicolon ← optPunct ";"
    return ((attachTo attributes e).text ++ semicolon,
      semicolon != "" || e.form == .blockLike || e.form == .braceMacro)

/-- Whether a statement is an item. -/
def isItemStart (ts : List Token) : Bool :=
  match macroStart ts with
  | .item => true
  | .block => false
  | .none => !atWord "let" ts && atItem ts

/-- A statement: its text, and whether another statement may follow it. -/
def statement (g : Grammar) : Parser (String × Bool) := fun i =>
  match outerAttributes g i with
  | none => none
  | some (_, after) =>
    if isItemStart after.tokens then (g.item i).map fun p => ((p.1, true), p.2)
    else plainStatement g i

/-- The next statement after any empty ones, if there is one. -/
def statementStep (g : Grammar) : Parser (Option String) := do
  let empty ← manyText (atPunct ";") (punct ";")
  if ← test atEnd then return if empty == "" then none else some empty
  let (text, isClosed) ← statement g
  if !isClosed then require atEnd
  return some (empty ++ text)

/-- The statements of a block, up to its end. -/
def statementsOver (g : Grammar) : Parser String := do
  return String.join (← repeatWhile (statementStep g))

end RpcBindings.Rust.Parser
