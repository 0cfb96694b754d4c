import RpcBindings.Proofs.Rust.Repetition

/-!
Literals and names as expressions.

Where nothing but a comma or the end follows, a literal or a name is an expression of its own: no
operator, no member and no argument can go on with it. Main statements: the parser of expressions takes
the literal or the name and leaves the rest (`Parser.expr_literal`, `Parser.expr_name`).
-/

namespace RpcBindings.Rust

open RpcBindings.Rust.Parser

/-- The tokens of a literal. -/
inductive IsLiteral : List Token → Prop where
  | plain (kind : LiteralKind) (text : String) : IsLiteral [.literal kind text]
  | truth {word : String} (h : word ∈ ["true", "false"]) : IsLiteral [.ident word]
  | negative (joint : Bool) {kind : LiteralKind} (h : isNumber kind = true) (text : String) :
      IsLiteral [.punct '-' joint, .literal kind text]

/-- Tokens at which an element of a list ends. -/
def EndsElement (ts : List Token) : Prop :=
  ∀ t ∈ ts.head?, ∃ joint, t = .punct ',' joint

theorem endsElement_nil : EndsElement [] := nofun

theorem endsElement_comma (joint : Bool) (ts : List Token) :
    EndsElement (.punct ',' joint :: ts) :=
  fun _ ht => ⟨joint, (Option.some.inj ht).symm⟩

namespace EndsElement

variable {ts : List Token}

theorem cases (h : EndsElement ts) : ts = [] ∨ ∃ joint more, ts = .punct ',' joint :: more := by
  cases ts with
  | nil => exact .inl rfl
  | cons t more =>
    obtain ⟨joint, rfl⟩ := h t rfl
    exact .inr ⟨joint, more, rfl⟩

theorem atPunct {s : String} {c : Char} {cs : List Char} (h : EndsElement ts)
    (hs : s.toList = c :: cs) (hc : c ≠ ',') : atPunct s ts = false := by
  unfold Rust.atPunct
  rw [hs]
  rcases h.cases with rfl | ⟨joint, more, rfl⟩
  · cases cs <;> rfl
  · cases cs with
    | nil => rw [dropPunct?, if_neg hc]; rfl
    | cons c' cs => rw [dropPunct?, decide_eq_false hc]; rfl

theorem atWord (h : EndsElement ts) (w : String) : atWord w ts = false := by
  rcases h.cases with rfl | ⟨joint, more, rfl⟩ <;> rfl

theorem atGroup (h : EndsElement ts) (d : Delimiter) : atGroup d ts = false := by
  rcases h.cases with rfl | ⟨joint, more, rfl⟩ <;> rfl

end EndsElement

namespace Parser

variable {g : Grammar} {rest ts : List Token} {stray allowStruct : Bool}

/-- No attributes stand before a token that is no number sign. -/
theorem outerText_of_not {i : Input} (h : atPunct "#" i.tokens = false) :
    outerText g i = some ("", i) := by
  unfold outerText outerAttributes
  rw [bind_apply, many_of_not h]
  rfl

theorem nextOperator?_of_endsElement (h : EndsElement rest) : nextOperator? rest = none := by
  unfold nextOperator?
  have hheads : ∀ o ∈ binaryOperators, o.1.toList.head?.any (· != ',') = true := by
    decide +kernel
  refine List.find?_eq_none.2 fun o ho => ?_
  have hhead := hheads o ho
  cases hs : o.1.toList with
  | nil =>
    rw [hs] at hhead
    exact absurd hhead nofun
  | cons c cs =>
    rw [hs] at hhead
    rw [h.atPunct hs (bne_iff_ne.1 hhead)]
    exact Bool.false_ne_true

/-- No operator goes on with an expression at the end of an element. -/
theorem climbOver_of_endsElement {left : ExprShape} (hleft : left.form = .other)
    (h : EndsElement rest) (base : Nat) :
    climbOver g allowStruct left base ⟨rest, stray⟩ = some (left, ⟨rest, stray⟩) := by
  have hassign : atAssignment rest = false := by
    unfold atAssignment
    rw [h.atPunct (s := "=") rfl (by decide), Bool.false_and]
  have hstep : operatorStep g allowStruct left base ⟨rest, stray⟩ = some (none, ⟨rest, stray⟩) := by
    have hform : (ExprForm.other == ExprForm.range) = false := rfl
    unfold operatorStep
    simp only [hleft, hform, nextOperator?_of_endsElement h, hassign,
      h.atPunct (s := "..") rfl (by decide), h.atWord, Bool.and_false, Bool.false_eq_true, if_false]
  show climbFrom g allowStruct base (rest.length + 1) left ⟨rest, stray⟩ = _
  rw [climbFrom, bind_apply, hstep]
  rfl

/-- Nothing is applied to an operand at the end of an element. -/
theorem trailers_of_endsElement {e : ExprShape} (h : EndsElement rest) :
    trailers g e ⟨rest, stray⟩ = some (e, ⟨rest, stray⟩) := by
  have hparen : atParen rest = false := h.atGroup .paren
  have hbracket : atBracket rest = false := h.atGroup .bracket
  have hdot : atDot rest = false := by
    unfold atDot
    rw [h.atPunct (s := ".") rfl (by decide), Bool.false_and]
  have htrailer (isRange : Bool) :
      trailer g isRange ⟨rest, stray⟩ = some (none, ⟨rest, stray⟩) := by
    unfold trailer
    rw [test_bind_of_false hparen, test_bind_of_false (by rw [hdot, Bool.false_and]),
      test_bind_of_false hbracket,
      test_bind_of_false (by rw [h.atPunct (s := "?") rfl (by decide), Bool.false_and])]
    rfl
  unfold trailers
  rw [bind_apply, htrailer]
  rfl

theorem literalExpr_apply {kind : LiteralKind} {text : String}
    (h : literal ⟨ts, stray⟩ = some ((kind, text), ⟨rest, stray⟩)) :
    ∃ e, literalExpr ⟨ts, stray⟩ = some (e, ⟨rest, stray⟩) ∧ e.form = .other := by
  unfold literalExpr
  rw [bind_apply, h, Option.bind_some]
  cases kind <;> exact ⟨_, rfl, rfl⟩

/-- An operand to which nothing is applied. -/
theorem unaryOver_of_atom {e : ExprShape}
    (hatom : atomExpr g allowStruct ⟨ts, stray⟩ = some (e, ⟨rest, stray⟩)) (hform : e.form = .other)
    (hsign : atSign ts = false) (hhash : atPunct "#" ts = false) (hrest : EndsElement rest) :
    ∃ e, unaryOver g allowStruct ⟨ts, stray⟩ = some (e, ⟨rest, stray⟩) ∧ e.form = .other := by
  have hoperand : operand g allowStruct ⟨ts, stray⟩ = some (e, ⟨rest, stray⟩) := by
    unfold operand
    rw [test_bind_of_false hsign, bind_apply, hatom, Option.bind_some,
      trailers_of_endsElement hrest]
  refine ⟨{ e with text := "" ++ e.text }, ?_, hform⟩
  unfold unaryOver
  rw [outerText_of_not hhash]
  dsimp only
  rw [hoperand]
  simp only [hform]
  rfl

/-- An operand that is one literal. -/
theorem unaryOver_literal {kind : LiteralKind} {text : String}
    (hread : literal ⟨ts, stray⟩ = some ((kind, text), ⟨rest, stray⟩))
    (hliteral : atLiteral ts = true) (hsign : atSign ts = false) (hhash : atPunct "#" ts = false)
    (hrest : EndsElement rest) :
    ∃ e, unaryOver g allowStruct ⟨ts, stray⟩ = some (e, ⟨rest, stray⟩) ∧ e.form = .other := by
  obtain ⟨e, he, hform⟩ := literalExpr_apply hread
  have hatom : atomExpr g allowStruct ⟨ts, stray⟩ = some (e, ⟨rest, stray⟩) := by
    unfold atomExpr
    rw [test_bind_of_true hliteral, he]
  exact unaryOver_of_atom hatom hform hsign hhash hrest

/-- A literal as an operand. -/
theorem unary_literal {v : List Token} (h : IsLiteral v) (hrest : EndsElement rest) :
    ∃ e, g.deepen.deepen.unary allowStruct ⟨v ++ rest, stray⟩ = some (e, ⟨rest, stray⟩) ∧
      e.form = .other := by
  have hplain (g : Grammar) (kind : LiteralKind) (text : String) :
      ∃ e, unaryOver g allowStruct ⟨.literal kind text :: rest, stray⟩ = some (e, ⟨rest, stray⟩) ∧
        e.form = .other :=
    unaryOver_literal rfl rfl rfl rfl hrest
  cases h with
  | plain kind text => exact hplain g.deepen kind text
  | @truth word hword =>
    have htruth (hword : word = "true" ∨ word = "false") :
        literal ⟨.ident word :: rest, stray⟩ = some ((.other, word), ⟨rest, stray⟩) ∧
          atLiteral (.ident word :: rest) = true := by
      rcases hword with rfl | rfl <;> exact ⟨rfl, rfl⟩
    obtain ⟨hread, hliteral⟩ := htruth (by simpa using hword)
    exact unaryOver_literal (g := g.deepen) hread hliteral rfl rfl hrest
  | @negative joint kind hnumber text =>
    obtain ⟨e, he, hform⟩ := hplain g kind text
    have hsign : atSign (.punct '-' joint :: .literal kind text :: rest) = true := rfl
    have hminus : signs ⟨.punct '-' joint :: .literal kind text :: rest, stray⟩ =
        some ("-", ⟨.literal kind text :: rest, stray⟩) := rfl
    have hoperand : operand g.deepen allowStruct
        ⟨.punct '-' joint :: .literal kind text :: rest, stray⟩ =
          some ({ text := "-" ++ e.text, endsInBrace := e.endsInBrace }, ⟨rest, stray⟩) := by
      have hunary : g.deepen.unary allowStruct ⟨.literal kind text :: rest, stray⟩ =
          some (e, ⟨rest, stray⟩) := he
      unfold operand
      rw [test_bind_of_true hsign, bind_apply, hminus, Option.bind_some, bind_apply, hunary]
      rfl
    refine ⟨{ text := "" ++ ("-" ++ e.text), endsInBrace := e.endsInBrace }, ?_, rfl⟩
    show unaryOver g.deepen allowStruct ⟨.punct '-' joint :: .literal kind text :: rest, stray⟩ = _
    unfold unaryOver
    rw [outerText_of_not rfl]
    dsimp only
    rw [hoperand]
    rfl

/-- An operand at the end of an element is an expression. -/
theorem exprOver_of_unary {e : ExprShape}
    (he : g.unary allowStruct ⟨ts, stray⟩ = some (e, ⟨rest, stray⟩)) (hform : e.form = .other)
    (hrest : EndsElement rest) :
    exprOver g allowStruct ⟨ts, stray⟩ = some (e, ⟨rest, stray⟩) := by
  unfold exprOver
  rw [bind_apply, he, Option.bind_some]
  exact climbOver_of_endsElement hform hrest _

/-- A literal at the end of an element is an expression, and the rest is left. -/
theorem expr_literal {v : List Token} (h : IsLiteral v) (hrest : EndsElement rest) :
    ∃ e, g.deepen.deepen.deepen.expr allowStruct ⟨v ++ rest, stray⟩ = some (e, ⟨rest, stray⟩) := by
  obtain ⟨e, he, hform⟩ : ∃ e, g.deepen.deepen.unary allowStruct ⟨v ++ rest, stray⟩ =
      some (e, ⟨rest, stray⟩) ∧ e.form = .other := unary_literal h hrest
  exact ⟨e, exprOver_of_unary he hform hrest⟩

/-! ## Names -/

/-- A name is a path of an expression. -/
theorem qualifiedPath_name {n : String} (h : isName n = true) (hrest : EndsElement rest) :
    qualifiedPath g true ⟨.ident n :: rest, false⟩ =
      some (⟨"", n, .none, true, false⟩, ⟨rest, false⟩) := by
  have hcolons : atPunct "::" rest = false := hrest.atPunct rfl (by decide)
  have hargs : atAngleArgs true rest = false := by
    unfold atAngleArgs
    rw [hcolons]
    rfl
  have hsegment : segment g true ⟨.ident n :: rest, false⟩ = some ((n, .none), ⟨rest, false⟩) := by
    rw [segment_ident g true h, whenAt_of_false hargs]
    rfl
  have hmore : moreSegments g true true ⟨rest, false⟩ = some ([], ⟨rest, false⟩) :=
    many_of_not (by rw [hcolons, Bool.false_and])
  unfold qualifiedPath
  rw [test_bind_of_false (atPunct_ident rfl)]
  unfold path
  rw [bind_apply, optPunct_of_not (atPunct_ident rfl), Option.bind_some, bind_apply, hsegment,
    Option.bind_some, bind_apply, hmore]
  rfl

/-- A name at the end of an element is an expression, and the rest is left. -/
theorem expr_name {n : String} (h : isName n = true) (hrest : EndsElement rest) :
    ∃ e, g.deepen.deepen.expr allowStruct ⟨.ident n :: rest, false⟩ = some (e, ⟨rest, false⟩) := by
  have hword {w : String} (hw : reserved.contains w = true) :
      atWord w (.ident n :: rest) = false := atWord_of_isName h hw
  have hpunct {s : String} {c : Char} {cs : List Char} (hs : s.toList = c :: cs) :
      atPunct s (.ident n :: rest) = false := atPunct_ident hs
  have hbang : atBang rest = false := by
    unfold atBang
    rw [hrest.atPunct (s := "!") rfl (by decide), Bool.false_and]
  have hbrace : atBrace rest = false := hrest.atGroup .brace
  have hpath : pathExpr g allowStruct ⟨.ident n :: rest, false⟩ =
      some ({ text := "" ++ n ++ "" }, ⟨rest, false⟩) := by
    unfold pathExpr
    rw [bind_apply, qualifiedPath_name h hrest, Option.bind_some]
    dsimp only
    rw [test_bind_of_false (by unfold atMacroCall; rw [hbang, Bool.false_and]),
      test_bind_of_false (by rw [hbrace, Bool.and_false])]
    rfl
  have hliteral : atLiteral (.ident n :: rest) = false := by
    show (atWord "true" (.ident n :: rest) || atWord "false" (.ident n :: rest)) = false
    rw [hword (by decide), hword (by decide)]
    rfl
  have hasync : atAsyncBlock (.ident n :: rest) = false := by
    unfold atAsyncBlock
    rw [hword (by decide), Bool.false_and]
  have htry : atTryBlock (.ident n :: rest) = false := by
    unfold atTryBlock
    rw [hword (by decide), Bool.false_and]
  have hclosure : atClosure (.ident n :: rest) = false := by
    unfold atClosure atForClosure
    rw [hpunct rfl, hword (by decide), hword (by decide), hword (by decide), hword (by decide),
      hword (by decide)]
    rfl
  have hbuiltin : atBuiltin (.ident n :: rest) = false := by
    have hhash : skip 1 (atPunct "#") (.ident n :: rest) = false := hrest.atPunct rfl (by decide)
    unfold atBuiltin
    rw [hhash, Bool.and_false]
  have hstart : atPathExpr (.ident n :: rest) = true := by
    have hname : atName (.ident n :: rest) = true := h
    unfold atPathExpr atPathStart
    rw [hname]
    rfl
  have hatom : atomExpr g allowStruct ⟨.ident n :: rest, false⟩ =
      some ({ text := "" ++ n ++ "" }, ⟨rest, false⟩) := by
    unfold atomExpr
    rw [test_bind_of_false hliteral, test_bind_of_false hasync, test_bind_of_false htry,
      test_bind_of_false hclosure, test_bind_of_false hbuiltin, test_bind_of_true hstart, hpath]
  obtain ⟨e, he, hform⟩ := unaryOver_of_atom hatom rfl rfl (atPunct_ident rfl) hrest
  exact ⟨e, exprOver_of_unary (g := g.deepen) he hform hrest⟩

end Parser

end RpcBindings.Rust
