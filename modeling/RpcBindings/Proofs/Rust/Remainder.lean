import RpcBindings.Rust.Reader

/-!
What parsers leave.

A parser takes tokens from the front, so what it leaves is an end of what it was given. Every way to
put parsers together keeps this, and a group keeps it whatever its content does, so that only the
parsers that stand outside of groups are gone through here: those of types, of patterns, and of the
heads of functions, fields and structs. Main statement: a grammar of any depth leaves an end
(`Grammar.leavesEnd_ofDepth`).
-/

namespace RpcBindings.Rust

namespace Parser

/-- What the parser leaves is an end of what it was given. -/
class LeavesEnd {α : Type} (p : Parser α) : Prop where
  suffix {i after : Input} {a : α} (h : p i = some (a, after)) : after.tokens <:+ i.tokens

variable {α β : Type} {p : Parser α} {f : α → Parser β} {i after : Input} {b : β}

/-- A parser that goes on after another one has run on what that one left. -/
theorem exists_of_bind (h : (p >>= f) i = some (b, after)) :
    ∃ a mid, p i = some (a, mid) ∧ f a mid = some (b, after) := by
  obtain ⟨⟨a, mid⟩, ha, hb⟩ := Option.bind_eq_some_iff.1 h
  exact ⟨a, mid, ha, hb⟩

theorem exists_of_map {g : α → β} (h : (g <$> p) i = some (b, after)) :
    ∃ a, p i = some (a, after) ∧ g a = b := by
  obtain ⟨⟨a, mid⟩, ha, hb⟩ := Option.bind_eq_some_iff.1 h
  obtain ⟨rfl, rfl⟩ := Prod.mk.inj (Option.some.inj hb)
  exact ⟨a, ha, rfl⟩

theorem eq_of_pure {a a' : α} (h : (pure a : Parser α) i = some (a', after)) :
    a = a' ∧ i = after :=
  Prod.mk.inj (Option.some.inj h)

/-! ## Parsers that look -/

instance (a : α) : LeavesEnd (pure a : Parser α) where
  suffix h := by
    obtain ⟨-, rfl⟩ := eq_of_pure h
    exact List.suffix_rfl

instance : LeavesEnd (fail : Parser α) :=
  ⟨nofun⟩

instance (c : List Token → Bool) : LeavesEnd (test c) where
  suffix h := by
    obtain ⟨-, rfl⟩ := Prod.mk.inj (Option.some.inj h)
    exact List.suffix_rfl

instance : LeavesEnd (get : Parser Input) where
  suffix h := by
    obtain ⟨-, rfl⟩ := Prod.mk.inj (Option.some.inj h)
    exact List.suffix_rfl

instance (c : List Token → Bool) : LeavesEnd (require c) where
  suffix h := by
    unfold require at h
    split at h
    · obtain ⟨-, rfl⟩ := Prod.mk.inj (Option.some.inj h)
      exact List.suffix_rfl
    · exact absurd h nofun

/-! ## Parsers after one another -/

instance leavesEnd_bind [hp : LeavesEnd p] [h : ∀ a, LeavesEnd (f a)] : LeavesEnd (p >>= f) where
  suffix hread := by
    obtain ⟨a, mid, ha, hb⟩ := exists_of_bind hread
    exact ((h a).suffix hb).trans (hp.suffix ha)

instance (g : α → β) [hp : LeavesEnd p] : LeavesEnd (g <$> p) where
  suffix h := by
    obtain ⟨a, ha, -⟩ := exists_of_map h
    exact hp.suffix ha

instance {c : Prop} [Decidable c] {q : Parser α} [LeavesEnd p] [LeavesEnd q] :
    LeavesEnd (if c then p else q) := by
  split <;> assumption

instance (priority := high) (c : List Token → Bool) {q : Parser α} [LeavesEnd p] [LeavesEnd q] :
    LeavesEnd (test c >>= fun b => if b = true then p else q) :=
  leavesEnd_bind

instance (c : List Token → Bool) (no : α) [hp : LeavesEnd p] : LeavesEnd (whenAt c p no) where
  suffix h := by
    unfold whenAt at h
    split at h
    · exact hp.suffix h
    · obtain ⟨-, rfl⟩ := Prod.mk.inj (Option.some.inj h)
      exact List.suffix_rfl

instance {q : Parser α} [hp : LeavesEnd p] [hq : LeavesEnd q] : LeavesEnd (orElse p q) where
  suffix {i after a} h := by
    unfold orElse at h
    split at h
    · exact hp.suffix (‹p i = some _›.trans h)
    · exact hq.suffix h

instance [hp : LeavesEnd p] : LeavesEnd (verbatim p) where
  suffix h := by
    obtain ⟨r, hr, heq⟩ := Option.map_eq_some_iff.1 h
    obtain ⟨-, rfl⟩ := Prod.mk.inj heq
    exact hp.suffix hr

instance [hp : LeavesEnd p] : LeavesEnd (verbatimTail p) where
  suffix h := by
    obtain ⟨r, hr, heq⟩ := Option.map_eq_some_iff.1 h
    obtain ⟨-, rfl⟩ := Prod.mk.inj heq
    exact hp.suffix hr

instance : LeavesEnd (cat []) :=
  inferInstanceAs (LeavesEnd (pure ""))

instance {p : Parser String} {ps : List (Parser String)} [LeavesEnd p] [LeavesEnd (cat ps)] :
    LeavesEnd (cat (p :: ps)) := by
  unfold cat
  infer_instance

/-! ## Single tokens -/

theorem read_of_ofTokens {read : List Token → Option (α × List Token)} {a : α}
    (h : ofTokens read i = some (a, after)) : read i.tokens = some (a, after.tokens) := by
  obtain ⟨r, hr, heq⟩ := Option.map_eq_some_iff.1 h
  obtain ⟨rfl, rfl⟩ := Prod.mk.inj heq
  exact hr

theorem leavesEnd_ofTokens {read : List Token → Option (α × List Token)}
    (h : ∀ {ts rest : List Token} {a : α}, read ts = some (a, rest) → rest <:+ ts) :
    LeavesEnd (ofTokens read) :=
  ⟨fun hread => h (read_of_ofTokens hread)⟩

theorem suffix_of_dropPunct? {cs : List Char} {ts rest : List Token}
    (h : dropPunct? cs ts = some rest) : rest <:+ ts := by
  fun_induction dropPunct? cs ts with
  | case1 ts => exact Option.some.inj h ▸ List.suffix_rfl
  | case2 => exact Option.some.inj h ▸ List.suffix_cons _ _
  | case4 _ _ _ _ _ _ _ ih => exact (ih h).trans (List.suffix_cons _ _)
  | case3 | case5 | case6 => exact absurd h nofun

instance (s : String) : LeavesEnd (punct s) :=
  leavesEnd_ofTokens fun h => by
    obtain ⟨rest, hr, heq⟩ := Option.map_eq_some_iff.1 h
    obtain ⟨-, rfl⟩ := Prod.mk.inj heq
    exact suffix_of_dropPunct? hr

instance (w : String) : LeavesEnd (word w) :=
  leavesEnd_ofTokens fun {ts _ _} h => by
    split at h
    · obtain ⟨-, rfl⟩ := Prod.mk.inj (Option.some.inj h)
      exact ts.tail_suffix
    · exact absurd h nofun

/-- A name or reserved word that was read was the first token. -/
theorem eq_cons_of_ident {n : String} (h : ident i = some (n, after)) :
    i.tokens = .ident n :: after.tokens := by
  have hr := read_of_ofTokens h
  split at hr
  · obtain ⟨rfl, hrest⟩ := Prod.mk.inj (Option.some.inj hr)
    exact hrest ▸ ‹_›
  · exact absurd hr nofun

/-- A name that was read was the first token, and no reserved word. -/
theorem eq_cons_of_name {n : String} (h : name i = some (n, after)) :
    i.tokens = .ident n :: after.tokens ∧ isName n = true := by
  have hr := read_of_ofTokens h
  split at hr
  · split at hr
    · obtain ⟨rfl, hrest⟩ := Prod.mk.inj (Option.some.inj hr)
      exact ⟨hrest ▸ ‹_›, ‹_›⟩
    · exact absurd hr nofun
  · exact absurd hr nofun

instance : LeavesEnd name where
  suffix h := (eq_cons_of_name h).1 ▸ List.suffix_cons _ _

instance : LeavesEnd ident where
  suffix h := eq_cons_of_ident h ▸ List.suffix_cons _ _

instance : LeavesEnd lifetime :=
  leavesEnd_ofTokens fun h => by
    split at h
    · obtain ⟨-, rfl⟩ := Prod.mk.inj (Option.some.inj h)
      exact List.suffix_cons _ _
    · exact absurd h nofun

instance : LeavesEnd literal :=
  leavesEnd_ofTokens fun h => by
    split at h
    · obtain ⟨-, rfl⟩ := Prod.mk.inj (Option.some.inj h)
      exact List.suffix_cons _ _
    · split at h
      · obtain ⟨-, rfl⟩ := Prod.mk.inj (Option.some.inj h)
        exact List.suffix_cons _ _
      · exact absurd h nofun
    · split at h
      · obtain ⟨-, rfl⟩ := Prod.mk.inj (Option.some.inj h)
        exact (List.suffix_cons _ _).trans (List.suffix_cons _ _)
      · exact absurd h nofun
    · exact absurd h nofun

instance : LeavesEnd anyGroup :=
  leavesEnd_ofTokens fun h => by
    split at h
    · obtain ⟨-, rfl⟩ := Prod.mk.inj (Option.some.inj h)
      exact List.suffix_cons _ _
    · exact absurd h nofun

/-- A group that was read was the first token, and its content was read from its start. -/
theorem exists_of_group {d : Delimiter} {a : α} (h : group d p i = some (a, after)) :
    ∃ inner stray rest, i.tokens = .group d inner :: after.tokens ∧
      p ⟨inner, stray⟩ = some (a, rest) := by
  unfold group at h
  split at h
  · rename_i e inner ts htokens
    split at h
    · rename_i hd
      subst hd
      obtain ⟨⟨a', rest⟩, hr, heq⟩ := Option.map_eq_some_iff.1 h
      obtain ⟨rfl, rfl⟩ := Prod.mk.inj heq
      exact ⟨inner, i.stray, rest, htokens, hr⟩
    · exact absurd h nofun
  · exact absurd h nofun

instance (d : Delimiter) (p : Parser α) : LeavesEnd (group d p) where
  suffix h := by
    obtain ⟨inner, -, -, htokens, -⟩ := exists_of_group h
    exact htokens ▸ List.suffix_cons _ _

instance (p : Parser String) : LeavesEnd (parens p) :=
  inferInstanceAs (LeavesEnd (between .paren <$> group .paren p))

instance (p : Parser String) : LeavesEnd (brackets p) :=
  inferInstanceAs (LeavesEnd (between .bracket <$> group .bracket p))

instance (p : Parser String) : LeavesEnd (braces p) :=
  inferInstanceAs (LeavesEnd (between .brace <$> group .brace p))

/-! ## Parts that may be missing -/

instance (c : List Token → Bool) (p : Parser String) [LeavesEnd p] : LeavesEnd (optional c p) :=
  inferInstanceAs (LeavesEnd (whenAt c p ""))

instance (s : String) : LeavesEnd (optPunct s) :=
  inferInstanceAs (LeavesEnd (optional _ _))

instance (w : String) : LeavesEnd (optWord w) :=
  inferInstanceAs (LeavesEnd (optional _ _))

instance : LeavesEnd optLifetime :=
  inferInstanceAs (LeavesEnd (optional _ _))

/-! ## Repetition -/

instance (p : Nat → Parser α) [h : ∀ n, LeavesEnd (p n)] : LeavesEnd (stepwise p) where
  suffix {i _ _} := (h (i.tokens.length + 1)).suffix

theorem leavesEnd_repeatFrom (step : Parser (Option α)) [LeavesEnd step] (fuel : Nat) :
    LeavesEnd (repeatFrom step fuel) := by
  induction fuel with
  | zero => exact inferInstanceAs (LeavesEnd fail)
  | succ fuel ih =>
    refine leavesEnd_bind (h := fun a? => ?_)
    cases a? with
    | none => exact inferInstanceAs (LeavesEnd (pure []))
    | some a => exact leavesEnd_bind

instance (step : Parser (Option α)) [LeavesEnd step] : LeavesEnd (repeatWhile step) :=
  have := leavesEnd_repeatFrom step
  inferInstanceAs (LeavesEnd (stepwise (repeatFrom step)))

instance (c : List Token → Bool) (step : Parser α) [LeavesEnd step] : LeavesEnd (many c step) :=
  inferInstanceAs (LeavesEnd (repeatWhile (whenAt c (some <$> step) none)))

theorem leavesEnd_elementsFrom (stop : List Token → Bool) (sep : String)
    (elem : Bool → Parser (Element α)) [∀ first, LeavesEnd (elem first)] (fuel : Nat)
    (first : Bool) : LeavesEnd (elementsFrom stop sep elem fuel first) := by
  induction fuel generalizing first with
  | zero => exact inferInstanceAs (LeavesEnd fail)
  | succ fuel ih =>
    unfold elementsFrom
    infer_instance

instance (stop : List Token → Bool) (sep : String) (elem : Bool → Parser (Element α))
    [∀ first, LeavesEnd (elem first)] : LeavesEnd (elements stop sep elem) :=
  have := leavesEnd_elementsFrom stop sep elem
  inferInstanceAs (LeavesEnd (stepwise fun fuel => elementsFrom stop sep elem fuel true))

instance (stop : List Token → Bool) (sep : String) (elem : Parser α) [LeavesEnd elem] :
    LeavesEnd (separated stop sep elem) := by
  unfold separated
  infer_instance

theorem leavesEnd_joinedFrom (stop : List Token → Bool) (sep : String) (elem : Parser α)
    [LeavesEnd elem] (fuel : Nat) : LeavesEnd (joinedFrom stop sep elem fuel) := by
  induction fuel with
  | zero => exact inferInstanceAs (LeavesEnd fail)
  | succ fuel ih =>
    unfold joinedFrom
    infer_instance

instance (stop : List Token → Bool) (sep : String) (elem : Parser α) [LeavesEnd elem] :
    LeavesEnd (joined stop sep elem) :=
  have := leavesEnd_joinedFrom stop sep elem
  inferInstanceAs (LeavesEnd (stepwise (joinedFrom stop sep elem)))

instance (stop : List Token → Bool) (sep : String) (elem : Parser String) [LeavesEnd elem] :
    LeavesEnd (separatedText stop sep elem) := by
  unfold separatedText
  infer_instance

instance (stop : List Token → Bool) (sep : String) (elem : Parser String) [LeavesEnd elem] :
    LeavesEnd (joinedText stop sep elem) := by
  unfold joinedText
  infer_instance

/-! ## Attributes and blocks -/

instance (g : Grammar) : LeavesEnd (outerAttributes g) := by
  unfold outerAttributes
  infer_instance

instance (g : Grammar) : LeavesEnd (outerText g) := by
  unfold outerText
  infer_instance

instance (g : Grammar) : LeavesEnd (attributedBlock g) := by
  unfold attributedBlock
  infer_instance

instance (g : Grammar) : LeavesEnd (constArgument g) := by
  unfold constArgument
  infer_instance

end Parser

/-- The parsers of a grammar that stand outside of groups in types, patterns and fields leave an
end of what they are given. -/
class Grammar.LeavesEnd (g : Grammar) : Prop where
  type (plus : Bool) : (g.type plus).LeavesEnd
  arg : g.arg.LeavesEnd
  param : g.param.LeavesEnd
  pattern : g.pattern.LeavesEnd
  innerFields : g.innerFields.LeavesEnd

attribute [instance] Grammar.LeavesEnd.type Grammar.LeavesEnd.arg Grammar.LeavesEnd.param
  Grammar.LeavesEnd.pattern Grammar.LeavesEnd.innerFields

namespace Parser

section Grammar

-- Heads of functions and types are long lists of choices.
set_option synthInstance.maxSize 512

variable {g : Grammar} [g.LeavesEnd]

instance (plus : Bool) : LeavesEnd (g.typeText plus) := by
  unfold Grammar.typeText
  infer_instance

instance : LeavesEnd g.patternText := by
  unfold Grammar.patternText
  infer_instance

/-! ## Paths and bounds -/

instance : LeavesEnd (angleArgs g) := by
  unfold angleArgs
  infer_instance

instance (exprStyle : Bool) : LeavesEnd (segment g exprStyle) := by
  unfold segment
  infer_instance

instance (exprStyle stopAtParen : Bool) : LeavesEnd (moreSegments g exprStyle stopAtParen) := by
  unfold moreSegments
  infer_instance

instance (exprStyle : Bool) : LeavesEnd (path g exprStyle) := by
  unfold path
  infer_instance

instance (exprStyle : Bool) : LeavesEnd (qualifiedPath g exprStyle) := by
  unfold qualifiedPath
  infer_instance

instance : LeavesEnd macroArgs := by
  unfold macroArgs
  infer_instance

instance : LeavesEnd (forLifetimes g) := by
  unfold forLifetimes
  infer_instance

instance (plus : Bool) : LeavesEnd (returnType g plus) := by
  unfold returnType
  infer_instance

instance : LeavesEnd lifetimeParam := by
  unfold lifetimeParam
  infer_instance

instance : LeavesEnd (parenArgs g) := by
  unfold parenArgs
  infer_instance

instance : LeavesEnd constMark := by
  unfold constMark
  infer_instance

instance : LeavesEnd (traitPath g) := by
  unfold traitPath
  infer_instance

instance (allowConst : Bool) : LeavesEnd (traitBound g allowConst) := by
  unfold traitBound
  infer_instance

instance : LeavesEnd capturedName := by
  unfold capturedName
  infer_instance

instance : LeavesEnd preciseCapture := by
  unfold preciseCapture
  infer_instance

instance (allowConst : Bool) : LeavesEnd (traitBoundShape g allowConst) := by
  unfold traitBoundShape
  infer_instance

instance (allowCapture allowConst : Bool) : LeavesEnd (bound g allowCapture allowConst) where
  suffix {i after b} h := by
    unfold bound at h
    split at h
    · obtain ⟨r, hr, heq⟩ := Option.map_eq_some_iff.1 h
      obtain ⟨-, rfl⟩ := Prod.mk.inj heq
      exact LeavesEnd.suffix hr
    split at h
    · split at h
      · obtain ⟨r, hr, heq⟩ := Option.map_eq_some_iff.1 h
        obtain ⟨-, rfl⟩ := Prod.mk.inj heq
        exact LeavesEnd.suffix hr
      · exact absurd h nofun
    · obtain ⟨r, hr, heq⟩ := Option.map_eq_some_iff.1 h
      have hafter : r.2 = after := by
        dsimp only at heq
        split at heq <;> exact (Prod.mk.inj heq).2
      exact hafter ▸ LeavesEnd.suffix hr

instance (allowConst : Bool) : LeavesEnd (boundText g allowConst) := by
  unfold boundText
  infer_instance

instance (stop : List Token → Bool) : LeavesEnd (paramBounds g stop) := by
  unfold paramBounds
  infer_instance

/-! ## Generic parameters -/

instance : LeavesEnd (typeParam g) := by
  unfold typeParam
  infer_instance

instance : LeavesEnd (constParam g) := by
  unfold constParam
  infer_instance

instance : LeavesEnd (genericParam g) := by
  unfold genericParam
  infer_instance

instance : LeavesEnd (genericArg g) := by
  unfold genericArg
  refine leavesEnd_bind (h := fun isLifetime => ?_)
  split
  · infer_instance
  refine leavesEnd_bind (h := fun isConst => ?_)
  split
  · infer_instance
  refine leavesEnd_bind (h := fun t => ?_)
  dsimp only
  split <;> infer_instance

instance : LeavesEnd (generics g) := by
  unfold generics
  infer_instance

instance : LeavesEnd (wherePredicate g) := by
  unfold wherePredicate
  infer_instance

instance : LeavesEnd (whereClause? g) := by
  unfold whereClause?
  infer_instance

/-! ## Types -/

instance (allowCapture allowConst : Bool) : LeavesEnd (moreBounds g allowCapture allowConst) := by
  unfold moreBounds
  infer_instance

instance (plus allowCapture allowConst : Bool) :
    LeavesEnd (typeBounds g plus allowCapture allowConst) := by
  unfold typeBounds
  infer_instance

instance : LeavesEnd (boundsAfterPlus g) := by
  unfold boundsAfterPlus
  infer_instance

instance : LeavesEnd stringText := by
  unfold stringText
  infer_instance

instance : LeavesEnd abi := by
  unfold abi
  infer_instance

instance : LeavesEnd optAbi := by
  unfold optAbi
  infer_instance

instance : LeavesEnd (fnType g) := by
  unfold fnType
  infer_instance

instance (first : Tail) : LeavesEnd (parenBounds g first) := by
  unfold parenBounds
  infer_instance

instance (plus : Bool) : LeavesEnd (parenType g plus) := by
  unfold parenType
  refine leavesEnd_bind (h := fun content => ?_)
  split
  case h_4 =>
    refine leavesEnd_bind (h := fun isBound => ?_)
    split <;> infer_instance
  all_goals infer_instance

instance (lifetimes : String) (plus : Bool) : LeavesEnd (pathType g lifetimes plus) := by
  unfold pathType
  infer_instance

instance (plus : Bool) : LeavesEnd (dynType g plus) := by
  unfold dynType
  infer_instance

instance (plus : Bool) : LeavesEnd (implType g plus) := by
  unfold implType
  infer_instance

instance : LeavesEnd (bracketType g) := by
  unfold bracketType
  infer_instance

instance : LeavesEnd (pointerType g) := by
  unfold pointerType
  infer_instance

instance : LeavesEnd (referenceType g) := by
  unfold referenceType
  infer_instance

instance : LeavesEnd builtin := by
  unfold builtin
  infer_instance

instance (plus : Bool) : LeavesEnd (typeOver g plus) := by
  unfold typeOver
  infer_instance

/-! ## Patterns -/

instance (obsolete : Bool) : LeavesEnd (rangeOperator obsolete) := by
  unfold rangeOperator
  infer_instance

instance : LeavesEnd (rangeBound g) := by
  unfold rangeBound
  infer_instance

instance (lower : String) : LeavesEnd (rangeFrom g lower) := by
  unfold rangeFrom
  refine leavesEnd_bind (h := fun operator => leavesEnd_bind (h := fun bound? => ?_))
  cases bound? <;> infer_instance

instance : LeavesEnd (halfOpenRange g) := by
  unfold halfOpenRange
  refine leavesEnd_bind (h := fun operator => leavesEnd_bind (h := fun bound? => ?_))
  cases bound? <;> infer_instance

instance : LeavesEnd (pathPattern g) := by
  unfold pathPattern
  infer_instance

instance : LeavesEnd (literalPattern g) := by
  unfold literalPattern
  refine leavesEnd_bind (h := fun bound? => ?_)
  cases bound? <;> infer_instance

instance : LeavesEnd (namePattern g) := by
  unfold namePattern
  infer_instance

instance : LeavesEnd (patternOver g) := by
  unfold patternOver
  infer_instance

instance : LeavesEnd ( typeAnnotation g) := by
  unfold typeAnnotation
  infer_instance

/-! ## Heads of functions, and fields -/

instance : LeavesEnd visibility := by
  unfold visibility
  infer_instance

instance : LeavesEnd (receiver g) := by
  unfold receiver
  infer_instance

instance : LeavesEnd dots := by
  unfold dots
  infer_instance

instance : LeavesEnd (typedParam g) := by
  unfold typedParam
  infer_instance

instance (first : Bool) : LeavesEnd (fnParam g first) := by
  unfold fnParam
  refine leavesEnd_bind (h := fun attributes => leavesEnd_bind (h := fun atDots => ?_))
  split
  · infer_instance
  refine leavesEnd_bind (h := fun param => ?_)
  cases param <;> infer_instance

instance (allowSafe : Bool) : LeavesEnd (fnQualifiers allowSafe) := by
  unfold fnQualifiers
  infer_instance

instance (unnamed : Bool) : LeavesEnd (fieldType g unnamed) := by
  unfold fieldType
  infer_instance

instance : LeavesEnd (namedField g) := by
  unfold namedField
  infer_instance

instance : LeavesEnd (innerFieldsOver g) := by
  unfold innerFieldsOver namedFields
  infer_instance

end Grammar

end Parser

/-! ## Grammars -/

namespace Grammar

instance : Grammar.none.LeavesEnd where
  type _ := inferInstanceAs (Parser.LeavesEnd .fail)
  arg := inferInstanceAs (Parser.LeavesEnd .fail)
  param := inferInstanceAs (Parser.LeavesEnd .fail)
  pattern := inferInstanceAs (Parser.LeavesEnd .fail)
  innerFields := inferInstanceAs (Parser.LeavesEnd .fail)

instance (g : Grammar) [g.LeavesEnd] : g.deepen.LeavesEnd where
  type plus := inferInstanceAs (Parser.typeOver g plus).LeavesEnd
  arg := inferInstanceAs (Parser.genericArg g).LeavesEnd
  param := inferInstanceAs (Parser.genericParam g).LeavesEnd
  pattern := inferInstanceAs (Parser.patternOver g).LeavesEnd
  innerFields := inferInstanceAs (Parser.innerFieldsOver g).LeavesEnd

/-- What is left is an end of what was there, however deep a text nests. -/
instance leavesEnd_ofDepth (n : Nat) : (ofDepth n).LeavesEnd := by
  induction n with
  | zero => exact inferInstanceAs Grammar.none.LeavesEnd
  | succ n ih => exact inferInstanceAs (ofDepth n).deepen.LeavesEnd

end Grammar

end RpcBindings.Rust
