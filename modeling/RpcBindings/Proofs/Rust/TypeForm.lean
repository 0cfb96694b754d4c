import RpcBindings.Proofs.Rust.LiteralExpr
import RpcBindings.Proofs.Rust.TypePath

/-!
Types made of one other type.

A path with one type as its argument, a reference, parentheses, a slice and an array hold a type and
nothing else that matters. Main statements: where the type inside is read to its end, so is each of
these around it (`Parser.segment_applied`, `Parser.typeOver_reference`, `Parser.typeOver_paren`,
`Parser.typeOver_slice`, `Parser.typeOver_array`).
-/

namespace RpcBindings.Rust

open RpcBindings.Rust.Parser

/-- The first token of a type that is a path, a reference, or stands in parentheses or brackets. -/
inductive TypeHead : Token → Prop where
  | path {t : Token} (h : PathHead t) : TypeHead t
  | colon : TypeHead (.punct ':' true)
  | ampersand (joint : Bool) : TypeHead (.punct '&' joint)
  | group {d : Delimiter} (h : d ≠ .brace) (inner : List Token) : TypeHead (.group d inner)

variable {n : String} {t : Token} {ts inner rest : List Token} {g : Grammar} {shape : TypeShape}

namespace TypeHead

theorem not_atLifetime (h : TypeHead t) (ts : List Token) : atLifetime (t :: ts) = false := by
  cases h with
  | path h =>
    obtain ⟨n, rfl⟩ := h.exists_ident
    rfl
  | colon => rfl
  | ampersand joint => rfl
  | group hd inner => rfl

/-- A reserved word that is none of those of paths does not begin a type. -/
theorem not_atWord (h : TypeHead t) {w : String} (hw : reserved.contains w = true)
    (hpath : w ∉ pathWords) (ts : List Token) : atWord w (t :: ts) = false := by
  cases h with
  | path h =>
    cases h with
    | name h => exact atWord_of_isName h hw
    | word h => exact beq_false_of_ne fun heq => hpath (heq ▸ h)
  | colon => rfl
  | ampersand joint => rfl
  | group hd inner => rfl

theorem not_atConstArgument (h : TypeHead t) (ts : List Token) :
    atConstArgument (t :: ts) = false := by
  have htrue := h.not_atWord (w := "true") (by decide) (by decide) ts
  have hfalse := h.not_atWord (w := "false") (by decide) (by decide) ts
  cases h with
  | path h =>
    obtain ⟨n, rfl⟩ := h.exists_ident
    show (atWord "true" (.ident n :: ts) || atWord "false" (.ident n :: ts) || false) = false
    rw [htrue, hfalse]
    rfl
  | colon => rfl
  | ampersand joint => rfl
  | @group d hd inner =>
    cases d with
    | paren => rfl
    | bracket => rfl
    | brace => exact absurd rfl hd

/-- No other punctuation than that of paths and references begins a type. -/
theorem dropPunct?_eq_none (h : TypeHead t) {c : Char} (hc : c ∉ [':', '&']) (cs : List Char)
    (ts : List Token) : dropPunct? (c :: cs) (t :: ts) = none := by
  have hcolon : ¬c = ':' := fun heq => hc (by rw [heq]; decide)
  have hampersand : ¬c = '&' := fun heq => hc (by rw [heq]; decide)
  cases h with
  | path h =>
    obtain ⟨n, rfl⟩ := h.exists_ident
    cases cs <;> rfl
  | colon => cases cs <;> simp [dropPunct?, hcolon]
  | ampersand joint => cases cs <;> simp [dropPunct?, hampersand]
  | group hd inner => cases cs <;> rfl

theorem not_atPunct (h : TypeHead t) {s : String} {c : Char} {cs : List Char}
    (hs : s.toList = c :: cs) (hc : c ∉ [':', '&']) (ts : List Token) :
    atPunct s (t :: ts) = false := by
  unfold Rust.atPunct
  rw [hs, h.dropPunct?_eq_none hc]
  rfl

/-- An angle bracket before a type opens arguments. -/
theorem atAngleArgs_cons (h : TypeHead t) (joint : Bool) (ts : List Token) :
    atAngleArgs false (.punct '<' joint :: t :: ts) = true := by
  have hequals := h.dropPunct?_eq_none (c := '=') (by decide) [] ts
  have hangle := h.dropPunct?_eq_none (c := '<') (by decide) ['='] ts
  have hfirst : atPunct "<=" (.punct '<' joint :: t :: ts) = false := by
    show (if _ then dropPunct? ['='] (t :: ts) else none).isSome = false
    rw [hequals, ite_self]
    rfl
  have hsecond : atPunct "<<=" (.punct '<' joint :: t :: ts) = false := by
    show (if _ then dropPunct? ['<', '='] (t :: ts) else none).isSome = false
    rw [hangle, ite_self]
    rfl
  unfold atAngleArgs
  rw [hfirst, hsecond]
  rfl

end TypeHead

namespace Parser

/-! ## One argument -/

/-- A type between angle brackets is an argument. -/
theorem genericArg_type (ht : TypeHead t) {closing : Bool}
    (htype : g.type true ⟨t :: ts, false⟩ = some (shape, ⟨.punct '>' closing :: rest, false⟩)) :
    genericArg g ⟨t :: ts, false⟩ = some (.type shape.type, ⟨.punct '>' closing :: rest, false⟩) := by
  have hlifetime : (atLifetime (t :: ts) && !skip 1 (atPunct "+") (t :: ts)) = false := by
    rw [ht.not_atLifetime, Bool.false_and]
  unfold genericArg
  rw [test_bind_of_false hlifetime, test_bind_of_false (ht.not_atConstArgument ts), bind_apply, htype,
    Option.bind_some]
  dsimp only
  cases plainSegment? shape.type <;> rfl

/-- One type between angle brackets is read up to the closing one. -/
theorem angleArgs_type (ht : TypeHead t) {closing : Bool} {a : GenericArg}
    (harg : g.arg ⟨t :: ts ++ .punct '>' closing :: rest, false⟩ =
      some (a, ⟨.punct '>' closing :: rest, false⟩)) (opening : Bool) :
    angleArgs g ⟨.punct '<' opening :: (t :: ts ++ .punct '>' closing :: rest), false⟩ =
      some (.angle "<" [a] false, ⟨rest, false⟩) := by
  have hitems : separated (atPunct ">") "," g.arg ⟨t :: ts ++ .punct '>' closing :: rest, false⟩ =
      some ([(a, false)], ⟨.punct '>' closing :: rest, false⟩) := by
    show elementsFrom (atPunct ">") "," (fun _ => do return (← g.arg, false))
      ((t :: ts ++ .punct '>' closing :: rest).length + 1) true _ = _
    rw [elementsFrom, test_bind_of_false (ht.not_atPunct (c := '>') rfl (by decide) _), bind_apply,
      bind_apply, harg]
    rfl
  unfold angleArgs
  rw [bind_apply, optPunct_of_not (by rfl), Option.bind_some, bind_apply]
  show (separated (atPunct ">") "," g.arg >>= _)
    (⟨t :: ts ++ .punct '>' closing :: rest, false⟩ : Input) = _
  rw [bind_apply, hitems]
  rfl

/-- A segment with one type as its argument is read to its end. -/
theorem segment_applied (h : isName n = true) (ht : TypeHead t) {closing : Bool} {a : GenericArg}
    (harg : g.arg ⟨t :: ts ++ .punct '>' closing :: rest, false⟩ =
      some (a, ⟨.punct '>' closing :: rest, false⟩)) (opening : Bool) :
    segment g false
        ⟨.ident n :: .punct '<' opening :: (t :: ts ++ .punct '>' closing :: rest), false⟩ =
      some ((n, .angle "<" [a] false), ⟨rest, false⟩) := by
  rw [segment_ident g false h, whenAt_of_true (ht.atAngleArgs_cons opening _),
    angleArgs_type ht harg]
  rfl

/-! ## References, parentheses and brackets -/

theorem typeOver_ampersand (plus joint : Bool) : typeOver g plus ⟨.punct '&' joint :: ts, false⟩ =
    referenceType g ⟨.punct '&' joint :: ts, false⟩ := rfl

theorem typeOver_parens (plus : Bool) : typeOver g plus ⟨.group .paren ts :: rest, false⟩ =
    parenType g plus ⟨.group .paren ts :: rest, false⟩ := rfl

theorem typeOver_brackets (plus : Bool) : typeOver g plus ⟨.group .bracket ts :: rest, false⟩ =
    bracketType g ⟨.group .bracket ts :: rest, false⟩ := rfl

/-- What may stand between the sign of a reference and its type. -/
def referenceMarks (lifetime? : Option String) (isMut : Bool) : List Token :=
  lifetime?.toList.map .lifetime ++ if isMut then [.ident "mut"] else []

/-- A type behind the marks of a reference. -/
theorem typeOver_reference (plus joint : Bool) (lifetime? : Option String) (isMut : Bool)
    (ht : TypeHead t)
    (htype : g.type false ⟨t :: ts, false⟩ = some (shape, ⟨rest, false⟩)) :
    ∃ marks, typeOver g plus
        ⟨.punct '&' joint :: (referenceMarks lifetime? isMut ++ t :: ts), false⟩ =
      some ({ type := .reference marks shape.type, endsInBrace := shape.endsInBrace },
        ⟨rest, false⟩) := by
  have hmut : ∃ text, optWord "mut" ⟨(if isMut then [.ident "mut"] else []) ++ t :: ts, false⟩ =
      some (text, ⟨t :: ts, false⟩) := by
    cases isMut with
    | true => exact ⟨_, rfl⟩
    | false => exact ⟨_, whenAt_of_false (ht.not_atWord (by decide) (by decide) ts)⟩
  have hlifetime : ∃ text, optLifetime ⟨referenceMarks lifetime? isMut ++ t :: ts, false⟩ =
      some (text, ⟨(if isMut then [.ident "mut"] else []) ++ t :: ts, false⟩) := by
    cases lifetime? with
    | some n => exact ⟨_, rfl⟩
    | none =>
      have hnone : atLifetime ((if isMut then [.ident "mut"] else []) ++ t :: ts) = false := by
        cases isMut with
        | true => rfl
        | false => exact ht.not_atLifetime ts
      exact ⟨_, whenAt_of_false hnone⟩
  obtain ⟨word, hmut⟩ := hmut
  obtain ⟨name, hlifetime⟩ := hlifetime
  have hsign : punct "&" ⟨.punct '&' joint :: (referenceMarks lifetime? isMut ++ t :: ts), false⟩ =
      some ("&", ⟨referenceMarks lifetime? isMut ++ t :: ts, false⟩) := rfl
  have hmarks := cat_cons hsign (cat_cons hlifetime (cat_cons hmut (cat_nil _)))
  refine ⟨"&" ++ (name ++ (word ++ "")), ?_⟩
  rw [typeOver_ampersand]
  unfold referenceType
  rw [bind_apply, hmarks, Option.bind_some, bind_apply, htype]
  rfl

/-- A type in parentheses. -/
theorem typeOver_paren (plus : Bool) (ht : TypeHead t) (hrest : EndsPath rest)
    (htype : g.type true ⟨t :: ts, false⟩ = some (shape, ⟨[], false⟩)) :
    typeOver g plus ⟨.group .paren (t :: ts) :: rest, false⟩ =
      some ({ type := .paren shape.type }, ⟨rest, false⟩) := by
  have hcontent : parenContent g ⟨t :: ts, false⟩ = some (.type shape, ⟨[], false⟩) := by
    unfold parenContent
    rw [test_bind_of_false (by rfl), test_bind_of_false (ht.not_atLifetime ts),
      test_bind_of_false (ht.not_atPunct (c := '?') rfl (by decide) ts), bind_apply, htype]
    rfl
  have hgroup : group .paren (parenContent g) ⟨.group .paren (t :: ts) :: rest, false⟩ =
      some (.type shape, ⟨rest, false⟩) := by
    unfold group
    dsimp only
    rw [if_pos rfl, hcontent]
    rfl
  have hplus : (plus && atPunct "+" rest) = false := by
    rw [hrest.atPunct rfl (by decide), Bool.and_false]
  rw [typeOver_parens]
  unfold parenType
  rw [bind_apply, hgroup, Option.bind_some]
  dsimp only
  rw [bind_apply, test_apply, hplus, Option.bind_some]
  cases shape.bound? <;> rfl

/-- A type in brackets. -/
theorem typeOver_slice (plus : Bool)
    (htype : g.type true ⟨ts, false⟩ = some (shape, ⟨[], false⟩)) :
    typeOver g plus ⟨.group .bracket ts :: rest, false⟩ =
      some ({ type := .slice shape.type }, ⟨rest, false⟩) := by
  rw [typeOver_brackets]
  unfold bracketType group
  dsimp only
  rw [if_pos rfl, bind_apply, htype]
  rfl

/-- A type in brackets with a length. -/
theorem typeOver_array (plus joint : Bool) {length : List Token} {text : String}
    (htype : g.type true ⟨ts ++ .punct ';' joint :: length, false⟩ =
      some (shape, ⟨.punct ';' joint :: length, false⟩))
    (hlength : g.exprText true ⟨length, false⟩ = some (text, ⟨[], false⟩)) :
    typeOver g plus ⟨.group .bracket (ts ++ .punct ';' joint :: length) :: rest, false⟩ =
      some ({ type := .array shape.type text }, ⟨rest, false⟩) := by
  have hsemicolon : punct ";" ⟨.punct ';' joint :: length, false⟩ = some (";", ⟨length, false⟩) := rfl
  rw [typeOver_brackets]
  unfold bracketType group
  dsimp only
  rw [if_pos rfl, bind_apply, htype, Option.bind_some, test_bind_of_true (by rfl), bind_apply,
    hsemicolon, Option.bind_some, bind_apply, hlength]
  rfl

end Parser

end RpcBindings.Rust
