import RpcBindings.Proofs.Rust.Name
import RpcBindings.Schema.Reading

/-!
Names in Rust types.

A name that is not reserved is a segment of a path. Main statements: such a segment is read with the
arguments behind it (`segment_ident`), and where a type may end without any (`segment_name`).
-/

namespace RpcBindings.Rust

/-! ## Parsers -/

namespace Parser

section Apply

variable {α β : Type} (i : Input)

theorem bind_apply (p : Parser α) (f : α → Parser β) :
    (p >>= f) i = (p i).bind fun r => f r.1 r.2 := rfl

theorem pure_apply (a : α) : (pure a : Parser α) i = some (a, i) := rfl

theorem test_apply (p : List Token → Bool) : test p i = some (p i.tokens, i) := rfl

theorem get_apply : (get : Parser Input) i = some (i, i) := rfl

theorem whenAt_apply (p : List Token → Bool) (yes : Parser α) (no : α) :
    whenAt p yes no i = if p i.tokens then yes i else some (no, i) := rfl

theorem whenAt_of_true {p : List Token → Bool} {yes : Parser α} {no : α} {i : Input}
    (h : p i.tokens = true) : whenAt p yes no i = yes i := by
  rw [whenAt_apply, h, if_pos rfl]

theorem whenAt_of_false {p : List Token → Bool} {yes : Parser α} {no : α} {i : Input}
    (h : p i.tokens = false) : whenAt p yes no i = some (no, i) := by
  rw [whenAt_apply, h, if_neg Bool.false_ne_true]

theorem cat_nil : cat [] i = some ("", i) := rfl

/-- The texts of parsers one after another are joined. -/
theorem cat_cons {p : Parser String} {ps : List (Parser String)} {i j k : Input} {s t : String}
    (hp : p i = some (s, j)) (hps : cat ps j = some (t, k)) : cat (p :: ps) i = some (s ++ t, k) := by
  rw [cat, bind_apply, hp, Option.bind_some, bind_apply, hps]
  rfl

/-- A branch that is not taken. -/
theorem test_bind_of_false {p : List Token → Bool} {yes no : Parser α} {i : Input}
    (h : p i.tokens = false) : (test p >>= fun b => if b then yes else no) i = no i := by
  rw [bind_apply, test_apply, Option.bind_some, h, if_neg Bool.false_ne_true]

/-- A branch that is taken. -/
theorem test_bind_of_true {p : List Token → Bool} {yes no : Parser α} {i : Input}
    (h : p i.tokens = true) : (test p >>= fun b => if b then yes else no) i = yes i := by
  rw [bind_apply, test_apply, Option.bind_some, h, if_pos rfl]

end Apply

end Parser

open RpcBindings.Rust.Parser

/-- Tokens before which a type ends that is a path without arguments. -/
def EndsPath (ts : List Token) : Prop :=
  ∀ t ∈ ts.head?, ∃ c joint, t = .punct c joint ∧ c ∉ [':', '<', '!', '+', '#', '=']

variable {n : String} {ts rest : List Token}

theorem atWord_of_isName {w : String} (h : isName n = true) (hw : reserved.contains w = true) :
    atWord w (.ident n :: ts) = false := by
  refine beq_eq_false_iff_ne.2 ?_
  rintro rfl
  unfold isName at h
  rw [hw] at h
  exact Bool.false_ne_true h

theorem atWords_of_isName {ws : List String} (h : isName n = true)
    (hws : ∀ w ∈ ws, reserved.contains w = true) : atWords ws (.ident n :: ts) = false :=
  List.any_eq_false.2 fun w hw => by rw [atWord_of_isName h (hws w hw)]; exact Bool.false_ne_true

/-- A word is no punctuation. -/
theorem atPunct_ident {s : String} {c : Char} {cs : List Char} (hs : s.toList = c :: cs) :
    atPunct s (.ident n :: ts) = false := by
  unfold Rust.atPunct
  rw [hs]
  cases cs <;> rfl

theorem optPunct_of_not {s : String} {i : Input} (h : atPunct s i.tokens = false) :
    optPunct s i = some ("", i) := by
  unfold optPunct Parser.optional
  rw [whenAt_apply, h]
  rfl

theorem EndsPath.atPunct {s : String} {c : Char} {cs : List Char} (h : EndsPath ts)
    (hs : s.toList = c :: cs) (hc : c ∈ [':', '<', '!', '+', '#', '=']) :
    atPunct s ts = false := by
  unfold Rust.atPunct
  rw [hs]
  cases ts with
  | nil => cases cs <;> rfl
  | cons t ts =>
    obtain ⟨d, joint, rfl, hd⟩ := h t rfl
    have hne : c ≠ d := by
      rintro rfl
      exact hd hc
    cases cs with
    | nil => rw [dropPunct?, if_neg hne]; rfl
    | cons c' cs => rw [dropPunct?, decide_eq_false hne]; rfl

/-- A segment is a name and what stands between angle brackets behind it. -/
theorem segment_ident (g : Grammar) (exprStyle : Bool) (h : isName n = true) :
    segment g exprStyle ⟨.ident n :: ts, false⟩ =
      (whenAt (atAngleArgs exprStyle) (angleArgs g) .none ⟨ts, false⟩).map
        fun r => ((n, r.1), r.2) := by
  have hword : atWords ["super", "self", "crate", "try"] (.ident n :: ts) = false :=
    atWords_of_isName h (by decide)
  have hself : atWord "Self" (.ident n :: ts) = false := atWord_of_isName h (by decide)
  have hname : name ⟨.ident n :: ts, false⟩ = some (n, ⟨ts, false⟩) := by
    simp only [Parser.name, ofTokens, h, if_true, Option.map_some]
  unfold Parser.segment
  rw [test_bind_of_false hword, test_bind_of_false hself, bind_apply, hname, Option.bind_some]
  dsimp only
  rw [bind_apply]
  cases whenAt (atAngleArgs exprStyle) (angleArgs g) .none ⟨ts, false⟩ <;> rfl

/-- A segment without arguments. -/
theorem segment_name (g : Grammar) (h : isName n = true) (hrest : EndsPath rest) :
    segment g false ⟨.ident n :: rest, false⟩ = some ((n, .none), ⟨rest, false⟩) := by
  have hargs : atAngleArgs false rest = false := by
    unfold atAngleArgs
    rw [hrest.atPunct (s := "<") rfl (by decide), hrest.atPunct (s := "::") rfl (by decide)]
    rfl
  rw [segment_ident g false h, whenAt_of_false hargs]
  rfl

/-- A text that can name a type of a schema: an ASCII identifier that is not reserved. -/
structure IsTypeName (text : String) : Prop where
  identifier : Go.isIdentifier text = true
  free : isName text = true

end RpcBindings.Rust
