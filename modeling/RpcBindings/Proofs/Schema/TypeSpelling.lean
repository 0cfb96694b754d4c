import RpcBindings.Proofs.Rust.TypeForm

/-!
The spellings of a schema type.

A schema type can be written in many ways: boxes, references and parentheses around any part of it
say nothing, a sequence is a `Vec`, a slice or an array, and the names may stand behind a path. Main
statement: the text of a schema type is read as that type, and so is every other text that is written
in one of these ways (`SchemaType.ofText?_spellings`).
-/

namespace RpcBindings.SchemaType

open Rust RpcBindings.Rust.Parser

/-! ## Spellings -/

/-- Tokens that are read as an expression, at any depth that is enough for them. -/
def IsLength (length : List Token) : Prop :=
  ∀ depth, depthBound length ≤ depth →
    ∃ text, (Grammar.ofDepth depth).exprText true ⟨length, false⟩ = some (text, ⟨[], false⟩)

/-- A path to a name with one argument between angle brackets. -/
def Applied (n : String) (inner ts : List Token) : Prop :=
  ∃ opening closing,
    PathTo (.ident n :: .punct '<' opening :: (inner ++ [.punct '>' closing])) ts

/-- The tokens of a schema type, in any of the ways to write it. -/
inductive Written : SchemaType → List Token → Prop where
  | scalar {n : String} {ts : List Token} (h : IsTypeName n) (hpath : PathTo [.ident n] ts) :
      Written (.scalar n) ts
  | option {e : SchemaType} {inner ts : List Token} (h : Written e inner)
      (happlied : Applied "Option" inner ts) : Written (.optional e) ts
  | vec {e : SchemaType} {inner ts : List Token} (h : Written e inner)
      (happlied : Applied "Vec" inner ts) : Written (.sequence e) ts
  | box {e : SchemaType} {inner ts : List Token} (h : Written e inner)
      (happlied : Applied "Box" inner ts) : Written e ts
  | reference {e : SchemaType} {inner : List Token} (h : Written e inner) (joint : Bool)
      (lifetime? : Option String) (isMut : Bool) :
      Written e (.punct '&' joint :: (referenceMarks lifetime? isMut ++ inner))
  | paren {e : SchemaType} {inner : List Token} (h : Written e inner) :
      Written e [.group .paren inner]
  | slice {e : SchemaType} {inner : List Token} (h : Written e inner) :
      Written (.sequence e) [.group .bracket inner]
  | array {e : SchemaType} {inner length : List Token} (h : Written e inner) (joint : Bool)
      (hlength : IsLength length) :
      Written (.sequence e) [.group .bracket (inner ++ .punct ';' joint :: length)]

variable {e : SchemaType} {n : String} {ts inner rest : List Token} {depth : Nat}

theorem head_of_pathTo {last : List Token} (h : PathTo last ts)
    (hlast : ∃ t more, last = t :: more ∧ PathHead t) : ∃ t more, ts = t :: more ∧ TypeHead t := by
  cases h with
  | plain h =>
    obtain ⟨t, more, rfl, ht⟩ := h.head hlast
    exact ⟨t, more, rfl, .path ht⟩
  | rooted joint h => exact ⟨_, _, rfl, .colon⟩

theorem Applied.head (h : Applied n inner ts) (hn : isName n = true) :
    ∃ t more, ts = t :: more ∧ TypeHead t := by
  obtain ⟨_, _, hpath⟩ := h
  exact head_of_pathTo hpath ⟨_, _, rfl, .name hn⟩

theorem Written.head (h : Written e ts) : ∃ t more, ts = t :: more ∧ TypeHead t := by
  cases h with
  | scalar h hpath => exact head_of_pathTo hpath ⟨_, _, rfl, .name h.free⟩
  | option _ happlied => exact happlied.head (by decide)
  | vec _ happlied => exact happlied.head (by decide)
  | box _ happlied => exact happlied.head (by decide)
  | reference _ joint _ _ => exact ⟨_, _, rfl, .ampersand joint⟩
  | paren _ => exact ⟨_, _, rfl, .group (by decide) _⟩
  | slice _ => exact ⟨_, _, rfl, .group (by decide) _⟩
  | array _ joint _ => exact ⟨_, _, rfl, .group (by decide) _⟩

/-! ## Reading -/

/-- Tokens that are read to their end as a schema type, at any depth that is enough for them. -/
def Reads (ts : List Token) (e : SchemaType) : Prop :=
  ∀ depth, depthBound ts ≤ depth → ∀ (plus : Bool) (rest : List Token), EndsPath rest →
    ∃ shape, (Grammar.ofDepth depth).type plus ⟨ts ++ rest, false⟩ = some (shape, ⟨rest, false⟩) ∧
      ofRust shape.type = e

theorem endsPath_close (joint : Bool) (ts : List Token) : EndsPath (.punct '>' joint :: ts) :=
  fun _ ht => ⟨'>', joint, (Option.some.inj ht).symm, by decide⟩

theorem endsPath_semicolon (joint : Bool) (ts : List Token) : EndsPath (.punct ';' joint :: ts) :=
  fun _ ht => ⟨';', joint, (Option.some.inj ht).symm, by decide⟩

/-- A depth that is enough for some tokens is one more than one that is enough for those inside. -/
theorem exists_depth (h : depthBound ts ≤ depth) {k : Nat} (hk : k ≤ 8)
    (hweight : weight inner + k ≤ weight ts) :
    ∃ depth', depth = depth' + k ∧ depthBound inner ≤ depth' := by
  unfold depthBound at h ⊢
  exact ⟨depth - k, by omega, by omega⟩

/-- A type is an argument between angle brackets. -/
theorem Reads.arg (h : Reads inner e) (hhead : ∃ t more, inner = t :: more ∧ TypeHead t)
    (hdepth : depthBound inner ≤ depth) (closing : Bool) (rest : List Token) :
    ∃ t, (Grammar.ofDepth (depth + 1)).arg ⟨inner ++ .punct '>' closing :: rest, false⟩ =
      some (.type t, ⟨.punct '>' closing :: rest, false⟩) ∧ ofRust t = e := by
  obtain ⟨shape, htype, rfl⟩ := h depth hdepth true _ (endsPath_close closing rest)
  obtain ⟨t, more, rfl, ht⟩ := hhead
  exact ⟨shape.type, genericArg_type ht htype, rfl⟩

/-- A name with a type as its argument is read as a path with that argument. -/
theorem type_of_applied (happlied : Applied n inner ts) (hn : isName n = true)
    (hhead : ∃ t more, inner = t :: more ∧ TypeHead t) (hreads : Reads inner e)
    (hdepth : depthBound ts ≤ depth) (plus : Bool) (hrest : EndsPath rest) :
    ∃ shape qualifier t, (Grammar.ofDepth depth).type plus ⟨ts ++ rest, false⟩ =
        some (shape, ⟨rest, false⟩) ∧
      shape.type = .path qualifier n (.angle "<" [.type t] false) ∧ ofRust t = e := by
  obtain ⟨opening, closing, hpath⟩ := happlied
  have hweight : weight inner + 2 ≤ weight ts := by
    have := hpath.weight_le
    simp only [weight_ident, weight_punct, weight_append] at this
    omega
  obtain ⟨depth, rfl, hinner⟩ := exists_depth hdepth (by decide) hweight
  obtain ⟨t, harg, rfl⟩ := hreads.arg hhead hinner closing rest
  obtain ⟨first, more, rfl, hfirst⟩ := hhead
  have hsegment := segment_applied hn hfirst harg opening
  obtain ⟨shape, qualifier, htype, hshape⟩ := typeOver_path (a := (n, _)) plus hpath hdepth
    ⟨_, _, rfl, .name hn⟩ rfl (by simpa using hsegment) hrest
  exact ⟨shape, qualifier, t, htype, hshape, rfl⟩

/-- Every way to write a schema type is read as that type. -/
theorem Written.reads (h : Written e ts) : Reads ts e := by
  induction h with
  | @scalar n ts h hpath =>
    intro depth hdepth plus rest hrest
    have hweight : weight [] + 1 ≤ weight ts := hpath.weight_le
    obtain ⟨depth, rfl, -⟩ := exists_depth hdepth (by decide) hweight
    have hhash : skip 1 (atPunct "#") ([.ident n] ++ rest) = false := hrest.atPunct rfl (by decide)
    obtain ⟨shape, qualifier, htype, hshape⟩ := typeOver_path (a := (n, .none)) plus hpath hdepth
      ⟨_, _, rfl, .name h.free⟩ hhash (segment_name _ h.free hrest) hrest
    exact ⟨shape, htype, by rw [hshape, ofRust]⟩
  | option h happlied ih =>
    intro depth hdepth plus rest hrest
    obtain ⟨shape, _, t, htype, hshape, rfl⟩ :=
      type_of_applied happlied (by decide) h.head ih hdepth plus hrest
    exact ⟨shape, htype, by rw [hshape, ofRust]⟩
  | vec h happlied ih =>
    intro depth hdepth plus rest hrest
    obtain ⟨shape, _, t, htype, hshape, rfl⟩ :=
      type_of_applied happlied (by decide) h.head ih hdepth plus hrest
    exact ⟨shape, htype, by rw [hshape, ofRust]⟩
  | box h happlied ih =>
    intro depth hdepth plus rest hrest
    obtain ⟨shape, _, t, htype, hshape, rfl⟩ :=
      type_of_applied happlied (by decide) h.head ih hdepth plus hrest
    exact ⟨shape, htype, by rw [hshape, ofRust]⟩
  | @reference e inner h joint lifetime? isMut ih =>
    intro depth hdepth plus rest hrest
    have hweight : weight inner + 1 ≤
        weight (.punct '&' joint :: (referenceMarks lifetime? isMut ++ inner)) := by
      rw [weight_punct, weight_append]
      omega
    obtain ⟨depth, rfl, hinner⟩ := exists_depth hdepth (by decide) hweight
    obtain ⟨shape, htype, rfl⟩ := ih depth hinner false rest hrest
    obtain ⟨t, more, rfl, ht⟩ := h.head
    obtain ⟨marks, hmarks⟩ := typeOver_reference plus joint lifetime? isMut ht htype
    rw [List.cons_append, List.append_assoc]
    exact ⟨_, hmarks, by rw [ofRust]⟩
  | @paren e inner h ih =>
    intro depth hdepth plus rest hrest
    obtain ⟨depth, rfl, hinner⟩ := exists_depth (k := 1) hdepth (by decide)
      (Nat.le_of_eq (Nat.add_comm (weight inner) 1))
    obtain ⟨shape, htype, rfl⟩ := ih depth hinner true [] nofun
    obtain ⟨t, more, rfl, ht⟩ := h.head
    rw [List.append_nil] at htype
    exact ⟨_, typeOver_paren plus ht hrest htype, by rw [ofRust]⟩
  | @slice e inner h ih =>
    intro depth hdepth plus rest hrest
    obtain ⟨depth, rfl, hinner⟩ := exists_depth (k := 1) hdepth (by decide)
      (Nat.le_of_eq (Nat.add_comm (weight inner) 1))
    obtain ⟨shape, htype, rfl⟩ := ih depth hinner true [] nofun
    rw [List.append_nil] at htype
    exact ⟨_, typeOver_slice plus htype, by rw [ofRust]⟩
  | @array e inner length h joint hlength ih =>
    intro depth hdepth plus rest hrest
    have hweight : weight inner + 1 ≤
          weight [.group .bracket (inner ++ .punct ';' joint :: length)] ∧
        weight length + 1 ≤ weight [.group .bracket (inner ++ .punct ';' joint :: length)] := by
      rw [weight_group, weight_append, weight_punct]
      omega
    obtain ⟨depth, rfl, hinner⟩ := exists_depth hdepth (by decide) hweight.1
    obtain ⟨_, heq, henough⟩ := exists_depth hdepth (by decide) hweight.2
    obtain rfl := Nat.add_right_cancel heq
    obtain ⟨shape, htype, rfl⟩ := ih depth hinner true _ (endsPath_semicolon joint length)
    obtain ⟨text, htext⟩ := hlength depth henough
    exact ⟨_, typeOver_array plus joint htype htext, by rw [ofRust]⟩

/-! ## Lengths and qualifiers -/

/-- An expression that nests three levels at most is a length. -/
theorem isLength_of_expr {length : List Token}
    (h : ∀ g : Grammar, ∃ e, g.deepen.deepen.deepen.expr true ⟨length, false⟩ =
      some (e, ⟨[], false⟩)) : IsLength length := by
  intro depth hdepth
  unfold depthBound at hdepth
  obtain ⟨depth, rfl⟩ := Nat.exists_eq_add_of_le' (show 3 ≤ depth by omega)
  obtain ⟨length', hread⟩ := h (.ofDepth depth)
  refine ⟨length'.text, ?_⟩
  have hexpr : (Grammar.ofDepth (depth + 3)).expr true ⟨length, false⟩ =
      some (length', ⟨[], false⟩) := hread
  unfold Grammar.exprText
  rw [bind_apply, hexpr]
  rfl

theorem isLength_literal {length : List Token} (h : IsLiteral length) : IsLength length := by
  refine isLength_of_expr fun g => ?_
  have hread : ∃ e, g.deepen.deepen.deepen.expr true ⟨length ++ [], false⟩ =
      some (e, ⟨[], false⟩) := expr_literal h endsElement_nil
  rwa [List.append_nil] at hread

theorem isLength_name (h : isName n = true) : IsLength [.ident n] :=
  isLength_of_expr fun g => expr_name (g := g.deepen) h endsElement_nil

/-- A type between angle brackets can be the argument of a segment that is not the last one. -/
theorem Written.isArguments (h : Written e inner) (opening closing : Bool) :
    IsArguments (.punct '<' opening :: (inner ++ [.punct '>' closing])) := by
  intro depth hdepth joint n more
  have hweight : weight inner + 1 ≤ weight (.punct '<' opening :: (inner ++ [.punct '>' closing])) := by
    rw [weight_punct, weight_append]
    omega
  obtain ⟨depth, rfl, hinner⟩ := exists_depth hdepth (by decide) hweight
  obtain ⟨t, harg, -⟩ := h.reads.arg h.head hinner closing
    (.punct ':' true :: .punct ':' joint :: .ident n :: more)
  obtain ⟨first, later, rfl, hfirst⟩ := h.head
  have hargs := angleArgs_type hfirst harg opening
  simp only [List.cons_append, List.append_assoc, List.nil_append]
  exact ⟨hfirst.atAngleArgs_cons opening _, _, hargs⟩

/-! ## Texts -/

/-- A text is read as the schema type that it spells. -/
theorem ofText?_of_written {text : String} (htokens : tokens? text.toList = some ts)
    (h : Written e ts) : ofText? text = some e := by
  obtain ⟨shape, htype, rfl⟩ := h.reads _ (Nat.le_refl _) true [] nofun
  rw [List.append_nil] at htype
  unfold ofText? RustType.ofText? readWhole?
  rw [htokens, Option.bind_some]
  unfold readTokens?
  dsimp only
  rw [htype]
  rfl

/-- All names of the type can name a type of a schema. -/
def HasTypeNames : SchemaType → Prop
  | scalar n => IsTypeName n
  | optional e => e.HasTypeNames
  | sequence e => e.HasTypeNames

open Lexer

theorem toList_applied (n inner : String) : (n ++ "<" ++ inner ++ ">").toList =
    n.toList ++ (['<'] ++ (inner.toList ++ ['>'])) := by
  simp

theorem toList_text_optional (e : SchemaType) : (optional e).text.toList =
    "Option".toList ++ (['<'] ++ (e.text.toList ++ ['>'])) :=
  toList_applied "Option" e.text

theorem toList_text_sequence (e : SchemaType) : (sequence e).text.toList =
    "Vec".toList ++ (['<'] ++ (e.text.toList ++ ['>'])) :=
  toList_applied "Vec" e.text

/-- The text of a type begins with a name. -/
theorem dropMark_text (h : e.HasTypeNames) : dropMark e.text.toList = e.text.toList := by
  cases e with
  | scalar n =>
    have hname := dropMark_name (Go.isName_toList h.identifier) []
    rwa [List.append_nil] at hname
  | optional e =>
    rw [toList_text_optional]
    exact dropMark_name (Go.isName_toList (by decide)) _
  | sequence e =>
    rw [toList_text_sequence]
    exact dropMark_name (Go.isName_toList (by decide)) _

/-- A name with a text in angle brackets is read as an argument of that name. -/
theorem readAs_applied {n inner : String} (hn : Go.isIdentifier n = true) {us : List Token}
    {rest : List Char} (h : ReadAs ('>' :: rest) inner.toList us) :
    ∃ ts, ReadAs rest (n.toList ++ (['<'] ++ (inner.toList ++ ['>']))) ts ∧ Applied n us ts := by
  have hclose := readAs_bracket (.inr rfl) rest
  have hopen := readAs_bracket (.inl rfl) (inner.toList ++ ['>'] ++ rest)
  have hname := readAs_name (Go.isName_toList hn)
    (endsWord_bracket (.inl rfl) (inner.toList ++ ['>'] ++ rest))
  rw [String.ofList_toList] at hname
  have hall := ReadAs.append hname (ReadAs.append hopen (ReadAs.append h hclose))
  exact ⟨_, hall, punctNext (inner.toList ++ ['>'] ++ rest), punctNext rest, .plain .last⟩

/-- The text of a type is one of the ways to write it. -/
theorem exists_written_text (h : e.HasTypeNames) (rest : List Char) (hrest : EndsWord rest) :
    ∃ ts, ReadAs rest e.text.toList ts ∧ Written e ts := by
  induction e generalizing rest with
  | scalar n =>
    refine ⟨_, readAs_name (Go.isName_toList h.identifier) hrest, ?_⟩
    rw [String.ofList_toList]
    exact .scalar h (.plain .last)
  | optional e ih =>
    obtain ⟨us, hread, hwritten⟩ := ih h _ (endsWord_bracket (.inr rfl) rest)
    obtain ⟨ts, hts, happlied⟩ := readAs_applied (n := "Option") (by decide) hread
    rw [toList_text_optional]
    exact ⟨ts, hts, .option hwritten happlied⟩
  | sequence e ih =>
    obtain ⟨us, hread, hwritten⟩ := ih h _ (endsWord_bracket (.inr rfl) rest)
    obtain ⟨ts, hts, happlied⟩ := readAs_applied (n := "Vec") (by decide) hread
    rw [toList_text_sequence]
    exact ⟨ts, hts, .vec hwritten happlied⟩

/-- The text of a type is read as that type. -/
theorem ofText?_text (h : e.HasTypeNames) : ofText? e.text = some e := by
  obtain ⟨ts, hread, hwritten⟩ := exists_written_text h [] ⟨nofun, nofun⟩
  exact ofText?_of_written (tokens?_of_readAs (dropMark_text h) hread) hwritten

/-- A schema type is read back from its text, and from every other text that is a way to write it. -/
theorem ofText?_spellings (e : SchemaType) :
    (e.HasTypeNames → ofText? e.text = some e) ∧
    ∀ (text : String) (ts : List Token), tokens? text.toList = some ts → Written e ts →
      ofText? text = some e :=
  ⟨ofText?_text, fun _ _ => ofText?_of_written⟩

/-- Whether some tokens are `&'a mut Map<u8>::std::Option<Box<[([H256; N]); 2]>>`. -/
def isWrapped : List Token → Bool
  | [.punct '&' _, .lifetime "a", .ident "mut", .ident "Map", .punct '<' _, .ident "u8",
      .punct '>' _, .punct ':' true, .punct ':' _, .ident "std", .punct ':' true, .punct ':' _,
      .ident "Option", .punct '<' _, .ident "Box", .punct '<' _,
      .group .bracket [.group .paren [.group .bracket [.ident "H256", .punct ';' _, .ident "N"]],
        .punct ';' _, .literal (.int 2 false) "2"],
      .punct '>' _, .punct '>' _] => true
  | _ => false

theorem written_of_isWrapped (h : isWrapped ts = true) :
    Written (.optional (.sequence (.sequence (.scalar "H256")))) ts := by
  unfold isWrapped at h
  split at h
  · rename_i outer open₁ close₁ colons₁ colons₂ open₂ open₃ inside outside close₃ close₂
    have hname : Written (.scalar "u8") [.ident "u8"] :=
      .scalar ⟨by decide, by decide⟩ (.plain .last)
    have hscalar : Written (.scalar "H256") [.ident "H256"] :=
      .scalar ⟨by decide, by decide⟩ (.plain .last)
    have hrow := Written.array hscalar inside (isLength_name (n := "N") (by decide))
    have hrows := Written.array (.paren hrow) outside (isLength_literal (.plain (.int 2 false) "2"))
    have hbox := Written.box hrows ⟨open₃, close₃, .plain .last⟩
    have hmap : IsSegment (.ident "Map" :: .punct '<' open₁ :: ([.ident "u8"] ++ [.punct '>' close₁])) :=
      .applied (by decide) (hname.isArguments open₁ close₁)
    have hstd : IsSegment [.ident "std"] := .name (by decide)
    have hoption := Written.option hbox
      ⟨open₂, close₂, .plain (.segment hmap colons₁ (.segment hstd colons₂ .last))⟩
    exact .reference hoption outer (some "a") true
  · exact absurd h Bool.false_ne_true

/-- Boxes, a reference, parentheses, a path and arrays around the same name. -/
theorem ofText?_spellings_wrapped : ∃ ts,
    tokens? "&'a mut Map<u8>::std::Option<Box<[([H256; N]); 2]>>".toList = some ts ∧
    Written (.optional (.sequence (.sequence (.scalar "H256")))) ts ∧
    HasTypeNames (.optional (.sequence (.sequence (.scalar "H256")))) ∧
    ofText? "&'a mut Map<u8>::std::Option<Box<[([H256; N]); 2]>>" =
      ofText? (text (.optional (.sequence (.sequence (.scalar "H256"))))) := by
  have htokens : (tokens? "&'a mut Map<u8>::std::Option<Box<[([H256; N]); 2]>>".toList).any
      isWrapped = true := by
    decide +kernel
  obtain ⟨ts, hts, hwrapped⟩ := (Option.any_eq_true _ _).1 htokens
  have hwritten := written_of_isWrapped hwrapped
  have hnames : HasTypeNames (.optional (.sequence (.sequence (.scalar "H256")))) :=
    ⟨by decide, by decide⟩
  obtain ⟨htext, hspelling⟩ := ofText?_spellings (.optional (.sequence (.sequence (.scalar "H256"))))
  exact ⟨ts, hts, hwritten, hnames, (hspelling _ ts hts hwritten).trans (htext hnames).symm⟩

end RpcBindings.SchemaType
