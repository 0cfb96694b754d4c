import RpcBindings.Proofs.Rust.Remainder

/-!
Names that stand among tokens.

A parser makes no names up: each one that it gives has been a token of its input, perhaps within a
group. Main statements: this holds of the names of a trait's method and of its parameters
(`nameIn_traitMember`) and of the names of a struct's fields (`nameIn_structItem`).
-/

namespace RpcBindings.Rust

/-- The name stands among the tokens, perhaps within groups. -/
inductive NameIn (n : String) : List Token → Prop
  | head (ts : List Token) : NameIn n (.ident n :: ts)
  | inner {d : Delimiter} {inner : List Token} (h : NameIn n inner) (ts : List Token) :
      NameIn n (.group d inner :: ts)
  | tail (t : Token) {ts : List Token} (h : NameIn n ts) : NameIn n (t :: ts)

variable {n : String} {ts ts' : List Token}

theorem NameIn.of_suffix (h : NameIn n ts) (hs : ts <:+ ts') : NameIn n ts' := by
  obtain ⟨front, rfl⟩ := hs
  induction front with
  | nil => exact h
  | cons t front ih => exact .tail t ih

theorem NameIn.append (h : NameIn n ts) (ts' : List Token) : NameIn n (ts ++ ts') := by
  induction h with
  | head ts => exact .head _
  | inner h ts => exact .inner h _
  | tail t _ ih => exact .tail t ih

theorem nameIn_append : NameIn n (ts ++ ts') ↔ NameIn n ts ∨ NameIn n ts' := by
  refine ⟨fun h => ?_, fun h => h.elim (·.append ts') (·.of_suffix (List.suffix_append _ _))⟩
  induction ts with
  | nil => exact .inr h
  | cons t ts ih =>
    cases h with
    | head => exact .inl (.head ts)
    | inner h => exact .inl (.inner h ts)
    | tail _ h => exact (ih h).imp_left (.tail t)

/-- A name within one token. -/
theorem nameIn_singleton {t : Token} (h : NameIn n [t]) :
    t = .ident n ∨ ∃ d inner, t = .group d inner ∧ NameIn n inner := by
  cases h with
  | head => exact .inl rfl
  | inner h => exact .inr ⟨_, _, rfl, h⟩
  | tail _ h => exact absurd h nofun

namespace Parser

variable {α β : Type} {p : Parser α} {i after : Input} {a : α}

/-- What a parser leaves holds no other names than what it was given. -/
theorem nameIn_of_after [hp : LeavesEnd p] (h : p i = some (a, after))
    (hn : NameIn n after.tokens) : NameIn n i.tokens :=
  hn.of_suffix (hp.suffix h)

theorem nameIn_ident (h : ident i = some (n, after)) : NameIn n i.tokens :=
  eq_cons_of_ident h ▸ .head _

theorem nameIn_name (h : name i = some (n, after)) : NameIn n i.tokens :=
  (eq_cons_of_name h).1 ▸ .head _

/-! ## Elements of lists -/

variable {stop : List Token → Bool} {sep : String}

theorem exists_of_mem_elementsFrom {elem : Bool → Parser (Element α)}
    [∀ first, LeavesEnd (elem first)] {fuel : Nat} {first : Bool} {items : List (α × Bool)}
    (h : elementsFrom stop sep elem fuel first i = some (items, after)) {item : α × Bool}
    (hitem : item ∈ items) :
    ∃ first isLast j k, j.tokens <:+ i.tokens ∧ elem first j = some ((item.1, isLast), k) := by
  induction fuel generalizing i after first items with
  | zero => exact absurd h nofun
  | succ fuel ih =>
    unfold elementsFrom at h
    obtain ⟨atStop, i₁, h₁, h⟩ := exists_of_bind h
    obtain ⟨-, rfl⟩ := Prod.mk.inj (Option.some.inj h₁)
    split at h
    · obtain ⟨rfl, -⟩ := eq_of_pure h
      exact absurd hitem List.not_mem_nil
    obtain ⟨⟨b, isLast⟩, i₂, h₂, h⟩ := exists_of_bind h
    obtain ⟨atEnd, i₃, h₃, h⟩ := exists_of_bind h
    obtain ⟨-, rfl⟩ := Prod.mk.inj (Option.some.inj h₃)
    split at h
    · obtain ⟨rfl, -⟩ := eq_of_pure h
      obtain rfl := List.mem_singleton.1 hitem
      exact ⟨_, _, _, _, List.suffix_rfl, h₂⟩
    obtain ⟨_, i₄, h₄, h⟩ := exists_of_bind h
    obtain ⟨later, i₅, h₅, h⟩ := exists_of_bind h
    obtain ⟨rfl, -⟩ := eq_of_pure h
    rcases List.mem_cons.1 hitem with rfl | hitem
    · exact ⟨_, _, _, _, List.suffix_rfl, h₂⟩
    · obtain ⟨first', isLast', j, k, hj, hk⟩ := ih h₅ hitem
      exact ⟨first', isLast', j, k,
        (hj.trans (LeavesEnd.suffix h₄)).trans (LeavesEnd.suffix h₂), hk⟩

/-- Each element of a list has been read from an end of the list's tokens. -/
theorem exists_of_mem_elements {elem : Bool → Parser (Element α)}
    [∀ first, LeavesEnd (elem first)] {items : List (α × Bool)}
    (h : elements stop sep elem i = some (items, after)) {item : α × Bool}
    (hitem : item ∈ items) :
    ∃ first isLast j k, j.tokens <:+ i.tokens ∧ elem first j = some ((item.1, isLast), k) :=
  exists_of_mem_elementsFrom h hitem

theorem exists_of_mem_separated {elem : Parser α} [LeavesEnd elem] {items : List (α × Bool)}
    (h : separated stop sep elem i = some (items, after)) {item : α × Bool}
    (hitem : item ∈ items) :
    ∃ j k, j.tokens <:+ i.tokens ∧ elem j = some (item.1, k) := by
  obtain ⟨-, isLast, j, k, hj, hk⟩ := exists_of_mem_elements h hitem
  obtain ⟨b, l, hb, hk⟩ := exists_of_bind hk
  obtain ⟨heq, rfl⟩ := eq_of_pure hk
  exact ⟨j, l, hj, by rw [hb, (Prod.mk.inj heq).1]⟩

/-! ## Patterns -/

/-- When the pattern that the parser gives is one name, that name has been read. -/
class ReadsName (p : Parser PatternShape) : Prop where
  nameIn {i after : Input} {q : PatternShape} {n : String} (h : p i = some (q, after))
    (hn : q.form = .name n) : NameIn n i.tokens

section ReadsName

variable {r : Parser PatternShape} {g : Grammar}

theorem readsName_pure {q : PatternShape} (hq : ∀ n, q.form ≠ .name n) : ReadsName (pure q) where
  nameIn h hn := by
    obtain ⟨rfl, -⟩ := eq_of_pure h
    exact absurd hn (hq _)

instance (t : String) : ReadsName (pure ⟨t, .other⟩) :=
  readsName_pure nofun

instance (t : String) : ReadsName (pure ⟨t, .range⟩) :=
  readsName_pure nofun

instance (t : String) : ReadsName (pure ⟨t, .openRange⟩) :=
  readsName_pure nofun

instance (t : String) : ReadsName (pure ⟨t, .rest⟩) :=
  readsName_pure nofun

instance (t : String) : ReadsName (pure ⟨t, .verbatim⟩) :=
  readsName_pure nofun

instance : ReadsName fail :=
  ⟨nofun⟩

instance readsName_bind {f : α → Parser PatternShape} [LeavesEnd p] [h : ∀ a, ReadsName (f a)] :
    ReadsName (p >>= f) where
  nameIn hread hn := by
    obtain ⟨a, mid, ha, hq⟩ := exists_of_bind hread
    exact nameIn_of_after ha ((h a).nameIn hq hn)

instance {c : Prop} [Decidable c] {r' : Parser PatternShape} [ReadsName r] [ReadsName r'] :
    ReadsName (if c then r else r') := by
  split <;> assumption

instance (c : List Token → Bool) {r' : Parser PatternShape} [ReadsName r] [ReadsName r'] :
    ReadsName (test c >>= fun b => if b = true then r else r') :=
  readsName_bind

variable [g.LeavesEnd]

instance (lower : String) : ReadsName (rangeFrom g lower) := by
  unfold rangeFrom
  refine readsName_bind (h := fun operator => readsName_bind (h := fun bound? => ?_))
  cases bound? <;> infer_instance

instance : ReadsName (halfOpenRange g) := by
  unfold halfOpenRange
  refine readsName_bind (h := fun operator => readsName_bind (h := fun bound? => ?_))
  cases bound? <;> infer_instance

instance : ReadsName (literalPattern g) := by
  unfold literalPattern
  refine readsName_bind (h := fun bound? => ?_)
  cases bound? <;> infer_instance

instance : ReadsName (pathPattern g) := by
  unfold pathPattern
  infer_instance

instance : ReadsName (namePattern g) where
  nameIn {i after q n} h hn := by
    obtain ⟨marks, i₁, h₁, h⟩ := exists_of_bind h
    obtain ⟨isSelf, i₂, h₂, h⟩ := exists_of_bind h
    refine nameIn_of_after h₁ (nameIn_of_after h₂ ?_)
    split at h
    all_goals
      obtain ⟨m, i₃, h₃, h⟩ := exists_of_bind h
      obtain ⟨sub, i₄, h₄, h⟩ := exists_of_bind h
      obtain ⟨rfl, -⟩ := eq_of_pure h
      obtain rfl := PatternForm.name.inj hn
    · exact nameIn_ident h₃
    · exact nameIn_name h₃

set_option synthInstance.maxSize 512 in
instance : ReadsName (patternOver g) := by
  unfold patternOver
  infer_instance

instance (depth : Nat) : ReadsName (Grammar.ofDepth depth).pattern := by
  cases depth with
  | zero => exact inferInstanceAs (ReadsName fail)
  | succ depth => exact inferInstanceAs (ReadsName (patternOver (.ofDepth depth)))

end ReadsName

/-! ## Parameters and heads of functions -/

section Function

variable {g : Grammar}

theorem param_receiver {param : ParamShape} (h : receiver g i = some (param, after)) :
    ∃ byReference mutable, param.param = .receiver byReference mutable := by
  obtain ⟨reference, i₁, -, h⟩ := exists_of_bind h
  dsimp only at h
  split at h
  all_goals
    obtain ⟨lifetime, i₂, -, h⟩ := exists_of_bind h
    obtain ⟨mutability, i₃, -, h⟩ := exists_of_bind h
    obtain ⟨self, i₄, -, h⟩ := exists_of_bind h
    obtain ⟨written, i₅, -, h⟩ := exists_of_bind h
    obtain ⟨rfl, -⟩ := eq_of_pure h
    exact ⟨_, _, rfl⟩

section Params

variable [ReadsName g.pattern]

theorem nameIn_typedParam {param : ParamShape} {t : RustType}
    (h : typedParam g i = some (.inl param, after)) (hn : param.param = .typed (.name n) t) :
    NameIn n i.tokens := by
  obtain ⟨isGeneric, i₁, h₁, h⟩ := exists_of_bind h
  refine nameIn_of_after h₁ ?_
  split at h
  · obtain ⟨u, i₂, -, h⟩ := exists_of_bind h
    obtain ⟨heq, -⟩ := eq_of_pure h
    obtain rfl := Sum.inl.inj heq
    exact absurd (FnParam.typed.inj hn).1 nofun
  obtain ⟨q, i₂, h₂, h⟩ := exists_of_bind h
  obtain ⟨colon, i₃, -, h⟩ := exists_of_bind h
  obtain ⟨atDots, i₄, -, h⟩ := exists_of_bind h
  split at h
  · obtain ⟨d, i₅, -, h⟩ := exists_of_bind h
    exact absurd (eq_of_pure h).1 nofun
  obtain ⟨u, i₅, -, h⟩ := exists_of_bind h
  obtain ⟨heq, -⟩ := eq_of_pure h
  obtain rfl := Sum.inl.inj heq
  exact ReadsName.nameIn h₂ (FnParam.typed.inj hn).1

theorem nameIn_fnParam {first isLast : Bool} {text : String} {t : RustType}
    (h : fnParam g first i = some (((some (.typed (.name n) t), text), isLast), after)) :
    NameIn n i.tokens := by
  obtain ⟨attributes, i₁, h₁, h⟩ := exists_of_bind h
  obtain ⟨atDots, i₂, h₂, h⟩ := exists_of_bind h
  refine nameIn_of_after h₁ (nameIn_of_after h₂ ?_)
  split at h
  · obtain ⟨d, i₃, -, h⟩ := exists_of_bind h
    cases (eq_of_pure h).1
  obtain ⟨param, i₃, h₃, h⟩ := exists_of_bind h
  cases param with
  | inr text => cases (eq_of_pure h).1
  | inl param =>
    dsimp only at h
    split at h
    · cases h
    have hparam : param.param = .typed (.name n) t :=
      Option.some.inj (Prod.mk.inj (Prod.mk.inj (eq_of_pure h).1).1).1
    unfold orElse at h₃
    split at h₃
    · rename_i r hr
      obtain rfl := Option.some.inj h₃
      obtain ⟨param', hreceiver, heq⟩ := exists_of_map hr
      obtain rfl := Sum.inl.inj heq
      obtain ⟨byReference, mutable, hself⟩ := param_receiver hreceiver
      cases hself.symm.trans hparam
    · exact nameIn_typedParam h₃ hparam

variable [g.LeavesEnd]

theorem nameIn_fnParams {params : List FnParam} {text : String} {t : RustType}
    (h : fnParams g i = some ((params, text), after)) (hn : .typed (.name n) t ∈ params) :
    NameIn n i.tokens := by
  obtain ⟨items, i₁, h₁, h⟩ := exists_of_bind h
  obtain ⟨rfl, -⟩ := Prod.mk.inj (eq_of_pure h).1
  obtain ⟨⟨⟨param?, paramText⟩, comma⟩, hitem, rfl⟩ := List.mem_filterMap.1 hn
  obtain ⟨first, isLast, j, k, hj, hk⟩ := exists_of_mem_elements h₁ hitem
  exact (nameIn_fnParam hk).of_suffix hj

/-- The names of a function and of its parameters have been read. -/
theorem nameIn_signature {allowSafe : Bool} {s : SignatureShape}
    (h : signature g allowSafe i = some (s, after)) :
    NameIn s.signature.name i.tokens ∧
      ∀ n t, .typed (.name n) t ∈ s.signature.params → NameIn n i.tokens := by
  obtain ⟨⟨isSafe, qualifiers⟩, i₁, h₁, h⟩ := exists_of_bind h
  obtain ⟨w, i₂, h₂, h⟩ := exists_of_bind h
  obtain ⟨m, i₃, h₃, h⟩ := exists_of_bind h
  obtain ⟨params, i₄, h₄, h⟩ := exists_of_bind h
  obtain ⟨⟨inputs, inputsText⟩, i₅, h₅, h⟩ := exists_of_bind h
  obtain ⟨output, i₆, -, h⟩ := exists_of_bind h
  obtain ⟨conditions, i₇, -, h⟩ := exists_of_bind h
  obtain ⟨rfl, -⟩ := eq_of_pure h
  refine ⟨nameIn_of_after h₁ (nameIn_of_after h₂ (nameIn_name h₃)), fun n t hn => ?_⟩
  obtain ⟨inner, stray, rest, htokens, hinner⟩ := exists_of_group h₅
  have hgroup : NameIn n i₄.tokens := htokens ▸ .inner (nameIn_fnParams hinner hn) _
  exact nameIn_of_after h₁ (nameIn_of_after h₂ (nameIn_of_after h₃ (nameIn_of_after h₄ hgroup)))

theorem nameIn_traitMethod {attributes : List MetaItem} {m : TraitMethod} {text : String}
    (h : traitMethod g attributes i = some ((m, text), after)) :
    NameIn m.signature.name i.tokens ∧
      ∀ n t, .typed (.name n) t ∈ m.signature.params → NameIn n i.tokens := by
  obtain ⟨s, i₁, h₁, h⟩ := exists_of_bind h
  obtain ⟨hasBody, i₂, -, h⟩ := exists_of_bind h
  have hsignature : m.signature = s.signature := by
    split at h
    all_goals
      obtain ⟨rest, i₃, -, h⟩ := exists_of_bind h
      obtain ⟨heq, -⟩ := eq_of_pure h
      obtain ⟨rfl, -⟩ := Prod.mk.inj heq
      rfl
  rw [hsignature]
  exact nameIn_signature h₁

/-- The names of a trait's method and of its parameters have been read. -/
theorem nameIn_traitMember {m : TraitMethod} {text? : Option String}
    (h : traitMember g i = some ((.method m, text?), after)) :
    NameIn m.signature.name i.tokens ∧
      ∀ n t, .typed (.name n) t ∈ m.signature.params → NameIn n i.tokens := by
  obtain ⟨attributes, i₁, h₁, h⟩ := exists_of_bind h
  obtain ⟨marks, i₂, h₂, h⟩ := exists_of_bind h
  obtain ⟨isFn, i₃, h₃, h⟩ := exists_of_bind h
  have hback {n : String} (hn : NameIn n i₃.tokens) : NameIn n i.tokens :=
    nameIn_of_after h₁ (nameIn_of_after h₂ (nameIn_of_after h₃ hn))
  split at h
  · obtain ⟨⟨m', text⟩, i₄, h₄, h⟩ := exists_of_bind h
    have hm : (if marks == "" then TraitMember.method m' else .other) = .method m :=
      (Prod.mk.inj (eq_of_pure h).1).1
    split at hm
    · obtain rfl := TraitMember.method.inj hm
      obtain ⟨hname, hparams⟩ := nameIn_traitMethod h₄
      exact ⟨hback hname, fun n t hn => hback (hparams n t hn)⟩
    · exact absurd hm nofun
  -- Members of the other kinds are no methods.
  obtain ⟨isConst, i₄, -, h⟩ := exists_of_bind h
  split at h
  · obtain ⟨c, i₅, -, h⟩ := exists_of_bind h
    exact absurd (Prod.mk.inj (eq_of_pure h).1).1 nofun
  obtain ⟨isType, i₅, -, h⟩ := exists_of_bind h
  split at h
  · obtain ⟨t, i₆, -, h⟩ := exists_of_bind h
    exact absurd (Prod.mk.inj (eq_of_pure h).1).1 nofun
  obtain ⟨isMacro, i₆, -, h⟩ := exists_of_bind h
  split at h
  · obtain ⟨text, i₇, -, h⟩ := exists_of_bind h
    exact absurd (Prod.mk.inj (eq_of_pure h).1).1 nofun
  · exact absurd h nofun

end Params

/-! ## Structs -/

theorem nameIn_namedField {f : StructField} {text : String}
    (h : namedField g i = some ((f, text), after)) : NameIn f.name i.tokens := by
  obtain ⟨attributes, i₁, h₁, h⟩ := exists_of_bind h
  obtain ⟨vis, i₂, h₂, h⟩ := exists_of_bind h
  obtain ⟨unnamed, i₃, h₃, h⟩ := exists_of_bind h
  refine nameIn_of_after h₁ (nameIn_of_after h₂ (nameIn_of_after h₃ ?_))
  split at h
  all_goals
    obtain ⟨n, i₄, h₄, h⟩ := exists_of_bind h
    obtain ⟨colon, i₅, -, h⟩ := exists_of_bind h
    obtain ⟨t, i₆, -, h⟩ := exists_of_bind h
    obtain ⟨rfl, -⟩ := Prod.mk.inj (eq_of_pure h).1
  · exact nameIn_ident h₄
  · exact nameIn_name h₄

section Struct

variable [g.LeavesEnd]

theorem nameIn_namedFields {fields : List StructField} {text : String}
    (h : namedFields g i = some ((fields, text), after)) {f : StructField} (hf : f ∈ fields) :
    NameIn f.name i.tokens := by
  obtain ⟨items, i₁, h₁, h⟩ := exists_of_bind h
  obtain ⟨rfl, -⟩ := Prod.mk.inj (eq_of_pure h).1
  obtain ⟨⟨⟨field, fieldText⟩, comma⟩, hitem, rfl⟩ := List.mem_map.1 hf
  obtain ⟨inner, stray, rest, htokens, hinner⟩ := exists_of_group h₁
  obtain ⟨j, k, hj, hk⟩ := exists_of_mem_separated hinner hitem
  exact htokens ▸ .inner ((nameIn_namedField hk).of_suffix hj) _

theorem nameIn_structBody {fields : List StructField} {text : String}
    (h : structBody g i = some ((some fields, text), after)) {f : StructField} (hf : f ∈ fields) :
    NameIn f.name i.tokens := by
  obtain ⟨early, i₁, h₁, h⟩ := exists_of_bind h
  obtain ⟨isTuple, i₂, h₂, h⟩ := exists_of_bind h
  refine nameIn_of_after h₁ (nameIn_of_after h₂ ?_)
  split at h
  · obtain ⟨t, i₃, -, h⟩ := exists_of_bind h
    exact absurd (Prod.mk.inj (eq_of_pure h).1).1 nofun
  obtain ⟨isBraced, i₃, h₃, h⟩ := exists_of_bind h
  split at h
  · obtain ⟨⟨fields', text'⟩, i₄, h₄, h⟩ := exists_of_bind h
    obtain rfl := Option.some.inj (Prod.mk.inj (eq_of_pure h).1).1
    exact nameIn_of_after h₃ (nameIn_namedFields h₄ hf)
  · obtain ⟨t, i₄, -, h⟩ := exists_of_bind h
    exact absurd (Prod.mk.inj (eq_of_pure h).1).1 nofun

/-- The names of a struct's fields have been read. -/
theorem nameIn_structItem {s : StructItem} {text : String} {fields : List StructField}
    (h : structItem g i = some ((s, text), after)) (hfields : s.fields? = some fields)
    {f : StructField} (hf : f ∈ fields) : NameIn f.name i.tokens := by
  obtain ⟨attributes, i₁, h₁, h⟩ := exists_of_bind h
  obtain ⟨⟨who, vis⟩, i₂, h₂, h⟩ := exists_of_bind h
  obtain ⟨w, i₃, h₃, h⟩ := exists_of_bind h
  obtain ⟨n, i₄, h₄, h⟩ := exists_of_bind h
  obtain ⟨params, i₅, h₅, h⟩ := exists_of_bind h
  obtain ⟨⟨fields?, body⟩, i₆, h₆, h⟩ := exists_of_bind h
  obtain ⟨rfl, -⟩ := Prod.mk.inj (eq_of_pure h).1
  obtain rfl := hfields
  have hbody := nameIn_structBody h₆ hf
  exact nameIn_of_after h₁ (nameIn_of_after h₂ (nameIn_of_after h₃ (nameIn_of_after h₄
    (nameIn_of_after h₅ hbody))))

end Struct

end Function

end Parser

/-! ## Whole fragments -/

theorem exists_tokens_of_readWhole? {α : Type} {p : Grammar → Parser α} {text : String} {a : α}
    (h : readWhole? p text = some a) :
    ∃ ts after, tokens? text.toList = some ts ∧
      p (.ofDepth (depthBound ts)) ⟨ts, false⟩ = some (a, after) := by
  obtain ⟨ts, hts, hread⟩ := Option.bind_eq_some_iff.1 h
  unfold readTokens? at hread
  split at hread
  · obtain rfl := Option.some.inj hread
    exact ⟨ts, _, hts, ‹_›⟩
  · exact absurd hread nofun

/-- The names of a trait's method and of its parameters are among the tokens of its text. -/
theorem TraitMember.nameIn_of_ofText? {text : String} {m : TraitMethod}
    (h : TraitMember.ofText? text = some (.method m)) :
    ∃ ts, tokens? text.toList = some ts ∧ NameIn m.signature.name ts ∧
      ∀ n t, .typed (.name n) t ∈ m.signature.params → NameIn n ts := by
  obtain ⟨⟨member, text?⟩, hread, rfl⟩ := Option.map_eq_some_iff.1 h
  obtain ⟨ts, after, hts, hmember⟩ := exists_tokens_of_readWhole? hread
  exact ⟨ts, hts, Parser.nameIn_traitMember hmember⟩

/-- The names of a struct's fields are among the tokens of its text. -/
theorem StructItem.nameIn_of_ofText? {text : String} {s : StructItem} {fields : List StructField}
    (h : StructItem.ofText? text = some s) (hfields : s.fields? = some fields) :
    ∃ ts, tokens? text.toList = some ts ∧ ∀ f ∈ fields, NameIn f.name ts := by
  obtain ⟨⟨item, itemText⟩, hread, rfl⟩ := Option.map_eq_some_iff.1 h
  obtain ⟨ts, after, hts, hitem⟩ := exists_tokens_of_readWhole? hread
  exact ⟨ts, hts, fun f hf => Parser.nameIn_structItem hitem hfields hf⟩

end RpcBindings.Rust
