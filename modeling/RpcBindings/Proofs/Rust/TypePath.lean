import RpcBindings.Proofs.Rust.Repetition

/-!
Paths as types.

A path is a type by its last segment, whatever stands before it. Main statement: where the last segment
is read to its end, so is the path, and the type has the name and the arguments of that segment
(`Parser.typeOver_path`).
-/

namespace RpcBindings.Rust

open RpcBindings.Rust.Parser

/-! ## Depth -/

theorem weight_append (ts us : List Token) : weight (ts ++ us) = weight ts + weight us := by
  induction ts with
  | nil => exact (Nat.zero_add _).symm
  | cons t ts ih => rw [List.cons_append, weight, weight, ih, Nat.add_assoc]

@[simp] theorem weight_ident (n : String) (ts : List Token) :
    weight (.ident n :: ts) = 1 + weight ts := rfl

@[simp] theorem weight_punct (c : Char) (joint : Bool) (ts : List Token) :
    weight (.punct c joint :: ts) = 1 + weight ts := rfl

@[simp] theorem weight_group (d : Delimiter) (inner ts : List Token) :
    weight (.group d inner :: ts) = 1 + weight inner + weight ts := rfl

/-! ## The tokens of paths -/

/-- The words that begin a path in place of a name. -/
def pathWords : List String := ["super", "self", "Self", "crate"]

/-- Tokens that are read as generic arguments, wherever a path goes on behind them. -/
def IsArguments (args : List Token) : Prop :=
  ∀ depth, depthBound args ≤ depth → ∀ joint n more,
    let rest : List Token := .punct ':' true :: .punct ':' joint :: .ident n :: more
    atAngleArgs false (args ++ rest) = true ∧
      ∃ a, angleArgs (.ofDepth depth) ⟨args ++ rest, false⟩ = some (a, ⟨rest, false⟩)

/-- The tokens of a segment that is not the last one. -/
inductive IsSegment : List Token → Prop where
  | name {n : String} (h : isName n = true) : IsSegment [.ident n]
  | word {w : String} (h : w ∈ pathWords) : IsSegment [.ident w]
  | applied {n : String} {args : List Token} (h : isName n = true) (hargs : IsArguments args) :
      IsSegment (.ident n :: args)

/-- Segments that `::` follows, and behind them the last one. -/
inductive Qualified (last : List Token) : List Token → Prop where
  | last : Qualified last last
  | segment {s ts : List Token} (h : IsSegment s) (joint : Bool) (more : Qualified last ts) :
      Qualified last (s ++ .punct ':' true :: .punct ':' joint :: ts)

/-- A path to a last segment, from the root of all crates or not. -/
inductive PathTo (last : List Token) : List Token → Prop where
  | plain {ts : List Token} (h : Qualified last ts) : PathTo last ts
  | rooted {ts : List Token} (joint : Bool) (h : Qualified last ts) :
      PathTo last (.punct ':' true :: .punct ':' joint :: ts)

variable {n : String} {last ts rest : List Token} {depth : Nat} {a : String × PathArgs}

theorem Qualified.weight_le (h : Qualified last ts) : weight last ≤ weight ts := by
  induction h with
  | last => exact Nat.le_refl _
  | segment _ _ _ ih =>
    rw [weight_append, weight_punct, weight_punct]
    omega

theorem PathTo.weight_le (h : PathTo last ts) : weight last ≤ weight ts := by
  cases h with
  | plain h => exact h.weight_le
  | rooted joint h =>
    have := h.weight_le
    rw [weight_punct, weight_punct]
    omega

/-- A path begins with a name or with one of the words in place of it. -/
inductive PathHead : Token → Prop where
  | name {n : String} (h : isName n = true) : PathHead (.ident n)
  | word {w : String} (h : w ∈ pathWords) : PathHead (.ident w)

theorem IsSegment.head {s : List Token} (h : IsSegment s) : ∃ t more, s = t :: more ∧ PathHead t := by
  cases h with
  | name h => exact ⟨_, _, rfl, .name h⟩
  | word h => exact ⟨_, _, rfl, .word h⟩
  | applied h => exact ⟨_, _, rfl, .name h⟩

theorem PathHead.exists_ident {t : Token} (h : PathHead t) : ∃ n, t = .ident n := by
  cases h <;> exact ⟨_, rfl⟩

theorem Qualified.head (h : Qualified last ts) (hlast : ∃ t more, last = t :: more ∧ PathHead t) :
    ∃ t more, ts = t :: more ∧ PathHead t := by
  cases h with
  | last => exact hlast
  | segment h joint more =>
    obtain ⟨t, more, rfl, ht⟩ := h.head
    exact ⟨t, _, rfl, ht⟩

namespace Parser

/-! ## Segments -/

/-- A segment is read up to the `::` behind it. -/
theorem segment_of_isSegment {s : List Token} (h : IsSegment s) (hdepth : depthBound s ≤ depth)
    (joint : Bool) (n : String) (more : List Token) :
    ∃ a, segment (.ofDepth depth) false
      ⟨s ++ .punct ':' true :: .punct ':' joint :: .ident n :: more, false⟩ =
        some (a, ⟨.punct ':' true :: .punct ':' joint :: .ident n :: more, false⟩) := by
  have hnone : atAngleArgs false (.punct ':' true :: .punct ':' joint :: .ident n :: more) = false :=
    rfl
  cases h with
  | @name m h =>
    refine ⟨(m, .none), ?_⟩
    rw [List.singleton_append, segment_ident _ false h, whenAt_of_false hnone]
    rfl
  | @word w h =>
    refine ⟨(w, .none), ?_⟩
    have hw : w = "super" ∨ w = "self" ∨ w = "Self" ∨ w = "crate" := by
      simpa [pathWords] using h
    rcases hw with rfl | rfl | rfl | rfl <;> rfl
  | @applied m args h hargs =>
    have hbound : depthBound args ≤ depth := by
      refine Nat.le_trans ?_ hdepth
      unfold depthBound
      rw [weight_ident]
      omega
    obtain ⟨hopens, args', hread⟩ := hargs depth hbound joint n more
    refine ⟨(m, args'), ?_⟩
    rw [List.cons_append, segment_ident _ false h, whenAt_of_true hopens, hread]
    rfl

/-- The step by which a path goes on. -/
def segmentStep (g : Grammar) : Parser (Option (String × PathArgs)) :=
  whenAt (fun ts => atPunct "::" ts && !(true && skip 2 atParen ts)) (some <$> (do
    let _ ← punct "::"
    segment g false)) none

/-- The segments of a path are read one after another, up to the last one. -/
theorem segments_of_qualified (h : Qualified last ts) (hdepth : depthBound ts ≤ depth + 1)
    (hlast : ∃ t more, last = t :: more ∧ PathHead t)
    (hread : segment (.ofDepth depth) false ⟨last ++ rest, false⟩ = some (a, ⟨rest, false⟩))
    (hrest : EndsPath rest) :
    ∃ first mid more, segment (.ofDepth depth) false ⟨ts ++ rest, false⟩ = some (first, mid) ∧
      Steps (segmentStep (.ofDepth depth)) mid more ⟨rest, false⟩ ∧
      (more.length ≤ mid.tokens.length ∧ more.length ≤ ts.length) ∧
      (first :: more).getLast? = some a := by
  induction h with
  | last =>
    have hcolons : atPunct "::" rest = false := hrest.atPunct rfl (by decide)
    refine ⟨a, ⟨rest, false⟩, [], hread, steps_of_not ?_, ⟨Nat.zero_le _, Nat.zero_le _⟩, rfl⟩
    rw [hcolons, Bool.false_and]
  | @segment s ts h joint more ih =>
    have hweight : depthBound s ≤ depth ∧ depthBound ts ≤ depth + 1 := by
      unfold depthBound at hdepth ⊢
      rw [weight_append, weight_punct, weight_punct] at hdepth
      omega
    obtain ⟨first, mid, later, hfirst, hsteps, ⟨-, hlength⟩, hgetLast⟩ := ih hweight.2
    obtain ⟨t, ts, rfl, ht⟩ := more.head hlast
    obtain ⟨n, rfl⟩ := ht.exists_ident
    obtain ⟨b, hb⟩ := segment_of_isSegment h hweight.1 joint n (ts ++ rest)
    have hstep : (do
        let _ ← punct "::"
        segment (.ofDepth depth) false : Parser (String × PathArgs))
          ⟨.punct ':' true :: .punct ':' joint :: (.ident n :: ts ++ rest), false⟩ =
            some (first, mid) := hfirst
    refine ⟨b, _, first :: later, ?_, .more (step_of_test rfl hstep) hsteps, ?_, ?_⟩
    · rw [List.append_assoc]
      exact hb
    · simp only [List.length_cons, List.length_append] at hlength ⊢
      omega
    · rw [List.getLast?_cons_cons, hgetLast]

/-- A path has the name and the arguments of its last segment. -/
theorem joinSegments_of_getLast? {first : String × PathArgs} {more : List (String × PathArgs)}
    (h : (first :: more).getLast? = some a) (before : String) (isQualified isModule : Bool) :
    ∃ qualifier isModule', joinSegments before isQualified isModule first more =
      ⟨qualifier, a.1, a.2, isModule', isQualified⟩ := by
  induction more generalizing first before isModule with
  | nil =>
    obtain rfl := Option.some.inj h
    exact ⟨_, _, rfl⟩
  | cons s more ih =>
    rw [List.getLast?_cons_cons] at h
    exact ih h _ _

/-! ## Paths -/

/-- A path is read to its end when its last segment is. -/
theorem path_of_pathTo (h : PathTo last ts) (hdepth : depthBound ts ≤ depth + 1)
    (hlast : ∃ t more, last = t :: more ∧ PathHead t)
    (hread : segment (.ofDepth depth) false ⟨last ++ rest, false⟩ = some (a, ⟨rest, false⟩))
    (hrest : EndsPath rest) :
    ∃ qualifier isModule, path (.ofDepth depth) false ⟨ts ++ rest, false⟩ =
      some (⟨qualifier, a.1, a.2, isModule, false⟩, ⟨rest, false⟩) := by
  have hsegments {ts : List Token} (before : String) (h : Qualified last ts)
      (hdepth : depthBound ts ≤ depth + 1) :
      ∃ qualifier isModule, (do
        let first ← segment (.ofDepth depth) false
        let more ← moreSegments (.ofDepth depth) false true
        return joinSegments before false true first more : Parser PathShape) ⟨ts ++ rest, false⟩ =
          some (⟨qualifier, a.1, a.2, isModule, false⟩, ⟨rest, false⟩) := by
    obtain ⟨first, mid, more, hfirst, hsteps, ⟨hlength, -⟩, hgetLast⟩ :=
      segments_of_qualified h hdepth hlast hread hrest
    obtain ⟨qualifier, isModule, hjoin⟩ := joinSegments_of_getLast? hgetLast before false true
    have hmore : moreSegments (.ofDepth depth) false true mid = some (more, ⟨rest, false⟩) :=
      many_of_steps hsteps hlength
    refine ⟨qualifier, isModule, ?_⟩
    rw [bind_apply, hfirst, Option.bind_some, bind_apply, hmore, Option.bind_some, pure_apply]
    dsimp only
    rw [hjoin]
  unfold path
  cases h with
  | plain h =>
    obtain ⟨t, more, heq, ht⟩ := h.head hlast
    obtain ⟨n, rfl⟩ := ht.exists_ident
    obtain ⟨qualifier, isModule, hpath⟩ := hsegments "" h hdepth
    refine ⟨qualifier, isModule, ?_⟩
    have hcolons : atPunct "::" (ts ++ rest) = false := by
      rw [heq]
      exact atPunct_ident rfl
    rw [bind_apply, optPunct_of_not hcolons, Option.bind_some]
    exact hpath
  | @rooted ts joint h =>
    have hts : depthBound ts ≤ depth + 1 := by
      unfold depthBound at hdepth ⊢
      rw [weight_punct, weight_punct] at hdepth
      omega
    obtain ⟨qualifier, isModule, hpath⟩ := hsegments "::" h hts
    refine ⟨qualifier, isModule, ?_⟩
    have hcolons : optPunct "::" ⟨.punct ':' true :: .punct ':' joint :: ts ++ rest, false⟩ =
        some ("::", ⟨ts ++ rest, false⟩) := rfl
    rw [bind_apply, hcolons, Option.bind_some]
    exact hpath

/-- Nothing is built in that generic arguments follow. -/
theorem not_hash_of_atAngleArgs (h : atAngleArgs false ts = true) : atPunct "#" ts = false := by
  refine Bool.eq_false_iff.2 fun hhash => ?_
  cases ts with
  | nil => exact Bool.false_ne_true hhash
  | cons t ts =>
    cases t with
    | punct c joint =>
      have hc : c = '#' := by
        by_contra hne
        have hnone : atPunct "#" (.punct c joint :: ts) = (if '#' = c then some ts else none).isSome :=
          rfl
        rw [hnone, if_neg (Ne.symm hne)] at hhash
        exact Bool.false_ne_true hhash
      subst hc
      exact Bool.false_ne_true h
    | ident n => exact Bool.false_ne_true hhash
    | lifetime n => exact Bool.false_ne_true hhash
    | literal kind text => exact Bool.false_ne_true hhash
    | group d inner => exact Bool.false_ne_true hhash

/-- Behind the first name of a path there is no hash, unless there is one behind the last. -/
theorem not_builtin_of_qualified (h : Qualified last ts)
    (hlast : ∃ t more, last = t :: more ∧ PathHead t)
    (hhash : skip 1 (atPunct "#") (last ++ rest) = false) :
    skip 1 (atPunct "#") (ts ++ rest) = false := by
  cases h with
  | last => exact hhash
  | @segment s ts h joint more =>
    cases h with
    | name h => rfl
    | word h => rfl
    | @applied n args h hargs =>
      obtain ⟨t, ts, rfl, ht⟩ := more.head hlast
      obtain ⟨m, rfl⟩ := ht.exists_ident
      have hangle := (hargs _ (Nat.le_refl _) joint m (ts ++ rest)).1
      have hnone := not_hash_of_atAngleArgs hangle
      simpa [skip] using hnone

/-- A path as a type. -/
theorem pathType_of_path {g : Grammar} {qualifier : String} {isModule : Bool} {i : Input} (plus : Bool)
    (hangle : atPunct "<" i.tokens = false)
    (hpath : path g false i = some (⟨qualifier, a.1, a.2, isModule, false⟩, ⟨rest, false⟩))
    (hrest : EndsPath rest) :
    ∃ shape, pathType g "" plus i = some (shape, ⟨rest, false⟩) ∧
      shape.type = .path qualifier a.1 a.2 := by
  have hcall (p : PathShape) : atMacroCall p rest = false := by
    unfold atMacroCall atBang
    rw [hrest.atPunct rfl (by decide)]
    rfl
  have hplus : atPunct "+" rest = false := hrest.atPunct rfl (by decide)
  have hqualified : qualifiedPath g false i =
      some (⟨qualifier, a.1, a.2, isModule, false⟩, ⟨rest, false⟩) := by
    unfold qualifiedPath
    rw [test_bind_of_false hangle, hpath]
  refine ⟨{ type := .path qualifier a.1 a.2, bound? := some ("" ++ (qualifier ++ a.1 ++ a.2.text)) },
    ?_, rfl⟩
  unfold pathType
  simp only [bind_apply, hqualified, Option.bind_some, Bool.false_eq_true, if_false, test_apply, hcall,
    hplus, Bool.and_false, bne_self_eq_false, Bool.or_self, pure_apply, PathShape.text]

/-- A type that begins with a name is a path. -/
theorem typeOver_ident {g : Grammar} (plus : Bool) (h : isName n = true)
    (hhash : atPunct "#" ts = false) :
    typeOver g plus ⟨.ident n :: ts, false⟩ = pathType g "" plus ⟨.ident n :: ts, false⟩ := by
  have hfor : atWord "for" (.ident n :: ts) = false := atWord_of_isName h (by decide)
  have hfn : atWords ["fn", "unsafe", "extern"] (.ident n :: ts) = false :=
    atWords_of_isName h (by decide)
  have hbuiltin : atBuiltin (.ident n :: ts) = false := by
    unfold atBuiltin
    rw [show skip 1 (atPunct "#") (.ident n :: ts) = atPunct "#" ts from rfl, hhash, Bool.and_false]
  have hname : atName (.ident n :: ts) = true := h
  have hparen : atParen (.ident n :: ts) = false := rfl
  unfold typeOver
  rw [bind_apply, get_apply, Option.bind_some, bind_apply, Parser.optional, whenAt_apply]
  simp only [hfor]
  rw [if_neg Bool.false_ne_true, Option.bind_some, test_bind_of_false hparen, test_bind_of_false hfn,
    test_bind_of_false hbuiltin, test_bind_of_true (by simp only [hname, Bool.true_or])]

theorem typeOver_of_pathHead {g : Grammar} {t : Token} (plus : Bool) (ht : PathHead t)
    (hhash : atPunct "#" ts = false) :
    typeOver g plus ⟨t :: ts, false⟩ = pathType g "" plus ⟨t :: ts, false⟩ := by
  cases ht with
  | name h => exact typeOver_ident plus h hhash
  | word h =>
    rename_i w
    have hw : w = "super" ∨ w = "self" ∨ w = "Self" ∨ w = "crate" := by
      simpa [pathWords] using h
    rcases hw with rfl | rfl | rfl | rfl <;> rfl

/-- A path to a last segment that is read to its end is a type with the name and the arguments of that
segment. -/
theorem typeOver_path (plus : Bool) (h : PathTo last ts) (hdepth : depthBound ts ≤ depth + 1)
    (hlast : ∃ t more, last = t :: more ∧ PathHead t)
    (hhash : skip 1 (atPunct "#") (last ++ rest) = false)
    (hread : segment (.ofDepth depth) false ⟨last ++ rest, false⟩ = some (a, ⟨rest, false⟩))
    (hrest : EndsPath rest) :
    ∃ shape qualifier, typeOver (.ofDepth depth) plus ⟨ts ++ rest, false⟩ =
      some (shape, ⟨rest, false⟩) ∧ shape.type = .path qualifier a.1 a.2 := by
  obtain ⟨qualifier, isModule, hpath⟩ := path_of_pathTo h hdepth hlast hread hrest
  cases h with
  | plain h =>
    have hnone := not_builtin_of_qualified h hlast hhash
    obtain ⟨t, more, rfl, ht⟩ := h.head hlast
    have hangle : atPunct "<" (t :: more ++ rest) = false := by
      obtain ⟨n, rfl⟩ := ht.exists_ident
      exact atPunct_ident rfl
    obtain ⟨shape, htype, hshape⟩ := pathType_of_path plus hangle hpath hrest
    exact ⟨shape, qualifier, (typeOver_of_pathHead plus ht hnone).trans htype, hshape⟩
  | rooted joint h =>
    obtain ⟨shape, htype, hshape⟩ := pathType_of_path plus rfl hpath hrest
    exact ⟨shape, qualifier, htype, hshape⟩

end Parser

end RpcBindings.Rust
