import RpcBindings.Proofs.Schema.Interface

/-!
Wrappers around results.

The result of a method is written inside of wrappers, one around the other: paths to generic types, each
around the first type among its arguments. Main statement: taking the wrappers off leaves a type exactly
when the type is no wrapper itself and a stack of wrappers around it is what is written. So all of them
go, nothing inside of another type does, and the order in which wrappers are listed does not matter; what
is left is the result of the method (`wrappers_stripped`).
-/

namespace RpcBindings

open Rust

/-! ## Wrappers -/

namespace Rust

/-- The type that a generic argument is, if it is one. -/
def GenericArg.type? : GenericArg → Option RustType
  | .type t => some t
  | .lifetime _ => none
  | .other _ => none

/-- The arguments between the brackets, if there are any. -/
def PathArgs.toList : PathArgs → List GenericArg
  | .none => []
  | .angle _ args _ => args

/-- The name and the arguments of the last segment, when a type is a path. -/
def RustType.lastSegment? : RustType → Option (String × PathArgs)
  | .path _ name args => some (name, args)
  | .projection _ name args => some (name, args)
  | _ => none

end Rust

/-- What is written around a type to wrap it: a path to a generic type, the arguments before the type, of
which none is a type, and those behind it. -/
structure TypeWrapper where
  /-- The path begins with a type between angle brackets. -/
  isProjection : Bool
  /-- The text before the last segment. -/
  qualifier : String
  name : String
  /-- The text from the name up to the first argument. -/
  opening : String
  before : List GenericArg
  after : List GenericArg
  /-- A comma follows the last argument. -/
  trailing : Bool
  type?_before : ∀ a ∈ before, a.type? = none

namespace TypeWrapper

/-- The arguments of a wrapper around a type. -/
def args (w : TypeWrapper) (t : RustType) : PathArgs :=
  .angle w.opening (w.before ++ .type t :: w.after) w.trailing

/-- A type with a wrapper around it. -/
def around (w : TypeWrapper) (t : RustType) : RustType :=
  if w.isProjection then .projection w.qualifier w.name (w.args t)
  else .path w.qualifier w.name (w.args t)

/-- A type with wrappers around it, the first one outermost. -/
def stack (layers : List TypeWrapper) (t : RustType) : RustType :=
  layers.foldr around t

end TypeWrapper

/-- A type is a path whose last segment is a wrapper with a type among its arguments. Names count as they
are written. -/
def IsWrapped (wrappers : List String) (t : RustType) : Prop :=
  ∃ name args u, t.lastSegment? = some (name, args) ∧ name ∈ wrappers ∧ .type u ∈ args.toList

/-- What is left of a type when all wrappers around it are taken off. -/
structure IsStripped (wrappers : List String) (whole t : RustType) : Prop where
  stacked : ∃ layers : List TypeWrapper,
    (∀ w ∈ layers, w.name ∈ wrappers) ∧ whole = TypeWrapper.stack layers t
  bare : ¬IsWrapped wrappers t

variable {wrappers wrappers' : List String} {whole t : RustType} {name : String} {args : PathArgs}
  {w : TypeWrapper}

namespace Rust

theorem GenericArg.type?_eq_some_iff {a : GenericArg} : a.type? = some t ↔ a = .type t := by
  cases a <;> simp [type?]

theorem RustType.lastSegment?_eq_some_iff : t.lastSegment? = some (name, args) ↔
    ∃ qualifier, t = .path qualifier name args ∨ t = .projection qualifier name args := by
  cases t <;> simp [lastSegment?]

/-- A type between the brackets is smaller than the path. -/
theorem sizeOf_lt_of_mem_toList {u : RustType} (h : t.lastSegment? = some (name, args))
    (hu : .type u ∈ args.toList) : sizeOf u < sizeOf t := by
  cases args with
  | none => exact absurd hu List.not_mem_nil
  | angle opening args trailing =>
    have hlt : sizeOf (GenericArg.type u) < sizeOf args := List.sizeOf_lt_of_mem hu
    rw [GenericArg.type.sizeOf_spec] at hlt
    obtain ⟨qualifier, rfl | rfl⟩ := RustType.lastSegment?_eq_some_iff.1 h
    · rw [RustType.path.sizeOf_spec, PathArgs.angle.sizeOf_spec]
      omega
    · rw [RustType.projection.sizeOf_spec, PathArgs.angle.sizeOf_spec]
      omega

end Rust

namespace TypeWrapper

@[simp] theorem lastSegment?_around (w : TypeWrapper) (t : RustType) :
    (w.around t).lastSegment? = some (w.name, w.args t) := by
  unfold around
  split <;> rfl

@[simp] theorem stack_cons (w : TypeWrapper) (layers : List TypeWrapper) (t : RustType) :
    stack (w :: layers) t = w.around (stack layers t) := rfl

theorem mem_args (w : TypeWrapper) (t : RustType) : .type t ∈ (w.args t).toList :=
  List.mem_append_right _ List.mem_cons_self

/-- What a wrapper wraps is the first type among its arguments. -/
theorem findSome?_args (w : TypeWrapper) (t : RustType) :
    (w.args t).toList.findSome? GenericArg.type? = some t :=
  List.findSome?_eq_some_iff.2 ⟨w.before, .type t, w.after, rfl, rfl, w.type?_before⟩

theorem not_isWrapped_around (h : w.name ∉ wrappers) (t : RustType) :
    ¬IsWrapped wrappers (w.around t) := by
  rintro ⟨name, args, u, hsegment, hname, -⟩
  rw [lastSegment?_around] at hsegment
  obtain ⟨rfl, -⟩ := Prod.mk.inj (Option.some.inj hsegment)
  exact h hname

end TypeWrapper

/-- A wrapper with a type among its arguments stands around the first one. -/
theorem IsWrapped.exists_around (h : IsWrapped wrappers whole) :
    ∃ (w : TypeWrapper) (t : RustType), w.name ∈ wrappers ∧ whole = w.around t := by
  obtain ⟨name, args, u, hsegment, hname, hu⟩ := h
  cases args with
  | none => exact absurd hu List.not_mem_nil
  | angle opening args trailing =>
    have hsome : (args.findSome? GenericArg.type?).isSome :=
      List.findSome?_isSome_iff.2 ⟨_, hu, rfl⟩
    obtain ⟨t, ht⟩ := Option.isSome_iff_exists.1 hsome
    obtain ⟨before, a, after, rfl, ha, hbefore⟩ := List.findSome?_eq_some_iff.1 ht
    obtain rfl := GenericArg.type?_eq_some_iff.1 ha
    obtain ⟨qualifier, rfl | rfl⟩ := RustType.lastSegment?_eq_some_iff.1 hsegment
    · exact ⟨⟨false, qualifier, name, opening, before, after, trailing, hbefore⟩, t, hname, rfl⟩
    · exact ⟨⟨true, qualifier, name, opening, before, after, trailing, hbefore⟩, t, hname, rfl⟩

/-- Every type is a stack of wrappers, perhaps an empty one, around a type that is no wrapper. -/
theorem exists_isStripped (wrappers : List String) (whole : RustType) :
    ∃ t, IsStripped wrappers whole t := by
  by_cases h : IsWrapped wrappers whole
  · obtain ⟨w, u, hname, rfl⟩ := h.exists_around
    have hlt := sizeOf_lt_of_mem_toList (w.lastSegment?_around u) (w.mem_args u)
    -- what is wrapped is smaller, so the stack ends
    obtain ⟨t, ⟨layers, hlayers, hstack⟩, hbare⟩ := exists_isStripped wrappers u
    refine ⟨t, ⟨w :: layers, List.forall_mem_cons.2 ⟨hname, hlayers⟩, ?_⟩, hbare⟩
    rw [TypeWrapper.stack_cons, ← hstack]
  · exact ⟨whole, ⟨[], fun _ hw => absurd hw List.not_mem_nil, rfl⟩, h⟩
termination_by sizeOf whole

/-! ## Taking wrappers off -/

/-- The arguments of a wrapper are searched for the first type. -/
theorem unwrapFirst_eq (wrappers : List String) (whole : RustType) (args : List GenericArg) :
    unwrapFirst wrappers whole args =
      (args.findSome? GenericArg.type?).elim whole (unwrap wrappers) := by
  induction args with
  | nil => rfl
  | cons a args ih =>
    cases a with
    | type t => rfl
    | lifetime text => exact ih
    | other text => exact ih

theorem unwrapArgs_eq (wrappers : List String) (whole : RustType) (args : PathArgs) :
    unwrapArgs wrappers whole args =
      (args.toList.findSome? GenericArg.type?).elim whole (unwrap wrappers) := by
  cases args with
  | none => rfl
  | angle opening args trailing => exact unwrapFirst_eq wrappers whole args

/-- A path goes on with its arguments when its last segment is a wrapper. -/
theorem unwrap_of_lastSegment? (h : t.lastSegment? = some (name, args)) :
    unwrap wrappers t = if wrappers.contains name then unwrapArgs wrappers t args else t := by
  obtain ⟨qualifier, rfl | rfl⟩ := RustType.lastSegment?_eq_some_iff.1 h <;> rw [unwrap]

theorem unwrap_of_lastSegment?_eq_none (h : t.lastSegment? = none) : unwrap wrappers t = t := by
  cases t with
  | path | projection => exact absurd h nofun
  | reference | slice | array | paren | other => rw [unwrap]

/-- The outermost wrapper is taken off. -/
theorem unwrap_around (h : w.name ∈ wrappers) (t : RustType) :
    unwrap wrappers (w.around t) = unwrap wrappers t := by
  rw [unwrap_of_lastSegment? (w.lastSegment?_around t), if_pos (List.contains_iff_mem.2 h),
    unwrapArgs_eq, w.findSome?_args, Option.elim_some]

/-- A type that is no wrapper, or one without a type among its arguments, stays as it is. -/
theorem unwrap_of_not_isWrapped (h : ¬IsWrapped wrappers t) : unwrap wrappers t = t := by
  cases hsegment : t.lastSegment? with
  | none => exact unwrap_of_lastSegment?_eq_none hsegment
  | some segment =>
    obtain ⟨name, args⟩ := segment
    rw [unwrap_of_lastSegment? hsegment]
    split
    · rename_i hname
      have hnone : args.toList.findSome? GenericArg.type? = none := by
        refine List.findSome?_eq_none_iff.2 fun a ha => Option.eq_none_iff_forall_ne_some.2 ?_
        intro u hu
        obtain rfl := GenericArg.type?_eq_some_iff.1 hu
        exact h ⟨name, args, u, hsegment, List.contains_iff_mem.1 hname, ha⟩
      rw [unwrapArgs_eq, hnone, Option.elim_none]
    · rfl

/-- All wrappers of a stack are taken off, one after another. -/
theorem unwrap_stack {layers : List TypeWrapper} (h : ∀ w ∈ layers, w.name ∈ wrappers)
    (t : RustType) : unwrap wrappers (TypeWrapper.stack layers t) = unwrap wrappers t := by
  induction layers with
  | nil => rfl
  | cons w layers ih =>
    rw [TypeWrapper.stack_cons, unwrap_around (h w List.mem_cons_self)]
    exact ih fun w' hw' => h w' (List.mem_cons_of_mem w hw')

theorem IsStripped.unwrap_eq (h : IsStripped wrappers whole t) : unwrap wrappers whole = t := by
  obtain ⟨⟨layers, hlayers, rfl⟩, hbare⟩ := h
  rw [unwrap_stack hlayers, unwrap_of_not_isWrapped hbare]

theorem isStripped_unwrap (wrappers : List String) (whole : RustType) :
    IsStripped wrappers whole (unwrap wrappers whole) := by
  obtain ⟨t, ht⟩ := exists_isStripped wrappers whole
  rwa [ht.unwrap_eq]

/-- Stripping asks of the wrappers only which names are among them. -/
theorem IsStripped.congr (h : IsStripped wrappers whole t)
    (hmem : ∀ name, name ∈ wrappers ↔ name ∈ wrappers') : IsStripped wrappers' whole t := by
  obtain ⟨⟨layers, hlayers, hstack⟩, hbare⟩ := h
  refine ⟨⟨layers, fun w hw => (hmem _).1 (hlayers w hw), hstack⟩, ?_⟩
  rintro ⟨name, args, u, hsegment, hname, hu⟩
  exact hbare ⟨name, args, u, hsegment, (hmem name).2 hname, hu⟩

/-! ## Results of methods -/

/-- The result of a method is what is left of the type behind its arrow. -/
theorem RpcMethod.isStripped_of_ofText {options : InterfaceOptions} {nspace : String}
    {text : List Char} {m : RpcMethod} (h : ofText options nspace text = .found m) :
    ∃ method output t, TraitMember.ofText? (.ofList text) = some (.method method) ∧
      method.signature.output = some output ∧ IsStripped options.wrappers output t ∧
      m.returnType = .ofRust t := by
  obtain ⟨method, hmethod, hread⟩ := ofText_eq_found h
  obtain ⟨-, _, _, output, -, -, houtput, rfl⟩ := ofMethod_eq_ok hread
  exact ⟨method, output, _, hmethod, houtput, isStripped_unwrap options.wrappers output, rfl⟩

/-- Taking the wrappers off leaves a type exactly when it is no wrapper with a type among its arguments
and a stack of wrappers around it is what is written, of any height and in any order. So another generic
type stays as it is, also when wrappers stand among its arguments. The order in which wrappers are listed
does not matter, and the result of every method that is read is what is left of the type behind its
arrow. -/
theorem wrappers_stripped (wrappers : List String) :
    (∀ whole t, unwrap wrappers whole = t ↔ IsStripped wrappers whole t) ∧
    (∀ (layers : List TypeWrapper) (other : TypeWrapper) (t : RustType),
      (∀ w ∈ layers, w.name ∈ wrappers) → other.name ∉ wrappers →
        unwrap wrappers (TypeWrapper.stack layers (other.around t)) = other.around t) ∧
    (∀ wrappers', wrappers.Perm wrappers' → unwrap wrappers' = unwrap wrappers) ∧
    ∀ nspace? nspace text m, RpcMethod.ofText ⟨nspace?, wrappers⟩ nspace text = .found m →
      ∃ method output t, TraitMember.ofText? (.ofList text) = some (.method method) ∧
        method.signature.output = some output ∧ IsStripped wrappers output t ∧
        m.returnType = .ofRust t := by
  refine ⟨fun whole t => ⟨?_, IsStripped.unwrap_eq⟩, ?_, ?_, ?_⟩
  · rintro rfl
    exact isStripped_unwrap wrappers whole
  · intro layers other t hlayers hother
    exact IsStripped.unwrap_eq ⟨⟨layers, hlayers, rfl⟩, other.not_isWrapped_around hother t⟩
  · intro wrappers' hperm
    funext whole
    -- what one list leaves is all that another list with the same names can leave
    exact ((isStripped_unwrap wrappers whole).congr fun _ => hperm.mem_iff).unwrap_eq
  · exact fun _ _ _ _ h => RpcMethod.isStripped_of_ofText h

/-- A future behind a path, with a lifetime before what it wraps. -/
def futureLayer : TypeWrapper where
  isProjection := false
  qualifier := "rpc::"
  name := "BoxFuture"
  opening := "<"
  before := [.lifetime "'static"]
  after := []
  trailing := false
  type?_before := List.forall_mem_singleton.2 rfl

/-- A generic type with a type of errors behind what it wraps. -/
def fallibleLayer (name : String) : TypeWrapper where
  isProjection := false
  qualifier := ""
  name := name
  opening := "<"
  before := []
  after := [.type (.path "" "Error" .none)]
  trailing := false
  type?_before := List.forall_mem_nil _

/-- A result inside of a generic type that is no wrapper. -/
def eitherResult : RustType :=
  (fallibleLayer "Either").around ((fallibleLayer "Result").around (.path "" "u8" .none))

/-- A future of a result of it. -/
def futureResult : RustType :=
  TypeWrapper.stack [futureLayer, fallibleLayer "Result"] eitherResult

theorem wrappers_stripped_futureResult :
    futureResult.text = "rpc::BoxFuture<'static,Result<Either<Result<u8,Error>,Error>,Error>>" ∧
      IsStripped ["Result", "BoxFuture"] futureResult eitherResult ∧
      unwrap ["BoxFuture", "Result"] futureResult = eitherResult := by
  obtain ⟨hstripped, hother, horder, -⟩ := wrappers_stripped ["Result", "BoxFuture"]
  have hunwrap : unwrap ["Result", "BoxFuture"] futureResult = eitherResult :=
    hother [futureLayer, fallibleLayer "Result"] (fallibleLayer "Either") _ (by decide) (by decide)
  refine ⟨by decide +kernel, (hstripped futureResult eitherResult).1 hunwrap, ?_⟩
  rw [horder _ (.swap "BoxFuture" "Result" []), hunwrap]

end RpcBindings
