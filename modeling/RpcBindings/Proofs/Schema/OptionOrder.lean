import RpcBindings.Proofs.Schema.FieldOption
import RpcBindings.Schema.Record

/-!
The order of options.

The options of a field can stand in any order and in any number of attributes. Main statement: what
they say is the same for all these arrangements exactly when no option with arguments can hide
another one, and then every option is heard (`options_any_order_iff`).
-/

namespace RpcBindings.Schema

open Rust RpcBindings.Rust.Parser

variable {os : List FieldOption} {groups : List (List FieldOption)} {attributes : List MetaItem}

/-- The attributes of a field hold these options, in some order and in some number of attributes. -/
def Arranges (attributes : List MetaItem) (os : List FieldOption) : Prop :=
  ∃ groups, HoldsOptions attributes groups ∧ groups.flatten.Perm os

/-- An option with arguments stands among options of which one leaves the field out, unless it does so
itself, or gives it a name. -/
def CanHide (os : List FieldOption) : Prop :=
  ∃ l ∈ os, l.isList = true ∧
    ∃ o ∈ os, (o.leavesOut = true ∧ l.leavesOut = false) ∨ o.newName?.isSome = true

/-! ## Options that are heard -/

/-- An option is heard, or one with arguments is. -/
theorem mem_heard_or {o : FieldOption} (h : o ∈ os) :
    o ∈ heard os ∨ ∃ l ∈ heard os, l.isList = true := by
  induction os with
  | nil => exact absurd h List.not_mem_nil
  | cons p os ih =>
    rw [heard]
    split
    · rename_i hlist
      exact .inr ⟨p, List.mem_cons_self, hlist⟩
    · rcases List.mem_cons.1 h with rfl | h
      · exact .inl List.mem_cons_self
      · rcases ih h with ho | ⟨l, hl, hlist⟩
        · exact .inl (List.mem_cons_of_mem p ho)
        · exact .inr ⟨l, List.mem_cons_of_mem p hl, hlist⟩

theorem mem_of_mem_heard {o : FieldOption} (h : o ∈ groups.flatMap heard) : o ∈ groups.flatten := by
  obtain ⟨group, hgroup, ho⟩ := List.mem_flatMap.1 h
  exact List.mem_flatten.2 ⟨group, hgroup, heard_sublist.subset ho⟩

/-- A field is left out as its options say, when none can hide another one. -/
theorem isOmitted_of_not_canHide (hhide : ¬CanHide os) (h : HoldsOptions attributes groups)
    (hperm : groups.flatten.Perm os) : isOmitted attributes = os.any FieldOption.leavesOut := by
  rw [isOmitted_eq h, Bool.eq_iff_iff, List.any_eq_true, List.any_eq_true]
  constructor
  · rintro ⟨o, ho, hout⟩
    exact ⟨o, hperm.subset (mem_of_mem_heard ho), hout⟩
  · rintro ⟨o, ho, hout⟩
    obtain ⟨group, hgroup, hmem⟩ := List.mem_flatten.1 (hperm.symm.subset ho)
    rcases mem_heard_or hmem with hheard | ⟨l, hl, hlist⟩
    · exact ⟨o, List.mem_flatMap.2 ⟨group, hgroup, hheard⟩, hout⟩
    · -- the option that may hide this one leaves the field out itself
      have hl : l ∈ groups.flatMap heard := List.mem_flatMap.2 ⟨group, hgroup, hl⟩
      refine ⟨l, hl, Bool.not_eq_false _ ▸ fun hkeep => hhide ?_⟩
      exact ⟨l, hperm.subset (mem_of_mem_heard hl), hlist, o, ho, .inl ⟨hout, hkeep⟩⟩

theorem length_newNames (hone : (os.filter FieldOption.isRename).length ≤ 1) :
    (os.filterMap FieldOption.newName?).length ≤ 1 := by
  refine Nat.le_trans ?_ hone
  rw [List.length_filterMap_eq_countP, ← List.countP_eq_length_filter]
  refine List.countP_mono_left fun o _ hname => ?_
  obtain ⟨name, hname⟩ := Option.isSome_iff_exists.1 hname
  exact FieldOption.isRename_of_newName? hname

/-- A field has the name that an option gives it, when none can hide another one. -/
theorem rename?_of_not_canHide (hone : (os.filter FieldOption.isRename).length ≤ 1)
    (hhide : ¬CanHide os) (h : HoldsOptions attributes groups) (hperm : groups.flatten.Perm os) :
    rename? attributes = os.findSome? FieldOption.newName? := by
  have hrenames : (groups.flatten.filter FieldOption.isRename).length ≤ 1 :=
    (hperm.filter FieldOption.isRename).length_eq ▸ hone
  rw [rename?_eq h hrenames]
  cases hnames : os.filterMap FieldOption.newName? with
  | nil =>
    have hnone : ∀ o ∈ os, o.newName? = none := List.filterMap_eq_nil_iff.1 hnames
    rw [List.filterMap_eq_nil_iff.2 fun o ho => hnone o (hperm.subset (mem_of_mem_heard ho)),
      List.findSome?_eq_none_iff.2 hnone]
    rfl
  | cons name names =>
    -- an option gives a name, so none has arguments and all are heard
    obtain ⟨o, ho, hname⟩ := List.mem_filterMap.1 (hnames ▸ List.mem_cons_self)
    have hplain : ∀ l ∈ groups.flatten, l.isList = false := fun l hl =>
      Bool.eq_false_iff.2 fun hlist =>
        hhide ⟨l, hperm.subset hl, hlist, o, ho, .inr (hname ▸ rfl)⟩
    have hlength := length_newNames hone
    rw [hnames, List.length_cons] at hlength
    obtain rfl : names = [] := List.eq_nil_of_length_eq_zero (by omega)
    have hsame := hperm.filterMap FieldOption.newName?
    rw [hnames] at hsame
    rw [flatMap_heard_of_not_isList hplain, List.perm_singleton.1 hsame, ← List.head?_filterMap,
      hnames]
    rfl

/-! ## Arrangements -/

theorem exists_nameTokens {ns : List String} (h : ns ≠ []) : ∃ ts, NameTokens ns ts := by
  induction ns with
  | nil => exact absurd rfl h
  | cons n ns ih =>
    cases ns with
    | nil => exact ⟨_, .one n⟩
    | cons m ns =>
      obtain ⟨ts, hts⟩ := ih (List.cons_ne_nil m ns)
      exact ⟨_, .more n false hts⟩

theorem exists_keyTokens {key : NamePath} (h : key.names ≠ []) : ∃ ts, KeyTokens key ts := by
  obtain ⟨leading, ns⟩ := key
  obtain ⟨ts, hts⟩ := exists_nameTokens h
  cases leading with
  | false => exact ⟨_, .plain hts⟩
  | true => exact ⟨_, .rooted false hts⟩

theorem exists_formTokens (form : OptionForm) : ∃ ts, FormTokens form ts := by
  cases form with
  | flag => exact ⟨_, .flag⟩
  | assigned value h => exact ⟨_, .assigned false h⟩
  | list d inner => exact ⟨_, .list d inner⟩

/-- All options can be written. -/
theorem exists_optionTokens (os : List FieldOption) : ∃ ts, OptionTokens os ts := by
  induction os with
  | nil => exact ⟨[], .nil⟩
  | cons o os ih =>
    obtain ⟨ks, hk⟩ := exists_keyTokens o.named
    obtain ⟨fs, hf⟩ := exists_formTokens o.form
    obtain ⟨ts, hts⟩ := ih
    exact ⟨_, .cons hk hf false hts⟩

theorem exists_holdsOptions (groups : List (List FieldOption)) :
    ∃ attributes, HoldsOptions attributes groups := by
  induction groups with
  | nil => exact ⟨[], .nil⟩
  | cons os groups ih =>
    obtain ⟨ts, hts⟩ := exists_optionTokens os
    obtain ⟨attributes, h⟩ := ih
    exact ⟨⟨⟨false, ["serde"]⟩, .list ts, ""⟩ :: attributes, .cons hts h⟩

/-- An option in an attribute of its own is heard. -/
theorem flatMap_heard_singletons (os : List FieldOption) :
    (os.map fun o => [o]).flatMap heard = os := by
  have hone (o : FieldOption) : heard [o] = [o] := by
    rw [heard, heard, ite_self]
  rw [List.flatMap_map, List.flatMap_congr fun o _ => hone o, List.flatMap_singleton']

/-- Options of which one can hide another one have arrangements that do not say the same: apart from
one another all are heard, together only the one that hides the others. -/
theorem exists_arrangements (hone : (os.filter FieldOption.isRename).length ≤ 1)
    (h : CanHide os) :
    ∃ apart together, Arranges apart os ∧ Arranges together os ∧
      ¬(isOmitted apart = isOmitted together ∧ rename? apart = rename? together) := by
  obtain ⟨l, hl, hlist, o, ho, hhidden⟩ := h
  obtain ⟨before, after, hos⟩ := List.append_of_mem hl
  have hperm : ([l :: (before ++ after)] : List (List FieldOption)).flatten.Perm os := by
    rw [List.flatten_singleton, hos]
    exact List.perm_middle.symm
  have hflat : (os.map fun o => [o]).flatten = os := by
    rw [← List.flatMap_def, List.flatMap_singleton']
  obtain ⟨apart, hapart⟩ := exists_holdsOptions (os.map fun o => [o])
  obtain ⟨together, htogether⟩ := exists_holdsOptions [l :: (before ++ after)]
  have hheard : [l :: (before ++ after)].flatMap heard = [l] := by
    rw [List.flatMap_singleton, heard, if_pos hlist]
  refine ⟨apart, together, ⟨_, hapart, .of_eq hflat⟩, ⟨_, htogether, hperm⟩, ?_⟩
  rintro ⟨homitted, hrename⟩
  rcases hhidden with ⟨hout, hkeep⟩ | hname
  · rw [isOmitted_eq hapart, isOmitted_eq htogether, flatMap_heard_singletons, hheard,
      List.any_eq_true.2 ⟨o, ho, hout⟩, List.any_cons, hkeep] at homitted
    exact Bool.false_ne_true homitted.symm
  · obtain ⟨name, hname⟩ := Option.isSome_iff_exists.1 hname
    have hmem : name ∈ os.filterMap FieldOption.newName? := List.mem_filterMap.2 ⟨o, ho, hname⟩
    rw [rename?_eq hapart (by rwa [hflat]),
      rename?_eq htogether ((hperm.filter FieldOption.isRename).length_eq ▸ hone),
      flatMap_heard_singletons, hheard,
      List.filterMap_cons_none (FieldOption.newName?_of_isList hlist)] at hrename
    rw [List.getLast?_eq_none_iff.1 hrename] at hmem
    exact List.not_mem_nil hmem

/-- With one renaming at most, the options of a field say the same in whatever order and in whatever
number of attributes they stand, exactly when no option with arguments can hide another one; and then
all of them are heard. -/
theorem options_any_order_iff (os : List FieldOption)
    (hone : (os.filter FieldOption.isRename).length ≤ 1) :
    ((∀ attributes attributes', Arranges attributes os → Arranges attributes' os →
      isOmitted attributes = isOmitted attributes' ∧ rename? attributes = rename? attributes') ↔
        ¬CanHide os) ∧
    (¬CanHide os → ∀ attributes, Arranges attributes os →
      isOmitted attributes = os.any FieldOption.leavesOut ∧
      rename? attributes = os.findSome? FieldOption.newName?) := by
  have hsaid (hhide : ¬CanHide os) (attributes : List MetaItem) (h : Arranges attributes os) :
      isOmitted attributes = os.any FieldOption.leavesOut ∧
        rename? attributes = os.findSome? FieldOption.newName? := by
    obtain ⟨groups, hholds, hperm⟩ := h
    exact ⟨isOmitted_of_not_canHide hhide hholds hperm,
      rename?_of_not_canHide hone hhide hholds hperm⟩
  refine ⟨⟨fun hsame hhide => ?_, fun hhide attributes attributes' h h' => ?_⟩, hsaid⟩
  · obtain ⟨_, _, h, h', hne⟩ := exists_arrangements hone hhide
    exact hne (hsame _ _ h h')
  · obtain ⟨homitted, hrename⟩ := hsaid hhide attributes h
    obtain ⟨homitted', hrename'⟩ := hsaid hhide attributes' h'
    exact ⟨homitted.trans homitted'.symm, hrename.trans hrename'.symm⟩

/-- The option `rename = "nonce"`. -/
def nonceRename : FieldOption :=
  .assigned "rename" (.plain (.str "nonce") "\"nonce\"")

/-- The option `skip`. -/
def nonceSkip : FieldOption :=
  .flag "skip"

/-- The tokens of the first of these. -/
def nonceName : List Token :=
  [.ident "rename", .punct '=' false, .literal (.str "nonce") "\"nonce\""]

/-- An attribute of options. -/
def optionAttribute (arguments : List Token) : MetaItem :=
  ⟨⟨false, ["serde"]⟩, .list arguments, ""⟩

/-- The options stand the other way round in one attribute, or each in its own. -/
theorem options_any_order_iff_nonce :
    ([nonceRename, nonceSkip].filter FieldOption.isRename).length ≤ 1 ∧ ¬CanHide [nonceRename, nonceSkip] ∧
    isOmitted [optionAttribute (.ident "skip" :: .punct ',' false :: nonceName)] = true ∧
    rename? [optionAttribute nonceName, optionAttribute [.ident "skip"]] = some "nonce" := by
  have hone : ([nonceRename, nonceSkip].filter FieldOption.isRename).length ≤ 1 := by decide
  have hhide : ¬CanHide [nonceRename, nonceSkip] := by
    rintro ⟨l, hl, hlist, -⟩
    have hplain : ∀ o ∈ [nonceRename, nonceSkip], o.isList = false := by decide
    exact Bool.false_ne_true ((hplain l hl).symm.trans hlist)
  have hrename : KeyTokens nonceRename.key [.ident "rename"] := .plain (.one _)
  have hskip : KeyTokens nonceSkip.key [.ident "skip"] := .plain (.one _)
  have hvalue : FormTokens nonceRename.form nonceName.tail := .assigned false (.plain _ _)
  have hflag : FormTokens nonceSkip.form [] := .flag
  have hname : OptionTokens [nonceRename] nonceName := .last hrename hvalue
  have hboth : OptionTokens [nonceSkip, nonceRename] (.ident "skip" :: .punct ',' false :: nonceName) :=
    .cons hskip hflag false hname
  have htogether : HoldsOptions [optionAttribute (.ident "skip" :: .punct ',' false :: nonceName)]
      [[nonceSkip, nonceRename]] := List.Forall₂.cons hboth .nil
  have hapart : HoldsOptions [optionAttribute nonceName, optionAttribute [.ident "skip"]]
      [[nonceRename], [nonceSkip]] :=
    List.Forall₂.cons hname (.cons (OptionTokens.last hskip hflag) .nil)
  obtain ⟨-, hsaid⟩ := options_any_order_iff [nonceRename, nonceSkip] hone
  exact ⟨hone, hhide, (hsaid hhide _ ⟨_, htogether, .swap _ _ _⟩).1,
    (hsaid hhide _ ⟨_, hapart, .refl _⟩).2⟩

/-- An option with arguments hides that the field is left out, when it stands before. -/
theorem omission_hidden :
    Record.readAll "pub struct A \x7b #[serde(rename(serialize = \"x\"), skip)] pub a: u8 \x7d" =
      [.found ⟨"A", [], [⟨"a", .scalar "u8", [], none⟩]⟩] ∧
    Record.readAll "pub struct A \x7b #[serde(skip, rename(serialize = \"x\"))] pub a: u8 \x7d" =
      [.found ⟨"A", [], []⟩] := by
  decide +kernel

end RpcBindings.Schema
