import RpcBindings.Proofs.Rust.LiteralExpr
import RpcBindings.Schema.Annotation

/-!
Options of fields.

The options of an attribute are read one after another. A flag or a literal after `=` is read to its
end; arguments between delimiters are left unread, so the options behind them are not heard. Main
statements: what the options of a field's attributes say about leaving it out and about its name, by
the options that are heard (`isOmitted_eq`, `rename?_eq`).
-/

namespace RpcBindings.Schema

open Rust RpcBindings.Rust.Parser

/-! ## Options and their tokens -/

/-- What follows the key of an option. -/
inductive OptionForm where
  | flag
  /-- A literal after `=`. -/
  | assigned (value : List Token) (isLiteral : IsLiteral value)
  /-- Arguments between delimiters. -/
  | list (delimiter : Delimiter) (inner : List Token)

/-- An option of a field. -/
structure FieldOption where
  key : NamePath
  form : OptionForm
  /-- The key has a name. -/
  named : key.names ≠ []

theorem names_ne_nil_of_single (name : String) : (NamePath.mk false [name]).names ≠ [] :=
  List.cons_ne_nil name []

namespace FieldOption

/-- The option that is a name alone. -/
def flag (name : String) : FieldOption :=
  ⟨⟨false, [name]⟩, .flag, names_ne_nil_of_single name⟩

/-- The option that gives a name a literal. -/
def assigned (name : String) {value : List Token} (h : IsLiteral value) : FieldOption :=
  ⟨⟨false, [name]⟩, .assigned value h, names_ne_nil_of_single name⟩

end FieldOption

/-- The tokens of names with `::` between them. -/
inductive NameTokens : List String → List Token → Prop where
  | one (n : String) : NameTokens [n] [.ident n]
  | more (n : String) (joint : Bool) {ns : List String} {ts : List Token} (h : NameTokens ns ts) :
      NameTokens (n :: ns) (.ident n :: .punct ':' true :: .punct ':' joint :: ts)

/-- The tokens of a key. -/
inductive KeyTokens : NamePath → List Token → Prop where
  | plain {ns : List String} {ts : List Token} (h : NameTokens ns ts) : KeyTokens ⟨false, ns⟩ ts
  | rooted (joint : Bool) {ns : List String} {ts : List Token} (h : NameTokens ns ts) :
      KeyTokens ⟨true, ns⟩ (.punct ':' true :: .punct ':' joint :: ts)

/-- The tokens behind the key of an option. -/
inductive FormTokens : OptionForm → List Token → Prop where
  | flag : FormTokens .flag []
  | assigned (joint : Bool) {value : List Token} (h : IsLiteral value) :
      FormTokens (.assigned value h) (.punct '=' joint :: value)
  | list (d : Delimiter) (inner : List Token) : FormTokens (.list d inner) [.group d inner]

/-- The tokens of options with commas between them; a comma may follow the last. -/
inductive OptionTokens : List FieldOption → List Token → Prop where
  | nil : OptionTokens [] []
  | last {o : FieldOption} {ks fs : List Token} (hk : KeyTokens o.key ks)
      (hf : FormTokens o.form fs) : OptionTokens [o] (ks ++ fs)
  | cons {o : FieldOption} {os : List FieldOption} {ks fs ts : List Token}
      (hk : KeyTokens o.key ks) (hf : FormTokens o.form fs) (joint : Bool)
      (h : OptionTokens os ts) : OptionTokens (o :: os) (ks ++ fs ++ .punct ',' joint :: ts)

/-- The attributes hold the options of each group, one group after another. -/
def HoldsOptions (attributes : List MetaItem) (groups : List (List FieldOption)) : Prop :=
  List.Forall₂ OptionTokens groups (argumentsOf "serde" attributes)

namespace OptionForm

def isFlag : OptionForm → Bool
  | flag => true
  | _ => false

def isAssigned : OptionForm → Bool
  | assigned _ _ => true
  | _ => false

def isList : OptionForm → Bool
  | list _ _ => true
  | _ => false

/-- The string after `=`. -/
def string? : OptionForm → Option String
  | assigned [.literal (.str s) _] _ => some s
  | _ => none

theorem isAssigned_of_string? {form : OptionForm} {s : String} (h : form.string? = some s) :
    form.isAssigned = true := by
  cases form with
  | assigned value isLiteral => rfl
  | flag => exact absurd h nofun
  | list d inner => exact absurd h nofun

end OptionForm

namespace FieldOption

/-- Whether the option has arguments between delimiters. -/
def isList (o : FieldOption) : Bool :=
  o.form.isList

/-- Whether the option leaves its field out. -/
def leavesOut (o : FieldOption) : Bool :=
  Schema.leavesOut o.key

/-- Whether the option gives its field a name by a literal. -/
def isRename (o : FieldOption) : Bool :=
  o.key.isName "rename" && o.form.isAssigned

/-- The name that the option gives its field, when it is a string. -/
def newName? (o : FieldOption) : Option String :=
  if o.key.isName "rename" then o.form.string? else none

theorem isRename_of_newName? {o : FieldOption} {name : String} (h : o.newName? = some name) :
    o.isRename = true := by
  unfold newName? at h
  split at h
  · exact Bool.and_eq_true_iff.2 ⟨‹_›, OptionForm.isAssigned_of_string? h⟩
  · exact absurd h nofun

theorem newName?_of_isList {o : FieldOption} (h : o.isList = true) : o.newName? = none := by
  refine Option.eq_none_iff_forall_ne_some.2 fun name hname => ?_
  have hassigned := (Bool.and_eq_true_iff.1 (isRename_of_newName? hname)).2
  unfold isList at h
  cases hform : o.form <;> rw [hform] at h hassigned
  · exact Bool.false_ne_true h
  · exact Bool.false_ne_true h
  · exact Bool.false_ne_true hassigned

end FieldOption

/-- The options of one attribute that are heard: those up to the first with arguments. -/
def heard : List FieldOption → List FieldOption
  | [] => []
  | o :: os => if o.isList then [o] else o :: heard os

theorem heard_eq_self {os : List FieldOption} (h : ∀ o ∈ os, o.isList = false) : heard os = os := by
  induction os with
  | nil => rfl
  | cons o os ih =>
    rw [heard, h o List.mem_cons_self, if_neg Bool.false_ne_true,
      ih fun p hp => h p (List.mem_cons_of_mem o hp)]

theorem flatMap_heard_of_not_isList {groups : List (List FieldOption)}
    (h : ∀ o ∈ groups.flatten, o.isList = false) :
    groups.flatMap heard = groups.flatten := by
  have hall : ∀ group ∈ groups, heard group = group := fun group hgroup =>
    heard_eq_self fun o ho => h o (List.mem_flatten.2 ⟨group, hgroup, ho⟩)
  rw [List.flatMap_congr hall, List.flatMap_id']

theorem heard_sublist {os : List FieldOption} : (heard os).Sublist os := by
  induction os with
  | nil => exact .slnil
  | cons o os ih =>
    rw [heard]
    split
    · exact .cons_cons o (List.nil_sublist os)
    · exact .cons_cons o ih

/-! ## Reading a key -/

section Reading

variable {ts fs rest : List Token} {os : List FieldOption} {g : Grammar}

theorem steps_names {ns : List String} {n : String} (h : NameTokens (n :: ns) ts)
    (hrest : atPunct "::" rest = false) :
    ∃ more, ts = .ident n :: more ∧
      Steps (whenAt (atPunct "::") (some <$> (do
        let _ ← punct "::"
        ident)) none) ⟨more ++ rest, false⟩ ns ⟨rest, false⟩ ∧ ns.length ≤ more.length := by
  induction ns generalizing n ts with
  | nil =>
    cases h with
    | one n => exact ⟨[], rfl, steps_of_not hrest, Nat.le_refl _⟩
    | more n joint h => cases h
  | cons m ns ih =>
    cases h with
    | more n joint h =>
      obtain ⟨more, rfl, hsteps, hlength⟩ := ih h
      refine ⟨_, rfl, .more (step_of_test rfl rfl) hsteps, ?_⟩
      simp only [List.length_cons]
      omega

/-- A key is read to its end. -/
theorem optionPath_key {key : NamePath} (h : KeyTokens key ts) (hrest : atPunct "::" rest = false) :
    optionPath ⟨ts ++ rest, false⟩ = some (key, ⟨rest, false⟩) := by
  have hnames {ns : List String} {ts : List Token} (h : NameTokens ns ts) :
      ∃ n ms more, ns = n :: ms ∧ ts = .ident n :: more ∧
        many (atPunct "::") (do
          let _ ← punct "::"
          ident) ⟨more ++ rest, false⟩ = some (ms, ⟨rest, false⟩) := by
    cases ns with
    | nil => cases h
    | cons n ms =>
      obtain ⟨more, hts, hsteps, hlength⟩ := steps_names h hrest
      refine ⟨n, ms, more, rfl, hts, many_of_steps hsteps (hlength.trans ?_)⟩
      simp only [List.length_append]
      omega
  unfold optionPath
  cases h with
  | plain h =>
    obtain ⟨n, ms, more, rfl, rfl, hmany⟩ := hnames h
    rw [bind_apply, optPunct_of_not (atPunct_ident rfl), Option.bind_some, bind_apply,
      show ident ⟨.ident n :: more ++ rest, false⟩ = some (n, ⟨more ++ rest, false⟩) from rfl,
      Option.bind_some, bind_apply, hmany]
    rfl
  | rooted joint h =>
    obtain ⟨n, ms, more, rfl, rfl, hmany⟩ := hnames h
    have hcolons : optPunct "::" ⟨.punct ':' true :: .punct ':' joint :: .ident n :: more ++ rest,
        false⟩ = some ("::", ⟨.ident n :: (more ++ rest), false⟩) := rfl
    rw [bind_apply, hcolons, Option.bind_some, bind_apply,
      show ident ⟨.ident n :: (more ++ rest), false⟩ = some (n, ⟨more ++ rest, false⟩) from rfl,
      Option.bind_some, bind_apply, hmany]
    rfl

/-- The tokens behind a key do not go on with it. -/
theorem atPunct_form {form : OptionForm} (h : FormTokens form fs) (hrest : EndsElement rest) :
    atPunct "::" (fs ++ rest) = false := by
  cases h with
  | flag => exact hrest.atPunct rfl (by decide)
  | assigned joint h => rfl
  | list d inner => rfl

/-- No comma stands directly behind the key of an option that is no flag. -/
theorem punct_form {form : OptionForm} (h : FormTokens form fs) (hform : form ≠ .flag) :
    punct "," ⟨fs ++ rest, false⟩ = none := by
  cases h with
  | flag => exact absurd rfl hform
  | assigned joint h => rfl
  | list d inner => rfl

theorem KeyTokens.ne_nil {key : NamePath} (h : KeyTokens key ts) : ts ≠ [] := by
  cases h with
  | plain h => cases h <;> exact List.cons_ne_nil _ _
  | rooted joint h => exact List.cons_ne_nil _ _

/-! ## Reading options -/

/-- What a parser of values makes of options: what it gives and whether it leaves the tokens behind the
key, unless it fails. -/
abbrev OptionReading (α : Type) := FieldOption → Option (α × Bool)

/-- The options of an attribute that are taken, with what is given for each. -/
def taken {α : Type} (read : OptionReading α) : List FieldOption → List (NamePath × α)
  | [] => []
  | o :: os =>
    match read o with
    | none => []
    | some (a, true) => [(o.key, a)]
    | some (a, false) => (o.key, a) :: taken read os

/-- A parser of values reads options in this way. Of a flag nothing is left. -/
structure ReadsOptions {α : Type} (value : NamePath → Parser α) (read : OptionReading α) :
    Prop where
  apply : ∀ (o : FieldOption) {fs rest : List Token}, FormTokens o.form fs → EndsElement rest →
    value o.key ⟨fs ++ rest, false⟩ =
      (read o).map fun r => (r.1, ⟨if r.2 then fs ++ rest else rest, false⟩)
  flag : ∀ (o : FieldOption) (a : α), read o = some (a, true) → o.form ≠ .flag

/-- One option is taken, and the others if its tokens are, too. -/
theorem optionsFrom_succ {α : Type} {value : NamePath → Parser α} {read : OptionReading α}
    (hvalue : ReadsOptions value read) {o : FieldOption} {ks : List Token}
    (hk : KeyTokens o.key ks) (hf : FormTokens o.form fs) (hrest : EndsElement rest) (fuel : Nat) :
    optionsFrom value (fuel + 1) ⟨ks ++ fs ++ rest, false⟩ =
      match read o with
      | none => []
      | some (a, true) => [(o.key, a)]
      | some (a, false) =>
        match punct "," ⟨rest, false⟩ with
        | none => [(o.key, a)]
        | some (_, later) =>
          if later.tokens.isEmpty then [(o.key, a)]
          else (o.key, a) :: optionsFrom value fuel later := by
  have hkey := optionPath_key hk (atPunct_form hf hrest)
  have hentry : (do
      let path ← optionPath
      return (path, ← value path) : Parser (NamePath × α)) ⟨ks ++ fs ++ rest, false⟩ =
        (read o).map fun r => ((o.key, r.1), ⟨if r.2 then fs ++ rest else rest, false⟩) := by
    rw [List.append_assoc, bind_apply, hkey, Option.bind_some]
    dsimp only
    rw [bind_apply, hvalue.apply o hf hrest]
    cases read o <;> rfl
  rw [optionsFrom, hentry]
  cases hread : read o with
  | none => rfl
  | some r =>
    obtain ⟨a, halts⟩ := r
    cases halts with
    | false => rfl
    | true =>
      have hcomma : punct "," ⟨fs ++ rest, false⟩ = none := punct_form hf (hvalue.flag o a hread)
      show (match punct "," ⟨fs ++ rest, false⟩ with
        | none => [(o.key, a)]
        | some (_, later) =>
          if later.tokens.isEmpty then [(o.key, a)]
          else (o.key, a) :: optionsFrom value fuel later) = _
      rw [hcomma]

theorem OptionTokens.eq_nil (h : OptionTokens os []) : os = [] := by
  generalize hts : ([] : List Token) = ts at h
  cases h with
  | nil => rfl
  | last hk hf => exact absurd (List.append_eq_nil_iff.1 hts.symm).1 hk.ne_nil
  | cons hk hf joint h => exact absurd (List.append_eq_nil_iff.1 hts.symm).2 (List.cons_ne_nil _ _)

/-- The options of an attribute are taken one after another, as long as their tokens are. -/
theorem optionsFrom_eq {α : Type} {value : NamePath → Parser α} {read : OptionReading α}
    (hvalue : ReadsOptions value read) (h : OptionTokens os ts) {fuel : Nat}
    (hfuel : ts.length ≤ fuel) (hne : ts ≠ []) :
    optionsFrom value fuel ⟨ts, false⟩ = taken read os := by
  induction h generalizing fuel with
  | nil => exact absurd rfl hne
  | last hk hf =>
    obtain ⟨fuel, rfl⟩ := Nat.exists_eq_add_of_le' (Nat.lt_of_lt_of_le (List.length_pos_iff.2 hne) hfuel)
    have hlast := optionsFrom_succ hvalue hk hf endsElement_nil fuel
    rw [List.append_nil] at hlast
    rw [Nat.succ_eq_add_one, Nat.zero_add, hlast, taken]
    split <;> rfl
  | @cons o os ks fs ts hk hf joint h ih =>
    obtain ⟨fuel, rfl⟩ := Nat.exists_eq_add_of_le' (Nat.lt_of_lt_of_le (List.length_pos_iff.2 hne) hfuel)
    have hmore := optionsFrom_succ hvalue hk hf (endsElement_comma joint ts) fuel
    rw [Nat.succ_eq_add_one, Nat.zero_add, hmore, taken]
    have hcomma : punct "," ⟨.punct ',' joint :: ts, false⟩ = some (",", ⟨ts, false⟩) := rfl
    rw [hcomma]
    split
    · rfl
    · rfl
    · dsimp only
      cases hts : ts.isEmpty with
      | true =>
        obtain rfl := List.isEmpty_iff.1 hts
        rw [OptionTokens.eq_nil h]
        rfl
      | false =>
        rw [if_neg Bool.false_ne_true, ih ?_ (List.isEmpty_eq_false_iff.1 hts)]
        simp only [List.length_append, List.length_cons] at hfuel
        omega

end Reading

/-! ## What options say -/

section Values

variable {fs rest : List Token} {g : Grammar}

/-- A value is skipped, unless it stands between delimiters. -/
theorem skipValue_form {form : OptionForm} (h : FormTokens form fs) (hrest : EndsElement rest) :
    skipValue g.deepen.deepen.deepen ⟨fs ++ rest, false⟩ =
      some ((), ⟨if form.isList then fs ++ rest else rest, false⟩) := by
  unfold skipValue
  rw [whenAt_apply]
  cases h with
  | flag =>
    rw [List.nil_append, if_neg (by rw [hrest.atPunct rfl (by decide)]; exact Bool.false_ne_true)]
    rfl
  | list d inner => rfl
  | @assigned joint value h =>
    obtain ⟨e, he⟩ : ∃ e, g.deepen.deepen.deepen.expr true ⟨value ++ rest, false⟩ =
        some (e, ⟨rest, false⟩) := expr_literal h hrest
    have hequals : punct "=" ⟨.punct '=' joint :: value ++ rest, false⟩ =
        some ("=", ⟨value ++ rest, false⟩) := rfl
    rw [if_pos (show atPunct "=" (.punct '=' joint :: value ++ rest) = true from rfl), bind_apply,
      hequals, Option.bind_some, bind_apply, he]
    rfl

/-- An option that leaves its field out has no value; the value of any other is skipped. -/
def omissionReading : OptionReading Unit := fun o =>
  some ((), if o.leavesOut then !o.form.isFlag else o.isList)

theorem readsOptions_omission :
    ReadsOptions (omissionValue g.deepen.deepen.deepen) omissionReading where
  apply o fs rest hf hrest := by
    unfold omissionValue omissionReading FieldOption.leavesOut
    split
    · cases hform : o.form with
      | flag =>
        rw [hform] at hf
        cases hf
        rfl
      | assigned value h => rfl
      | list d inner => rfl
    · exact skipValue_form hf hrest
  flag o a hread hform := by
    have hhalts := congrArg Prod.snd (Option.some.inj hread)
    dsimp only [FieldOption.isList] at hhalts
    rw [hform] at hhalts
    split at hhalts <;> exact Bool.false_ne_true hhalts

/-- A field is named by a string; any other value of `rename` is refused. -/
def renameReading : OptionReading (Option String) := fun o =>
  if o.isRename && o.newName?.isNone then none else some (o.newName?, o.isList)

/-- What stands behind `=` is a string or is refused as one. -/
theorem stringLiteral_value {value : List Token} (h : IsLiteral value) :
    stringLiteral ⟨value ++ rest, false⟩ =
      (OptionForm.assigned value h).string?.map fun s => (s, ⟨rest, false⟩) := by
  cases h with
  | plain kind text => cases kind <;> rfl
  | truth h => rfl
  | negative joint h text => rfl

theorem readsOptions_rename : ReadsOptions (renameValue g.deepen.deepen.deepen) renameReading where
  apply o fs rest hf hrest := by
    unfold renameValue renameReading FieldOption.isRename FieldOption.newName?
    cases hname : o.key.isName "rename" with
    | false =>
      rw [if_neg Bool.false_ne_true, bind_apply, skipValue_form hf hrest]
      rfl
    | true =>
      rw [if_pos rfl, whenAt_apply]
      unfold FieldOption.isList
      generalize o.form = form at hf ⊢
      cases hf with
      | flag =>
        rw [List.nil_append,
          if_neg (by rw [hrest.atPunct rfl (by decide)]; exact Bool.false_ne_true)]
        rfl
      | list d inner => rfl
      | @assigned joint value h =>
        have hequals : punct "=" ⟨.punct '=' joint :: value ++ rest, false⟩ =
            some ("=", ⟨value ++ rest, false⟩) := rfl
        rw [if_pos (show atPunct "=" (.punct '=' joint :: value ++ rest) = true from rfl),
          bind_apply, hequals, Option.bind_some, bind_apply, stringLiteral_value h]
        cases hstring : (OptionForm.assigned value h).string? with
        | none => rfl
        | some s => rfl
  flag o a hread hform := by
    unfold renameReading FieldOption.isList at hread
    rw [hform] at hread
    split at hread
    · exact absurd hread nofun
    · exact absurd (congrArg Prod.snd (Option.some.inj hread)) Bool.false_ne_true

end Values

/-- The options of a field, as a parser of values takes them. -/
theorem options_eq {α : Type} {value : Grammar → NamePath → Parser α} {read : OptionReading α}
    (hvalue : ∀ g : Grammar, ReadsOptions (value g.deepen.deepen.deepen) read)
    {attributes : List MetaItem} {groups : List (List FieldOption)}
    (h : HoldsOptions attributes groups) :
    options "serde" value attributes = groups.flatMap (taken read) := by
  have hone {os : List FieldOption} {ts : List Token} (hts : OptionTokens os ts) :
      optionsFrom (value (.ofDepth (depthBound ts))) ts.length ⟨ts, false⟩ = taken read os := by
    cases hempty : ts.isEmpty with
    | true =>
      obtain rfl := List.isEmpty_iff.1 hempty
      rw [hts.eq_nil]
      rfl
    | false =>
      have hdepth : Grammar.ofDepth (depthBound ts) =
          (Grammar.ofDepth (4 * weight ts + 5)).deepen.deepen.deepen := rfl
      rw [hdepth]
      exact optionsFrom_eq (hvalue _) hts (Nat.le_refl _) (List.isEmpty_eq_false_iff.1 hempty)
  unfold options
  unfold HoldsOptions at h
  generalize argumentsOf "serde" attributes = arguments at h
  induction h with
  | nil => rfl
  | cons hts _ ih => rw [List.flatMap_cons, List.flatMap_cons, hone hts, ih]

/-- The options that are taken leave the field out iff one that is heard does. -/
theorem any_taken_omission (os : List FieldOption) :
    (taken omissionReading os).any (fun entry => Schema.leavesOut entry.1) =
      (heard os).any FieldOption.leavesOut := by
  induction os with
  | nil => rfl
  | cons o os ih =>
    have hkey : Schema.leavesOut o.key = o.leavesOut := rfl
    have hread : omissionReading o =
      some ((), if o.leavesOut then !o.form.isFlag else o.isList) := rfl
    rw [taken, heard, hread]
    cases hout : o.leavesOut with
    | true =>
      rw [if_pos rfl]
      cases o.form.isFlag <;> cases o.isList <;> simp [hkey, hout]
    | false =>
      rw [if_neg Bool.false_ne_true]
      cases o.isList with
      | true => simp [hkey, hout]
      | false => simpa [hkey, hout] using ih

/-- With one renaming at most, the names that are given are those of the options that are heard. -/
theorem filterMap_taken_rename {os : List FieldOption}
    (h : (os.filter FieldOption.isRename).length ≤ 1) :
    (taken renameReading os).filterMap (·.2) = (heard os).filterMap FieldOption.newName? := by
  induction os with
  | nil => rfl
  | cons o os ih =>
    have hlater := ih (Nat.le_trans ((List.sublist_cons_self o os).filter _).length_le h)
    rw [taken, heard]
    have hread : renameReading o =
      if o.isRename && o.newName?.isNone then none else some (o.newName?, o.isList) := rfl
    cases hrefused : o.isRename && o.newName?.isNone with
    | false =>
      rw [hread, hrefused, if_neg Bool.false_ne_true]
      cases hlist : o.isList with
      | true =>
        have hnone := FieldOption.newName?_of_isList hlist
        simp [hnone]
      | false => cases hname : o.newName? <;> simp [hname, hlater]
    | true =>
      -- a renaming that is refused is the only one, so no name is lost behind it
      obtain ⟨hrename, hnone⟩ := Bool.and_eq_true_iff.1 hrefused
      rw [List.filter_cons_of_pos hrename, List.length_cons] at h
      have hothers : os.filter FieldOption.isRename = [] :=
        List.eq_nil_of_length_eq_zero (by omega)
      have hheard : (heard os).filterMap FieldOption.newName? = [] := by
        refine List.filterMap_eq_nil_iff.2 fun p hp => ?_
        refine Option.eq_none_iff_forall_ne_some.2 fun name hname => ?_
        exact List.filter_eq_nil_iff.1 hothers p (heard_sublist.subset hp)
          (FieldOption.isRename_of_newName? hname)
      rw [hread, hrefused, if_pos rfl]
      cases o.isList <;> simp [Option.isNone_iff_eq_none.1 hnone, hheard]

variable {attributes : List MetaItem} {groups : List (List FieldOption)}

/-- A field is left out iff an option that is heard leaves it out. -/
theorem isOmitted_eq (h : HoldsOptions attributes groups) :
    isOmitted attributes = (groups.flatMap heard).any FieldOption.leavesOut := by
  unfold isOmitted
  rw [options_eq (fun _ => readsOptions_omission) h, List.any_flatMap, List.any_flatMap]
  simp only [any_taken_omission]

/-- With one renaming at most, a field has the name that an option gives it that is heard. -/
theorem rename?_eq (h : HoldsOptions attributes groups)
    (hone : (groups.flatten.filter FieldOption.isRename).length ≤ 1) :
    rename? attributes = ((groups.flatMap heard).filterMap FieldOption.newName?).getLast? := by
  have hgroup : ∀ os ∈ groups, (taken renameReading os).filterMap (·.2) =
      (heard os).filterMap FieldOption.newName? := fun os hos =>
    filterMap_taken_rename
      (Nat.le_trans ((List.sublist_flatten_of_mem hos).filter _).length_le hone)
  unfold rename?
  rw [options_eq (fun _ => readsOptions_rename) h, List.filterMap_flatMap, List.filterMap_flatMap,
    List.flatMap_congr hgroup]

end RpcBindings.Schema
