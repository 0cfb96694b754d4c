import RpcBindings.Go.Stub
import RpcBindings.Proofs.Client.MethodReading
import RpcBindings.Proofs.Go.Header
import RpcBindings.Settings.Fault

/-!
Client stubs as the reader of client files sees them.

The stub of a method is the text of a synchronous method, below its comment (`toList_stubText`), and
what the reader asks of such a text holds of it (`wf_stubMethod`). The constructor of the client type
is a function without a receiver (`constructor`).
-/

namespace RpcBindings

open Masked

/-! ## Settings without a fault -/

theorem Settings.isIdentifier_of_faultUnless {name : String} {fault : SettingsFault}
    (h : faultUnlessIdentifier name fault = none) : Go.isIdentifier name = true := by
  unfold faultUnlessIdentifier at h
  split at h
  · assumption
  · exact absurd h (by simp)

/-- The names of settings without a fault that stubs are made from, and that clients are read by. -/
structure Settings.Names (s : Settings) : Prop where
  package : Go.isIdentifier s.client.package = true
  receiver : Go.isIdentifier s.client.receiver = true
  coreField : Go.isIdentifier s.client.coreField = true
  invoke : Go.isIdentifier s.client.invoke = true
  primitives : ∀ p ∈ s.bulk.primitives, Go.isIdentifier p = true

theorem Settings.names_of_fault? {s : Settings} (h : s.fault? = none) : s.Names := by
  unfold fault? at h
  simp only [Option.or_eq_none_iff] at h
  obtain ⟨hpackage, -, -, -, hprimitives, hreceiver, hcore, hinvoke, -⟩ := h
  refine ⟨isIdentifier_of_faultUnless hpackage, isIdentifier_of_faultUnless hreceiver,
    isIdentifier_of_faultUnless hcore, isIdentifier_of_faultUnless hinvoke, fun p hp => ?_⟩
  unfold primitivesFault? at hprimitives
  split at hprimitives
  · exact absurd hprimitives (by simp)
  · exact isIdentifier_of_faultUnless (List.findSome?_eq_none_iff.1 hprimitives p hp)

namespace Go

/-! ## Stubs -/

/-- The text of a type that a stub can be read back with. -/
structure PlainType (type : List Char) : Prop where
  bare : isBare type = true
  balanced : WellNested (Text.bytes type)
  one_type : topLevelOffset ','.toUInt8 0 (Text.bytes type) = none
  not_blank : Text.allBlank type = false

instance (type : List Char) : Decidable (PlainType type) :=
  decidable_of_iff (isBare type = true ∧ WellNested (Text.bytes type) ∧
      topLevelOffset ','.toUInt8 0 (Text.bytes type) = none ∧ Text.allBlank type = false)
    ⟨fun ⟨h, hnested, hone, hblank⟩ => ⟨h, hnested, hone, hblank⟩,
      fun ⟨h, hnested, hone, hblank⟩ => ⟨h, hnested, hone, hblank⟩⟩

/-- A method whose stub is what it should be: names are names, and types are types. -/
structure PlainMethod (s : ClientSettings) (table : TypeTable) (m : RpcMethod) : Prop where
  functionName : isIdentifier m.functionName = true
  params : ∀ p ∈ stubParams s table m,
    isIdentifier p.name = true ∧ PlainType p.type.text.toList
  returnType : PlainType (table.resolve m.returnType).text.toList
  wireName : ∀ c ∈ m.wireName.toList, c ≠ '"' ∧ c ≠ '\\' ∧ c ≠ '\n'

instance (s : ClientSettings) (table : TypeTable) (m : RpcMethod) :
    Decidable (PlainMethod s table m) :=
  decidable_of_iff (isIdentifier m.functionName = true ∧
      (∀ p ∈ stubParams s table m, isIdentifier p.name = true ∧ PlainType p.type.text.toList) ∧
      PlainType (table.resolve m.returnType).text.toList ∧
      ∀ c ∈ m.wireName.toList, c ≠ '"' ∧ c ≠ '\\' ∧ c ≠ '\n')
    ⟨fun ⟨hname, hparams, hreturn, hwire⟩ => ⟨hname, hparams, hreturn, hwire⟩,
      fun ⟨hname, hparams, hreturn, hwire⟩ => ⟨hname, hparams, hreturn, hwire⟩⟩

/-- The declarations of the parameters of a stub. -/
def declaredParams (params : List StubParam) : String :=
  ", ".intercalate (params.map fun p => p.name ++ " " ++ p.type.text)

section Stubs

variable (s : ClientSettings) (table : TypeTable) (nspace : String) (m : RpcMethod)

/-- The stub of a method by its parts. -/
def stubMethod : MethodText where
  receiver := s.receiver.toList
  type := (s.typeName nspace).toList
  name := m.functionName.toList
  params := (declaredParams (stubParams s table m)).toList
  result := (stubResult (stubParams s table m)).toList
  resultType := (table.resolve m.returnType).text.toList
  lead := []
  indent := ['\t']
  field := s.coreField.toList
  primitive := s.invoke.toList
  args := quoted m.wireName.toList :: (stubParams s table m).map (·.name.toList)
  trail := []

/-- The comment above a stub, with its line feed. -/
def stubComment : List Char :=
  match m.docComment? with
  | none => []
  | some comment => comment.toList ++ ['\n']

theorem toList_stubText :
    (stubText s table nspace m).toList = stubComment m ++ (stubMethod s table nspace m).text := by
  have hpieces : [','].intercalate (stubMethod s table nspace m).pieces =
      '&' :: (stubResult (stubParams s table m)).toList ++
        (quoted m.wireName.toList :: (stubParams s table m).map (·.name.toList)).flatMap
          (", ".toList ++ ·) :=
    MethodText.intercalate_commas _ _
  have hresults : [','].intercalate (stubMethod s table nspace m).results =
      (stubResult (stubParams s table m)).toList ++ ' ' ::
        ((table.resolve m.returnType).text.toList ++ ", err error".toList) := by
    simp [MethodText.results, stubMethod, List.intercalate]
  unfold stubText stubComment MethodText.text MethodText.afterName MethodText.body MethodText.call
  rw [hpieces, hresults]
  cases m.docComment? <;>
    simp [MethodText.receiverText, MethodText.head, MethodText.tail, stubMethod, declaredParams,
      quoted, String.toList_append, List.flatMap_map]

end Stubs

theorem PlainType.lacks {type : List Char} (h : PlainType type) : Lacks ',' type := by
  refine ⟨⟨closed_of_isBare h.bare, ?_⟩, ?_⟩
  · rw [mask_of_isBare h.bare]
    exact h.balanced
  · rw [mask_of_isBare h.bare]
    exact h.one_type

/-- Regular texts between commas are regular. -/
theorem regular_intercalate_comma {ts : List (List Char)} (h : ∀ t ∈ ts, Regular t) :
    Regular ([',', ' '].intercalate ts) := by
  have hcomma : Plain [',', ' '] := by unfold Plain; decide
  induction ts with
  | nil => exact ⟨closed_nil, rfl⟩
  | cons t ts ih =>
    have ht := h t List.mem_cons_self
    have hts := ih fun u hu => h u (List.mem_cons_of_mem t hu)
    cases ts with
    | nil =>
      have : [',', ' '].intercalate [t] = t := by simp [List.intercalate]
      rwa [this]
    | cons u ts =>
      rw [List.intercalate_cons_cons, List.append_assoc]
      exact ht.append (hcomma.regular.append hts fun hslash => absurd hslash hcomma.solid.no_slash)
        fun _ => detached_cons (by decide) (by decide) _

theorem regular_declaredParams {params : List StubParam}
    (h : ∀ p ∈ params, isIdentifier p.name = true ∧ PlainType p.type.text.toList) :
    Regular (declaredParams params).toList := by
  have htext : (declaredParams params).toList =
      [',', ' '].intercalate (params.map fun p => p.name.toList ++ ' ' :: p.type.text.toList) := by
    simp [declaredParams, Function.comp_def, String.toList_append]
  rw [htext]
  refine regular_intercalate_comma fun t ht => ?_
  obtain ⟨p, hp, rfl⟩ := List.mem_map.1 ht
  obtain ⟨hname, htype⟩ := h p hp
  have hplain := (isName_toList hname).plain
  have hspace : Plain [' '] := by unfold Plain; decide
  have hlead := hplain.append hspace
  have := hlead.regular.append htype.lacks.toRegular fun hslash =>
    absurd hslash hlead.solid.no_slash
  rwa [List.append_assoc] at this

/-- The name on the wire is an argument in which nothing is looked for. -/
theorem lacks_quoted {cs : List Char} (h : cs.all isUnquoted = true) : Lacks ',' (quoted cs) := by
  have hplain : ∀ c ∈ '"' :: (cs.flatMap Glyph.blank ++ ['"']), c = ' ' ∨ c = '\n' ∨ c = '"' := by
    intro c hc
    rcases List.mem_cons.1 hc with rfl | hc
    · exact .inr (.inr rfl)
    · rcases List.mem_append.1 hc with hc | hc
      · exact (eq_of_mem_blanks hc).imp id .inl
      · exact .inr (.inr (List.mem_singleton.1 hc))
  have hbytes : ∀ b ∈ Text.bytes ('"' :: (cs.flatMap Glyph.blank ++ ['"'])),
      b = ' '.toUInt8 ∨ b = '\n'.toUInt8 ∨ b = '"'.toUInt8 := by
    intro b hb
    obtain ⟨c, hc, hb⟩ := List.mem_flatMap.1 hb
    rcases hplain c hc with rfl | rfl | rfl
    · exact .inl (List.mem_singleton.1 hb)
    · exact .inr (.inl (List.mem_singleton.1 hb))
    · exact .inr (.inr (List.mem_singleton.1 hb))
  refine ⟨⟨(solid_quoted h).closed, ?_⟩, ?_⟩
  · rw [mask_quoted h]
    refine wellNested_of_all_isPlain (List.all_eq_true.2 fun b hb => ?_)
    rcases hbytes b hb with rfl | rfl | rfl <;> decide
  · rw [mask_quoted h]
    refine topLevelOffset_of_not_mem (fun hmem => ?_) 0
    rcases hbytes _ hmem with heq | heq | heq <;> exact absurd heq (by decide)

/-- A text is quoted when it can be unquoted. -/
theorem unquote?_eq_some_iff {t body : List Char} :
    Text.unquote? t = some body ↔ t = quoted body := by
  constructor
  · intro h
    obtain ⟨rest, hrest, hbody⟩ := Option.bind_eq_some_iff.1 h
    rw [Text.eq_append_of_stripPrefix? hrest, Text.stripSuffix?_eq_some_iff.1 hbody]
    rfl
  · intro h
    rw [h]
    refine Option.bind_eq_some_iff.2 ⟨body ++ ['"'], Text.stripPrefix?_append ['"'] _, ?_⟩
    exact Text.stripSuffix?_eq_some_iff.2 rfl

theorem unquote?_quoted (cs : List Char) : Text.unquote? (quoted cs) = some cs :=
  unquote?_eq_some_iff.2 rfl

theorem trim_quoted (cs : List Char) : Text.trim (quoted cs) = quoted cs := by
  have hstart : Text.trimStart (quoted cs) = quoted cs :=
    @Text.trimStart_append [] '"' rfl (by decide) (cs ++ ['"'])
  have hend : Text.trimEnd ('"' :: cs ++ '"' :: []) = '"' :: cs ++ ['"'] :=
    Text.trimEnd_append rfl (by decide) _
  unfold Text.trim
  rw [hstart]
  exact hend

theorem isIdentifier_stubResult (params : List StubParam) :
    isIdentifier (stubResult params) = true := by
  unfold stubResult
  split <;> decide

/-- The stub of a plain method is the text of a method that is read back. -/
theorem wf_stubMethod {s : Settings} (hs : s.Names) (hinvoke : s.client.invoke ∈ s.bulk.primitives)
    {nspace : String} (htype : isIdentifier (s.client.typeName nspace) = true) {m : RpcMethod}
    (hm : PlainMethod s.client s.typeTable m) :
    (stubMethod s.client s.typeTable nspace m).Wf s.bulk.primitives where
  receiver := isName_toList hs.receiver
  type := isName_toList htype
  name := isName_toList hm.functionName
  result := isName_toList (isIdentifier_stubResult _)
  field := isName_toList hs.coreField
  primitive := by
    show String.ofList s.client.invoke.toList ∈ _
    rw [String.ofList_toList]
    exact hinvoke
  names := hs.primitives
  params := regular_declaredParams hm.params
  resultType := hm.returnType.lacks
  resultType_not_blank := hm.returnType.not_blank
  lead := ⟨closed_nil, rfl⟩
  lead_calls := by
    intro q _
    show Text.findBytes? (callPattern q) [] = none
    rw [Text.findBytes?, if_neg (by simpa using callPattern_ne_nil q)]
  indent := fun c hc => .inr (List.mem_singleton.1 hc)
  args_ne_nil := List.cons_ne_nil _ _
  args := by
    intro a ha
    have hwire : m.wireName.toList.all isUnquoted = true := by
      refine List.all_eq_true.2 fun c hc => ?_
      obtain ⟨hquote, hback, -⟩ := hm.wireName c hc
      unfold isUnquoted
      rw [Bool.and_eq_true, bne_iff_ne, bne_iff_ne]
      exact ⟨hquote, hback⟩
    rcases List.mem_cons.1 ha with rfl | ha
    · refine ⟨lacks_quoted hwire, trim_quoted _, fun hmem => ?_⟩
      rcases List.mem_cons.1 hmem with heq | hmem
      · exact absurd heq (by decide)
      · rcases List.mem_append.1 hmem with hmem | hmem
        · exact (hm.wireName _ hmem).2.2 rfl
        · exact absurd hmem (by decide)
    · obtain ⟨p, hp, rfl⟩ := List.mem_map.1 ha
      have hname := isName_toList (hm.params p hp).1
      refine ⟨hname.plain.lacks (hname.not_mem_bytes (by decide)), Text.trim_of_not_isBlank
        hname.not_isBlank, fun hmem => ?_⟩
      exact hname.ne_of_mem hmem (by decide) rfl
  last_arg := by
    intro a ha
    rcases List.mem_cons.1 (List.mem_of_getLast? ha) with rfl | ha
    · rfl
    · obtain ⟨p, hp, rfl⟩ := List.mem_map.1 ha
      have hname := isName_toList (hm.params p hp).1
      obtain ⟨c, cs, heq, -⟩ := exists_cons_of_isName hname
      have hc := hname.not_isBlank c (heq ▸ List.mem_cons_self)
      rw [hname.mask_eq, heq, Text.allBlank, List.all_cons, hc, Bool.false_and]
  trail := ⟨closed_nil, rfl⟩

/-! ## The client type -/

section ClientType

variable (s : ClientSettings) (nspace : String)

/-- What stands between the keyword of the constructor and the brace of its body. -/
def constructorHead : List Char :=
  ' ' :: (("New".toList ++ (s.typeName nspace).toList) ++
    ('(' :: (s.coreField.toList ++ " *".toList ++ s.coreType.toList ++ [')'])) ++
    ' ' :: ((s.typeName nspace).toList ++ [' ']))

/-- The body of the constructor. -/
def constructorBody : List Char :=
  "\n\treturn ".toList ++ (s.typeName nspace).toList ++
    ('\x7b' :: (s.coreField.toList ++ ['\x7d'])) ++ ['\n']

/-- The declaration of the client type without its constructor. -/
def clientTypeLines : List Char :=
  "type ".toList ++ (s.typeName nspace).toList ++ " struct \x7b\n\t".toList ++
    s.coreField.toList ++ " *".toList ++ s.coreType.toList ++ "\n\x7d\n\n".toList

theorem toList_clientTypeText : (clientTypeText s nspace).toList = clientTypeLines s nspace ++
    ("func".toList ++ constructorHead s nspace ++ '\x7b' :: (constructorBody s nspace ++ ['\x7d'])) := by
  unfold clientTypeText clientTypeLines constructorHead constructorBody
  simp [String.toList_append]

/-- Where the constructor stands when it begins at an offset. -/
def constructorSpan (i : Nat) : FunctionSpan where
  start := i
  opened := i + 4 + Text.byteLength (constructorHead s nspace)
  closed := i + 4 + Text.byteLength (constructorHead s nspace) + 1 +
    Text.byteLength (constructorBody s nspace)

end ClientType

/-- An identifier that begins with the keyword is the keyword. -/
theorem beginsFunction_of_isName {t : List Char} (ht : IsName t) (hne : t ≠ "func".toList) :
    beginsFunction t = false := by
  obtain ⟨c, cs, heq, -⟩ := exists_cons_of_isName ht
  have hc := ht.not_isBlank c (heq ▸ List.mem_cons_self)
  have htrim : Text.trimStart t = t := by
    rw [heq]
    exact @Text.trimStart_append [] c rfl hc cs
  refine Bool.eq_false_iff.2 fun hfunc => ?_
  unfold beginsFunction wordHere at hfunc
  rw [htrim, Bool.and_eq_true, Bool.and_eq_true] at hfunc
  obtain ⟨⟨hbegins, -⟩, hafter⟩ := hfunc
  obtain ⟨later, hlater⟩ := List.isPrefixOf_iff_prefix.1 hbegins
  rw [← hlater, List.drop_left] at hafter
  cases later with
  | nil =>
    rw [List.append_nil] at hlater
    exact hne (Text.bytes_injective hlater.symm)
  | cons b later =>
    have hb : isWordByte b = true := ht.isWordByte_bytes (hlater ▸ by simp)
    have hnone : (!isWordByte b) = true := hafter
    rw [hb] at hnone
    exact Bool.false_ne_true hnone

theorem inert_clientTypeLines {s : ClientSettings} {nspace : String}
    (htype : isIdentifier (s.typeName nspace) = true) (hcore : isIdentifier s.coreField = true)
    (hcoreType : isIdentifier s.coreType = true) (hfield : s.coreField ≠ "func") :
    Inert (clientTypeLines s nspace) := by
  have htype := isName_toList htype
  have hcore := isName_toList hcore
  have hcoreType := isName_toList hcoreType
  have hfirst : Inert ("type ".toList ++ (s.typeName nspace).toList ++ " struct \x7b".toList ++
      ['\n']) := by
    refine inert_bare ?_ ?_ fun rest => rfl
    · rw [List.all_append, List.all_append, htype.plain.all_isBareChar]
      rfl
    · simp only [Text.bytes_append, List.mem_append, not_or]
      exact ⟨⟨by decide, htype.not_mem_bytes (by decide)⟩, by decide⟩
  have hsecond : Inert ("\t".toList ++ s.coreField.toList ++ " *".toList ++ s.coreType.toList ++
      ['\n']) := by
    refine inert_bare ?_ ?_ fun rest => ?_
    · rw [List.all_append, List.all_append, List.all_append, hcore.plain.all_isBareChar,
        hcoreType.plain.all_isBareChar]
      rfl
    · simp only [Text.bytes_append, List.mem_append, not_or]
      exact ⟨⟨⟨by decide, hcore.not_mem_bytes (by decide)⟩, by decide⟩,
        hcoreType.not_mem_bytes (by decide)⟩
    · rw [List.append_assoc, List.append_assoc, List.append_assoc,
        beginsFunction_append_of_allBlank (by decide)]
      refine beginsFunction_append_space hcore.not_isBlank (beginsFunction_of_isName hcore ?_)
        hcore.ne_nil _
      exact fun h => hfield (String.toList_injective h)
  have hthird : Inert (['\x7d'] ++ ['\n']) := inert_bare (by decide) (by decide) fun rest => rfl
  have htext : clientTypeLines s nspace =
      ("type ".toList ++ (s.typeName nspace).toList ++ " struct \x7b".toList ++ ['\n']) ++
      ("\t".toList ++ s.coreField.toList ++ " *".toList ++ s.coreType.toList ++ ['\n']) ++
      (['\x7d'] ++ ['\n']) ++ ['\n'] := by
    unfold clientTypeLines
    simp
  rw [htext]
  exact ((hfirst.append hsecond).append hthird).append inert_newline

/-! ## The constructor -/

section Constructor

variable {s : ClientSettings} {nspace : String} (htype : IsName (s.typeName nspace).toList)
  (hcore : IsName s.coreField.toList)

include htype hcore

theorem lacks_constructorHead (hcoreType : IsName s.coreType.toList) :
    Lacks '\x7b' (constructorHead s nspace) := by
  have hnew : Plain (' ' :: ("New".toList ++ (s.typeName nspace).toList)) :=
    (show Plain " New".toList by unfold Plain; decide).append htype.plain
  have hparam : Plain (s.coreField.toList ++ " *".toList ++ s.coreType.toList) :=
    (hcore.plain.append (show Plain " *".toList by unfold Plain; decide)).append hcoreType.plain
  have hlast : Plain (' ' :: ((s.typeName nspace).toList ++ [' '])) :=
    (show Plain " ".toList by unfold Plain; decide).append (htype.plain.append
      (show Plain " ".toList by unfold Plain; decide))
  have hnew' : Lacks '\x7b' (' ' :: ("New".toList ++ (s.typeName nspace).toList)) := by
    refine hnew.lacks fun hmem => ?_
    have : Text.bytes (' ' :: ("New".toList ++ (s.typeName nspace).toList)) =
        Text.bytes " New".toList ++ Text.bytes (s.typeName nspace).toList :=
      Text.bytes_append " New".toList (s.typeName nspace).toList
    rw [this, List.mem_append] at hmem
    exact hmem.elim (fun h => absurd h (by decide)) (htype.not_mem_bytes (by decide))
  have hlast' : Lacks '\x7b' (' ' :: ((s.typeName nspace).toList ++ [' '])) := by
    refine hlast.lacks fun hmem => ?_
    have : Text.bytes (' ' :: ((s.typeName nspace).toList ++ [' '])) =
        Text.bytes [' '] ++ (Text.bytes (s.typeName nspace).toList ++ Text.bytes [' ']) := by
      rw [← Text.bytes_append, ← Text.bytes_append]
      rfl
    rw [this, List.mem_append, List.mem_append] at hmem
    exact hmem.elim (fun h => absurd h (by decide)) fun h => h.elim
      (htype.not_mem_bytes (by decide)) fun h => absurd h (by decide)
  have henclosed := hparam.regular.lacks_enclosed (d := .paren) (c := '\x7b') (by decide)
  have hhead := (hnew'.append henclosed fun hslash => absurd hslash hnew.solid.no_slash).append hlast'
    fun hslash => ?_
  · exact hhead
  · rw [List.getLast?_append_of_ne_nil _ (List.cons_ne_nil _ _)] at hslash
    exact absurd hslash (getLast?_enclosed .paren _)

theorem regular_constructorBody : Regular (constructorBody s nspace) := by
  have hreturn : Plain ("\n\treturn ".toList ++ (s.typeName nspace).toList) :=
    (show Plain "\n\treturn ".toList by unfold Plain; decide).append htype.plain
  have hfield : Regular ('\x7b' :: (s.coreField.toList ++ ['\x7d'])) :=
    hcore.plain.regular.enclose .brace
  refine (hreturn.regular.append hfield fun hslash => absurd hslash hreturn.solid.no_slash).append
    (show Plain ['\n'] by unfold Plain; decide).regular fun hslash => ?_
  rw [List.getLast?_append_of_ne_nil _ (List.cons_ne_nil _ _)] at hslash
  exact absurd hslash (getLast?_enclosed .brace _)

/-- The constructor is a function where it begins a line. -/
theorem holdsFunction_constructor (hcoreType : IsName s.coreType.toList)
    (hstruct : ¬"struct".toList <:+ (s.typeName nspace).toList)
    (hinterface : ¬"interface".toList <:+ (s.typeName nspace).toList)
    {m : Masked} {i : Nat} {rest : List Char}
    (ht : m.TextFrom i ("func".toList ++ constructorHead s nspace ++
      '\x7b' :: (constructorBody s nspace ++ '\x7d' :: rest)))
    (hstart : m.IsLineStart i) : m.HoldsFunction (constructorSpan s nspace i) := by
  refine TextFrom.holdsFunction ht hstart (lacks_constructorHead htype hcore hcoreType)
    (regular_constructorBody htype hcore) ?_
  have hnew : Plain ("func New".toList ++ (s.typeName nspace).toList) :=
    (show Plain "func New".toList by unfold Plain; decide).append htype.plain
  have hparam : Plain (s.coreField.toList ++ " *".toList ++ s.coreType.toList) :=
    (hcore.plain.append (show Plain " *".toList by unfold Plain; decide)).append hcoreType.plain
  have hshape : "func".toList ++ constructorHead s nspace ++
      '\x7b' :: (constructorBody s nspace ++ '\x7d' :: rest) =
      ("func New".toList ++ (s.typeName nspace).toList) ++
        ('(' :: (s.coreField.toList ++ " *".toList ++ s.coreType.toList ++ ')' ::
          ' ' :: ((s.typeName nspace).toList ++ ' ' :: '\x7b' ::
            (constructorBody s nspace ++ '\x7d' :: rest)))) := by
    simp [constructorHead]
  rw [hshape] at ht
  have hbehind := (ht.drop_plain hnew).drop_enclosed (d := .paren) hparam.regular
  have hcode := hbehind.2
  rw [mask_cons (by decide), htype.solid.mask_append, htype.mask_eq, mask_cons (by decide)] at hcode
  have hlast : ∃ init d, ' ' :: (s.typeName nspace).toList = init ++ [d] ∧ Text.isBlank d = false :=
    ⟨' ' :: (s.typeName nspace).toList.dropLast, (s.typeName nspace).toList.getLast htype.ne_nil,
      by rw [List.cons_append, List.dropLast_append_getLast],
      htype.not_isBlank _ (List.getLast_mem _)⟩
  have := opensType_of_codeFrom hcode (by decide) (by decide) hstruct hinterface hlast
  have hlen : i + 4 + Text.byteLength (constructorHead s nspace) =
      i + Text.byteLength ("func New".toList ++ (s.typeName nspace).toList) + 1 +
        Text.byteLength (s.coreField.toList ++ " *".toList ++ s.coreType.toList) + 1 + 1 +
        Text.byteLength (s.typeName nspace).toList + 1 := by
    unfold constructorHead
    simp only [Text.byteLength_append, Text.byteLength_cons, Text.byteLength_nil,
      show Text.byteLength "func New".toList = 8 by decide,
      show Text.byteLength "New".toList = 3 by decide, show ' '.utf8Size = 1 by decide,
      show '('.utf8Size = 1 by decide, show ')'.utf8Size = 1 by decide]
    omega
  exact (congrArg m.opensType hlen).trans this

omit hcore in
theorem isName_constructor : IsName ("New".toList ++ (s.typeName nspace).toList) := by
  obtain ⟨c, cs, heq, hc, hcs⟩ := exists_cons_of_isName htype
  have hletters : ("ew".toList ++ (s.typeName nspace).toList).all isLetterOrDigit = true := by
    rw [heq, List.all_append, List.all_cons, isLetterOrDigit_of_isLetter hc, hcs]
    rfl
  unfold IsName isIdentifier
  rw [String.toList_ofList]
  exact hletters

omit hcore in
/-- The constructor has a name and no receiver. -/
theorem receiverAfter?_constructor {m : Masked} {i : Nat} {rest : List Char}
    (ht : m.TextFrom i ("func".toList ++ (constructorHead s nspace ++ rest))) :
    m.receiverAfter? (i + 4) = none ∧
      m.nameAfter? (i + 4) =
        some ⟨i + 4 + 1, i + 4 + 1 + Text.byteLength ("New".toList ++ (s.typeName nspace).toList)⟩ := by
  have hname := isName_constructor htype
  have hhead := ht.drop_plain (show Plain "func".toList by unfold Plain; decide)
  have hshape : constructorHead s nspace ++ rest =
      ' ' :: (("New".toList ++ (s.typeName nspace).toList) ++ '(' ::
        (s.coreField.toList ++ " *".toList ++ s.coreType.toList ++ [')'] ++
          ' ' :: ((s.typeName nspace).toList ++ [' ']) ++ rest)) := by
    simp [constructorHead]
  rw [hshape] at hhead
  refine ⟨?_, TextFrom.nameAfter?_name hname hhead⟩
  have hcode := hhead.2
  rw [mask_cons (by decide), hname.solid.mask_append, hname.mask_eq] at hcode
  have hskip : m.skipBlank? (i + 4) = some (i + 4 + 1) :=
    CodeFrom.skipBlank? (a := [' ']) hcode (by decide) (by decide)
  have hbrace : m.hasChar (i + 4 + 1) '(' = false :=
    CodeFrom.hasChar_eq_false (CodeFrom.drop (a := [' ']) hcode) (by decide) (by decide)
  unfold receiverAfter? parensAfter?
  rw [hskip]
  simp only [hbrace]
  rfl

/-- The whole text of the constructor. -/
def constructorText (s : ClientSettings) (nspace : String) : List Char :=
  "func".toList ++ constructorHead s nspace ++ '\x7b' :: (constructorBody s nspace ++ ['\x7d'])

theorem regular_constructorText (hcoreType : IsName s.coreType.toList) :
    Regular (constructorText s nspace) := by
  have hkeyword : Plain "func".toList := by unfold Plain; decide
  have hhead := hkeyword.regular.append (lacks_constructorHead htype hcore hcoreType).toRegular
    fun hslash => absurd hslash hkeyword.solid.no_slash
  exact hhead.append ((regular_constructorBody htype hcore).enclose .brace) fun _ =>
    detached_cons (by decide) (by decide) _

omit htype hcore in
theorem closed_constructorSpan (i : Nat) :
    (constructorSpan s nspace i).closed + 1 = i + Text.byteLength (constructorText s nspace) := by
  unfold constructorSpan constructorText
  simp only [Text.byteLength_append, Text.byteLength_cons, Text.byteLength_nil,
    show Text.byteLength "func".toList = 4 by decide, show '\x7b'.utf8Size = 1 by decide,
    show '\x7d'.utf8Size = 1 by decide]
  omega

omit hcore in
/-- The constructor is left out, since it has no receiver. -/
theorem readFunction?_constructor {m : Masked} {i : Nat} {rest : List Char} {primitives : List String}
    (ht : m.TextFrom i (constructorText s nspace ++ rest)) :
    m.readFunction? primitives (constructorSpan s nspace i) =
      some (.skipped ⟨.clientFunction, some ("New" ++ s.typeName nspace), .noNamedReceiver,
        .ofList (constructorText s nspace)⟩) := by
  have hhead := ht
  unfold constructorText at hhead
  rw [List.append_assoc, List.append_assoc] at hhead
  obtain ⟨hreceiver, hname⟩ := receiverAfter?_constructor htype hhead
  have hnameText : m.slice (i + 4 + 1)
      (i + 4 + 1 + Text.byteLength ("New".toList ++ (s.typeName nspace).toList)) =
      "New".toList ++ (s.typeName nspace).toList := by
    have hshape : constructorText s nspace ++ rest = "func ".toList ++
        (("New".toList ++ (s.typeName nspace).toList) ++ ('(' ::
          (s.coreField.toList ++ " *".toList ++ s.coreType.toList ++ [')'] ++
            ' ' :: ((s.typeName nspace).toList ++ [' ']) ++
            '\x7b' :: (constructorBody s nspace ++ ['\x7d']) ++ rest))) := by
      simp [constructorText, constructorHead]
    rw [hshape] at ht
    exact ht.1.drop.slice
  have hwhole : m.slice i ((constructorSpan s nspace i).closed + 1) = constructorText s nspace := by
    rw [closed_constructorSpan]
    exact ht.1.slice
  have hsubject : String.ofList ("New".toList ++ (s.typeName nspace).toList) =
      "New" ++ s.typeName nspace := by
    rw [String.ofList_append, String.ofList_toList, String.ofList_toList]
  unfold readFunction?
  rw [show (constructorSpan s nspace i).head = i + 4 from rfl, hreceiver, hname]
  show some (Outcome.skipped ⟨_, some (.ofList (m.slice _ _)), _,
    .ofList (m.slice i ((constructorSpan s nspace i).closed + 1))⟩) = _
  rw [hnameText, hwhole, hsubject]

end Constructor

end Go

end RpcBindings
