import RpcBindings.Proofs.Go.LegalName
import RpcBindings.Settings.Fault

/-!
Which names of accepted settings are legal in Go.

Settings are accepted when each name in them is an identifier by its characters, whatever stands in the
other places. Reserved words and the blank identifier are identifiers by their characters too. Main
statement: the names of accepted settings are legal iff no reserved word is among them and no package
is called `_`, and in each place every identifier is accepted (`accepted_names_legal_iff`).
-/

namespace RpcBindings

/-- A setting of one name, packages apart. -/
inductive NameField where
  | receiver
  | coreField
  | invoke
  | queueField
  | descriptorFn
  | executeFn
  deriving DecidableEq, Repr

/-- A place in the settings where a name of Go stands. -/
inductive NamePlace where
  | package (part : SettingsSection)
  | field (f : NameField)
  | primitive (i : Nat)
  deriving DecidableEq, Repr

namespace NamePlace

/-- The place is that of a package name. -/
def isPackage : NamePlace → Bool
  | package _ => true
  | field _ => false
  | primitive _ => false

/-- A name is legal in a place: no reserved word, and not blank for a package. -/
structure Admits (place : NamePlace) (name : String) : Prop where
  legal : Go.IsLegal name
  not_blank : place.isPackage = true → name ≠ "_"

end NamePlace

namespace Settings

/-! ## Names by their places -/

/-- The name that stands in a place. -/
def name? (s : Settings) : NamePlace → Option String
  | .package .client => some s.client.package
  | .package .structs => some s.structs.package
  | .package .bulk => some s.bulk.package
  | .field .receiver => some s.client.receiver
  | .field .coreField => some s.client.coreField
  | .field .invoke => some s.client.invoke
  | .field .queueField => some s.bulk.queueField
  | .field .descriptorFn => some s.bulk.descriptorFn
  | .field .executeFn => some s.bulk.executeFn
  | .primitive i => s.bulk.primitives[i]?

/-- The settings with another name in a place. -/
def rename (s : Settings) (name : String) : NamePlace → Settings
  | .package .client => { s with client.package := name }
  | .package .structs => { s with structs.package := name }
  | .package .bulk => { s with bulk.package := name }
  | .field .receiver => { s with client.receiver := name }
  | .field .coreField => { s with client.coreField := name }
  | .field .invoke => { s with client.invoke := name }
  | .field .queueField => { s with bulk.queueField := name }
  | .field .descriptorFn => { s with bulk.descriptorFn := name }
  | .field .executeFn => { s with bulk.executeFn := name }
  | .primitive i => { s with bulk.primitives := s.bulk.primitives.set i name }

variable {s : Settings} {place : NamePlace} {name : String}

/-- In a place where a name stands another one is put, and all other places keep theirs. -/
theorem name?_rename (h : (s.name? place).isSome = true) (name : String) (other : NamePlace) :
    (s.rename name place).name? other = if place = other then some name else s.name? other := by
  split
  · rename_i heq
    subst heq
    cases place with
    | package part => cases part <;> rfl
    | field f => cases f <;> rfl
    | primitive i =>
      obtain ⟨hlt, -⟩ := List.getElem?_eq_some_iff.1 (Option.some_get h).symm
      exact List.getElem?_set_self hlt
  · rename_i hne
    cases place with
    | package part =>
      cases other with
      | package other => cases part <;> cases other <;> first | rfl | exact absurd rfl hne
      | field f => cases part <;> cases f <;> rfl
      | primitive i => cases part <;> rfl
    | field f =>
      cases other with
      | package part => cases f <;> cases part <;> rfl
      | field other => cases f <;> cases other <;> first | rfl | exact absurd rfl hne
      | primitive i => cases f <;> rfl
    | primitive i =>
      cases other with
      | package part => cases part <;> rfl
      | field f => cases f <;> rfl
      | primitive j => exact List.getElem?_set_ne fun hij => hne (congrArg NamePlace.primitive hij)

theorem types_rename (s : Settings) (name : String) (place : NamePlace) :
    (s.rename name place).types = s.types := by
  cases place with
  | package part => cases part <;> rfl
  | field f => cases f <;> rfl
  | primitive i => rfl

theorem length_primitives_rename (s : Settings) (name : String) (place : NamePlace) :
    (s.rename name place).bulk.primitives.length = s.bulk.primitives.length := by
  cases place with
  | package part => cases part <;> rfl
  | field f => cases f <;> rfl
  | primitive i => exact List.length_set

/-! ## What is accepted -/

theorem faultUnlessIdentifier_eq_none_iff {fault : SettingsFault} :
    faultUnlessIdentifier name fault = none ↔ Go.isIdentifier name = true := by
  unfold faultUnlessIdentifier
  split
  · rename_i h
    exact iff_of_true rfl h
  · rename_i h
    exact iff_of_false nofun h

theorem primitivesFault?_eq_none_iff {primitives : List String} :
    primitivesFault? primitives = none ↔
      primitives ≠ [] ∧ ∀ p ∈ primitives, Go.isIdentifier p = true := by
  unfold primitivesFault?
  cases primitives with
  | nil => exact iff_of_false nofun fun h => h.1 rfl
  | cons p ps =>
    rw [if_neg (by simp), List.findSome?_eq_none_iff]
    simp only [faultUnlessIdentifier_eq_none_iff]
    exact (and_iff_right (List.cons_ne_nil p ps)).symm

/-- Settings are accepted iff the name in each place is an identifier, there is a primitive, and no
mapping of types has a fault. -/
theorem fault?_eq_none_iff :
    s.fault? = none ↔
      (∀ place name, s.name? place = some name → Go.isIdentifier name = true) ∧
        s.bulk.primitives ≠ [] ∧ ∀ mapping ∈ s.types, typeFault? mapping = none := by
  unfold fault? packageFault? nameFault?
  simp only [Option.or_eq_none_iff, faultUnlessIdentifier_eq_none_iff, primitivesFault?_eq_none_iff,
    List.findSome?_eq_none_iff]
  constructor
  · intro ⟨hclient, hstructs, hbulk, htypes, ⟨hsome, hprimitives⟩, hreceiver, hcore, hinvoke, hqueue,
      hdescriptor, hexecute⟩
    refine ⟨fun place name hname => ?_, hsome, htypes⟩
    match place with
    | .package .client => exact Option.some.inj hname ▸ hclient
    | .package .structs => exact Option.some.inj hname ▸ hstructs
    | .package .bulk => exact Option.some.inj hname ▸ hbulk
    | .field .receiver => exact Option.some.inj hname ▸ hreceiver
    | .field .coreField => exact Option.some.inj hname ▸ hcore
    | .field .invoke => exact Option.some.inj hname ▸ hinvoke
    | .field .queueField => exact Option.some.inj hname ▸ hqueue
    | .field .descriptorFn => exact Option.some.inj hname ▸ hdescriptor
    | .field .executeFn => exact Option.some.inj hname ▸ hexecute
    | .primitive i => exact hprimitives name (List.mem_of_getElem? hname)
  · intro ⟨hnames, hsome, htypes⟩
    refine ⟨hnames (.package .client) _ rfl, hnames (.package .structs) _ rfl,
      hnames (.package .bulk) _ rfl, htypes, ⟨hsome, fun p hp => ?_⟩,
      hnames (.field .receiver) _ rfl, hnames (.field .coreField) _ rfl,
      hnames (.field .invoke) _ rfl, hnames (.field .queueField) _ rfl,
      hnames (.field .descriptorFn) _ rfl, hnames (.field .executeFn) _ rfl⟩
    obtain ⟨i, hi⟩ := List.mem_iff_getElem?.1 hp
    exact hnames (.primitive i) p hi

/-- In a place of accepted settings every identifier is accepted, and nothing else. -/
theorem fault?_rename_iff (h : s.fault? = none) (hplace : (s.name? place).isSome = true)
    (name : String) :
    (s.rename name place).fault? = none ↔ Go.isIdentifier name = true := by
  obtain ⟨hnames, hsome, htypes⟩ := fault?_eq_none_iff.1 h
  constructor
  · intro haccepted
    obtain ⟨hrenamed, -, -⟩ := fault?_eq_none_iff.1 haccepted
    exact hrenamed place name (by rw [name?_rename hplace, if_pos rfl])
  · intro hname
    refine fault?_eq_none_iff.2 ⟨fun other name' hname' => ?_, ?_, ?_⟩
    · rw [name?_rename hplace] at hname'
      split at hname'
      · exact Option.some.inj hname' ▸ hname
      · exact hnames other name' hname'
    · rw [← List.length_pos_iff, length_primitives_rename]
      exact List.length_pos_iff.2 hsome
    · rw [types_rename]
      exact htypes

/-- The names of accepted settings are identifiers. They are legal iff no reserved word is among them
and no package is blank: in each place every identifier is accepted, whatever it means in Go. -/
theorem accepted_names_legal_iff (h : s.fault? = none) :
    (∀ place name, s.name? place = some name → Go.isIdentifier name = true) ∧
    ((∀ place name, s.name? place = some name → place.Admits name) ↔
      ∀ place name, s.name? place = some name →
        name ∉ Go.keywords ∧ (place.isPackage = true → name ≠ "_")) ∧
    ∀ place, (s.name? place).isSome = true → ∀ name,
      (s.rename name place).fault? = none ↔ Go.isIdentifier name = true := by
  obtain ⟨hnames, -, -⟩ := fault?_eq_none_iff.1 h
  refine ⟨hnames, ?_, fun place hplace name => fault?_rename_iff h hplace name⟩
  constructor
  · intro hlegal place name hname
    obtain ⟨⟨-, hkeyword⟩, hblank⟩ := hlegal place name hname
    exact ⟨hkeyword, hblank⟩
  · intro hfree place name hname
    obtain ⟨hkeyword, hblank⟩ := hfree place name hname
    exact ⟨⟨hnames place name hname, hkeyword⟩, hblank⟩

/-- Settings with names of their own. -/
def ownNames : Settings where
  client := { receiver := "api", invoke := "call" }
  bulk := { package := "batch", primitives := ["call", "query"] }

theorem accepted_names_legal_iff_ownNames :
    ownNames.fault? = none ∧
      (∀ place name, ownNames.name? place = some name → Go.isIdentifier name = true) ∧
      ownNames.name? (.primitive 1) = some "query" ∧
      (ownNames.rename "range" (.primitive 1)).fault? = none ∧
      (ownNames.rename "a-b" (.primitive 1)).fault? ≠ none := by
  have haccepted : ownNames.fault? = none := by decide +kernel
  obtain ⟨hnames, -, hrename⟩ := accepted_names_legal_iff haccepted
  have hrange := (hrename (.primitive 1) rfl "range").2 (by decide +kernel)
  have hdash := mt (hrename (.primitive 1) rfl "a-b").1 (by decide +kernel)
  exact ⟨haccepted, hnames, rfl, hrange, hdash⟩

/-- Settings with a reserved word for a package and for a receiver, and a package without a name. -/
def reservedNames : Settings where
  client := { receiver := "func" }
  structs := { package := "type" }
  bulk := { package := "_" }

/-- They are accepted, and none of the three names is legal. -/
theorem reservedNames_accepted :
    reservedNames.fault? = none ∧
      reservedNames.name? (.package .structs) = some "type" ∧
      ¬(NamePlace.package .structs).Admits "type" ∧
      reservedNames.name? (.package .bulk) = some "_" ∧
      ¬(NamePlace.package .bulk).Admits "_" ∧
      reservedNames.name? (.field .receiver) = some "func" ∧
      ¬(NamePlace.field .receiver).Admits "func" := by
  have haccepted : reservedNames.fault? = none := by decide +kernel
  refine ⟨haccepted, rfl, fun h => ?_, rfl, fun h => h.not_blank rfl rfl, rfl, fun h => ?_⟩
  · exact h.legal.not_keyword (by decide +kernel)
  · exact h.legal.not_keyword (by decide +kernel)

end Settings

end RpcBindings
