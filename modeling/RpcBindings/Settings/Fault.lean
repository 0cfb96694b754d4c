import RpcBindings.Go.Identifier
import RpcBindings.Settings.Basic

/-!
Faults: settings that cannot give legal Go.
-/

namespace RpcBindings

/-- A section of the settings. -/
inductive SettingsSection where
  | client
  | structs
  | bulk
  deriving DecidableEq, Repr

namespace SettingsSection

def key : SettingsSection → String
  | client => "client"
  | structs => "structs"
  | bulk => "bulk"

end SettingsSection

/-- What is wrong with settings. -/
inductive SettingsFault where
  | badPackage (part : SettingsSection) (name : String)
  | emptySourceName
  | emptyGoType (source : String)
  | noPrimitives
  | badPrimitive (name : String)
  | badName (part : SettingsSection) (name : String)
  deriving DecidableEq, Repr

namespace SettingsFault

/-- The wording of a fault. -/
def message : SettingsFault → String
  | badPackage part name =>
    "[" ++ part.key ++ "] package `" ++ name ++ "` is not a valid Go package name"
  | emptySourceName => "[types] has an empty source name"
  | emptyGoType source => "[types] `" ++ source ++ "` maps to an empty Go type"
  | noPrimitives => "[bulk] primitives must name at least one invocation method"
  | badPrimitive name => "[bulk] primitive `" ++ name ++ "` is not a Go identifier"
  | badName part name => "[" ++ part.key ++ "] `" ++ name ++ "` is not a Go identifier"

end SettingsFault

namespace Settings

/-- The fault of a name that is no identifier. -/
def faultUnlessIdentifier (name : String) (fault : SettingsFault) : Option SettingsFault :=
  if Go.isIdentifier name then none else some fault

def packageFault? (part : SettingsSection) (name : String) : Option SettingsFault :=
  faultUnlessIdentifier name (.badPackage part name)

def nameFault? (part : SettingsSection) (name : String) : Option SettingsFault :=
  faultUnlessIdentifier name (.badName part name)

/-- A character of the markers before a Go type. -/
def isMarker (c : Char) : Bool :=
  c == '*' || c == '[' || c == ']'

/-- The fault of one mapping. -/
def typeFault? (mapping : String × String) : Option SettingsFault :=
  if Text.allBlank mapping.1.toList then some .emptySourceName
  else if ((Text.trim mapping.2.toList).dropWhile isMarker).isEmpty then
    some (.emptyGoType mapping.1)
  else none

/-- The fault of a list of primitives. -/
def primitivesFault? (primitives : List String) : Option SettingsFault :=
  if primitives.isEmpty then some .noPrimitives
  else primitives.findSome? fun p => faultUnlessIdentifier p (.badPrimitive p)

/-- The first fault of the settings. -/
def fault? (s : Settings) : Option SettingsFault :=
  (packageFault? .client s.client.package).or <|
  (packageFault? .structs s.structs.package).or <|
  (packageFault? .bulk s.bulk.package).or <|
  (s.types.findSome? typeFault?).or <|
  (primitivesFault? s.bulk.primitives).or <|
  (nameFault? .client s.client.receiver).or <|
  (nameFault? .client s.client.coreField).or <|
  (nameFault? .client s.client.invoke).or <|
  (nameFault? .bulk s.bulk.queueField).or <|
  (nameFault? .bulk s.bulk.descriptorFn).or <|
  nameFault? .bulk s.bulk.executeFn

end Settings

end RpcBindings
