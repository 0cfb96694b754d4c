import Mathlib.Data.List.TakeWhile
import RpcBindings.Proofs.CamelCase
import RpcBindings.Proofs.Go.Stub

/-!
The names that a stub declares.

A stub declares its receiver, its parameters, its result and `err`. A parameter is named in camel
case and gets an underscore where it would be a reserved word, the error or the receiver; the result
makes room for a parameter that has its name. Main statement: the names are distinct exactly when
those of the parameters are in camel case and the receiver, the result and the error get names of
their own (`nodup_names_methodHead_iff`).
-/

namespace RpcBindings.Go

open Casing

variable {name other receiver w : String}

/-! ## Parameters -/

theorem underscore_not_mem_lowerCamel (name : String) : '_' ∉ (lowerCamel name).toList := by
  rw [toList_lowerCamel]
  exact fun h => absurd (not_isSeparator_of_mem_joinWords h) (by decide)

theorem takeWhile_of_underscore_not_mem (h : '_' ∉ w.toList) :
    w.toList.takeWhile (· != '_') = w.toList := by
  refine List.takeWhile_eq_self_iff.2 fun c hc => bne_iff_ne.2 ?_
  rintro rfl
  exact h hc

/-- Underscores at the end of a name leave what stands before its first one. -/
theorem takeWhile_append_underscore (name : String) :
    (name ++ "_").toList.takeWhile (· != '_') = name.toList.takeWhile (· != '_') := by
  rw [String.toList_append, List.takeWhile_append]
  split
  · rename_i hall
    have hall : name.toList.takeWhile (· != '_') = name.toList :=
      (List.takeWhile_prefix _).eq_of_length hall
    rw [hall]
    exact List.append_nil _
  · rfl

theorem append_underscore_ne (name : String) : name ++ "_" ≠ name := by
  intro h
  have hlength := congrArg String.length h
  have hone : "_".length = 1 := rfl
  rw [String.length_append, hone] at hlength
  omega

theorem takeWhile_paramName (name : String) :
    (paramName name).toList.takeWhile (· != '_') = (lowerCamel name).toList := by
  have hcamel := takeWhile_of_underscore_not_mem (underscore_not_mem_lowerCamel name)
  unfold paramName
  extract_lets camel
  split
  · rw [takeWhile_append_underscore, hcamel]
  · exact hcamel

theorem paramName_of_not_keyword (h : lowerCamel name ∉ keywords) :
    paramName name = lowerCamel name := by
  unfold paramName
  exact if_neg (by rwa [List.contains_iff_mem])

/-- A parameter keeps its name, or gets an underscore to hide neither error nor receiver. -/
theorem stubParamName_cases (receiver name : String) :
    (stubParamName receiver name = paramName name ++ "_" ∧
      (paramName name = "err" ∨ paramName name = receiver)) ∨
    (stubParamName receiver name = paramName name ∧
      paramName name ≠ "err" ∧ paramName name ≠ receiver) := by
  unfold stubParamName
  extract_lets param
  split <;> rename_i h <;> rw [Bool.or_eq_true, decide_eq_true_eq, decide_eq_true_eq] at h
  · exact .inl ⟨rfl, h⟩
  · exact .inr ⟨rfl, not_or.1 h⟩

/-- The camel case form of a name can be read off its parameter. -/
theorem takeWhile_stubParamName (receiver name : String) :
    (stubParamName receiver name).toList.takeWhile (· != '_') = (lowerCamel name).toList := by
  rcases stubParamName_cases receiver name with ⟨h, -⟩ | ⟨h, -⟩
  · rw [h, takeWhile_append_underscore, takeWhile_paramName]
  · rw [h, takeWhile_paramName]

/-- Names give the same parameter iff they are the same in camel case. -/
theorem stubParamName_inj :
    stubParamName receiver name = stubParamName receiver other ↔
      lowerCamel name = lowerCamel other := by
  constructor
  · intro h
    have htake := takeWhile_stubParamName receiver name
    rw [h, takeWhile_stubParamName] at htake
    exact (String.toList_inj.1 htake).symm
  · intro h
    unfold stubParamName paramName
    rw [h]

/-- A parameter that has no underscore is named as in camel case. -/
theorem lowerCamel_eq_of_stubParamName (hw : '_' ∉ w.toList)
    (h : stubParamName receiver name = w) : lowerCamel name = w := by
  have htake := takeWhile_stubParamName receiver name
  rw [h, takeWhile_of_underscore_not_mem hw] at htake
  exact (String.toList_inj.1 htake).symm

/-- A parameter has a name without underscores iff this is its camel case and it is neither the
error nor the receiver; no such name is reserved. -/
theorem stubParamName_eq_iff (hw : '_' ∉ w.toList) (hkeyword : w ∉ keywords) :
    stubParamName receiver name = w ↔ lowerCamel name = w ∧ w ≠ "err" ∧ w ≠ receiver := by
  have hparam (h : lowerCamel name = w) : paramName name = w := by
    rw [paramName_of_not_keyword (h ▸ hkeyword), h]
  constructor
  · intro h
    have hcamel := lowerCamel_eq_of_stubParamName hw h
    rcases stubParamName_cases receiver name with ⟨hname, -⟩ | ⟨-, hkept⟩
    · rw [h, hparam hcamel] at hname
      exact absurd hname.symm (append_underscore_ne w)
    · rw [hparam hcamel] at hkept
      exact ⟨hcamel, hkept⟩
  · rintro ⟨hcamel, herr, hreceiver⟩
    rcases stubParamName_cases receiver name with ⟨-, h⟩ | ⟨hname, -⟩
    · rw [hparam hcamel] at h
      exact absurd h (not_or.2 ⟨herr, hreceiver⟩)
    · rw [hname, hparam hcamel]

/-- No parameter hides the error. -/
theorem stubParamName_ne_err : stubParamName receiver name ≠ "err" := fun h =>
  ((stubParamName_eq_iff (by decide) (by decide +kernel)).1 h).2.1 rfl

/-- A parameter hides the receiver iff it makes room for the error and gets the receiver's name. -/
theorem stubParamName_eq_receiver_iff :
    stubParamName receiver name = receiver ↔ receiver = "err_" ∧ lowerCamel name = "err" := by
  constructor
  · intro h
    rcases stubParamName_cases receiver name with ⟨hname, herr | hself⟩ | ⟨hname, -, hself⟩
    · have htake := takeWhile_paramName name
      rw [herr] at hname
      rw [herr, takeWhile_of_underscore_not_mem (by decide)] at htake
      exact ⟨h.symm.trans hname, (String.toList_inj.1 htake).symm⟩
    · rw [h, hself] at hname
      exact absurd hname.symm (append_underscore_ne receiver)
    · exact absurd (hname.symm.trans h) hself
  · rintro ⟨rfl, hcamel⟩
    have hparam : paramName name = "err" := by
      rw [paramName_of_not_keyword (hcamel ▸ by decide +kernel), hcamel]
    unfold stubParamName
    rw [hparam]
    rfl

/-! ## The head of a stub -/

/-- What a method declares with names. -/
structure MethodHead where
  receiver : StubParam
  name : String
  params : List StubParam
  results : List StubParam

namespace MethodHead

def text (h : MethodHead) : String :=
  "func (" ++ declaredParams [h.receiver] ++ ") " ++ h.name ++ "(" ++ declaredParams h.params ++
    ") (" ++ declaredParams h.results ++ ") \x7b"

/-- The names that share the scope of the method's body. -/
def names (h : MethodHead) : List String :=
  (h.receiver :: (h.params ++ h.results)).map (·.name)

end MethodHead

section Stubs

variable (s : ClientSettings) (table : TypeTable) (nspace : String) (m : RpcMethod)

/-- The head of the stub for a method. -/
def methodHead : MethodHead where
  receiver := ⟨s.receiver, .pointer (.named (s.typeName nspace))⟩
  name := m.functionName
  params := stubParams s table m
  results := [⟨stubResult (stubParams s table m), table.resolve m.returnType⟩,
    ⟨"err", .named "error"⟩]

/-- The head stands on a line of its own, below the comment. -/
theorem methodHead_isPrefix :
    stubComment m ++ (methodHead s table nspace m).text.toList ++ ['\n'] <+:
      (stubText s table nspace m).toList := by
  refine ⟨("\terr = " ++ s.receiver ++ "." ++ s.coreField ++ "." ++ s.invoke ++ "(&" ++
    stubResult (stubParams s table m) ++ ", \"" ++ m.wireName ++ "\"" ++
    String.join ((stubParams s table m).map fun p => ", " ++ p.name) ++
    ")\n\treturn\n\x7d").toList, ?_⟩
  unfold stubText stubComment MethodHead.text methodHead
  cases m.docComment? <;>
    simp [declaredParams, GoType.text, String.toList_append]

theorem names_methodHead : (methodHead s table nspace m).names =
    s.receiver :: ((m.params.map fun p => stubParamName s.receiver p.name) ++
      [stubResult (stubParams s table m), "err"]) := by
  unfold MethodHead.names methodHead
  simp [stubParams, Function.comp_def]

end Stubs

section Distinct

variable {s : ClientSettings} {table : TypeTable} {m : RpcMethod}

/-- The names of a method's parameters in camel case. -/
def camelParams (m : RpcMethod) : List String :=
  m.params.map fun p => lowerCamel p.name

theorem nodup_stubParamNames_iff (receiver : String) (m : RpcMethod) :
    (m.params.map fun p => stubParamName receiver p.name).Nodup ↔ (camelParams m).Nodup := by
  unfold camelParams List.Nodup
  rw [List.pairwise_map, List.pairwise_map]
  simp only [ne_eq, stubParamName_inj]

theorem err_not_mem (receiver : String) (m : RpcMethod) :
    "err" ∉ m.params.map fun p => stubParamName receiver p.name := by
  intro h
  obtain ⟨p, -, hp⟩ := List.mem_map.1 h
  exact stubParamName_ne_err hp

theorem receiver_mem_iff (receiver : String) (m : RpcMethod) :
    receiver ∈ (m.params.map fun p => stubParamName receiver p.name) ↔
      receiver = "err_" ∧ "err" ∈ camelParams m := by
  unfold camelParams
  simp only [List.mem_map, stubParamName_eq_receiver_iff]
  grind

/-- A name without underscores is that of a parameter iff some parameter is so named in camel
case. -/
theorem mem_stubParamNames_iff (receiver w : String) (m : RpcMethod) (hw : '_' ∉ w.toList)
    (hkeyword : w ∉ keywords) (herr : w ≠ "err") :
    w ∈ (m.params.map fun p => stubParamName receiver p.name) ↔
      w ∈ camelParams m ∧ receiver ≠ w := by
  unfold camelParams
  simp only [List.mem_map, stubParamName_eq_iff hw hkeyword]
  grind

theorem stubResult_eq (s : ClientSettings) (table : TypeTable) (m : RpcMethod) :
    stubResult (stubParams s table m) =
      if "val" ∈ m.params.map fun p => stubParamName s.receiver p.name then "result"
      else "val" := by
  unfold stubResult stubParams
  simp [List.any_map, List.any_eq_true]

theorem nodup_append_pair {as : List String} {b c : String} :
    (as ++ [b, c]).Nodup ↔ as.Nodup ∧ b ∉ as ∧ c ∉ as ∧ b ≠ c := by
  simp only [List.nodup_append, List.nodup_cons, List.mem_cons, List.not_mem_nil]
  grind

/-- The names that a stub declares are distinct iff those of the parameters are in camel case, the
receiver is named neither as the error nor as a result, nor as a parameter that makes room for the
error, and where a parameter is called `val` no other is called `result`. -/
theorem nodup_names_methodHead_iff (s : ClientSettings) (table : TypeTable) (nspace : String)
    (m : RpcMethod) :
    stubComment m ++ (methodHead s table nspace m).text.toList ++ ['\n'] <+:
      (stubText s table nspace m).toList ∧
    ((methodHead s table nspace m).names.Nodup ↔
      (camelParams m).Nodup ∧ s.receiver ≠ "err" ∧ s.receiver ≠ "val" ∧
      ¬(s.receiver = "err_" ∧ "err" ∈ camelParams m) ∧
      ¬("val" ∈ camelParams m ∧ ("result" ∈ camelParams m ∨ s.receiver = "result"))) := by
  refine ⟨methodHead_isPrefix s table nspace m, ?_⟩
  have hval := mem_stubParamNames_iff s.receiver "val" m (by decide) (by decide +kernel) (by decide)
  have hresult :=
    mem_stubParamNames_iff s.receiver "result" m (by decide) (by decide +kernel) (by decide)
  have hreceiver := receiver_mem_iff s.receiver m
  have herr := err_not_mem s.receiver m
  rw [names_methodHead, List.nodup_cons, nodup_append_pair, nodup_stubParamNames_iff, stubResult_eq]
  simp only [List.mem_append, List.mem_cons, List.not_mem_nil, or_false, not_or]
  split
  · rename_i hmem
    obtain ⟨hcamel, hne⟩ := hval.1 hmem
    rw [hreceiver, hresult]
    constructor
    · rintro ⟨⟨hroom, hother, hnot⟩, hnodup, hfree, -, -⟩
      refine ⟨hnodup, hnot, hne, hroom, ?_⟩
      rintro ⟨-, hmem | h⟩
      · exact hfree ⟨hmem, hother⟩
      · exact hother h
    · rintro ⟨hnodup, hnot, -, hroom, hfree⟩
      exact ⟨⟨hroom, fun h => hfree ⟨hcamel, .inr h⟩, hnot⟩, hnodup,
        fun h => hfree ⟨hcamel, .inl h.1⟩, herr, by decide⟩
  · rename_i hmem
    rw [hreceiver]
    constructor
    · rintro ⟨⟨hroom, hne, hnot⟩, hnodup, -, -, -⟩
      exact ⟨hnodup, hnot, hne, hroom, fun h => hmem (hval.2 ⟨h.1, hne⟩)⟩
    · rintro ⟨hnodup, hnot, hne, hroom, -⟩
      exact ⟨⟨hroom, hne, hnot⟩, hnodup, hmem, herr, by decide⟩

/-- A trait with parameters that are called like the results. -/
def resultSchema : String :=
  "trait T \x7b\n    #[rpc(name = \"a\")]\n    fn a(&self, val: u8, result: u8) -> u8;\n\x7d\n"

/-- The stub of its method declares `result` twice. -/
theorem resultSchema_names :
    ({} : Settings).fault? = none ∧
    ∃ m, .found m ∈ (RpcInterface.readAll ⟨none, ({} : Settings).client.resultWrappers⟩
        resultSchema).flatMap (·.members) ∧
      (m.params.map (·.name)).Nodup ∧ (∀ p ∈ m.params, isIdentifier p.name = true) ∧
      (methodHead ({} : Settings).client ({} : Settings).typeTable "T" m).names =
        ["c", "val", "result", "result", "err"] ∧
      ¬(methodHead ({} : Settings).client ({} : Settings).typeTable "T" m).names.Nodup := by
  have hmembers : (RpcInterface.readAll ⟨none, ({} : Settings).client.resultWrappers⟩
      resultSchema).flatMap (·.members) =
      [.found ⟨none, "a", "a", "A", [⟨"val", .scalar "u8"⟩, ⟨"result", .scalar "u8"⟩],
        .scalar "u8"⟩] := by decide +kernel
  exact ⟨by decide +kernel, _, hmembers ▸ List.mem_singleton_self _, by decide, by decide +kernel,
    by decide +kernel, by decide +kernel⟩

end Distinct

end RpcBindings.Go
