import RpcBindings.Proofs.Client.Entries
import RpcBindings.Proofs.Schema.Interface

/-!
Declarations that have an entry.

The functions of a client file and the interfaces of a schema are looked for from left to right, and
the search ends at the first one that does not end. Main statement: of the declarations that begin
outside of those that are found, exactly the ones up to there have an entry, one each
(`declarations_accounted`). What stands behind a declaration without an end is lost with it
(`declarations_lost`).
-/

namespace RpcBindings

namespace Masked

variable {m : Masked} {i : Nat}

/-! ## Interfaces as declarations -/

/-- An interface begins at an offset: its keyword stands there whole, and a name follows. -/
def BeginsInterface (m : Masked) (i : Nat) : Prop :=
  m.wordAt "trait".toList i = true ∧ (m.nameAfter? (i + "trait".length)).isSome = true

instance (m : Masked) (i : Nat) : Decidable (m.BeginsInterface i) :=
  inferInstanceAs (Decidable (_ ∧ _))

/-- No brace is found behind the name of the interface at an offset, or it has no partner. -/
def EndlessInterface (m : Masked) (i : Nat) : Prop :=
  ((m.nameAfter? (i + "trait".length)).bind fun name =>
    (m.findTopLevel? name.stop m.sourceSize '\x7b').bind m.closer?) = none

instance (m : Masked) (i : Nat) : Decidable (m.EndlessInterface i) :=
  inferInstanceAs (Decidable (_ = none))

/-- What the search for interfaces comes to at a place of the keyword. -/
def visitInterface (m : Masked) (options : InterfaceOptions) (i : Nat) : Visit RpcInterface :=
  match m.nameAfter? (i + "trait".length) with
  | none => .passed (i + "trait".length)
  | some name =>
    match m.findTopLevel? name.stop m.sourceSize '\x7b' with
    | none => .endless
    | some opened =>
      match m.closer? opened with
      | none => .endless
      | some closed =>
        .ended (m.interfaceBetween options (.ofList (m.spanText name)) (opened + 1) closed) (closed + 1)

theorem interfacesFrom_eq_map (m : Masked) (options : InterfaceOptions) (places : List Nat)
    (start : Nat) : m.interfacesFrom options places start =
      (declarationsFrom (m.visitInterface options) places start).map (·.value) := by
  induction places generalizing start with
  | nil => rfl
  | cons i places ih =>
    rw [interfacesFrom, declarationsFrom]
    split
    · exact ih start
    · unfold visitInterface
      cases m.nameAfter? (i + "trait".length) with
      | none => exact ih _
      | some name =>
        simp only
        cases m.findTopLevel? name.stop m.sourceSize '\x7b' with
        | none => rfl
        | some opened =>
          cases hclosed : m.closer? opened with
          | none => simp only [hclosed, List.map_nil]
          | some closed =>
            simp only [hclosed, List.map_cons, ih]
            rfl

theorem visitInterface_eq_ended {options : InterfaceOptions} {t : RpcInterface} {stop : Nat}
    (h : m.visitInterface options i = .ended t stop) : ∃ name opened closed,
      m.nameAfter? (i + "trait".length) = some name ∧
      m.findTopLevel? name.stop m.sourceSize '\x7b' = some opened ∧ m.closer? opened = some closed ∧
      t = m.interfaceBetween options (.ofList (m.spanText name)) (opened + 1) closed ∧
      stop = closed + 1 := by
  unfold visitInterface at h
  split at h
  · exact absurd h nofun
  · rename_i name hname
    split at h
    · exact absurd h nofun
    · rename_i opened hopened
      split at h
      · exact absurd h nofun
      · rename_i closed hclosed
        obtain ⟨rfl, rfl⟩ := Visit.ended.inj h
        exact ⟨name, opened, closed, hname, hopened, hclosed, rfl, rfl⟩

theorem visitInterface_eq_passed {options : InterfaceOptions} {next : Nat} :
    m.visitInterface options i = .passed next ↔
      m.nameAfter? (i + "trait".length) = none ∧ i + "trait".length = next := by
  unfold visitInterface
  split
  · rename_i hnone
    exact ⟨fun h => ⟨hnone, Visit.passed.inj h⟩, fun h => congrArg Visit.passed h.2⟩
  · rename_i name hname
    refine ⟨fun h => ?_, fun h => absurd (hname.symm.trans h.1) nofun⟩
    split at h
    · exact absurd h nofun
    · split at h <;> exact absurd h nofun

theorem lt_stop_of_nameAfter? {s : Span} (h : m.nameAfter? i = some s) : i < s.stop := by
  obtain ⟨hskipped, hident⟩ := nameAfter?_eq_some h
  have := le_of_skipBlank? hskipped
  have := (identAt?_eq_some hident).2.1
  omega

theorem orderly_visitInterface (m : Masked) (options : InterfaceOptions) :
    Orderly (m.visitInterface options) (m.wordStarts "trait") where
  sorted := pairwise_wordStarts m "trait"
  ended i _ t stop hvisit := by
    obtain ⟨name, opened, closed, hname, hopened, hclosed, -, rfl⟩ := visitInterface_eq_ended hvisit
    have := lt_stop_of_nameAfter? hname
    have := le_of_findTopLevel? hopened
    have := (lt_of_closer? hclosed).1
    omega
  passed i hi next hvisit := by
    obtain ⟨-, rfl⟩ := visitInterface_eq_passed.1 hvisit
    exact ⟨Nat.lt_add_of_pos_right (by decide), fun j hj hij =>
      add_length_le_of_lt (by decide) (mem_wordStarts.1 hi).2 (mem_wordStarts.1 hj).2 hij⟩

theorem beginsInterface_iff (options : InterfaceOptions) : m.BeginsInterface i ↔
    i ∈ m.wordStarts "trait" ∧ ∀ next, m.visitInterface options i ≠ .passed next := by
  have hpassed : (∀ next, m.visitInterface options i ≠ .passed next) ↔
      (m.nameAfter? (i + "trait".length)).isSome = true := by
    rw [← not_exists, Option.isSome_iff_ne_none]
    refine not_congr ⟨fun ⟨next, h⟩ => (visitInterface_eq_passed.1 h).1, fun h => ?_⟩
    exact ⟨_, visitInterface_eq_passed.2 ⟨h, rfl⟩⟩
  rw [hpassed, mem_wordStarts]
  refine ⟨fun h => ⟨⟨?_, h.1⟩, h.2⟩, fun h => ⟨h.1.2, h.2⟩⟩
  exact (List.getElem?_eq_some_iff.1 (getElem?_of_wordAt (k := 0) h.1 rfl)).1

theorem endlessInterface_iff (options : InterfaceOptions) (h : m.BeginsInterface i) :
    m.EndlessInterface i ↔ m.visitInterface options i = .endless := by
  obtain ⟨name, hname⟩ := Option.isSome_iff_exists.1 h.2
  unfold EndlessInterface visitInterface
  simp only [hname, Option.bind_some]
  cases m.findTopLevel? name.stop m.sourceSize '\x7b' with
  | none => exact ⟨fun _ => rfl, fun _ => rfl⟩
  | some opened =>
    simp only [Option.bind_some]
    cases m.closer? opened with
    | none => exact ⟨fun _ => rfl, fun _ => rfl⟩
    | some closed => exact ⟨nofun, nofun⟩

end Masked

open Masked

/-- The interfaces of a schema, and where each one stands from its keyword to its end. -/
def RpcInterface.located (options : InterfaceOptions) (source : String) :
    List (Located RpcInterface) :=
  let m := ofSource .rust source.toList
  declarationsFrom (m.visitInterface options) (m.wordStarts "trait") 0

/-! ## Entries -/

/-- A client file that can be read has one entry for each function that is found, and a schema one for
each interface. Of the functions and interfaces that begin outside of those that are found exactly the
ones up to the first endless one are found, and each of them once. -/
theorem declarations_accounted (options : ClientOptions) (interfaces : InterfaceOptions)
    (client schema : String) :
    ((ClientFile.read? options client).isSome = true ↔
      (∀ f ∈ (ofSource .go client.toList).functions,
        ((ofSource .go client.toList).readFunction? options.primitives f).isSome = true) ∧
      (ofSource .go client.toList).imports?.isSome = true) ∧
    (∀ file, ClientFile.read? options client = some file →
      List.Forall₂ (fun f g => (ofSource .go client.toList).outcomeOf? options.primitives
          file.clientType? f = some g.outcome)
        (ofSource .go client.toList).functions file.functions) ∧
    Accounted ((ofSource .go client.toList).functions.map FunctionSpan.whole)
      (ofSource .go client.toList).BeginsFunction (ofSource .go client.toList).EndlessFunction ∧
    RpcInterface.readAll interfaces schema = (RpcInterface.located interfaces schema).map (·.value) ∧
    (∀ t ∈ RpcInterface.located interfaces schema,
      (ofSource .rust schema.toList).ReadsInterface interfaces t.span.start t.value) ∧
    Accounted ((RpcInterface.located interfaces schema).map (·.span))
      (ofSource .rust schema.toList).BeginsInterface
      (ofSource .rust schema.toList).EndlessInterface := by
  refine ⟨ClientFile.isSome_read? options client, fun _ => ClientFile.forall₂_functions,
    accounted_functions _, interfacesFrom_eq_map _ _ _ _, fun t ht => ?_, ?_⟩
  · obtain ⟨hmem, hvisit⟩ := visit_of_mem ht
    obtain ⟨name, opened, closed, hname, hopened, hclosed, heq, -⟩ := visitInterface_eq_ended hvisit
    exact ⟨(mem_wordStarts.1 hmem).2, name, opened, closed, hname, hopened, hclosed, heq⟩
  · exact accounted_declarationsFrom (orderly_visitInterface _ interfaces)
      (fun _ => beginsInterface_iff interfaces) fun _ => endlessInterface_iff interfaces

/-- A method, and one whose body does not end. -/
def halfClient : String :=
  "func (c *C) A() \x7b\n\x7d\n\nfunc (c *C) B() \x7b\n"

/-- An interface, and one whose body does not end. -/
def halfSchema : String :=
  "trait A \x7b\x7d\n\ntrait B \x7b\n"

theorem declarations_accounted_half :
    (∃ file, ClientFile.read? ⟨["CallRPC"], none⟩ halfClient = some file ∧
      file.functions.length = 1) ∧
    (∃! k : Nat, ∃ s,
      ((ofSource .go halfClient.toList).functions.map FunctionSpan.whole)[k]? = some s ∧
        s.start = 0) ∧
    (∃! k : Nat, ∃ s,
      ((RpcInterface.located ⟨none, []⟩ halfSchema).map (·.span))[k]? = some s ∧ s.start = 0) ∧
    (ofSource .rust halfSchema.toList).BeginsInterface 12 ∧
    ¬∃! k : Nat, ∃ s,
      ((RpcInterface.located ⟨none, []⟩ halfSchema).map (·.span))[k]? = some s ∧ s.start = 12 := by
  obtain ⟨-, hentries, hfunctions, -, -, hinterfaces⟩ :=
    declarations_accounted ⟨["CallRPC"], none⟩ ⟨none, []⟩ halfClient halfSchema
  have hclient : (ofSource .go halfClient.toList).functions = [⟨0, 16, 18⟩] := by decide +kernel
  have hschema : (RpcInterface.located ⟨none, []⟩ halfSchema).map (·.span) = [⟨0, 10⟩] := by
    decide +kernel
  have hbegins : (ofSource .rust halfSchema.toList).BeginsInterface 12 := by decide +kernel
  have hendless : (ofSource .rust halfSchema.toList).EndlessInterface 12 := by decide +kernel
  obtain ⟨file, hfile⟩ := ClientFile.exists_read?_of_narrowBlanks ⟨["CallRPC"], none⟩
    halfClient (by decide +kernel) (by decide +kernel)
  refine ⟨⟨file, hfile, ?_⟩, ?_, ?_, hbegins, fun h => ?_⟩
  · rw [← (hentries file hfile).length_eq, hclient]
    rfl
  · refine (hfunctions 0 (by decide +kernel) fun _ _ hlt => absurd hlt (Nat.not_lt_zero _)).2 ?_
    rintro j hj - -
    obtain rfl := Nat.le_zero.1 hj
    decide +kernel
  · refine (hinterfaces 0 (by decide +kernel) fun _ _ hlt => absurd hlt (Nat.not_lt_zero _)).2 ?_
    rintro j hj - -
    obtain rfl := Nat.le_zero.1 hj
    decide +kernel
  · have hout : Outside ((RpcInterface.located ⟨none, []⟩ halfSchema).map (·.span)) 12 := by
      rw [hschema]
      exact fun s hs _ => List.mem_singleton.1 hs ▸ by decide
    exact (hinterfaces 12 hbegins hout).1 h 12 (Nat.le_refl _) hbegins hout hendless

/-- A method whose body does not end, and a method behind it. -/
def lostClient : String :=
  "func (c *C) A() \x7b\n\nfunc (c *C) B() \x7b\n\x7d\n"

/-- An interface whose body does not end, and an interface behind it. -/
def lostSchema : String :=
  "trait A \x7b\n\ntrait B \x7b\x7d\n"

/-- A declaration without an end has no entry, and the ones behind it are lost too: both functions of
a file begin their lines and neither is listed, and so with both interfaces of a schema. -/
theorem declarations_lost :
    (ofSource .go lostClient.toList).wordStarts "func" = [0, 19] ∧
      (∀ i ∈ [0, 19], (ofSource .go lostClient.toList).BeginsFunction i) ∧
      (ofSource .go lostClient.toList).functions = [] ∧
      ClientFile.outcomes? ⟨["CallRPC"], some "C"⟩ lostClient = some [] ∧
      (ofSource .rust lostSchema.toList).wordStarts "trait" = [0, 11] ∧
      (∀ i ∈ [0, 11], (ofSource .rust lostSchema.toList).BeginsInterface i) ∧
      (RpcInterface.readAll ⟨none, []⟩ lostSchema).length = 0 := by
  refine ⟨?_, ?_, ?_, ?_, ?_, ?_, ?_⟩ <;> decide +kernel

end RpcBindings
