import RpcBindings.Proofs.Go.Table

/-!
What the resolution of schema types forgets.

An `Option` over something that is indirect already leaves no trace in Go, every other marker does.
Main statement: `TypeTable.resolve_collapse`.
-/

namespace RpcBindings

namespace SchemaType

/-- The type without every `Option` that stands directly over an `Option` or over a `Vec`. -/
def collapse : SchemaType → SchemaType
  | scalar name => scalar name
  | optional (scalar name) => optional (scalar name)
  | optional elem => elem.collapse
  | sequence elem => sequence elem.collapse

end SchemaType

namespace GoType

/-- No pointer of the type points to a pointer or to a slice. -/
def SinglePointers : GoType → Prop
  | named _ => True
  | pointer elem => elem.isIndirect = false ∧ elem.SinglePointers
  | slice elem => elem.SinglePointers

instance decidableSinglePointers : (t : GoType) → Decidable t.SinglePointers
  | named _ => .isTrue trivial
  | pointer elem =>
    have := decidableSinglePointers elem
    inferInstanceAs (Decidable (elem.isIndirect = false ∧ elem.SinglePointers))
  | slice elem => decidableSinglePointers elem

theorem SinglePointers.indirect {t : GoType} (h : t.SinglePointers) :
    t.indirect.SinglePointers := by
  cases t with
  | named name => exact ⟨rfl, trivial⟩
  | pointer elem => exact h
  | slice elem => exact h

/-- Reads markers back as a schema's: the type that a table without entries resolves to it. -/
def toSchema : GoType → SchemaType
  | named name => .scalar name
  | pointer elem => .optional elem.toSchema
  | slice elem => .sequence elem.toSchema

end GoType

namespace TypeTable

variable (table : TypeTable)

/-- What a value that is indirect already resolves to does not depend on an `Option` over it. -/
theorem resolve_optional_of_isIndirect {e : SchemaType}
    (h : (table.resolve e).isIndirect = true) :
    table.resolve (.optional e) = table.resolve e := by
  rw [resolve, GoType.indirect, if_pos h]

theorem resolve_collapsed (e : SchemaType) : table.resolve e.collapse = table.resolve e := by
  induction e with
  | scalar name => rfl
  | sequence elem ih =>
    rw [SchemaType.collapse, resolve, resolve, ih]
  | optional elem ih =>
    cases elem with
    | scalar name => rfl
    | optional inner =>
      have hindirect := isIndirect_resolve_optional table inner
      rw [SchemaType.collapse, ih, resolve_optional_of_isIndirect table hindirect]
      exact nofun
    | sequence inner =>
      rw [SchemaType.collapse, ih, resolve_optional_of_isIndirect table rfl]
      exact nofun

theorem singlePointers_resolve (h : ∀ entry ∈ table.entries, entry.2.SinglePointers)
    (e : SchemaType) : (table.resolve e).SinglePointers := by
  induction e with
  | scalar name =>
    rw [resolve]
    cases hget : table.get? name with
    | none => trivial
    | some target => exact h _ (mem_of_get? hget)
  | optional elem ih => exact ih.indirect
  | sequence elem ih => exact ih

/-- A table without entries keeps all that collapsing keeps. -/
theorem toSchema_resolve_empty (e : SchemaType) : (empty.resolve e).toSchema = e.collapse := by
  induction e with
  | scalar name => rfl
  | sequence elem ih => exact congrArg SchemaType.sequence ih
  | optional elem ih =>
    cases elem with
    | scalar name => rfl
    | optional inner =>
      have hindirect := isIndirect_resolve_optional empty inner
      rw [resolve_optional_of_isIndirect empty hindirect, ih]
      rfl
    | sequence inner => exact ih

/-- Collapsing changes no Go type, pointers stay single where the entries have single ones, and
without entries the Go type says exactly what the collapsed type says. -/
theorem resolve_collapse :
    (∀ e, table.resolve e = table.resolve e.collapse) ∧
      ((∀ entry ∈ table.entries, entry.2.SinglePointers) →
        ∀ e, (table.resolve e).SinglePointers) ∧
      ∀ e₁ e₂, empty.resolve e₁ = empty.resolve e₂ ↔ e₁.collapse = e₂.collapse := by
  refine ⟨fun e => (resolve_collapsed table e).symm, singlePointers_resolve table, ?_⟩
  intro e₁ e₂
  constructor
  · intro h
    rw [← toSchema_resolve_empty, ← toSchema_resolve_empty, h]
  · intro h
    rw [← resolve_collapsed empty e₁, ← resolve_collapsed empty e₂, h]

/-- The entries of the standard table have single pointers, so every type it resolves has. -/
theorem singlePointers_resolve_standard :
    (∀ entry ∈ standard.entries, entry.2.SinglePointers) ∧
      ∀ e, (standard.resolve e).SinglePointers := by
  have hentries : ∀ entry ∈ standard.entries, entry.2.SinglePointers := by decide +kernel
  exact ⟨hentries, (resolve_collapse standard).2.1 hentries⟩

end TypeTable

end RpcBindings
