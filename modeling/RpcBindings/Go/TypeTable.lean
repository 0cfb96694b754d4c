import RpcBindings.Go.Type
import RpcBindings.Schema.Type

/-!
Type tables: which Go type stands for which schema scalar.

A table is a list of entries in strictly increasing order of their names, so two tables with the
same entries are equal. A scalar without an entry keeps its name.
-/

namespace RpcBindings

namespace TypeTable

/-- Puts an entry where its name belongs, in place of an entry of that name. -/
def insertEntry (name : String) (target : GoType) :
    List (String × GoType) → List (String × GoType)
  | [] => [(name, target)]
  | e :: es =>
    if name < e.1 then (name, target) :: e :: es
    else if name = e.1 then (name, target) :: es
    else e :: insertEntry name target es

/-- The names stand in strictly increasing order. -/
def Ordered (entries : List (String × GoType)) : Prop :=
  entries.Pairwise fun a b => a.1 < b.1

theorem mem_insertEntry {name : String} {target : GoType} {es : List (String × GoType)}
    {e : String × GoType} (h : e ∈ insertEntry name target es) : e = (name, target) ∨ e ∈ es := by
  induction es with
  | nil => simpa [insertEntry] using h
  | cons d es ih =>
    simp only [insertEntry] at h
    split at h
    · simpa using h
    · split at h
      · rcases List.mem_cons.1 h with rfl | h
        · exact .inl rfl
        · exact .inr (List.mem_cons_of_mem _ h)
      · rcases List.mem_cons.1 h with rfl | h
        · exact .inr List.mem_cons_self
        · exact (ih h).imp id (List.mem_cons_of_mem _)

theorem Ordered.insertEntry {es : List (String × GoType)} (h : Ordered es) (name : String)
    (target : GoType) : Ordered (insertEntry name target es) := by
  induction es with
  | nil => exact List.pairwise_singleton _ _
  | cons d es ih =>
    obtain ⟨hd, hes⟩ := List.pairwise_cons.1 h
    simp only [TypeTable.insertEntry]
    split
    · rename_i lt
      refine List.pairwise_cons.2 ⟨fun e he => ?_, h⟩
      rcases List.mem_cons.1 he with rfl | he
      · exact lt
      · exact String.lt_trans lt (hd e he)
    · split
      · rename_i eq
        exact List.pairwise_cons.2 ⟨fun e he => eq ▸ hd e he, hes⟩
      · rename_i nlt ne
        refine List.pairwise_cons.2 ⟨fun e he => ?_, ih hes⟩
        rcases mem_insertEntry he with rfl | he
        · exact Std.lt_of_le_of_ne (String.not_lt.1 nlt) (Ne.symm ne)
        · exact hd e he

end TypeTable

/-- Go types by scalar name, in strictly increasing order of names. -/
structure TypeTable where
  entries : List (String × GoType)
  ordered : TypeTable.Ordered entries

namespace TypeTable

def empty : TypeTable := ⟨[], List.Pairwise.nil⟩

instance : Inhabited TypeTable := ⟨empty⟩

@[ext] theorem ext {a b : TypeTable} (h : a.entries = b.entries) : a = b := by
  cases a; cases b; simp_all

/-- Adds one mapping or replaces it. -/
def insert (table : TypeTable) (name : String) (target : GoType) : TypeTable :=
  ⟨insertEntry name target table.entries, table.ordered.insertEntry name target⟩

def get? (table : TypeTable) (name : String) : Option GoType :=
  table.entries.lookup name

def size (table : TypeTable) : Nat :=
  table.entries.length

def isEmpty (table : TypeTable) : Bool :=
  table.entries.isEmpty

/-- The table with mappings to Go type text applied one after another. -/
def withOverrides (table : TypeTable) (overrides : List (String × String)) : TypeTable :=
  overrides.foldl (fun t o => t.insert o.1 (GoType.ofText o.2)) table

/-- The mappings that hold unless others are configured. -/
def standardEntries : List (String × String) :=
  [("u64", "hexutil.Uint64"), ("U64", "hexutil.Uint64"), ("U256", "*hexutil.Big"),
    ("H256", "types.Hash"), ("H160", "common.Address"), ("RpcAddress", "types.Address"),
    ("RpcTransaction", "types.Transaction"), ("Bytes", "hexutil.Bytes"),
    ("usize", "hexutil.Uint"), ("u8", "uint8"), ("u16", "uint16"), ("u32", "uint32"),
    ("i32", "int32"), ("i64", "int64"), ("bool", "bool"), ("String", "string"),
    ("str", "string"), ("()", "interface\x7b\x7d")]

def standard : TypeTable :=
  empty.withOverrides standardEntries

/-- The Go type of a schema type. A value that may be missing is reached through one pointer, and
through none where the Go type is indirect already. -/
def resolve (table : TypeTable) : SchemaType → GoType
  | .scalar name => (table.get? name).getD (.named name)
  | .optional elem => (table.resolve elem).indirect
  | .sequence elem => .slice (table.resolve elem)

/-- What may be missing is always indirect in Go. -/
theorem isIndirect_resolve_optional (table : TypeTable) (elem : SchemaType) :
    (table.resolve (.optional elem)).isIndirect = true :=
  GoType.isIndirect_indirect _

end TypeTable

end RpcBindings
