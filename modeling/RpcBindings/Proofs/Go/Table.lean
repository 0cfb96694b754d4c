import RpcBindings.Go.TypeTable

/-!
What a type table is looked up as.

Main statements: of two mappings for a name the later one holds (`TypeTable.get?_withOverrides`),
and a table is what its names are looked up as (`TypeTable.ext_get?`).
-/

namespace RpcBindings

theorem lookup_cons_eq_ite {α : Type} (name : String) (e : String × α) (l : List (String × α)) :
    (e :: l).lookup name = if name = e.1 then some e.2 else l.lookup name := by
  rw [List.lookup_cons]
  by_cases h : name = e.1
  · rw [if_pos h, beq_iff_eq.2 h]
  · rw [if_neg h, beq_eq_false_iff_ne.2 h]

/-- Where no two members have one name, a member is what its name is looked up as. -/
theorem lookup_of_mem {α : Type} {l : List (String × α)} (hne : l.Pairwise fun a b => a.1 ≠ b.1)
    {name : String} {value : α} (h : (name, value) ∈ l) : l.lookup name = some value := by
  induction l with
  | nil => exact absurd h List.not_mem_nil
  | cons e l ih =>
    obtain ⟨hfirst, hrest⟩ := List.pairwise_cons.1 hne
    rcases List.mem_cons.1 h with rfl | h
    · exact List.lookup_cons_self
    · rw [lookup_cons_eq_ite, if_neg (hfirst (name, value) h).symm]
      exact ih hrest h

/-- What a name is looked up as is a member. -/
theorem mem_of_lookup {α : Type} {l : List (String × α)} {name : String} {value : α}
    (h : l.lookup name = some value) : (name, value) ∈ l := by
  obtain ⟨before, after, rfl, -⟩ := List.lookup_eq_some_iff.1 h
  exact List.mem_append_right _ List.mem_cons_self

namespace TypeTable

variable {table : TypeTable}

theorem mem_of_get? {name : String} {target : GoType} (h : table.get? name = some target) :
    (name, target) ∈ table.entries :=
  mem_of_lookup h

/-- No two entries have one name. -/
theorem pairwise_ne (table : TypeTable) : table.entries.Pairwise fun a b => a.1 ≠ b.1 :=
  table.ordered.imp fun h => Std.ne_of_lt h

/-- An entry is what its name is looked up as. -/
theorem get?_of_mem {name : String} {target : GoType} (h : (name, target) ∈ table.entries) :
    table.get? name = some target :=
  lookup_of_mem table.pairwise_ne h

theorem get?_eq_some_iff {name : String} {target : GoType} :
    table.get? name = some target ↔ (name, target) ∈ table.entries :=
  ⟨mem_of_get?, get?_of_mem⟩

/-- A table is what its names are looked up as. -/
theorem ext_get? {a b : TypeTable} (h : ∀ name, a.get? name = b.get? name) : a = b := by
  have hnodup (t : TypeTable) : t.entries.Nodup :=
    t.pairwise_ne.imp fun hne heq => hne (congrArg Prod.fst heq)
  have hperm : a.entries.Perm b.entries := by
    refine (List.perm_ext_iff_of_nodup (hnodup a) (hnodup b)).2 fun e => ?_
    rw [← get?_eq_some_iff, ← get?_eq_some_iff, h]
  refine ext (hperm.eq_of_pairwise (fun c d _ _ hcd hdc => ?_) a.ordered b.ordered)
  exact absurd hdc (String.lt_asymm hcd)

theorem lookup_insertEntry (name : String) (target : GoType) (es : List (String × GoType))
    (other : String) :
    (insertEntry name target es).lookup other =
      if other = name then some target else es.lookup other := by
  induction es with
  | nil => exact lookup_cons_eq_ite ..
  | cons e es ih =>
    rw [insertEntry]
    split
    · exact lookup_cons_eq_ite ..
    · split
      · rename_i heq
        rw [lookup_cons_eq_ite, lookup_cons_eq_ite, ← heq]
        by_cases h : other = name
        · rw [if_pos h, if_pos h]
        · rw [if_neg h, if_neg h, if_neg h]
      · rename_i hne
        rw [lookup_cons_eq_ite, lookup_cons_eq_ite, ih]
        by_cases h : other = e.1
        · rw [if_pos h, if_pos h, if_neg (h ▸ Ne.symm hne)]
        · rw [if_neg h, if_neg h]

theorem get?_insert (table : TypeTable) (name : String) (target : GoType) (other : String) :
    (table.insert name target).get? other =
      if other = name then some target else table.get? other :=
  lookup_insertEntry name target table.entries other

/-- An entry was there before the overrides or has been read from one of them. -/
theorem mem_withOverrides {overrides : List (String × String)} {e : String × GoType}
    (h : e ∈ (table.withOverrides overrides).entries) :
    e ∈ table.entries ∨ ∃ o ∈ overrides, e = (o.1, .ofText o.2) := by
  induction overrides generalizing table with
  | nil => exact .inl h
  | cons o overrides ih =>
    have hlater : e ∈ ((table.insert o.1 (.ofText o.2)).withOverrides overrides).entries := h
    rcases ih hlater with h | ⟨p, hp, h⟩
    · rcases mem_insertEntry h with h | h
      · exact .inr ⟨o, List.mem_cons_self, h⟩
      · exact .inl h
    · exact .inr ⟨p, List.mem_cons_of_mem o hp, h⟩

/-- A name is looked up as what the last mapping for it says, and as before where none does. -/
theorem get?_withOverrides (table : TypeTable) (overrides : List (String × String))
    (name : String) :
    (table.withOverrides overrides).get? name =
      ((overrides.reverse.lookup name).map GoType.ofText).or (table.get? name) := by
  induction overrides generalizing table with
  | nil => rfl
  | cons o overrides ih =>
    have hstep : table.withOverrides (o :: overrides) =
        (table.insert o.1 (.ofText o.2)).withOverrides overrides := rfl
    rw [hstep, ih, get?_insert, List.reverse_cons, List.lookup_append]
    cases overrides.reverse.lookup name with
    | some text => rfl
    | none =>
      rw [lookup_cons_eq_ite]
      split <;> rfl

/-- Where no two mappings are for one name, each holds. -/
theorem get?_withOverrides_of_mem {overrides : List (String × String)}
    (hne : overrides.Pairwise fun a b => a.1 ≠ b.1) {name text : String}
    (h : (name, text) ∈ overrides) :
    (table.withOverrides overrides).get? name = some (.ofText text) := by
  have hreverse : overrides.reverse.Pairwise fun a b => a.1 ≠ b.1 :=
    List.pairwise_reverse.2 (hne.imp Ne.symm)
  rw [get?_withOverrides, lookup_of_mem hreverse (List.mem_reverse.2 h)]
  rfl

end TypeTable

end RpcBindings
