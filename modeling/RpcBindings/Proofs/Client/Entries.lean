import Mathlib.Data.List.Forall2
import RpcBindings.Proofs.Client.Parts
import RpcBindings.Proofs.Masked.Declarations
import RpcBindings.Proofs.Text.Cut

/-!
The entries of a client file.

The functions of a file are found by one search for declarations (`functionsFrom_eq_map`), which
accounts for them up to the first one without an end (`accounted_functions`). A file that can be read
has one entry for each (`ClientFile.forall₂_functions`), and it can be read when the statements of each
method can be laid out and every import clause can be cut out (`ClientFile.isSome_read?`). Blanks of
one byte are enough for that (`ClientFile.exists_read?_of_narrowBlanks`).
-/

namespace RpcBindings

namespace Masked

variable {m : Masked} {i : Nat}

/-! ## Functions as declarations -/

/-- A function begins at an offset: its keyword stands there whole and begins the line. -/
def BeginsFunction (m : Masked) (i : Nat) : Prop :=
  m.wordAt "func".toList i = true ∧ m.beginsLine i = true

instance (m : Masked) (i : Nat) : Decidable (m.BeginsFunction i) :=
  inferInstanceAs (Decidable (_ ∧ _))

/-- No body is found for the function at an offset, or its brace has no partner. -/
def EndlessFunction (m : Masked) (i : Nat) : Prop :=
  (m.bodyOpener? (i + "func".length)).bind m.closer? = none

instance (m : Masked) (i : Nat) : Decidable (m.EndlessFunction i) :=
  inferInstanceAs (Decidable (_ = none))

/-- What the search for functions comes to at a place of the keyword. -/
def visitFunction (m : Masked) (i : Nat) : Visit FunctionSpan :=
  if m.beginsLine i then
    match m.bodyOpener? (i + "func".length) with
    | none => .endless
    | some opened =>
      match m.closer? opened with
      | none => .endless
      | some closed => .ended ⟨i, opened, closed⟩ (closed + 1)
  else .passed (i + "func".length)

theorem functionsFrom_eq_map (m : Masked) (places : List Nat) (start : Nat) :
    m.functionsFrom places start = (declarationsFrom m.visitFunction places start).map (·.value) := by
  induction places generalizing start with
  | nil => rfl
  | cons i places ih =>
    rw [functionsFrom, declarationsFrom]
    split
    · exact ih start
    · simp only [visitFunction]
      split
      · cases m.bodyOpener? (i + "func".length) with
        | none => rfl
        | some opened =>
          cases hclosed : m.closer? opened with
          | none => simp only [hclosed, List.map_nil]
          | some closed => simp only [hclosed, List.map_cons, ih]
      · exact ih _

theorem visitFunction_eq_ended {f : FunctionSpan} {stop : Nat}
    (h : m.visitFunction i = .ended f stop) : m.beginsLine i = true ∧ f.start = i ∧
      stop = f.closed + 1 ∧ m.bodyOpener? (i + "func".length) = some f.opened ∧
      m.closer? f.opened = some f.closed := by
  unfold visitFunction at h
  split at h
  · rename_i hline
    split at h
    · exact absurd h nofun
    · rename_i opened hopened
      split at h
      · exact absurd h nofun
      · rename_i closed hclosed
        obtain ⟨rfl, rfl⟩ := Visit.ended.inj h
        exact ⟨hline, rfl, rfl, hopened, hclosed⟩
  · exact absurd h nofun

/-- The functions of a file are listed with the parts in which they stand. -/
theorem map_whole_functions (m : Masked) : m.functions.map FunctionSpan.whole =
    (declarationsFrom m.visitFunction (m.wordStarts "func") 0).map (·.span) := by
  unfold functions
  rw [functionsFrom_eq_map, List.map_map]
  refine List.map_congr_left fun d hd => ?_
  obtain ⟨-, hstart, hstop, -⟩ := visitFunction_eq_ended (visit_of_mem hd).2
  show Span.mk d.value.start (d.value.closed + 1) = d.span
  rw [hstart, ← hstop]

theorem orderly_visitFunction (m : Masked) : Orderly m.visitFunction (m.wordStarts "func") where
  sorted := pairwise_wordStarts m "func"
  ended i _ f stop hvisit := by
    obtain ⟨-, -, rfl, hopened, hclosed⟩ := visitFunction_eq_ended hvisit
    have := (bodyOpener?_eq_some hopened).1
    have := (lt_of_closer? hclosed).1
    omega
  passed i hi next hvisit := by
    have hnext : next = i + "func".length := by
      unfold visitFunction at hvisit
      split at hvisit
      · split at hvisit
        · exact absurd hvisit nofun
        · split at hvisit <;> exact absurd hvisit nofun
      · exact (Visit.passed.inj hvisit).symm
    rw [hnext]
    exact ⟨Nat.lt_add_of_pos_right (by decide), fun j hj hij =>
      add_length_le_of_lt (by decide) (mem_wordStarts.1 hi).2 (mem_wordStarts.1 hj).2 hij⟩

theorem beginsFunction_iff : m.BeginsFunction i ↔
    i ∈ m.wordStarts "func" ∧ ∀ next, m.visitFunction i ≠ .passed next := by
  have hpassed : (∀ next, m.visitFunction i ≠ .passed next) ↔ m.beginsLine i = true := by
    unfold visitFunction
    split
    · rename_i hline
      refine ⟨fun _ => hline, fun _ next => ?_⟩
      split
      · exact nofun
      · split <;> exact nofun
    · rename_i hline
      exact ⟨fun h => absurd rfl (h _), fun h => absurd h hline⟩
  rw [hpassed, mem_wordStarts]
  exact ⟨fun h => ⟨⟨lt_size_of_wordAt_func h.1, h.1⟩, h.2⟩, fun h => ⟨h.1.2, h.2⟩⟩

theorem endlessFunction_iff (h : m.BeginsFunction i) :
    m.EndlessFunction i ↔ m.visitFunction i = .endless := by
  unfold EndlessFunction visitFunction
  rw [if_pos h.2]
  cases m.bodyOpener? (i + "func".length) with
  | none => exact ⟨fun _ => rfl, fun _ => rfl⟩
  | some opened =>
    simp only [Option.bind_some]
    cases m.closer? opened with
    | none => exact ⟨fun _ => rfl, fun _ => rfl⟩
    | some closed => exact ⟨nofun, nofun⟩

/-- The functions up to the first one without an end are accounted for. -/
theorem accounted_functions (m : Masked) :
    Accounted (m.functions.map FunctionSpan.whole) m.BeginsFunction m.EndlessFunction := by
  rw [map_whole_functions]
  exact accounted_declarationsFrom (orderly_visitFunction m) (fun _ => beginsFunction_iff)
    fun _ => endlessFunction_iff

theorem pairwise_functions (m : Masked) : m.functions.Pairwise fun f g => f.closed < g.start := by
  have hspans : (m.functions.map FunctionSpan.whole).Pairwise fun s t => s.stop ≤ t.start := by
    rw [map_whole_functions]
    exact List.pairwise_map.2 (pairwise_declarationsFrom (orderly_visitFunction m) 0)
  exact List.pairwise_map.1 hspans

end Masked

/-! ## Files that can be read -/

namespace Text

/-- All blanks of a text have one byte. -/
def NarrowBlanks (cs : List Char) : Prop :=
  ∀ c ∈ cs, isBlank c = true → c.utf8Size = 1

instance (cs : List Char) : Decidable (NarrowBlanks cs) :=
  inferInstanceAs (Decidable (∀ c ∈ cs, _))

theorem NarrowBlanks.subset {cs ds : List Char} (h : NarrowBlanks cs) (hsub : ds ⊆ cs) :
    NarrowBlanks ds :=
  fun c hc => h c (hsub hc)

theorem subset_of_mem_linesAux {run cs l : List Char} (h : l ∈ linesAux run cs) :
    l ⊆ run.reverse ++ cs := by
  induction cs generalizing run with
  | nil =>
    rw [linesAux] at h
    split at h
    · exact absurd h List.not_mem_nil
    · obtain rfl := List.mem_singleton.1 h
      exact List.subset_append_left _ _
  | cons c cs ih =>
    rw [linesAux] at h
    split at h
    · rcases List.mem_cons.1 h with rfl | h
      · intro d hd
        refine List.mem_append_left _ ?_
        unfold endLine at hd
        split at hd
        · rw [List.reverse_cons]
          exact List.mem_append_left _ hd
        · exact hd
      · exact fun d hd => List.mem_append_right _ (List.mem_cons_of_mem c (by simpa using ih h hd))
    · intro d hd
      simpa using ih h hd

theorem NarrowBlanks.narrowIndents {cs : List Char} (h : NarrowBlanks cs) : NarrowIndents cs := by
  intro l hl c hc
  have hmem : c ∈ cs := by
    simpa using subset_of_mem_linesAux hl ((List.takeWhile_sublist isBlank).subset hc)
  exact h c hmem (List.all_eq_true.1 List.all_takeWhile c hc)

end Text

namespace Client

theorem without_subset (text : List Char) (start : Nat) (spans : List Span) :
    without text start spans ⊆ text := by
  induction spans generalizing start with
  | nil => exact (Text.isSuffix_dropBytes start text).subset
  | cons s spans ih =>
    rw [without]
    exact List.append_subset.2 ⟨(Text.isInfix_cut _ _ _).subset, ih s.stop⟩

theorem exists_keptStatements? {text : List Char} (h : Text.NarrowBlanks text) :
    ∃ kept, keptStatements? text = some kept :=
  Text.exists_tidy? (h.subset (without_subset text 0 _)).narrowIndents

end Client

namespace Masked

/-- With blanks of one byte the statements of every method can be laid out. -/
theorem isSome_readFunction? {m : Masked} (h : Text.NarrowBlanks m.source)
    (primitives : List String) (f : FunctionSpan) : (m.readFunction? primitives f).isSome = true := by
  unfold readFunction?
  extract_lets skip
  split
  · rfl
  · split
    · rfl
    · split
      · rfl
      · rename_i c _
        have hbefore : m.slice c.bodyStart c.statement ⊆ m.source :=
          (Text.isInfix_cut _ _ _).subset
        have hafter : afterCall (m.slice (c.args.stop + 1) c.returnAt) ⊆ m.source := fun d hd =>
          (Text.isInfix_cut _ _ _).subset
            ((List.dropWhile_suffix _).subset ((List.dropWhile_suffix _).subset hd))
        obtain ⟨before, hbefore⟩ := Client.exists_keptStatements? (h.subset hbefore)
        obtain ⟨after, hafter⟩ := Client.exists_keptStatements? (h.subset hafter)
        unfold methodAt?
        rw [hbefore, hafter]
        rfl

theorem isSome_readFunctions? (m : Masked) (primitives : List String) (wanted : Option String)
    (fs : List FunctionSpan) : (m.readFunctions? primitives wanted fs).isSome = true ↔
      ∀ f ∈ fs, (m.readFunction? primitives f).isSome = true := by
  induction fs with
  | nil => exact ⟨fun _ _ h => absurd h List.not_mem_nil, fun _ => rfl⟩
  | cons f fs ih =>
    rw [List.forall_mem_cons, ← ih, readFunctions?]
    cases m.readFunction? primitives f with
    | none => simp
    | some o => cases m.readFunctions? primitives wanted fs <;> simp

theorem forall₂_readFunctions? {m : Masked} {primitives : List String} {wanted : Option String}
    {fs : List FunctionSpan} {gs : List ClientFunction}
    (h : m.readFunctions? primitives wanted fs = some gs) :
    List.Forall₂ (fun f g => m.outcomeOf? primitives wanted f = some g.outcome) fs gs := by
  induction fs generalizing gs with
  | nil =>
    obtain rfl := Option.some.inj h
    exact List.Forall₂.nil
  | cons f fs ih =>
    obtain ⟨o, ho, h⟩ := Option.bind_eq_some_iff.1 h
    obtain ⟨later, hlater, h⟩ := Option.bind_eq_some_iff.1 h
    obtain rfl := Option.some.inj h
    refine List.Forall₂.cons ?_ (ih hlater)
    rw [outcomeOf?, ho]
    rfl

end Masked

namespace ClientFile

open Masked

/-- A file can be read when every method in it and every import clause can. -/
theorem isSome_read? (options : ClientOptions) (source : String) :
    (read? options source).isSome = true ↔
      (∀ f ∈ (ofSource .go source.toList).functions,
        ((ofSource .go source.toList).readFunction? options.primitives f).isSome = true) ∧
      (ofSource .go source.toList).imports?.isSome = true := by
  unfold read?
  extract_lets m fs clientType? leading
  show _ ↔ (∀ f ∈ fs, (m.readFunction? options.primitives f).isSome = true) ∧ m.imports?.isSome = true
  rw [← isSome_readFunctions? m options.primitives clientType? fs]
  cases m.readFunctions? options.primitives clientType? fs with
  | none => exact ⟨nofun, fun h => absurd h.1 nofun⟩
  | some gs =>
    cases m.imports? with
    | none => exact ⟨nofun, fun h => absurd h.2 nofun⟩
    | some imports => exact ⟨fun _ => ⟨rfl, rfl⟩, fun _ => rfl⟩

/-- A file whose blanks have one byte each can be read, unless it ends inside of a quoted literal with
a wider character. -/
theorem exists_read?_of_narrowBlanks (options : ClientOptions) (source : String)
    (hblanks : Text.NarrowBlanks source.toList) (hwide : ¬EndsInWideQuotes .go source.toList) :
    ∃ file, read? options source = some file := by
  obtain ⟨imports, himports⟩ := exists_imports? (unsplit_glyphs hwide)
  refine Option.isSome_iff_exists.1 ((isSome_read? options source).2 ⟨fun f _ => ?_, ?_⟩)
  · exact isSome_readFunction? hblanks _ f
  · rw [show (ofSource .go source.toList).imports? = some imports from himports]
    rfl

/-- A file has one entry for each of its functions. -/
theorem forall₂_functions {options : ClientOptions} {source : String} {file : ClientFile}
    (h : read? options source = some file) :
    List.Forall₂ (fun f g => (ofSource .go source.toList).outcomeOf? options.primitives
        file.clientType? f = some g.outcome)
      (ofSource .go source.toList).functions file.functions :=
  forall₂_readFunctions? (isReadFrom h).functions

end ClientFile

end RpcBindings
