import RpcBindings.Proofs.Masked.Declarations
import RpcBindings.Proofs.Masked.Line
import RpcBindings.Proofs.Schema.Comment
import RpcBindings.Proofs.Schema.Record

/-!
Fragments of a schema that are read as records.

A struct is read together with the start of its line and the comment and attribute lines above, and
that walk does not know where the struct before it ends. Main statement: two fragments that follow one
another are disjoint exactly when a line that is neither comment nor attribute ends between the two
structs, the line of the first one's end included (`Record.fragments_apart_iff`). Structs on one line,
or below a line that begins with an attribute, are read together (`Record.fragments_overlap`).
-/

namespace RpcBindings

namespace Masked

variable {m : Masked} {i : Nat}

/-! ## Lines above a declaration -/

/-- The line that ends before an offset is neither comment nor attribute. -/
def plainLineBefore (m : Masked) (n : Nat) : Bool :=
  !isDecoration (Text.trim (m.slice (m.lineStart (n - 1)) n))

/-- Between an offset and the line of another one ends a line that is neither comment nor attribute. -/
def SetApart (m : Masked) (stop i : Nat) : Prop :=
  ∃ n, stop ≤ n ∧ n ≤ m.lineStart i ∧ m.IsLineStart n ∧ m.plainLineBefore n = true

/-- The walk over comments and attributes stays behind an offset when another line ends behind it. -/
theorem le_decorationFrom_iff {stop start : Nat} (hstop : 0 < stop) (hstart : m.IsLineStart start) :
    stop ≤ m.decorationFrom start ↔
      ∃ n, stop ≤ n ∧ n ≤ start ∧ m.IsLineStart n ∧ m.plainLineBefore n = true := by
  induction start using Nat.strongRecOn with
  | ind start ih =>
    unfold decorationFrom
    split
    · rename_i hzero
      subst hzero
      exact ⟨fun h => absurd h (by omega), fun ⟨n, hn, hle, _⟩ => absurd hle (by omega)⟩
    · rename_i hpos
      have habove := m.lineStart_le (start - 1)
      simp only
      cases hline : isDecoration (Text.trim (m.slice (m.lineStart (start - 1)) start)) with
      | false =>
        simp only [Bool.false_eq_true, if_false]
        refine ⟨fun h => ⟨start, h, Nat.le_refl _, hstart, ?_⟩, fun ⟨n, hn, hle, _⟩ => hn.trans hle⟩
        rw [plainLineBefore, hline]
        rfl
      | true =>
        simp only [if_true]
        rw [ih _ (by omega) (isLineStart_lineStart m (start - 1))]
        refine exists_congr fun n => and_congr_right fun _ => ⟨fun ⟨hle, h⟩ => ⟨by omega, h⟩, ?_⟩
        rintro ⟨hle, hbegins, hplain⟩
        refine ⟨Nat.le_of_not_lt fun hlt => ?_, hbegins, hplain⟩
        rcases Nat.eq_or_lt_of_le hle with rfl | hinside
        · rw [plainLineBefore, hline] at hplain
          exact Bool.noConfusion hplain
        · -- no line begins inside of the line above
          rcases hbegins with rfl | ⟨k, rfl, hk⟩
          · omega
          · have := lt_lineStart hk (show k < start - 1 by omega)
            omega

/-! ## Where records stand -/

/-- Every place of the keyword begins a struct, and each of them ends. -/
def visitRecord (m : Masked) (i : Nat) : Visit (Outcome Record) :=
  .ended (m.recordAt i (m.structEnd i).1 (m.structEnd i).2) (m.structEnd i).1

theorem recordsFrom_eq (m : Masked) (places : List Nat) (start : Nat) :
    m.recordsFrom places start = (declarationsFrom m.visitRecord places start).map (·.value) := by
  induction places generalizing start with
  | nil => rfl
  | cons i places ih =>
    rw [recordsFrom, declarationsFrom]
    split
    · exact ih start
    · simp only [visitRecord, List.map_cons, ih]

/-- A struct ends behind its keyword. -/
theorem lt_structEnd (h : i < m.sourceSize) : i < (m.structEnd i).1 := by
  have hbody {opened : Nat} (hle : i ≤ opened) : i < (structEnd.body m opened).1 := by
    unfold structEnd.body
    cases hclosed : m.closer? opened with
    | none => exact h
    | some closed =>
      have := (lt_of_closer? hclosed).1
      show i < closed + 1
      omega
  unfold structEnd
  simp only
  cases hopened : m.findTopLevel? i m.sourceSize '\x7b' with
  | none =>
    cases hsemicolon : m.findTopLevel? i m.sourceSize ';' with
    | none => exact h
    | some semicolon => exact Nat.lt_succ_of_le (le_of_findTopLevel? hsemicolon)
  | some opened =>
    have hle := le_of_findTopLevel? hopened
    cases hsemicolon : m.findTopLevel? i m.sourceSize ';' with
    | none => exact hbody hle
    | some semicolon =>
      simp only
      split
      · exact hbody hle
      · exact Nat.lt_succ_of_le (le_of_findTopLevel? hsemicolon)

/-- The keyword of a struct stands in the source. -/
theorem lt_sourceSize_of_wordAt {source : List Char}
    (h : (ofSource .rust source).wordAt "struct".toList i = true) :
    i < (ofSource .rust source).sourceSize := by
  have hlast := getElem?_of_wordAt (k := 5) h rfl
  have := (cutsAt_of_byte hlast (by decide) (by decide)).2.le_sourceSize
  omega

theorem orderly_visitRecord (source : List Char) :
    Orderly (ofSource .rust source).visitRecord ((ofSource .rust source).wordStarts "struct") where
  sorted := pairwise_wordStarts _ _
  ended i hi value stop hvisit := by
    obtain ⟨-, rfl⟩ := Visit.ended.inj hvisit
    exact lt_structEnd (lt_sourceSize_of_wordAt (mem_wordStarts.1 hi).2)
  passed i hi next hvisit := absurd hvisit nofun

end Masked

namespace Record

open Masked

/-- What became of every struct of a schema, and where each one stands from its keyword to its end. -/
def located (source : String) : List (Located (Outcome Record)) :=
  let m := ofSource .rust source.toList
  declarationsFrom m.visitRecord (m.wordStarts "struct") 0

/-- Where a struct is read with what stands before it, and where the struct before it has ended. -/
def Apart (m : Masked) (s t : Located (Outcome Record)) : Prop :=
  s.span.stop ≤ m.decorationStart t.span.start

/-- The structs of a schema are read one behind the other, each from the comments and attributes above
it to its end. The fragments of two that follow one another are disjoint exactly when a line that is
neither comment nor attribute ends between them. -/
theorem fragments_apart_iff (source : String) :
    readAll source = (located source).map (·.value) ∧
      (∀ s ∈ located source, (ofSource .rust source.toList).ReadsRecord s.span.start s.value ∧
        s.span.stop = ((ofSource .rust source.toList).structEnd s.span.start).1) ∧
      (located source).IsChain fun s t => s.span.stop ≤ t.span.start ∧
        (Apart (ofSource .rust source.toList) s t ↔
          (ofSource .rust source.toList).SetApart s.span.stop t.span.start) := by
  have ho := orderly_visitRecord source.toList
  refine ⟨recordsFrom_eq _ _ _, fun s hs => ?_, ?_⟩
  · obtain ⟨hmem, hvisit⟩ := visit_of_mem hs
    obtain ⟨hvalue, hstop⟩ := Visit.ended.inj hvisit
    exact ⟨⟨(mem_wordStarts.1 hmem).2, hvalue.symm⟩, hstop.symm⟩
  · refine ((pairwise_declarationsFrom ho 0).imp_of_mem fun {s t} hs _ hst => ⟨hst, ?_⟩).isChain
    obtain ⟨hmem, hvisit⟩ := visit_of_mem hs
    exact le_decorationFrom_iff (Nat.zero_lt_of_lt (ho.ended _ hmem _ _ hvisit))
      (isLineStart_lineStart _ _)

theorem fragments_apart_iff_pointSchema : ∃ s t, located pointSchema = [s, t] ∧
    (ofSource .rust pointSchema.toList).SetApart s.span.stop t.span.start ∧
    Apart (ofSource .rust pointSchema.toList) s t := by
  have hspans : (located pointSchema).map (·.span) = [⟨15, 38⟩, ⟨39, 52⟩] := by decide +kernel
  obtain ⟨s, later, hlocated, hs, hlater⟩ := List.map_eq_cons_iff.1 hspans
  obtain ⟨t, rest, rfl, ht, hrest⟩ := List.map_eq_cons_iff.1 hlater
  obtain rfl := List.map_eq_nil_iff.1 hrest
  have hchain := (fragments_apart_iff pointSchema).2.2
  rw [hlocated] at hchain
  have hline : (ofSource .rust pointSchema.toList).SetApart s.span.stop t.span.start := by
    rw [hs, ht]
    exact ⟨_, by decide +kernel, Nat.le_refl _, isLineStart_lineStart _ 39, by decide +kernel⟩
  exact ⟨s, t, hlocated, hline, (List.isChain_cons_cons.1 hchain).1.2.2 hline⟩

/-- Two records on one line. -/
def oneLineSchema : String :=
  "pub struct A \x7b pub a: u8 \x7d pub struct B \x7b pub b: u8 \x7d"

/-- Two records on one line are handed on together, and the second one is lost by that. -/
theorem fragments_overlap :
    ¬(located oneLineSchema).IsChain (Apart (ofSource .rust oneLineSchema.toList)) ∧
      readAll oneLineSchema = [.found ⟨"A", [], [⟨"a", .scalar "u8", [], none⟩]⟩,
        .skipped ⟨.record, some "B", .notAStruct "<syn>", oneLineSchema⟩] ∧
      readAll "pub struct B \x7b pub b: u8 \x7d" =
        [.found ⟨"B", [], [⟨"b", .scalar "u8", [], none⟩]⟩] := by
  have hspans : (located oneLineSchema).map (·.span) = [⟨4, 26⟩, ⟨31, 53⟩] := by decide +kernel
  have hstart : (ofSource .rust oneLineSchema.toList).decorationStart 31 = 0 := by decide +kernel
  refine ⟨fun hchain => ?_, by decide +kernel, by decide +kernel⟩
  obtain ⟨s, later, hlocated, hs, hlater⟩ := List.map_eq_cons_iff.1 hspans
  obtain ⟨t, rest, rfl, ht, -⟩ := List.map_eq_cons_iff.1 hlater
  rw [hlocated] at hchain
  have hapart := (List.isChain_cons_cons.1 hchain).1
  rw [Apart, hs, ht, hstart] at hapart
  exact absurd hapart (by decide)

end Record

end RpcBindings
