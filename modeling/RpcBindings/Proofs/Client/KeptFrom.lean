import RpcBindings.Proofs.Client.Between
import RpcBindings.Proofs.Client.BlockShape

/-!
What is kept of a text from an offset on.

The error blocks behind an offset are found from the conditionals behind it alone, so they are the same
behind a part in which no conditional stands (`errorBlocksBehind_eq`). Main statement: such a part is
kept, and then what is kept from its end on (`keptFrom_eq_append`).
-/

namespace RpcBindings

namespace Masked

variable {m : Masked} {source : List Char} {i o o' : Nat}

/-! ## Words that stand in a part -/

theorem utf8Size_of_isWordChar {c : Char} (hc : isWordChar c = true) : c.utf8Size = 1 := by
  by_contra hwide
  rw [isWordChar_of_wide hwide] at hc
  exact Bool.noConfusion hc

theorem endsNoWord_append_word {a w : List Char} (hne : w ≠ [])
    (hw : ∀ c ∈ w, isWordChar c = true) : endsNoWord (a ++ w) = false := by
  rw [endsNoWord_append_of_ne_nil hne]
  unfold endsNoWord
  rw [List.getLast?_eq_some_getLast hne, Option.all_some, hw _ (List.getLast_mem hne)]
  rfl

/-- A word stands in a part of the code only when it is one of the part's symbols. -/
theorem CodeFrom.wordAt_eq_false {x y w : List Char} (h : (ofSource .go source).CodeFrom o (x ++ y))
    (hne : w ≠ []) (hw : ∀ c ∈ w, isWordChar c = true)
    (hborder : endsNoWord x = true ∨ beginsNoWord y = true) (hnone : w ∉ symbols x) (hi : o ≤ i)
    (hlt : i < o + Text.byteLength x) : (ofSource .go source).wordAt w i = false := by
  refine Bool.eq_false_iff.2 fun hat => ?_
  obtain ⟨c, w', rfl⟩ := List.exists_cons_of_ne_nil hne
  have hc := hw c List.mem_cons_self
  have hnarrow := utf8Size_of_isWordChar hc
  have hchar : (ofSource .go source).hasChar i c = true :=
    hasChar_of_wordAt (k := 0) hat (by rw [Text.bytes_cons_of_narrow hnarrow]; rfl)
  have hspace : c ≠ ' ' := by
    rintro rfl
    exact absurd hc nofun
  obtain ⟨-, a, b, hcode, rfl⟩ := (cutsAt_of_hasChar hchar hnarrow hspace).1
  obtain ⟨u, hu, rfl⟩ := h
  obtain ⟨rest, rfl, hends, hbegins⟩ :=
    exists_code_of_wordAt (fun d hd => utf8Size_of_isWordChar (hw d hd)) hcode hat
  obtain ⟨a, rfl, hxy, -⟩ := Text.exists_split_of_le hu hcode hi
  rw [Text.byteLength_append] at hlt
  -- the word begins in the part, and either ends there or goes on behind it
  obtain ⟨mid, rfl, -⟩ | ⟨x, rfl, hrest⟩ := List.append_eq_append_iff.1 hxy
  · rw [Text.byteLength_append] at hlt
    omega
  · have hx : x ≠ [] := by
      rintro rfl
      rw [List.append_nil] at hlt
      omega
    have hends := endsNoWord_of_append hends
    obtain ⟨later, rfl, rfl⟩ | ⟨later, hword, rfl⟩ := List.append_eq_append_iff.1 hrest
    · exact hnone (mem_symbols hne hw hends (beginsNoWord_of_append hbegins))
    · have hxw : ∀ d ∈ x, isWordChar d = true := fun d hd =>
        hw d (hword ▸ List.mem_append_left later hd)
      cases later with
      | nil =>
        have := mem_symbols (b := []) hne hw hends rfl
        rw [List.append_nil] at this hword
        rw [← hword] at hnone
        exact hnone this
      | cons d later =>
        have hd := hw d (hword ▸ List.mem_append_right x List.mem_cons_self)
        rcases hborder with hborder | hborder
        · rw [endsNoWord_append_word hx hxw] at hborder
          exact Bool.noConfusion hborder
        · unfold beginsNoWord at hborder
          simp [hd] at hborder

/-! ## Conditionals behind an offset -/

/-- Where the conditionals at or behind an offset stand. -/
def conditionalsFrom (m : Masked) (o : Nat) : List Nat :=
  (m.wordStarts "if").filter (o ≤ ·)

theorem mem_conditionalsFrom (h : i ∈ m.conditionalsFrom o) :
    o ≤ i ∧ m.wordAt "if".toList i = true := by
  obtain ⟨hi, hle⟩ := List.mem_filter.1 h
  exact ⟨by simpa using hle, (mem_wordStarts.1 hi).2⟩

theorem conditionalsFrom_zero (m : Masked) : m.conditionalsFrom 0 = m.wordStarts "if" := by
  unfold conditionalsFrom
  exact List.filter_eq_self.2 fun i _ => decide_eq_true (Nat.zero_le i)

/-- Where no conditional stands the next ones are the same. -/
theorem conditionalsFrom_eq (hle : o ≤ o')
    (h : ∀ i, o ≤ i → i < o' → m.wordAt "if".toList i = false) :
    m.conditionalsFrom o = m.conditionalsFrom o' := by
  unfold conditionalsFrom
  refine List.filter_congr fun i hi => decide_eq_decide.2 ⟨fun ho => ?_, Nat.le_trans hle⟩
  refine Nat.le_of_not_lt fun hlt => ?_
  have hword := (mem_wordStarts.1 hi).2
  rw [h i ho hlt] at hword
  exact Bool.noConfusion hword

/-- Where a conditional stands it is the first one. -/
theorem conditionalsFrom_cons (h : m.wordAt "if".toList o = true) :
    m.conditionalsFrom o = o :: m.conditionalsFrom (o + 1) := by
  have hmem := mem_wordStarts_if h
  have hsorted := pairwise_wordStarts m "if"
  unfold conditionalsFrom
  generalize m.wordStarts "if" = starts at hmem hsorted
  induction starts with
  | nil => exact absurd hmem List.not_mem_nil
  | cons i starts ih =>
    rw [List.pairwise_cons] at hsorted
    rcases List.mem_cons.1 hmem with rfl | hmem
    · rw [List.filter_cons_of_pos (by simp), List.filter_cons_of_neg (by simp)]
      exact congrArg (o :: ·) (List.filter_congr fun j hj =>
        decide_eq_decide.2 ⟨fun _ => hsorted.1 j hj, Nat.le_of_succ_le⟩)
    · have hlt := hsorted.1 o hmem
      rw [List.filter_cons_of_neg (by simpa using hlt),
        List.filter_cons_of_neg (by simpa using Nat.lt_succ_of_lt hlt), ih hmem hsorted.2]

theorem filter_conditionalsFrom (hle : o ≤ o') :
    (m.conditionalsFrom o).filter (o' ≤ ·) = m.conditionalsFrom o' := by
  unfold conditionalsFrom
  rw [List.filter_filter]
  refine List.filter_congr fun i _ => ?_
  rw [← Bool.decide_and]
  exact decide_eq_decide.2 ⟨And.left, fun h => ⟨h, Nat.le_trans hle h⟩⟩

/-! ## Error blocks behind an offset -/

/-- Conditionals before the offset at which the search goes on do not count. -/
theorem errorBlocksFrom_filter {starts : List Nat} (h : starts.Pairwise (· < ·)) (start : Nat) :
    m.errorBlocksFrom (starts.filter (start ≤ ·)) start = m.errorBlocksFrom starts start := by
  induction starts with
  | nil => rfl
  | cons i starts ih =>
    rw [List.pairwise_cons] at h
    by_cases hi : start ≤ i
    · rw [List.filter_eq_self.2 fun j hj => decide_eq_true ?_]
      rcases List.mem_cons.1 hj with rfl | hj
      · exact hi
      · exact Nat.le_trans hi (Nat.le_of_lt (h.1 j hj))
    · rw [List.filter_cons_of_neg (by simpa using hi), ih h.2]
      conv => rhs; rw [errorBlocksFrom]
      rw [if_pos (Nat.lt_of_not_le hi)]

/-- When all conditionals stand behind two offsets it does not matter from which one the search goes
on. -/
theorem errorBlocksFrom_start {starts : List Nat} (h : ∀ i ∈ starts, o ≤ i ∧ o' ≤ i) :
    m.errorBlocksFrom starts o = m.errorBlocksFrom starts o' := by
  cases starts with
  | nil => rfl
  | cons i starts =>
    obtain ⟨ho, ho'⟩ := h i List.mem_cons_self
    rw [errorBlocksFrom, errorBlocksFrom, if_neg (Nat.not_lt.2 ho), if_neg (Nat.not_lt.2 ho')]

/-- The error blocks that begin with a conditional at or behind an offset. -/
def errorBlocksBehind (m : Masked) (o : Nat) : List Span :=
  m.errorBlocksFrom (m.conditionalsFrom o) o

theorem errorBlocksFrom_conditionalsFrom (hle : o ≤ o') :
    m.errorBlocksFrom (m.conditionalsFrom o) o' = m.errorBlocksBehind o' := by
  have hsorted : (m.conditionalsFrom o).Pairwise (· < ·) :=
    (pairwise_wordStarts m "if").sublist List.filter_sublist
  rw [← errorBlocksFrom_filter hsorted, filter_conditionalsFrom hle]
  rfl

/-- Where no conditional stands the next error blocks are the same. -/
theorem errorBlocksBehind_eq (hle : o ≤ o')
    (h : ∀ i, o ≤ i → i < o' → m.wordAt "if".toList i = false) :
    m.errorBlocksBehind o = m.errorBlocksBehind o' := by
  unfold errorBlocksBehind
  rw [conditionalsFrom_eq hle h]
  exact errorBlocksFrom_start fun i hi =>
    have hi := (mem_conditionalsFrom hi).1
    ⟨Nat.le_trans hle hi, hi⟩

/-- Behind the text no error block begins. -/
theorem errorBlocksBehind_size (m : Masked) : m.errorBlocksBehind m.size = [] := by
  have hnone : m.conditionalsFrom m.size = [] := by
    refine List.filter_eq_nil_iff.2 fun i hi => ?_
    have := (mem_wordStarts.1 hi).1
    simpa using this
  unfold errorBlocksBehind
  rw [hnone, errorBlocksFrom]

theorem errorBlocksBehind_zero (m : Masked) : m.errorBlocksBehind 0 = m.errorBlocks := by
  unfold errorBlocksBehind
  rw [conditionalsFrom_zero]
  rfl

section Conditional

variable {opened closed : Nat}

/-- A conditional that does not test for an error is passed. -/
theorem errorBlocksBehind_of_passed (hword : m.wordAt "if".toList i = true)
    (hopened : m.findTopLevel? (i + "if".length) m.size '\x7b' = some opened)
    (htests : Client.testsError (Text.trim (m.slice (i + "if".length) opened)) = false) :
    m.errorBlocksBehind i = m.errorBlocksBehind (i + "if".length) := by
  conv => lhs; unfold errorBlocksBehind
  rw [conditionalsFrom_cons hword, errorBlocksFrom, if_neg (Nat.lt_irrefl i)]
  simp only [hopened, htests, Bool.false_eq_true, if_false]
  exact errorBlocksFrom_conditionalsFrom (Nat.le_succ (i + 1))

/-- A conditional that tests for an error is the first block. -/
theorem errorBlocksBehind_of_tests (hword : m.wordAt "if".toList i = true)
    (hopened : m.findTopLevel? (i + "if".length) m.size '\x7b' = some opened)
    (htests : Client.testsError (Text.trim (m.slice (i + "if".length) opened)) = true)
    (hclosed : m.closer? opened = some closed)
    (hle : i + 1 ≤ (m.widen i (m.chainStop (closed + 1))).stop) :
    m.errorBlocksBehind i = m.widen i (m.chainStop (closed + 1)) ::
      m.errorBlocksBehind (m.widen i (m.chainStop (closed + 1))).stop := by
  conv => lhs; unfold errorBlocksBehind
  rw [conditionalsFrom_cons hword, errorBlocksFrom, if_neg (Nat.lt_irrefl i)]
  simp only [hopened, htests, if_true, hclosed]
  exact congrArg _ (errorBlocksFrom_conditionalsFrom hle)

end Conditional

/-! ## What is kept -/

/-- What is kept of the source from an offset on. -/
def keptFrom (m : Masked) (o : Nat) : List Char :=
  Client.without m.source o (m.errorBlocksBehind o)

theorem keptStatements?_eq (t : List Char) :
    Client.keptStatements? t = Text.tidy? ((ofSource .go t).keptFrom 0) := by
  unfold Client.keptStatements? keptFrom
  rw [errorBlocksBehind_zero]
  rfl

/-- Nothing is kept behind the text. -/
theorem keptFrom_size (h : m.size = m.sourceSize) : m.keptFrom m.size = [] := by
  unfold keptFrom
  rw [errorBlocksBehind_size, Client.without, h]
  have := Text.dropBytes_append m.source []
  rwa [List.append_nil] at this

/-- A part before the first one that is left out is kept. -/
theorem SourceFrom.without {x rest : List Char} {ss : List Span} (h : m.SourceFrom o (x ++ rest))
    (hparts : m.PartsFrom (o + Text.byteLength x) ss) :
    Client.without m.source o ss = x ++ Client.without m.source (o + Text.byteLength x) ss := by
  obtain ⟨a, hsource, rfl⟩ := h
  have hsource' : m.source = a ++ x ++ rest := by rw [hsource, List.append_assoc]
  rw [← Text.byteLength_append] at hparts ⊢
  cases ss with
  | nil =>
    rw [Client.without, Client.without]
    conv => lhs; rw [hsource, Text.dropBytes_append]
    rw [hsource', Text.dropBytes_append]
  | cons s ss =>
    obtain ⟨hle, -, ⟨⟨b, after, hb, hbs⟩, -⟩, -⟩ := hparts
    rw [← hbs] at hle
    obtain ⟨mid, rfl, -, hcut⟩ := Text.exists_split_of_le hsource' hb hle
    have hlonger : Text.byteLength a ≤ Text.byteLength (a ++ x ++ mid) := by
      rw [Text.byteLength_append, Text.byteLength_append]
      omega
    obtain ⟨mid', heq, -, hcut'⟩ := Text.exists_split_of_le hsource hb hlonger
    rw [List.append_assoc] at heq
    obtain rfl := List.append_cancel_left heq
    rw [Client.without, Client.without, ← hbs, hcut, hcut', List.append_assoc]

theorem keptFrom_eq_append (hunsplit : Unsplit (glyphs .go source)) {x rest : List Char}
    (h : (ofSource .go source).SourceFrom o (x ++ rest))
    (hsep : (ofSource .go source).Separates (o + Text.byteLength x))
    (hblocks : (ofSource .go source).errorBlocksBehind o =
      (ofSource .go source).errorBlocksBehind (o + Text.byteLength x)) :
    (ofSource .go source).keptFrom o =
      x ++ (ofSource .go source).keptFrom (o + Text.byteLength x) := by
  unfold keptFrom
  rw [hblocks]
  exact h.without (parts_errorBlocksFrom hunsplit (fun i hi => (mem_conditionalsFrom hi).2) hsep)

end Masked

end RpcBindings
