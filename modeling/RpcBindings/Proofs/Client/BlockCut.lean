import RpcBindings.Proofs.Client.ErrorBlock
import RpcBindings.Proofs.Text.Cut

/-!
Cuts that leave out error blocks.

The search for the error blocks of a text looks at parts of it, and what is kept is put together from
the parts between them (`without_eq`). `BlockCut` lists all these cuts. Main statement
(`BlockCut.isSome_cut?`): each of them falls between characters, in order and inside the text, when
the text tears no character of several bytes.
-/

namespace RpcBindings

namespace Text

/-! ## Cuts at boundaries -/

/-- Between two boundaries in order a text can be cut. -/
theorem isSome_cut? {cs a a' b b' : List Char} (ha : cs = a ++ a') (hb : cs = b ++ b')
    (hle : byteLength a ≤ byteLength b) :
    (cut? (byteLength a) (byteLength b) cs).isSome = true := by
  obtain ⟨mid, rfl, rfl, -⟩ := exists_split_of_le ha hb hle
  rw [cut?_eq_some_iff.2 ⟨a, b', ha, rfl, (byteLength_append a mid).symm⟩]
  rfl

theorem takeBytes_of_le {n : Nat} {cs : List Char} (h : byteLength cs ≤ n) : takeBytes n cs = cs := by
  induction cs generalizing n with
  | nil => cases n <;> rfl
  | cons c cs ih =>
    have hc := Char.utf8Size_pos c
    rw [byteLength_cons] at h
    cases n with
    | zero => omega
    | succ n => rw [takeBytes, ih (by omega)]

theorem byteLength_dropBytes_le (n : Nat) (cs : List Char) :
    byteLength (dropBytes n cs) ≤ byteLength cs - n := by
  induction n, cs using dropBytes.induct with
  | case1 cs => rw [dropBytes, Nat.sub_zero]
  | case2 n => exact Nat.zero_le _
  | case3 n c cs ih =>
    rw [dropBytes, byteLength_cons]
    omega

/-- What follows an offset is cut out up to the end of the text. -/
theorem cut_byteLength (start : Nat) (cs : List Char) :
    cut start (byteLength cs) cs = dropBytes start cs :=
  takeBytes_of_le (byteLength_dropBytes_le start cs)

end Text

namespace Masked

variable {m : Masked} {i j : Nat}

theorem CutsAt.isSome_cut?_source (hi : m.CutsAt i) (hj : m.CutsAt j) (hij : i ≤ j) :
    (Text.cut? i j m.source).isSome = true := by
  obtain ⟨⟨a, a', ha, rfl⟩, -⟩ := hi
  obtain ⟨⟨b, b', hb, rfl⟩, -⟩ := hj
  exact Text.isSome_cut? ha hb hij

theorem CutsAt.isSome_cut?_code (hi : m.CutsAt i) (hj : m.CutsAt j) (hij : i ≤ j) :
    (Text.cut? i j m.code).isSome = true := by
  obtain ⟨-, a, a', ha, rfl⟩ := hi
  obtain ⟨-, b, b', hb, rfl⟩ := hj
  exact Text.isSome_cut? ha hb hij

/-- The rest of the source can be cut off at a boundary. -/
theorem CutsAt.isSome_cut?_rest (hi : m.CutsAt i) :
    (Text.cut? i m.sourceSize m.source).isSome = true := by
  have hle := hi.le_sourceSize
  obtain ⟨⟨a, a', ha, rfl⟩, -⟩ := hi
  exact Text.isSome_cut? ha (List.append_nil _).symm hle

/-! ## The cuts -/

/-- The parts of a text that are kept from an offset on, between some blocks. -/
def keptParts (m : Masked) : Nat → List Span → List Span
  | start, [] => [⟨start, m.sourceSize⟩]
  | start, s :: rest => ⟨start, s.start⟩ :: m.keptParts s.stop rest

/-- What is kept of a text is put together from its parts between the blocks. -/
theorem without_eq (m : Masked) (start : Nat) (blocks : List Span) :
    Client.without m.source start blocks = (m.keptParts start blocks).flatMap m.spanText := by
  induction blocks generalizing start with
  | nil =>
    show Text.dropBytes start m.source = m.slice start m.sourceSize ++ []
    rw [List.append_nil]
    exact (Text.cut_byteLength start m.source).symm
  | cons s rest ih =>
    rw [Client.without, ih, keptParts, List.flatMap_cons]
    rfl

/-- The cuts that are made to find the error blocks of a text and to leave them out: the text that is
cut, and the offsets. -/
inductive BlockCut (m : Masked) : List Char → Nat → Nat → Prop
  /-- What stands before a keyword on its line. -/
  | line {i : Nat} (keyword : i ∈ m.wordStarts "if") : BlockCut m m.code (m.lineStart i) i
  | condition {i opened : Nat} (keyword : i ∈ m.wordStarts "if")
      (brace : m.findTopLevel? (i + "if".length) m.size '\x7b' = some opened) :
      BlockCut m m.source (i + "if".length) opened
  /-- What a condition compares `err` with. -/
  | comparison {condition : List Char} {k : Nat}
      (err : k ∈ (ofSource .go condition).wordStarts "err") :
      BlockCut m condition (k + "err".length) (Text.byteLength condition)
  /-- What stands behind the last branch on its line. -/
  | lineEnd {opened closed : Nat} (opens : m.hasChar opened '\x7b' = true)
      (closes : m.closer? opened = some closed) :
      BlockCut m m.code (m.chainStop (closed + 1)) (m.lineEnd (m.chainStop (closed + 1)))
  | kept {s : Span} (part : s ∈ m.keptParts 0 m.errorBlocks) : BlockCut m m.source s.start s.stop

/-- The parts between blocks can be cut out when the blocks stand one after the other. -/
theorem isSome_of_mem_keptParts {start : Nat} {blocks : List Span} (hstart : m.CutsAt start)
    (hparts : m.PartsFrom start blocks) {s : Span} (hs : s ∈ m.keptParts start blocks) :
    (Text.cut? s.start s.stop m.source).isSome = true := by
  induction blocks generalizing start with
  | nil =>
    obtain rfl := List.mem_singleton.1 hs
    exact hstart.isSome_cut?_rest
  | cons b rest ih =>
    obtain ⟨hle, -, hbegin, hend, hlater⟩ := hparts
    rcases List.mem_cons.1 hs with rfl | hs
    · exact hstart.isSome_cut?_source hbegin hle
    · exact ih hend hlater hs

/-- Error blocks are found and left out without a cut inside a character or outside the text. -/
theorem BlockCut.isSome_cut? {t text : List Char} (hunsplit : Unsplit (glyphs .go t))
    (h : (ofSource .go t).BlockCut text i j) : (Text.cut? i j text).isSome = true := by
  cases h with
  | line keyword =>
    have hfirst := hasChar_of_wordAt (k := 0) (c := 'i') (mem_wordStarts.1 keyword).2 rfl
    exact (isLineStart_lineStart _ _).cutsAt.isSome_cut?_code
      (cutsAt_of_hasChar hfirst (by decide) (by decide)).1 (lineStart_le _ _)
  | condition keyword brace =>
    have hsecond := hasChar_of_wordAt (k := 1) (c := 'f') (mem_wordStarts.1 keyword).2 rfl
    exact (cutsAt_of_hasChar hsecond (by decide) (by decide)).2.isSome_cut?_source
      (cutsAt_of_hasChar (hasChar_of_findTopLevel? brace) (by decide) (by decide)).1
      (le_of_findTopLevel? brace)
  | comparison err =>
    have hthird := hasChar_of_wordAt (k := 2) (c := 'r') (mem_wordStarts.1 err).2 rfl
    exact (cutsAt_of_hasChar hthird (by decide) (by decide)).2.isSome_cut?_rest
  | lineEnd opens closes =>
    obtain ⟨k, hstop, -, hchar⟩ := chainStop_spec (hasChar_closer (d := .brace) opens closes)
    rw [hstop]
    have hsize : k + 1 ≤ (ofSource .go t).size := lt_size_of_hasChar hchar
    exact (cutsAt_of_hasChar hchar (by decide) (by decide)).2.isSome_cut?_code
      (separates_lineEnd hunsplit hsize).cutsAt (lineEnd_spec hsize).1
  | kept part => exact isSome_of_mem_keptParts (cutsAt_zero _) (parts_errorBlocks hunsplit) part

end Masked

end RpcBindings
