import RpcBindings.Proofs.Client.Entries
import RpcBindings.Proofs.Masked.TopLevel

/-!
The bodies of functions.

The body of a function opens at the first brace at top level behind its keyword that no keyword
`interface` or `struct` stands before, and closes at the partner of that brace (`Masked.OwnBody`). The
search for it does not tell these keywords from names that only end as one of them. Main statement:
where every function has a body of its own, and no such name stands before it, the functions of a file
are those that begin their line outside of all others, each from its keyword to the end of its own body
(`ClientFile.functions_own_bodies`). Behind such a name a function takes the next one's body for its
own (`ClientFile.body_behind_struct`).
-/

namespace RpcBindings

namespace Masked

variable {m : Masked} {i j : Nat}

/-! ## Own bodies -/

/-- Behind an offset the first brace at top level that belongs to no type stands at another one. -/
structure OwnBrace (m : Masked) (start opened : Nat) : Prop where
  le : start ≤ opened
  brace : m.hasChar opened '\x7b' = true
  top : WellNested (m.byteSlice start opened)
  own : m.followsKeyword opened = false
  first : ∀ k < opened, start ≤ k → m.hasChar k '\x7b' = true → WellNested (m.byteSlice start k) →
    m.followsKeyword k = true

/-- The function at an offset has a body of its own between two braces: no other function begins
before it at top level, and what stands in it is well nested. -/
structure OwnBody (m : Masked) (i opened closed : Nat) : Prop
    extends m.OwnBrace (i + "func".length) opened where
  alone : ∀ k < opened, i < k → m.BeginsFunction k →
    ¬WellNested (m.byteSlice (i + "func".length) k)
  lt : opened < closed
  closes : m.hasChar closed '\x7d' = true
  inside : WellNested (m.byteSlice (opened + 1) closed)

/-- A function begins at an offset, and not in another one. -/
def OuterFunction (m : Masked) (i : Nat) : Prop :=
  m.BeginsFunction i ∧ ∀ j opened closed, m.BeginsFunction j → m.OwnBody j opened closed →
    j < i → closed < i

instance (m : Masked) (start opened : Nat) : Decidable (m.OwnBrace start opened) :=
  decidable_of_iff (start ≤ opened ∧ m.hasChar opened '\x7b' = true ∧
      WellNested (m.byteSlice start opened) ∧ m.followsKeyword opened = false ∧
      ∀ k < opened, start ≤ k → m.hasChar k '\x7b' = true → WellNested (m.byteSlice start k) →
        m.followsKeyword k = true)
    ⟨fun ⟨hle, hbrace, htop, hown, hfirst⟩ => ⟨hle, hbrace, htop, hown, hfirst⟩,
      fun h => ⟨h.le, h.brace, h.top, h.own, h.first⟩⟩

instance (m : Masked) (i opened closed : Nat) : Decidable (m.OwnBody i opened closed) :=
  decidable_of_iff (m.OwnBrace (i + "func".length) opened ∧
      (∀ k < opened, i < k → m.BeginsFunction k → ¬WellNested (m.byteSlice (i + "func".length) k)) ∧
      opened < closed ∧ m.hasChar closed '\x7d' = true ∧ WellNested (m.byteSlice (opened + 1) closed))
    ⟨fun ⟨hbrace, halone, hlt, hcloses, hinside⟩ => ⟨hbrace, halone, hlt, hcloses, hinside⟩,
      fun h => ⟨h.toOwnBrace, h.alone, h.lt, h.closes, h.inside⟩⟩

theorem opensType_of_followsKeyword (h : m.followsKeyword i = true) : m.opensType i = true := by
  unfold followsKeyword at h
  obtain ⟨word, hword, hends⟩ := List.any_eq_true.1 h
  have hsuffix : word.toList.isSuffixOf (Text.trimEnd (m.codeSlice 0 i)) = true := by
    cases hstrip : Text.stripSuffix? word.toList (Text.trimEnd (m.codeSlice 0 i)) with
    | none =>
      rw [hstrip] at hends
      exact absurd hends nofun
    | some before =>
      rw [List.isSuffixOf_iff_suffix]
      exact ⟨before, (Text.stripSuffix?_eq_some_iff.1 hstrip).symm⟩
  unfold opensType
  simp only [Bool.or_eq_true]
  rcases List.mem_cons.1 hword with rfl | hword
  · exact .inl hsuffix
  · rcases List.mem_cons.1 hword with rfl | hword
    · exact .inr hsuffix
    · exact absurd hword List.not_mem_nil

/-- A brace of a function's own is found, unless a name before it only ends as a keyword. -/
theorem OwnBrace.bodyOpener? {start opened : Nat} (h : m.OwnBrace start opened)
    (hname : m.opensType opened = false) : m.bodyOpener? start = some opened := by
  obtain ⟨n, hn⟩ : ∃ n, n = opened - start := ⟨_, rfl⟩
  induction n using Nat.strongRecOn generalizing start with
  | ind n ih =>
    obtain ⟨k, hk, hstart, hle, htop⟩ := exists_findTopLevel? h.le h.brace h.top
    have hbrace := hasChar_of_findTopLevel? hk
    rw [bodyOpener?_eq, hk, Option.bind_some]
    rcases Nat.eq_or_lt_of_le hle with rfl | hlt
    · rw [if_neg (by rw [hname]; decide)]
    · have hsize := Nat.le_of_lt (lt_size_of_hasChar h.brace)
      obtain ⟨closed, hclosed, hkc, hco, hread, hrest⟩ :=
        exists_closer?_of_wellNested (d := .brace) hstart hlt hsize hbrace htop h.top
      rw [if_pos (opensType_of_followsKeyword (h.first k hlt hstart hbrace htop)), hclosed,
        Option.bind_some]
      refine ih (opened - (closed + 1)) (by omega) ⟨hco, h.brace, hrest, h.own, ?_⟩ rfl
      intro k' hk' hle' hbrace' htop'
      refine h.first k' hk' (by omega) hbrace' ?_
      rw [byteSlice_append (show start ≤ closed + 1 by omega) hle']
      exact hread.append htop'

theorem OwnBrace.unique {start opened opened' : Nat} (h : m.OwnBrace start opened)
    (h' : m.OwnBrace start opened') : opened = opened' := by
  have hle {a b : Nat} (ha : m.OwnBrace start a) (hb : m.OwnBrace start b) : b ≤ a := by
    refine Nat.le_of_not_lt fun hlt => ?_
    have hkeyword := hb.first a hlt ha.le ha.brace ha.top
    rw [ha.own] at hkeyword
    exact Bool.noConfusion hkeyword
  exact Nat.le_antisymm (hle h' h) (hle h h')

theorem OwnBody.closer? {opened closed : Nat} (h : m.OwnBody i opened closed) :
    m.closer? opened = some closed :=
  closer?_of_wellNested (d := .brace) h.brace h.lt h.closes h.inside

theorem OwnBody.unique {opened closed opened' closed' : Nat} (h : m.OwnBody i opened closed)
    (h' : m.OwnBody i opened' closed') : opened = opened' ∧ closed = closed' := by
  obtain rfl := h.toOwnBrace.unique h'.toOwnBrace
  exact ⟨rfl, Option.some.inj (h.closer?.symm.trans h'.closer?)⟩

theorem OwnBrace.nestFrom_succ {start opened : Nat} (h : m.OwnBrace start opened) :
    nestFrom [] (m.byteSlice start (opened + 1)) = some [.brace] := by
  rw [byteSlice_succ (hasChar_iff.1 h.brace) h.le, nestFrom_append_of_eq h.top, nestFrom]
  exact nestStep_opener .brace []

/-- From the keyword to the end of its body a function is well nested. -/
theorem OwnBody.wellNested {opened closed : Nat} (h : m.OwnBody i opened closed) :
    WellNested (m.byteSlice (i + "func".length) (closed + 1)) := by
  have hclosed : nestFrom [] (m.byteSlice (i + "func".length) closed) = some [.brace] := by
    rw [byteSlice_append (Nat.le_succ_of_le h.le) h.lt, nestFrom_append_of_eq h.nestFrom_succ,
      WellNested.nestFrom h.inside]
  unfold WellNested
  rw [byteSlice_succ (hasChar_iff.1 h.closes) (h.le.trans (Nat.le_of_lt h.lt)),
    nestFrom_append_of_eq hclosed, nestFrom]
  exact nestStep_closer .brace []

/-- Inside of a body its brace is open. -/
theorem OwnBody.exists_open {opened closed : Nat} (h : m.OwnBody i opened closed)
    (hopened : opened < j) (hclosed : j ≤ closed) :
    ∃ st, nestFrom [] (m.byteSlice (i + "func".length) j) = some (st ++ [.brace]) := by
  have hinside := h.inside
  unfold WellNested at hinside
  rw [byteSlice_append hopened hclosed] at hinside
  obtain ⟨st, hst, -⟩ := nestFrom_append_eq_some.1 hinside
  refine ⟨st, ?_⟩
  rw [byteSlice_append (Nat.le_succ_of_le h.le) hopened, nestFrom_append_of_eq h.nestFrom_succ]
  exact nestFrom_frame hst [.brace]

/-- A function that begins in another one ends in it. -/
theorem OwnBody.closed_le {opened closed opened' closed' : Nat} (hj : m.BeginsFunction j)
    (h : m.OwnBody i opened closed) (h' : m.OwnBody j opened' closed')
    (hi : m.BeginsFunction i) (hij : i < j) (hjc : j ≤ closed) : closed' ≤ closed := by
  refine Nat.le_of_not_lt fun hlt => ?_
  have hhead : i + "func".length ≤ j := add_le_of_wordAt_func hi.1 hj.1 hij
  have hword : j + "func".length ≤ closed :=
    add_length_le_of_wordAt hj.1 hjc (hasChar_iff.1 h.closes) (by decide)
  -- what is open behind the inner keyword is still open where the outer function ends
  have hnest := h.wellNested
  have hnest' := h'.wellNested
  unfold WellNested at hnest hnest'
  rw [byteSlice_append (show i + "func".length ≤ j + "func".length by omega)
    (show j + "func".length ≤ closed + 1 by omega)] at hnest
  rw [byteSlice_append (show j + "func".length ≤ closed + 1 by omega)
    (show closed + 1 ≤ closed' + 1 by omega)] at hnest'
  obtain ⟨st, hst, hrest⟩ := nestFrom_append_eq_some.1 hnest
  obtain ⟨st', hst', -⟩ := nestFrom_append_eq_some.1 hnest'
  have happend : st' ++ st = [] :=
    Option.some.inj ((nestFrom_frame hst' st).symm.trans hrest)
  obtain rfl : st = [] := (List.append_eq_nil_iff.1 happend).2
  -- nothing is open before the keyword either, which is so neither in the body nor at its brace
  have hfunc : WellNested (m.byteSlice j (j + "func".length)) := by
    rw [show "func".length = (Text.bytes "func".toList).length from rfl,
      byteSlice_of_isPrefixOf (isPrefixOf_of_wordAt hj.1)]
    decide
  rw [byteSlice_append hhead (Nat.le_add_right j _)] at hst
  obtain ⟨before, hbefore, hafter⟩ := nestFrom_append_eq_some.1 hst
  obtain rfl : before = [] := Option.some.inj ((hfunc.nestFrom before).symm.trans hafter)
  rcases Nat.lt_trichotomy j opened with hlt | rfl | hlt
  · exact h.alone j hlt hij hj hbefore
  · have hbrace := hasChar_iff.1 h.brace
    have hfirst := getElem?_of_wordAt (k := 0) hj.1 rfl
    exact absurd (hbrace.symm.trans hfirst) (by decide)
  · obtain ⟨open', hopen'⟩ := h.exists_open hlt hjc
    exact absurd (Option.some.inj (hbefore.symm.trans hopen')) (by simp)

/-! ## Functions and their own bodies -/

theorem start_lt_closed {f : FunctionSpan} (h : f ∈ m.functions) : f.start < f.closed := by
  obtain ⟨-, -, hopened, hclosed⟩ := mem_functions h
  have := (bodyOpener?_eq_some hopened).1
  have := (lt_of_closer? hclosed).1
  have : f.head = f.start + 4 := rfl
  omega

/-- A function that is found does not begin in another one that is found. -/
theorem outside_of_mem {f : FunctionSpan} (h : f ∈ m.functions) :
    Outside (m.functions.map FunctionSpan.whole) f.start := by
  intro s hs hlt
  obtain ⟨g, hg, rfl⟩ := List.mem_map.1 hs
  have hends := start_lt_closed h
  obtain ⟨k, hk, rfl⟩ := List.mem_iff_getElem.1 h
  obtain ⟨l, hl, rfl⟩ := List.mem_iff_getElem.1 hg
  have hpairwise := List.pairwise_iff_getElem.1 (pairwise_functions m)
  rcases Nat.lt_trichotomy k l with hkl | rfl | hlk
  · have := hpairwise k l hk hl hkl
    have : m.functions[l].whole.start = m.functions[l].start := rfl
    omega
  · exact absurd hlt (Nat.lt_irrefl _)
  · exact hpairwise l k hl hk hlk

section OwnBodies

variable (hbody : ∀ i, m.OuterFunction i → ∃ opened closed, m.OwnBody i opened closed)
  (hname : ∀ i opened closed, m.OuterFunction i → m.OwnBody i opened closed →
    m.opensType opened = false)

include hname in
/-- A function that is found is found with its own body. -/
theorem eq_of_ownBody {f : FunctionSpan} (hf : f ∈ m.functions) {opened closed : Nat}
    (ho : m.OuterFunction f.start) (h : m.OwnBody f.start opened closed) :
    f.opened = opened ∧ f.closed = closed := by
  obtain ⟨-, -, hopened, hclosed⟩ := mem_functions hf
  obtain rfl := Option.some.inj (hopened.symm.trans (h.bodyOpener? (hname _ _ _ ho h)))
  exact ⟨rfl, Option.some.inj (hclosed.symm.trans h.closer?)⟩

include hbody hname in
theorem ownBody_of_mem {f : FunctionSpan} (hf : f ∈ m.functions) (ho : m.OuterFunction f.start) :
    m.OwnBody f.start f.opened f.closed := by
  obtain ⟨opened, closed, h⟩ := hbody _ ho
  obtain ⟨rfl, rfl⟩ := eq_of_ownBody hname hf ho h
  exact h

include hbody hname in
theorem not_endless_of_outer (ho : m.OuterFunction i) : ¬m.EndlessFunction i := by
  obtain ⟨opened, closed, h⟩ := hbody i ho
  unfold EndlessFunction
  rw [h.bodyOpener? (hname i opened closed ho h), Option.bind_some, h.closer?]
  exact nofun

include hbody hname in
/-- Up to a place where only functions with bodies of their own begin, each of them is found. -/
theorem exists_mem_of_outside (hi : m.BeginsFunction i)
    (hout : Outside (m.functions.map FunctionSpan.whole) i)
    (houter : ∀ j ≤ i, m.BeginsFunction j → Outside (m.functions.map FunctionSpan.whole) j →
      m.OuterFunction j) : ∃ f ∈ m.functions, f.start = i := by
  obtain ⟨k, ⟨s, hs, hstart⟩, -⟩ := (accounted_functions m i hi hout).2 fun j hji hj hjout =>
    not_endless_of_outer hbody hname (houter j hji hj hjout)
  obtain ⟨f, hf, rfl⟩ := List.mem_map.1 (List.mem_of_getElem? hs)
  exact ⟨f, hf, hstart⟩

include hbody hname in
/-- A function that begins outside of those that are found begins in no other one. -/
theorem outer_of_outside (hi : m.BeginsFunction i)
    (hout : Outside (m.functions.map FunctionSpan.whole) i) : m.OuterFunction i := by
  induction i using Nat.strongRecOn with
  | ind i ih =>
    refine ⟨hi, fun j opened closed hj h hji => ?_⟩
    by_cases hjout : Outside (m.functions.map FunctionSpan.whole) j
    · obtain ⟨f, hf, rfl⟩ := exists_mem_of_outside hbody hname hj hjout fun k hkj hk hkout =>
        ih k (by omega) hk hkout
      obtain ⟨-, rfl⟩ := eq_of_ownBody hname hf (ih f.start hji hj hjout) h
      exact hout f.whole (List.mem_map_of_mem hf) hji
    · -- the function begins in one that is found, so it ends in it
      obtain ⟨s, hs, hin⟩ : ∃ s ∈ m.functions.map FunctionSpan.whole, s.start < j ∧ j < s.stop := by
        simpa [Outside] using hjout
      obtain ⟨f, hf, rfl⟩ := List.mem_map.1 hs
      obtain ⟨hword, hline, -, -⟩ := mem_functions hf
      have hfi : f.start < i := Nat.lt_trans hin.1 hji
      have hown := ownBody_of_mem hbody hname hf (ih f.start hfi ⟨hword, hline⟩ (outside_of_mem hf))
      have hle := hown.closed_le hj h ⟨hword, hline⟩ hin.1 (Nat.le_of_lt_succ hin.2)
      exact Nat.lt_of_le_of_lt hle (hout f.whole (List.mem_map_of_mem hf) hfi)

include hbody hname in
theorem outer_of_mem {f : FunctionSpan} (hf : f ∈ m.functions) : m.OuterFunction f.start := by
  obtain ⟨hword, hline, -, -⟩ := mem_functions hf
  exact outer_of_outside hbody hname ⟨hword, hline⟩ (outside_of_mem hf)

include hbody hname in
theorem outside_of_outer (ho : m.OuterFunction i) :
    Outside (m.functions.map FunctionSpan.whole) i := by
  intro s hs hlt
  obtain ⟨f, hf, rfl⟩ := List.mem_map.1 hs
  obtain ⟨hword, hline, -, -⟩ := mem_functions hf
  exact ho.2 f.start f.opened f.closed ⟨hword, hline⟩
    (ownBody_of_mem hbody hname hf (outer_of_mem hbody hname hf)) hlt

include hbody hname in
/-- The functions that are found are the outer ones with their own bodies. -/
theorem mem_functions_iff {f : FunctionSpan} : f ∈ m.functions ↔
    m.OuterFunction f.start ∧ m.OwnBody f.start f.opened f.closed := by
  constructor
  · intro hf
    have ho := outer_of_mem hbody hname hf
    exact ⟨ho, ownBody_of_mem hbody hname hf ho⟩
  · rintro ⟨ho, h⟩
    obtain ⟨⟨_, opened, closed⟩, hg, rfl⟩ := exists_mem_of_outside hbody hname ho.1
      (outside_of_outer hbody hname ho) fun j _ => outer_of_outside hbody hname
    obtain ⟨rfl, rfl⟩ := eq_of_ownBody hname hg ho h
    exact hg

end OwnBodies

end Masked

namespace ClientFile

open Masked

/-- When every function of a file that begins in no other one has a body of its own, and no name
before that body only ends as `interface` or `struct`, the functions of the file are these with their
own bodies, one behind the other. The file has one entry for each when it can be read. -/
theorem functions_own_bodies (source : String)
    (hbody : ∀ i, (ofSource .go source.toList).OuterFunction i →
      ∃ opened closed, (ofSource .go source.toList).OwnBody i opened closed)
    (hname : ∀ i opened closed, (ofSource .go source.toList).OuterFunction i →
      (ofSource .go source.toList).OwnBody i opened closed →
        (ofSource .go source.toList).opensType opened = false) :
    (∀ f, f ∈ (ofSource .go source.toList).functions ↔
      (ofSource .go source.toList).OuterFunction f.start ∧
        (ofSource .go source.toList).OwnBody f.start f.opened f.closed) ∧
    (ofSource .go source.toList).functions.Pairwise (fun f g => f.closed < g.start) ∧
    ∀ options, ((read? options source).isSome = true ↔
        (∀ f ∈ (ofSource .go source.toList).functions,
          ((ofSource .go source.toList).readFunction? options.primitives f).isSome = true) ∧
        (ofSource .go source.toList).imports?.isSome = true) ∧
      ∀ file, read? options source = some file →
        List.Forall₂ (fun f g => (ofSource .go source.toList).outcomeOf? options.primitives
            file.clientType? f = some g.outcome)
          (ofSource .go source.toList).functions file.functions :=
  ⟨fun _ => mem_functions_iff hbody hname, pairwise_functions _,
    fun options => ⟨isSome_read? options source, fun _ => forall₂_functions⟩⟩

theorem functions_own_bodies_openedClient :
    (∀ i, (ofSource .go openedClient.toList).OuterFunction i →
      ∃ opened closed, (ofSource .go openedClient.toList).OwnBody i opened closed) ∧
    (∀ i opened closed, (ofSource .go openedClient.toList).OuterFunction i →
      (ofSource .go openedClient.toList).OwnBody i opened closed →
        (ofSource .go openedClient.toList).opensType opened = false) ∧
    (ofSource .go openedClient.toList).functions = [⟨0, 24, 38⟩, ⟨41, 77, 116⟩] ∧
    (ofSource .go openedClient.toList).OwnBody 0 24 38 ∧
    (ofSource .go openedClient.toList).OwnBody 41 77 116 ∧
    ∃ file, read? ⟨["CallRPC"], none⟩ openedClient = some file ∧ file.functions.length = 2 := by
  have hstarts : (ofSource .go openedClient.toList).wordStarts "func" = [0, 41] := by
    decide +kernel
  have hfirst : (ofSource .go openedClient.toList).OwnBody 0 24 38 := by decide +kernel
  have hsecond : (ofSource .go openedClient.toList).OwnBody 41 77 116 := by decide +kernel
  have hmem {i : Nat} (h : (ofSource .go openedClient.toList).OuterFunction i) : i = 0 ∨ i = 41 := by
    have := (beginsFunction_iff.1 h.1).1
    rw [hstarts] at this
    simpa using this
  have hbody : ∀ i, (ofSource .go openedClient.toList).OuterFunction i →
      ∃ opened closed, (ofSource .go openedClient.toList).OwnBody i opened closed := by
    intro i h
    rcases hmem h with rfl | rfl
    · exact ⟨_, _, hfirst⟩
    · exact ⟨_, _, hsecond⟩
  have hname : ∀ i opened closed, (ofSource .go openedClient.toList).OuterFunction i →
      (ofSource .go openedClient.toList).OwnBody i opened closed →
        (ofSource .go openedClient.toList).opensType opened = false := by
    intro i opened closed h hown
    rcases hmem h with rfl | rfl
    · obtain ⟨rfl, -⟩ := hown.unique hfirst
      decide +kernel
    · obtain ⟨rfl, -⟩ := hown.unique hsecond
      decide +kernel
  have hfunctions : (ofSource .go openedClient.toList).functions = [⟨0, 24, 38⟩, ⟨41, 77, 116⟩] := by
    decide +kernel
  obtain ⟨hall, -, hentries⟩ := functions_own_bodies openedClient hbody hname
  obtain ⟨file, hfile⟩ := exists_read?_of_narrowBlanks ⟨["CallRPC"], none⟩ openedClient
    (by decide +kernel) (by decide +kernel)
  have hlength := ((hentries _).2 file hfile).length_eq
  rw [hfunctions] at hall hlength
  exact ⟨hbody, hname, hfunctions, ((hall ⟨0, 24, 38⟩).1 (by decide)).2,
    ((hall ⟨41, 77, 116⟩).1 (by decide)).2, file, hfile, hlength.symm⟩

/-- A method whose result type is a name that ends as a keyword, and a method without results. -/
def namedStruct : String :=
  "func (c *C) F() mystruct \x7b\n\x7d\nfunc (c *C) G() \x7b\n\x7d\n"

/-- Behind a name that ends as `struct` the body of a function is taken for a type. Of two functions
with bodies of their own the first one then ends with the second, which has no entry. -/
theorem body_behind_struct :
    WellNested (ofSource .go namedStruct.toList).bytes ∧
      (∀ i, (ofSource .go namedStruct.toList).BeginsFunction i →
        ∃ opened closed, (ofSource .go namedStruct.toList).OwnBody i opened closed) ∧
      (ofSource .go namedStruct.toList).OwnBody 0 25 27 ∧
      (ofSource .go namedStruct.toList).OuterFunction 29 ∧
      (ofSource .go namedStruct.toList).OwnBody 29 45 47 ∧
      (ofSource .go namedStruct.toList).functions = [⟨0, 45, 47⟩] ∧
      outcomes? ⟨["CallRPC"], some "C"⟩ namedStruct = some [.skipped
        ⟨.clientFunction, some "F", .otherResults,
          "func (c *C) F() mystruct \x7b\n\x7d\nfunc (c *C) G() \x7b\n\x7d"⟩] := by
  have hstarts : (ofSource .go namedStruct.toList).wordStarts "func" = [0, 29] := by
    decide +kernel
  have hfirst : (ofSource .go namedStruct.toList).OwnBody 0 25 27 := by decide +kernel
  have hsecond : (ofSource .go namedStruct.toList).OwnBody 29 45 47 := by decide +kernel
  have hmem {i : Nat} (h : (ofSource .go namedStruct.toList).BeginsFunction i) : i = 0 ∨ i = 29 := by
    have := (beginsFunction_iff.1 h).1
    rw [hstarts] at this
    simpa using this
  refine ⟨by decide +kernel, fun i hi => ?_, hfirst, ⟨by decide +kernel, fun j opened closed hj h hlt => ?_⟩,
    hsecond, by decide +kernel, by decide +kernel⟩
  · rcases hmem hi with rfl | rfl
    · exact ⟨_, _, hfirst⟩
    · exact ⟨_, _, hsecond⟩
  · rcases hmem hj with rfl | rfl
    · obtain ⟨-, rfl⟩ := h.unique hfirst
      decide
    · exact absurd hlt (Nat.lt_irrefl _)

end ClientFile

end RpcBindings
