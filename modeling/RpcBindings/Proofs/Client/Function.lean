import RpcBindings.Client.File
import RpcBindings.Proofs.Masked.Found

/-!
What is known of a function that is found in a file.

A function span is what the search has seen: the keyword stands whole at its start and begins its
line, and its body stands between a brace and the partner of that brace (`mem_functions`). What is read
of all functions and between them is the client file (`ClientFile.isReadFrom`).
-/

namespace RpcBindings

namespace Masked

variable {m : Masked}

/-! ## Spans -/

/-- The search for a body goes on behind every type that is written out. -/
theorem bodyOpener?_eq (m : Masked) (start : Nat) :
    m.bodyOpener? start = (m.findTopLevel? start m.size '\x7b').bind fun opened =>
      if m.opensType opened then (m.closer? opened).bind fun closed => m.bodyOpener? (closed + 1)
      else some opened := by
  rw [bodyOpener?]
  split
  · rename_i hnone
    rw [hnone, Option.bind_none]
  · rename_i opened hopened
    simp only [hopened, Option.bind_some]
    split
    · split
      · rename_i hnone
        rw [hnone, Option.bind_none]
      · rename_i closed hclosed
        rw [hclosed, Option.bind_some]
    · rfl

/-- The brace of a body stands at or after the place where the search begins. -/
theorem bodyOpener?_eq_some {start opened : Nat} (h : m.bodyOpener? start = some opened) :
    start ≤ opened ∧ m.hasChar opened '\x7b' = true := by
  induction start using bodyOpener?.induct m with
  | case1 start hnone =>
    rw [bodyOpener?_eq, hnone] at h
    simp at h
  | case2 start brace hbrace htype hnone =>
    rw [bodyOpener?_eq, hbrace, Option.bind_some, if_pos htype, hnone] at h
    simp at h
  | case3 start brace hbrace htype closed hclosed _ _ ih =>
    rw [bodyOpener?_eq, hbrace, Option.bind_some, if_pos htype, hclosed, Option.bind_some] at h
    obtain ⟨hle, hchar⟩ := ih h
    have := le_of_findTopLevel? hbrace
    have := (lt_of_closer? hclosed).1
    exact ⟨by omega, hchar⟩
  | case4 start brace hbrace htype =>
    rw [bodyOpener?_eq, hbrace, Option.bind_some, if_neg htype] at h
    obtain rfl := Option.some.inj h
    exact ⟨le_of_findTopLevel? hbrace, hasChar_of_findTopLevel? hbrace⟩

theorem mem_functionsFrom {f : FunctionSpan} {starts : List Nat} {start : Nat}
    (h : f ∈ m.functionsFrom starts start) :
    f.start ∈ starts ∧ m.beginsLine f.start = true ∧ m.bodyOpener? f.head = some f.opened ∧
      m.closer? f.opened = some f.closed := by
  induction starts generalizing start with
  | nil => simp [functionsFrom] at h
  | cons i starts ih =>
    have later {start : Nat} (h : f ∈ m.functionsFrom starts start) :
        f.start ∈ i :: starts ∧ m.beginsLine f.start = true ∧
          m.bodyOpener? f.head = some f.opened ∧ m.closer? f.opened = some f.closed := by
      obtain ⟨hmem, hrest⟩ := ih h
      exact ⟨List.mem_cons_of_mem i hmem, hrest⟩
    unfold functionsFrom at h
    split at h
    · exact later h
    · extract_lets head at h
      split at h
      · rename_i hline
        split at h
        · simp at h
        · rename_i opened hopened
          split at h
          · simp at h
          · rename_i closed hclosed
            rcases List.mem_cons.1 h with rfl | h
            · exact ⟨List.mem_cons_self, hline, hopened, hclosed⟩
            · exact later h
      · exact later h

theorem mem_functions {f : FunctionSpan} (h : f ∈ m.functions) :
    m.wordAt "func".toList f.start = true ∧ m.beginsLine f.start = true ∧
      m.bodyOpener? f.head = some f.opened ∧ m.closer? f.opened = some f.closed := by
  obtain ⟨hmem, hrest⟩ := mem_functionsFrom h
  exact ⟨(mem_wordStarts.1 hmem).2, hrest⟩

/-! ## All functions of a file -/

/-- A function is what the search sees. -/
def HoldsFunction (m : Masked) (f : FunctionSpan) : Prop :=
  m.wordAt "func".toList f.start = true ∧ m.beginsLine f.start = true ∧
    m.bodyOpener? f.head = some f.opened ∧ m.closer? f.opened = some f.closed

/-- No function begins between two offsets. -/
def HoldsNoFunction (m : Masked) (start stop : Nat) : Prop :=
  ∀ i, start ≤ i → i < stop → m.wordAt "func".toList i = true → m.beginsLine i = false

/-- From an offset on the text holds some functions, one after the other, and no other. -/
def HoldsFunctions (m : Masked) : Nat → List FunctionSpan → Prop
  | start, [] => m.HoldsNoFunction start m.size
  | start, f :: fs => start ≤ f.start ∧ m.HoldsNoFunction start f.start ∧ m.HoldsFunction f ∧
      m.HoldsFunctions (f.closed + 1) fs

theorem lt_size_of_wordAt_func {i : Nat} (h : m.wordAt "func".toList i = true) : i < m.size := by
  have hfirst : m.bytes[i]? = some 'f'.toUInt8 := @getElem?_of_wordAt m _ i h 0 _ rfl
  exact (List.getElem?_eq_some_iff.1 hfirst).1

/-- Two places of the keyword do not overlap. -/
theorem add_le_of_wordAt_func {i j : Nat} (hi : m.wordAt "func".toList i = true)
    (hj : m.wordAt "func".toList j = true) (hij : i < j) : i + 4 ≤ j :=
  add_length_le_of_lt (by decide) hi hj hij

/-- A keyword inside of its line is passed over. -/
theorem HoldsFunctions.skip {i start : Nat} {fs : List FunctionSpan}
    (h : m.HoldsFunctions start fs) (hi : m.wordAt "func".toList i = true)
    (hline : m.beginsLine i = false) (hle : start ≤ i)
    (hfirst : ∀ f ∈ fs.head?, i ≤ f.start) : m.HoldsFunctions (i + 4) fs := by
  cases fs with
  | nil => exact fun j hj hstop => h j (by omega) hstop
  | cons f fs =>
    obtain ⟨hstart, hnone, hf, hrest⟩ := h
    have hne : i ≠ f.start := by
      rintro rfl
      rw [hf.2.1] at hline
      exact Bool.false_ne_true hline.symm
    have hlt : i < f.start := Nat.lt_of_le_of_ne (hfirst f rfl) hne
    exact ⟨add_le_of_wordAt_func hi hf.1 hlt, fun j hj => hnone j (by omega), hf, hrest⟩

theorem functionsFrom_eq {starts : List Nat} {start : Nat} {fs : List FunctionSpan}
    (hsorted : starts.Pairwise (· < ·)) (hword : ∀ i ∈ starts, m.wordAt "func".toList i = true)
    (hall : ∀ i, start ≤ i → m.wordAt "func".toList i = true → i ∈ starts)
    (h : m.HoldsFunctions start fs) : m.functionsFrom starts start = fs := by
  induction starts generalizing start fs with
  | nil =>
    cases fs with
    | nil => rfl
    | cons f fs => exact absurd (hall f.start h.1 h.2.2.1.1) List.not_mem_nil
  | cons i starts ih =>
    obtain ⟨hi, hsorted⟩ := List.pairwise_cons.1 hsorted
    have hwordAt := hword i List.mem_cons_self
    have hword := fun j hj => hword j (List.mem_cons_of_mem i hj)
    have hlater {j k : Nat} (hk : start ≤ k) (hik : i < k) (hj : k ≤ j)
        (hw : m.wordAt "func".toList j = true) : j ∈ starts := by
      rcases List.mem_cons.1 (hall j (by omega) hw) with rfl | hmem
      · omega
      · exact hmem
    have hfirst : ∀ f ∈ fs.head?, i ≤ f.start := by
      intro f hf
      obtain ⟨fs, rfl⟩ := List.head?_eq_some_iff.1 hf
      rcases List.mem_cons.1 (hall f.start h.1 h.2.2.1.1) with heq | hmem
      · exact Nat.le_of_eq heq.symm
      · exact Nat.le_of_lt (hi _ hmem)
    unfold functionsFrom
    split
    · rename_i hlt
      exact ih hsorted hword (fun j hj hw => hlater (Nat.le_refl _) hlt hj hw) h
    · rename_i hge
      have hle : start ≤ i := Nat.le_of_not_lt hge
      extract_lets head
      cases hline : m.beginsLine i with
      | false =>
        rw [if_neg (by decide)]
        exact ih hsorted hword (fun j hj hw => hlater (show start ≤ i + 4 by omega) (by omega) hj hw)
          (h.skip hwordAt hline hle hfirst)
      | true =>
        rw [if_pos rfl]
        cases fs with
        | nil =>
          have := h i hle (lt_size_of_wordAt_func hwordAt) hwordAt
          rw [hline] at this
          exact absurd this (by decide)
        | cons f fs =>
          obtain ⟨-, hnone, ⟨-, -, hopened, hclosed⟩, hrest⟩ := h
          have heq : i = f.start := by
            refine Nat.le_antisymm (hfirst f rfl) (Nat.le_of_not_lt fun hlt => ?_)
            have := hnone i hle hlt hwordAt
            rw [hline] at this
            exact absurd this (by decide)
          have hhead : head = f.head := congrArg (· + 4) heq
          have hbehind : i < f.closed + 1 := by
            have hbrace := (bodyOpener?_eq_some hopened).1
            have hpartner := (lt_of_closer? hclosed).1
            have : f.head = f.start + 4 := rfl
            omega
          rw [hhead, hopened]
          simp only [hclosed]
          rw [ih hsorted hword
            (fun j hj hw => hlater (show start ≤ f.closed + 1 by omega) hbehind hj hw) hrest, heq]

/-- The functions of a file are those that it holds. -/
theorem functions_eq {fs : List FunctionSpan} (h : m.HoldsFunctions 0 fs) : m.functions = fs := by
  refine functionsFrom_eq (pairwise_wordStarts m "func") (fun i hi => (mem_wordStarts.1 hi).2)
    (fun i _ hw => mem_wordStarts.2 ⟨lt_size_of_wordAt_func hw, hw⟩) h

/-! ## Receivers -/

/-- A receiver is two words between parentheses, the second one its type behind pointer markers. -/
theorem receiverAfter?_eq_some {i : Nat} {r : Receiver} (h : m.receiverAfter? i = some r) :
    ∃ s type, m.parensAfter? i = some s ∧
      Text.words (m.slice (s.start + 1) s.stop) = [r.name.toList, type] ∧
      r.type.toList = type.dropWhile (· == '*') ∧ r.stop = s.stop + 1 := by
  unfold receiverAfter? at h
  split at h
  · simp at h
  · rename_i s hs
    split at h
    · rename_i name type hwords
      obtain rfl := Option.some.inj h
      refine ⟨s, type, hs, ?_, ?_, rfl⟩
      · rw [hwords, String.toList_ofList]
      · rw [String.toList_ofList]
    · simp at h

/-- The name after an offset is the identifier that follows blanks. -/
theorem nameAfter?_eq_some {i : Nat} {s : Span} (h : m.nameAfter? i = some s) :
    m.skipBlank? i = some s.start ∧ m.identAt? s.start = some s := by
  obtain ⟨j, hj, hs⟩ := Option.bind_eq_some_iff.1 h
  have := (identAt?_eq_some hs).1
  rw [this]
  exact ⟨hj, hs⟩

/-! ## Methods -/

/-- A function is found as a method when it has a receiver, a name and a call site. -/
theorem readFunction?_eq_found {primitives : List String} {f : FunctionSpan} {s : SyncMethod}
    (h : m.readFunction? primitives f = some (.found s)) :
    ∃ receiver name c, m.receiverAfter? f.head = some receiver ∧
      m.nameAfter? receiver.stop = some name ∧ m.callSite primitives f name = .ok c ∧
      m.methodAt? receiver c = some s := by
  unfold readFunction? at h
  extract_lets skip at h
  split at h
  · simp [skip] at h
  · rename_i receiver hreceiver
    split at h
    · simp [skip] at h
    · rename_i name hname
      split at h
      · simp [skip] at h
      · rename_i c hc
        obtain ⟨s', hs, hfound⟩ := Option.map_eq_some_iff.1 h
        obtain rfl := Outcome.found.inj hfound
        exact ⟨receiver, name, c, hreceiver, hname, hc, hs⟩

/-- The parts of a method are those of its receiver and of its call site. -/
theorem methodAt?_eq_some {receiver : Receiver} {c : CallSite} {s : SyncMethod}
    (h : m.methodAt? receiver c = some s) :
    Client.keptStatements? (m.slice c.bodyStart c.statement) = some s.before.toList ∧
      Client.keptStatements? (afterCall (m.slice (c.args.stop + 1) c.returnAt)) =
        some s.after.toList ∧
      s.receiverName = receiver.name ∧ s.receiverType = receiver.type ∧
      s.signature.toList = m.spanText c.signature ∧ s.resultName = c.resultName ∧
      s.returnType = c.returnType ∧
      s.wireName? = (c.rest.head?.bind Text.unquote?).map String.ofList ∧
      s.callArgs.toList = [',', ' '].intercalate c.rest := by
  obtain ⟨before, hbefore, h⟩ := Option.bind_eq_some_iff.1 h
  obtain ⟨after, hafter, h⟩ := Option.bind_eq_some_iff.1 h
  obtain rfl := Option.some.inj h
  simp only [String.toList_ofList, hbefore, hafter, true_and]

/-! ## Files -/

theorem eq_found_of_found? {α : Type} {o : Outcome α} {a : α} (h : o.found? = some a) :
    o = .found a := by
  cases o with
  | found b => exact congrArg Outcome.found (Option.some.inj h)
  | skipped d => exact absurd h (by simp [Outcome.found?])

theorem found_of_ofType {wanted : Option String} {fragment : String} {o : Outcome SyncMethod}
    {s : SyncMethod} (h : o.ofType wanted fragment = .found s) : o = .found s := by
  cases o with
  | skipped d => exact h
  | found s' =>
    cases wanted with
    | none => exact h
    | some w =>
      simp only [Outcome.ofType] at h
      split at h
      · exact h
      · exact absurd h (by simp)

/-- A function is read before the ones that follow it. -/
theorem readFunctions?_cons {primitives : List String} {wanted : Option String} {f : FunctionSpan}
    {fs : List FunctionSpan} {gs : List ClientFunction} {o : Outcome SyncMethod}
    (hread : m.readFunction? primitives f = some o)
    (hrest : m.readFunctions? primitives wanted fs = some gs) :
    ∃ comments, m.readFunctions? primitives wanted (f :: fs) =
      some (⟨o.ofType wanted (.ofList (m.spanText f.whole)), comments⟩ :: gs) := by
  refine ⟨m.commentsBetween (f.closed + 1) ((fs.head?.map (·.start)).getD m.sourceSize), ?_⟩
  rw [readFunctions?, hread, hrest]
  rfl

/-- The functions of a file are read one by one. -/
theorem getElem?_readFunctions? {primitives : List String} {wanted : Option String}
    {fs : List FunctionSpan} {gs : List ClientFunction} {k : Nat} {g : ClientFunction}
    (h : m.readFunctions? primitives wanted fs = some gs) (hg : gs[k]? = some g) :
    ∃ f o, fs[k]? = some f ∧ m.readFunction? primitives f = some o ∧
      g.outcome = o.ofType wanted (.ofList (m.spanText f.whole)) := by
  induction fs generalizing gs k with
  | nil =>
    obtain rfl := Option.some.inj h
    simp at hg
  | cons f fs ih =>
    obtain ⟨o, ho, h⟩ := Option.bind_eq_some_iff.1 h
    obtain ⟨later, hlater, h⟩ := Option.bind_eq_some_iff.1 h
    obtain rfl := Option.some.inj h
    cases k with
    | zero =>
      obtain rfl := Option.some.inj hg
      exact ⟨f, o, rfl, ho, rfl⟩
    | succ k => exact ih hlater hg

end Masked

/-- A file is read when its functions and its imports are. -/
theorem ClientFile.exists_read? {options : ClientOptions} {source : String}
    {functions : List ClientFunction} {imports : List Go.Import}
    (hfunctions : (Masked.ofSource .go source.toList).readFunctions? options.primitives
      (options.clientType?.or ((Masked.ofSource .go source.toList).firstReceiverType?
        (Masked.ofSource .go source.toList).functions))
      (Masked.ofSource .go source.toList).functions = some functions)
    (himports : (Masked.ofSource .go source.toList).imports? = some imports) :
    ∃ file, ClientFile.read? options source = some file ∧ file.functions = functions ∧
      file.clientType? = options.clientType?.or ((Masked.ofSource .go source.toList).firstReceiverType?
        (Masked.ofSource .go source.toList).functions) := by
  unfold ClientFile.read?
  extract_lets m fs clientType? leading
  refine ⟨⟨imports, leading, clientType?, functions⟩, ?_, rfl, rfl⟩
  rw [show m.readFunctions? options.primitives clientType? fs = some functions from hfunctions,
    show m.imports? = some imports from himports]
  rfl

/-- What is read of a source is the client file. -/
structure ClientFile.IsReadFrom (file : ClientFile) (options : ClientOptions) (m : Masked) : Prop where
  functions : m.readFunctions? options.primitives file.clientType? m.functions = some file.functions
  imports : m.imports? = some file.imports
  clientType? : file.clientType? = options.clientType?.or (m.firstReceiverType? m.functions)
  leadingComments : file.leadingComments =
    match m.functions with
    | [] => []
    | f :: _ => m.commentsBetween (m.decorationStart f.start) f.start

theorem ClientFile.isReadFrom {options : ClientOptions} {source : String} {file : ClientFile}
    (h : ClientFile.read? options source = some file) :
    file.IsReadFrom options (Masked.ofSource .go source.toList) := by
  unfold ClientFile.read? at h
  extract_lets m fs clientType? leading at h
  obtain ⟨functions, hfunctions, h⟩ := Option.bind_eq_some_iff.1 h
  obtain ⟨imports, himports, h⟩ := Option.bind_eq_some_iff.1 h
  obtain rfl := Option.some.inj h
  exact ⟨hfunctions, himports, rfl, rfl⟩

/-- What a client file holds at an index comes from the function at that index. -/
theorem ClientFile.getElem?_functions {options : ClientOptions} {source : String}
    {file : ClientFile} {k : Nat} {g : ClientFunction}
    (h : ClientFile.read? options source = some file) (hg : file.functions[k]? = some g) :
    ∃ f o, (Masked.ofSource .go source.toList).functions[k]? = some f ∧
      (Masked.ofSource .go source.toList).readFunction? options.primitives f = some o ∧
      g.outcome = o.ofType file.clientType?
        (.ofList ((Masked.ofSource .go source.toList).spanText f.whole)) :=
  Masked.getElem?_readFunctions? (ClientFile.isReadFrom h).functions hg

end RpcBindings
