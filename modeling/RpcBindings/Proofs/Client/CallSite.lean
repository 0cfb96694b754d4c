import RpcBindings.Proofs.Go.Identifier
import RpcBindings.Proofs.Masked.Found
import RpcBindings.Proofs.Text.Blank
import RpcBindings.Proofs.Text.Search

/-!
What a call site says.

`callSite` is a sequence of tests. Main statement: when all of them pass (`callSite_eq_ok`), every part
of the site is where the shape of a synchronous method has it.
-/

namespace RpcBindings

/-! ## Sequences of tests -/

section Guards

variable {ε α β : Type}

theorem bind_eq_ok {x : Except ε α} {f : α → Except ε β} {b : β} :
    (x >>= f) = .ok b ↔ ∃ a, x = .ok a ∧ f a = .ok b := by
  cases x <;> simp [bind, Except.bind]

theorem throw_ne_ok {e : ε} {a : α} : (throw e : Except ε α) ≠ .ok a := by
  simp [throw, throwThe, MonadExceptOf.throw]

/-- A test that is passed over when it fails is a test that held. -/
theorem guard_eq_ok {p : Prop} [Decidable p] {e : ε} {k : PUnit → Except ε α} {a : α} :
    (if p then k ⟨⟩ else throw e >>= k) = .ok a ↔ p ∧ k ⟨⟩ = .ok a := by
  by_cases hp : p
  · simp [hp]
  · simp only [hp, false_and, iff_false]
    intro h
    obtain ⟨_, h, -⟩ := bind_eq_ok.1 h
    exact throw_ne_ok h

/-- A test that must fail. -/
theorem guard_not_eq_ok {p : Prop} [Decidable p] {e : ε} {k : PUnit → Except ε α} {a : α} :
    (if p then throw e >>= k else k ⟨⟩) = .ok a ↔ ¬p ∧ k ⟨⟩ = .ok a := by
  by_cases hp : p
  · simp only [hp, not_true, false_and, iff_false]
    intro h
    obtain ⟨_, h, -⟩ := bind_eq_ok.1 h
    exact throw_ne_ok h
  · simp [hp]

end Guards

namespace Masked

variable {m : Masked}

/-! ## Results -/

/-- The result list `(name Type, err error)` of a method, by its parentheses and its two pieces. -/
structure ResultList (m : Masked) (start stop opened closed : Nat) (name : String) (type : GoType)
    (value error : Span) : Prop where
  after_blanks : m.skipBlank? start = some opened
  opens : m.hasChar opened '(' = true
  closes : m.closer? opened = some closed
  before_stop : closed < stop
  pieces : m.splitTopLevel (opened + 1) closed ',' = [value, error]
  value_text : ∃ blank text, Text.trim (m.spanText value) = name.toList ++ blank :: text ∧
    Text.isBlank blank = true ∧ (∀ c ∈ name.toList, Text.isBlank c = false) ∧
    type = GoType.ofText (.ofList text)
  error_text : Text.words (m.spanText error) = ["err".toList, "error".toList]

theorem namedResult_eq_ok {start stop : Nat} {name : String} {type : GoType}
    (h : m.namedResult start stop = .ok (name, type)) :
    ∃ opened closed value error,
      ResultList m start stop opened closed name type value error := by
  unfold namedResult at h
  split at h
  case h_2 => exact absurd h throw_ne_ok
  rename_i opened hopened
  obtain ⟨hopens, h⟩ := guard_eq_ok.1 h
  rw [Bool.and_eq_true] at hopens
  split at h
  case h_2 => exact absurd h throw_ne_ok
  rename_i closed hclosed
  obtain ⟨hstop, h⟩ := guard_eq_ok.1 h
  split at h
  case h_2 => exact absurd h throw_ne_ok
  rename_i value error hpieces
  split at h
  case h_2 => exact absurd h throw_ne_ok
  rename_i name' type' hvalue
  obtain ⟨herror, h⟩ := guard_eq_ok.1 h
  obtain ⟨rfl, rfl⟩ := Prod.mk.inj (Except.ok.inj h)
  obtain ⟨blank, hsplit, hblank, hname⟩ := Text.splitAtBlank?_eq_some hvalue
  refine ⟨opened, closed, value, error, hopened, hopens.2, hclosed, hstop, hpieces, ?_,
    eq_of_beq herror⟩
  rw [String.toList_ofList]
  exact ⟨blank, type', hsplit, hblank, hname, rfl⟩

/-- A result list is read where one stands. -/
theorem namedResult_of_resultList {start stop opened closed : Nat} {name : String} {type : GoType}
    {value error : Span} (h : ResultList m start stop opened closed name type value error) :
    m.namedResult start stop = .ok (name, type) := by
  obtain ⟨hskip, hopens, hcloses, hstop, hpieces, ⟨blank, text, hvalue, hblank, hname, rfl⟩,
    herror⟩ := h
  have hlt : opened < stop := by
    have := (lt_of_closer? hcloses).1
    omega
  have hsplit := Text.splitAtBlank?_append (b := text) hname hblank
  rw [← hvalue] at hsplit
  unfold namedResult
  simp only [hskip, hopens, hcloses, hstop, hpieces, hlt, hsplit, herror, bind, Except.bind]
  simp
  rfl

/-! ## The call -/

/-- The bytes with which a call of a primitive begins. -/
def callPattern (primitive : String) : List UInt8 :=
  Text.bytes ('.' :: primitive.toList ++ ['('])

theorem callPattern_ne_nil (primitive : String) : callPattern primitive ≠ [] := by
  rw [callPattern, List.cons_append, Text.bytes_cons]
  exact List.append_ne_nil_of_left_ne_nil (by decide) _

theorem callPattern_eq (primitive : String) : callPattern primitive =
    '.'.toUInt8 :: (Text.bytes primitive.toList ++ ['('.toUInt8]) := by
  rw [callPattern, List.cons_append, Text.bytes_cons_of_narrow (by decide), Text.bytes_append]
  rfl

/-- A call of an identifier is written out as a dot, the identifier and a parenthesis. -/
theorem exists_of_callPattern {q : String} {bs : List UInt8}
    (h : (callPattern q).isPrefixOf bs = true) :
    ∃ rest, bs = '.'.toUInt8 :: (Text.bytes q.toList ++ '('.toUInt8 :: rest) := by
  obtain ⟨rest, rfl⟩ := List.isPrefixOf_iff_prefix.1 h
  refine ⟨rest, ?_⟩
  rw [callPattern_eq, List.cons_append, List.append_assoc]
  rfl

/-- A run of word bytes before another byte is read in one way only. -/
theorem eq_of_word_append {a b rest rest' : List UInt8} {x y : UInt8}
    (ha : ∀ z ∈ a, isWordByte z = true) (hb : ∀ z ∈ b, isWordByte z = true)
    (hx : isWordByte x = false) (hy : isWordByte y = false) (h : a ++ x :: rest = b ++ y :: rest') :
    a = b ∧ x = y := by
  have htake := congrArg (List.takeWhile isWordByte) h
  rw [List.takeWhile_append_of_pos ha, List.takeWhile_append_of_pos hb,
    List.takeWhile_cons_of_neg (by simp [hx]), List.takeWhile_cons_of_neg (by simp [hy]),
    List.append_nil, List.append_nil] at htake
  subst htake
  exact ⟨rfl, (List.cons.inj (List.append_cancel_left h)).1⟩

/-- A call begins with a dot, and its parenthesis stands right behind the primitive. -/
theorem call_spec {primitive : String} {i : Nat}
    (h : (callPattern primitive).isPrefixOf (m.bytes.drop i) = true) :
    m.hasChar i '.' = true ∧ m.hasChar (i + 1 + primitive.utf8ByteSize) '(' = true := by
  rw [hasChar_iff, hasChar_iff, Nat.add_assoc]
  refine ⟨Text.getElem?_of_isPrefixOf (k := 0) h ?_, Text.getElem?_of_isPrefixOf h ?_⟩
  · rw [callPattern_eq]
    rfl
  · rw [callPattern_eq, ← Text.byteLength_toList, ← Text.length_bytes, Nat.add_comm 1,
      List.getElem?_cons_succ, List.getElem?_append_right (Nat.le_refl _), Nat.sub_self]
    rfl

/-- The earlier of two calls is one of them and not after either. -/
theorem earlier_eq_some {a b : Option (Nat × String)} {r : Nat × String}
    (h : earlier a b = some r) :
    (a = some r ∨ b = some r) ∧ (∀ x, a = some x → r.1 ≤ x.1) ∧ ∀ x, b = some x → r.1 ≤ x.1 := by
  cases a with
  | none =>
    cases b with
    | none => simp [earlier] at h
    | some y =>
      obtain rfl := Option.some.inj h
      exact ⟨.inr rfl, by simp, by simp⟩
  | some x =>
    cases b with
    | none =>
      obtain rfl := Option.some.inj h
      exact ⟨.inl rfl, by simp, by simp⟩
    | some y =>
      simp only [earlier] at h
      split at h <;> obtain rfl := Option.some.inj h
      · exact ⟨.inr rfl, by simp; omega, by simp⟩
      · exact ⟨.inl rfl, by simp, by simp; omega⟩

theorem earlier_eq_none {a b : Option (Nat × String)} (h : earlier a b = none) :
    a = none ∧ b = none := by
  cases a <;> cases b <;> simp [earlier] at h ⊢
  split at h <;> simp at h

theorem foldl_earlier {body : List UInt8} {ps : List String} {best : Option (Nat × String)}
    {r : Nat × String}
    (h : ps.foldl (fun best p => earlier best ((callOffset? body p).map (·, p))) best = some r) :
    (best = some r ∨ r.2 ∈ ps ∧ callOffset? body r.2 = some r.1) ∧
      (∀ x, best = some x → r.1 ≤ x.1) ∧
      ∀ q ∈ ps, ∀ k, callOffset? body q = some k → r.1 ≤ k := by
  induction ps generalizing best with
  | nil =>
    have h : best = some r := h
    subst h
    exact ⟨.inl rfl, by simp, by simp⟩
  | cons p ps ih =>
    rw [List.foldl_cons] at h
    obtain ⟨hmem, hbest, hrest⟩ := ih h
    -- the new best is none only if both candidates are
    have hle : (∀ x, best = some x → r.1 ≤ x.1) ∧
        ∀ x, (callOffset? body p).map (·, p) = some x → r.1 ≤ x.1 := by
      cases hnew : earlier best ((callOffset? body p).map (·, p)) with
      | none =>
        obtain ⟨h1, h2⟩ := earlier_eq_none hnew
        rw [h1, h2]
        exact ⟨by simp, by simp⟩
      | some y =>
        obtain ⟨-, h1, h2⟩ := earlier_eq_some hnew
        have hy := hbest y hnew
        exact ⟨fun x hx => Nat.le_trans hy (h1 x hx), fun x hx => Nat.le_trans hy (h2 x hx)⟩
    refine ⟨?_, hle.1, fun q hq k hk => ?_⟩
    · rcases hmem with hnew | ⟨hp, hc⟩
      · rcases (earlier_eq_some hnew).1 with hb | hc
        · exact .inl hb
        · obtain ⟨n, hn, rfl⟩ := Option.map_eq_some_iff.1 hc
          exact .inr ⟨List.mem_cons_self, hn⟩
      · exact .inr ⟨List.mem_cons_of_mem p hp, hc⟩
    · rcases List.mem_cons.1 hq with rfl | hq
      · exact hle.2 (k, q) (by rw [hk]; rfl)
      · exact hrest q hq k hk

/-- The first call is a call of a primitive of the list, and no call of any of them begins before
it. -/
theorem firstCall?_eq_some {body : List UInt8} {ps : List String} {n : Nat} {p : String}
    (h : firstCall? body ps = some (n, p)) :
    p ∈ ps ∧ (callPattern p).isPrefixOf (body.drop n) = true ∧
      ∀ q ∈ ps, ∀ k, k < n → (callPattern q).isPrefixOf (body.drop k) = false := by
  obtain ⟨hmem, -, hmin⟩ := foldl_earlier h
  obtain ⟨hp, hn⟩ : p ∈ ps ∧ callOffset? body p = some n := by
    rcases hmem with h | h
    · simp at h
    · exact h
  refine ⟨hp, Text.isPrefixOf_drop_of_findBytes? hn, fun q hq k hk => ?_⟩
  refine Bool.eq_false_iff.2 fun hcall => ?_
  have hlen : k ≤ body.length := by
    refine Nat.le_of_not_lt fun hlt => ?_
    rw [List.drop_eq_nil_of_le (Nat.le_of_lt hlt)] at hcall
    exact callPattern_ne_nil q (List.prefix_nil.1 (List.isPrefixOf_iff_prefix.1 hcall))
  obtain ⟨j, hj, hle⟩ := Text.findBytes?_le hlen hcall
  have : n ≤ j := hmin q hq j hj
  omega

theorem foldl_earlier_eq_none {body : List UInt8} {ps : List String} {best : Option (Nat × String)}
    (h : ps.foldl (fun best p => earlier best ((callOffset? body p).map (·, p))) best = none) :
    best = none ∧ ∀ q ∈ ps, callOffset? body q = none := by
  induction ps generalizing best with
  | nil => exact ⟨h, by simp⟩
  | cons p ps ih =>
    rw [List.foldl_cons] at h
    obtain ⟨hbest, hps⟩ := ih h
    obtain ⟨hbest, hp⟩ := earlier_eq_none hbest
    refine ⟨hbest, fun q hq => ?_⟩
    rcases List.mem_cons.1 hq with rfl | hq
    · exact Option.map_eq_none_iff.1 hp
    · exact hps q hq

/-- Of identifiers the one that is called first is found, in whatever order they are listed. -/
theorem firstCall?_of_earliest {body : List UInt8} {ps : List String} {n : Nat} {p : String}
    (hnames : ∀ q ∈ ps, Go.isIdentifier q = true) (hp : p ∈ ps) (hn : n ≤ body.length)
    (hcall : (callPattern p).isPrefixOf (body.drop n) = true)
    (hfirst : ∀ q ∈ ps, ∀ k, k < n → (callPattern q).isPrefixOf (body.drop k) = false) :
    firstCall? body ps = some (n, p) := by
  cases hfound : firstCall? body ps with
  | none =>
    obtain ⟨j, hj, -⟩ := Text.findBytes?_le hn hcall
    have := (foldl_earlier_eq_none hfound).2 p hp
    rw [show callOffset? body p = some j from hj] at this
    simp at this
  | some r =>
    obtain ⟨n', p'⟩ := r
    obtain ⟨hp', hcall', hfirst'⟩ := firstCall?_eq_some hfound
    have hle : ¬n < n' := fun hlt => by
      rw [hfirst' p hp n hlt] at hcall
      exact Bool.false_ne_true hcall
    have hge : ¬n' < n := fun hlt => by
      rw [hfirst p' hp' n' hlt] at hcall'
      exact Bool.false_ne_true hcall'
    obtain rfl : n' = n := by omega
    obtain ⟨rest, hrest⟩ := exists_of_callPattern hcall
    obtain ⟨rest', hrest'⟩ := exists_of_callPattern hcall'
    have heq := (List.cons.inj (hrest.symm.trans hrest')).2
    have hword {q : String} (hq : q ∈ ps) : ∀ z ∈ Text.bytes q.toList, isWordByte z = true :=
      fun z hz => (Go.isName_toList (hnames q hq)).isWordByte_bytes hz
    obtain ⟨hbytes, -⟩ := eq_of_word_append (hword hp) (hword hp') (by decide) (by decide) heq
    have := String.toList_inj.1 (Text.bytes_injective hbytes)
    rw [this]

/-- Code assigns `err` when it reads `err`, and then an assignment and not a comparison. -/
theorem assignsErr_iff {code : List Char} :
    assignsErr code = true ↔ ∃ b₁ b₂ rest, code = b₁ ++ "err".toList ++ b₂ ++ rest ∧
      Text.allBlank b₁ = true ∧ Text.allBlank b₂ = true ∧
      ((∃ r, rest = '=' :: r ∧ r.head? ≠ some '=') ∨ ∃ r, rest = ':' :: '=' :: r) := by
  constructor
  · intro h
    unfold assignsErr at h
    split at h
    · exact absurd h Bool.false_ne_true
    rename_i rest hrest
    obtain ⟨b₁, hcode, hb₁⟩ := Text.exists_trimStart code
    rw [Text.stripPrefix?_eq_some_iff.1 hrest] at hcode
    obtain ⟨b₂, hrest, hb₂⟩ := Text.exists_trimStart rest
    refine ⟨b₁, b₂, Text.trimStart rest, ?_, hb₁, hb₂, ?_⟩
    · rw [List.append_assoc, ← hrest, List.append_assoc]
      exact hcode
    · split at h
      · exact absurd h Bool.false_ne_true
      · rename_i r hne hr
        refine .inl ⟨r, hr, fun hr' => ?_⟩
        cases r with
        | nil => simp at hr'
        | cons c r =>
          obtain rfl := Option.some.inj hr'
          exact hne r rfl
      · rename_i r hr
        exact .inr ⟨r, hr⟩
      · exact absurd h Bool.false_ne_true
  · rintro ⟨b₁, b₂, rest, rfl, hb₁, hb₂, hrest⟩
    have hhead : Text.stripPrefix? "err".toList
        (Text.trimStart (b₁ ++ "err".toList ++ b₂ ++ rest)) = some (b₂ ++ rest) := by
      rw [List.append_assoc, List.append_assoc]
      show Text.stripPrefix? _ (Text.trimStart (b₁ ++ 'e' :: _)) = _
      rw [Text.trimStart_append hb₁ (by decide)]
      rfl
    unfold assignsErr
    rw [hhead]
    rcases hrest with ⟨r, rfl, hr⟩ | ⟨r, rfl⟩
    · simp only [Text.trimStart_append hb₂ (show Text.isBlank '=' = false by decide)]
      cases r with
      | nil => rfl
      | cons c r =>
        have : c ≠ '=' := fun hc => hr (by rw [hc]; rfl)
        simp [this]
    · simp only [Text.trimStart_append hb₂ (show Text.isBlank ':' = false by decide)]

/-- A statement begins in the body, where the body begins or right after a border. -/
theorem statementStart_spec (m : Masked) {bodyStart i : Nat} (h : bodyStart ≤ i) :
    bodyStart ≤ m.statementStart bodyStart i ∧ m.statementStart bodyStart i ≤ i ∧
      (m.statementStart bodyStart i = bodyStart ∨
        bodyStart < m.statementStart bodyStart i ∧
        ∃ b, m.bytes[m.statementStart bodyStart i - 1]? = some b ∧ bordersStatement b = true) := by
  have hle := Text.lengthThroughLast_le bordersStatement (m.byteSlice bodyStart i)
  have hlen : (m.byteSlice bodyStart i).length ≤ i - bodyStart := List.length_take_le _ _
  obtain ⟨-, hlast⟩ := Text.lengthThroughLast_spec bordersStatement (m.byteSlice bodyStart i)
  unfold statementStart
  generalize hn : Text.lengthThroughLast bordersStatement (m.byteSlice bodyStart i) = n at *
  refine ⟨by omega, by omega, ?_⟩
  rcases hlast with hn | ⟨b, hb, hborder⟩
  · exact .inl (by omega)
  · cases n with
    | zero => exact .inl rfl
    | succ n =>
      refine .inr ⟨by omega, b, ?_, hborder⟩
      unfold byteSlice at hb
      rw [List.getElem?_take, if_pos (by omega), List.getElem?_drop] at hb
      exact hb

/-- An argument on one line is what it is without the blanks around it. -/
theorem onOneLine_eq {arg a : List Char} (htrim : Text.trim arg = a) (h : '\n' ∉ a) :
    onOneLine arg = a := by
  have hcontains : a.contains '\n' = false := by simpa using h
  unfold onOneLine
  simp only [htrim, hcontains, Bool.false_eq_true, if_false]

/-! ## The return -/

/-- A body ends in a bare `return` when nothing but blanks follows the word. -/
theorem bareReturn?_eq_some {body : Span} {r : Nat} :
    m.bareReturn? body = some r ↔ ∃ before blank,
      m.codeSlice body.start body.stop = before ++ "return".toList ++ blank ∧
      Text.allBlank blank = true ∧ before.getLast?.all precedesStatement = true ∧
      r = body.start + Text.byteLength before := by
  unfold bareReturn?
  constructor
  · intro h
    split at h
    · simp at h
    rename_i before hbefore
    split at h
    · rename_i hall
      obtain ⟨blank, hcode, hblank⟩ := Text.exists_trimEnd (m.codeSlice body.start body.stop)
      rw [Text.stripSuffix?_eq_some_iff.1 hbefore] at hcode
      exact ⟨before, blank, hcode, hblank, hall, (Option.some.inj h).symm⟩
    · simp at h
  · rintro ⟨before, blank, hcode, hblank, hall, rfl⟩
    have htrim : Text.trimEnd (m.codeSlice body.start body.stop) = before ++ "return".toList := by
      have := Text.trimEnd_append hblank (show Text.isBlank 'n' = false by decide)
        (before ++ "retur".toList)
      rw [hcode]
      simpa using this
    rw [htrim, Text.stripSuffix?_eq_some_iff.2 rfl]
    simp only [hall, if_true]

/-! ## The whole site -/

/-- What a call site says, part by part, when the parameters stand at `params`. -/
structure Reads (m : Masked) (primitives : List String) (f : FunctionSpan) (name params : Span)
    (c : CallSite) : Prop where
  params_at : m.parensAfter? name.stop = some params
  signature_eq : c.signature = ⟨name.start, params.stop + 1⟩
  results : m.namedResult (params.stop + 1) f.opened = .ok (c.resultName, c.returnType)
  body_eq : c.bodyStart = f.body.start
  first_call : ∃ offset, c.dot = f.body.start + offset ∧
    firstCall? (m.byteSlice f.body.start f.body.stop) primitives = some (offset, c.primitive)
  statement_eq : c.statement = m.statementStart f.body.start c.dot
  assigns : assignsErr (m.codeSlice c.statement c.dot) = true
  args_start : c.args.start = c.dot + 1 + c.primitive.utf8ByteSize + 1
  args_closed : m.closer? (c.dot + 1 + c.primitive.utf8ByteSize) = some c.args.stop
  arguments_eq : m.arguments c.args = ("&" ++ c.resultName).toList :: c.rest
  rest_ne_nil : c.rest ≠ []
  return_at : m.bareReturn? f.body = some c.returnAt
  args_before_return : c.args.stop < c.returnAt

/-- A call site is found exactly where all its parts are. -/
theorem callSite_eq_ok {primitives : List String} {f : FunctionSpan} {name : Span} {c : CallSite} :
    m.callSite primitives f name = .ok c ↔ ∃ params, Reads m primitives f name params c := by
  constructor
  · intro h
    unfold callSite at h
    split at h
    case h_2 => exact absurd h throw_ne_ok
    rename_i params hparams
    obtain ⟨⟨resultName, returnType⟩, hresults, h⟩ := bind_eq_ok.1 h
    split at h
    obtain ⟨rfl, rfl⟩ := Prod.mk.inj ‹(resultName, returnType) = _›
    split at h
    case h_2 => exact absurd h throw_ne_ok
    rename_i offset primitive hcall
    obtain ⟨hassigns, h⟩ := guard_eq_ok.1 h
    dsimp only at h
    split at h
    case h_2 => exact absurd h throw_ne_ok
    rename_i closed hclosed
    split at h
    case h_2 => exact absurd h throw_ne_ok
    rename_i first rest harguments
    obtain ⟨hfirst, h⟩ := guard_eq_ok.1 h
    obtain ⟨hrest, h⟩ := guard_not_eq_ok.1 h
    split at h
    case h_2 => exact absurd h throw_ne_ok
    rename_i returnAt hreturn
    obtain ⟨hlt, h⟩ := guard_eq_ok.1 h
    obtain rfl := Except.ok.inj h
    subst hfirst
    refine ⟨params, hparams, rfl, hresults, rfl, ⟨offset, rfl, hcall⟩, rfl, hassigns, rfl, hclosed,
      harguments, ?_, hreturn, hlt⟩
    simpa using hrest
  · rintro ⟨params, h⟩
    obtain ⟨hparams, hsig, hresults, hbody, ⟨offset, hdot, hcall⟩, hst, hassigns, hstart, hclosed,
      hargs, hrest, hret, hlt⟩ := h
    obtain ⟨signature, resultName, returnType, bodyStart, statement, dot, primitive, ⟨s, e⟩, rest,
      returnAt⟩ := c
    simp only at *
    subst hsig hbody hst hdot hstart
    have hrest' : rest.isEmpty = false := by simpa using hrest
    unfold callSite
    simp only [hparams, hresults, hcall, hassigns, hclosed, hargs, hret, hrest', hlt, bind, Except.bind, if_true]
    rfl

end Masked

end RpcBindings
