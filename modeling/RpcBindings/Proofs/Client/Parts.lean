import RpcBindings.Proofs.Client.CallSite
import RpcBindings.Proofs.Client.Shift
import RpcBindings.Proofs.Go.ImportClause
import RpcBindings.Proofs.Masked.Splitting

/-!
A client file that is written in two parts.

Every search of a function runs on the whole file. In a first part with well-nested delimiters each
opener has its partner, so no search of a function there comes to the second part
(`readFunction?_append`).
-/

namespace RpcBindings

namespace Masked

variable {a : Masked} {i j k : Nat}

/-! ## Searches in a well-nested first part -/

/-- Partners are found as in the first part alone. -/
theorem closer?_append_of_wellNested (hn : WellNested a.bytes) (hi : i < a.size) (b : Masked) :
    (a.append b).closer? i = a.closer? i := by
  have hget : a.bytes[i]? = some a.bytes[i] := List.getElem?_eq_getElem hi
  have hdrop : a.bytes.drop i = a.bytes[i] :: a.bytes.drop (i + 1) := List.drop_eq_getElem_cons hi
  cases hd : Delimiter.ofOpener? a.bytes[i] with
  | none =>
    unfold closer?
    rw [drop_append_of_le (Nat.le_of_lt hi), hdrop]
    simp only [List.cons_append, hd]
  | some d =>
    rw [Delimiter.eq_opener_of_ofOpener? hd] at hget
    obtain ⟨j, hj⟩ := exists_closer? hn hget
    rw [closer?_append hj, hj]

/-- Before a brace blanks end as in the first part alone. -/
theorem skipBlank?_append_of_brace (hi : a.CutsAt i) (hik : i ≤ k) (hk : a.hasChar k '\x7b' = true)
    (b : Masked) : ∃ j, (a.append b).skipBlank? i = some j ∧ a.skipBlank? i = some j ∧ j ≤ k := by
  obtain ⟨j, hj, hle⟩ := exists_skipBlank? hi hik hk (by decide) (by decide)
  exact ⟨j, skipBlank?_append hj b, hj, hle⟩

theorem parensAfter?_append_of_brace (hn : WellNested a.bytes) (hi : a.CutsAt i) (hik : i ≤ k)
    (hk : a.hasChar k '\x7b' = true) (b : Masked) :
    (a.append b).parensAfter? i = a.parensAfter? i := by
  obtain ⟨j, hboth, hj, hle⟩ := skipBlank?_append_of_brace hi hik hk b
  have hlt : j < a.size := Nat.lt_of_le_of_lt hle (lt_size_of_hasChar hk)
  unfold parensAfter?
  simp only [hboth, hj, hasChar_append hlt, closer?_append_of_wellNested hn hlt]

/-- What only the second part ends begins in the second part. -/
theorem le_of_skipBlank?_append (hi : a.CutsAt i) (hnone : a.skipBlank? i = none) {b : Masked}
    (h : (a.append b).skipBlank? i = some j) : a.size ≤ j := by
  obtain ⟨-, x, y, hcode, rfl⟩ := hi
  have hblank : Text.allBlank y = true := by
    unfold skipBlank? at hnone
    rw [hcode, Text.dropBytes?_append] at hnone
    simpa using hnone
  unfold skipBlank? at h
  rw [code_append, hcode, List.append_assoc, Text.dropBytes?_append] at h
  simp only at h
  split at h
  · exact absurd h nofun
  · obtain rfl := Option.some.inj h
    rw [List.takeWhile_append_of_pos fun c hc => List.all_eq_true.1 hblank c hc,
      Text.byteLength_append, ← byteLength_code, hcode, Text.byteLength_append]
    omega

/-! ## Pieces -/

theorem cutsAt_add_one (ha : a.Lined) {c : Char} (h : a.hasChar i c = true)
    (hc : c.toUInt8 < 0x80) (hspace : c.toUInt8 ≠ 0x20) : a.CutsAt (i + 1) :=
  (ha.cuts i _ (hasChar_iff.1 h) hc hspace).2

/-- The pieces of the first part, where each can be cut out. -/
theorem splitTopLevel_append (ha : a.Lined) (hi : a.CutsAt i) (hij : i ≤ j) (hj : j ≤ a.size)
    (b : Masked) :
    (a.append b).splitTopLevel i j ',' = a.splitTopLevel i j ',' ∧
      ∀ p ∈ a.splitTopLevel i j ',', (a.append b).spanText p = a.spanText p := by
  have hpieces := (laid_piecesFrom ','.toUInt8 hij hj).forall_ends (P := a.CutsAt) (Q := (· ≤ j))
    (fun _ t ht hend =>
      ⟨Nat.le_of_lt ht, cutsAt_add_one ha (hasChar_of_endsAt hend) (by decide) (by decide)⟩)
    hi (Nat.le_refl j)
  have hlast := hpieces _ (List.mem_append_right _ (List.mem_singleton_self _))
  refine ⟨?_, fun p hp => ?_⟩
  · unfold splitTopLevel withTail
    rw [byteSlice_append_of_le hj, isBlank_append_of_le hlast.1 hj]
  · obtain ⟨hcut, hstop, -⟩ := hpieces p (mem_pieces hp)
    exact slice_append_of_le ha.size_eq hcut (by omega) b

/-! ## Parts of a method -/

theorem namedResult_append (ha : a.Lined) (hn : WellNested a.bytes) (hi : a.CutsAt i)
    (hj : j ≤ a.size) (b : Masked) : (a.append b).namedResult i j = a.namedResult i j := by
  unfold namedResult
  cases hopened : a.skipBlank? i with
  | none =>
    cases hboth : (a.append b).skipBlank? i with
    | none => rfl
    | some opened =>
      have := le_of_skipBlank?_append hi hopened hboth
      simp only [show decide (opened < j) = false from decide_eq_false (by omega), Bool.false_and]
      rfl
  | some opened =>
    simp only [skipBlank?_append hopened]
    by_cases hlt : opened < j
    · have hsize : opened < a.size := by omega
      simp only [hasChar_append hsize, closer?_append_of_wellNested hn hsize]
      cases hopens : a.hasChar opened '(' with
      | false =>
        simp only [Bool.and_false, Bool.false_eq_true, if_false]
        rfl
      | true =>
        cases hclosed : a.closer? opened with
        | none => rfl
        | some closed =>
          obtain ⟨hinside, hclosed'⟩ := lt_of_closer? hclosed
          have hcut := cutsAt_add_one ha hopens (by decide) (by decide)
          obtain ⟨hsplit, htext⟩ := splitTopLevel_append ha hcut hinside (Nat.le_of_lt hclosed') b
          simp only [hsplit]
          rcases hpieces : a.splitTopLevel (opened + 1) closed ',' with
            _ | ⟨value, _ | ⟨error, _ | ⟨other, pieces⟩⟩⟩
          · rfl
          · rfl
          · simp only [htext value (by simp [hpieces]), htext error (by simp [hpieces])]
          · rfl
    · simp only [show decide (opened < j) = false from decide_eq_false hlt, Bool.false_and,
        Bool.false_eq_true, if_false]
      rfl

/-- Between blanks and the partner of a parenthesis behind them no brace stands at top level. -/
theorem topLevelOffset_parens {m : Masked} (hn : WellNested m.bytes) (hi : m.CutsAt i) {s : Span}
    (hs : m.parensAfter? i = some s) (hstart : m.CutsAt s.start) :
    topLevelOffset '\x7b'.toUInt8 0 (m.byteSlice i s.stop) = none := by
  obtain ⟨hle, hblank, hopens, hcloses⟩ := parensAfter?_eq_some hs
  have hlt := (lt_of_closer? hcloses).1
  have hnone : '\x7b'.toUInt8 ∉ m.byteSlice i s.start := by
    rw [← bytes_codeSlice hi hstart hle]
    intro hmem
    obtain ⟨c, hc, hnarrow, hbyte⟩ := Text.exists_of_mem_bytes hmem (by decide)
    obtain rfl := Text.eq_of_toUInt8_eq hnarrow (show ('\x7b').utf8Size = 1 by decide) hbyte
    exact absurd (List.all_eq_true.1 hblank _ hc) (by decide)
  have hdepth : depthFrom 0 (m.byteSlice i s.start) = 0 :=
    depthFrom_of_nestFrom (wellNested_of_isBlank hi hstart hle hblank) 0
  have hinside : topLevelOffset '\x7b'.toUInt8 1 (m.byteSlice (s.start + 1) s.stop) = none :=
    topLevelOffset_of_nestFrom (wellNested_of_closer? hn hcloses) _ 0
  rw [byteSlice_append hle (Nat.le_of_lt hlt), byteSlice_append (Nat.le_succ s.start) hlt,
    byteSlice_succ (hasChar_iff.1 hopens) (Nat.le_refl _), topLevelOffset_append,
    topLevelOffset_of_not_mem hnone, hdepth]
  rw [byteSlice_self, List.nil_append, List.singleton_append, topLevelOffset, if_neg (by decide),
    show depthAfter 0 '('.toUInt8 = 1 by decide, hinside]
  rfl

/-- The receiver of a function ends before its body begins. -/
theorem lt_of_parensAfter? {m : Masked} (hn : WellNested m.bytes) (hi : m.CutsAt i) {s : Span}
    (hs : m.parensAfter? i = some s) (hstart : m.CutsAt s.start) {opened : Nat}
    (hbody : m.bodyOpener? i = some opened) : s.stop < opened := by
  obtain ⟨hle, -, hopens, hcloses⟩ := parensAfter?_eq_some hs
  obtain ⟨hlt, hsize⟩ := lt_of_closer? hcloses
  rw [bodyOpener?_eq] at hbody
  obtain ⟨brace, hbrace, hbody⟩ := Option.bind_eq_some_iff.1 hbody
  have hfirst : brace ≤ opened := by
    split at hbody
    · obtain ⟨closed, hclosed, hlater⟩ := Option.bind_eq_some_iff.1 hbody
      have := (bodyOpener?_eq_some hlater).1
      have := (lt_of_closer? hclosed).1
      omega
    · exact Nat.le_of_eq (Option.some.inj hbody)
  have hne : brace ≠ s.stop := by
    rintro rfl
    have hcloser := hasChar_iff.1 (hasChar_closer (d := .paren) hopens hcloses)
    have hopener := hasChar_iff.1 (hasChar_of_findTopLevel? hbrace)
    exact absurd (Option.some.inj (hcloser.symm.trans hopener)) (by decide)
  have hbehind : s.stop ≤ brace := by
    have hlen := length_byteSlice (m := m) (show i ≤ s.stop by omega) (Nat.le_of_lt hsize)
    obtain ⟨n, hn, rfl⟩ := Option.map_eq_some_iff.1 hbrace
    rw [byteSlice_append (show i ≤ s.stop by omega) (Nat.le_of_lt hsize), topLevelOffset_append,
      topLevelOffset_parens ‹_› hi hs hstart, Option.none_or, hlen] at hn
    obtain ⟨n, -, rfl⟩ := Option.map_eq_some_iff.1 hn
    omega
  omega

/-- A statement of a body begins where the source can be cut. -/
theorem cutsAt_statementStart (ha : a.Lined) (hi : a.CutsAt i) (hij : i ≤ j) :
    a.CutsAt (a.statementStart i j) := by
  obtain ⟨-, -, hstart | ⟨hlt, x, hx, hborder⟩⟩ := statementStart_spec a hij
  · rwa [hstart]
  · obtain ⟨n, hn⟩ : ∃ n, a.statementStart i j = n + 1 := ⟨a.statementStart i j - 1, by omega⟩
    rw [hn] at hx ⊢
    unfold bordersStatement at hborder
    simp only [Bool.or_eq_true, decide_eq_true_eq] at hborder
    refine (ha.cuts n x hx ?_ ?_).2 <;>
      rcases hborder with ((rfl | rfl) | rfl) | rfl <;> decide

theorem statementStart_append_of_le (hj : j ≤ a.size) (b : Masked) :
    (a.append b).statementStart i j = a.statementStart i j := by
  unfold statementStart
  rw [byteSlice_append_of_le hj]

theorem arguments_append (ha : a.Lined) {s : Span} (hstart : a.CutsAt s.start)
    (hle : s.start ≤ s.stop) (hstop : s.stop ≤ a.size) (b : Masked) :
    (a.append b).arguments s = a.arguments s := by
  obtain ⟨hsplit, htext⟩ := splitTopLevel_append ha hstart hle hstop b
  unfold arguments
  rw [hsplit]
  exact List.map_congr_left fun p hp => congrArg onOneLine (htext p hp)

theorem bareReturn?_append {body : Span} (hstart : a.CutsAt body.start) (hstop : body.stop ≤ a.size)
    (b : Masked) : (a.append b).bareReturn? body = a.bareReturn? body := by
  unfold bareReturn?
  rw [codeSlice_append_of_le hstart hstop]

theorem callSite_append (ha : a.Lined) (hn : WellNested a.bytes) {f : FunctionSpan} {name : Span}
    (hopened : a.hasChar f.opened '\x7b' = true) (hclosed : a.closer? f.opened = some f.closed)
    (hname : a.CutsAt name.stop) (hle : name.stop ≤ f.opened) (b : Masked)
    (primitives : List String) :
    (a.append b).callSite primitives f name = a.callSite primitives f name := by
  obtain ⟨hlt, hsize⟩ := lt_of_closer? hclosed
  have hbody : a.CutsAt f.body.start := cutsAt_add_one ha hopened (by decide) (by decide)
  have hstop : f.body.stop ≤ a.size := Nat.le_of_lt hsize
  unfold callSite
  simp only [bind, Except.bind, parensAfter?_append_of_brace hn hname hle hopened,
    byteSlice_append_of_le hstop]
  cases hparams : a.parensAfter? name.stop with
  | none => rfl
  | some params =>
    obtain ⟨-, -, hopens, hcloses⟩ := parensAfter?_eq_some hparams
    have hbehind : a.CutsAt (params.stop + 1) :=
      cutsAt_add_one ha (hasChar_closer (d := .paren) hopens hcloses) (by decide) (by decide)
    simp only [namedResult_append ha hn hbehind (show f.opened ≤ a.size by omega)]
    cases a.namedResult (params.stop + 1) f.opened with
    | error reason => rfl
    | ok result =>
      cases hcall : firstCall? (a.byteSlice f.body.start f.body.stop) primitives with
      | none => rfl
      | some call =>
        obtain ⟨offset, primitive⟩ := call
        obtain ⟨-, hprefix, -⟩ := firstCall?_eq_some hcall
        obtain ⟨hdot, hparen⟩ := call_spec (isPrefixOf_of_byteSlice hprefix)
        have hdot := Nat.le_of_lt (lt_size_of_hasChar hdot)
        have hstatement := cutsAt_statementStart ha hbody (Nat.le_add_right f.body.start offset)
        simp only [statementStart_append_of_le hdot, codeSlice_append_of_le hstatement hdot,
          closer?_append_of_wellNested hn (lt_size_of_hasChar hparen)]
        cases hargs : a.closer? (f.body.start + offset + 1 + primitive.utf8ByteSize) with
        | none => rfl
        | some closed =>
          have hfirst := cutsAt_add_one ha hparen (by decide) (by decide)
          obtain ⟨hinside, hlast⟩ := lt_of_closer? hargs
          simp only [arguments_append (s := ⟨_, closed⟩) ha hfirst hinside (Nat.le_of_lt hlast),
            bareReturn?_append hbody hstop]

/-- The parts of a method are cut out of the first part alone. -/
theorem methodAt?_append (ha : a.Lined) {f : FunctionSpan} {name params : Span} {c : CallSite}
    {primitives : List String} (hopened : a.hasChar f.opened '\x7b' = true)
    (hclosed : a.closer? f.opened = some f.closed) (hname : a.CutsAt name.start)
    (hc : Reads a primitives f name params c) (b : Masked) (r : Receiver) :
    (a.append b).methodAt? r c = a.methodAt? r c := by
  obtain ⟨offset, hdot, hcall⟩ := hc.first_call
  obtain ⟨-, hprefix, -⟩ := firstCall?_eq_some hcall
  obtain ⟨hdotAt, hparen⟩ := call_spec (isPrefixOf_of_byteSlice hprefix)
  rw [← hdot] at hdotAt hparen
  have hdotSize := lt_size_of_hasChar hdotAt
  have hbody : a.CutsAt f.body.start := cutsAt_add_one ha hopened (by decide) (by decide)
  have hstatement : c.statement ≤ a.size := by
    have hle : f.body.start ≤ c.dot := by omega
    have := (statementStart_spec a hle).2.1
    rw [← hc.statement_eq] at this
    omega
  have hargs : a.CutsAt (c.args.stop + 1) :=
    cutsAt_add_one ha (hasChar_closer (d := .paren) hparen hc.args_closed) (by decide) (by decide)
  have hreturn : c.returnAt ≤ a.size := by
    obtain ⟨before, blank, hcode, -, -, hreturn⟩ := bareReturn?_eq_some.1 hc.return_at
    have hcloser := hasChar_closer (d := .brace) hopened hclosed
    have hstop : a.CutsAt f.body.stop :=
      (ha.cuts f.closed _ (hasChar_iff.1 hcloser) (by decide) (by decide)).1
    have hlt := lt_of_closer? hclosed
    rw [List.append_assoc] at hcode
    obtain ⟨hlen, -⟩ := codeSlice_of_append hbody hstop hlt.1 hcode
    rw [hreturn]
    exact Nat.le_trans (Nat.le.intro hlen) (Nat.le_of_lt hlt.2)
  have hparams := (lt_of_closer? (parensAfter?_eq_some hc.params_at).2.2.2).2
  have hsignature : (a.append b).spanText c.signature = a.spanText c.signature := by
    rw [hc.signature_eq]
    exact slice_append_of_le ha.size_eq hname hparams b
  unfold methodAt?
  rw [slice_append_of_le ha.size_eq (hc.body_eq ▸ hbody) hstatement, slice_append_of_le ha.size_eq hargs hreturn,
    hsignature]

theorem receiverAfter?_append_of_brace (ha : a.Lined) (hn : WellNested a.bytes) (hi : a.CutsAt i)
    (hik : i ≤ k) (hk : a.hasChar k '\x7b' = true) (b : Masked) :
    (a.append b).receiverAfter? i = a.receiverAfter? i := by
  unfold receiverAfter?
  rw [parensAfter?_append_of_brace hn hi hik hk]
  cases hs : a.parensAfter? i with
  | none => rfl
  | some s =>
    obtain ⟨-, -, hopens, hcloses⟩ := parensAfter?_eq_some hs
    have hcut := cutsAt_add_one ha hopens (by decide) (by decide)
    simp only [slice_append_of_le ha.size_eq hcut (Nat.le_of_lt (lt_of_closer? hcloses).2)]

theorem nameAfter?_append_of_brace (ha : a.Lined) (hi : a.CutsAt i) (hik : i ≤ k)
    (hk : a.hasChar k '\x7b' = true) (b : Masked) : (a.append b).nameAfter? i = a.nameAfter? i := by
  obtain ⟨j, -, hj, -⟩ := skipBlank?_append_of_brace hi hik hk b
  exact ha.nameAfter?_append b hj

/-- Behind a receiver the name of a method comes before its body. -/
theorem receiver_stop_le (ha : a.Lined) (hn : WellNested a.bytes) (hi : a.CutsAt i) {r : Receiver}
    (hr : a.receiverAfter? i = some r) (hbody : a.bodyOpener? i = some k) :
    a.CutsAt r.stop ∧ r.stop ≤ k := by
  obtain ⟨s, -, hs, -, -, hstop⟩ := receiverAfter?_eq_some hr
  obtain ⟨-, -, hopens, hcloses⟩ := parensAfter?_eq_some hs
  have hstart : a.CutsAt s.start :=
    (ha.cuts s.start _ (hasChar_iff.1 hopens) (by decide) (by decide)).1
  have hlt := lt_of_parensAfter? hn hi hs hstart hbody
  rw [hstop]
  exact ⟨cutsAt_add_one ha (hasChar_closer (d := .paren) hopens hcloses) (by decide) (by decide),
    hlt⟩

/-- A name before a brace can be cut out and ends before the brace. -/
theorem name_stop_le (ha : a.Lined) (hi : a.CutsAt i) (hik : i ≤ k)
    (hk : a.hasChar k '\x7b' = true) {name : Span} (hname : a.nameAfter? i = some name) :
    a.CutsAt name.start ∧ a.CutsAt name.stop ∧ name.stop ≤ k := by
  obtain ⟨hskipped, hident⟩ := nameAfter?_eq_some hname
  obtain ⟨j, hj, hle⟩ := exists_skipBlank? hi hik hk (by decide) (by decide)
  obtain rfl := Option.some.inj (hskipped.symm.trans hj)
  obtain ⟨-, hnonempty, ⟨x, hx, hxword⟩, y, hy, hyword⟩ := identAt?_eq_some hident
  obtain ⟨hxascii, hxspace⟩ := lt_of_isWordByte (isWordByte_of_isWordStart hxword)
  obtain ⟨hyascii, hyspace⟩ := lt_of_isWordByte hyword
  have hstop := (ha.cuts _ y hy hyascii hyspace).2
  rw [show name.stop - 1 + 1 = name.stop by omega] at hstop
  exact ⟨(ha.cuts _ x hx hxascii hxspace).1, hstop,
    stop_le_of_identAt? hident hle (hasChar_iff.1 hk) (by decide)⟩

/-- A function of the first part is read as in the first part alone. -/
theorem readFunction?_append (ha : a.Lined) (hn : WellNested a.bytes) {f : FunctionSpan}
    (hf : a.HoldsFunction f) (b : Masked) (primitives : List String) :
    (a.append b).readFunction? primitives f = a.readFunction? primitives f := by
  obtain ⟨hword, -, hbody, hclosed⟩ := hf
  obtain ⟨hhead, hopened⟩ := bodyOpener?_eq_some hbody
  have hstart : a.CutsAt f.start :=
    (ha.cuts f.start _ (getElem?_of_wordAt (k := 0) hword rfl) (by decide) (by decide)).1
  have hcut : a.CutsAt f.head :=
    (ha.cuts (f.start + 3) _ (getElem?_of_wordAt (k := 3) hword rfl) (by decide) (by decide)).2
  have hwhole : (a.append b).spanText f.whole = a.spanText f.whole :=
    slice_append_of_le ha.size_eq hstart (lt_of_closer? hclosed).2 b
  have htext {i : Nat} {name? : Option Span} (h : a.nameAfter? i = name?) :
      name?.map (fun s => String.ofList ((a.append b).spanText s)) =
        name?.map fun s => String.ofList (a.spanText s) := by
    subst h
    exact Option.map_congr fun s hs => congrArg String.ofList (ha.spanText_append b hs)
  unfold readFunction?
  simp only [receiverAfter?_append_of_brace ha hn hcut hhead hopened,
    nameAfter?_append_of_brace ha hcut hhead hopened, hwhole]
  cases hr : a.receiverAfter? f.head with
  | none => simp only [htext rfl]
  | some r =>
    obtain ⟨hbehind, hle⟩ := receiver_stop_le ha hn hcut hr hbody
    simp only [nameAfter?_append_of_brace ha hbehind hle hopened]
    cases hname : a.nameAfter? r.stop with
    | none => rfl
    | some name =>
      obtain ⟨hnameStart, hnameStop, hnameLe⟩ := name_stop_le ha hbehind hle hopened hname
      simp only [callSite_append ha hn hopened hclosed hnameStop hnameLe b]
      cases hc : a.callSite primitives f name with
      | error reason => simp only [htext hname]
      | ok c =>
        obtain ⟨params, hreads⟩ := callSite_eq_ok.1 hc
        simp only [methodAt?_append ha hopened hclosed hnameStart hreads b r]

/-! ## Where functions stand -/

/-- A body that begins in the first part is found there. -/
theorem bodyOpener?_append (hi : i ≤ a.size) (h : a.bodyOpener? i = some k) (b : Masked) :
    (a.append b).bodyOpener? i = some k := by
  have htype {opened : Nat} (hle : opened ≤ a.size) :
      (a.append b).opensType opened = a.opensType opened := by
    unfold opensType
    rw [codeSlice_append_of_le (cutsAt_zero a) hle]
  have hfind {start brace : Nat} (hi : start ≤ a.size)
      (h : a.findTopLevel? start a.size '\x7b' = some brace) :
      (a.append b).findTopLevel? start (a.append b).size '\x7b' = some brace ∧ brace < a.size := by
    rw [size_append]
    exact ⟨findTopLevel?_append hi h b _, lt_size_of_hasChar (hasChar_of_findTopLevel? h)⟩
  induction i using bodyOpener?.induct a with
  | case1 start hnone =>
    rw [bodyOpener?_eq, hnone, Option.bind_none] at h
    exact absurd h (Option.some_ne_none k).symm
  | case2 start brace hbrace hopens hnone =>
    rw [bodyOpener?_eq, hbrace, Option.bind_some, if_pos hopens, hnone, Option.bind_none] at h
    exact absurd h (Option.some_ne_none k).symm
  | case3 start brace hbrace hopens closed hclosed _ _ ih =>
    obtain ⟨hboth, hlt⟩ := hfind hi hbrace
    rw [bodyOpener?_eq, hbrace, Option.bind_some, if_pos hopens, hclosed, Option.bind_some] at h
    rw [bodyOpener?_eq, hboth, Option.bind_some, htype (Nat.le_of_lt hlt), if_pos hopens,
      closer?_append hclosed, Option.bind_some]
    exact ih (lt_of_closer? hclosed).2 h
  | case4 start brace hbrace hopens =>
    obtain ⟨hboth, hlt⟩ := hfind hi hbrace
    rw [bodyOpener?_eq, hbrace, Option.bind_some, if_neg hopens] at h
    rw [bodyOpener?_eq, hboth, Option.bind_some, htype (Nat.le_of_lt hlt), if_neg hopens]
    exact h

/-- The functions of two texts are those of the first one and then those of the second, when every
function of the first one has its body there. -/
theorem functionsFrom_append (ha : a.Lined) (hn : WellNested a.bytes) (b : Masked)
    {places later : List Nat} {start : Nat}
    (hplaces : ∀ i ∈ places, a.wordAt "func".toList i = true ∧
      (a.beginsLine i = true → ∃ opened, a.bodyOpener? (i + "func".length) = some opened))
    (hlater : ∀ i ∈ later, b.wordAt "func".toList i = true) (hstart : start ≤ a.size) :
    (a.append b).functionsFrom (places ++ later.map (a.size + ·)) start =
      a.functionsFrom places start ++ (b.functionsFrom later 0).map (FunctionSpan.shift a.size) := by
  induction places generalizing start with
  | nil =>
    rw [List.nil_append, functionsFrom_append_add ha b hlater, Nat.sub_eq_zero_of_le hstart]
    rfl
  | cons i places ih =>
    obtain ⟨hword, hbody⟩ := hplaces i List.mem_cons_self
    have hplaces := fun j hj => hplaces j (List.mem_cons_of_mem i hj)
    have hhead : i + "func".length ≤ a.size :=
      (List.getElem?_eq_some_iff.1 (getElem?_of_wordAt (k := 3) hword rfl)).1
    rw [List.cons_append, functionsFrom, functionsFrom]
    by_cases hlt : i < start
    · rw [if_pos hlt, if_pos hlt, ih hplaces hstart]
    · rw [if_neg hlt, if_neg hlt]
      simp only [ha.beginsLine_append b (show i ≤ a.size by omega)]
      cases hline : a.beginsLine i with
      | false =>
        simp only [Bool.false_eq_true, if_false]
        exact ih hplaces hhead
      | true =>
        obtain ⟨opened, hopened⟩ := hbody hline
        have hbrace := (bodyOpener?_eq_some hopened).2
        obtain ⟨closed, hclosed⟩ := exists_closer? (d := .brace) hn (hasChar_iff.1 hbrace)
        simp only [if_true, bodyOpener?_append hhead hopened b, hopened, closer?_append hclosed,
          hclosed, ih hplaces (lt_of_closer? hclosed).2, List.cons_append]

theorem functions_append (ha : a.Lined) (hn : WellNested a.bytes) (b : Masked)
    (hbody : ∀ i ∈ a.wordStarts "func", a.beginsLine i = true →
      ∃ opened, a.bodyOpener? (i + "func".length) = some opened) :
    (a.append b).functions = a.functions ++ b.functions.map (FunctionSpan.shift a.size) := by
  unfold functions
  rw [ha.wordStarts_append b (show '\n'.toUInt8 ∉ Text.bytes "func".toList by decide +kernel)]
  exact functionsFrom_append ha hn b
    (fun i hi => ⟨(mem_wordStarts.1 hi).2, hbody i hi⟩) (fun i hi => (mem_wordStarts.1 hi).2)
    (Nat.zero_le _)

/-! ## Bodies -/

/-- A whole keyword of a type that is written out stands before an offset, across blanks. -/
def followsKeyword (m : Masked) (i : Nat) : Bool :=
  ["interface", "struct"].any fun word =>
    match Text.stripSuffix? word.toList (Text.trimEnd (m.codeSlice 0 i)) with
    | none => false
    | some before => before.getLast?.all fun c => c.utf8Size == 1 && !isWordChar c

/-- Behind an offset the body of a function stands, across the types that are written out in its
results. -/
inductive HasBody (m : Masked) : Nat → Prop
  | body {start opened : Nat} (brace : m.findTopLevel? start m.size '\x7b' = some opened)
      (own : m.followsKeyword opened = false) : HasBody m start
  | type {start opened closed : Nat} (brace : m.findTopLevel? start m.size '\x7b' = some opened)
      (keyword : m.followsKeyword opened = true) (partner : m.closer? opened = some closed)
      (rest : HasBody m (closed + 1)) : HasBody m start

/-- Only whole keywords stand before braces: no longer name that ends as one of them. -/
def WholeKeywords (m : Masked) : Prop :=
  ∀ i < m.size, m.hasChar i '\x7b' = true → m.opensType i = true → m.followsKeyword i = true

instance (m : Masked) : Decidable (WholeKeywords m) :=
  inferInstanceAs (Decidable (∀ i < m.size, _))

/-- Where only whole keywords stand before braces a body that is there is found. -/
theorem HasBody.exists_bodyOpener? {m : Masked} {start : Nat} (h : m.HasBody start)
    (hkeywords : m.WholeKeywords) : ∃ opened, m.bodyOpener? start = some opened := by
  induction h with
  | @body start opened hbrace hown =>
    have hchar := hasChar_of_findTopLevel? hbrace
    have hopens : ¬m.opensType opened = true := fun hopens => by
      rw [hkeywords opened (lt_size_of_hasChar hchar) hchar hopens] at hown
      exact Bool.noConfusion hown
    exact ⟨opened, by rw [bodyOpener?_eq, hbrace, Option.bind_some, if_neg hopens]⟩
  | @type start opened closed hbrace _ hpartner _ ih =>
    obtain ⟨later, hlater⟩ := ih
    by_cases hopens : m.opensType opened = true
    · exact ⟨later, by
        rw [bodyOpener?_eq, hbrace, Option.bind_some, if_pos hopens, hpartner, Option.bind_some,
          hlater]⟩
    · exact ⟨opened, by rw [bodyOpener?_eq, hbrace, Option.bind_some, if_neg hopens]⟩

/-! ## All functions -/

/-- What became of a function, when methods of one receiver type are wanted. -/
def outcomeOf? (m : Masked) (primitives : List String) (wanted : Option String) (f : FunctionSpan) :
    Option (Outcome SyncMethod) :=
  (m.readFunction? primitives f).map (·.ofType wanted (.ofList (m.spanText f.whole)))

theorem map_outcome_readFunctions? (m : Masked) (primitives : List String) (wanted : Option String)
    (fs : List FunctionSpan) :
    (m.readFunctions? primitives wanted fs).map (·.map (·.outcome)) =
      fs.mapM (m.outcomeOf? primitives wanted) := by
  induction fs with
  | nil => rfl
  | cons f fs ih =>
    rw [readFunctions?, List.mapM_cons, ← ih, outcomeOf?]
    cases m.readFunction? primitives f with
    | none => rfl
    | some o => cases m.readFunctions? primitives wanted fs <;> rfl

theorem mapM_congr {α β : Type} {f g : α → Option β} {as : List α} (h : ∀ x ∈ as, f x = g x) :
    as.mapM f = as.mapM g := by
  induction as with
  | nil => rfl
  | cons x as ih =>
    rw [List.mapM_cons, List.mapM_cons, h x List.mem_cons_self,
      ih fun y hy => h y (List.mem_cons_of_mem x hy)]

theorem outcomeOf?_append (ha : a.Lined) (hn : WellNested a.bytes) {f : FunctionSpan}
    (hf : a.HoldsFunction f) (b : Masked) (primitives : List String) (wanted : Option String) :
    (a.append b).outcomeOf? primitives wanted f = a.outcomeOf? primitives wanted f := by
  have hstart : a.CutsAt f.start :=
    (ha.cuts f.start _ (getElem?_of_wordAt (k := 0) hf.1 rfl) (by decide) (by decide)).1
  have hwhole : (a.append b).spanText f.whole = a.spanText f.whole :=
    slice_append_of_le ha.size_eq hstart (lt_of_closer? hf.2.2.2).2 b
  unfold outcomeOf?
  rw [readFunction?_append ha hn hf, hwhole]

theorem outcomeOf?_append_add (ha : a.size = a.sourceSize) (b : Masked) (f : FunctionSpan)
    (primitives : List String) (wanted : Option String) :
    (a.append b).outcomeOf? primitives wanted (f.shift a.size) =
      b.outcomeOf? primitives wanted f := by
  unfold outcomeOf?
  rw [readFunction?_append_add ha, FunctionSpan.whole_shift, spanText_append_add ha]

end Masked

namespace ClientFile

open Masked

/-- What became of the functions of a client file, in order, when it can be read. -/
def outcomes? (options : ClientOptions) (source : String) : Option (List (Outcome SyncMethod)) :=
  (read? options source).map fun file => file.functions.map (·.outcome)

/-- With a receiver type that is given the functions are read one by one. -/
theorem outcomes?_eq {primitives : List String} {wanted source : String}
    (h : Unsplit (glyphs .go source.toList)) : outcomes? ⟨primitives, some wanted⟩ source =
      (ofSource .go source.toList).functions.mapM
        ((ofSource .go source.toList).outcomeOf? primitives (some wanted)) := by
  obtain ⟨imports, himports⟩ := exists_imports? h
  unfold outcomes? read?
  extract_lets m fs clientType? leading
  rw [← map_outcome_readFunctions?, show m.imports? = some imports from himports]
  show Option.map _ (Option.bind (m.readFunctions? primitives (some wanted) fs) _) = _
  cases m.readFunctions? primitives (some wanted) fs <;> rfl

/-- The functions of a client file in two parts are read part by part, when the copy of the whole is
that of its parts, the first part ends its last line and every delimiter that it opens, each function
of it has its body there, and no name in it that only ends as `interface` or `struct` stands before a
brace. The last character of the whole must not be torn in the middle. -/
theorem outcomes?_append (primitives : List String) (wanted s t : String)
    (hmask : mask .go (s ++ t).toList = mask .go s.toList ++ mask .go t.toList)
    (hlast : s.toList.getLast? = some '\n')
    (hnest : WellNested (ofSource .go s.toList).bytes)
    (hbody : ∀ i ∈ (ofSource .go s.toList).wordStarts "func",
      (ofSource .go s.toList).beginsLine i = true →
        (ofSource .go s.toList).HasBody (i + "func".length))
    (hkeywords : (ofSource .go s.toList).WholeKeywords)
    (hwide : ¬EndsInWideQuotes .go t.toList) :
    outcomes? ⟨primitives, some wanted⟩ (s ++ t) = do
      let first ← outcomes? ⟨primitives, some wanted⟩ s
      let second ← outcomes? ⟨primitives, some wanted⟩ t
      return first ++ second := by
  have ha : (ofSource .go s.toList).Lined := lined_ofSource fun c hc => by
    rw [hlast] at hc
    exact (Option.some.inj hc).symm
  have hlen : Text.byteLength (mask .go s.toList) = Text.byteLength s.toList := by
    have := ha.size_eq
    rwa [← byteLength_code] at this
  have hsecond : Unsplit (glyphs .go t.toList) := unsplit_glyphs hwide
  have hboth : Unsplit (glyphs .go (s ++ t).toList) := by
    have hlen' := hsecond.byteLength_showGlyphs
    rw [map_char_glyphs] at hlen'
    refine unsplit_of_byteLength_eq ?_
    rw [hmask, String.toList_append, Text.byteLength_append, Text.byteLength_append, hlen]
    exact congrArg (Text.byteLength s.toList + ·) hlen'
  have happend : ofSource .go (s ++ t).toList =
      (ofSource .go s.toList).append (ofSource .go t.toList) := by
    rw [String.toList_append] at hmask ⊢
    exact ofSource_append hmask
  have hfunctions := functions_append ha hnest (ofSource .go t.toList)
    fun i hi hline => (hbody i hi hline).exists_bodyOpener? hkeywords
  rw [outcomes?_eq hboth, outcomes?_eq (unsplit_of_byteLength_eq hlen), outcomes?_eq hsecond,
    happend, hfunctions, List.mapM_append, List.mapM_map]
  have hfirst : (ofSource .go s.toList).functions.mapM
      (((ofSource .go s.toList).append (ofSource .go t.toList)).outcomeOf? primitives (some wanted)) =
        (ofSource .go s.toList).functions.mapM
          ((ofSource .go s.toList).outcomeOf? primitives (some wanted)) :=
    mapM_congr fun f hf => outcomeOf?_append ha hnest (mem_functions hf) _ _ _
  have hlater : (((ofSource .go s.toList).append (ofSource .go t.toList)).outcomeOf? primitives
      (some wanted)) ∘ FunctionSpan.shift (ofSource .go s.toList).size =
        (ofSource .go t.toList).outcomeOf? primitives (some wanted) :=
    funext fun f => outcomeOf?_append_add ha.size_eq _ f _ _
  rw [hfirst, hlater]

/-- A constructor that returns an interface, and a method that makes a call. -/
def openedClient : String :=
  "func Open() interface\x7b\x7d \x7b\n\treturn nil\n\x7d\n\n" ++
  "func (c *C) M(x T) (y T, err error) \x7b\n\terr = c.CallRPC(&y, \"a\", x)\n\treturn\n\x7d\n"

/-- A method whose results have no names, under a comment. -/
def closedClient : String :=
  "// Close.\nfunc (c *C) Close() error \x7b\n\treturn nil\n\x7d\n"

theorem outcomes?_append_openedClient :
    mask .go (openedClient ++ closedClient).toList =
        mask .go openedClient.toList ++ mask .go closedClient.toList ∧
      openedClient.toList.getLast? = some '\n' ∧
      WellNested (ofSource .go openedClient.toList).bytes ∧
      (∀ i ∈ (ofSource .go openedClient.toList).wordStarts "func",
        (ofSource .go openedClient.toList).beginsLine i = true →
          (ofSource .go openedClient.toList).HasBody (i + "func".length)) ∧
      (ofSource .go openedClient.toList).WholeKeywords ∧
      ¬EndsInWideQuotes .go closedClient.toList ∧
      (outcomes? ⟨["CallRPC"], some "C"⟩ openedClient).map (·.length) = some 2 ∧
      outcomes? ⟨["CallRPC"], some "C"⟩ (openedClient ++ closedClient) = (do
        let first ← outcomes? ⟨["CallRPC"], some "C"⟩ openedClient
        let second ← outcomes? ⟨["CallRPC"], some "C"⟩ closedClient
        return first ++ second) := by
  have hmask : mask .go (openedClient ++ closedClient).toList =
      mask .go openedClient.toList ++ mask .go closedClient.toList := by decide +kernel
  have hlast : openedClient.toList.getLast? = some '\n' := by decide +kernel
  have hnest : WellNested (ofSource .go openedClient.toList).bytes := by decide +kernel
  have hbody : ∀ i ∈ (ofSource .go openedClient.toList).wordStarts "func",
      (ofSource .go openedClient.toList).beginsLine i = true →
        (ofSource .go openedClient.toList).HasBody (i + "func".length) := by
    have hstarts : (ofSource .go openedClient.toList).wordStarts "func" = [0, 41] := by
      decide +kernel
    intro i hi _
    rw [hstarts] at hi
    rcases List.mem_cons.1 hi with rfl | hi
    · exact @HasBody.type _ _ 21 22 (by decide +kernel) (by decide +kernel) (by decide +kernel)
        (@HasBody.body _ _ 24 (by decide +kernel) (by decide +kernel))
    · obtain rfl := List.mem_singleton.1 hi
      exact @HasBody.body _ _ 77 (by decide +kernel) (by decide +kernel)
  have hkeywords : (ofSource .go openedClient.toList).WholeKeywords := by decide +kernel
  have hwide : ¬EndsInWideQuotes .go closedClient.toList := by decide +kernel
  exact ⟨hmask, hlast, hnest, hbody, hkeywords, hwide, by decide +kernel,
    outcomes?_append ["CallRPC"] "C" openedClient closedClient hmask hlast hnest hbody hkeywords
      hwide⟩

/-- A method whose result type is a name that ends as a keyword. -/
def namedInterface : String :=
  "func (c *C) F() myinterface \x7b\n\x7d\n"

/-- A method without results. -/
def emptyMethod : String :=
  "func (c *C) G() \x7b\n\x7d\n"

/-- A function can change how another one is read: a body behind a name that ends as `interface` is
taken for a type, and the body is then that of the next function. -/
theorem outcomes?_append_ne :
    mask .go (namedInterface ++ emptyMethod).toList =
        mask .go namedInterface.toList ++ mask .go emptyMethod.toList ∧
      namedInterface.toList.getLast? = some '\n' ∧
      WellNested (ofSource .go namedInterface.toList).bytes ∧
      (∀ i ∈ (ofSource .go namedInterface.toList).wordStarts "func",
        (ofSource .go namedInterface.toList).beginsLine i = true →
          (ofSource .go namedInterface.toList).HasBody (i + "func".length)) ∧
      outcomes? ⟨["CallRPC"], some "C"⟩ namedInterface = some [] ∧
      outcomes? ⟨["CallRPC"], some "C"⟩ emptyMethod = some [.skipped
        ⟨.clientFunction, some "G", .otherResults, "func (c *C) G() \x7b\n\x7d"⟩] ∧
      outcomes? ⟨["CallRPC"], some "C"⟩ (namedInterface ++ emptyMethod) = some [.skipped
        ⟨.clientFunction, some "F", .otherResults,
          "func (c *C) F() myinterface \x7b\n\x7d\nfunc (c *C) G() \x7b\n\x7d"⟩] := by
  refine ⟨by decide +kernel, by decide +kernel, by decide +kernel, fun i hi _ => ?_,
    by decide +kernel, by decide +kernel, by decide +kernel⟩
  have hstarts : (ofSource .go namedInterface.toList).wordStarts "func" = [0] := by
    decide +kernel
  rw [hstarts] at hi
  obtain rfl := List.mem_singleton.1 hi
  exact @HasBody.body _ _ 28 (by decide +kernel) (by decide +kernel)

/-- Where the copy of the second part is longer than the part, both can be read and the whole cannot:
the import clause of the first part runs to the end of the copy, behind the end of the source. -/
theorem outcomes?_append_wideQuotes :
    mask .go "import\n\"é".toList = mask .go "import\n".toList ++ mask .go "\"é".toList ∧
      outcomes? ⟨["CallRPC"], some "C"⟩ "import\n" = some [] ∧
      outcomes? ⟨["CallRPC"], some "C"⟩ "\"é" = some [] ∧
      outcomes? ⟨["CallRPC"], some "C"⟩ "import\n\"é" = none := by
  refine ⟨?_, ?_, ?_, ?_⟩ <;> decide +kernel

end ClientFile

end RpcBindings
