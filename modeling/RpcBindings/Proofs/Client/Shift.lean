import RpcBindings.Client.File
import RpcBindings.Proofs.Client.Function
import RpcBindings.Proofs.Masked.Append

/-!
Functions behind another text.

What stands before a client file only moves its functions: each is found further on
(`functionsFrom_append_add`) and read as the file alone reads it (`readFunction?_append_add`). Only the
question whether a brace belongs to a type looks back, and it looks no further than the keyword of the
function.
-/

namespace RpcBindings

/-- A function that stands some bytes further on. -/
def FunctionSpan.shift (n : Nat) (f : FunctionSpan) : FunctionSpan :=
  ⟨n + f.start, n + f.opened, n + f.closed⟩

/-- A receiver whose list ends some bytes further on. -/
def Receiver.shift (n : Nat) (r : Receiver) : Receiver :=
  { r with stop := n + r.stop }

/-- A call site that stands some bytes further on. -/
def CallSite.shift (n : Nat) (c : CallSite) : CallSite :=
  { c with
    signature := c.signature.shift n
    bodyStart := n + c.bodyStart
    statement := n + c.statement
    dot := n + c.dot
    args := c.args.shift n
    returnAt := n + c.returnAt }

namespace FunctionSpan

theorem head_shift (n : Nat) (f : FunctionSpan) : (f.shift n).head = n + f.head :=
  Nat.add_assoc n f.start 4

theorem whole_shift (n : Nat) (f : FunctionSpan) : (f.shift n).whole = f.whole.shift n :=
  congrArg (Span.mk (n + f.start)) (Nat.add_assoc n f.closed 1)

theorem body_shift (n : Nat) (f : FunctionSpan) : (f.shift n).body = f.body.shift n :=
  congrArg (Span.mk · (n + f.closed)) (Nat.add_assoc n f.opened 1)

end FunctionSpan

namespace Masked

variable {a : Masked}

/-! ## Pieces -/

theorem piecesFrom_add (sep : UInt8) (depth n start i : Nat) (bs : List UInt8) :
    piecesFrom sep depth (n + start) (n + i) bs =
      ((piecesFrom sep depth start i bs).1.map (Span.shift n),
        n + (piecesFrom sep depth start i bs).2) := by
  induction bs generalizing depth start i with
  | nil => rfl
  | cons x bs ih =>
    rw [piecesFrom, piecesFrom, Nat.add_assoc n i 1]
    split
    · rw [ih]
      rfl
    · exact ih _ _ _

theorem splitTopLevel_append_add (a b : Masked) (i j : Nat) (sep : Char) :
    (a.append b).splitTopLevel (a.size + i) (a.size + j) sep =
      (b.splitTopLevel i j sep).map (Span.shift a.size) := by
  unfold splitTopLevel withTail
  rw [byteSlice_append_add, piecesFrom_add]
  simp only [isBlank_append_add]
  split
  · rfl
  · rw [List.map_append]
    rfl

/-! ## Parts of a method -/

theorem receiverAfter?_append_add (ha : a.size = a.sourceSize) (b : Masked) (i : Nat) :
    (a.append b).receiverAfter? (a.size + i) = (b.receiverAfter? i).map (·.shift a.size) := by
  unfold receiverAfter?
  rw [parensAfter?_append_add]
  cases b.parensAfter? i with
  | none => rfl
  | some s =>
    have hslice : (a.append b).slice (a.size + s.start + 1) (a.size + s.stop) =
        b.slice (s.start + 1) s.stop := slice_append_add ha b (s.start + 1) s.stop
    simp only [Option.map_some, Span.shift, hslice]
    split <;> rfl

theorem namedResult_append_add (ha : a.size = a.sourceSize) (b : Masked) (i j : Nat) :
    (a.append b).namedResult (a.size + i) (a.size + j) = b.namedResult i j := by
  unfold namedResult
  rw [skipBlank?_append_add]
  cases b.skipBlank? i with
  | none => rfl
  | some opened =>
    simp only [Option.map_some, hasChar_append_add, closer?_append_add, Nat.add_lt_add_iff_left]
    cases b.closer? opened with
    | none => rfl
    | some closed =>
      have hspan := spanText_append_add ha b
      simp only [Option.map_some, Nat.add_assoc, splitTopLevel_append_add, Nat.add_lt_add_iff_left]
      rcases b.splitTopLevel (opened + 1) closed ',' with
        _ | ⟨value, _ | ⟨error, _ | ⟨other, pieces⟩⟩⟩
      · rfl
      · rfl
      · simp only [List.map_cons, List.map_nil, hspan]
      · rfl

theorem statementStart_append_add (a b : Masked) (bodyStart i : Nat) :
    (a.append b).statementStart (a.size + bodyStart) (a.size + i) =
      a.size + b.statementStart bodyStart i := by
  unfold statementStart
  rw [byteSlice_append_add, Nat.add_assoc]

theorem arguments_append_add (ha : a.size = a.sourceSize) (b : Masked) (s : Span) :
    (a.append b).arguments (s.shift a.size) = b.arguments s := by
  unfold arguments
  rw [show (s.shift a.size).start = a.size + s.start from rfl,
    show (s.shift a.size).stop = a.size + s.stop from rfl, splitTopLevel_append_add, List.map_map]
  exact List.map_congr_left fun piece _ => congrArg onOneLine (spanText_append_add ha b piece)

theorem bareReturn?_append_add (a b : Masked) (body : Span) :
    (a.append b).bareReturn? (body.shift a.size) = (b.bareReturn? body).map (a.size + ·) := by
  unfold bareReturn?
  rw [show (body.shift a.size).start = a.size + body.start from rfl,
    show (body.shift a.size).stop = a.size + body.stop from rfl, codeSlice_append_add]
  cases Text.stripSuffix? "return".toList (Text.trimEnd (b.codeSlice body.start body.stop)) with
  | none => rfl
  | some before =>
    simp only
    split
    · rw [Option.map_some, Nat.add_assoc]
    · rfl

theorem callSite_append_add (ha : a.size = a.sourceSize) (b : Masked) (primitives : List String)
    (f : FunctionSpan) (name : Span) :
    (a.append b).callSite primitives (f.shift a.size) (name.shift a.size) =
      (b.callSite primitives f name).map (CallSite.shift a.size) := by
  have hstart (x y : Nat) : a.size + x + y = a.size + (x + y) := Nat.add_assoc a.size x y
  unfold callSite
  simp only [FunctionSpan.body_shift, bind, Except.bind]
  rw [show (name.shift a.size).stop = a.size + name.stop from rfl, parensAfter?_append_add]
  cases b.parensAfter? name.stop with
  | none => rfl
  | some params =>
    simp only [Option.map_some, Span.shift, FunctionSpan.shift, hstart, namedResult_append_add ha,
      byteSlice_append_add]
    cases b.namedResult (params.stop + 1) f.opened with
    | error reason => rfl
    | ok result =>
      simp only
      cases firstCall? (b.byteSlice f.body.start f.body.stop) primitives with
      | none => rfl
      | some call =>
        obtain ⟨offset, primitive⟩ := call
        simp only [statementStart_append_add, codeSlice_append_add, closer?_append_add]
        split
        · cases b.closer? (f.body.start + offset + 1 + primitive.utf8ByteSize) with
          | none => rfl
          | some closed =>
            have hargs := arguments_append_add ha b
              ⟨f.body.start + offset + 1 + primitive.utf8ByteSize + 1, closed⟩
            have hreturn := bareReturn?_append_add a b f.body
            simp only [Span.shift] at hargs hreturn
            simp only [Option.map_some, hargs, hreturn]
            cases b.arguments ⟨f.body.start + offset + 1 + primitive.utf8ByteSize + 1, closed⟩ with
            | nil => rfl
            | cons first rest =>
              simp only
              split
              · split
                · rfl
                · cases b.bareReturn? f.body with
                  | none => rfl
                  | some returnAt =>
                    simp only [Option.map_some, Nat.add_lt_add_iff_left]
                    split <;> rfl
              · rfl
        · rfl

theorem methodAt?_append_add (ha : a.size = a.sourceSize) (b : Masked) (r : Receiver) (c : CallSite) :
    (a.append b).methodAt? (r.shift a.size) (c.shift a.size) = b.methodAt? r c := by
  have hbefore : (a.append b).slice (c.shift a.size).bodyStart (c.shift a.size).statement =
      b.slice c.bodyStart c.statement := slice_append_add ha b c.bodyStart c.statement
  have hafter : (a.append b).slice ((c.shift a.size).args.stop + 1) (c.shift a.size).returnAt =
      b.slice (c.args.stop + 1) c.returnAt := slice_append_add ha b (c.args.stop + 1) c.returnAt
  have hsignature : (a.append b).spanText (c.shift a.size).signature = b.spanText c.signature :=
    spanText_append_add ha b c.signature
  unfold methodAt?
  rw [hbefore, hafter, hsignature]
  rfl

/-- A function behind another text is read as without that text. -/
theorem readFunction?_append_add (ha : a.size = a.sourceSize) (b : Masked) (primitives : List String)
    (f : FunctionSpan) :
    (a.append b).readFunction? primitives (f.shift a.size) = b.readFunction? primitives f := by
  have hwhole : (a.append b).spanText (f.shift a.size).whole = b.spanText f.whole := by
    rw [FunctionSpan.whole_shift, spanText_append_add ha]
  have hname (name? : Option Span) : (name?.map (·.shift a.size)).map
      (fun s => String.ofList ((a.append b).spanText s)) =
        name?.map fun s => String.ofList (b.spanText s) := by
    rw [Option.map_map]
    exact congrArg (fun f => Option.map f name?)
      (funext fun s => congrArg String.ofList (spanText_append_add ha b s))
  unfold readFunction?
  simp only [FunctionSpan.head_shift, receiverAfter?_append_add ha, nameAfter?_append_add, hname,
    hwhole]
  cases b.receiverAfter? f.head with
  | none => rfl
  | some receiver =>
    simp only [Option.map_some, Receiver.shift, nameAfter?_append_add]
    cases b.nameAfter? receiver.stop with
    | none => rfl
    | some name =>
      simp only [Option.map_some, callSite_append_add ha]
      cases b.callSite primitives f name with
      | error reason => simp only [Except.map, spanText_append_add ha]
      | ok c =>
        simp only [Except.map]
        exact congrArg (Option.map Outcome.found) (methodAt?_append_add ha b receiver c)

/-! ## Where functions stand -/

/-- A text without a line feed that ends another text behind whole lines ends it without them. -/
theorem isSuffixOf_append_of_newline {word x z : List Char} (hword : '\n' ∉ word)
    (hx : ∀ c ∈ x.getLast?, c = '\n') :
    word.isSuffixOf (x ++ z) = word.isSuffixOf z := by
  refine Bool.eq_iff_iff.2 ⟨fun h => ?_, fun h => ?_⟩
  · rw [List.isSuffixOf_iff_suffix] at h ⊢
    rcases List.suffix_or_suffix_of_suffix h (List.suffix_append x z) with hz | ⟨w, rfl⟩
    · exact hz
    · rcases List.eq_nil_or_concat w with rfl | ⟨w', c, rfl⟩
      · exact List.suffix_rfl
      · rw [List.concat_eq_append] at h hword
        obtain ⟨y, hy⟩ := h
        have hxy : y ++ (w' ++ [c]) = x := by
          rw [← List.append_assoc] at hy
          exact List.append_cancel_right hy
        obtain rfl := hx c (by rw [← hxy, ← List.append_assoc, List.getLast?_concat]; rfl)
        exact absurd (by simp) hword
  · rw [List.isSuffixOf_iff_suffix] at h ⊢
    exact h.trans (List.suffix_append x z)

theorem opensType_append_add (ha : a.Lined) (b : Masked) {i : Nat}
    (h : Text.allBlank (b.codeSlice 0 i) = false) :
    (a.append b).opensType (a.size + i) = b.opensType i := by
  have hslice : (a.append b).codeSlice 0 (a.size + i) = a.code ++ b.codeSlice 0 i := by
    unfold codeSlice Text.cut
    rw [code_append, ← byteLength_code, Nat.sub_zero, Nat.sub_zero, Text.dropBytes_zero,
      Text.dropBytes_zero, Text.takeBytes_append_add]
  unfold opensType
  simp only [hslice, Text.trimEnd_append_of_not_allBlank h,
    isSuffixOf_append_of_newline (show '\n' ∉ "interface".toList by decide) ha.code_last,
    isSuffixOf_append_of_newline (show '\n' ∉ "struct".toList by decide) ha.code_last]

theorem allBlank_codeSlice {m : Masked} {k i : Nat} {c : Char} (h : m.hasChar k c = true)
    (hnarrow : c.utf8Size = 1) (hblank : Text.isBlank c = false) (hk : k < i) :
    Text.allBlank (m.codeSlice 0 i) = false := by
  have hbyte : (Text.bytes m.code)[k]? = some c.toUInt8 := by
    rw [← m.bytes_eq]
    exact hasChar_iff.1 h
  obtain ⟨p, d, q, hcode, rfl, hd, hdc⟩ := Text.exists_split_of_ascii hbyte
    (Text.toUInt8_lt_of_narrow hnarrow)
  obtain rfl := Text.eq_of_toUInt8_eq hd hnarrow hdc
  obtain ⟨n, rfl⟩ : ∃ n, i = Text.byteLength p + (n + 1) := ⟨i - Text.byteLength p - 1, by omega⟩
  refine Bool.eq_false_iff.2 fun hall => ?_
  unfold codeSlice Text.cut at hall
  rw [Text.dropBytes_zero, Nat.sub_zero, hcode, Text.takeBytes_append_add, Text.takeBytes] at hall
  have := List.all_eq_true.1 hall d (by simp)
  rw [hblank] at this
  exact Bool.false_ne_true this

/-- Behind a keyword the search for a body does not look at what stands before the keyword. -/
theorem bodyOpener?_append_add (ha : a.Lined) (b : Masked) {k start : Nat} {c : Char}
    (h : b.hasChar k c = true) (hnarrow : c.utf8Size = 1) (hblank : Text.isBlank c = false)
    (hk : k < start) :
    (a.append b).bodyOpener? (a.size + start) = (b.bodyOpener? start).map (a.size + ·) := by
  have htype {opened : Nat} (hle : start ≤ opened) :
      (a.append b).opensType (a.size + opened) = b.opensType opened :=
    opensType_append_add ha b (allBlank_codeSlice h hnarrow hblank (by omega))
  have hfind : (a.append b).findTopLevel? (a.size + start) (a.append b).size '\x7b' =
      (b.findTopLevel? start b.size '\x7b').map (a.size + ·) := by
    rw [size_append, findTopLevel?_append_add]
  induction start using bodyOpener?.induct b with
  | case1 start hnone =>
    rw [bodyOpener?_eq, bodyOpener?_eq, hfind, hnone]
    rfl
  | case2 start opened hopened hopens hnone =>
    rw [bodyOpener?_eq, bodyOpener?_eq, hfind, hopened, Option.map_some, Option.bind_some,
      Option.bind_some, htype (le_of_findTopLevel? hopened), if_pos hopens, if_pos hopens,
      closer?_append_add, hnone]
    rfl
  | case3 start opened hopened hopens closed hclosed _ _ ih =>
    have hle := le_of_findTopLevel? hopened
    have hlt := (lt_of_closer? hclosed).1
    rw [bodyOpener?_eq, bodyOpener?_eq b, hfind, hopened, Option.map_some, Option.bind_some,
      Option.bind_some, htype hle, if_pos hopens, if_pos hopens, closer?_append_add, hclosed,
      Option.map_some, Option.bind_some, Option.bind_some, Nat.add_assoc]
    refine ih (by omega) (fun hle' => htype (by omega)) ?_
    rw [size_append, findTopLevel?_append_add]
  | case4 start opened hopened hopens =>
    rw [bodyOpener?_eq, bodyOpener?_eq, hfind, hopened, Option.map_some, Option.bind_some,
      Option.bind_some, htype (le_of_findTopLevel? hopened), if_neg hopens, if_neg hopens]
    rfl

theorem functionsFrom_append_add (ha : a.Lined) (b : Masked) {places : List Nat}
    (hword : ∀ i ∈ places, b.wordAt "func".toList i = true) (start : Nat) :
    (a.append b).functionsFrom (places.map (a.size + ·)) start =
      (b.functionsFrom places (start - a.size)).map (FunctionSpan.shift a.size) := by
  induction places generalizing start with
  | nil => rfl
  | cons i places ih =>
    have hfirst : b.hasChar i 'f' = true :=
      hasChar_of_wordAt (k := 0) (hword i List.mem_cons_self) rfl
    have hword := fun j hj => hword j (List.mem_cons_of_mem i hj)
    have hopener : (a.append b).bodyOpener? (a.size + i + "func".length) =
        (b.bodyOpener? (i + "func".length)).map (a.size + ·) := by
      rw [Nat.add_assoc]
      exact bodyOpener?_append_add ha b hfirst (by decide) (by decide)
        (show i < i + 4 by omega)
    rw [List.map_cons, functionsFrom, functionsFrom]
    by_cases hi : i < start - a.size
    · rw [if_pos hi, if_pos (by omega), ih hword]
    · rw [if_neg hi, if_neg (by omega)]
      simp only [ha.beginsLine_append_add, hopener]
      split
      · cases b.bodyOpener? (i + "func".length) with
        | none => rfl
        | some opened =>
          simp only [Option.map_some, closer?_append_add]
          cases b.closer? opened with
          | none => rfl
          | some closed =>
            simp only [Option.map_some, ih hword]
            rw [Nat.add_assoc, Nat.add_sub_cancel_left]
            rfl
      · rw [ih hword, Nat.add_assoc, Nat.add_sub_cancel_left]

end Masked

end RpcBindings
