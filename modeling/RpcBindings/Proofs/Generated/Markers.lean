import RpcBindings.Proofs.Client.Entries
import RpcBindings.Proofs.Generated.CallerType
import RpcBindings.Proofs.Generated.Tally
import RpcBindings.Proofs.Go.Stub
import RpcBindings.Proofs.Masked.Decoration
import RpcBindings.Proofs.Schema.SourceName

/-!
Whether the comment in place of a declaration is one line.

A marker is made of a reason and of the name of what was left out, or of an excerpt. No reason has a
line feed in it, no excerpt has, and the names are identifiers. Only a method of another type than
the wanted one is called by the text of its signature up to the parameters, which may have comments
in it. Main statement: in stubs all markers are one line, and in a batch caller those of all
functions are but for such methods (`markers_on_one_line_iff`).
-/

namespace RpcBindings

open Masked

/-! ## Messages -/

namespace SkipReason

/-- The message of a reason has no line feed in it. -/
def IsOneLine (r : SkipReason) : Prop :=
  '\n' ∉ r.message.toList

instance (r : SkipReason) : Decidable r.IsOneLine :=
  inferInstanceAs (Decidable ('\n' ∉ r.message.toList))

theorem newline_not_mem_intercalate {sep : String} (hsep : '\n' ∉ sep.toList) :
    ∀ {ts : List String}, (∀ t ∈ ts, '\n' ∉ t.toList) → '\n' ∉ (sep.intercalate ts).toList
  | [], _ => by
    rw [String.intercalate_nil]
    exact List.not_mem_nil
  | [t], h => by
    rw [String.intercalate_singleton]
    exact h t List.mem_cons_self
  | t :: u :: ts, h => by
    have hlater := newline_not_mem_intercalate hsep fun v hv => h v (List.mem_cons_of_mem t hv)
    rw [String.intercalate_cons_cons, String.toList_append, String.toList_append, List.mem_append,
      List.mem_append]
    exact not_or.2 ⟨not_or.2 ⟨h t List.mem_cons_self, hsep⟩, hlater⟩

theorem isOneLine_notASignature {detail : String} (h : '\n' ∉ detail.toList) :
    (notASignature detail).IsOneLine := by
  unfold IsOneLine message
  rw [String.toList_append, List.mem_append]
  exact not_or.2 ⟨by decide +kernel, h⟩

theorem isOneLine_noInvocation {primitives : List String}
    (h : ∀ p ∈ primitives, '\n' ∉ p.toList) : (noInvocation primitives).IsOneLine := by
  unfold IsOneLine message
  rw [String.toList_append, List.mem_append]
  exact not_or.2 ⟨by decide, newline_not_mem_intercalate (by decide) h⟩

theorem isOneLine_otherFirstArgument {name : String} (h : '\n' ∉ name.toList) :
    (otherFirstArgument ("&" ++ name)).IsOneLine := by
  unfold IsOneLine message
  rw [String.toList_append, String.toList_append, List.mem_append, List.mem_append]
  exact not_or.2 ⟨by decide, not_or.2 ⟨by decide, h⟩⟩

theorem isOneLine_otherReceiver {found wanted : String} (hfound : '\n' ∉ found.toList)
    (hwanted : '\n' ∉ wanted.toList) : (otherReceiver found wanted).IsOneLine := by
  unfold IsOneLine message
  simp only [String.toList_append, List.mem_append, not_or]
  exact ⟨⟨⟨by decide, hfound⟩, by decide⟩, hwanted⟩

end SkipReason

namespace Diagnostic

variable {d : Diagnostic}

theorem newline_not_mem_excerpt {line : List Char} (h : '\n' ∉ line) : '\n' ∉ excerpt line := by
  unfold excerpt
  split
  · rw [List.mem_append]
    exact not_or.2 ⟨fun hmem => h (List.mem_of_mem_take hmem), by decide⟩
  · exact h

/-- The first line of code is one line. -/
theorem newline_not_mem_firstCodeLine (cs : List Char) : '\n' ∉ firstCodeLine cs := by
  unfold firstCodeLine
  cases hfind : ((Text.lines cs).map Text.trim).find? fun l => !l.isEmpty && !Text.isComment l with
  | none => exact List.not_mem_nil
  | some l =>
    obtain ⟨line, hline, rfl⟩ := List.mem_map.1 (List.mem_of_find?_eq_some hfind)
    exact fun hmem => Text.not_mem_lines hline (Text.mem_of_mem_trim hmem)

/-- A marker has a line feed in it iff the name has of what was left out. -/
theorem newline_mem_marker_iff (hreason : d.reason.IsOneLine) :
    '\n' ∈ d.marker.toList ↔ ∃ name, d.subject = some name ∧ '\n' ∈ name.toList := by
  have hlabel : '\n' ∉ d.kind.label.toList := by
    cases d.kind <;> decide
  have hmarker : '\n' ∈ d.marker.toList ↔ '\n' ∈ d.title.toList := by
    have hmessage : '\n' ∉ d.reason.message.toList := hreason
    unfold marker summary
    simp only [String.toList_append, List.mem_append, hlabel, hmessage, or_false]
    have hignored : '\n' ∉ "// ignored ".toList := by decide
    have hopen : '\n' ∉ " \x60".toList := by decide
    have hclose : '\n' ∉ "\x60: ".toList := by decide
    simp only [hignored, hopen, hclose, false_or, or_false]
  rw [hmarker]
  unfold title
  cases d.subject with
  | none =>
    rw [Option.getD_none, String.toList_ofList]
    exact iff_of_false (newline_not_mem_excerpt (newline_not_mem_firstCodeLine _)) nofun
  | some name => exact ⟨fun h => ⟨name, rfl, h⟩, fun ⟨_, hname, h⟩ => Option.some.inj hname ▸ h⟩

theorem isPrefix_marker (d : Diagnostic) : "// ignored ".toList <+: d.marker.toList := by
  unfold marker
  rw [String.toList_append]
  exact List.prefix_append _ _

end Diagnostic

/-! ## Sequences of tests -/

/-- When a sequence of tests fails, it is for a reason of a kind. -/
def FailsFor {ε α : Type} (p : ε → Prop) (x : Except ε α) : Prop :=
  ∀ e, x = .error e → p e

namespace FailsFor

variable {ε α β : Type} {p : ε → Prop}

theorem ok (a : α) : FailsFor p (.ok a) := nofun

theorem throw {e : ε} (h : p e) : FailsFor p (throw e : Except ε α) := fun _ he =>
  Except.error.inj he ▸ h

theorem bind {x : Except ε α} {f : α → Except ε β} (hx : FailsFor p x)
    (hf : ∀ a, x = .ok a → FailsFor p (f a)) : FailsFor p (x >>= f) := by
  cases x with
  | error e => exact fun e' he => hx e' (Except.error.inj he ▸ rfl)
  | ok a => exact hf a rfl

/-- A test is passed, or the sequence ends with it. -/
theorem guard {q : Prop} [Decidable q] {e : ε} {k : PUnit → Except ε α} (h : p e)
    (hk : FailsFor p (k ⟨⟩)) : FailsFor p (if q then k ⟨⟩ else MonadExcept.throw e >>= k) := by
  split
  · exact hk
  · exact (throw h).bind fun _ _ => hk

theorem guard_not {q : Prop} [Decidable q] {e : ε} {k : PUnit → Except ε α} (h : p e)
    (hk : FailsFor p (k ⟨⟩)) : FailsFor p (if q then MonadExcept.throw e >>= k else k ⟨⟩) := by
  split
  · exact (throw h).bind fun _ _ => hk
  · exact hk

theorem mapM {f : α → Except ε β} {as : List α} (h : ∀ a ∈ as, FailsFor p (f a)) :
    FailsFor p (as.mapM f) := by
  induction as with
  | nil => exact ok []
  | cons a as ih =>
    rw [List.mapM_cons]
    refine (h a List.mem_cons_self).bind fun b _ => ?_
    exact (ih fun a' ha' => h a' (List.mem_cons_of_mem a ha')).bind fun bs _ => ok (b :: bs)

end FailsFor

/-! ## Members of interfaces -/

namespace RpcMethod

variable {options : InterfaceOptions} {nspace : String}

theorem failsFor_paramsOf (params : List Rust.FnParam) :
    FailsFor SkipReason.IsOneLine (paramsOf params) := by
  have hparam (q : Rust.FnParam) : FailsFor SkipReason.IsOneLine (paramOf q) := by
    unfold paramOf
    split
    · exact .throw (by decide)
    · exact .ok _
    · exact .throw (by decide)
  unfold paramsOf
  split
  · exact .mapM fun q _ => hparam q
  · exact .throw (by decide)

theorem failsFor_ofMethod (docComment? : Option String) (m : Rust.TraitMethod) :
    FailsFor SkipReason.IsOneLine (ofMethod options nspace docComment? m) := by
  unfold ofMethod
  refine .guard_not (by decide) ?_
  dsimp only
  split
  case h_2 => exact .throw (by decide)
  refine (failsFor_paramsOf _).bind fun params _ => ?_
  split
  case h_2 => exact .throw (by decide)
  exact .ok _

theorem isOneLine_of_ofText [Rust.ParserMessages]
    (hmessages : ∀ text, '\n' ∉ (Rust.ParserMessages.ofMember text).toList) {text : List Char}
    {d : Diagnostic} (h : ofText options nspace text = .skipped d) : d.reason.IsOneLine := by
  unfold ofText at h
  extract_lets fragment at h
  split at h
  · obtain rfl := Outcome.skipped.inj h
    exact SkipReason.isOneLine_notASignature (hmessages fragment)
  · obtain rfl := Outcome.skipped.inj h
    exact show SkipReason.notAMethod.IsOneLine by decide +kernel
  · split at h
    · exact absurd h nofun
    · rename_i reason hreason
      obtain rfl := Outcome.skipped.inj h
      exact failsFor_ofMethod _ _ reason hreason

end RpcMethod

/-- The marker of a member that is left out of an interface is one line. -/
theorem RpcInterface.newline_not_mem_marker [Rust.ParserMessages]
    (hmessages : ∀ text, '\n' ∉ (Rust.ParserMessages.ofMember text).toList)
    {options : InterfaceOptions} {source : String} {i : RpcInterface}
    (hi : i ∈ readAll options source) {d : Diagnostic} (hd : .skipped d ∈ i.members) :
    '\n' ∉ d.marker.toList := by
  obtain ⟨text, -, hread⟩ := exists_text_of_mem hi hd
  rw [Diagnostic.newline_mem_marker_iff (RpcMethod.isOneLine_of_ofText hmessages hread)]
  rintro ⟨name, hname, hmem⟩
  exact (isSpelled_subject hi hd hname).isIdentifier.newline_not_mem hmem

/-! ## Functions of client files -/

namespace Masked

variable {m : Masked} {primitives : List String} {f : FunctionSpan}

theorem newline_not_mem_of_not_isBlank {cs : List Char} (h : ∀ c ∈ cs, Text.isBlank c = false) :
    '\n' ∉ cs := fun hmem => absurd (h '\n' hmem) (by decide)

theorem failsFor_namedResult (start stop : Nat) :
    FailsFor SkipReason.IsOneLine (m.namedResult start stop) := by
  unfold namedResult
  split
  case h_2 => exact .throw (by decide)
  refine .guard (by decide) ?_
  split
  case h_2 => exact .throw (by decide)
  refine .guard (by decide) ?_
  split
  case h_2 => exact .throw (by decide)
  split
  case h_2 => exact .throw (by decide)
  exact .guard (by decide +kernel) (.ok _)

theorem newline_not_mem_resultName {start stop : Nat} {name : String} {type : GoType}
    (h : m.namedResult start stop = .ok (name, type)) : '\n' ∉ name.toList := by
  obtain ⟨_, _, _, _, hresults⟩ := namedResult_eq_ok h
  obtain ⟨_, _, -, -, hname, -⟩ := hresults.value_text
  exact newline_not_mem_of_not_isBlank hname

/-- The reasons why a method has no call site quote no more of it than the name of its result. -/
theorem failsFor_callSite (hprimitives : ∀ p ∈ primitives, '\n' ∉ p.toList) (name : Span) :
    FailsFor SkipReason.IsOneLine (m.callSite primitives f name) := by
  unfold callSite
  split
  case h_2 => exact .throw (by decide)
  refine (failsFor_namedResult _ _).bind fun result hresult => ?_
  obtain ⟨resultName, returnType⟩ := result
  have htarget := SkipReason.isOneLine_otherFirstArgument (newline_not_mem_resultName hresult)
  dsimp only
  split
  case h_2 => exact .throw (SkipReason.isOneLine_noInvocation hprimitives)
  refine .guard (by decide) ?_
  split
  case h_2 => exact .throw (by decide)
  split
  case h_2 => exact .throw htarget
  refine .guard htarget ?_
  refine .guard_not (by decide) ?_
  split
  case h_2 => exact .throw (by decide)
  exact .guard (by decide) (.ok _)

/-- The text between two offsets holds a line feed only where one shows. -/
theorem exists_hasChar_of_mem_slice {lang : SourceLang} {source : List Char} {i j : Nat}
    (hi : (ofSource lang source).CutsAt i) (h : '\n' ∈ (ofSource lang source).slice i j) :
    ∃ k, i ≤ k ∧ k < j ∧ (ofSource lang source).hasChar k '\n' = true := by
  obtain ⟨⟨a, b, hsource, rfl⟩, -⟩ := hi
  have hcut : '\n' ∈ Text.cut (Text.byteLength a) j source := h
  rw [show source = a ++ b from hsource] at hcut
  obtain ⟨x, y, rfl, hlt⟩ := Text.exists_of_mem_cut hcut
  refine ⟨_, ?_, hlt, hasChar_newline (b := y) ?_⟩
  · rw [Text.byteLength_append]
    exact Nat.le_add_right _ _
  · rw [List.append_assoc]
    exact hsource

/-- A name has no line feed in it. -/
theorem newline_not_mem_name {lang : SourceLang} {source : List Char} {i : Nat} {s : Span}
    (h : (ofSource lang source).nameAfter? i = some s) :
    '\n' ∉ (ofSource lang source).spanText s := by
  obtain ⟨-, hident⟩ := nameAfter?_eq_some h
  obtain ⟨-, -, ⟨b, hb, hstart⟩, -⟩ := identAt?_eq_some hident
  obtain ⟨hlt, hspace⟩ := lt_of_isWordByte (isWordByte_of_isWordStart hstart)
  intro hmem
  obtain ⟨k, hik, hkj, hnewline⟩ :=
    exists_hasChar_of_mem_slice (cutsAt_of_byte hb hlt hspace).1 hmem
  have := stop_le_of_identAt? hident hik (hasChar_iff.1 hnewline) (by decide)
  omega

theorem newline_not_mem_of_mem_words {cs w : List Char} (h : w ∈ Text.words cs) : '\n' ∉ w := by
  refine newline_not_mem_of_not_isBlank fun c hc => ?_
  have hink : c ∈ Text.ink cs := by
    rw [← Text.flatten_words]
    exact List.mem_flatten.2 ⟨w, h, hc⟩
  simpa using (List.mem_filter.1 hink).2

theorem newline_not_mem_receiverType {i : Nat} {r : Receiver} (h : m.receiverAfter? i = some r) :
    '\n' ∉ r.type.toList := by
  obtain ⟨s, type, -, hwords, htype, -⟩ := receiverAfter?_eq_some h
  have htypeWord : type ∈ Text.words (m.slice (s.start + 1) s.stop) :=
    hwords ▸ List.mem_cons_of_mem _ List.mem_cons_self
  rw [htype]
  exact fun hmem => newline_not_mem_of_mem_words htypeWord ((List.dropWhile_suffix _).subset hmem)

/-- What is left out when a function is read has a reason and a name on one line. -/
theorem readFunction?_eq_skipped {source : List Char} {d : Diagnostic}
    (hprimitives : ∀ p ∈ primitives, '\n' ∉ p.toList)
    (h : (ofSource .go source).readFunction? primitives f = some (.skipped d)) :
    d.reason.IsOneLine ∧ ∀ name, d.subject = some name → '\n' ∉ name.toList := by
  unfold readFunction? at h
  extract_lets skip at h
  have hskip {reason : SkipReason} (name? : Option Span)
      (hname : ∀ s, name? = some s → ∃ i, (ofSource .go source).nameAfter? i = some s)
      (hreason : reason.IsOneLine) (hd : some (skip reason name?) = some (.skipped d)) :
      d.reason.IsOneLine ∧ ∀ name, d.subject = some name → '\n' ∉ name.toList := by
    obtain rfl := Outcome.skipped.inj (Option.some.inj hd)
    refine ⟨hreason, fun name hsubject => ?_⟩
    obtain ⟨s, hs, rfl⟩ := Option.map_eq_some_iff.1 hsubject
    obtain ⟨i, hi⟩ := hname s hs
    rw [String.toList_ofList]
    exact newline_not_mem_name hi
  split at h
  · exact hskip _ (fun s hs => ⟨_, hs⟩) (by decide) h
  · split at h
    · exact hskip none nofun (by decide) h
    · rename_i name hname
      split at h
      · rename_i reason hreason
        exact hskip (some name) (fun s hs => ⟨_, Option.some.inj hs ▸ hname⟩)
          (failsFor_callSite hprimitives name reason hreason) h
      · obtain ⟨_, -, hfound⟩ := Option.map_eq_some_iff.1 h
        exact absurd hfound nofun

/-- A function is a method of another type than the wanted one, and the text from its name to its
parameters has a line feed in it. -/
def BreaksMarker (m : Masked) (primitives : List String) (wanted : Option String)
    (f : FunctionSpan) : Prop :=
  ∃ s, m.readFunction? primitives f = some (.found s) ∧
    (∃ w, wanted = some w ∧ w ≠ s.receiverType) ∧ '\n' ∈ s.title.toList

theorem newline_mem_marker_iff {source : List Char} {wanted : Option String} {d : Diagnostic}
    (hprimitives : ∀ p ∈ primitives, '\n' ∉ p.toList)
    (hwanted : ∀ w, wanted = some w → '\n' ∉ w.toList)
    (h : (ofSource .go source).outcomeOf? primitives wanted f = some (.skipped d)) :
    '\n' ∈ d.marker.toList ↔ (ofSource .go source).BreaksMarker primitives wanted f := by
  obtain ⟨o, ho, hd⟩ := Option.map_eq_some_iff.1 h
  cases o with
  | skipped d' =>
    obtain rfl := Outcome.skipped.inj hd
    obtain ⟨hreason, hname⟩ := readFunction?_eq_skipped hprimitives ho
    rw [Diagnostic.newline_mem_marker_iff hreason]
    refine iff_of_false (fun ⟨name, hsubject, hmem⟩ => hname name hsubject hmem) ?_
    rintro ⟨s, hs, -⟩
    exact absurd (ho.symm.trans hs) nofun
  | found s =>
    cases wanted with
    | none => exact absurd hd nofun
    | some w =>
      unfold Outcome.ofType at hd
      dsimp only at hd
      split at hd
      · exact absurd hd nofun
      · rename_i hne
        obtain rfl := Outcome.skipped.inj hd
        obtain ⟨receiver, _, _, hreceiver, -, -, hmethod⟩ := readFunction?_eq_found ho
        have htype : s.receiverType = receiver.type := (methodAt?_eq_some hmethod).2.2.2.1
        have hfound : '\n' ∉ s.receiverType.toList := by
          rw [htype]
          exact newline_not_mem_receiverType hreceiver
        have hwanted := hwanted w rfl
        have hreason := SkipReason.isOneLine_otherReceiver hfound hwanted
        have hiff := Diagnostic.newline_mem_marker_iff (d := ⟨.clientFunction, some s.title, _,
          .ofList ((ofSource .go source).spanText f.whole)⟩) hreason
        refine hiff.trans ⟨?_, ?_⟩
        · rintro ⟨name, hname, hmem⟩
          obtain rfl := Option.some.inj hname
          exact ⟨s, ho, ⟨w, rfl, hne⟩, hmem⟩
        · rintro ⟨s', hs', -, hmem⟩
          obtain rfl := Outcome.found.inj (Option.some.inj (ho.symm.trans hs'))
          exact ⟨_, rfl, hmem⟩

end Masked

/-! ## Files -/

/-- A member that is left out of stubs has its marker among their declarations. -/
theorem FileBody.exists_of_mem_stubs_diagnostics [Rust.ParserMessages] {s : Settings}
    {nspace? : Option String} {schema : String} {d : Diagnostic}
    (h : d ∈ (stubs s nspace? schema).diagnostics) :
    d.marker ∈ (stubs s nspace? schema).declarations ∧
      ∃ i ∈ RpcInterface.readAll ⟨nspace?, s.client.resultWrappers⟩ schema,
        .skipped d ∈ i.members := by
  unfold stubs ofOutcomes at h
  obtain ⟨o, ho, hd⟩ := List.mem_filterMap.1 h
  obtain ⟨i, hi, ho⟩ := List.mem_flatMap.1 ho
  cases o with
  | found m => exact absurd hd nofun
  | skipped d' =>
    obtain rfl := Option.some.inj hd
    refine ⟨List.mem_flatMap.2 ⟨i, hi, List.mem_cons_of_mem _ ?_⟩, i, hi, ho⟩
    exact List.mem_map.2 ⟨_, ho, rfl⟩

namespace GeneratedFile

/-- A function that is left out of a batch caller has its marker there, below comments. -/
theorem MethodsInStep.exists_marker {render : SyncMethod → String} {carried texts : List String}
    {fs : List ClientFunction} {diagnostics : List Diagnostic} {n : Nat}
    (h : MethodsInStep render carried fs texts diagnostics n) {g : ClientFunction} (hg : g ∈ fs)
    {d : Diagnostic} (hd : g.outcome = .skipped d) :
    ∃ comments, withComments comments d.marker ∈ texts := by
  induction h with
  | nil => exact absurd hg List.not_mem_nil
  | comments _ => exact absurd hg List.not_mem_nil
  | found _ ih =>
    rcases List.mem_cons.1 hg with rfl | hg
    · exact absurd hd nofun
    · obtain ⟨comments, hmem⟩ := ih hg
      exact ⟨comments, List.mem_cons_of_mem _ hmem⟩
  | @skipped carried _ _ _ _ _ _ _ ih =>
    rcases List.mem_cons.1 hg with rfl | hg
    · obtain rfl := Outcome.skipped.inj hd
      exact ⟨carried, List.mem_cons_self⟩
    · obtain ⟨comments, hmem⟩ := ih hg
      exact ⟨comments, List.mem_cons_of_mem _ hmem⟩

end GeneratedFile

theorem newline_not_mem_of_isIdentifier {name : String} (h : Go.isIdentifier name = true) :
    '\n' ∉ name.toList :=
  newline_not_mem_of_not_isBlank (Go.isName_toList h).not_isBlank

/-- The type that a client file is read for has no line feed in it, unless it is asked for. -/
theorem ClientFile.newline_not_mem_clientType {options : ClientOptions} {source type : String}
    {file : ClientFile} (h : ClientFile.read? options source = some file)
    (hasked : ∀ t, options.clientType? = some t → '\n' ∉ t.toList)
    (htype : file.clientType? = some type) : '\n' ∉ type.toList := by
  rw [(ClientFile.isReadFrom h).clientType?] at htype
  rcases wants_iff.2 htype with h | ⟨-, _, _, _, _, -, -, hreceiver, rfl⟩
  · exact hasked type h
  · exact newline_not_mem_receiverType hreceiver

open GeneratedFile in
/-- Under settings without a fault every marker stands among the declarations and begins as a
comment. In stubs it is one line, whatever the Rust parser says on one line of what it cannot read. In
a batch caller it is one line, unless it stands for a method of another type than the wanted one and
the text between the method's name and its parameters has a line feed in it. -/
theorem markers_on_one_line_iff [Rust.ParserMessages]
    (hmessages : ∀ text, '\n' ∉ (Rust.ParserMessages.ofMember text).toList) {s : Settings}
    (hs : s.fault? = none) :
    (∀ nspace? schema file, (Mode.stubs nspace?).run s schema = .ok file →
      ∀ d ∈ file.diagnostics, d.marker ∈ file.declarations ∧
        "// ignored ".toList <+: d.marker.toList ∧ '\n' ∉ d.marker.toList) ∧
    ∀ clientType? source file, (∀ t, clientType? = some t → '\n' ∉ t.toList) →
      (Mode.batchCaller clientType?).run s source = .ok file →
      ∃ client, ClientFile.read? ⟨s.bulk.primitives, clientType?⟩ source = some client ∧
        file.diagnostics = client.functions.filterMap (·.outcome.skipped?) ∧
        List.Forall₂ (fun f g => ∀ d, g.outcome = .skipped d →
            (∃ comments, withComments comments d.marker ∈ file.declarations) ∧
            "// ignored ".toList <+: d.marker.toList ∧
            ('\n' ∈ d.marker.toList ↔ (ofSource .go source.toList).BreaksMarker s.bulk.primitives
              client.clientType? f))
          (ofSource .go source.toList).functions client.functions := by
  refine ⟨fun nspace? schema file hrun d hd => ?_, fun clientType? source file hasked hrun => ?_⟩
  · rw [Mode.run_of_fault? hs] at hrun
    obtain ⟨header, -, rfl⟩ := FileBody.exists_header_of_file hrun
    obtain ⟨hdeclared, i, hi, hmember⟩ := FileBody.exists_of_mem_stubs_diagnostics hd
    exact ⟨hdeclared, d.isPrefix_marker, RpcInterface.newline_not_mem_marker hmessages hi hmember⟩
  · rw [Mode.run_of_fault? hs] at hrun
    obtain ⟨client, type, header, hclient, htype, -, rfl⟩ := caller_of_run hrun
    have hstep := methodsInStep_functions s.bulk client.leadingComments client.functions
    refine ⟨client, hclient, List.filterMap_map, ?_⟩
    have hprimitives : ∀ p ∈ s.bulk.primitives, '\n' ∉ p.toList := fun p hp =>
      newline_not_mem_of_isIdentifier ((Settings.names_of_fault? hs).primitives p hp)
    have hwanted : ∀ t, client.clientType? = some t → '\n' ∉ t.toList := fun t ht =>
      ClientFile.newline_not_mem_clientType hclient hasked ht
    have hread := (ClientFile.forall₂_functions hclient).flip
    have hmem := (List.forall₂_and_left _ _).2 ⟨fun g (hg : g ∈ client.functions) => hg, hread⟩
    refine hmem.flip.imp fun f g ⟨hg, houtcome⟩ d hd => ?_
    have houtcome : _ = some g.outcome := houtcome
    rw [hd] at houtcome
    obtain ⟨comments, hmarker⟩ := hstep.exists_marker hg hd
    exact ⟨⟨comments, List.mem_cons_of_mem _ (List.mem_append_left _ hmarker)⟩,
      d.isPrefix_marker, newline_mem_marker_iff hprimitives hwanted houtcome⟩

/-- A parser that misses a name wherever it cannot read on. -/
@[reducible] def namelessMessages : Rust.ParserMessages :=
  ⟨fun _ => "expected identifier", fun _ => "expected identifier"⟩

/-- An interface with a member that cannot be read. -/
def unreadableSchema : String :=
  "trait T \x7b\nfn 1;\n\x7d\n"

/-- A method of a type `D`. -/
def foreignClient : String :=
  "func (d *D) B() (v T, err error) \x7b\n\terr = d.CallRPC(&v, \"b\")\n\treturn\n\x7d\n"

/-- The marker of a member that cannot be read is one line, and so is that of a method of `D` where
methods of `C` are wanted. -/
theorem markers_on_one_line_foreign :
    (∀ text, '\n' ∉ (namelessMessages.ofMember text).toList) ∧ ({} : Settings).fault? = none ∧
    (∃ file d, @Mode.run namelessMessages (.stubs none) {} unreadableSchema = .ok file ∧
      d ∈ file.diagnostics ∧ d.reason = .notASignature "expected identifier" ∧
      '\n' ∉ d.marker.toList) ∧
    '\n' ∉ "C".toList ∧
    ∃ file d, @Mode.run namelessMessages (.batchCaller (some "C")) {} foreignClient = .ok file ∧
      d ∈ file.diagnostics ∧ d.reason = .otherReceiver "D" "C" ∧ '\n' ∉ d.marker.toList := by
  have hfault : ({} : Settings).fault? = none := by decide +kernel
  have hmessages : ∀ text, '\n' ∉ (namelessMessages.ofMember text).toList :=
    fun _ => show '\n' ∉ "expected identifier".toList by decide
  obtain ⟨hstubs, hcaller⟩ := @markers_on_one_line_iff namelessMessages hmessages {} hfault
  refine ⟨hmessages, hfault, ?_, by decide, ?_⟩
  · have hreasons : (@FileBody.stubs namelessMessages {} none unreadableSchema).diagnostics.map
        (·.reason) = [.notASignature "expected identifier"] := by decide +kernel
    obtain ⟨file, hrun, hbody⟩ := @Mode.exists_run_stubs namelessMessages {} hfault
      (by decide +kernel) none unreadableSchema
    rw [← hbody] at hreasons
    obtain ⟨d, _, hd, hreason, -⟩ := List.map_eq_cons_iff.1 hreasons
    have hmem : d ∈ file.diagnostics := hd ▸ List.mem_cons_self
    exact ⟨file, d, hrun, hmem, hreason, (hstubs none unreadableSchema file hrun d hmem).2.2⟩
  · have hparts : (GeneratedFile.callerParts? {} (some "C") foreignClient).map (fun parts =>
        (parts.1.diagnostics.map (·.reason),
          parts.2.all fun spec => (Go.Import.ofSpec spec).name != "")) =
        some ([.otherReceiver "D" "C"], true) := by decide +kernel
    obtain ⟨file, hmade, hreasons⟩ := GeneratedFile.exists_batchCaller
      (f := fun body => body.diagnostics.map (·.reason)) hparts
    have hrun : @Mode.run namelessMessages (.batchCaller (some "C")) {} foreignClient = .ok file :=
      (@Mode.run_of_fault? namelessMessages {} hfault _ _).trans hmade
    obtain ⟨client, hread, hdiagnostics, hfunctions⟩ := hcaller (some "C") foreignClient file
      (fun t ht => Option.some.inj ht ▸ by decide) hrun
    obtain ⟨d, hd, hreason⟩ : ∃ d, file.diagnostics = [d] ∧ d.reason = .otherReceiver "D" "C" := by
      obtain ⟨d, _, hd, hreason, hrest⟩ := List.map_eq_cons_iff.1 hreasons
      rw [List.map_eq_nil_iff.1 hrest] at hd
      exact ⟨d, hd, hreason⟩
    have hmem : d ∈ file.diagnostics := hd ▸ List.mem_singleton_self d
    refine ⟨file, d, hrun, hmem, hreason, fun hnewline => ?_⟩
    rw [hdiagnostics] at hmem
    obtain ⟨g, hg, hskip⟩ := List.mem_filterMap.1 hmem
    have hskip : g.outcome = .skipped d := by
      cases houtcome : g.outcome with
      | found s => rw [houtcome] at hskip; exact absurd hskip nofun
      | skipped d' => rw [houtcome] at hskip; exact congrArg _ (Option.some.inj hskip)
    obtain ⟨hlength, hpairs⟩ := List.forall₂_iff_zip.1 hfunctions
    rw [← List.map_snd_zip hlength.ge] at hg
    obtain ⟨⟨f, _⟩, hpair, rfl⟩ := List.mem_map.1 hg
    obtain ⟨s, hs, -, htitle⟩ := (hpairs hpair d hskip).2.2.1 hnewline
    have htitles : ∀ f ∈ (ofSource .go foreignClient.toList).functions,
        ((ofSource .go foreignClient.toList).readFunction? ({} : Settings).bulk.primitives f).all
          (fun o => o.found?.all fun s => !s.title.toList.contains '\n') = true := by decide +kernel
    have hplain := htitles f (List.of_mem_zip hpair).1
    rw [hs] at hplain
    simp [Outcome.found?, htitle] at hplain

/-- A method of a type `D` with a comment of two lines between its name and its parameters. -/
def brokenMarkerClient : String :=
  "func (d *D) B /* x\ny */ () (v T, err error) \x7b\n" ++
    "\terr = d.CallRPC(&v, \"b\")\n\treturn\n\x7d\n"

/-- Where methods of `C` are wanted, the second line of the comment leaves the marker. -/
theorem brokenMarkerClient_marker : ({} : Settings).fault? = none ∧
    ∃ file d, (Mode.batchCaller (some "C")).run {} brokenMarkerClient = .ok file ∧
      file.diagnostics = [d] ∧ file.declarations.getLast? = some d.marker ∧
      d.marker = "// ignored client method \x60B /* x\ny */\x60: receiver is D, not C" ∧
      '\n' ∈ d.marker.toList := by
  have hfault : ({} : Settings).fault? = none := by decide +kernel
  have hparts : (GeneratedFile.callerParts? {} (some "C") brokenMarkerClient).map (fun parts =>
      ((parts.1.diagnostics.map (·.marker), parts.1.declarations.getLast?),
        parts.2.all fun spec => (Go.Import.ofSpec spec).name != "")) =
      some ((["// ignored client method \x60B /* x\ny */\x60: receiver is D, not C"],
        some "// ignored client method \x60B /* x\ny */\x60: receiver is D, not C"), true) := by
    decide +kernel
  obtain ⟨file, hmade, heq⟩ := GeneratedFile.exists_batchCaller
    (f := fun body => (body.diagnostics.map (·.marker), body.declarations.getLast?)) hparts
  have hrun : (Mode.batchCaller (some "C")).run {} brokenMarkerClient = .ok file := by
    rw [Mode.run_of_fault? hfault, Mode.generate_batchCaller, hmade]
  obtain ⟨hmarkers, hlast⟩ := Prod.mk.inj heq
  obtain ⟨d, _, hd, hmarker, hrest⟩ := List.map_eq_cons_iff.1 hmarkers
  rw [List.map_eq_nil_iff.1 hrest] at hd
  exact ⟨hfault, file, d, hrun, hd, hlast.trans (congrArg some hmarker.symm), hmarker,
    by rw [hmarker]; decide⟩

end RpcBindings
