import RpcBindings.Proofs.Client.Batch
import RpcBindings.Proofs.Masked.Layout

/-!
The literals of kept statements in the batched form of a method.

What is kept of a text has the literals that lie in none of its error blocks, when each of these is cut
out in code (`literals_without`). Laying the rest out anew changes the blanks at the line feeds of a
literal, too. Main statement: so the batched form of a method has the literals of the statements around
the call in their order, and those whose blanks stay are the same byte for byte (`kept_literals`). A
literal over several lines is not (`kept_literals_differ`).
-/

namespace RpcBindings

namespace Masked

/-! ## Parts that are left out -/

theorem PartsFrom.le {m : Masked} {start : Nat} {ss : List Span} (h : m.PartsFrom start ss) {s : Span}
    (hs : s ∈ ss) : start ≤ s.start := by
  induction ss generalizing start with
  | nil => exact absurd hs List.not_mem_nil
  | cons s' ss ih =>
    obtain ⟨hle, hle', -, -, hlater⟩ := h
    rcases List.mem_cons.1 hs with rfl | hs
    · exact hle
    · exact Nat.le_trans (Nat.le_trans hle hle') (ih hlater hs)

/-- The scan from one place in code to another. -/
theorem scanTo_of_scanTo {a x r : List Char} {w w' : WordState}
    (hmode : scanTo (.code .fresh) a (x ++ r) = .code w)
    (hmode' : scanTo (.code .fresh) (a ++ x) r = .code w') : scanTo (.code w) x r = .code w' := by
  rwa [scanTo_append, hmode] at hmode'

/-- The literals of a text that stands at an offset, but for those that lie in one of the parts. -/
def literalsOutside (start : Nat) (t : List Char) (ss : List Span) : List PlacedLiteral :=
  ((placedLiterals t).map (PlacedLiteral.shift start)).filter fun l => ∀ s ∈ ss, ¬l.LiesIn s

/-- The first part takes the literals in it, and none of those before and behind it. -/
theorem literalsOutside_cons {m : Masked} {start : Nat} {x y z : List Char} {s : Span}
    {ss : List Span} {v w w' : WordState} (hx : scanTo (.code v) x (y ++ z) = .code w)
    (hy : scanTo (.code w) y z = .code w') (hstart : start + Text.byteLength x = s.start)
    (hstop : s.start + Text.byteLength y = s.stop) (hparts : m.PartsFrom s.stop ss) :
    literalsOutside start (x ++ (y ++ z)) (s :: ss) =
      (placedLiterals x).map (PlacedLiteral.shift start) ++ literalsOutside s.stop z ss := by
  have hbefore : ((placedLiterals x).map (PlacedLiteral.shift start)).filter
      (fun l => ∀ s' ∈ s :: ss, ¬l.LiesIn s') = (placedLiterals x).map (PlacedLiteral.shift start) := by
    refine List.filter_eq_self.2 fun l hl => decide_eq_true fun s' hs' hlies => ?_
    have hbounds := bounds_of_mem_placedLiterals hl
    have hafter : s.start ≤ s'.start := by
      rcases List.mem_cons.1 hs' with rfl | hs'
      · exact Nat.le_refl _
      · exact Nat.le_trans (by omega) (hparts.le hs')
    have hlies := hlies.1
    omega
  have hin : ((placedLiterals y).map (PlacedLiteral.shift s.start)).filter
      (fun l => ∀ s' ∈ s :: ss, ¬l.LiesIn s') = [] := by
    refine List.filter_eq_nil_iff.2 fun l hl hout => ?_
    have hbounds := bounds_of_mem_placedLiterals hl
    exact of_decide_eq_true hout s List.mem_cons_self ⟨hbounds.2.1, by omega⟩
  have hbehind : ((placedLiterals z).map (PlacedLiteral.shift s.stop)).filter
      (fun l => ∀ s' ∈ s :: ss, ¬l.LiesIn s') = literalsOutside s.stop z ss := by
    refine List.filter_congr fun l hl => ?_
    have hbounds := bounds_of_mem_placedLiterals hl
    have hout : ¬l.LiesIn s := by
      rintro ⟨-, hstop⟩
      omega
    simp [hout]
  rw [literalsOutside, placedLiterals_append hx, placedLiterals_append hy, List.map_append,
    List.map_append, List.map_append, PlacedLiteral.map_shift_shift, PlacedLiteral.map_shift_shift,
    PlacedLiteral.map_shift_shift, hstart, hstop, List.filter_append, List.filter_append, hbefore, hin,
    hbehind, List.nil_append]

section Cut

variable {t : List Char}

/-- What is kept of a lexically closed text has the literals that lie in none of the parts that are left
out, when the scan stands in code where these are cut out. -/
theorem literals_without (ht : LexicallyClosed t) {a rest : List Char} {w : WordState}
    (hsource : t = a ++ rest) (hmode : scanTo (.code .fresh) a rest = .code w) {ss : List Span}
    (hparts : (ofSource .go t).PartsFrom (Text.byteLength a) ss)
    (hcuts : ∀ s ∈ ss, (ofSource .go t).CutsCode s) :
    literals (Client.without t (Text.byteLength a) ss) =
      (literalsOutside (Text.byteLength a) rest ss).map (·.text) := by
  induction ss generalizing a rest w with
  | nil =>
    rw [Client.without, hsource, Text.dropBytes_append, literalsOutside, List.filter_eq_self.2 (by simp),
      map_text_shift]
  | cons s ss ih =>
    obtain ⟨hle, hle', -, -, hbehind⟩ := hparts
    have hcut := hcuts s List.mem_cons_self
    have hin : (ofSource .go t).InCode (Text.byteLength a) := ⟨a, rest, w, hsource, rfl, hmode⟩
    have hslash := hcut.getLast?_mask_slice_ne hin hle
    have hsettles := ht.settles_slice hin hcut.start hle
    obtain ⟨b, r, w', hb, hstart, hmode'⟩ := hcut.start
    obtain ⟨d, z, w'', hd, hstop, hmode''⟩ := hcut.stop
    have hb : t = b ++ r := hb
    have hd : t = d ++ z := hd
    obtain ⟨x, rfl, rfl, hx⟩ := Text.exists_split_of_le hsource hb (by omega)
    obtain ⟨y, rfl, rfl, -⟩ := Text.exists_split_of_le hb hd (by omega)
    have hslice : (ofSource .go t).slice (Text.byteLength a) s.start = x := hstart ▸ hx
    rw [hslice] at hslash hsettles
    have hlater := ih hd hmode'' (hstop.symm ▸ hbehind) fun s' hs' => hcuts s' (List.mem_cons_of_mem s hs')
    obtain ⟨v, hv⟩ := exists_scanTo_of_settles rfl hsettles hslash
      (Client.without t (Text.byteLength (a ++ x ++ y)) ss)
    have houtside := literalsOutside_cons (scanTo_of_scanTo hmode hmode')
      (scanTo_of_scanTo hmode' hmode'') (by rw [← hstart, Text.byteLength_append])
      (by rw [← hstart, ← hstop, Text.byteLength_append (a ++ x)])
      hbehind
    have hwithout : Client.without t (Text.byteLength a) (s :: ss) =
        x ++ Client.without t (Text.byteLength (a ++ x ++ y)) ss := by
      rw [Client.without, hstop]
      exact congrArg (· ++ _) hslice
    rw [hwithout, literals_append hv, hlater, houtside, List.map_append, map_text_shift, hstop]

/-- The literals of a text that lie in no error block of it. -/
def keptLiterals (t : List Char) : List (List Char) :=
  (literalsOutside 0 t (ofSource .go t).errorBlocks).map (·.text)

/-- The number of bytes that the kept lines of a text are indented by in common. -/
def keptIndent (t : List Char) : Nat :=
  Text.sharedIndent (Client.without t 0 (ofSource .go t).errorBlocks)

/-- The literals that are kept of a text with the blanks in them laid out anew. -/
def laidLiterals (t : List Char) : List (List Char) :=
  (keptLiterals t).map (Text.reindent (keptIndent t))

/-- The kept literals over several lines stay when the text is laid out anew. -/
def KeepsLines (t : List Char) : Prop :=
  ∀ l ∈ keptLiterals t, '\n' ∈ l → Text.reindent (keptIndent t) l = l

instance (t : List Char) : Decidable (KeepsLines t) :=
  inferInstanceAs (Decidable (∀ l ∈ keptLiterals t, _))

theorem mem_literals_of_mem_keptLiterals {l : List Char} (h : l ∈ keptLiterals t) :
    l ∈ literals t := by
  obtain ⟨x, hx, rfl⟩ := List.mem_map.1 h
  rw [← map_text_shift 0]
  exact List.mem_map_of_mem (List.mem_filter.1 hx).1

/-- Neither a comment nor a literal is open behind a text, and its error blocks are cut out in code. -/
structure ShedsBlocks (t : List Char) : Prop where
  closed : LexicallyClosed t
  cuts : ∀ s ∈ (ofSource .go t).errorBlocks, (ofSource .go t).CutsCode s

instance (t : List Char) : Decidable (ShedsBlocks t) :=
  decidable_of_iff
    (LexicallyClosed t ∧ ∀ s ∈ (ofSource .go t).errorBlocks, (ofSource .go t).CutsCode s)
    ⟨fun h => ⟨h.1, h.2⟩, fun h => ⟨h.1, h.2⟩⟩

/-- The kept statements with their indentation are closed lines, and have the literals that lie in no
error block, laid out anew. -/
theorem ShedsBlocks.literals_indented (h : ShedsBlocks t) {kept : String}
    (hkept : Client.keptStatements? t = some kept.toList) :
    ClosedLines (Go.indented kept).toList ∧
      literals (Go.indented kept).toList = laidLiterals t := by
  have hstart : (ofSource .go t).InCode 0 := ⟨[], t, .fresh, rfl, rfl, rfl⟩
  have hparts := parts_errorBlocks h.closed.unsplit
  have hclosed := (mask_without h.closed hstart hparts h.cuts).1
  have hliterals : literals (Client.without t 0 (ofSource .go t).errorBlocks) = keptLiterals t :=
    literals_without (a := []) h.closed rfl rfl hparts h.cuts
  have hline : Go.indentedLine = Text.retabbed 0 := by
    funext l
    rw [Go.indentedLine, Text.retabbed, Text.dropBytes_zero]
  have hindented := literals_indented_tidy? hclosed hkept
  rw [Go.toList_indented, hline]
  rwa [hliterals] at hindented

/-- Literals on one line stay when the text is laid out anew. -/
theorem ShedsBlocks.laidLiterals_eq (h : ShedsBlocks t) (hlines : KeepsLines t) :
    laidLiterals t = keptLiterals t := by
  refine (List.map_congr_left fun l hl => ?_).trans (List.map_id _)
  by_cases hline : '\n' ∈ l
  · exact hlines l hl hline
  · have hgo : ofGo (.code .fresh) = true := rfl
    have hmem := mem_literals_of_mem_keptLiterals hl
    rw [← literals_append_blank (b := ['\n']) rfl h.closed] at hmem
    exact Text.reindent_of_not_mem hline (endsInInk_of_mem_literalsFrom hgo h.closed hmem)

end Cut

end Masked

namespace Go

open Masked

/-- The lines of the batched form before the statements. -/
def batchHead (b : BulkSettings) (m : SyncMethod) : String :=
  "func (" ++ m.receiverName ++ " *" ++ b.callerName m.receiverType ++ ") " ++ m.signature ++
    " (" ++ m.batchedType.text ++ ", *error) \x7b\n" ++
  "\tresult := " ++ allocation m.batchedType ++ "\n" ++
  "\terr := new(error)\n\n"

/-- The line of the batched form that queues the call. -/
def queueLine (b : BulkSettings) (m : SyncMethod) : String :=
  let queue := "*" ++ m.receiverName ++ "." ++ b.queueField
  "\t" ++ queue ++ " = append(" ++ queue ++ ", " ++ b.descriptorFn ++
    "(result, " ++ m.callArgs ++ "))\n"

/-- The line that ends the batched form. -/
def batchEnd : String :=
  "\n\treturn result, err\n\x7d"

theorem batchText_eq (b : BulkSettings) (m : SyncMethod) : batchText b m =
    batchHead b m ++ indented m.before ++ queueLine b m ++ indented m.after ++ batchEnd := by
  unfold batchText batchHead queueLine batchEnd
  simp only [String.append_assoc]

theorem closedLines_append {s e : String} (he : e.toList.getLast? = some '\n')
    (h : settles (s ++ e).toList = true) : ClosedLines (s ++ e).toList := by
  refine ⟨h, fun c hc => ?_⟩
  rw [String.toList_append, List.getLast?_append, he] at hc
  exact (Option.some.inj hc).symm

theorem closedLines_batchHead {b : BulkSettings} {m : SyncMethod}
    (h : settles (batchHead b m).toList = true) : ClosedLines (batchHead b m).toList := by
  unfold batchHead at h ⊢
  exact closedLines_append (by decide) h

theorem closedLines_queueLine {b : BulkSettings} {m : SyncMethod}
    (h : settles (queueLine b m).toList = true) : ClosedLines (queueLine b m).toList := by
  unfold queueLine at h ⊢
  exact closedLines_append (by decide) h

theorem literals_batchEnd : literals batchEnd.toList = [] := by decide

end Go

namespace Masked

/-- Neither a comment nor a literal goes on over an end of the statements around a call or of the lines
that are written around them, and error blocks are cut out in code. -/
structure KeepsLiterals (b : BulkSettings) (m : Masked) (c : CallSite) (s : SyncMethod) : Prop where
  head : settles (Go.batchHead b s).toList = true
  -- these statements end inside of a comment when the line of the call begins in it
  before : ShedsBlocks (m.slice c.bodyStart c.statement)
  queued : settles (Go.queueLine b s).toList = true
  after : ShedsBlocks (afterCall (m.slice (c.args.stop + 1) c.returnAt))

instance (b : BulkSettings) (m : Masked) (c : CallSite) (s : SyncMethod) :
    Decidable (KeepsLiterals b m c s) :=
  decidable_of_iff
    (settles (Go.batchHead b s).toList = true ∧ ShedsBlocks (m.slice c.bodyStart c.statement) ∧
      settles (Go.queueLine b s).toList = true ∧
      ShedsBlocks (afterCall (m.slice (c.args.stop + 1) c.returnAt)))
    ⟨fun ⟨h₁, h₂, h₃, h₄⟩ => ⟨h₁, h₂, h₃, h₄⟩, fun h => ⟨h.1, h.2, h.3, h.4⟩⟩

/-- The literals of the batched form: those of the lines that are written anew, and between them those of
the statements before and behind the call that lie in no error block, laid out anew. -/
theorem literals_batchText {b : BulkSettings} {m : Masked} {receiver : Receiver} {c : CallSite}
    {s : SyncMethod} (hs : m.methodAt? receiver c = some s) (h : KeepsLiterals b m c s) :
    literals (Go.batchText b s).toList =
      literals (Go.batchHead b s).toList ++
      (laidLiterals (m.slice c.bodyStart c.statement) ++ (literals (Go.queueLine b s).toList ++
        laidLiterals (afterCall (m.slice (c.args.stop + 1) c.returnAt)))) := by
  obtain ⟨hbefore, hafter, -⟩ := methodAt?_eq_some hs
  obtain ⟨hclosed, hkept⟩ := h.before.literals_indented hbefore
  obtain ⟨hclosed', hkept'⟩ := h.after.literals_indented hafter
  rw [Go.batchText_eq]
  simp only [String.toList_append, List.append_assoc]
  rw [(Go.closedLines_batchHead h.head).literals_append, hclosed.literals_append,
    (Go.closedLines_queueLine h.queued).literals_append, hclosed'.literals_append, hkept, hkept',
    Go.literals_batchEnd, List.append_nil]

end Masked

namespace ClientFile

/-- The batched form of a method that is found has the literals of the statements around the call that
lie in no error block, in their order, with the blanks in them laid out anew: when neither a comment nor
a literal goes on over an end of these statements and of the lines around them, and error blocks are cut
out in code. When the literals over several lines stay so, all are the same byte for byte. -/
theorem kept_literals {options : ClientOptions} {source : String} {file : ClientFile} {k : Nat}
    {g : ClientFunction} {s : SyncMethod} (b : BulkSettings)
    (hfile : ClientFile.read? options source = some file) (hg : file.functions[k]? = some g)
    (hs : g.outcome = .found s) :
    ∃ f c before after, (Masked.ofSource .go source.toList).functions[k]? = some f ∧
      (Masked.ofSource .go source.toList).siteOf? options.primitives f = some c ∧
      before = (Masked.ofSource .go source.toList).slice c.bodyStart c.statement ∧
      after = Masked.afterCall
        ((Masked.ofSource .go source.toList).slice (c.args.stop + 1) c.returnAt) ∧
      (Masked.KeepsLiterals b (Masked.ofSource .go source.toList) c s →
        (Masked.laidLiterals before ++ Masked.laidLiterals after).Sublist
          (Masked.literals (Go.batchText b s).toList) ∧
        (Masked.KeepsLines before → Masked.KeepsLines after →
          (Masked.keptLiterals before ++ Masked.keptLiterals after).Sublist
            (Masked.literals (Go.batchText b s).toList))) := by
  obtain ⟨f, receiver, c, hf, hc, -, hmethod⟩ := exists_site hfile hg hs
  refine ⟨f, c, _, _, hf, hc, rfl, rfl, fun h => ?_⟩
  have hall := Masked.literals_batchText hmethod h
  generalize hbefore : (Masked.ofSource .go source.toList).slice c.bodyStart c.statement = before
    at hall ⊢
  generalize hafter : Masked.afterCall
    ((Masked.ofSource .go source.toList).slice (c.args.stop + 1) c.returnAt) = after at hall ⊢
  have hlaid : (Masked.laidLiterals before ++ Masked.laidLiterals after).Sublist
      (Masked.literals (Go.batchText b s).toList) := by
    rw [hall]
    exact ((List.sublist_append_right _ _).append_left _).trans (List.sublist_append_right _ _)
  have hshedsBefore : Masked.ShedsBlocks before := hbefore ▸ h.before
  have hshedsAfter : Masked.ShedsBlocks after := hafter ▸ h.after
  refine ⟨hlaid, fun hlines hlines' => ?_⟩
  rwa [hshedsBefore.laidLiterals_eq hlines, hshedsAfter.laidLiterals_eq hlines'] at hlaid

/-- A method with literals before and behind its call, and one in an error block. -/
def literalsAround : String :=
  "func (c *C) M() (y T, err error) \x7b\n\tq := `a\n\tb`\n\tif err != nil \x7b\n" ++
  "\t\tc.log(\"lost\")\n\t\x7d\n\terr = c.CallRPC(&y, \"a\")\n\tc.log(\"x\\\"y  z\", q)\n" ++
  "\treturn\n\x7d\n"

theorem kept_literals_literalsAround :
    ∃ (file : ClientFile) (g : ClientFunction) (s : SyncMethod),
      ClientFile.read? ⟨["CallRPC"], none⟩ literalsAround = some file ∧
      file.functions[0]? = some g ∧ g.outcome = .found s ∧
      ["`a\n\tb`".toList, "\"x\\\"y  z\"".toList].Sublist
        (Masked.literals (Go.batchText {} s).toList) := by
  have hkept : ∃ s ∈ ((ClientFile.read? ⟨["CallRPC"], none⟩ literalsAround).bind
      (·.functions[0]?)).bind (·.outcome.found?),
      ∀ c ∈ ((Masked.ofSource .go literalsAround.toList).functions[0]?).bind
        ((Masked.ofSource .go literalsAround.toList).siteOf? ["CallRPC"]),
      Masked.KeepsLiterals {} (Masked.ofSource .go literalsAround.toList) c s ∧
        Masked.KeepsLines ((Masked.ofSource .go literalsAround.toList).slice c.bodyStart c.statement) ∧
        Masked.KeepsLines (Masked.afterCall
          ((Masked.ofSource .go literalsAround.toList).slice (c.args.stop + 1) c.returnAt)) ∧
        Masked.keptLiterals ((Masked.ofSource .go literalsAround.toList).slice c.bodyStart c.statement) =
          ["`a\n\tb`".toList] ∧
        Masked.keptLiterals (Masked.afterCall
          ((Masked.ofSource .go literalsAround.toList).slice (c.args.stop + 1) c.returnAt)) =
          ["\"x\\\"y  z\"".toList] := by
    decide +kernel
  obtain ⟨s, hs, hkept⟩ := hkept
  obtain ⟨g, hg, hs⟩ := Option.bind_eq_some_iff.1 hs
  obtain ⟨file, hfile, hg⟩ := Option.bind_eq_some_iff.1 hg
  have hs := Masked.eq_found_of_found? hs
  obtain ⟨f, c, _, _, hf, hc, rfl, rfl, hliterals⟩ := kept_literals {} hfile hg hs
  obtain ⟨hkeeps, hbefore, hafter, heq, heq'⟩ :=
    hkept c (Option.bind_eq_some_iff.2 ⟨f, hf, hc⟩)
  have hsublist := (hliterals hkeeps).2 hbefore hafter
  rw [heq, heq'] at hsublist
  exact ⟨file, g, s, hfile, hg, hs, hsublist⟩

/-- A method with a literal over two lines. -/
def literalOverLines : String :=
  "func (c *C) M() (y T, err error) \x7b\n\tq := `a\nb`\n\terr = c.CallRPC(&y, \"a\")\n" ++
  "\treturn\n\x7d\n"

/-- The second line of the literal is indented with the other lines. -/
theorem kept_literals_differ :
    ∃ s ∈ ((ClientFile.read? ⟨["CallRPC"], none⟩ literalOverLines).bind
        (·.functions[0]?)).bind (·.outcome.found?),
      ∃ c ∈ ((Masked.ofSource .go literalOverLines.toList).functions[0]?).bind
          ((Masked.ofSource .go literalOverLines.toList).siteOf? ["CallRPC"]),
        Masked.KeepsLiterals {} (Masked.ofSource .go literalOverLines.toList) c s ∧
          "`a\nb`".toList ∈ Masked.keptLiterals
            ((Masked.ofSource .go literalOverLines.toList).slice c.bodyStart c.statement) ∧
          "`a\nb`".toList ∉ Masked.literals (Go.batchText {} s).toList ∧
          "`a\n\tb`".toList ∈ Masked.literals (Go.batchText {} s).toList := by
  decide +kernel

end ClientFile

end RpcBindings
