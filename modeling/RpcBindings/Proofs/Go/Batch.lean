import RpcBindings.Go.Batch
import RpcBindings.Proofs.Go.Identifier
import RpcBindings.Proofs.Masked.Nest

/-!
Delimiters in the batched form of a method.

The parts of a method stand in its batched form one after the other. What is open between two of them
is followed from part to part. Main statement: when the parts are well nested and the statements after
the call close what those before it open (`Go.PartsNest`), the batched form is well nested
(`Go.PartsNest.wellNested`).
-/

namespace RpcBindings

namespace Masked

/-! ## Texts in which nothing can begin -/

/-- A text in which nothing can begin, and whose delimiters are well nested. -/
structure Level (t : List Char) : Prop where
  bare : t.all isBareChar = true
  nested : WellNested (delimiters t)

instance (t : List Char) : Decidable (Level t) :=
  decidable_of_iff (t.all isBareChar = true ∧ WellNested (delimiters t))
    ⟨fun h => ⟨h.1, h.2⟩, fun h => ⟨h.1, h.2⟩⟩

theorem level_of_mask {t : List Char} (h : t.all isBareChar = true)
    (hnested : WellNested (Text.bytes (mask .go t))) : Level t := by
  rw [mask_of_isBare (isBare_of_all h)] at hnested
  exact ⟨h, (nestFrom_delimiters [] t).trans hnested⟩

theorem delimiters_ink (t : List Char) : delimiters (Text.ink t) = delimiters t := by
  induction t with
  | nil => rfl
  | cons c t ih =>
    by_cases hc : Text.isBlank c = true
    · have hnone : delimiters [c] = [] := delimiters_of_allBlank (by simpa [Text.allBlank])
      rw [Text.ink_blank_cons hc, ih, delimiters_cons c t, hnone, List.nil_append]
    · rw [Text.ink_cons (by simpa using hc), delimiters_cons, ih, delimiters_cons c t]

theorem all_isBareChar_ink (t : List Char) :
    (Text.ink t).all isBareChar = t.all isBareChar := by
  induction t with
  | nil => rfl
  | cons c t ih =>
    by_cases hc : Text.isBlank c = true
    · rw [Text.ink_blank_cons hc, ih, List.all_cons, isBareChar_of_isBlank hc, Bool.true_and]
    · rw [Text.ink_cons (by simpa using hc), List.all_cons, ih, List.all_cons]

/-- Blanks do not matter. -/
theorem level_ink {t : List Char} : Level (Text.ink t) ↔ Level t :=
  ⟨fun h => ⟨all_isBareChar_ink t ▸ h.bare, delimiters_ink t ▸ h.nested⟩,
    fun h => ⟨(all_isBareChar_ink t).symm ▸ h.bare, (delimiters_ink t).symm ▸ h.nested⟩⟩

theorem Plain.delimiters_eq {t : List Char} (h : Plain t) : delimiters t = [] :=
  List.filter_eq_nil_iff.2 fun b hb => by simp [List.all_eq_true.1 h.isPlain_bytes b hb]

/-- What is plain before a text does not matter. -/
theorem level_append {a b : List Char} (ha : Plain a) : Level (a ++ b) ↔ Level b := by
  have hbare : (a ++ b).all isBareChar = b.all isBareChar := by
    rw [List.all_append, ha.all_isBareChar, Bool.true_and]
  have hdelimiters : delimiters (a ++ b) = delimiters b := by
    rw [delimiters_append, ha.delimiters_eq, List.nil_append]
  exact ⟨fun h => ⟨hbare ▸ h.bare, hdelimiters ▸ h.nested⟩,
    fun h => ⟨hbare ▸ h.bare, hdelimiters ▸ h.nested⟩⟩

/-- What is plain behind a text does not matter. -/
theorem append_level {a b : List Char} (hb : Plain b) : Level (a ++ b) ↔ Level a := by
  have hbare : (a ++ b).all isBareChar = a.all isBareChar := by
    rw [List.all_append, hb.all_isBareChar, Bool.and_true]
  have hdelimiters : delimiters (a ++ b) = delimiters a := by
    rw [delimiters_append, hb.delimiters_eq, List.append_nil]
  exact ⟨fun h => ⟨hbare ▸ h.bare, hdelimiters ▸ h.nested⟩,
    fun h => ⟨hbare ▸ h.bare, hdelimiters ▸ h.nested⟩⟩

theorem Level.leads {t : List Char} (h : Level t) (st : List Delimiter) : Leads st t st := by
  refine leads_of_bare h.bare ?_
  rw [← nestFrom_delimiters]
  exact h.nested.nestFrom st

theorem Plain.leads {t : List Char} (h : Plain t) (st : List Delimiter) : Leads st t st :=
  leads_of_bare h.all_isBareChar ((wellNested_of_all_isPlain h.isPlain_bytes).nestFrom st)

/-- A text that is closed and well nested leads on to the delimiter behind it. -/
theorem Regular.leads {t : List Char} (h : Regular t) (d : Delimiter) (st : List Delimiter) :
    Leads (d :: st) (t ++ [d.closer]) st := by
  have hcloser : nestFrom (d :: st) (Text.bytes [d.closer]) = some st := by
    cases d <;> rfl
  have hbare : isBare [d.closer] = true := by cases d <;> decide
  refine ⟨⟨h.closed.append (solid_closer d).closed fun _ => detached_closer d [], ?_⟩, ?_⟩
  · rw [List.getLast?_append_of_ne_nil _ (List.cons_ne_nil _ _)]
    exact (solid_closer d).no_slash
  · rw [mask_append h.closed fun _ => detached_closer d [], Text.bytes_append,
      nestFrom_append_of_eq (h.balanced.nestFrom _), mask_of_isBare hbare]
    exact hcloser

end Masked

namespace GoType

/-! ## Types -/

/-- A type is written with the characters it was read from. -/
theorem ink_text_ofChars (cs : List Char) : Text.ink (ofChars cs).text.toList = Text.ink cs := by
  obtain ⟨n, hn⟩ : ∃ n, cs.length ≤ n := ⟨_, Nat.le_refl _⟩
  induction n generalizing cs with
  | zero =>
    obtain rfl := List.length_eq_zero_iff.1 (Nat.le_zero.1 hn)
    obtain ⟨-, hnil⟩ | ⟨c, rest, hcs, -⟩ | ⟨rest, hcs, -⟩ | ⟨rest, hcs, -⟩ | hnamed :=
      ofChars_cases []
    · rw [hnil]; rfl
    · exact absurd hcs.symm (List.cons_ne_nil c rest)
    · exact absurd hcs.symm (List.cons_ne_nil _ rest)
    · exact absurd hcs.symm (List.cons_ne_nil _ _)
    · rw [hnamed]; rfl
  | succ n ih =>
    obtain ⟨rfl, hnil⟩ | ⟨c, rest, rfl, hblank, heq⟩ | ⟨rest, rfl, heq⟩ | ⟨rest, rfl, heq⟩ |
      heq := ofChars_cases cs
    · rw [hnil]
      rfl
    · rw [heq, Text.ink_blank_cons hblank]
      exact ih rest (Nat.le_of_succ_le_succ hn)
    · rw [heq, text, String.toList_append, Text.ink_append, Text.ink_cons (by decide),
        ih rest (Nat.le_of_succ_le_succ hn)]
      rfl
    · have hrest : rest.length ≤ n :=
        Nat.le_of_succ_le (Nat.le_of_succ_le_succ hn)
      rw [heq, text, String.toList_append, Text.ink_append, Text.ink_cons (by decide),
        Text.ink_cons (by decide), ih rest hrest]
      rfl
    · rw [heq, text, String.toList_ofList]

theorem ink_text_ofText (s : String) : Text.ink (ofText s).text.toList = Text.ink s.toList :=
  (ink_text_ofChars _).trans (Text.ink_trimEnd _)

open Masked

/-- One more level of indirection opens nothing. -/
theorem level_indirect {t : GoType} (h : Level t.text.toList) : Level t.indirect.text.toList := by
  unfold indirect
  split
  · exact h
  · rw [text, String.toList_append]
    exact (level_append (by decide)).2 h

end GoType

namespace Go

open Masked

/-! ## Parts of the batched form -/

theorem leads_allocation {t : GoType} (h : Level t.text.toList) (st : List Delimiter) :
    Leads st (allocation t).toList st := by
  have hnew {name : String} (h : Level name.toList) :
      Leads st ("new(" ++ name ++ ")").toList st := by
    rw [String.toList_append, String.toList_append]
    exact (Leads.append (leads_of_bare (by decide) rfl) (h.leads (.paren :: st))).append
      (leads_of_bare (by decide) rfl)
  cases t with
  | named name => exact hnew h
  | pointer elem =>
    rw [GoType.text, String.toList_append] at h
    exact hnew ((level_append (by decide)).1 h)
  | slice elem =>
    rw [allocation, String.toList_append, String.toList_append]
    exact (Leads.append (leads_of_bare (by decide) rfl) (h.leads (.paren :: st))).append
      (leads_of_bare (by decide) rfl)

/-- Names that open nothing and close nothing stand in the batched form. -/
structure PlainNames (b : BulkSettings) : Prop where
  clientPrefix : Plain b.clientPrefix.toList
  clientSuffix : Plain b.clientSuffix.toList
  callerPrefix : Plain b.callerPrefix.toList
  callerSuffix : Plain b.callerSuffix.toList
  queueField : Plain b.queueField.toList
  descriptorFn : Plain b.descriptorFn.toList

theorem plainNames_standard : PlainNames {} :=
  ⟨by decide, by decide, by decide, by decide, by decide, by decide⟩

theorem PlainNames.level_callerName {b : BulkSettings} (hb : PlainNames b) {clientType : String}
    (h : Level clientType.toList) : Level (b.callerName clientType).toList := by
  have hcore : Level ((Text.stripPrefix? b.clientPrefix.toList clientType.toList).getD
      clientType.toList) := by
    cases hstrip : Text.stripPrefix? b.clientPrefix.toList clientType.toList with
    | none => exact h
    | some rest =>
      rw [Text.stripPrefix?_eq_some_iff.1 hstrip] at h
      exact (level_append hb.clientPrefix).1 h
  unfold BulkSettings.callerName Namespace.swapAffixes
  generalize (Text.stripPrefix? b.clientPrefix.toList clientType.toList).getD
    clientType.toList = core at hcore ⊢
  have hcore' : Level ((Text.stripSuffix? b.clientSuffix.toList core).getD core) := by
    cases hstrip : Text.stripSuffix? b.clientSuffix.toList core with
    | none => exact hcore
    | some rest =>
      rw [Text.stripSuffix?_eq_some_iff.1 hstrip] at hcore
      exact (append_level hb.clientSuffix).1 hcore
  rw [String.toList_append, String.toList_append, String.toList_ofList]
  exact (append_level hb.callerSuffix).2 ((level_append hb.callerPrefix).2 hcore')

/-- One line of statements with its indentation. -/
def indentedLine (l : List Char) : List Char :=
  if l.isEmpty then ['\n'] else '\t' :: (l ++ ['\n'])

theorem toList_indented (block : String) :
    (indented block).toList = (Text.lines block.toList).flatMap indentedLine := by
  unfold indented
  rw [String.toList_join, List.flatMap_map]
  refine congrArg (List.flatMap · _) (funext fun l => ?_)
  cases l <;> simp [indentedLine]

/-- A line leads with its indentation where it does without. -/
theorem leads_indentedLine {before after : List Delimiter} {l : List Char} (hl : '\n' ∉ l)
    (hsettles : ∀ r ∈ Text.content l, settles (r ++ ['\n']) = true)
    (h : nestFrom before (lineDelimiters (Text.content l)) = some after) :
    Leads before (indentedLine l) after := by
  cases l with
  | nil =>
    obtain rfl : before = after := Option.some.inj h
    exact Plain.leads (by decide) before
  | cons c l =>
    have hcontent : Text.content ('\t' :: c :: l) = Text.content (c :: l) :=
      Text.content_blank_append (b := ['\t']) (by decide) (c :: l)
    rw [← hcontent] at hsettles h
    exact leads_line (a := '\t' :: c :: l) (by simpa using hl) hsettles h

/-- Statements lead with their indentation where they do without. -/
theorem leads_indented {before after : List Delimiter} {block : String}
    (hsettles : ∀ r ∈ Text.content block.toList, settles (r ++ ['\n']) = true)
    (h : nestFrom before (lineDelimiters (Text.content block.toList)) = some after) :
    Leads before (indented block).toList after := by
  rw [toList_indented]
  have hlines : ∀ l ∈ Text.lines block.toList, '\n' ∉ l := fun l hl => Text.not_mem_lines hl
  unfold Text.content at hsettles h
  generalize Text.lines block.toList = ls at hlines hsettles h
  induction ls generalizing before with
  | nil =>
    obtain rfl : before = after := Option.some.inj h
    exact Leads.nil before
  | cons l ls ih =>
    have hl := hlines l List.mem_cons_self
    have hcontent : Text.held [l] = Text.content l := (Text.content_line hl).symm
    rw [Text.held_cons, hcontent] at hsettles h
    rw [lineDelimiters_append] at h
    obtain ⟨mid, hfirst, hrest⟩ := nestFrom_append_eq_some.1 h
    rw [List.flatMap_cons]
    exact (leads_indentedLine hl (fun r hr => hsettles r (List.mem_append_left _ hr)) hfirst).append
      (ih (fun x hx => hlines x (List.mem_cons_of_mem l hx))
        (fun r hr => hsettles r (List.mem_append_right _ hr)) hrest)

/-! ## The batched form -/

/-- The parts of a method are well nested, and the statements after the call close what those before it
open. -/
structure PartsNest (m : SyncMethod) : Prop where
  receiverName : Plain m.receiverName.toList
  receiverType : Level m.receiverType.toList
  signature : Leads [] m.signature.toList []
  returnType : Level m.returnType.text.toList
  callArgs : Regular m.callArgs.toList
  settles_before : ∀ r ∈ Text.content m.before.toList, settles (r ++ ['\n']) = true
  settles_after : ∀ r ∈ Text.content m.after.toList, settles (r ++ ['\n']) = true
  statements : ∃ st, nestFrom [] (lineDelimiters (Text.content m.before.toList)) = some st ∧
    nestFrom st (lineDelimiters (Text.content m.after.toList)) = some []

namespace PartsNest

variable {b : BulkSettings} {m : SyncMethod}

/-- The head of the batched form opens its body. -/
theorem leads_head (hm : PartsNest m) (hb : PlainNames b) :
    Leads [] ("func (" ++ m.receiverName ++ " *" ++ b.callerName m.receiverType ++ ") " ++
      m.signature ++ " (" ++ m.batchedType.text ++ ", *error) \x7b\n").toList [.brace] := by
  have hfunc : Leads [] "func (".toList [.paren] := leads_of_bare (by decide) rfl
  have hreceiver := hm.receiverName.leads [.paren]
  have hpointer : Leads [.paren] " *".toList [.paren] := leads_of_bare (by decide) rfl
  have hcaller := (hb.level_callerName hm.receiverType).leads [.paren]
  have hmethod : Leads [.paren] ") ".toList [] := leads_of_bare (by decide) rfl
  have hresults : Leads [] " (".toList [.paren] := leads_of_bare (by decide) rfl
  have hresult := (GoType.level_indirect hm.returnType).leads [.paren]
  have hbody : Leads [.paren] ", *error) \x7b\n".toList [.brace] := leads_of_bare (by decide) rfl
  simp only [String.toList_append]
  exact (((((((hfunc.append hreceiver).append hpointer).append hcaller).append hmethod).append
    hm.signature).append hresults).append hresult).append hbody

/-- Room is made for the results. -/
theorem leads_results (hm : PartsNest m) (st : List Delimiter) :
    Leads st ("\tresult := " ++ allocation m.batchedType ++ "\n" ++
      "\terr := new(error)\n\n").toList st := by
  have hresult : Leads st "\tresult := ".toList st := Plain.leads (by decide) st
  have hallocation := leads_allocation (GoType.level_indirect hm.returnType) st
  have hnewline : Leads st "\n".toList st := Plain.leads (by decide) st
  have herror : Leads st "\terr := new(error)\n\n".toList st := Level.leads (by decide) st
  simp only [String.toList_append]
  exact ((hresult.append hallocation).append hnewline).append herror

/-- The call is queued in one statement. -/
theorem leads_queued (hm : PartsNest m) (hb : PlainNames b) (st : List Delimiter) :
    Leads st ("\t" ++ ("*" ++ m.receiverName ++ "." ++ b.queueField) ++ " = append(" ++
      ("*" ++ m.receiverName ++ "." ++ b.queueField) ++ ", " ++ b.descriptorFn ++ "(result, " ++
      m.callArgs ++ "))\n").toList st := by
  have hqueue : Plain ("*" ++ m.receiverName ++ "." ++ b.queueField).toList := by
    simp only [String.toList_append]
    exact ((Plain.append (by decide) hm.receiverName).append (by decide)).append hb.queueField
  have hindent : Leads st "\t".toList st := Plain.leads (by decide) st
  have happend : Leads st " = append(".toList (.paren :: st) := leads_of_bare (by decide) rfl
  have hcomma : Leads (.paren :: st) ", ".toList (.paren :: st) := Plain.leads (by decide) _
  have hopen : Leads (.paren :: st) "(result, ".toList (.paren :: .paren :: st) :=
    leads_of_bare (by decide) rfl
  have hargs : Leads (.paren :: .paren :: st) (m.callArgs.toList ++ [')']) (.paren :: st) :=
    hm.callArgs.leads .paren _
  have hclose : Leads (.paren :: st) ")\n".toList st := leads_of_bare (by decide) rfl
  have hall := ((((((hindent.append (hqueue.leads st)).append happend).append
    (hqueue.leads _)).append hcomma).append (hb.descriptorFn.leads _)).append hopen).append
      (hargs.append hclose)
  have hparens : "))\n".toList = [')'] ++ ")\n".toList := rfl
  simp only [String.toList_append, hparens, List.append_assoc] at hall ⊢
  exact hall

/-- The batched form of a method whose parts are well nested is well nested. -/
theorem wellNested (hm : PartsNest m) (hb : PlainNames b) :
    WellNested (Text.bytes (mask .go (batchText b m).toList)) := by
  obtain ⟨st, hbefore, hafter⟩ := hm.statements
  have hbefore := leads_indented hm.settles_before (nestFrom_frame hbefore [.brace])
  have hafter := leads_indented hm.settles_after (nestFrom_frame hafter [.brace])
  have hreturn : Leads [.brace] "\n\treturn result, err\n\x7d".toList [] :=
    leads_of_bare (by decide) rfl
  have hall := (((((hm.leads_head hb).append (hm.leads_results _)).append hbefore).append
    (hm.leads_queued hb _)).append hafter).append hreturn
  unfold batchText
  simp only [String.toList_append, List.append_assoc] at hall ⊢
  exact hall.nest

end PartsNest

end Go

end RpcBindings
