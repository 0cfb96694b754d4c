import RpcBindings.Proofs.Client.CallSite
import RpcBindings.Proofs.Client.Function
import RpcBindings.Proofs.Go.Identifier
import RpcBindings.Proofs.Masked.Pieces

/-!
The text of a synchronous method.

`MethodText` holds the parts of a method as texts, `MethodText.text` puts them together, and
`MethodText.Wf` says what each part may be: closed, balanced, and without what a search for the next
part would stop at.
-/

namespace RpcBindings

open Masked

/-- The parts of the text of a synchronous method. -/
structure MethodText where
  receiver : List Char
  type : List Char
  name : List Char
  params : List Char
  result : List Char
  resultType : List Char
  /-- What stands in the body before the line of the call. -/
  lead : List Char
  /-- What stands before `err` and before `return` on their lines. -/
  indent : List Char
  /-- The field of the receiver that makes the call. -/
  field : List Char
  primitive : List Char
  /-- The arguments after the address of the result. -/
  args : List (List Char)
  /-- What stands between the call and the line of the `return`. -/
  trail : List Char

namespace MethodText

variable (t : MethodText)

/-- The receiver's name and type. -/
def receiverText : List Char :=
  t.receiver ++ ' ' :: '*' :: t.type

/-- The two results. -/
def results : List (List Char) :=
  [t.result ++ ' ' :: t.resultType, " err error".toList]

/-- All arguments of the call as they stand between its commas. -/
def pieces : List (List Char) :=
  ('&' :: t.result) :: t.args.map (' ' :: ·)

/-- The statement of the call up to the dot before the primitive. -/
def head : List Char :=
  t.indent ++ ("err = ".toList ++ (t.receiver ++ '.' :: t.field))

/-- What stands after the arguments of the call. -/
def tail : List Char :=
  ')' :: (t.trail ++ '\n' :: (t.indent ++ "return\n".toList))

/-- The call from the dot before the primitive to the end of the body. -/
def call : List Char :=
  '.' :: (t.primitive ++ '(' :: ([','].intercalate t.pieces ++ t.tail))

/-- What stands between the braces. -/
def body : List Char :=
  t.lead ++ '\n' :: (t.head ++ t.call)

/-- The text from the parameters on. -/
def afterName : List Char :=
  '(' :: (t.params ++ ')' :: ' ' :: '(' :: ([','].intercalate t.results ++
    ')' :: ' ' :: '\x7b' :: (t.body ++ ['\x7d'])))

/-- The text of the method. -/
def text : List Char :=
  "func".toList ++ ' ' :: '(' :: (t.receiverText ++ ')' :: ' ' :: (t.name ++ t.afterName))

/-- Texts are joined by commas with the spaces behind them. -/
theorem intercalate_commas (a : List Char) (args : List (List Char)) :
    [','].intercalate (a :: args.map (' ' :: ·)) = a ++ args.flatMap (", ".toList ++ ·) := by
  induction args generalizing a with
  | nil => simp [List.intercalate]
  | cons b args ih =>
    rw [List.map_cons, List.intercalate_cons_cons, ih, List.flatMap_cons]
    simp

end MethodText

/-- A text in which no call of a primitive is written out. -/
def CallsNone (primitives : List String) (cs : List Char) : Prop :=
  ∀ q ∈ primitives, callOffset? (Text.bytes (mask .go cs)) q = none

instance (primitives : List String) (cs : List Char) : Decidable (CallsNone primitives cs) :=
  inferInstanceAs (Decidable (∀ q ∈ primitives, callOffset? (Text.bytes (mask .go cs)) q = none))

/-- The parts of a method's text are what they stand for. -/
structure MethodText.Wf (t : MethodText) (primitives : List String) : Prop where
  receiver : Go.IsName t.receiver
  type : Go.IsName t.type
  name : Go.IsName t.name
  result : Go.IsName t.result
  field : Go.IsName t.field
  primitive : String.ofList t.primitive ∈ primitives
  names : ∀ q ∈ primitives, Go.isIdentifier q = true
  params : Regular t.params
  resultType : Lacks ',' t.resultType
  resultType_not_blank : Text.allBlank t.resultType = false
  lead : Regular t.lead
  lead_calls : CallsNone primitives t.lead
  indent : ∀ c ∈ t.indent, c = ' ' ∨ c = '\t'
  args_ne_nil : t.args ≠ []
  args : ∀ a ∈ t.args, Lacks ',' a ∧ Text.trim a = a ∧ '\n' ∉ a
  last_arg : ∀ a, t.args.getLast? = some a → Text.allBlank (mask .go a) = false
  trail : Regular t.trail

namespace MethodText

variable {t : MethodText} {primitives : List String}

namespace Wf

/-! ## Parts -/

theorem isName_primitive (h : t.Wf primitives) : Go.IsName t.primitive :=
  h.names _ h.primitive

theorem plain_indent (h : t.Wf primitives) : Plain t.indent := by
  refine List.all_eq_true.2 fun c hc => ?_
  rcases h.indent c hc with rfl | rfl <;> decide

theorem plain_receiverText (h : t.Wf primitives) : Plain t.receiverText :=
  h.receiver.plain.append ((show Plain " *".toList by unfold Plain; decide).append h.type.plain)

theorem plain_head (h : t.Wf primitives) : Plain t.head :=
  h.plain_indent.append ((show Plain "err = ".toList by unfold Plain; decide).append
    (h.receiver.plain.append ((show Plain ".".toList by unfold Plain; decide).append
      h.field.plain)))

theorem lacks_results (h : t.Wf primitives) : ∀ x ∈ t.results, Lacks ',' x := by
  intro x hx
  rcases List.mem_cons.1 hx with rfl | hx
  · have hplain : Plain (t.result ++ [' ']) :=
      h.result.plain.append (show Plain " ".toList by unfold Plain; decide)
    have hcomma : ','.toUInt8 ∉ Text.bytes (t.result ++ [' ']) := by
      rw [Text.bytes_append, List.mem_append]
      rintro (hmem | hmem)
      · exact h.result.not_mem_bytes (by decide) hmem
      · exact absurd hmem (by decide)
    have := (hplain.lacks hcomma).append h.resultType fun hslash =>
      absurd hslash hplain.solid.no_slash
    rwa [List.append_assoc] at this
  · obtain rfl := List.mem_singleton.1 hx
    exact Plain.lacks (by unfold Plain; decide) (by decide)

theorem lacks_pieces (h : t.Wf primitives) : ∀ x ∈ t.pieces, Lacks ',' x := by
  intro x hx
  rcases List.mem_cons.1 hx with rfl | hx
  · have hplain : Plain ('&' :: t.result) :=
      (show Plain "&".toList by unfold Plain; decide).append h.result.plain
    refine hplain.lacks ?_
    rw [Text.bytes_cons_of_narrow (by decide), List.mem_cons]
    rintro (heq | hmem)
    · exact absurd heq (by decide)
    · exact h.result.not_mem_bytes (by decide) hmem
  · obtain ⟨a, ha, rfl⟩ := List.mem_map.1 hx
    have hspace : Lacks ',' [' '] := Plain.lacks (by unfold Plain; decide) (by decide)
    exact hspace.append (h.args a ha).1 fun hslash => absurd hslash (by decide)

theorem regular_args (h : t.Wf primitives) : Regular ([','].intercalate t.pieces) :=
  regular_intercalate h.lacks_pieces

theorem regular_results (h : t.Wf primitives) : Regular ([','].intercalate t.results) :=
  regular_intercalate h.lacks_results

end Wf

end MethodText

end RpcBindings
