import RpcBindings.Proofs.Masked.Hidden
import RpcBindings.Proofs.Masked.Word
import RpcBindings.Proofs.Text.Layout
import RpcBindings.Schema.Interface

/-!
What is known of the members of an interface.

The comment of a method is made of whole comment lines of its member, so it is hidden wherever it is
written out before a line feed (`RpcInterface.hidden_docComment`).
-/

namespace RpcBindings

open Masked

/-! ## Comments -/

theorem hidden_comments {ls : List (List Char)}
    (h : ∀ l ∈ ls, Text.isComment l = true ∧ '\n' ∉ l) : Hidden (ls.flatMap (· ++ ['\n'])) := by
  induction ls with
  | nil => exact hidden_nil
  | cons l ls ih =>
    obtain ⟨hcomment, hline⟩ := h l List.mem_cons_self
    rw [List.flatMap_cons]
    exact (hidden_comment hcomment hline).append (ih fun l' hl' => h l' (List.mem_cons_of_mem l hl'))

/-- A comment that is read off a member consists of comment lines. -/
theorem RpcMethod.exists_lines_leadingComment {text : List Char} {comment : String}
    (h : leadingComment? text = some comment) :
    ∃ ls : List (List Char), comment.toList ++ ['\n'] = ls.flatMap (· ++ ['\n']) ∧
      ∀ l ∈ ls, Text.isComment l = true ∧ '\n' ∉ l := by
  unfold leadingComment? at h
  extract_lets lines at h
  split at h
  · exact absurd h (by simp)
  · rename_i ls hne
    obtain rfl := Option.some.inj h
    refine ⟨lines.takeWhile Text.isComment, ?_, fun l hl => ?_⟩
    · rw [String.toList_ofList]
      cases hcases : lines.takeWhile Text.isComment with
      | nil => exact absurd hcases hne
      | cons l ls => exact Text.joinLines_append_newline
    · refine ⟨List.all_eq_true.1 List.all_takeWhile l hl, ?_⟩
      have hmem : l ∈ (Text.lines text).map Text.trim :=
        (List.dropWhile_sublist _).subset ((List.takeWhile_sublist _).subset hl)
      obtain ⟨line, hline, rfl⟩ := List.mem_map.1 hmem
      exact fun hnewline => Text.not_mem_lines hline (Text.mem_of_mem_trim hnewline)

namespace RpcMethod

variable {options : InterfaceOptions} {nspace : String} {m : RpcMethod}

/-- What a method of a trait has and says, where it is read as an RPC method. -/
theorem ofMethod_eq_ok {docComment? : Option String} {t : Rust.TraitMethod}
    (h : ofMethod options nspace docComment? t = .ok m) :
    t.hasBody = false ∧ ∃ wireName params output,
      Schema.wireName? t.attributes = some wireName ∧
      paramsOf t.signature.params = .ok params ∧ t.signature.output = some output ∧
      m = ⟨docComment?, wireName, Rust.plainName t.signature.name,
        Namespace.strip (Casing.upperCamel (Rust.plainName t.signature.name)) nspace, params,
        .ofRust (unwrap options.wrappers output)⟩ := by
  unfold ofMethod at h
  simp only [bind, Except.bind, pure, Except.pure] at h
  split at h
  · exact absurd h nofun
  rename_i hbody
  split at h
  case h_2 => exact absurd h nofun
  rename_i wireName hwire
  split at h
  · exact absurd h nofun
  rename_i params hparams
  split at h
  case h_2 => exact absurd h nofun
  rename_i output houtput
  exact ⟨Bool.eq_false_iff.2 hbody, wireName, params, output, hwire, hparams, houtput,
    (Except.ok.inj h).symm⟩

variable [Rust.ParserMessages]

/-- A member that is an RPC method is read as a method of a trait first. -/
theorem ofText_eq_found {text : List Char} (h : ofText options nspace text = .found m) :
    ∃ t, Rust.TraitMember.ofText? (.ofList text) = some (.method t) ∧
      ofMethod options nspace (leadingComment? text) t = .ok m := by
  unfold ofText at h
  extract_lets fragment at h
  split at h
  · exact absurd h nofun
  · exact absurd h nofun
  · rename_i t ht
    split at h
    · rename_i method hmethod
      exact ⟨t, ht, Outcome.found.inj h ▸ hmethod⟩
    · exact absurd h nofun

/-- A method keeps the comment that it is read with. -/
theorem docComment?_of_ofText {text : List Char} (h : ofText options nspace text = .found m) :
    m.docComment? = leadingComment? text := by
  obtain ⟨t, -, hmethod⟩ := ofText_eq_found h
  obtain ⟨-, _, _, _, -, -, -, rfl⟩ := ofMethod_eq_ok hmethod
  rfl

end RpcMethod

/-! ## Interfaces -/

variable [Rust.ParserMessages]

namespace Masked

/-- The `trait` at an offset is read as an interface. -/
def ReadsInterface (m : Masked) (options : InterfaceOptions) (i : Nat) (t : RpcInterface) : Prop :=
  m.wordAt "trait".toList i = true ∧ ∃ name opened closed,
    m.nameAfter? (i + "trait".length) = some name ∧
    m.findTopLevel? name.stop m.sourceSize '\x7b' = some opened ∧ m.closer? opened = some closed ∧
    t = m.interfaceBetween options (.ofList (m.spanText name)) (opened + 1) closed

theorem mem_interfacesFrom {m : Masked} {options : InterfaceOptions} {places : List Nat}
    {start : Nat} {t : RpcInterface} (hplaces : ∀ i ∈ places, m.wordAt "trait".toList i = true)
    (h : t ∈ m.interfacesFrom options places start) : ∃ i, m.ReadsInterface options i t := by
  induction places generalizing start with
  | nil => exact absurd h List.not_mem_nil
  | cons i places ih =>
    have hlater := fun j hj => hplaces j (List.mem_cons_of_mem i hj)
    rw [interfacesFrom] at h
    split at h
    · exact ih hlater h
    · cases hname : m.nameAfter? (i + "trait".length) with
      | none =>
        simp only [hname] at h
        exact ih hlater h
      | some name =>
        cases hopened : m.findTopLevel? name.stop m.sourceSize '\x7b' with
        | none =>
          simp only [hname, hopened] at h
          exact absurd h List.not_mem_nil
        | some opened =>
          cases hclosed : m.closer? opened with
          | none =>
            simp only [hname, hopened, hclosed] at h
            exact absurd h List.not_mem_nil
          | some closed =>
            simp only [hname, hopened, hclosed] at h
            rcases List.mem_cons.1 h with rfl | h
            · exact ⟨i, hplaces i List.mem_cons_self, name, opened, closed, hname, hopened,
                hclosed, rfl⟩
            · exact ih hlater h

end Masked

/-- The comment of a method of an interface consists of comment lines. -/
theorem RpcInterface.exists_lines_docComment {options : InterfaceOptions} {source : String}
    {i : RpcInterface} (hi : i ∈ readAll options source) {m : RpcMethod}
    (hm : .found m ∈ i.members) {comment : String} (h : m.docComment? = some comment) :
    ∃ ls : List (List Char), comment.toList ++ ['\n'] = ls.flatMap (· ++ ['\n']) ∧
      ∀ l ∈ ls, Text.isComment l = true ∧ '\n' ∉ l := by
  obtain ⟨_, -, _, _, _, -, -, -, rfl⟩ :=
    mem_interfacesFrom (fun j hj => (mem_wordStarts.1 hj).2) hi
  obtain ⟨text, -, htext⟩ := List.mem_map.1 hm
  rw [RpcMethod.docComment?_of_ofText htext] at h
  exact RpcMethod.exists_lines_leadingComment h

/-- The comment of a method of an interface is hidden on the lines before the method. -/
theorem RpcInterface.hidden_docComment {options : InterfaceOptions} {source : String}
    {i : RpcInterface} (hi : i ∈ readAll options source) {m : RpcMethod}
    (hm : .found m ∈ i.members) {comment : String} (h : m.docComment? = some comment) :
    Hidden (comment.toList ++ ['\n']) := by
  obtain ⟨ls, hlines, hcomments⟩ := exists_lines_docComment hi hm h
  rw [hlines]
  exact hidden_comments hcomments

end RpcBindings
