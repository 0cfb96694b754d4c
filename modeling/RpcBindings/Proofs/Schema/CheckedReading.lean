import RpcBindings.Proofs.Go.ClauseCut
import RpcBindings.Proofs.Masked.SafeIndex
import RpcBindings.Proofs.Schema.Fragment
import RpcBindings.Schema.Interface

/-!
Reading a schema with every access checked.

The readers cut where their searches say, and a cut in the wrong place is moved to the end of a character.
Here they are written once more so that each cut is refused unless it lies between two characters of the
text, and each walk over the bytes unless it stays inside them. Main statement: for no source is anything
refused, and what is read is the same (`safeIndices_checked`).
-/

namespace RpcBindings

namespace Checked

open Masked

/-! ## Accesses -/

/-- The source between two offsets, when it can be cut there. -/
def slice (m : Masked) (start stop : Nat) : Option (List Char) :=
  Text.cut? start stop m.source

def spanText (m : Masked) (s : Span) : Option (List Char) :=
  slice m s.start s.stop

/-- Whether there is no code between two offsets at which the masked copy can be cut. -/
def isBlank (m : Masked) (start stop : Nat) : Option Bool :=
  (Text.cut? start stop m.code).map Text.allBlank

/-- Where the line begins that holds an offset at which the masked copy can be cut. -/
def lineStart (m : Masked) (i : Nat) : Option Nat :=
  (Text.takeBytes? i m.code).map fun before => lineStartFrom 0 0 (Text.bytes before)

/-- The first place of a byte at top level between two offsets that the masked copy has. -/
def findTopLevel (m : Masked) (start stop : Nat) (target : Char) : Option (Option Nat) :=
  if stop ≤ m.size then some (m.findTopLevel? start stop target) else none

/-- The statements between two offsets that the masked copy has. -/
def splitStatements (m : Masked) (start stop : Nat) : Option (List Span) :=
  if stop ≤ m.size then
    let r := statementsFrom 0 start start (m.byteSlice start stop)
    (isBlank m r.2 stop).map fun blank => if blank then r.1 else r.1 ++ [⟨r.2, stop⟩]
  else none

theorem lineStart_eq_some {m : Masked} {i j : Nat} (h : lineStart m i = some j) :
    j = m.lineStart i := by
  obtain ⟨before, hbefore, rfl⟩ := Option.map_eq_some_iff.1 h
  obtain ⟨rest, hcode, rfl⟩ := Text.takeBytes?_eq_some_iff.1 hbefore
  unfold Masked.lineStart
  rw [m.bytes_eq, hcode, Text.take_bytes_append]

/-! ## Records -/

/-- The start of the comment and attribute lines directly above a line that starts at `start`. -/
def decorationFrom (m : Masked) (start : Nat) : Option Nat :=
  if hzero : start = 0 then some start
  else
    (lineStart m (start - 1)).pbind fun above habove =>
      have : above < start := by
        have := lineStart_eq_some habove
        have := m.lineStart_le (start - 1)
        omega
      (slice m above start).bind fun line =>
        if isDecoration (Text.trim line) then decorationFrom m above else some start
termination_by start

def decorationStart (m : Masked) (i : Nat) : Option Nat :=
  (lineStart m i).bind (decorationFrom m)

/-- Where a `struct` at an offset ends, and why it is not read when it is known already. -/
def structEnd (m : Masked) (i : Nat) : Option (Nat × Option SkipReason) := do
  let opened? ← findTopLevel m i m.sourceSize '\x7b'
  let semicolon? ← findTopLevel m i m.sourceSize ';'
  return match opened?, semicolon? with
    | some opened, none => structEnd.body m opened
    | some opened, some semicolon =>
      if opened < semicolon then structEnd.body m opened
      else (semicolon + 1, some .tupleOrUnitStruct)
    | none, some semicolon => (semicolon + 1, some .tupleOrUnitStruct)
    | none, none => (m.sourceSize, some .noStructBody)

/-- The name that follows an offset, if one does. -/
def nameText (m : Masked) (i : Nat) : Option (Option String) :=
  match m.nameAfter? i with
  | none => some none
  | some s => (spanText m s).map fun text => some (String.ofList text)

/-- What became of the `struct` at an offset that ends at another. -/
def recordAt (m : Masked) (i stop : Nat) (reason? : Option SkipReason) : Option (Outcome Record) := do
  let start ← decorationStart m i
  let text ← slice m start stop
  let subject? ← nameText m (i + "struct".length)
  let fragment := String.ofList text
  let skip (reason : SkipReason) : Outcome Record :=
    .skipped ⟨.record, subject?, reason, fragment⟩
  return match reason? with
    | some reason => skip reason
    | none =>
      match Record.ofText fragment with
      | .ok record => .found record
      | .error reason => skip reason

/-- What became of the declarations among some places of `struct`, those before an offset left out. -/
def recordsFrom (m : Masked) : List Nat → Nat → Option (List (Outcome Record))
  | [], _ => some []
  | i :: rest, start =>
    if i < start then recordsFrom m rest start
    else do
      let e ← structEnd m i
      let record ← recordAt m i e.1 e.2
      let later ← recordsFrom m rest e.1
      return record :: later

/-- What became of every struct of a schema, in order. -/
def records (source : String) : Option (List (Outcome Record)) :=
  let m := ofSource .rust source.toList
  recordsFrom m (m.wordStarts "struct") 0

/-! ## Interfaces -/

/-- The texts of the members that some statements hold. -/
def textsOf (m : Masked) : List Span → Option (List (List Char))
  | [] => some []
  | s :: rest => do
    let blank ← isBlank m s.start s.stop
    let later ← textsOf m rest
    if blank then return later
    else return (← spanText m s) :: later

/-- The interface with a name whose members stand between two offsets. -/
def interfaceBetween (m : Masked) (options : InterfaceOptions) (name : String) (start stop : Nat) :
    Option RpcInterface := do
  let statements ← splitStatements m start stop
  let texts ← textsOf m statements
  let nspace := options.nspace?.getD (Namespace.ofInterface name)
  return ⟨name, nspace, texts.map (RpcMethod.ofText options nspace)⟩

/-- The interfaces among some places of `trait`, those before an offset left out. -/
def interfacesFrom (m : Masked) (options : InterfaceOptions) :
    List Nat → Nat → Option (List RpcInterface)
  | [], _ => some []
  | i :: rest, start =>
    if i < start then interfacesFrom m options rest start
    else match m.nameAfter? (i + "trait".length) with
      | none => interfacesFrom m options rest (i + "trait".length)
      | some name => do
        let text ← spanText m name
        match ← findTopLevel m name.stop m.sourceSize '\x7b' with
        | none => return []
        | some opened =>
          match m.closer? opened with
          | none => return []
          | some closed =>
            let interface ← interfaceBetween m options (.ofList text) (opened + 1) closed
            let later ← interfacesFrom m options rest (closed + 1)
            return interface :: later

/-- The interfaces of a schema, in order. -/
def interfaces (options : InterfaceOptions) (source : String) : Option (List RpcInterface) :=
  let m := ofSource .rust source.toList
  interfacesFrom m options (m.wordStarts "trait") 0

/-! ## Nothing is refused -/

variable {m : Masked} {lang : SourceLang} {source : List Char} {start stop i : Nat}

theorem slice_eq_some (hstart : Text.IsBoundary m.source start) (hstop : Text.IsBoundary m.source stop)
    (hle : start ≤ stop) : slice m start stop = some (m.slice start stop) :=
  Text.cut?_of_isBoundary hstart hstop hle

theorem isBlank_eq_some (hstart : Text.IsBoundary m.code start) (hstop : Text.IsBoundary m.code stop)
    (hle : start ≤ stop) : isBlank m start stop = some (m.isBlank start stop) := by
  unfold isBlank
  rw [Text.cut?_of_isBoundary hstart hstop hle]
  rfl

theorem lineStart_of_isBoundary (h : Text.IsBoundary m.code i) :
    lineStart m i = some (m.lineStart i) := by
  obtain ⟨before, rest, hcode, hi⟩ := h
  have htake : Text.takeBytes? i m.code = some before :=
    Text.takeBytes?_eq_some_iff.2 ⟨rest, hcode, hi⟩
  have hsome : lineStart m i = some (lineStartFrom 0 0 (Text.bytes before)) := by
    unfold lineStart
    rw [htake]
    rfl
  rw [hsome, lineStart_eq_some hsome]

theorem findTopLevel_eq_some (h : stop ≤ m.size) (target : Char) :
    findTopLevel m start stop target = some (m.findTopLevel? start stop target) :=
  if_pos h

theorem findTopLevel_sourceSize (start : Nat) (target : Char) :
    findTopLevel (ofSource lang source) start (ofSource lang source).sourceSize target =
      some ((ofSource lang source).findTopLevel? start (ofSource lang source).sourceSize target) :=
  findTopLevel_eq_some (sourceSize_le_size lang source) target

/-- The walk over comments and attributes cuts whole lines. -/
theorem decorationFrom_eq_some (h : (ofSource lang source).IsLineStart start) :
    decorationFrom (ofSource lang source) start =
      some ((ofSource lang source).decorationFrom start) := by
  induction start using Nat.strongRecOn with
  | ind start ih =>
    cases start with
    | zero =>
      rw [decorationFrom, dif_pos rfl, Masked.decorationFrom, dif_pos rfl]
    | succ k =>
      have hk : (ofSource lang source).bytes[k]? = some '\n'.toUInt8 := by
        rcases h with h | ⟨n, hn, hbyte⟩
        · exact absurd h (Nat.succ_ne_zero k)
        · obtain rfl := Nat.succ.inj hn
          exact hbyte
      have habove := isLineStart_lineStart (ofSource lang source) k
      have hle := (ofSource lang source).lineStart_le k
      have hline := lineStart_of_isBoundary (cutsAt_of_byte hk (by decide) (by decide)).1.2
      have hslice := slice_eq_some habove.cutsAt.1 h.cutsAt.1 (show _ ≤ k + 1 by omega)
      rw [decorationFrom, dif_neg (Nat.succ_ne_zero k), decorationFrom_succ]
      refine Option.pbind_eq_some_iff.2 ⟨_, hline, ?_⟩
      rw [hslice, Option.bind_some]
      split
      · exact ih _ (by omega) habove
      · rfl

theorem decorationStart_eq_some (h : Text.IsBoundary (ofSource lang source).code i) :
    decorationStart (ofSource lang source) i =
      some ((ofSource lang source).decorationStart i) := by
  unfold decorationStart
  rw [lineStart_of_isBoundary h, Option.bind_some,
    decorationFrom_eq_some (isLineStart_lineStart _ i)]
  rfl

theorem spanText_nameAfter? {s : Span} (h : (ofSource lang source).nameAfter? i = some s) :
    spanText (ofSource lang source) s = some ((ofSource lang source).spanText s) := by
  obtain ⟨j, -, hj⟩ := Option.bind_eq_some_iff.1 h
  obtain ⟨hstart, hstop, hle⟩ := cutsAt_of_identAt? hj
  exact slice_eq_some hstart.1 hstop.1 hle

theorem nameText_eq_some (lang : SourceLang) (source : List Char) (i : Nat) :
    nameText (ofSource lang source) i = some (((ofSource lang source).nameAfter? i).map fun s =>
      String.ofList ((ofSource lang source).spanText s)) := by
  unfold nameText
  cases h : (ofSource lang source).nameAfter? i with
  | none => rfl
  | some s =>
    simp only [spanText_nameAfter? h]
    rfl

theorem structEnd_eq_some (source : List Char) (i : Nat) :
    structEnd (ofSource .rust source) i = some ((ofSource .rust source).structEnd i) := by
  unfold structEnd
  rw [findTopLevel_sourceSize, findTopLevel_sourceSize]
  rfl

/-- A struct ends at the end of the source, or behind a character of code. -/
theorem isBoundary_structEnd (source : List Char) (i : Nat) :
    Text.IsBoundary source ((ofSource .rust source).structEnd i).1 := by
  have hsize : Text.IsBoundary source (ofSource .rust source).sourceSize :=
    Text.isBoundary_byteLength source
  have hbody (opened : Nat) :
      Text.IsBoundary source (structEnd.body (ofSource .rust source) opened).1 := by
    unfold structEnd.body
    cases hclosed : (ofSource .rust source).closer? opened with
    | none => exact hsize
    | some closed => exact (cutsAt_of_closer? hclosed).2.1
  have hsemicolon {k : Nat}
      (h : (ofSource .rust source).findTopLevel? i (ofSource .rust source).sourceSize ';' = some k) :
      Text.IsBoundary source (k + 1) :=
    (cutsAt_of_findTopLevel? (by decide) (by decide) h).2.1
  unfold Masked.structEnd
  simp only
  split
  · exact hbody _
  · rename_i hk
    split
    · exact hbody _
    · exact hsemicolon hk
  · rename_i hk
    exact hsemicolon hk
  · exact hsize

theorem recordAt_eq_some {source : List Char} {i : Nat}
    (h : (ofSource .rust source).wordAt "struct".toList i = true) (reason? : Option SkipReason) :
    recordAt (ofSource .rust source) i ((ofSource .rust source).structEnd i).1 reason? =
      some ((ofSource .rust source).recordAt i ((ofSource .rust source).structEnd i).1 reason?) := by
  have hplace : (ofSource .rust source).CutsAt i :=
    cutsAt_of_standsAlone (by decide) (by decide) (standsAlone_iff.2 h)
  have hstart : (ofSource .rust source).CutsAt ((ofSource .rust source).decorationStart i) :=
    (isLineStart_decorationFrom (isLineStart_lineStart _ i)).cutsAt
  have hle : (ofSource .rust source).decorationStart i ≤ i :=
    Nat.le_trans (decorationFrom_le _ _) ((ofSource .rust source).lineStart_le i)
  have hlt := lt_structEnd (lt_sourceSize_of_wordAt h)
  have htext := slice_eq_some hstart.1 (isBoundary_structEnd source i) (by omega)
  unfold recordAt
  rw [decorationStart_eq_some hplace.2, nameText_eq_some, Option.bind_eq_bind, Option.bind_some, htext]
  rfl

theorem recordsFrom_eq_some {source : List Char} {places : List Nat}
    (h : ∀ i ∈ places, (ofSource .rust source).wordAt "struct".toList i = true) (start : Nat) :
    recordsFrom (ofSource .rust source) places start =
      some ((ofSource .rust source).recordsFrom places start) := by
  induction places generalizing start with
  | nil => rfl
  | cons i places ih =>
    have ih := ih fun k hk => h k (List.mem_cons_of_mem i hk)
    rw [recordsFrom, Masked.recordsFrom]
    split
    · exact ih start
    · rw [structEnd_eq_some, Option.bind_eq_bind, Option.bind_some,
        recordAt_eq_some (h i List.mem_cons_self), Option.bind_eq_bind, Option.bind_some, ih]
      rfl

theorem records_eq_some (source : String) : records source = some (Record.readAll source) :=
  recordsFrom_eq_some (fun _ hi => (mem_wordStarts.1 hi).2) 0

/-! ### Interfaces -/

theorem splitStatements_eq_some (hstart : (ofSource lang source).CutsAt start)
    (hstop : (ofSource lang source).CutsAt stop) (hle : start ≤ stop) :
    splitStatements (ofSource lang source) start stop =
      some ((ofSource lang source).splitStatements start stop) := by
  -- the last statement begins at the start or behind the end of another one
  obtain ⟨hlast, -, hle'⟩ := (laid_statementsFrom hle hstop.le_size).forall_ends
    (fun _ _ _ hend => ⟨cutsAt_of_endsStatement hend, cutsAt_of_endsStatement hend⟩) hstart hstop _
    (List.mem_append_right _ List.mem_cons_self)
  unfold splitStatements
  rw [if_pos hstop.le_size]
  simp only [isBlank_eq_some hlast.2 hstop.2 hle']
  rfl

theorem textsOf_eq_some {spans : List Span} (h : ∀ s ∈ spans, (ofSource lang source).CutsAt s.start ∧
    (ofSource lang source).CutsAt s.stop ∧ s.start ≤ s.stop) :
    textsOf (ofSource lang source) spans =
      some ((spans.filter fun s => !(ofSource lang source).isBlank s.start s.stop).map
        (ofSource lang source).spanText) := by
  induction spans with
  | nil => rfl
  | cons s spans ih =>
    obtain ⟨hstart, hstop, hle⟩ := h s List.mem_cons_self
    have hblank := isBlank_eq_some hstart.2 hstop.2 hle
    have htext : spanText (ofSource lang source) s = some ((ofSource lang source).spanText s) :=
      slice_eq_some hstart.1 hstop.1 hle
    rw [textsOf, hblank, ih fun x hx => h x (List.mem_cons_of_mem s hx), htext]
    cases hs : (ofSource lang source).isBlank s.start s.stop with
    | true =>
      rw [List.filter_cons_of_neg (by simp [hs])]
      rfl
    | false =>
      rw [List.filter_cons_of_pos (by simp [hs])]
      rfl

theorem interfaceBetween_eq_some (options : InterfaceOptions) (name : String)
    (hstart : (ofSource lang source).CutsAt start) (hstop : (ofSource lang source).CutsAt stop)
    (hle : start ≤ stop) :
    interfaceBetween (ofSource lang source) options name start stop =
      some ((ofSource lang source).interfaceBetween options name start stop) := by
  have htexts := textsOf_eq_some fun s hs => cutsAt_of_mem_splitStatements hstart hstop hle hs
  unfold interfaceBetween
  rw [splitStatements_eq_some hstart hstop hle, Option.bind_eq_bind, Option.bind_some, htexts]
  rfl

theorem interfacesFrom_eq_some (options : InterfaceOptions) (source : List Char) (places : List Nat)
    (start : Nat) :
    interfacesFrom (ofSource .rust source) options places start =
      some ((ofSource .rust source).interfacesFrom options places start) := by
  induction places generalizing start with
  | nil => rfl
  | cons i places ih =>
    rw [interfacesFrom, Masked.interfacesFrom]
    split
    · exact ih start
    · cases hname : (ofSource .rust source).nameAfter? (i + "trait".length) with
      | none => exact ih _
      | some name =>
        simp only [spanText_nameAfter? hname, findTopLevel_sourceSize, Option.bind_eq_bind,
          Option.bind_some]
        cases hopened : (ofSource .rust source).findTopLevel? name.stop
            (ofSource .rust source).sourceSize '\x7b' with
        | none => rfl
        | some opened =>
          simp only
          cases hclosed : (ofSource .rust source).closer? opened with
          | none => rfl
          | some closed =>
            have hstart := (cutsAt_of_findTopLevel? (by decide) (by decide) hopened).2
            have hstop := (cutsAt_of_closer? hclosed).1
            simp only [interfaceBetween_eq_some options _ hstart hstop (lt_of_closer? hclosed).1, ih,
              Option.bind_some]
            rfl

theorem interfaces_eq_some (options : InterfaceOptions) (source : String) :
    interfaces options source = some (RpcInterface.readAll options source) :=
  interfacesFrom_eq_some options source.toList _ 0

/-- Every search in a masked text ends at an offset at which the source and the masked copy can be cut,
also when a literal at the end is not terminated. So nothing is refused when a schema is read with every
access checked, and its records and interfaces are those that are read without checks. -/
theorem safeIndices_checked :
    (∀ lang source, (ofSource lang source).SafeIndices) ∧
      (∀ source, records source = some (Record.readAll source)) ∧
      ∀ options source, interfaces options source = some (RpcInterface.readAll options source) :=
  ⟨safeIndices_ofSource, records_eq_some, interfaces_eq_some⟩

/-- A schema that ends inside a literal, with a letter of two bytes. -/
def tornSchema : String :=
  "// é\npub struct A \x7b pub a: u8 \x7d\ntrait T \x7b fn f(); \x7d\nconst S: \"é"

theorem safeIndices_checked_tornSchema :
    (ofSource .rust tornSchema.toList).sourceSize < (ofSource .rust tornSchema.toList).size ∧
      (ofSource .rust tornSchema.toList).IsSafe 10 ∧
      records tornSchema = some [.found ⟨"A", [], [⟨"a", .scalar "u8", [], none⟩]⟩] := by
  obtain ⟨hsafe, hrecords, -⟩ := safeIndices_checked
  have hfound : (ofSource .rust tornSchema.toList).findWord "struct".toList 0 = some 10 := by
    decide +kernel
  have hread : Record.readAll tornSchema = [.found ⟨"A", [], [⟨"a", .scalar "u8", [], none⟩]⟩] := by
    decide +kernel
  have hplace := (hsafe .rust tornSchema.toList).word "struct".toList 0 10 (by decide) (by decide)
    (by decide) (cutsAt_zero _) hfound
  exact ⟨by decide +kernel, hplace, (hrecords tornSchema).trans (congrArg some hread)⟩

end Checked

end RpcBindings
