import Mathlib.Data.List.TakeWhile
import RpcBindings.Go.Struct
import RpcBindings.Go.Stub
import RpcBindings.Proofs.Text.Bytes

/-!
String literals of Go.

An interpreted literal denotes the bytes of its elements, characters and escapes, and a raw literal
the characters between its back quotes. Stubs and structs write names between quotes as they are. Main
statement: the literals denote these names exactly where no character has a meaning of its own
(`Go.literals_denote_iff`).
-/

namespace RpcBindings.Go

open Text

/-! ## Interpreted literals -/

/-- A character that stands for itself between double quotes. -/
def isPlain (c : Char) : Bool :=
  c != '"' && c != '\\' && c != '\n'

/-- The byte of an escape of one letter. -/
def letterEscape? : Char → Option UInt8
  | 'a' => some 7
  | 'b' => some 8
  | 't' => some 9
  | 'n' => some 10
  | 'v' => some 11
  | 'f' => some 12
  | 'r' => some 13
  | '"' => some 34
  | '\\' => some 92
  | _ => none

/-- The number that digits of a base stand for behind others. -/
def numeral? (base : Nat) : Nat → List Char → Option Nat
  | n, [] => some n
  | n, c :: cs =>
    match Rust.Literal.hexDigit? c with
    | some d => if d < base then numeral? base (base * n + d) cs else none
    | none => none

/-- An element of an interpreted literal and the bytes it denotes. -/
inductive Element : List Char → List UInt8 → Prop where
  | plain {c : Char} (h : isPlain c = true) : Element [c] (String.utf8EncodeChar c)
  | letter {c : Char} {b : UInt8} (h : letterEscape? c = some b) : Element ['\\', c] [b]
  | octal {digits : List Char} {n : Nat} (hlength : digits.length = 3)
      (h : numeral? 8 0 digits = some n) (hn : n < 256) : Element ('\\' :: digits) [.ofNat n]
  | hexadecimal {digits : List Char} {n : Nat} (hlength : digits.length = 2)
      (h : numeral? 16 0 digits = some n) : Element ('\\' :: 'x' :: digits) [.ofNat n]
  | codePoint {mark : Char} {digits : List Char} {n : Nat}
      (hlength : mark = 'u' ∧ digits.length = 4 ∨ mark = 'U' ∧ digits.length = 8)
      (h : numeral? 16 0 digits = some n) (hn : n.isValidChar) :
      Element ('\\' :: mark :: digits) (String.utf8EncodeChar (.ofNat n))

/-- Elements one after another. -/
inductive Elements : List Char → List UInt8 → Prop where
  | nil : Elements [] []
  | cons {e cs : List Char} {v bs : List UInt8} (h : Element e v) (rest : Elements cs bs) :
      Elements (e ++ cs) (v ++ bs)

/-- An interpreted literal and the bytes it denotes. -/
def Interpreted (literal : List Char) (value : List UInt8) : Prop :=
  ∃ body, literal = '"' :: (body ++ ['"']) ∧ Elements body value

theorem ne_quote_of_isPlain {c : Char} (h : isPlain c = true) : c ≠ '"' := by
  rintro rfl
  exact absurd h (by decide)

theorem length_utf8EncodeChar_le (c : Char) : (String.utf8EncodeChar c).length ≤ 4 := by
  rw [String.length_utf8EncodeChar]
  exact c.utf8Size_le_four

/-- A quote is no digit. -/
theorem not_mem_of_numeral? {base n k : Nat} {digits : List Char}
    (h : numeral? base n digits = some k) : '"' ∉ digits := by
  induction digits generalizing n with
  | nil => exact List.not_mem_nil
  | cons c digits ih =>
    rw [numeral?] at h
    cases hdigit : Rust.Literal.hexDigit? c with
    | none => rw [hdigit] at h; exact absurd h nofun
    | some d =>
      rw [hdigit] at h
      simp only at h
      split at h
      · intro hmem
        rcases List.mem_cons.1 hmem with rfl | hmem
        · rw [show Rust.Literal.hexDigit? '"' = none by decide] at hdigit
          exact absurd hdigit nofun
        · exact ih h hmem
      · exact absurd h nofun

/-- An escape is longer than the bytes it denotes. -/
theorem Element.plain_or_length_lt {e : List Char} {v : List UInt8} (h : Element e v) :
    (∃ c, isPlain c = true ∧ e = [c] ∧ v = bytes [c]) ∨ v.length < byteLength e := by
  have hlong {e : List Char} {v : List UInt8} (h : v.length < e.length) : v.length < byteLength e :=
    Nat.lt_of_lt_of_le h (length_le_byteLength e)
  cases h with
  | @plain c h => exact .inl ⟨c, h, rfl, (List.append_nil _).symm⟩
  | letter => exact .inr (hlong (Nat.lt_succ_self 1))
  | octal hlength => exact .inr (hlong (by simp [hlength]))
  | hexadecimal hlength => exact .inr (hlong (by simp [hlength]))
  | @codePoint mark digits n hlength =>
    have := length_utf8EncodeChar_le (.ofNat n)
    refine .inr (hlong ?_)
    rw [List.length_cons, List.length_cons]
    rcases hlength with ⟨-, h⟩ | ⟨-, h⟩ <;> omega

theorem Elements.length_le {cs : List Char} {bs : List UInt8} (h : Elements cs bs) :
    bs.length ≤ byteLength cs := by
  induction h with
  | nil => exact Nat.le_refl _
  | cons h _ ih =>
    rw [List.length_append, byteLength_append]
    rcases h.plain_or_length_lt with ⟨c, -, rfl, rfl⟩ | hlt
    · rw [length_bytes]
      omega
    · omega

/-- Elements that are no shorter in bytes than in text are characters that stand for themselves. -/
theorem Elements.isPlain_of_length {cs : List Char} {bs : List UInt8} (h : Elements cs bs)
    (hlength : byteLength cs ≤ bs.length) : ∀ c ∈ cs, isPlain c = true := by
  induction h with
  | nil => exact fun c hc => absurd hc List.not_mem_nil
  | cons h rest ih =>
    rw [List.length_append, byteLength_append] at hlength
    have hrest := rest.length_le
    rcases h.plain_or_length_lt with ⟨d, hd, rfl, rfl⟩ | hlt
    · rw [length_bytes] at hlength
      intro c hc
      rcases List.mem_append.1 hc with hc | hc
      · rw [List.mem_singleton.1 hc]
        exact hd
      · exact ih (by omega) c hc
    · omega

theorem elements_bytes {cs : List Char} (h : ∀ c ∈ cs, isPlain c = true) :
    Elements cs (bytes cs) := by
  induction cs with
  | nil => exact .nil
  | cons c cs ih =>
    have := Elements.cons (.plain (h c List.mem_cons_self))
      (ih fun d hd => h d (List.mem_cons_of_mem c hd))
    rwa [← bytes_cons] at this

theorem count_quote_bytes (cs : List Char) : (bytes cs).count 34 = cs.count '"' := by
  induction cs with
  | nil => rfl
  | cons c cs ih =>
    have hchar : (String.utf8EncodeChar c).count 34 = [c].count '"' := by
      by_cases hc : c = '"'
      · subst hc
        rfl
      · rw [List.count_eq_zero_of_not_mem (a := '"') (by simpa using Ne.symm hc)]
        refine List.count_eq_zero_of_not_mem fun hmem => hc ?_
        have hbytes : (34 : UInt8) ∈ bytes [c] := by simpa [bytes] using hmem
        obtain ⟨d, hd, hnarrow, hbyte⟩ := exists_of_mem_bytes hbytes (by decide)
        rw [← List.mem_singleton.1 hd]
        exact eq_of_toUInt8_eq hnarrow (by decide) hbyte
    rw [bytes_cons, List.count_append, ih, hchar, ← List.count_append, List.singleton_append]

/-- A quote in an element is escaped, so that it is one of the bytes. -/
theorem Element.count_quote_le {e : List Char} {v : List UInt8} (h : Element e v) :
    e.count '"' ≤ v.count 34 := by
  cases h with
  | plain h =>
    rw [List.count_eq_zero_of_not_mem]
    · exact Nat.zero_le _
    · exact fun hmem => ne_quote_of_isPlain h (List.mem_singleton.1 hmem).symm
  | @letter c b h =>
    by_cases hc : c = '"'
    · subst hc
      obtain rfl := Option.some.inj h
      decide
    · rw [List.count_eq_zero_of_not_mem (by simpa using Ne.symm hc)]
      exact Nat.zero_le _
  | octal _ h =>
    rw [List.count_eq_zero_of_not_mem (by simpa using not_mem_of_numeral? h)]
    exact Nat.zero_le _
  | hexadecimal _ h =>
    rw [List.count_eq_zero_of_not_mem (by simpa using not_mem_of_numeral? h)]
    exact Nat.zero_le _
  | @codePoint mark digits n hlength h =>
    have hmark : mark ≠ '"' := by
      rcases hlength with ⟨rfl, -⟩ | ⟨rfl, -⟩ <;> decide
    rw [List.count_eq_zero_of_not_mem (by simpa using ⟨hmark.symm, not_mem_of_numeral? h⟩)]
    exact Nat.zero_le _

theorem Elements.count_quote_le {cs : List Char} {bs : List UInt8} (h : Elements cs bs) :
    cs.count '"' ≤ bs.count 34 := by
  induction h with
  | nil => exact Nat.le_refl _
  | cons h _ ih =>
    rw [List.count_append, List.count_append]
    exact Nat.add_le_add h.count_quote_le ih

/-- Between quotes a text denotes its own bytes exactly when all of its characters stand for
themselves. -/
theorem interpreted_quoted_iff {cs : List Char} :
    Interpreted ('"' :: (cs ++ ['"'])) (bytes cs) ↔ ∀ c ∈ cs, isPlain c = true := by
  refine ⟨fun ⟨body, heq, hbody⟩ => ?_, fun h => ⟨cs, rfl, elements_bytes h⟩⟩
  obtain rfl := List.append_cancel_right (List.cons.inj heq).2
  exact hbody.isPlain_of_length (Nat.le_of_eq (length_bytes cs).symm)

/-- A literal that begins with the quote before a text and denotes the bytes of the text ends with
the quote behind it. -/
theorem eq_of_interpreted {cs literal later rest : List Char}
    (heq : '"' :: (cs ++ '"' :: later) = literal ++ rest) (h : Interpreted literal (bytes cs)) :
    literal = '"' :: (cs ++ ['"']) := by
  obtain ⟨body, rfl, hbody⟩ := h
  have heq : cs ++ '"' :: later = body ++ '"' :: rest := by
    simpa using heq
  rcases List.append_eq_append_iff.1 heq with ⟨more, rfl, hmore⟩ | ⟨more, hcs, hmore⟩
  · -- a quote of the body behind the text would be one of the bytes
    cases more with
    | nil => rw [List.append_nil]
    | cons d more =>
      obtain ⟨rfl, -⟩ := List.cons.inj hmore
      have hcount := hbody.count_quote_le
      rw [count_quote_bytes, List.count_append, List.count_cons_self] at hcount
      omega
  · -- a body that ends inside of the text is too short
    have hlength := hbody.length_le
    rw [length_bytes, hcs, byteLength_append] at hlength
    have hnil : more = [] := byteLength_eq_zero (by omega)
    rw [hcs, hnil, List.append_nil]

/-! ## Tags -/

/-- A raw literal and the characters it denotes: carriage returns are left out. -/
def Raw (literal value : List Char) : Prop :=
  ∃ body, literal = '\x60' :: (body ++ ['\x60']) ∧ '\x60' ∉ body ∧
    value = body.filter (· != '\r')

/-- The key that the format of a field gives it, its part before the first comma, when it has only
characters that keys may have. The format "-" leaves the field out. -/
def keyOf? (admits : Char → Bool) (format : List Char) : Option (List Char) :=
  let key := format.takeWhile (· != ',')
  if format = ['-'] || key.isEmpty || !key.all admits then none else some key

/-- A tag is a raw literal, and the interpreted literal behind its label gives the field a key. -/
def ReadsKey (admits : Char → Bool) (tag key : List Char) : Prop :=
  ∃ literal format, Raw tag ("json:".toList ++ literal) ∧ Interpreted literal (bytes format) ∧
    keyOf? admits format = some key

/-- The tag around a key. -/
def tagOf (key : List Char) : List Char :=
  '\x60' :: ("json:\"".toList ++ key ++ ['"', '\x60'])

/-- A character of a key that means the same in a tag. -/
def isTagChar (admits : Char → Bool) (c : Char) : Bool :=
  isPlain c && c != '\x60' && c != '\r' && c != ',' && admits c

theorem byteLength_le_of_sublist {a b : List Char} (h : a.Sublist b) :
    byteLength a ≤ byteLength b := by
  induction h with
  | slnil => exact Nat.le_refl _
  | cons c _ ih => exact Nat.le_trans ih (Nat.le_add_left _ _)
  | cons_cons c _ ih => exact Nat.add_le_add_left ih _

theorem eq_of_sublist_of_byteLength {a b : List Char} (h : a.Sublist b)
    (hlength : byteLength b ≤ byteLength a) : a = b := by
  induction h with
  | slnil => rfl
  | cons c h _ =>
    have hpos := c.utf8Size_pos
    have := byteLength_le_of_sublist h
    rw [byteLength_cons] at hlength
    omega
  | cons_cons c _ ih =>
    rw [byteLength_cons, byteLength_cons] at hlength
    rw [ih (by omega)]

theorem keyOf?_eq_some_iff {admits : Char → Bool} {format key : List Char} :
    keyOf? admits format = some key ↔ key = format.takeWhile (· != ',') ∧ format ≠ ['-'] ∧
      key ≠ [] ∧ key.all admits = true := by
  unfold keyOf?
  simp only
  split
  · rename_i h
    refine ⟨nofun, fun ⟨hkey, hformat, hne, hall⟩ => ?_⟩
    subst hkey
    simp [hformat, hne, hall] at h
  · rename_i h
    simp only [Bool.or_eq_true, decide_eq_true_eq, not_or, Bool.not_eq_true,
      List.isEmpty_eq_false_iff, Bool.not_eq_false'] at h
    obtain ⟨⟨hformat, hne⟩, hall⟩ := h
    refine ⟨fun heq => ?_, fun ⟨hkey, _⟩ => congrArg some hkey.symm⟩
    obtain rfl := Option.some.inj heq
    exact ⟨rfl, hformat, hne, hall⟩

theorem readsKey_tagOf {admits : Char → Bool} {key : List Char} (hne : key ≠ [])
    (hdash : key ≠ ['-']) (h : ∀ c ∈ key, isTagChar admits c = true) :
    ReadsKey admits (tagOf key) key := by
  unfold isTagChar at h
  simp only [Bool.and_eq_true, bne_iff_ne] at h
  have hfilter : key.filter (· != '\r') = key :=
    List.filter_eq_self.2 fun c hc => by simpa using (h c hc).1.1.2
  have htake : key.takeWhile (· != ',') = key :=
    List.takeWhile_eq_self_iff.2 fun c hc => by simpa using (h c hc).1.2
  refine ⟨'"' :: (key ++ ['"']), key, ⟨"json:\"".toList ++ key ++ ['"'], ?_, ?_, ?_⟩,
    interpreted_quoted_iff.2 fun c hc => (h c hc).1.1.1.1, keyOf?_eq_some_iff.2
      ⟨htake.symm, hdash, hne, List.all_eq_true.2 fun c hc => (h c hc).2⟩⟩
  · simp [tagOf]
  · intro hmem
    rcases List.mem_append.1 hmem with hmem | hmem
    · rcases List.mem_append.1 hmem with hmem | hmem
      · exact absurd hmem (by decide)
      · exact (h _ hmem).1.1.1.2 rfl
    · exact absurd hmem (by decide)
  · rw [List.filter_append, List.filter_append, hfilter]
    simp

/-- The body of a raw literal that begins where the tag around a key does ends no later. -/
theorem prefix_of_tagOf {key body later rest : List Char}
    (heq : tagOf key ++ later = '\x60' :: (body ++ ['\x60']) ++ rest) (hbody : '\x60' ∉ body) :
    body <+: "json:\"".toList ++ key ++ ['"'] := by
  have heq : "json:\"".toList ++ key ++ ['"'] ++ '\x60' :: later = body ++ '\x60' :: rest := by
    simpa [tagOf] using heq
  rcases List.append_eq_append_iff.1 heq with ⟨more, hmore, hlater⟩ | ⟨more, hmore, -⟩
  · cases more with
    | nil => exact ⟨[], by rw [hmore, List.append_nil, List.append_nil]⟩
    | cons d more =>
      obtain ⟨rfl, -⟩ := List.cons.inj hlater
      rw [hmore] at hbody
      exact absurd (List.mem_append_right _ List.mem_cons_self) hbody
  · exact ⟨more, hmore.symm⟩

/-- Where a tag is no longer than the one around a key and the key is read from it, no reading has
changed a text: none of them makes one longer. -/
theorem eq_of_readings {body inner format key : List Char}
    (hbody : body <+: "json:\"".toList ++ key ++ ['"'])
    (hvalue : "json:".toList ++ '"' :: (inner ++ ['"']) = body.filter (· != '\r'))
    (hinner : Elements inner (bytes format)) (hkey : key = format.takeWhile (· != ',')) :
    body = "json:\"".toList ++ key ++ ['"'] ∧ inner = key ∧ format = key := by
  obtain ⟨more, hmore⟩ := hbody
  have hcut : key.Sublist format := hkey ▸ List.takeWhile_sublist _
  have hdrop : ("json:".toList ++ '"' :: (inner ++ ['"'])).Sublist body :=
    hvalue ▸ List.filter_sublist
  have hwhole := congrArg byteLength hmore
  have hvalueLength := byteLength_le_of_sublist hdrop
  have hinnerLength := hinner.length_le
  have hkeyLength := byteLength_le_of_sublist hcut
  rw [length_bytes] at hinnerLength
  simp only [byteLength_append, byteLength_cons, byteLength_nil,
    show byteLength "json:\"".toList = 6 by decide, show byteLength "json:".toList = 5 by decide,
    show '"'.utf8Size = 1 by decide] at hwhole hvalueLength
  have hnil : more = [] := byteLength_eq_zero (by omega)
  rw [hnil, List.append_nil] at hmore
  have hsame : "json:".toList ++ '"' :: (inner ++ ['"']) = body := by
    refine eq_of_sublist_of_byteLength hdrop ?_
    simp only [byteLength_append, byteLength_cons, byteLength_nil,
      show byteLength "json:".toList = 5 by decide, show '"'.utf8Size = 1 by decide]
    omega
  exact ⟨hmore, by simpa using hsame.trans hmore,
    (eq_of_sublist_of_byteLength hcut (by omega)).symm⟩

/-- A tag that begins where the tag around a key does, and gives its field that key, is the tag
around the key, and every character of the key means the same in it. -/
theorem eq_of_readsKey {admits : Char → Bool} {key tag later rest : List Char}
    (heq : tagOf key ++ later = tag ++ rest) (h : ReadsKey admits tag key) :
    tag = tagOf key ∧ key ≠ [] ∧ key ≠ ['-'] ∧ ∀ c ∈ key, isTagChar admits c = true := by
  obtain ⟨literal, format, ⟨body, rfl, hbody, hvalue⟩, ⟨inner, rfl, hinner⟩, hformat⟩ := h
  obtain ⟨hkey, hdash, hne, hall⟩ := keyOf?_eq_some_iff.1 hformat
  obtain ⟨hwhole, rfl, rfl⟩ := eq_of_readings (prefix_of_tagOf heq hbody) hvalue hinner hkey
  have hplain := hinner.isPlain_of_length (Nat.le_of_eq (length_bytes format).symm)
  refine ⟨?_, hne, hdash, fun c hc => ?_⟩
  · rw [hwhole]
    simp [tagOf]
  · have hreturn : c ≠ '\r' := by
      have hmem : c ∈ body.filter (· != '\r') := by
        rw [← hvalue]
        simp [hc]
      simpa using (List.mem_filter.1 hmem).2
    have hcomma : c ≠ ',' := by
      rw [hkey] at hc
      simpa using List.mem_takeWhile_imp hc
    have hback : c ≠ '\x60' := by
      rintro rfl
      exact hbody (by simp [hwhole, hc])
    unfold isTagChar
    rw [hplain c hc, List.all_eq_true.1 hall c hc]
    simp [hreturn, hcomma, hback]

/-! ## Literals of stubs and structs -/

/-- A stub up to the result pointer, with the comma behind it. -/
def stubHead (s : ClientSettings) (table : TypeTable) (nspace : String) (m : RpcMethod) : String :=
  let params := stubParams s table m
  let result := stubResult params
  let doc := match m.docComment? with
    | none => ""
    | some comment => comment ++ "\n"
  doc ++ "func (" ++ s.receiver ++ " *" ++ s.typeName nspace ++ ") " ++ m.functionName ++ "(" ++
    ", ".intercalate (params.map fun p => p.name ++ " " ++ p.type.text) ++ ") (" ++ result ++ " " ++
    (table.resolve m.returnType).text ++ ", err error) \x7b\n\terr = " ++ s.receiver ++ "." ++
    s.coreField ++ "." ++ s.invoke ++ "(&" ++ result ++ ", "

/-- A text is the first argument behind the result pointer of a stub. -/
def IsFirstArgument (s : ClientSettings) (table : TypeTable) (nspace : String) (m : RpcMethod)
    (argument : List Char) : Prop :=
  ∃ c rest, (c = ',' ∨ c = ')') ∧
    (stubText s table nspace m).toList = (stubHead s table nspace m).toList ++ argument ++ c :: rest

/-- A struct up to the tag of its field at a place. -/
def rowHead (table : TypeTable) (r : Record) (i : Nat) (f : RecordField) : String :=
  let row (f : RecordField) := FieldRow.ofField table f
  let nameWidth := columnWidth (r.fields.map fun f => (row f).name)
  let typeWidth := columnWidth (r.fields.map fun f => (row f).type)
  docText "" r.docs ++ "type " ++ r.name ++ " struct \x7b\n" ++
    String.join ((r.fields.take i).map fun f =>
      docText "\t" f.docs ++ (row f).text nameWidth typeWidth) ++
    docText "\t" f.docs ++ "\t" ++ padTo nameWidth (row f).name ++ " " ++
    padTo typeWidth (row f).type ++ " "

/-- A text is the tag of the field of a struct at a place. -/
def IsTag (table : TypeTable) (r : Record) (i : Nat) (f : RecordField) (tag : List Char) : Prop :=
  ∃ rest, (structText table r).toList = (rowHead table r i f).toList ++ tag ++ '\n' :: rest

theorem toList_stubText_head (s : ClientSettings) (table : TypeTable) (nspace : String)
    (m : RpcMethod) : ∃ c rest, (c = ',' ∨ c = ')') ∧ (stubText s table nspace m).toList =
      (stubHead s table nspace m).toList ++ '"' :: (m.wireName.toList ++ '"' :: c :: rest) := by
  obtain ⟨c, rest, hc, hpassed⟩ : ∃ c rest, (c = ',' ∨ c = ')') ∧
      (String.join ((stubParams s table m).map fun p => ", " ++ p.name) ++ ")\n").toList =
        c :: rest := by
    cases stubParams s table m with
    | nil => exact ⟨')', ['\n'], .inr rfl, rfl⟩
    | cons p params =>
      refine ⟨',', ' ' :: (p.name ++ String.join (params.map fun p => ", " ++ p.name) ++
        ")\n").toList, .inl rfl, ?_⟩
      simp
  refine ⟨c, rest ++ "\treturn\n\x7d".toList, hc, ?_⟩
  rw [show c :: (rest ++ "\treturn\n\x7d".toList) = (c :: rest) ++ "\treturn\n\x7d".toList from rfl,
    ← hpassed]
  unfold stubText stubHead
  cases m.docComment? <;> simp

theorem toList_structText_row (table : TypeTable) {r : Record} {i : Nat} {f : RecordField}
    (h : r.fields[i]? = some f) : ∃ rest, (structText table r).toList =
      (rowHead table r i f).toList ++ (FieldRow.ofField table f).tag.toList ++ '\n' :: rest := by
  obtain ⟨hi, hf⟩ := List.getElem?_eq_some_iff.1 h
  have hfields : r.fields = r.fields.take i ++ f :: r.fields.drop (i + 1) := by
    rw [← hf, List.getElem_cons_drop, List.take_append_drop]
  unfold structText rowHead
  extract_lets row nameWidth typeWidth
  let cell (f : RecordField) : String := docText "\t" f.docs ++ (row f).text nameWidth typeWidth
  have hcells : String.join (r.fields.map cell) = String.join ((r.fields.take i).map cell) ++
      (cell f ++ String.join ((r.fields.drop (i + 1)).map cell)) := by
    rw [← String.join_cons, ← List.map_cons, ← String.join_append, ← List.map_append, ← hfields]
  refine ⟨(String.join ((r.fields.drop (i + 1)).map cell) ++ "\x7d").toList, ?_⟩
  rw [show String.join (r.fields.map fun f => docText "\t" f.docs ++
    (row f).text nameWidth typeWidth) = _ from hcells]
  simp only [cell, FieldRow.text, String.toList_append, List.append_assoc]
  rfl

/-- The first argument of a stub is a literal for the name on the wire exactly when every character of
the name stands for itself. -/
theorem denotes_wireName_iff (s : ClientSettings) (table : TypeTable) (nspace : String)
    (m : RpcMethod) :
    (∃ argument, IsFirstArgument s table nspace m argument ∧
        Interpreted argument (bytes m.wireName.toList)) ↔
      ∀ c ∈ m.wireName.toList, isPlain c = true := by
  obtain ⟨c, rest, hc, htext⟩ := toList_stubText_head s table nspace m
  constructor
  · rintro ⟨argument, ⟨d, later, -, hargument⟩, hdenotes⟩
    rw [htext, List.append_assoc] at hargument
    have hliteral := eq_of_interpreted (List.append_cancel_left hargument) hdenotes
    rw [hliteral] at hdenotes
    exact interpreted_quoted_iff.1 hdenotes
  · intro h
    refine ⟨_, ⟨c, rest, hc, ?_⟩, interpreted_quoted_iff.2 h⟩
    rw [htext]
    simp

/-- The tag of a field gives it the key that it is renamed to exactly when the key is neither
empty nor a dash and every character of it means the same in a tag. -/
theorem readsKey_rename_iff (table : TypeTable) (admits : Char → Bool) {r : Record} {i : Nat}
    {f : RecordField} (h : r.fields[i]? = some f) {key : String} (hkey : f.rename? = some key) :
    (∃ tag, IsTag table r i f tag ∧ ReadsKey admits tag key.toList) ↔
      key.toList ≠ [] ∧ key.toList ≠ ['-'] ∧ ∀ c ∈ key.toList, isTagChar admits c = true := by
  obtain ⟨rest, htext⟩ := toList_structText_row table h
  have htag : (FieldRow.ofField table f).tag.toList = tagOf key.toList := by
    unfold FieldRow.ofField tagOf
    rw [hkey]
    simp
  rw [htag] at htext
  constructor
  · rintro ⟨tag, ⟨later, htagged⟩, hreads⟩
    rw [htext, List.append_assoc, List.append_assoc] at htagged
    exact (eq_of_readsKey (List.append_cancel_left htagged) hreads).2
  · rintro ⟨hne, hdash, hall⟩
    exact ⟨_, ⟨rest, htext⟩, readsKey_tagOf hne hdash hall⟩

/-- Names are written between quotes as they are. So the first argument of a stub denotes the name of
its method exactly when no character of it is a quote, a backslash or a line feed, and the tag of a
field gives it the key that it is renamed to exactly when the key is neither empty nor a dash, and no
character of it is one of these, a back quote, a carriage return, a comma or one that keys may not
have. -/
theorem literals_denote_iff (s : ClientSettings) (table : TypeTable) (nspace : String)
    (admits : Char → Bool) :
    (∀ m : RpcMethod, (∃ argument, IsFirstArgument s table nspace m argument ∧
        Interpreted argument (bytes m.wireName.toList)) ↔
      ∀ c ∈ m.wireName.toList, c ≠ '"' ∧ c ≠ '\\' ∧ c ≠ '\n') ∧
    ∀ (r : Record) (i : Nat) (f : RecordField) (key : String), r.fields[i]? = some f →
      f.rename? = some key →
      ((∃ tag, IsTag table r i f tag ∧ ReadsKey admits tag key.toList) ↔
        key ≠ "" ∧ key ≠ "-" ∧ ∀ c ∈ key.toList, (c ≠ '"' ∧ c ≠ '\\' ∧ c ≠ '\n') ∧
          c ≠ '\x60' ∧ c ≠ '\r' ∧ c ≠ ',' ∧ admits c = true) := by
  refine ⟨fun m => ?_, fun r i f key hi hkey => ?_⟩
  · rw [denotes_wireName_iff]
    simp only [isPlain, Bool.and_eq_true, bne_iff_ne, and_assoc]
  · rw [readsKey_rename_iff table admits hi hkey]
    simp only [isTagChar, isPlain, Bool.and_eq_true, bne_iff_ne, and_assoc, ne_eq,
      ← String.toList_inj]
    rfl

/-- A method and a field with names that stand for themselves. -/
theorem literals_denote_height :
    let m : RpcMethod := ⟨none, "eth_height", "height", "Height", [], .scalar "u64"⟩
    let f : RecordField := ⟨"height", .scalar "u64", [], some "block-height"⟩
    let r : Record := ⟨"Block", [], [f]⟩
    (∃ argument, IsFirstArgument {} .standard "Eth" m argument ∧
        Interpreted argument (bytes m.wireName.toList)) ∧
      r.fields[0]? = some f ∧ f.rename? = some "block-height" ∧
      ∃ tag, IsTag .standard r 0 f tag ∧
        ReadsKey (fun c => c.isAlphanum || c == '-') tag "block-height".toList := by
  intro m f r
  have h := literals_denote_iff {} .standard "Eth" fun c => c.isAlphanum || c == '-'
  exact ⟨(h.1 m).2 (by decide), rfl, rfl,
    (h.2 r 0 f "block-height" rfl rfl).2 ⟨by decide, by decide, by decide⟩⟩

/-- A method and a field whose names have a quote in them. -/
def quoteSchema : String :=
  "trait T \x7b\n    #[rpc(name = \"a\\\"b\")]\n    fn a(&self) -> u8;\n\x7d\n" ++
    "pub struct A \x7b #[serde(rename = \"a\\\"b\")] pub x: u8 \x7d\n"

/-- No literal of Go in their stub and in their struct denotes such names. -/
theorem quoteSchema_not_denoted :
    (∃ m, .found m ∈ (RpcInterface.readAll ⟨none, []⟩ quoteSchema).flatMap (·.members) ∧
      ¬∃ argument, IsFirstArgument {} .standard "T" m argument ∧
        Interpreted argument (bytes m.wireName.toList)) ∧
    ∃ r f key, .found r ∈ Record.readAll quoteSchema ∧ r.fields[0]? = some f ∧
      f.rename? = some key ∧
      ¬∃ tag, IsTag .standard r 0 f tag ∧ ReadsKey (fun _ => true) tag key.toList := by
  have hmethods : (RpcInterface.readAll ⟨none, []⟩ quoteSchema).flatMap (·.members) =
      [.found ⟨none, "a\"b", "a", "A", [], .scalar "u8"⟩] := by decide +kernel
  have hrecords : Record.readAll quoteSchema =
      [.found ⟨"A", [], [⟨"x", .scalar "u8", [], some "a\"b"⟩]⟩] := by decide +kernel
  refine ⟨⟨_, hmethods ▸ List.mem_singleton_self _, fun hdenotes => ?_⟩,
    ⟨_, _, _, hrecords ▸ List.mem_singleton_self _, rfl, rfl, fun hreads => ?_⟩⟩
  · have hplain := (denotes_wireName_iff _ _ _ _).1 hdenotes
    exact absurd (hplain '"' (by decide)) (by decide)
  · have hplain := ((readsKey_rename_iff _ _ rfl rfl).1 hreads).2.2
    exact absurd (hplain '"' (by decide)) (by decide)

end RpcBindings.Go
