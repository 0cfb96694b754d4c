import RpcBindings.Go.ImportClause
import RpcBindings.Proofs.Masked.WordSearch

/-!
The search for the use of an import, round by round.

A round looks for the next place of the name and says where the one after it begins, unless it ends the
search (`nextRound?`). Every round moves on by at least the length of the name, so that a search with a
name of some characters ends. With the empty name it ends in its first round or never
(`searchesForever_iff`), and it has no answer exactly when it never ends (`selects?_eq_none_iff`). Main
statement: `usedImports?_eq_none_iff`.
-/

namespace RpcBindings

open Masked

namespace Masked

variable {m : Masked} {word : List Char} {start i : Nat}

/-! ## Rounds -/

/-- Where the next round of a search begins when the one from an offset does not end it. -/
def nextRound? (m : Masked) (word : List Char) (start : Nat) : Option Nat :=
  (m.findWord word start).bind fun i =>
    if m.isSelectedAt word i then none else some (i + Text.byteLength word)

/-- Where a round of a search begins, if the search comes to it. -/
def roundStart? (m : Masked) (word : List Char) (start : Nat) : Nat → Option Nat
  | 0 => some start
  | n + 1 => (m.nextRound? word start).bind fun next => m.roundStart? word next n

/-- The search for the use of a name comes to every round. -/
def SearchesForever (m : Masked) (name : String) : Prop :=
  ∀ n, ∃ start, m.roundStart? name.toList 0 n = some start

theorem roundStart?_succ {next : Nat} (h : m.nextRound? word start = some next) (n : Nat) :
    m.roundStart? word start (n + 1) = m.roundStart? word next n := by
  rw [roundStart?, h, Option.bind_some]

theorem wordHere_of_searchWord {word : List UInt8} {before : Option UInt8} {bs : List UInt8} {n : Nat}
    (h : searchWord word before bs = some n) :
    wordHere word (precedingByte before bs n) (bs.drop n) = true := by
  induction bs generalizing before n with
  | nil =>
    rw [searchWord] at h
    split at h
    · rename_i hhere
      rw [← Option.some.inj h]
      exact hhere
    · cases h
  | cons b bs ih =>
    have later (h : (searchWord word (some b) bs).map (· + 1) = some n) :
        wordHere word (precedingByte before (b :: bs) n) ((b :: bs).drop n) = true := by
      obtain ⟨k, hk, rfl⟩ := Option.map_eq_some_iff.1 h
      have := ih hk
      cases k <;> exact this
    rw [searchWord] at h
    split at h
    · split at h
      · rename_i hhere
        rw [← Option.some.inj h]
        exact hhere
      · split at h
        · cases h
        · exact later h
    · exact later h

/-- What a search finds stands whole at or behind its start. -/
theorem wordAt_of_findWord (h : m.findWord word start = some i) :
    start ≤ i ∧ m.wordAt word i = true := by
  unfold findWord at h
  split at h
  · obtain ⟨n, hn, rfl⟩ := Option.map_eq_some_iff.1 h
    have hword := wordHere_of_searchWord hn
    rw [precedingByte_drop, List.drop_drop] at hword
    exact ⟨Nat.le_add_right start n, hword⟩
  · cases h

/-- Where no character would have to be matched a search stops between characters. -/
theorem startsInside_of_searchWord_nil {before : Option UInt8} {bs : List UInt8} {n : Nat}
    (h : searchWord [] before bs = some n) (hbs : startsInside bs = false) :
    n ≤ bs.length ∧ startsInside (bs.drop n) = false := by
  induction bs generalizing before n with
  | nil =>
    rw [searchWord] at h
    split at h
    · rw [← Option.some.inj h]
      exact ⟨Nat.le_refl 0, rfl⟩
    · cases h
  | cons b bs ih =>
    rw [searchWord, if_pos List.isPrefixOf_nil_left] at h
    split at h
    · rw [← Option.some.inj h]
      exact ⟨Nat.zero_le _, hbs⟩
    · split at h
      · cases h
      · rename_i hinside
        obtain ⟨k, hk, rfl⟩ := Option.map_eq_some_iff.1 h
        obtain ⟨hle, hdrop⟩ := ih hk (Bool.eq_false_iff.2 hinside)
        exact ⟨Nat.succ_le_succ hle, hdrop⟩

/-- A search with the empty name finds a place again when it begins there. -/
theorem findWord_nil_of_findWord_nil (h : m.findWord [] start = some i) :
    m.findWord [] i = some i := by
  have hword := (wordAt_of_findWord h).2
  have hstart := h
  unfold findWord at h
  split at h
  · rename_i hboundary
    obtain ⟨n, hn, rfl⟩ := Option.map_eq_some_iff.1 h
    unfold isBoundary at hboundary
    rw [Bool.and_eq_true, Bool.not_eq_true'] at hboundary
    obtain ⟨hlen, hinside⟩ := startsInside_of_searchWord_nil hn hboundary.2
    rw [List.drop_drop] at hinside
    rw [List.length_drop] at hlen
    have hle : start + n ≤ m.size := by
      have := m.le_size_of_findWord hstart
      unfold size at this ⊢
      omega
    have hboundary' : m.isBoundary (start + n) = true := by
      unfold isBoundary
      rw [decide_eq_true hle, hinside]
      rfl
    have hhere : searchWord (Text.bytes []) (m.byteBefore (start + n)) (m.bytes.drop (start + n)) =
        some 0 := by
      unfold wordAt at hword
      cases hrest : m.bytes.drop (start + n) with
      | nil =>
        rw [hrest] at hword
        exact if_pos hword
      | cons b bs =>
        rw [hrest] at hword
        rw [searchWord, Text.bytes_nil, if_pos List.isPrefixOf_nil_left]
        exact if_pos hword
    unfold findWord
    rw [if_pos hboundary', hhere]
    rfl
  · cases h

/-- The next round begins at least the length of the word behind this one. -/
theorem add_le_of_nextRound? {next : Nat} (h : m.nextRound? word start = some next) :
    start + Text.byteLength word ≤ next := by
  obtain ⟨i, hi, hnext⟩ := Option.bind_eq_some_iff.1 h
  have := (wordAt_of_findWord hi).1
  split at hnext
  · cases hnext
  · rw [← Option.some.inj hnext]
    omega

theorem le_size_of_nextRound? {next : Nat} (h : m.nextRound? word start = some next) :
    start ≤ m.size := by
  obtain ⟨i, hi, -⟩ := Option.bind_eq_some_iff.1 h
  exact m.le_size_of_findWord hi

/-! ## Answers -/

/-- A search whose round does not end it goes on with the next one, and has no answer when that is the
same one. -/
theorem selectsFrom?_of_nextRound? {next : Nat} (h : m.nextRound? word start = some next) :
    m.selectsFrom? word start = if start < next then m.selectsFrom? word next else none := by
  obtain ⟨i, hi, hnext⟩ := Option.bind_eq_some_iff.1 h
  rw [selectsFrom?]
  split
  · rename_i hnone
    cases hnone.symm.trans hi
  · rename_i j hj
    obtain rfl := Option.some.inj (hi.symm.trans hj)
    split at hnext
    · cases hnext
    · rename_i hselected
      obtain rfl := Option.some.inj hnext
      simp only [hselected, Bool.false_eq_true, if_false]

/-- A search whose round ends it has an answer. -/
theorem selectsFrom?_of_nextRound?_eq_none (h : m.nextRound? word start = none) :
    m.selectsFrom? word start = some (m.findWord word start).isSome := by
  rw [selectsFrom?]
  split
  · rename_i hnone
    rw [hnone]
    rfl
  · rename_i i hi
    unfold nextRound? at h
    rw [hi, Option.bind_some] at h
    split at h
    · rename_i hselected
      simp only [hselected, if_true, hi, Option.isSome_some]
    · cases h

/-- A search that finds a use has come to a place where the word stands whole and is selected from. -/
theorem exists_of_selectsFrom? (h : m.selectsFrom? word start = some true) :
    ∃ i, start ≤ i ∧ m.wordAt word i = true ∧ m.isSelectedAt word i = true := by
  generalize hk : m.size + 1 - start = k
  induction k using Nat.strongRecOn generalizing start with
  | ind k ih =>
    cases hnext : m.nextRound? word start with
    | none =>
      rw [selectsFrom?_of_nextRound?_eq_none hnext] at h
      obtain ⟨i, hi⟩ := Option.isSome_iff_exists.1 (Option.some.inj h)
      unfold nextRound? at hnext
      rw [hi, Option.bind_some] at hnext
      split at hnext
      · rename_i hselected
        exact ⟨i, (wordAt_of_findWord hi).1, (wordAt_of_findWord hi).2, hselected⟩
      · cases hnext
    | some next =>
      have hle := le_size_of_nextRound? hnext
      rw [selectsFrom?_of_nextRound? hnext] at h
      split at h
      · obtain ⟨i, hi, hplace⟩ := ih (m.size + 1 - next) (by omega) h rfl
        exact ⟨i, by omega, hplace⟩
      · cases h

/-- A character begins behind a word. -/
theorem isBoundary_behind_wordAt (hne : word ≠ [])
    (hword : ∀ b ∈ Text.bytes word, isWordByte b = true) (h : m.wordAt word i = true) :
    Text.IsBoundary m.code (i + Text.byteLength word) := by
  have hpos : 0 < (Text.bytes word).length := by
    refine List.length_pos_iff.2 fun hnil => hne ?_
    exact Text.bytes_injective (hnil.trans Text.bytes_nil.symm)
  have hlast : (Text.bytes word).length - 1 < (Text.bytes word).length := by omega
  have hbyte := getElem?_of_wordAt h (List.getElem?_eq_getElem hlast)
  rw [m.bytes_eq] at hbyte
  obtain ⟨before, c, after, hcode, hlen, hc, -⟩ :=
    Text.exists_split_of_ascii hbyte (lt_of_isWordByte (hword _ (List.getElem_mem hlast))).1
  refine ⟨before ++ [c], after, by rw [hcode, List.append_assoc]; rfl, ?_⟩
  rw [Text.byteLength_append, Text.byteLength_cons, Text.byteLength_nil, hc, hlen,
    ← Text.length_bytes word]
  omega

/-- The search for a word passes over all places where it is not selected from, and over no other. -/
theorem selectsFrom?_eq_some_true_iff (hne : word ≠ [])
    (hword : ∀ b ∈ Text.bytes word, isWordByte b = true) (hnarrow : ∀ c ∈ word, c.utf8Size = 1)
    (hstart : Text.IsBoundary m.code start) :
    m.selectsFrom? word start = some true ↔
      ∃ i, start ≤ i ∧ m.wordAt word i = true ∧ m.isSelectedAt word i = true := by
  refine ⟨exists_of_selectsFrom?, ?_⟩
  rintro ⟨i, hle, hplace, hselected⟩
  generalize hk : m.size + 1 - start = k
  induction k using Nat.strongRecOn generalizing start with
  | ind k ih =>
    have hfind := findWord_eq_head? hne hnarrow hstart
    have hmem := (mem_wordStartsFrom_drop hne).2 ⟨hle, standsAlone_iff.2 hplace⟩
    cases hstarts : wordStartsFrom (Text.bytes word) (m.byteBefore start) start
        (m.bytes.drop start) with
    | nil => exact absurd (hstarts ▸ hmem) List.not_mem_nil
    | cons j later =>
      rw [hstarts] at hfind hmem
      have hfound : m.findWord word start = some j := hfind
      have hj := (wordAt_of_findWord hfound).2
      cases hnext : m.nextRound? word start with
      | none =>
        rw [selectsFrom?_of_nextRound?_eq_none hnext, hfound]
        rfl
      | some next =>
        -- the place is another one than the first, and so it stands behind that
        obtain ⟨j', hj', hround⟩ := Option.bind_eq_some_iff.1 hnext
        obtain rfl := Option.some.inj (hfound.symm.trans hj')
        split at hround
        · cases hround
        · rename_i hother
          obtain rfl := Option.some.inj hround
          have hsorted := pairwise_wordStartsFrom (Text.bytes word) (m.byteBefore start) start
            (m.bytes.drop start)
          rw [hstarts] at hsorted
          have hlt : j < i := by
            rcases List.mem_cons.1 hmem with rfl | hmem
            · exact absurd hselected hother
            · exact List.rel_of_pairwise_cons hsorted hmem
          have hbehind := add_length_le_of_lt hword hj hplace hlt
          rw [Text.length_bytes] at hbehind
          have hle' := le_size_of_nextRound? hnext
          have hadvance : start < j + Text.byteLength word := by
            have := (wordAt_of_findWord hfound).1
            have hpos : 0 < Text.byteLength word :=
              Nat.pos_of_ne_zero fun hzero => hne (Text.byteLength_eq_zero hzero)
            omega
          rw [selectsFrom?_of_nextRound? hnext, if_pos hadvance]
          exact ih _ (by omega) (isBoundary_behind_wordAt hne hword hj) hbehind rfl

/-- From an offset on a search has no answer exactly when it comes to every round. -/
theorem selectsFrom?_eq_none_iff :
    m.selectsFrom? word start = none ↔ ∀ n, ∃ i, m.roundStart? word start n = some i := by
  generalize hk : m.size + 1 - start = k
  induction k using Nat.strongRecOn generalizing start with
  | ind k ih =>
    cases hnext : m.nextRound? word start with
    | none =>
      rw [selectsFrom?_of_nextRound?_eq_none hnext]
      refine iff_of_false (Option.some_ne_none _) fun h => ?_
      obtain ⟨i, hi⟩ := h 1
      rw [roundStart?, hnext, Option.bind_none] at hi
      cases hi
    | some next =>
      have hle := m.le_size_of_nextRound? hnext
      have hgrows := m.add_le_of_nextRound? hnext
      rw [selectsFrom?_of_nextRound? hnext]
      split
      · rename_i hlt
        rw [ih (m.size + 1 - next) (by omega) rfl]
        constructor
        · intro h n
          cases n with
          | zero => exact ⟨start, rfl⟩
          | succ n =>
            rw [roundStart?_succ hnext]
            exact h n
        · intro h n
          rw [← roundStart?_succ hnext]
          exact h (n + 1)
      · rename_i hlt
        obtain rfl : next = start := by omega
        refine iff_of_true rfl fun n => ⟨next, ?_⟩
        -- a round that begins where the one before did is followed by itself
        induction n with
        | zero => rfl
        | succ n ih => rw [roundStart?_succ hnext, ih]

/-- The search for the use of a name has no answer exactly when it never ends. -/
theorem selects?_eq_none_iff {name : String} :
    m.selects? name = none ↔ m.SearchesForever name :=
  selectsFrom?_eq_none_iff

/-- After so many rounds that do not end it a search has gone so many lengths of the word forward. -/
theorem add_mul_le_size_of_roundStart? {n : Nat} (h : m.roundStart? word start (n + 1) = some i) :
    start + n * Text.byteLength word ≤ m.size := by
  obtain ⟨next, hnext, hlater⟩ := Option.bind_eq_some_iff.1 h
  induction n generalizing start next with
  | zero =>
    have := le_size_of_nextRound? hnext
    omega
  | succ n ih =>
    have hgrows := add_le_of_nextRound? hnext
    obtain ⟨later, hlater', hrounds⟩ := Option.bind_eq_some_iff.1 hlater
    have := ih hlater later hlater' hrounds
    rw [Nat.succ_mul]
    omega

/-- A search with a name of some characters comes behind the end, and so it ends. -/
theorem eq_empty_of_searchesForever {name : String} (h : m.SearchesForever name) : name = "" := by
  by_contra hne
  have hpos : 0 < Text.byteLength name.toList := by
    refine Nat.pos_of_ne_zero fun hzero => hne ?_
    exact String.toList_injective (Text.byteLength_eq_zero hzero)
  obtain ⟨i, hi⟩ := h (m.size + 2)
  have hle := add_mul_le_size_of_roundStart? hi
  have := Nat.le_mul_of_pos_right (m.size + 1) hpos
  omega

/-- A search with the empty name stays where it is at the first place that does not end it. -/
theorem searchesForever_empty (hi : m.findWord [] 0 = some i) (hselected : m.isSelectedAt [] i = false) :
    m.SearchesForever "" := by
  have hround {start : Nat} (h : m.findWord [] start = some i) :
      m.nextRound? "".toList start = some i := by
    show (m.findWord [] start).bind (fun i => if m.isSelectedAt [] i then none else some i) = some i
    rw [h, Option.bind_some, hselected, if_neg Bool.false_ne_true]
  have hstays := hround (findWord_nil_of_findWord_nil hi)
  rw [← selects?_eq_none_iff]
  show m.selectsFrom? "".toList 0 = none
  rw [selectsFrom?_of_nextRound? (hround hi), selectsFrom?_of_nextRound? hstays,
    if_neg (Nat.lt_irrefl i), ite_self]

/-- A search never ends exactly when its name is empty and the first place that it comes to is not
directly before a dot. -/
theorem searchesForever_iff {name : String} :
    m.SearchesForever name ↔
      name = "" ∧ ∃ i, m.findWord [] 0 = some i ∧ m.isSelectedAt [] i = false := by
  constructor
  · intro h
    obtain rfl := eq_empty_of_searchesForever h
    obtain ⟨i, hi⟩ := h 1
    obtain ⟨next, hnext, -⟩ := Option.bind_eq_some_iff.1 hi
    obtain ⟨j, hj, hround⟩ := Option.bind_eq_some_iff.1 hnext
    refine ⟨rfl, j, hj, ?_⟩
    split at hround
    · cases hround
    · rename_i hselected
      exact Bool.eq_false_iff.2 hselected
  · rintro ⟨rfl, i, hi, hselected⟩
    exact searchesForever_empty hi hselected

/-- In code that begins with a blank the search for the empty name never ends. -/
theorem searchesForever_of_blank {rest : List Char} (h : m.code = ' ' :: rest) :
    m.SearchesForever "" := by
  have hbytes : m.bytes = ' '.toUInt8 :: Text.bytes rest := by
    rw [m.bytes_eq, h, Text.bytes_cons_of_narrow (by decide)]
  refine searchesForever_iff.2 ⟨rfl, 0, ?_, ?_⟩
  · have hboundary : m.isBoundary 0 = true := by
      unfold isBoundary
      rw [hbytes]
      rfl
    unfold findWord
    rw [if_pos hboundary, hbytes]
    rfl
  · unfold isSelectedAt hasChar byteAt?
    rw [hbytes]
    rfl

/-! ## Imports -/

/-- Whether the code uses an import is never said exactly when the search for its name never ends. -/
theorem usesImport?_eq_none_iff {i : Go.Import} :
    m.usesImport? i = none ↔ m.SearchesForever i.name := by
  unfold usesImport? Go.Import.isAlwaysUsed
  split
  · rename_i halways
    refine iff_of_false (Option.some_ne_none _) fun h => ?_
    rw [eq_empty_of_searchesForever h] at halways
    exact absurd halways (by decide)
  · exact selects?_eq_none_iff

/-- There is no naming the imports that the code uses, beside some that it does use, exactly when the
search for the use of one never ends. -/
theorem usedImports?_eq_none_iff {used is : List Go.Import}
    (hused : ∀ i ∈ used, m.usesImport? i = some true) :
    m.usedImports? used is = none ↔ ∃ i ∈ is, m.SearchesForever i.name := by
  induction is generalizing used with
  | nil => exact iff_of_false (Option.some_ne_none _) fun ⟨_, hi, _⟩ => List.not_mem_nil hi
  | cons i is ih =>
    have later (hi : m.usesImport? i ≠ none) :
        (∃ j ∈ is, m.SearchesForever j.name) ↔ ∃ j ∈ i :: is, m.SearchesForever j.name := by
      refine ⟨fun ⟨j, hj, h⟩ => ⟨j, List.mem_cons_of_mem i hj, h⟩, fun ⟨j, hj, h⟩ => ⟨j, ?_, h⟩⟩
      refine (List.mem_cons.1 hj).resolve_left fun heq => hi ?_
      exact usesImport?_eq_none_iff.2 (heq ▸ h)
    rw [usedImports?]
    split
    · rename_i hmem
      have hi := hused i (List.contains_iff_mem.1 hmem)
      rw [ih hused]
      exact later (hi ▸ Option.some_ne_none _)
    · split
      · rename_i hi
        exact iff_of_true rfl ⟨i, List.mem_cons_self, usesImport?_eq_none_iff.1 hi⟩
      · rename_i hi
        rw [Option.map_eq_none_iff, ih (List.forall_mem_cons.2 ⟨hi, hused⟩)]
        exact later (hi ▸ Option.some_ne_none _)
      · rename_i hi
        rw [ih hused]
        exact later (hi ▸ Option.some_ne_none _)

end Masked

end RpcBindings
