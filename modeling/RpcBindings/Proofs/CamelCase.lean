import Mathlib.Logic.Relation
import RpcBindings.Namespace
import RpcBindings.Proofs.Go.Identifier

/-!
Camel case.

A name in camel case is its characters without the separators, with the letter after each run of
them raised. Separators and the case of the letters behind them do not matter, nothing else is lost.
Main statements: two names are the same in camel case iff each can be respelled as the other
(`upperCamel_eq_iff`), and names in snake case never are the same (`eq_of_upperCamel_eq`).
-/

namespace RpcBindings.Casing

open Text

variable {c d : Char} {cs ds : List Char} {raised : Bool}

/-! ## Letters -/

theorem isLower_iff : c.isLower = true ↔ 97 ≤ c.toNat ∧ c.toNat ≤ 122 := by
  unfold Char.isLower
  simp only [decide_eq_true_eq, ge_iff_le, UInt32.le_iff_toNat_le, Bool.and_eq_true]
  exact Iff.rfl

theorem isUpper_iff : c.isUpper = true ↔ 65 ≤ c.toNat ∧ c.toNat ≤ 90 := by
  unfold Char.isUpper
  simp only [decide_eq_true_eq, ge_iff_le, UInt32.le_iff_toNat_le]
  exact Iff.rfl

theorem toNat_toUpper (h : c.isLower = true) : c.toUpper.toNat + 32 = c.toNat := by
  obtain ⟨hlow, hhigh⟩ := isLower_iff.1 h
  have hval : c.val.toNat = c.toNat := rfl
  have hshift : ('A'.val - 'a'.val).toNat = 2 ^ 32 - 32 := by decide
  unfold Char.toUpper
  rw [dif_pos ⟨UInt32.le_iff_toNat_le.2 hlow, UInt32.le_iff_toNat_le.2 hhigh⟩]
  show (c.val + ('A'.val - 'a'.val)).toNat + 32 = c.val.toNat
  rw [UInt32.toNat_add, hshift, hval]
  omega

theorem toUpper_of_not_isLower (h : c.isLower = false) : c.toUpper = c := by
  unfold Char.toUpper
  refine dif_neg fun hlower => ?_
  have hlower : c.isLower = true :=
    isLower_iff.2 ⟨UInt32.le_iff_toNat_le.1 hlower.1, UInt32.le_iff_toNat_le.1 hlower.2⟩
  exact Bool.false_ne_true (h.symm.trans hlower)

theorem isUpper_toUpper (h : c.isLower = true) : c.toUpper.isUpper = true := by
  have hnat := toNat_toUpper h
  have hlower := isLower_iff.1 h
  exact isUpper_iff.2 (by omega)

theorem not_isLower_of_isUpper (h : c.isUpper = true) : c.isLower = false := by
  have hupper := isUpper_iff.1 h
  refine Bool.eq_false_iff.2 fun hlower => ?_
  have hlower := isLower_iff.1 hlower
  omega

@[simp] theorem toUpper_toUpper (c : Char) : c.toUpper.toUpper = c.toUpper := by
  cases h : c.isLower with
  | true => exact toUpper_of_not_isLower (not_isLower_of_isUpper (isUpper_toUpper h))
  | false => rw [toUpper_of_not_isLower h, toUpper_of_not_isLower h]

theorem toUpper_inj (hc : c.isLower = true) (hd : d.isLower = true)
    (h : c.toUpper = d.toUpper) : c = d := by
  have hnat := toNat_toUpper hc
  rw [h] at hnat
  exact Char.toNat_inj.1 (hnat.symm.trans (toNat_toUpper hd))

/-- A letter is raised to an upper-case one, and nothing else is. -/
theorem isUpper_toUpper_eq (c : Char) : c.toUpper.isUpper = c.isAlpha := by
  unfold Char.isAlpha
  cases h : c.isLower with
  | true => rw [isUpper_toUpper h, Bool.or_true]
  | false => rw [toUpper_of_not_isLower h, Bool.or_false]

theorem isAlpha_toUpper (c : Char) : c.toUpper.isAlpha = c.isAlpha := by
  cases h : c.isLower with
  | true =>
    unfold Char.isAlpha
    rw [isUpper_toUpper h, h, Bool.true_or, Bool.or_true]
  | false => rw [toUpper_of_not_isLower h]

theorem isAlphanum_toUpper (h : c.isAlphanum = true) : c.toUpper.isAlphanum = true := by
  cases hlower : c.isLower with
  | true =>
    unfold Char.isAlphanum Char.isAlpha
    rw [isUpper_toUpper hlower, Bool.true_or, Bool.true_or]
  | false => rwa [toUpper_of_not_isLower hlower]

theorem isSeparator_iff : isSeparator c = true ↔ c = '_' ∨ c = '-' := by
  unfold isSeparator
  rw [Bool.or_eq_true, beq_iff_eq, beq_iff_eq]

theorem isLower_of_isSeparator (h : isSeparator c = true) : c.isLower = false := by
  rcases isSeparator_iff.1 h with rfl | rfl <;> decide

theorem isSeparator_toUpper (c : Char) : isSeparator c.toUpper = isSeparator c := by
  cases h : c.isLower with
  | false => rw [toUpper_of_not_isLower h]
  | true =>
    have hupper := isUpper_toUpper h
    have hraised : isSeparator c.toUpper = false := by
      refine Bool.eq_false_iff.2 fun hsep => ?_
      rcases isSeparator_iff.1 hsep with hc | hc <;> exact absurd hupper (by rw [hc]; decide)
    have hplain : isSeparator c = false := by
      refine Bool.eq_false_iff.2 fun hsep => ?_
      rw [isLower_of_isSeparator hsep] at h
      exact Bool.false_ne_true h
    rw [hraised, hplain]

/-! ## Words -/

theorem joinWords_separator (hc : isSeparator c = true) (raised : Bool) (cs : List Char) :
    joinWords raised (c :: cs) = joinWords true cs := by
  rw [joinWords, if_pos hc]

theorem joinWords_letter (hc : isSeparator c = false) (raised : Bool) (cs : List Char) :
    joinWords raised (c :: cs) = (if raised then c.toUpper else c) :: joinWords false cs := by
  rw [joinWords, hc, if_neg Bool.false_ne_true]

/-- Words behind a separator are the words of both texts. -/
theorem joinWords_append_separator {s : Char} (hs : isSeparator s = true) (raised : Bool)
    (cs ds : List Char) :
    joinWords raised (cs ++ s :: ds) = joinWords raised cs ++ joinWords true ds := by
  induction cs generalizing raised with
  | nil => rw [List.nil_append, joinWords_separator hs, joinWords_nil, List.nil_append]
  | cons c cs ih =>
    rw [List.cons_append]
    cases hc : isSeparator c with
    | true => rw [joinWords_separator hc, joinWords_separator hc, ih]
    | false => rw [joinWords_letter hc, joinWords_letter hc, ih, List.cons_append]

theorem not_isSeparator_of_mem_joinWords (h : d ∈ joinWords raised cs) :
    isSeparator d = false := by
  induction cs generalizing raised with
  | nil =>
    rw [joinWords_nil] at h
    exact absurd h List.not_mem_nil
  | cons c cs ih =>
    cases hc : isSeparator c with
    | true => exact ih (joinWords_separator hc raised cs ▸ h)
    | false =>
      rw [joinWords_letter hc] at h
      rcases List.mem_cons.1 h with rfl | h
      · split
        · rw [isSeparator_toUpper, hc]
        · exact hc
      · exact ih h

/-- What holds of the characters of a name, raised or not, holds of them in camel case. -/
theorem forall_mem_joinWords {p : Char → Prop}
    (h : ∀ c ∈ cs, isSeparator c = false → p c ∧ p c.toUpper) : ∀ d ∈ joinWords raised cs, p d := by
  induction cs generalizing raised with
  | nil =>
    rw [joinWords_nil]
    exact fun d hd => absurd hd List.not_mem_nil
  | cons c cs ih =>
    have hlater := fun d hd => h d (List.mem_cons_of_mem c hd)
    cases hc : isSeparator c with
    | true =>
      rw [joinWords_separator hc]
      exact ih hlater
    | false =>
      rw [joinWords_letter hc]
      obtain ⟨hplain, hraised⟩ := h c List.mem_cons_self hc
      refine List.forall_mem_cons.2 ⟨?_, ih hlater⟩
      split
      · exact hraised
      · exact hplain

/-- Camel case brings in capital letters only. -/
theorem mem_of_mem_joinWords (hd : d.isUpper = false) (h : d ∈ joinWords raised cs) : d ∈ cs := by
  by_contra hmem
  refine forall_mem_joinWords (p := (· ≠ d)) (fun c hc _ => ?_) d h rfl
  have hne : c ≠ d := fun heq => hmem (heq ▸ hc)
  refine ⟨hne, fun heq => ?_⟩
  cases hlower : c.isLower with
  | true =>
    rw [← heq, isUpper_toUpper hlower] at hd
    exact Bool.false_ne_true hd.symm
  | false => exact hne (toUpper_of_not_isLower hlower ▸ heq)

/-- A name in camel case begins with a letter iff the first character does that is no separator. -/
theorem isAlpha_head?_joinWords (raised : Bool) (cs : List Char) :
    (joinWords raised cs).head?.any Char.isAlpha =
      (cs.find? fun c => !isSeparator c).any Char.isAlpha := by
  induction cs generalizing raised with
  | nil =>
    rw [joinWords_nil]
    rfl
  | cons c cs ih =>
    cases hc : isSeparator c with
    | true =>
      rw [joinWords_separator hc, List.find?_cons_of_neg (by rw [hc]; decide)]
      exact ih true
    | false =>
      rw [joinWords_letter hc, List.find?_cons_of_pos (by rw [hc]; decide)]
      show (if raised = true then c.toUpper else c).isAlpha = c.isAlpha
      split
      · exact isAlpha_toUpper c
      · rfl

/-- The letter that begins a name in upper camel case has been raised. -/
theorem isUpper_head?_joinWords (cs : List Char) :
    (joinWords true cs).head?.any Char.isUpper = (joinWords true cs).head?.any Char.isAlpha := by
  induction cs with
  | nil =>
    rw [joinWords_nil]
    rfl
  | cons c cs ih =>
    cases hc : isSeparator c with
    | true =>
      rw [joinWords_separator hc]
      exact ih
    | false =>
      rw [joinWords_letter hc]
      exact (isUpper_toUpper_eq c).trans (isAlpha_toUpper c).symm

/-- Raising the first letter of a name in camel case is the same as reading it after a separator. -/
theorem raiseFirst_joinWords (cs : List Char) :
    raiseFirst (joinWords raised cs) = joinWords true cs := by
  induction cs generalizing raised with
  | nil =>
    rw [joinWords_nil, joinWords_nil]
    rfl
  | cons c cs ih =>
    cases hc : isSeparator c with
    | true => rw [joinWords_separator hc, joinWords_separator hc, ih]
    | false =>
      rw [joinWords_letter hc, joinWords_letter hc, raiseFirst, if_pos rfl]
      split
      · rw [toUpper_toUpper]
      · rfl

theorem toList_lowerCamel (name : String) :
    (lowerCamel name).toList = joinWords false (trim name.toList) := by
  unfold lowerCamel
  rw [String.toList_ofList]

theorem toList_upperCamel (name : String) :
    (upperCamel name).toList = joinWords true (trim name.toList) := by
  unfold upperCamel capitalize
  rw [String.toList_ofList, toList_lowerCamel, raiseFirst_joinWords]

theorem mem_of_mem_lowerCamel {name : String} (hd : d.isUpper = false)
    (h : d ∈ (lowerCamel name).toList) : d ∈ name.toList := by
  rw [toList_lowerCamel] at h
  exact mem_of_mem_trim (mem_of_mem_joinWords hd h)

theorem mem_of_mem_upperCamel {name : String} (hd : d.isUpper = false)
    (h : d ∈ (upperCamel name).toList) : d ∈ name.toList := by
  rw [toList_upperCamel] at h
  exact mem_of_mem_trim (mem_of_mem_joinWords hd h)

/-! ## Respellings -/

/-- One step between spellings of the same words: the first letter is raised, or a separator goes
and the letter behind it is raised. -/
inductive Respelled : List Char → List Char → Prop
  | first (cs : List Char) : Respelled cs (raiseFirst cs)
  | separator {s : Char} (hs : isSeparator s = true) (before cs : List Char) :
      Respelled (before ++ s :: cs) (before ++ raiseFirst cs)

theorem joinWords_raiseFirst (raised : Bool) (cs : List Char) :
    joinWords raised (raiseFirst cs) = joinWords true cs := by
  cases cs with
  | nil =>
    rw [raiseFirst, joinWords_nil, joinWords_nil]
  | cons c cs =>
    have hraised := isSeparator_toUpper c
    rw [raiseFirst]
    cases hc : isSeparator c with
    | true =>
      rw [hc] at hraised
      rw [joinWords_separator hraised, joinWords_separator hc]
    | false =>
      rw [hc] at hraised
      rw [joinWords_letter hraised, joinWords_letter hc, if_pos rfl, toUpper_toUpper, ite_self]

theorem Respelled.joinWords_eq (h : Respelled cs ds) : joinWords true cs = joinWords true ds := by
  cases h with
  | first cs => exact (joinWords_raiseFirst true cs).symm
  | @separator s hs before cs =>
    have hjoin (raised : Bool) :
        joinWords raised (before ++ s :: cs) = joinWords raised (before ++ raiseFirst cs) := by
      induction before generalizing raised with
      | nil =>
        rw [List.nil_append, List.nil_append, joinWords_separator hs, joinWords_raiseFirst]
      | cons c before ih =>
        rw [List.cons_append, List.cons_append]
        cases hc : isSeparator c with
        | true => rw [joinWords_separator hc, joinWords_separator hc, ih]
        | false => rw [joinWords_letter hc, joinWords_letter hc, ih]
    exact hjoin true

theorem length_raiseFirst (cs : List Char) : (raiseFirst cs).length = cs.length := by
  cases cs <;> rfl

open Relation in
/-- A name is respelled to its form in camel case, separator by separator from the left. -/
theorem respelled_joinWords (before : List Char) :
    ∀ cs, EqvGen Respelled (before ++ cs) (before ++ joinWords false cs)
  | [] => by
    rw [joinWords_nil]
    exact .refl _
  | c :: cs => by
    cases hc : isSeparator c with
    | true =>
      have hlater := respelled_joinWords before (raiseFirst cs)
      rw [joinWords_raiseFirst] at hlater
      rw [joinWords_separator hc]
      exact .trans _ _ _ (.rel _ _ (.separator hc before cs)) hlater
    | false =>
      have hlater := respelled_joinWords (before ++ [c]) cs
      rw [joinWords_letter hc, if_neg Bool.false_ne_true, List.append_cons before c cs,
        List.append_cons before c (joinWords false cs)]
      exact hlater
termination_by cs => cs.length
decreasing_by all_goals simp [length_raiseFirst]

open Relation in
/-- Names are the same in camel case iff they are respellings of each other. -/
theorem joinWords_eq_iff : joinWords true cs = joinWords true ds ↔ EqvGen Respelled cs ds := by
  have hcamel (cs : List Char) : EqvGen Respelled cs (joinWords true cs) := by
    refine .trans _ _ _ (.rel _ _ (.first cs)) ?_
    rw [← joinWords_raiseFirst false cs]
    exact respelled_joinWords [] (raiseFirst cs)
  constructor
  · intro h
    exact .trans _ _ _ (hcamel cs) (h ▸ .symm _ _ (hcamel ds))
  · intro h
    induction h with
    | rel _ _ h => exact h.joinWords_eq
    | refl => rfl
    | symm _ _ _ ih => exact ih.symm
    | trans _ _ _ _ _ ih ih' => exact ih.trans ih'

/-- Two names are spellings of the same words, blanks around them aside. -/
def SameWords (a b : String) : Prop :=
  Relation.EqvGen Respelled (trim a.toList) (trim b.toList)

theorem upperCamel_eq_iff {a b : String} : upperCamel a = upperCamel b ↔ SameWords a b := by
  rw [← String.toList_inj, toList_upperCamel, toList_upperCamel]
  exact joinWords_eq_iff

/-! ## Snake case -/

/-- Lower-case words with one underscore between two of them; digits may follow the first letter of
a word. The flag says that a word begins. -/
def isSnakeFrom : Bool → List Char → Bool
  | first, [] => !first
  | true, c :: cs => c.isLower && isSnakeFrom false cs
  | false, c :: cs => if c == '_' then isSnakeFrom true cs
    else (c.isLower || c.isDigit) && isSnakeFrom false cs

/-- A name in snake case, such as `block_hash`. -/
def isSnakeCase (name : String) : Bool :=
  isSnakeFrom true name.toList

theorem not_isSeparator_of_snake (h : (c.isLower || c.isDigit) = true) : isSeparator c = false := by
  refine Bool.eq_false_iff.2 fun hsep => ?_
  rcases isSeparator_iff.1 hsep with rfl | rfl <;> exact absurd h (by decide)

theorem not_isUpper_of_snake (h : (c.isLower || c.isDigit) = true) : c.isUpper = false := by
  refine Bool.eq_false_iff.2 fun hupper => ?_
  rcases Bool.or_eq_true_iff.1 h with hlower | hdigit
  · rw [not_isLower_of_isUpper hupper] at hlower
    exact Bool.false_ne_true hlower
  · have hupper := isUpper_iff.1 hupper
    unfold Char.isDigit at hdigit
    simp only [Bool.and_eq_true, decide_eq_true_eq, ge_iff_le, UInt32.le_iff_toNat_le] at hdigit
    have hval : c.val.toNat = c.toNat := rfl
    have hnine : '9'.val.toNat = 57 := rfl
    omega

/-- The word that begins a name in snake case. -/
theorem exists_of_isSnakeFrom_true (h : isSnakeFrom true cs = true) :
    ∃ c rest, cs = c :: rest ∧ c.isLower = true ∧ isSnakeFrom false rest = true ∧
      joinWords true cs = c.toUpper :: joinWords false rest := by
  cases cs with
  | nil => exact absurd h (by decide)
  | cons c cs =>
    obtain ⟨hc, hrest⟩ := Bool.and_eq_true_iff.1 h
    have hsep := not_isSeparator_of_snake (c := c) (by rw [hc, Bool.true_or])
    exact ⟨c, cs, rfl, hc, hrest, by rw [joinWords_letter hsep, if_pos rfl]⟩

/-- A name in snake case goes on with a word after an underscore, or within a word. -/
theorem cases_of_isSnakeFrom_false (h : isSnakeFrom false (c :: cs) = true) :
    (c = '_' ∧ isSnakeFrom true cs = true ∧ joinWords false (c :: cs) = joinWords true cs) ∨
      (c.isUpper = false ∧ isSnakeFrom false cs = true ∧
        joinWords false (c :: cs) = c :: joinWords false cs) := by
  unfold isSnakeFrom at h
  split at h
  · rename_i hc
    obtain rfl := beq_iff_eq.1 hc
    exact .inl ⟨rfl, h, joinWords_separator (by decide) false cs⟩
  · obtain ⟨hc, hrest⟩ := Bool.and_eq_true_iff.1 h
    exact .inr ⟨not_isUpper_of_snake hc, hrest, joinWords_letter (not_isSeparator_of_snake hc) _ cs⟩

/-- In snake case the words can be told from the upper-case letters that they begin with. -/
theorem eq_of_joinWords_snake (hcs : isSnakeFrom raised cs = true)
    (hds : isSnakeFrom raised ds = true) (h : joinWords raised cs = joinWords raised ds) :
    cs = ds := by
  induction cs generalizing raised ds with
  | nil =>
    cases raised with
    | true => exact absurd hcs (by decide)
    | false =>
      cases ds with
      | nil => rfl
      | cons d ds =>
        rw [joinWords_nil] at h
        rcases cases_of_isSnakeFrom_false hds with ⟨-, hword, hjoin⟩ | ⟨-, -, hjoin⟩
        · obtain ⟨_, _, -, -, -, hword⟩ := exists_of_isSnakeFrom_true hword
          exact absurd (h.trans (hjoin.trans hword)) nofun
        · exact absurd (h.trans hjoin) nofun
  | cons c cs ih =>
    cases raised with
    | true =>
      obtain ⟨c', cs', heq, hc, hrest, hjoin⟩ := exists_of_isSnakeFrom_true hcs
      obtain ⟨rfl, rfl⟩ := List.cons.inj heq
      obtain ⟨d, ds, rfl, hd, hrest', hjoin'⟩ := exists_of_isSnakeFrom_true hds
      rw [hjoin, hjoin'] at h
      obtain ⟨hhead, htail⟩ := List.cons.inj h
      rw [toUpper_inj hc hd hhead, ih hrest hrest' htail]
    | false =>
      cases ds with
      | nil =>
        rw [joinWords_nil] at h
        rcases cases_of_isSnakeFrom_false hcs with ⟨-, hword, hjoin⟩ | ⟨-, -, hjoin⟩
        · obtain ⟨_, _, -, -, -, hword⟩ := exists_of_isSnakeFrom_true hword
          exact absurd (h.symm.trans (hjoin.trans hword)) nofun
        · exact absurd (h.symm.trans hjoin) nofun
      | cons d ds =>
        -- A word's first letter is raised and so is no later character of a word.
        have hapart {e f : Char} {u v : List Char} (he : e.isLower = true) (hf : f.isUpper = false)
            (heq : e.toUpper :: u = f :: v) : False := by
          rw [← (List.cons.inj heq).1, isUpper_toUpper he] at hf
          exact Bool.false_ne_true hf.symm
        rcases cases_of_isSnakeFrom_false hcs with ⟨rfl, hword, hjoin⟩ | ⟨hc, hrest, hjoin⟩ <;>
          rcases cases_of_isSnakeFrom_false hds with ⟨rfl, hword', hjoin'⟩ | ⟨hd, hrest', hjoin'⟩
        · rw [ih hword hword' (hjoin.symm.trans (h.trans hjoin'))]
        · obtain ⟨e, u, -, he, -, hword⟩ := exists_of_isSnakeFrom_true hword
          exact (hapart he hd ((hjoin.trans hword).symm.trans (h.trans hjoin'))).elim
        · obtain ⟨e, u, -, he, -, hword⟩ := exists_of_isSnakeFrom_true hword'
          exact (hapart he hc ((hjoin'.trans hword).symm.trans (h.symm.trans hjoin))).elim
        · obtain ⟨rfl, htail⟩ := List.cons.inj (hjoin.symm.trans (h.trans hjoin'))
          rw [ih hrest hrest' htail]

theorem isLetterOrDigit_of_mem_snake (h : isSnakeFrom raised cs = true) :
    ∀ c ∈ cs, Go.isLetterOrDigit c = true := by
  have hletter {c : Char} (hc : (c.isLower || c.isDigit) = true) : Go.isLetterOrDigit c = true := by
    unfold Go.isLetterOrDigit Char.isAlphanum Char.isAlpha
    rcases Bool.or_eq_true_iff.1 hc with hc | hc <;> simp [hc]
  fun_induction isSnakeFrom raised cs with
  | case1 => exact fun c hc => absurd hc List.not_mem_nil
  | case2 c cs ih =>
    obtain ⟨hc, hrest⟩ := Bool.and_eq_true_iff.1 h
    exact List.forall_mem_cons.2 ⟨hletter (by rw [hc, Bool.true_or]), ih hrest⟩
  | case3 c cs hc ih =>
    obtain rfl := beq_iff_eq.1 hc
    exact List.forall_mem_cons.2 ⟨by decide, ih h⟩
  | case4 c cs hc ih =>
    obtain ⟨hc, hrest⟩ := Bool.and_eq_true_iff.1 h
    exact List.forall_mem_cons.2 ⟨hletter hc, ih hrest⟩

/-- Names in snake case differ in camel case. -/
theorem eq_of_upperCamel_eq {a b : String} (ha : isSnakeCase a = true) (hb : isSnakeCase b = true)
    (h : upperCamel a = upperCamel b) : a = b := by
  have htrim {a : String} (ha : isSnakeCase a = true) : trim a.toList = a.toList :=
    trim_of_not_isBlank fun c hc => Go.not_isBlank_of_isWordByte
      (Go.isWordByte_of_isLetterOrDigit (isLetterOrDigit_of_mem_snake ha c hc))
  rw [← String.toList_inj, toList_upperCamel, toList_upperCamel, htrim ha, htrim hb] at h
  exact String.toList_inj.1 (eq_of_joinWords_snake ha hb h)

end RpcBindings.Casing

/-! ## Namespaces -/

namespace RpcBindings.Namespace

open Text Casing

variable {exported nspace : String} {rest : List Char}

/-- A namespace shortens a name that it begins, where a new word follows. -/
theorem strip_of_append (hns : (upperCamel nspace).toList ≠ [])
    (h : exported.toList = (upperCamel nspace).toList ++ rest) (hword : startsWord rest = true) :
    strip exported nspace = .ofList rest := by
  unfold strip
  extract_lets ns
  rw [if_neg (by rwa [List.isEmpty_iff]), h, stripPrefix?_append]
  exact if_pos hword

/-- A namespace shortens no other names. -/
theorem exists_of_strip_ne (h : strip exported nspace ≠ exported) :
    ∃ rest, (upperCamel nspace).toList ≠ [] ∧ startsWord rest = true ∧
      exported.toList = (upperCamel nspace).toList ++ rest := by
  unfold strip at h
  extract_lets ns at h
  split at h
  · exact (h rfl).elim
  rename_i hns
  split at h
  · rename_i rest hrest
    split at h
    · exact ⟨rest, fun h => hns (List.isEmpty_iff.2 h), ‹_›, stripPrefix?_eq_some_iff.1 hrest⟩
    · exact (h rfl).elim
  · exact (h rfl).elim

end RpcBindings.Namespace
