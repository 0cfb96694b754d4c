import Mathlib.Logic.ExistsUnique
import RpcBindings.Proofs.Masked.Word

/-!
Searches for declarations.

Functions, interfaces and records are all looked for in one way: the places of a keyword are visited
from left to right, and those inside a declaration that has been found are left out. Such a search
lists the declarations one behind the other (`pairwise_declarationsFrom`). It ends with the first
declaration that has no end. Main statement: of the declarations that begin outside of those that are
found, exactly the ones up to there have an entry, and each has one only
(`accounted_declarationsFrom`).
-/

namespace RpcBindings

/-- What a search comes to at a place of its keyword. -/
inductive Visit (α : Type) where
  /-- No declaration begins there, and the search goes on at an offset. -/
  | passed (next : Nat)
  /-- A declaration ends before an offset. -/
  | ended (value : α) (stop : Nat)
  /-- A declaration does not end. -/
  | endless

/-- What is read from a part of a text. -/
structure Located (α : Type) where
  span : Span
  value : α

namespace Masked

variable {α : Type}

/-- The declarations among some places, those before an offset left out. -/
def declarationsFrom (visit : Nat → Visit α) : List Nat → Nat → List (Located α)
  | [], _ => []
  | i :: rest, start =>
    if i < start then declarationsFrom visit rest start
    else match visit i with
      | .passed next => declarationsFrom visit rest next
      | .ended value stop => ⟨⟨i, stop⟩, value⟩ :: declarationsFrom visit rest stop
      | .endless => []

/-- The places stand in order, and the search goes forward without leaving one out that it passes. -/
structure Orderly (visit : Nat → Visit α) (places : List Nat) : Prop where
  sorted : places.Pairwise (· < ·)
  ended : ∀ i ∈ places, ∀ value stop, visit i = .ended value stop → i < stop
  passed : ∀ i ∈ places, ∀ next, visit i = .passed next →
    i < next ∧ ∀ j ∈ places, i < j → next ≤ j

/-- No part that begins before an offset goes on across it. -/
def Outside (spans : List Span) (i : Nat) : Prop :=
  ∀ s ∈ spans, s.start < i → s.stop ≤ i

/-- Of the declarations that begin outside of the parts that are listed, exactly those are listed, and
once, up to which none is endless. -/
def Accounted (spans : List Span) (begins endless : Nat → Prop) : Prop :=
  ∀ i, begins i → Outside spans i →
    ((∃! k : Nat, ∃ s, spans[k]? = some s ∧ s.start = i) ↔
      ∀ j, j ≤ i → begins j → Outside spans j → ¬endless j)

variable {visit : Nat → Visit α} {places : List Nat} {start i : Nat}

theorem Orderly.of_cons (h : Orderly visit (i :: places)) : Orderly visit places where
  sorted := h.sorted.of_cons
  ended j hj := h.ended j (List.mem_cons_of_mem i hj)
  passed j hj next hnext :=
    ⟨(h.passed j (List.mem_cons_of_mem i hj) next hnext).1, fun k hk =>
      (h.passed j (List.mem_cons_of_mem i hj) next hnext).2 k (List.mem_cons_of_mem i hk)⟩

theorem Orderly.lt_of_mem (h : Orderly visit (i :: places)) {j : Nat} (hj : j ∈ places) : i < j :=
  List.rel_of_pairwise_cons h.sorted hj

/-! ## What is listed -/

/-- A declaration is listed as it is visited. -/
theorem visit_of_mem {d : Located α} (h : d ∈ declarationsFrom visit places start) :
    d.span.start ∈ places ∧ visit d.span.start = .ended d.value d.span.stop := by
  induction places generalizing start with
  | nil => exact absurd h List.not_mem_nil
  | cons i places ih =>
    have later {start : Nat} (h : d ∈ declarationsFrom visit places start) :
        d.span.start ∈ i :: places ∧ visit d.span.start = .ended d.value d.span.stop :=
      ⟨List.mem_cons_of_mem i (ih h).1, (ih h).2⟩
    rw [declarationsFrom] at h
    split at h
    · exact later h
    · split at h
      · exact later h
      · rename_i value stop hvisit
        rcases List.mem_cons.1 h with rfl | h
        · exact ⟨List.mem_cons_self, hvisit⟩
        · exact later h
      · exact absurd h List.not_mem_nil

theorem le_of_mem (ho : Orderly visit places) {d : Located α}
    (h : d ∈ declarationsFrom visit places start) : start ≤ d.span.start := by
  induction places generalizing start with
  | nil => exact absurd h List.not_mem_nil
  | cons i places ih =>
    rw [declarationsFrom] at h
    split at h
    · exact ih ho.of_cons h
    · rename_i hstart
      split at h
      · rename_i next hvisit
        have := ih ho.of_cons h
        have := (ho.passed i List.mem_cons_self next hvisit).1
        omega
      · rename_i value stop hvisit
        rcases List.mem_cons.1 h with rfl | h
        · exact Nat.le_of_not_lt hstart
        · have := ih ho.of_cons h
          have := ho.ended i List.mem_cons_self value stop hvisit
          omega
      · exact absurd h List.not_mem_nil

/-- Each declaration begins behind the one before it. -/
theorem pairwise_declarationsFrom (ho : Orderly visit places) (start : Nat) :
    (declarationsFrom visit places start).Pairwise fun d e => d.span.stop ≤ e.span.start := by
  induction places generalizing start with
  | nil => exact List.Pairwise.nil
  | cons i places ih =>
    rw [declarationsFrom]
    split
    · exact ih ho.of_cons start
    · split
      · exact ih ho.of_cons _
      · exact List.pairwise_cons.2 ⟨fun e he => le_of_mem ho.of_cons he, ih ho.of_cons _⟩
      · exact List.Pairwise.nil

/-! ## What has an entry -/

/-- Where no declaration is endless every one that begins outside of the others is listed. -/
theorem exists_of_outside (ho : Orderly visit places) (hi : i ∈ places) (hstart : start ≤ i)
    (hbegins : ∀ next, visit i ≠ .passed next)
    (hout : Outside ((declarationsFrom visit places start).map (·.span)) i)
    (hends : ∀ j ∈ places, start ≤ j → j ≤ i →
      Outside ((declarationsFrom visit places start).map (·.span)) j → visit j ≠ .endless) :
    ∃ d ∈ declarationsFrom visit places start, d.span.start = i := by
  induction places generalizing start with
  | nil => exact absurd hi List.not_mem_nil
  | cons p places ih =>
    have hlater (h : p < i) : i ∈ places := (List.mem_cons.1 hi).resolve_left (by omega)
    have hfirst : p ≤ i := by
      rcases List.mem_cons.1 hi with rfl | h
      · exact Nat.le_refl _
      · exact Nat.le_of_lt (ho.lt_of_mem h)
    rw [declarationsFrom] at hout hends ⊢
    by_cases hp : p < start
    · simp only [if_pos hp] at hout hends ⊢
      exact ih ho.of_cons (hlater (by omega)) hstart hout fun j hj =>
        hends j (List.mem_cons_of_mem p hj)
    · simp only [if_neg hp] at hout hends ⊢
      cases hvisit : visit p with
      | passed next =>
        simp only [hvisit] at hout hends ⊢
        have hlt : p < i := Nat.lt_of_le_of_ne hfirst (by rintro rfl; exact hbegins next hvisit)
        obtain ⟨hnext, hbetween⟩ := ho.passed p List.mem_cons_self next hvisit
        exact ih ho.of_cons (hlater hlt) (hbetween i hi hlt) hout fun j hj hle =>
          hends j (List.mem_cons_of_mem p hj) (by omega)
      | ended value stop =>
        simp only [hvisit] at hout hends ⊢
        rcases Nat.eq_or_lt_of_le hfirst with rfl | hlt
        · exact ⟨_, List.mem_cons_self, rfl⟩
        · have hstop : stop ≤ i := hout ⟨p, stop⟩ List.mem_cons_self hlt
          have hp := ho.ended p List.mem_cons_self value stop hvisit
          obtain ⟨d, hd, hdi⟩ := ih ho.of_cons (hlater hlt) hstop
            (fun s hs => hout s (List.mem_cons_of_mem _ hs)) fun j hj hle hji hj' =>
              hends j (List.mem_cons_of_mem p hj) (by omega) hji fun s hs hlt => by
                rcases List.mem_cons.1 hs with rfl | hs
                · exact hle
                · exact hj' s hs hlt
          exact ⟨d, List.mem_cons_of_mem _ hd, hdi⟩
      | endless =>
        simp only [hvisit] at hends
        exact absurd hvisit (hends p List.mem_cons_self (by omega) hfirst nofun)

/-- Behind an endless declaration nothing is listed. -/
theorem lt_of_endless (ho : Orderly visit places) {j : Nat} (hj : j ∈ places) (hstart : start ≤ j)
    (hendless : visit j = .endless)
    (hout : Outside ((declarationsFrom visit places start).map (·.span)) j) :
    ∀ d ∈ declarationsFrom visit places start, d.span.start < j := by
  induction places generalizing start with
  | nil => exact absurd hj List.not_mem_nil
  | cons p places ih =>
    rw [declarationsFrom] at hout ⊢
    have hlater (h : p ≠ j) : j ∈ places ∧ p < j :=
      have hmem := (List.mem_cons.1 hj).resolve_left h.symm
      ⟨hmem, ho.lt_of_mem hmem⟩
    by_cases hp : p < start
    · simp only [if_pos hp] at hout ⊢
      exact ih ho.of_cons (hlater (by omega)).1 hstart hout
    · simp only [if_neg hp] at hout ⊢
      cases hvisit : visit p with
      | passed next =>
        simp only [hvisit] at hout ⊢
        obtain ⟨hmem, hlt⟩ := hlater (by rintro rfl; exact absurd (hendless.symm.trans hvisit) nofun)
        exact ih ho.of_cons hmem ((ho.passed p List.mem_cons_self next hvisit).2 j hj hlt) hout
      | ended value stop =>
        simp only [hvisit] at hout ⊢
        obtain ⟨hmem, hlt⟩ := hlater (by rintro rfl; exact absurd (hendless.symm.trans hvisit) nofun)
        have hstop : stop ≤ j := hout ⟨p, stop⟩ List.mem_cons_self hlt
        intro d hd
        rcases List.mem_cons.1 hd with rfl | hd
        · exact hlt
        · exact ih ho.of_cons hmem hstop (fun s hs => hout s (List.mem_cons_of_mem _ hs)) d hd
      | endless => exact fun d hd => absurd hd List.not_mem_nil

/-- Two entries do not begin at one place. -/
theorem index_unique (ho : Orderly visit places) {k l : Nat} {s t : Span}
    (hs : ((declarationsFrom visit places start).map (·.span))[k]? = some s)
    (ht : ((declarationsFrom visit places start).map (·.span))[l]? = some t)
    (h : s.start = t.start) : k = l := by
  have hpairwise : ((declarationsFrom visit places start).map (·.span)).Pairwise
      fun s t => s.start < t.start := by
    refine List.pairwise_map.2 ((pairwise_declarationsFrom ho start).imp_of_mem ?_)
    intro d e hd _ hde
    obtain ⟨hmem, hvisit⟩ := visit_of_mem hd
    exact Nat.lt_of_lt_of_le (ho.ended _ hmem _ _ hvisit) hde
  obtain ⟨hk, rfl⟩ := List.getElem?_eq_some_iff.1 hs
  obtain ⟨hl, rfl⟩ := List.getElem?_eq_some_iff.1 ht
  rcases Nat.lt_trichotomy k l with hlt | heq | hlt
  · exact absurd (List.pairwise_iff_getElem.1 hpairwise k l hk hl hlt) (by omega)
  · exact heq
  · exact absurd (List.pairwise_iff_getElem.1 hpairwise l k hl hk hlt) (by omega)

/-- A search accounts for the declarations up to the first endless one. -/
theorem accounted_declarationsFrom {begins endless : Nat → Prop} (ho : Orderly visit places)
    (hbegins : ∀ i, begins i ↔ i ∈ places ∧ ∀ next, visit i ≠ .passed next)
    (hendless : ∀ i, begins i → (endless i ↔ visit i = .endless)) :
    Accounted ((declarationsFrom visit places 0).map (·.span)) begins endless := by
  intro i hi hout
  constructor
  · rintro ⟨k, ⟨s, hs, rfl⟩, -⟩ j hji hj hjout hjendless
    obtain ⟨d, hd, rfl⟩ := List.mem_map.1 (List.mem_of_getElem? hs)
    have := lt_of_endless ho ((hbegins j).1 hj).1 (Nat.zero_le j) ((hendless j hj).1 hjendless)
      hjout d hd
    omega
  · intro hends
    obtain ⟨hmem, hpassed⟩ := (hbegins i).1 hi
    have hfree : ∀ j ∈ places, 0 ≤ j → j ≤ i →
        Outside ((declarationsFrom visit places 0).map (·.span)) j → visit j ≠ .endless := by
      intro j hj _ hji hjout hvisit
      have hbegins : begins j := (hbegins j).2 ⟨hj, fun next hnext =>
        absurd (hvisit.symm.trans hnext) nofun⟩
      exact hends j hji hbegins hjout ((hendless j hbegins).2 hvisit)
    obtain ⟨d, hd, hdi⟩ := exists_of_outside ho hmem (Nat.zero_le i) hpassed hout hfree
    obtain ⟨k, hk⟩ := List.mem_iff_getElem?.1 (List.mem_map_of_mem (f := (·.span)) hd)
    refine ⟨k, ⟨d.span, hk, hdi⟩, ?_⟩
    rintro l ⟨t, ht, hti⟩
    exact index_unique ho ht hk (hti.trans hdi.symm)

end Masked

end RpcBindings
