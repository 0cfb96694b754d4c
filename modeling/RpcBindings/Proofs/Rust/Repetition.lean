import RpcBindings.Proofs.Rust.TypeName

/-!
Parsers that repeat a step.

A parser that repeats a step gives what the steps give, one after another, up to the first step that
gives nothing. Main statement: with a step for every token at most, the repetition never runs out of
steps (`Parser.many_of_steps`).
-/

namespace RpcBindings.Rust.Parser

variable {α : Type} {step : Parser (Option α)} {i after : Input} {as : List α}

/-- The steps from one input to another, with what each gives; the last gives nothing. -/
inductive Steps (step : Parser (Option α)) : Input → List α → Input → Prop where
  | done {i after : Input} (h : step i = some (none, after)) : Steps step i [] after
  | more {i mid after : Input} {a : α} {as : List α} (h : step i = some (some a, mid))
      (later : Steps step mid as after) : Steps step i (a :: as) after

theorem repeatFrom_of_steps (h : Steps step i as after) {fuel : Nat} (hfuel : as.length < fuel) :
    repeatFrom step fuel i = some (as, after) := by
  induction h generalizing fuel with
  | done h =>
    obtain ⟨fuel, rfl⟩ := Nat.exists_eq_add_of_lt hfuel
    rw [repeatFrom, bind_apply, h]
    rfl
  | more h _ ih =>
    obtain ⟨fuel, rfl⟩ := Nat.exists_eq_add_of_lt (Nat.zero_lt_of_lt hfuel)
    have hlater := @ih fuel (by simp only [List.length_cons] at hfuel; omega)
    rw [Nat.zero_add, repeatFrom, bind_apply, h, Option.bind_some]
    dsimp only
    rw [bind_apply, hlater]
    rfl

theorem many_of_steps {p : List Token → Bool} {one : Parser α}
    (h : Steps (whenAt p (some <$> one) none) i as after) (hlength : as.length ≤ i.tokens.length) :
    many p one i = some (as, after) :=
  repeatFrom_of_steps h (Nat.lt_succ_of_le hlength)

/-- One step of a repetition that a test allows. -/
theorem step_of_test {p : List Token → Bool} {one : Parser α} {a : α} (hp : p i.tokens = true)
    (h : one i = some (a, after)) :
    whenAt p (some <$> one) none i = some (some a, after) := by
  rw [whenAt_apply, hp, if_pos rfl]
  show (one i).bind _ = _
  rw [h]
  rfl

/-- A repetition ends where its test fails. -/
theorem steps_of_not {p : List Token → Bool} {one : Parser α} (hp : p i.tokens = false) :
    Steps (whenAt p (some <$> one) none) i [] i := by
  refine .done ?_
  rw [whenAt_apply, hp]
  rfl

theorem many_of_not {p : List Token → Bool} {one : Parser α} (hp : p i.tokens = false) :
    many p one i = some ([], i) :=
  many_of_steps (steps_of_not hp) (Nat.zero_le _)

end RpcBindings.Rust.Parser
