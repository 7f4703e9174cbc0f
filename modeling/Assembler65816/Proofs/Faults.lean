import Assembler65816.Proofs.Sweep

/-! # Faults of lines and sweeps

A line or a sweep that is refused never blames a symbol without a value or values that keep moving:
those two faults are left to runs that have used up their passes.
-/
namespace Assembler65816

theorem Fault.kind_problem (f : Fault) : f.problem.kind = f.kind := by
  unfold Fault.problem Problem.about
  split <;> rfl

theorem Fault.kind_of_plain {f : Fault} (h : f.endsBudget = false) :
    f.problem.kind ≠ .unknownSymbol ∧ f.problem.kind ≠ .passBudget := by
  rw [Fault.kind_problem]
  cases f <;> first | exact ⟨Kind.noConfusion, Kind.noConfusion⟩ | cases h

namespace Step

def Plain {α : Type} (x : Step α) : Prop :=
  ∀ w cause w', x.run w = (.error (.fault cause), w') → cause.endsBudget = false

theorem Plain.bind {α β : Type} {x : Step α} {f : α → Step β} (hx : x.Plain)
    (hf : ∀ a, (f a).Plain) : Plain (x >>= f) := by
  intro w cause w' h
  rw [run_bind] at h
  rcases hr : x.run w with ⟨halt | a, w₁⟩
  · rw [hr] at h
    cases h
    exact hx w cause w' hr
  · rw [hr] at h
    exact hf a w₁ cause w' h

theorem define_plain (place : SourceLine) (name expression : Text) (value : Value) :
    Plain (define place name value expression) := by
  intro w cause w' h
  rcases define_cases place name expression value w with refused | ⟨agrees, symbols, bound⟩
  · rw [refused] at h
    cases h
    rfl
  · obtain ⟨log, run⟩ := define_run place agrees bound
    rw [run] at h
    cases h

theorem defineLabel_plain (place : SourceLine) (name : Text) : Plain (defineLabel place name) := by
  intro w cause w' h
  cases placed : w.counter with
  | none =>
    rw [defineLabel_refused place placed] at h
    cases h
    rfl
  | some pc =>
    rw [defineLabel_run placed] at h
    exact define_plain place name ['$'] (.known pc) _ cause w' h

theorem labels_plain (place : SourceLine) (names : List Text) :
    Plain (names.forM (defineLabel place)) := by
  induction names with
  | nil =>
    intro w cause w' h
    cases h
  | cons name rest ih => exact (defineLabel_plain place name).bind fun _ => ih

theorem performOrigin_fault {config : Config} {address : UInt32} {w w' : Work} {cause : Fault}
    (h : (performOrigin config address).run w = (.error (.fault cause), w')) :
    cause.beyondText = false := by
  unfold performOrigin at h
  rw [run_bind_of_ok (get_run w)] at h
  split at h
  · split at h <;> cases h
  · split at h
    · cases h
      rfl
    · cases h

theorem emit_fault {run : List UInt8} {w w' : Work} {cause : Fault}
    (h : (emit run).run w = (.error (.fault cause), w')) : cause.beyondText = false := by
  unfold emit at h
  rw [run_bind_of_ok (get_run w)] at h
  split at h
  · cases h
    rfl
  · split at h
    · cases h
      rfl
    · cases h
    · cases h

theorem perform_plain (config : Config) (place : SourceLine) (outcome : Outcome) :
    Plain (perform config place outcome) := by
  cases outcome with
  | nothing =>
    intro w cause w' h
    cases h
  | binding name expression value =>
    intro w cause w' h
    cases value with
    | known word => exact define_plain place name expression (.known word) _ cause w' h
    | unresolved => exact define_plain place name expression .unresolved _ cause w' h
  | origin address => exact fun _ _ _ h => Fault.endsBudget_of_text (performOrigin_fault h)
  | bytes run => exact fun _ _ _ h => Fault.endsBudget_of_text (emit_fault h)
  | widths widths =>
    intro w cause w' h
    cases h

theorem runLine_plain (config : Config) (place : SourceLine) : Plain (runLine config place) := by
  refine (labels_plain place _).bind fun _ w cause w' h => ?_
  rw [runStatement_run] at h
  rcases read : ((ParsedLine.ofText place.text).statement.outcome w.env w.widths).run
    { hint := w.hint } with ⟨cause' | outcome, trace⟩
  · rw [read] at h
    cases h
    exact Fault.endsBudget_of_text (ParsedLine.outcome_fault read)
  · rw [read] at h
    exact perform_plain config place outcome _ cause w' h

end Step

theorem Expression.eval_fault {env : Env} {text : Text} {cause : Fault}
    (h : Expression.eval env text = .error (.fault cause)) : cause.beyondText = false := by
  have answer := (Expression.eval_advances env text).answer
  rw [h] at answer
  exact answer.1

theorem Work.sweep_fault {left round : Nat} {w w' : Work} {cause : Fault}
    (h : sweep left round w = (some cause, w')) : cause.beyondText = false := by
  obtain ⟨_, _, _, _, _, fault⟩ := sweep_refused h
  exact Expression.eval_fault fault

/-- A pass that ends the run blames the line or the equate that it stopped at. -/
theorem Assembly.runPass_plain {a a' : Assembly} {p : Nat} {failure : Failure}
    (h : a.runPass p = (some (.failed failure), a')) :
    failure.problem.kind ≠ .unknownSymbol ∧ failure.problem.kind ≠ .passBudget := by
  rcases runPass_some h with ⟨r, v, v', halt, _, run, ending⟩ | ⟨_, _, _, _, _, _, swept, ending⟩
  · cases halt with
    | fault cause =>
      cases ending
      exact Fault.kind_of_plain (Step.runLine_plain a.config r.source v cause v' run)
    | overrun => cases ending
  · cases ending
    exact Fault.kind_of_plain (Fault.endsBudget_of_text (Work.sweep_fault swept))

theorem Assembly.runPass_kind {a a' : Assembly} {p : Nat} {failure : Failure}
    (h : a.runPass p = (some (.failed failure), a')) : failure.problem.kind ≠ .passBudget :=
  (runPass_plain h).2

/-- A run that has used up its passes blames a symbol or the values that keep moving. -/
theorem Work.exhaustion_kinds (config : Config) (w : Work) :
    (w.exhaustion config).problem.kind = .unknownSymbol ∨
      (w.exhaustion config).problem.kind = .passBudget := by
  unfold Work.exhaustion
  split <;> simp only [Fault.kind_problem]
  · exact Or.inl rfl
  · exact Or.inl rfl
  · exact Or.inr rfl

end Assembler65816
