import Assembler65816.Proofs.Definitions
import Assembler65816.Proofs.Faults

/-! # Places of failures

A run that fails over its source fails at a line, or in the sweep after the first pass. The failure
of a line carries the place of the line. The sweep reads expressions out of the table, where the
lines that they come from are no longer known, and its failures carry no place. Each of them does
come from one line all the same: the equate that was left waiting there.
-/
namespace Assembler65816

def Kind.structural : Kind → Bool
  | .malformed | .unterminated | .trailingOperands | .duplicateSymbol | .addressingMode
  | .branchRange | .romBounds | .directive | .instruction => true
  | .unknownSymbol | .passBudget | .io | .commandLine => false

theorem SymbolTable.Swept.waiting {t u : SymbolTable} {m : Text} {s : Symbol} (h : t.Swept u)
    (found : u.find? m = some s) (waiting : s.value = .unresolved) : t.find? m = some s := by
  induction h with
  | refl => exact found
  | step _ _ _ _ ih =>
    have before := ih found
    rw [SymbolTable.find?_put] at before
    split at before
    · cases before
      cases waiting
    · exact before

section Deferred

variable {config : Config} {w w' : Work} {m : Text} {s : Symbol}

theorem Performed.deferred {outcome : Outcome} (h : Performed config w outcome w')
    (found : w'.symbols.find? m = some s) (waiting : s.value = .unresolved) :
    w.symbols.find? m = some s ∨
      outcome = .binding s.name s.expression .unresolved ∧ s.pc = w.counter := by
  cases h with
  | nothing | firstOrigin | origin | bytes | widths => exact Or.inl found
  | binding _ bound =>
    rcases SymbolTable.define_cases bound with ⟨rfl, _⟩ | ⟨rfl, _⟩
    · exact Or.inl found
    · rw [SymbolTable.find?_put] at found
      split at found
      · cases found
        exact Or.inr ⟨by rw [← waiting], rfl⟩
      · exact Or.inl found

theorem Labelled.deferred {names : List Text} (h : Labelled config names w w')
    (found : w'.symbols.find? m = some s) (waiting : s.value = .unresolved) :
    w.symbols.find? m = some s := by
  induction h with
  | nil => exact found
  | cons _ bound _ ih =>
    rcases bound.deferred (ih found) waiting with before | ⟨binding, _⟩
    · exact before
    · injection binding with _ _ value
      cases value

theorem CarriedOut.deferred {place : SourceLine} (h : CarriedOut config place w w')
    (found : w'.symbols.find? m = some s) (waiting : s.value = .unresolved) :
    w.symbols.find? m = some s ∨
      (ParsedLine.ofText place.text).statement = .equate s.name s.expression ∧
        s.pc = w.counter := by
  obtain ⟨labels, read, performed⟩ := h
  rcases performed.deferred found waiting with before | ⟨binding, counter⟩
  · rw [takeTrace_symbols] at before
    exact Or.inl (labels.deferred before waiting)
  · rw [takeTrace_counter, labels.frame.counter] at counter
    rcases Statement.outcome_binds read with ⟨name, expression, value, equate, bound, _⟩ | ⟨_, none⟩
    · rw [bound] at binding
      cases binding
      exact Or.inr ⟨equate, counter⟩
    · exact absurd binding (none _ _ _)

/-- Every symbol that a pass leaves waiting was waiting before it, or comes from an equate on a line
that the pass met. -/
theorem Passed.deferred {records records' : List Record} (h : Passed config records w records' w')
    (found : w'.symbols.find? m = some s) (waiting : s.value = .unresolved) :
    w.symbols.find? m = some s ∨ ∃ r v, Meets config records w r v ∧
      (ParsedLine.ofText r.source.text).statement = .equate s.name s.expression ∧
      s.pc = v.counter := by
  induction h with
  | nil => exact Or.inl found
  | @cons r rest rest' w w₁ w₂ line more ih =>
    rcases ih found with before | ⟨r', v, met, equate, counter⟩
    · rcases (Step.runLine_run_ok line).deferred before waiting with earlier | ⟨equate, counter⟩
      · exact Or.inl earlier
      · exact Or.inr ⟨r, _, .here r rest w, equate, counter⟩
    · exact Or.inr ⟨r', v, .later line met, equate, counter⟩

end Deferred

namespace Assembly

inductive RefusesLine (start : Assembly) (place : SourceLine) (cause : Fault) : Prop where
  | intro {p : Nat} {a : Assembly} {r : Record} {w w' : Work} (reached : start.Reached p a)
      (met : Meets a.config a.records (a.work.startPass a.config (p + 1)) r w)
      (line : r.source = place)
      (refused : (Step.runLine start.config place).run w = (.error (.fault cause), w'))

/-- The first pass leaves the equate on a line waiting, and the sweep that follows cannot evaluate
it once it knows more. -/
inductive RefusesEquate (start : Assembly) (place : SourceLine) (cause : Fault) : Prop where
  | intro {records : List Record} {r : Record} {v w w' : Work} {u : SymbolTable} {s : Symbol}
      (passed : Passed start.config start.records (start.work.startPass start.config 1) records w)
      (swept : w.finishPass.sweep start.config.resolveBudget.toNat 1 = (some cause, w'))
      (met : Meets start.config start.records (start.work.startPass start.config 1) r v)
      (line : r.source = place)
      (equate : (ParsedLine.ofText place.text).statement = .equate s.name s.expression)
      (counter : s.pc = v.counter) (waiting : w.symbols.find? s.name = some s)
      (unresolved : s.value = .unresolved) (known : w.symbols.Swept u)
      (refused : Expression.eval (u.env s.pc) s.expression = .error (.fault cause))

variable {config : Config} {lines : List SourceLine} {p : Nat} {a b : Assembly}

theorem Reached.mem_lines (h : (new config lines).Reached p a) {r : Record}
    (mem : r ∈ a.records) : r.source ∈ lines := by
  rw [← h.sources_eq]
  exact List.mem_map_of_mem mem

/-- A sweep that fails after the first pass fails over the equate of a line. -/
theorem refusesEquate_of_sweep {records : List Record} {w w' : Work} {cause : Fault}
    (passed : Passed config (new config lines).records
      ((new config lines).work.startPass config 1) records w)
    (swept : w.finishPass.sweep config.resolveBudget.toNat 1 = (some cause, w')) :
    ∃ place ∈ lines, (new config lines).RefusesEquate place cause := by
  obtain ⟨u, s, known, found, unresolved, refused⟩ := Work.sweep_refused swept
  have waiting : w.symbols.find? s.name = some s := known.waiting found unresolved
  rcases passed.deferred waiting unresolved with before | ⟨r, v, met, equate, counter⟩
  · rw [startPass_symbols] at before
    cases before
  · have mem : r.source ∈ lines := Reached.mem_lines .start met.mem
    exact ⟨r.source, mem, .intro passed swept met rfl equate counter waiting unresolved known
      refused⟩

theorem giveUp_not_structural {failure : Failure} (h : a.giveUp = (.failed failure, b)) :
    failure.problem.kind.structural = false := by
  rcases giveUp_cases h with ⟨ending, _⟩ | ⟨ending, _⟩
  · cases ending
  · cases ending
    rcases Work.exhaustion_kinds a.config b.work with kind | kind
    · rw [kind]
      rfl
    · rw [kind]
      rfl

/-- A run that fails over its source fails over one of its lines. Where the line itself is refused,
the failure has one diagnostic, with the place and the text of the line; where the sweep refuses
the equate on the line, the failure has none. -/
theorem structural_failure_places {failure : Failure}
    (failed : (new config lines).run = (.failed failure, b))
    (kind : failure.problem.kind.structural = true) :
    ∃ place ∈ lines, ∃ cause : Fault, failure.problem = cause.problem ∧
      ((new config lines).RefusesLine place cause ∧
          failure.diagnostics = [place.diagnostic .error failure.problem] ∨
        (new config lines).RefusesEquate place cause ∧ failure.diagnostics = []) := by
  rcases run_new_cases failed with ⟨cause, _, ending⟩ | ⟨_, done | ⟨q, a, reached, ended⟩ | last⟩
  · cases ending
    cases cause <;> cases kind
  · obtain ⟨_, _, _, _, ending, _⟩ := done
    cases ending
  · have same : a.config = config := reached.config_eq
    rcases runPass_some ended with ⟨r, v, v', halt, met, stopped, ending⟩ | sweep
    · cases halt with
      | overrun => cases ending
      | fault cause =>
        cases ending
        rw [same] at stopped
        exact ⟨r.source, reached.mem_lines met.mem, cause, rfl,
          Or.inl ⟨.intro reached met rfl stopped, rfl⟩⟩
    · obtain ⟨records, w, w', cause, first, passed, swept, ending⟩ := sweep
      cases ending
      obtain rfl : q = 0 := by omega
      cases reached
      obtain ⟨place, mem, refused⟩ := refusesEquate_of_sweep passed swept
      exact ⟨place, mem, cause, rfl, Or.inr ⟨refused, rfl⟩⟩
  · obtain ⟨_, _, _, gave⟩ := last
    rw [giveUp_not_structural gave] at kind
    cases kind

def farSource : List SourceLine :=
  SourceLine.ofText "far.asm" " org $80\n; away\n bra $1000\n".toList

theorem structural_failure_places_far : ∃ failure b,
    (new { romSize := 16 } farSource).run = (.failed failure, b) ∧
    failure.problem.kind.structural = true ∧
    ∃ place ∈ farSource, ∃ cause : Fault, failure.problem = cause.problem ∧
      ((new { romSize := 16 } farSource).RefusesLine place cause ∧
          failure.diagnostics = [place.diagnostic .error failure.problem] ∨
        (new { romSize := 16 } farSource).RefusesEquate place cause ∧
          failure.diagnostics = []) := by
  have ends : (match (new { romSize := 16 } farSource).run.1 with
      | .failed failure => failure.problem.kind.structural
      | _ => false) = true := by decide +kernel
  rcases run : (new { romSize := 16 } farSource).run with ⟨ending, b⟩
  rw [run] at ends
  cases ending with
  | failed failure => exact ⟨failure, b, rfl, ends, structural_failure_places run ends⟩
  | done => cases ends
  | crashed => cases ends

def lateSource : List SourceLine :=
  SourceLine.ofText "late.asm" " org $80\na equ 1/b\nb equ 0\n".toList

theorem structural_failure_unplaced :
    Kind.structural .malformed = true ∧ ∃ b, (new { romSize := 16 } lateSource).run =
      (.failed ⟨⟨.malformed, "Division by zero"⟩, []⟩, b) := by
  have ends : (new { romSize := 16 } lateSource).run.1 =
      .failed ⟨⟨.malformed, "Division by zero"⟩, []⟩ := by decide +kernel
  rcases run : (new { romSize := 16 } lateSource).run with ⟨ending, b⟩
  rw [run] at ends
  exact ⟨rfl, b, by rw [← ends]⟩

end Assembly

end Assembler65816
