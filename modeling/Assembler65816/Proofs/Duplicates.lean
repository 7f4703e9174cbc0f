import Assembler65816.Proofs.Definitions
import Assembler65816.Proofs.Faults

/-! # Definitions that disagree

A definition is refused by one of two checks: against the values that the pass has bound so far, and
on the first pass against the table as well. At every definition the bound values are those that the
earlier definitions of the pass came to, and on the first pass of a new assembly the table knows
nothing else. So both checks come to one question: whether an earlier definition of the name came to
another known value.
-/
namespace Assembler65816

structure Evaluated where
  place : SourceLine
  name : Text
  value : Value
  deriving DecidableEq, Repr

namespace Work

def labelValues (place : SourceLine) : List Text → Work → List Evaluated
  | [], _ => []
  | name :: rest, w =>
    match w.counter with
    | none => []
    | some pc =>
      ⟨place, name, .known pc⟩ ::
        match (Step.defineLabel place name).run w with
        | (.ok (), w') => labelValues place rest w'
        | (.error _, _) => []

def statementValues (config : Config) (place : SourceLine) (w : Work) :
    Statement → List Evaluated
  | .equate name expression =>
    match (Step.eval config place expression).run w with
    | (.ok value, _) => [⟨place, name, value⟩]
    | (.error _, _) => []
  | _ => []

def lineValues (config : Config) (place : SourceLine) (w : Work) : List Evaluated :=
  let line := ParsedLine.ofText place.text
  labelValues place line.labels w ++
    match (line.labels.forM (Step.defineLabel place)).run w with
    | (.ok (), w') => w'.statementValues config place line.statement
    | (.error _, _) => []

def values (config : Config) : List Record → Work → List Evaluated
  | [], _ => []
  | r :: rest, w =>
    lineValues config r.source { w with hint := r.hint } ++
      match (Step.runLine config r.source).run { w with hint := r.hint } with
      | (.ok (), w') => values config rest w'
      | (.error _, _) => []

end Work

def Assembly.values (a : Assembly) (pass : Nat) : List Evaluated :=
  (a.work.startPass a.config pass).values a.config a.records

/-- A definition comes to a known value, and an earlier one of its name to another. -/
def Clash (earlier : List Evaluated) (d : Evaluated) : Prop :=
  ∃ old new, d.value = .known new ∧ old ≠ new ∧
    ∃ e ∈ earlier, e.name = d.name ∧ e.value = .known old

inductive Clean : List Evaluated → List Evaluated → Prop where
  | nil (earlier : List Evaluated) : Clean earlier []
  | cons {earlier rest : List Evaluated} {d : Evaluated} (agrees : ¬ Clash earlier d)
      (more : Clean (earlier ++ [d]) rest) : Clean earlier (d :: rest)

def Evaluated.refusal (d : Evaluated) : Ending :=
  .failed ⟨(Fault.duplicateSymbol d.name).problem,
    [d.place.diagnostic .error (Fault.duplicateSymbol d.name).problem]⟩

section Clean

variable {earlier front rest : List Evaluated} {d : Evaluated}

theorem Clean.append (h : Clean earlier front) (more : Clean (earlier ++ front) rest) :
    Clean earlier (front ++ rest) := by
  induction h with
  | nil => simpa using more
  | cons agrees _ ih => exact .cons agrees (ih (by simpa using more))

theorem Clean.not_clash (h : Clean earlier (front ++ d :: rest)) :
    ¬ Clash (earlier ++ front) d := by
  induction front generalizing earlier with
  | nil =>
    cases h with
    | cons agrees _ => simpa using agrees
  | cons e front ih =>
    cases h with
    | cons _ more => simpa using ih more

end Clean

/-- The values bound in the pass are the known ones of these definitions. The table has them as
well, and on the first pass no others. -/
structure Work.Recalls (w : Work) (earlier : List Evaluated) : Prop where
  defined : ∀ name word, w.defined.lookup name = some (.known word) ↔
    ∃ e ∈ earlier, e.name = name ∧ e.value = .known word
  table : ∀ name word, w.defined.lookup name = some (.known word) →
    w.symbols.lookup name = some (.known word)
  fresh : w.pass = 1 → ∀ name word, w.symbols.lookup name = some (.known word) →
    w.defined.lookup name = some (.known word)

namespace Work

variable {w w' : Work} {earlier : List Evaluated} {d : Evaluated} {expression : Text}

theorem Recalls.congr (h : w.Recalls earlier) (w' : Work) (defined : w'.defined = w.defined)
    (symbols : w'.symbols = w.symbols) (pass : w'.pass = w.pass) : w'.Recalls earlier := by
  constructor
  · rw [defined]
    exact h.defined
  · rw [defined, symbols]
    exact h.table
  · rw [defined, symbols, pass]
    exact h.fresh

theorem Recalls.contradicts_iff (h : w.Recalls earlier) :
    Step.contradicts (w.defined.lookup d.name) d.value = true ↔ Clash earlier d := by
  have known : Step.contradicts (w.defined.lookup d.name) d.value = true ↔
      ∃ old new, d.value = .known new ∧ old ≠ new ∧
        w.defined.lookup d.name = some (.known old) := by
    rcases w.defined.lookup d.name with _ | (old | _) <;> rcases d.value with new | _ <;>
      simp [Step.contradicts]
  simp only [known, h.defined]
  rfl

theorem Recalls.define_symbols (h : w.Recalls earlier) (expression : Text)
    (agrees : ¬ Clash earlier d) :
    ∃ symbols, w.symbols.define ⟨d.name, d.value, expression, w.counter⟩ (w.pass == 1) =
      some symbols := by
  unfold SymbolTable.define
  split
  · exact ⟨_, rfl⟩
  · next old new before value =>
    split_ifs with same first
    · exact ⟨_, rfl⟩
    · refine absurd ⟨old, new, value, same, (h.defined d.name old).mp ?_⟩ agrees
      exact h.fresh (by simpa using first) d.name old before
    · exact ⟨_, rfl⟩
  · exact ⟨_, rfl⟩

/-- Binding a definition that does not clash makes it one of the earlier ones. -/
theorem Recalls.bind {symbols : SymbolTable} (h : w.Recalls earlier) (agrees : ¬ Clash earlier d)
    (bound : w.symbols.define ⟨d.name, d.value, expression, w.counter⟩ (w.pass == 1) =
      some symbols)
    (defined : w'.defined =
      if d.value.isKnown || (w.defined.lookup d.name).isNone then (d.name, d.value) :: w.defined
      else w.defined)
    (table : w'.symbols = symbols) (pass : w'.pass = w.pass) :
    w'.Recalls (earlier ++ [d]) := by
  have looked (m : Text) : w'.defined.lookup m =
      if d.name = m then some (Value.merge (w.defined.lookup d.name) d.value)
      else w.defined.lookup m := by
    rw [defined, lookup_defined]
  have stored (m : Text) : w'.symbols.lookup m =
      if d.name = m then some (Value.merge (w.symbols.lookup d.name) d.value)
      else w.symbols.lookup m := by
    rw [table, SymbolTable.lookup_define bound]
  have merged {old : Option Value} {word : UInt32} :
      some (Value.merge old d.value) = some (.known word) ↔
        d.value = .known word ∨ d.value = .unresolved ∧ old = some (.known word) := by
    rw [Option.some_inj]
    refine ⟨Value.merge_known, ?_⟩
    rintro (value | ⟨value, rfl⟩)
    · rw [value]
      simp [Value.merge]
    · rw [value]
      rfl
  constructor
  · intro m word
    rw [looked]
    simp only [List.mem_append, List.mem_singleton, or_and_right, exists_or, exists_eq_left]
    split
    · next same =>
      subst same
      rw [merged, h.defined]
      constructor
      · rintro (value | ⟨_, before⟩)
        · exact .inr ⟨rfl, value⟩
        · exact .inl before
      · rintro (before | ⟨_, value⟩)
        · cases value : d.value with
          | unresolved => exact .inr ⟨rfl, before⟩
          | known new =>
            left
            by_contra differ
            refine agrees ⟨word, new, value, ?_, before⟩
            rintro rfl
            exact differ rfl
        · exact .inl value
    · next other =>
      rw [h.defined]
      refine ⟨.inl, fun found => found.resolve_right ?_⟩
      exact fun last => other last.1
  · intro m word
    rw [looked, stored]
    split
    · rw [merged, merged]
      exact Or.imp_right (And.imp_right (h.table _ _))
    · exact h.table m word
  · intro first m word
    rw [looked, stored]
    split
    · rw [merged, merged]
      exact Or.imp_right (And.imp_right (h.fresh (pass ▸ first) _ _))
    · exact h.fresh (pass ▸ first) m word

theorem Recalls.refused (h : w.Recalls earlier) (clash : Clash earlier d) :
    (Step.define d.place d.name d.value expression).run w =
      (.error (.fault (.duplicateSymbol d.name)), w) :=
  Step.define_refused d.place (.inl (h.contradicts_iff.mpr clash))

theorem Recalls.accepted (h : w.Recalls earlier) (expression : Text)
    (agrees : ¬ Clash earlier d) :
    ∃ w', (Step.define d.place d.name d.value expression).run w = (.ok (), w') ∧
      w'.Recalls (earlier ++ [d]) := by
  obtain ⟨symbols, bound⟩ := h.define_symbols expression agrees
  have apart : Step.contradicts (w.defined.lookup d.name) d.value = false := by
    rwa [← Bool.not_eq_true, h.contradicts_iff]
  obtain ⟨log, run⟩ := Step.define_run d.place apart bound
  exact ⟨_, run, h.bind agrees bound rfl rfl rfl⟩

end Work

/-- How a part of a pass ends that evaluates `values` after `earlier`: without a clash, or refused
at the last of them, which is the first to clash. -/
inductive Judged (earlier values : List Evaluated) : Option Ending → Work → Prop where
  | done {w : Work} (clean : Clean earlier values) (recalls : w.Recalls (earlier ++ values)) :
      Judged earlier values none w
  | refused {front : List Evaluated} {d : Evaluated} {w : Work} (last : values = front ++ [d])
      (clean : Clean earlier front) (clash : Clash (earlier ++ front) d) :
      Judged earlier values (some d.refusal) w
  | stopped {ending : Ending} {w : Work} (clean : Clean earlier values)
      (other : ∀ failure, ending = .failed failure → failure.problem.kind ≠ .duplicateSymbol) :
      Judged earlier values (some ending) w

def lineEnding (place : SourceLine) : Except Halt Unit → Option Ending
  | .ok () => none
  | .error halt => some (halt.ending place)

def Step.Evaluates (place : SourceLine) (earlier values : List Evaluated) (x : Step Unit)
    (w : Work) : Prop :=
  Judged earlier values (lineEnding place (x.run w).1) (x.run w).2

section Lines

variable {config : Config} {place : SourceLine} {earlier values values' : List Evaluated}

theorem Judged.after {ending : Option Ending} {w : Work} (clean : Clean earlier values)
    (h : Judged (earlier ++ values) values' ending w) :
    Judged earlier (values ++ values') ending w := by
  cases h with
  | done clean' recalls => exact .done (clean.append clean') (by rwa [← List.append_assoc])
  | refused last clean' clash =>
    refine .refused (by rw [last, List.append_assoc]) (clean.append clean') ?_
    rwa [← List.append_assoc]
  | stopped clean' other => exact .stopped (clean.append clean') other

theorem Step.Evaluates.fault {x : Step Unit} {w w' : Work} {cause : Fault}
    (run : x.run w = (.error (.fault cause), w')) (text : cause.beyondText = false) :
    x.Evaluates place earlier [] w := by
  rw [Step.Evaluates, run]
  refine .stopped (.nil earlier) fun failure same => ?_
  cases same
  rw [Fault.kind_problem]
  exact Fault.kind_of_text text

theorem Step.Evaluates.andThen {x y : Step Unit} {w : Work} {later : Work → List Evaluated}
    (first : x.Evaluates place earlier values w)
    (second : ∀ w', w'.Recalls (earlier ++ values) →
      y.Evaluates place (earlier ++ values) (later w') w') :
    Step.Evaluates place earlier
      (values ++ match x.run w with
        | (.ok (), w') => later w'
        | (.error _, _) => []) (x >>= fun _ => y) w := by
  unfold Step.Evaluates at first ⊢
  rw [run_bind]
  rcases run : x.run w with ⟨halt | _, w'⟩
  · rw [run] at first
    simpa using first
  · rw [run] at first
    cases first with
    | done clean recalls => exact (second w' recalls).after clean

theorem define_evaluates {d : Evaluated} {w : Work} (h : w.Recalls earlier) (expression : Text) :
    (Step.define d.place d.name d.value expression).Evaluates d.place earlier [d] w := by
  rw [Step.Evaluates]
  by_cases clash : Clash earlier d
  · rw [h.refused clash]
    have last : [d] = [] ++ [d] := rfl
    exact .refused last (.nil earlier) (by simpa using clash)
  · obtain ⟨w', run, recalls⟩ := h.accepted expression clash
    rw [run]
    exact .done (.cons clash (.nil _)) recalls

theorem labels_evaluate {names : List Text} {w : Work} (h : w.Recalls earlier) :
    (names.forM (Step.defineLabel place)).Evaluates place earlier
      (Work.labelValues place names w) w := by
  induction names generalizing w earlier with
  | nil =>
    refine .done (.nil earlier) ?_
    rw [Work.labelValues, List.append_nil]
    exact h
  | cons name rest ih =>
    rw [Work.labelValues]
    cases placed : w.counter with
    | none =>
      have refused : ((name :: rest).forM (Step.defineLabel place)).run w =
          (.error (.fault (.labelBeforeOrigin name)), w) := by
        change (Step.defineLabel place name >>= fun _ => _).run w = _
        rw [run_bind, Step.defineLabel_refused place placed]
      exact .fault refused rfl
    | some pc =>
      have first : (Step.defineLabel place name).Evaluates place earlier
          [⟨place, name, .known pc⟩] w := by
        rw [Step.Evaluates, Step.defineLabel_run placed]
        exact define_evaluates (d := ⟨place, name, .known pc⟩)
          (h.congr (w.report (.label name pc)) rfl rfl rfl) ['$']
      exact first.andThen fun w' recalls => ih recalls

theorem statementValues_eq (statement : Statement) (w : Work) :
    w.statementValues config place statement =
      match (statement.outcome w.env w.widths).run { hint := w.hint } with
      | (.ok (.binding name _ value), _) => [⟨place, name, value⟩]
      | _ => [] := by
  cases statement with
  | equate name expression =>
    have evaluated : (Step.eval config place expression).run w = _ :=
      (run_bind_of_ok (Step.get_run w)).trans (Step.traced_run config place _ w)
    rw [Work.statementValues, evaluated, Statement.outcome, run_bind]
    rcases (Tracing.eval w.env expression).run { hint := w.hint } with ⟨cause | value, trace⟩ <;>
      rfl
  | _ =>
    split
    · next read =>
      rcases Statement.outcome_binds read with ⟨_, _, _, same, _⟩ | ⟨_, other⟩
      · cases same
      · exact absurd rfl (other _ _ _)
    · rfl

theorem perform_evaluates {outcome : Outcome} {w : Work} (h : w.Recalls earlier)
    (other : ∀ name expression value, outcome ≠ .binding name expression value) :
    (Step.perform config place outcome).Evaluates place earlier [] w := by
  have fault {cause : Fault} {w' : Work}
      (run : (Step.perform config place outcome).run w = (.error (.fault cause), w')) :
      cause.beyondText = false := by
    cases outcome with
    | nothing | widths => cases run
    | binding name expression value => exact absurd rfl (other name expression value)
    | origin address => exact Step.performOrigin_fault run
    | bytes bytes => exact Step.emit_fault run
  rcases run : (Step.perform config place outcome).run w with ⟨halt | _, w'⟩
  · cases halt with
    | fault cause => exact .fault run (fault run)
    | overrun =>
      rw [Step.Evaluates, run]
      exact .stopped (.nil earlier) nofun
  · obtain ⟨bindings, -⟩ := (Step.perform_run_ok run).bindings_eq other
    have frame := Step.perform_frame config place outcome w
    rw [run] at frame
    rw [Step.Evaluates, run]
    refine .done (.nil earlier) ?_
    rw [List.append_nil]
    exact h.congr _ (congrArg Bindings.defined bindings) (congrArg Bindings.symbols bindings)
      frame.pass

theorem statement_evaluates (text : Text) {w : Work} (h : w.Recalls earlier) :
    (Step.runStatement config place (ParsedLine.ofText text).statement).Evaluates place earlier
      (w.statementValues config place (ParsedLine.ofText text).statement) w := by
  have run := Step.runStatement_run config place (ParsedLine.ofText text).statement w
  rw [statementValues_eq]
  rcases read : ((ParsedLine.ofText text).statement.outcome w.env w.widths).run
    { hint := w.hint } with ⟨cause | outcome, trace⟩
  · rw [read] at run
    exact .fault run (ParsedLine.outcome_fault read)
  · rw [read] at run
    have recalls : (w.takeTrace config place trace).Recalls earlier :=
      h.congr _ (takeTrace_defined ..) (takeTrace_symbols ..) (takeTrace_pass ..)
    rw [Step.Evaluates, run]
    cases outcome with
    | binding name expression value =>
      cases value with
      | known word =>
        exact define_evaluates (d := ⟨place, name, .known word⟩)
          (recalls.congr (Work.report (.equate name word) _) rfl rfl rfl) expression
      | unresolved =>
        exact define_evaluates (d := ⟨place, name, .unresolved⟩)
          (recalls.congr (Work.report (.equateDeferred name expression) _) rfl rfl rfl)
          expression
    | _ => exact perform_evaluates recalls nofun

theorem line_evaluates (config : Config) (place : SourceLine) {w : Work} (h : w.Recalls earlier) :
    (Step.runLine config place).Evaluates place earlier (w.lineValues config place) w :=
  (labels_evaluate h).andThen fun _ recalls => statement_evaluates place.text recalls

end Lines

section Passes

variable {config : Config} {records records' : List Record} {earlier : List Evaluated}
  {w w' : Work}

theorem Work.runLines_judged (config : Config) (records : List Record) (h : w.Recalls earlier) :
    Judged earlier (w.values config records) (w.runLines config records).1
      (w.runLines config records).2.2 := by
  induction records generalizing w earlier with
  | nil =>
    refine .done (.nil earlier) ?_
    rw [Work.values, List.append_nil]
    exact h
  | cons r rest ih =>
    have first := line_evaluates config r.source
      (h.congr { w with hint := r.hint } rfl rfl rfl)
    rw [Work.values, Work.runLines]
    unfold Step.Evaluates at first
    rcases run : (Step.runLine config r.source).run { w with hint := r.hint } with ⟨halt | _, w'⟩
    · rw [run] at first
      simpa [lineEnding] using first
    · rw [run] at first
      cases first with
      | done clean recalls => exact (ih recalls).after clean

theorem labelValues_names {place : SourceLine} {names : List Text}
    (h : (names.forM (Step.defineLabel place)).run w = (.ok (), w')) :
    (w.labelValues place names).map Evaluated.name = names := by
  induction names generalizing w with
  | nil => rfl
  | cons name rest ih =>
    obtain ⟨_, w₁, first, more⟩ := run_bind_ok h
    rw [Work.labelValues]
    cases placed : w.counter with
    | none =>
      rw [Step.defineLabel_refused place placed] at first
      cases first
    | some pc =>
      rw [first]
      exact congrArg (name :: ·) (ih more)

theorem lineValues_names {place : SourceLine}
    (h : (Step.runLine config place).run w = (.ok (), w')) :
    (w.lineValues config place).map Evaluated.name = (ParsedLine.ofText place.text).names := by
  obtain ⟨⟨⟩, labelled, labels, statement⟩ := run_bind_ok h
  obtain ⟨outcome, trace, read, -⟩ := Step.runStatement_run_ok statement
  rw [Work.lineValues, labels, List.map_append, labelValues_names labels, ParsedLine.names]
  congr 1
  generalize (ParsedLine.ofText place.text).statement = statement at read ⊢
  cases statement with
  | equate name expression =>
    dsimp only
    rw [statementValues_eq, read]
    rcases Statement.outcome_binds read with ⟨_, _, _, same, rfl, _⟩ | ⟨equate, -⟩
    · cases same
      rfl
    · exact absurd rfl (equate name expression)
  | _ => rfl

theorem Passed.names_values (h : Passed config records w records' w') :
    (w.values config records).map Evaluated.name = definedNames (records.map Record.source) := by
  induction h with
  | nil => rfl
  | cons line more ih =>
    rw [Work.values, line, List.map_append, lineValues_names line, ih]
    rfl

end Passes

namespace Assembly

variable {config : Config} {lines : List SourceLine} {p : Nat} {a : Assembly}

/-- At the start of a pass nothing is bound, and before the first one nothing is known. -/
theorem Reached.recalls (h : (new config lines).Reached p a) :
    (a.work.startPass a.config (p + 1)).Recalls [] := by
  constructor
  · simp
  · simp
  · intro first name word known
    obtain rfl : p = 0 := by simpa using first
    rw [startPass_symbols] at known
    have present := (h.names name).mp (by rw [known]; nofun)
    exact absurd rfl present.1

theorem Reached.judged (h : (new config lines).Reached p a) :
    ∃ w, Judged [] (a.values (p + 1)) (a.runPass (p + 1)).1 w ∧
      ((a.runPass (p + 1)).1 = none → w.Retried (a.runPass (p + 1)).2.work) := by
  have judged := Work.runLines_judged a.config a.records h.recalls
  rw [← Assembly.values] at judged
  rcases pass : a.runPass (p + 1) with ⟨ending | ending, a'⟩
  · obtain ⟨w, done, retried, -⟩ := runPass_none pass
    rw [done.runLines] at judged
    exact ⟨w, judged, fun _ => retried⟩
  · rcases lines : (a.work.startPass a.config (p + 1)).runLines a.config a.records with
      ⟨ending' | ending', records, w⟩
    · -- All lines got done, and the sweep after the first pass failed.
      rw [lines] at judged
      rw [runPass, lines] at pass
      dsimp only at pass
      split at pass
      · split at pass
        · next cause _ swept =>
          cases pass
          cases judged with
          | done clean recalls =>
            refine ⟨w, .stopped clean fun failure same => ?_, nofun⟩
            cases same
            rw [Fault.kind_problem]
            exact Fault.kind_of_text (Work.sweep_fault swept)
        · cases pass
      · cases pass
    · rw [lines] at judged
      rw [runPass, lines] at pass
      cases pass
      exact ⟨w, judged, nofun⟩

/-- A pass over a new assembly is refused for a definition exactly if that definition comes to a
known value and an earlier one of its name in the pass has come to another. In a pass that gets
through, every definition has been evaluated, those of a name that have values agree, and that value
is in the table. -/
theorem duplicates_exact (h : (new config lines).Reached p a) :
    (∀ earlier d later, a.values (p + 1) = earlier ++ d :: later →
      (later = [] ∧ (a.runPass (p + 1)).1 = some d.refusal ↔ Clash earlier d)) ∧
    (∀ failure, (a.runPass (p + 1)).1 = some (.failed failure) →
      failure.problem.kind = .duplicateSymbol →
      ∃ earlier d, a.values (p + 1) = earlier ++ [d] ∧ Clash earlier d ∧
        .failed failure = d.refusal) ∧
    ((a.runPass (p + 1)).1 = none →
      (a.values (p + 1)).map Evaluated.name = definedNames lines ∧
      ∀ d ∈ a.values (p + 1), ∀ word, d.value = .known word →
        (a.runPass (p + 1)).2.work.symbols.lookup d.name = some (.known word) ∧
        ∀ e ∈ a.values (p + 1), e.name = d.name →
          e.value = .unresolved ∨ e.value = .known word) := by
  obtain ⟨w, judged, retried⟩ := h.judged
  have refusal_kind (d : Evaluated) : ∀ failure, d.refusal = .failed failure →
      failure.problem.kind = .duplicateSymbol := by
    intro failure same
    cases same
    exact Fault.kind_problem _
  refine ⟨fun earlier d later split => ?_, fun failure ends kind => ?_, fun completed => ?_⟩
  · rw [split] at judged
    generalize (a.runPass (p + 1)).1 = ending at judged
    cases judged with
    | done clean _ => exact iff_of_false (fun refused => nomatch refused.2) clean.not_clash
    | stopped clean other =>
      refine iff_of_false ?_ clean.not_clash
      rintro ⟨-, refused⟩
      obtain rfl := Option.some.inj refused
      exact other _ rfl (refusal_kind d _ rfl)
    | @refused front e _ last clean clash =>
      rcases List.eq_nil_or_concat later with rfl | ⟨later, e', rfl⟩
      · obtain ⟨rfl, same⟩ := List.append_inj' last rfl
        cases same
        exact iff_of_true ⟨rfl, rfl⟩ clash
      · rw [List.concat_eq_append, ← List.cons_append, ← List.append_assoc] at last
        obtain ⟨rfl, -⟩ := List.append_inj' last rfl
        exact iff_of_false (by simp) clean.not_clash
  · rw [ends] at judged
    generalize same : Ending.failed failure = ending at judged
    cases judged with
    | @refused front d _ last clean clash => exact ⟨front, d, last, clash, rfl⟩
    | stopped clean other => exact absurd kind (other failure same.symm)
  · have swept := (retried completed).swept
    rw [completed] at judged
    cases judged with
    | done clean recalls =>
      constructor
      · obtain ⟨_, done, -⟩ := runPass_none (Prod.ext completed rfl : a.runPass (p + 1) = (none, _))
        rw [values, done.names_values, h.sources_eq]
      · intro d mem word value
        have bound := (recalls.defined d.name word).mpr ⟨d, mem, rfl, value⟩
        refine ⟨swept.known (recalls.table _ _ bound), fun e mem' same => ?_⟩
        cases value' : e.value with
        | unresolved => exact .inl rfl
        | known other =>
          have bound' := (recalls.defined d.name other).mpr ⟨e, mem', same, value'⟩
          rw [known_inj bound bound']
          exact .inr rfl

/-- An equate that waits in the first pass and has another value in the second. -/
def conflictSource : List SourceLine :=
  SourceLine.ofText "conflict.asm" "x equ later\nx equ 5\n org $8000\nlater: nop\n".toList

def conflictLine (number : Nat) (text : String) : SourceLine :=
  ⟨"conflict.asm", number, text.toList, text.toList⟩

theorem duplicates_exact_later :
    let first : Evaluated := ⟨conflictLine 1 "x equ later", ['x'], .known 0x8000⟩
    let second : Evaluated := ⟨conflictLine 2 "x equ 5", ['x'], .known 5⟩
    ∃ a, (new { romSize := 16 } conflictSource).Reached 1 a ∧ a.values 2 = [first, second] ∧
      (a.runPass 2).1 = some second.refusal := by
  intro first second
  have passed : ((new { romSize := 16 } conflictSource).runPass 1).1 = none := by decide +kernel
  have values : ((new { romSize := 16 } conflictSource).runPass 1).2.values 2 =
      [first, second] := by decide +kernel
  rcases run : (new { romSize := 16 } conflictSource).runPass 1 with ⟨ending, a⟩
  rw [run] at passed values
  obtain rfl : ending = none := passed
  have reached : (new { romSize := 16 } conflictSource).Reached 1 a := .pass .start run
  have clash : Clash [first] second :=
    ⟨0x8000, 5, rfl, by decide, first, List.mem_singleton_self first, rfl, rfl⟩
  obtain ⟨refused, -, -⟩ := duplicates_exact reached
  exact ⟨a, reached, values, ((refused [first] second [] values).mpr clash).2⟩

/-- In the first pass the equate waits, and neither check has anything to compare. -/
example : ((new { romSize := 16 } conflictSource).runPass 1).2.work.symbols.lookup ['x'] =
    some (.known 5) := by
  decide +kernel

end Assembly

end Assembler65816
