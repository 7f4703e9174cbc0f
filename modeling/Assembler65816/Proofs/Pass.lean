import Assembler65816.Proofs.Line

/-! # Passes and runs

A pass that gets through carries out every line in order. A run is a sequence of such passes, with
the sweep after the first one, until the last pass settles everything, a pass or the sweep fails,
or the passes are used up.
-/
namespace Assembler65816

theorem SymbolTable.define_cases {t t' : SymbolTable} {s : Symbol} {firstPass : Bool}
    (h : t.define s firstPass = some t') :
    (t' = t ∧ ∃ word, t.lookup s.name = some (.known word) ∧
      (s.value = .unresolved ∨ s.value = .known word)) ∨
    (t' = t.put s ∧ ∀ word, t.lookup s.name = some (.known word) → s.value ≠ .unresolved) := by
  unfold SymbolTable.define at h
  split at h
  · next old hold hnew =>
    cases h
    exact Or.inl ⟨rfl, old, hold, Or.inl hnew⟩
  · next old new hold hnew =>
    split_ifs at h with same first
    · cases h
      exact Or.inl ⟨rfl, old, hold, Or.inr (same ▸ hnew)⟩
    · cases h
      exact Or.inr ⟨rfl, fun _ _ => by simp [hnew]⟩
  · next other _ =>
    cases h
    refine Or.inr ⟨rfl, fun word hw hu => ?_⟩
    exact other word hw hu

theorem SymbolTable.lookup_put (t : SymbolTable) (s : Symbol) (name : Text) :
    (t.put s).lookup name = if s.name = name then some s.value else t.lookup name := by
  unfold SymbolTable.lookup
  rw [SymbolTable.find?_put]
  split <;> rfl

theorem SymbolTable.lookup_define {t t' : SymbolTable} {s : Symbol} {firstPass : Bool}
    (h : t.define s firstPass = some t') (name : Text) :
    t'.lookup name =
      if s.name = name then some (Value.merge (t.lookup s.name) s.value) else t.lookup name := by
  rcases SymbolTable.define_cases h with ⟨rfl, word, hw, hv⟩ | ⟨rfl, hv⟩
  · split
    · next hn =>
      subst hn
      rcases hv with hv | hv <;> simp [hw, hv, Value.merge]
    · rfl
  · rw [SymbolTable.lookup_put]
    split
    · unfold Value.merge
      split
      · next word hw hu => exact absurd hu (hv word hw)
      · rfl
    · rfl

theorem Performed.present {config : Config} {w w' : Work} {outcome : Outcome} {m : Text}
    (h : Performed config w outcome w') (present : w.symbols.lookup m ≠ none) :
    w'.symbols.lookup m ≠ none := by
  cases h with
  | nothing | firstOrigin | origin | bytes | widths => exact present
  | binding _ bound =>
    rw [SymbolTable.lookup_define bound]
    split
    · simp
    · exact present

/-- The values bound in a pass follow the same rule as the table. -/
theorem lookup_defined (defined : List (Text × Value)) (name : Text) (value : Value) (m : Text) :
    (if value.isKnown || (defined.lookup name).isNone then (name, value) :: defined
      else defined).lookup m =
      if name = m then some (Value.merge (defined.lookup name) value) else defined.lookup m := by
  by_cases hn : name = m
  · subst hn
    rw [if_pos rfl]
    cases hd : defined.lookup name with
    | none => simp [Value.merge]
    | some old =>
      cases value with
      | known word => cases old <;> simp [Value.isKnown, Value.known?, Value.merge]
      | unresolved =>
        cases old <;> simp [Value.isKnown, Value.known?, Value.merge, hd]
  · rw [if_neg hn]
    split
    · have hm : (m == name) = false := beq_eq_false_iff_ne.mpr (Ne.symm hn)
      simp only [List.lookup_cons, hm]
    · rfl

theorem SymbolTable.known_of_unresolvedCount {t : SymbolTable} (h : t.unresolvedCount = 0)
    {s : Symbol} (hs : s ∈ t.entries) : ∃ word, s.value = .known word := by
  have known := List.countP_eq_zero.mp h s hs
  cases hv : s.value with
  | known word => exact ⟨word, rfl⟩
  | unresolved => simp [hv, Value.isKnown, Value.known?] at known

section StartPass

variable (config : Config) (pass : Nat) (w : Work)

@[simp] theorem startPass_pass : (w.startPass config pass).pass = pass := by
  unfold Work.startPass Work.reportIf
  split <;> rfl

@[simp] theorem startPass_symbols : (w.startPass config pass).symbols = w.symbols := by
  unfold Work.startPass Work.reportIf
  split <;> rfl

@[simp] theorem startPass_image : (w.startPass config pass).image = w.image.clear := by
  unfold Work.startPass Work.reportIf
  split <;> rfl

@[simp] theorem startPass_counter : (w.startPass config pass).counter = none := by
  unfold Work.startPass Work.reportIf
  split <;> rfl

@[simp] theorem startPass_widths : (w.startPass config pass).widths = {} := by
  unfold Work.startPass Work.reportIf
  split <;> rfl

@[simp] theorem startPass_unsettled : (w.startPass config pass).unsettled = false := by
  unfold Work.startPass Work.reportIf
  split <;> rfl

@[simp] theorem startPass_forward : (w.startPass config pass).forward = [] := by
  unfold Work.startPass Work.reportIf
  split <;> rfl

@[simp] theorem startPass_defined : (w.startPass config pass).defined = [] := by
  unfold Work.startPass Work.reportIf
  split <;> rfl

@[simp] theorem startPass_warnings : (w.startPass config pass).warnings = [] := by
  unfold Work.startPass Work.reportIf
  split <;> rfl

end StartPass

/-- A pass over lines all of which get done, with the widths remembered at the end. -/
inductive Passed (config : Config) : List Record → Work → List Record → Work → Prop where
  | nil (w : Work) : Passed config [] w [] w
  | cons {r : Record} {rest rest' : List Record} {w w₁ w₂ : Work}
      (line : (Step.runLine config r.source).run { w with hint := r.hint } = (.ok (), w₁))
      (more : Passed config rest w₁ rest' w₂) :
      Passed config (r :: rest) w ({ r with hint := w₁.hint } :: rest') w₂

theorem passed_of_runLines {config : Config} {records records' : List Record} {w w' : Work}
    (h : Work.runLines config records w = (none, records', w')) :
    Passed config records w records' w' := by
  induction records generalizing w records' with
  | nil =>
    cases h
    exact .nil w'
  | cons r rest ih =>
    rw [Work.runLines] at h
    split at h
    · cases h
    · next w₁ line =>
      rcases hm : Work.runLines config rest w₁ with ⟨ending, rest', w₂⟩
      simp only [hm] at h
      cases h
      exact .cons line (ih hm)

theorem Passed.runLines {config : Config} {records records' : List Record} {w w' : Work}
    (h : Passed config records w records' w') :
    Work.runLines config records w = (none, records', w') := by
  induction h with
  | nil w => rfl
  | cons line more ih =>
    rw [Work.runLines, line]
    simp only [ih]

/-- A pass comes to a line, with the work that the lines before it leave. -/
inductive Meets (config : Config) : List Record → Work → Record → Work → Prop where
  | here (r : Record) (rest : List Record) (w : Work) :
      Meets config (r :: rest) w r { w with hint := r.hint }
  | later {first r : Record} {rest : List Record} {w w₁ w₂ : Work}
      (line : (Step.runLine config first.source).run { w with hint := first.hint } = (.ok (), w₁))
      (more : Meets config rest w₁ r w₂) : Meets config (first :: rest) w r w₂

theorem Meets.mem {config : Config} {records : List Record} {r : Record} {w w' : Work}
    (h : Meets config records w r w') : r ∈ records := by
  induction h with
  | here => exact List.mem_cons_self
  | later _ _ ih => exact List.mem_cons_of_mem _ ih

/-- A pass that ends the run stops at a line that does not get done. -/
theorem Work.runLines_some {config : Config} {records records' : List Record} {w w' : Work}
    {ending : Ending} (h : Work.runLines config records w = (some ending, records', w')) :
    ∃ r v v' halt, Meets config records w r v ∧
      (Step.runLine config r.source).run v = (.error halt, v') ∧
      ending = halt.ending r.source := by
  induction records generalizing w records' with
  | nil => cases h
  | cons r rest ih =>
    rw [Work.runLines] at h
    split at h
    · next halt w₁ line =>
      cases h
      exact ⟨r, _, _, halt, .here r rest w, line, rfl⟩
    · next w₁ line =>
      rcases hm : Work.runLines config rest w₁ with ⟨ending', rest', w₂⟩
      simp only [hm] at h
      cases h
      obtain ⟨r', v, v', halt, met, stopped, ending⟩ := ih hm
      exact ⟨r', v, v', halt, .later line met, stopped, ending⟩

def Work.counters (config : Config) : List Record → Work → List (Option UInt32)
  | [], _ => []
  | r :: rest, w =>
    w.counter ::
      match (Step.runLine config r.source).run { w with hint := r.hint } with
      | (.error _, _) => []
      | (.ok (), w') => counters config rest w'

theorem Labelled.preserves {config : Config} {I : Work → Prop}
    (step : ∀ w outcome w', I w → Performed config w outcome w' → I w')
    {names : List Text} {w w' : Work} (h : Labelled config names w w') (hi : I w) : I w' := by
  induction h with
  | nil => exact hi
  | cons placed bound more ih => exact ih (step _ _ _ hi bound)

theorem CarriedOut.preserves {config : Config} {place : SourceLine} {I : Work → Prop}
    (trace : ∀ w place trace, I w → I (w.takeTrace config place trace))
    (step : ∀ w outcome w', I w → Performed config w outcome w' → I w')
    {w w' : Work} (h : CarriedOut config place w w') (hi : I w) : I w' := by
  obtain ⟨labels, _, performed⟩ := h
  exact step _ _ _ (trace _ _ _ (labels.preserves step hi)) performed

theorem Passed.preserves {config : Config} {I : Work → Prop}
    (hint : ∀ w hint, I w → I { w with hint })
    (trace : ∀ w place trace, I w → I (w.takeTrace config place trace))
    (step : ∀ w outcome w', I w → Performed config w outcome w' → I w')
    {records records' : List Record} {w w' : Work} (h : Passed config records w records' w')
    (hi : I w) : I w' := by
  induction h with
  | nil => exact hi
  | cons line more ih =>
    exact ih ((Step.runLine_run_ok line).preserves trace step (hint _ _ hi))

/-- What every trace and every outcome preserves holds wherever a pass comes to a line. -/
theorem Meets.preserves {config : Config} {I : Work → Prop}
    (hint : ∀ w hint, I w → I { w with hint })
    (trace : ∀ w place trace, I w → I (w.takeTrace config place trace))
    (step : ∀ w outcome w', I w → Performed config w outcome w' → I w')
    {records : List Record} {r : Record} {w w' : Work} (h : Meets config records w r w')
    (hi : I w) : I w' := by
  induction h with
  | here r rest w => exact hint w r.hint hi
  | later line more ih =>
    exact ih ((Step.runLine_run_ok line).preserves trace step (hint _ _ hi))

theorem Passed.sources {config : Config} {records records' : List Record} {w w' : Work}
    (h : Passed config records w records' w') :
    records'.map Record.source = records.map Record.source := by
  induction h with
  | nil => rfl
  | cons line more ih => simp [ih]

theorem CarriedOut.pass_eq {config : Config} {place : SourceLine} {w w' : Work}
    (h : CarriedOut config place w w') : w'.pass = w.pass := by
  refine h.preserves (I := fun v => v.pass = w.pass) ?_ ?_ rfl
  · intro v place trace hv
    rw [takeTrace_pass]
    exact hv
  · intro v outcome v' hv performed
    cases performed <;> exact hv

theorem Passed.pass_eq {config : Config} {records records' : List Record} {w w' : Work}
    (h : Passed config records w records' w') : w'.pass = w.pass := by
  induction h with
  | nil => rfl
  | cons line more ih => exact ih.trans (Step.runLine_run_ok line).pass_eq

/-- What trying symbols again can do to a table: one unresolved symbol after the other gets the
value that its own expression has by then. -/
inductive SymbolTable.Swept : SymbolTable → SymbolTable → Prop where
  | refl (t : SymbolTable) : Swept t t
  | step {t t' : SymbolTable} {s : Symbol} {word : UInt32} (found : t.find? s.name = some s)
      (waiting : s.value = .unresolved)
      (read : Expression.eval (t.env s.pc) s.expression = .ok word)
      (more : Swept (t.put { s with value := .known word }) t') : Swept t t'

theorem SymbolTable.Swept.trans {t t' t'' : SymbolTable} (h : t.Swept t') (h' : t'.Swept t'') :
    t.Swept t'' := by
  induction h with
  | refl => exact h'
  | step found waiting read _ ih => exact .step found waiting read (ih h')

theorem SymbolTable.Swept.names {t t' : SymbolTable} (h : t.Swept t') (m : Text) :
    t'.lookup m ≠ none ↔ t.lookup m ≠ none := by
  induction h with
  | refl => rfl
  | @step t t' s word found waiting read more ih =>
    rw [ih, SymbolTable.lookup_put]
    split
    · next same =>
      subst same
      simp [SymbolTable.lookup, found]
    · rfl

theorem SymbolTable.Swept.known {t t' : SymbolTable} (h : t.Swept t') {m : Text} {word : UInt32}
    (hm : t.lookup m = some (.known word)) : t'.lookup m = some (.known word) := by
  induction h with
  | refl => exact hm
  | @step t t' s word' found waiting read more ih =>
    refine ih ?_
    rw [SymbolTable.lookup_put]
    split
    · next same =>
      subst same
      simp [SymbolTable.lookup, found, waiting] at hm
    · exact hm

theorem SymbolTable.Swept.unresolved {t t' : SymbolTable} (h : t.Swept t') {m : Text}
    (waits : t'.lookup m = some .unresolved) : t.lookup m = some .unresolved := by
  rcases before : t.lookup m with _ | (word | _)
  · exact absurd before ((h.names m).mp (by rw [waits]; simp))
  · rw [h.known before] at waits
    cases waits
  · rfl

theorem SymbolTable.find?_name {t : SymbolTable} {name : Text} {s : Symbol}
    (h : t.find? name = some s) : s.name = name := by
  have := List.find?_some h
  simpa using this

theorem SymbolTable.retry_swept (t : SymbolTable) (name : Text) : t.Swept (t.retry name).2 := by
  unfold SymbolTable.retry SymbolTable.attempt
  split
  · exact .refl t
  · next s hs =>
    obtain rfl := SymbolTable.find?_name hs
    split
    · exact .refl t
    · next waiting =>
      have waiting : s.value = .unresolved := by
        cases hv : s.value with
        | known word => simp [hv, Value.isKnown, Value.known?] at waiting
        | unresolved => rfl
      split
      · next word read => exact .step hs waiting read (.refl _)
      · exact .refl t
      · exact .refl t
      · exact .refl t

/-- A change of symbols by trying them again, which touches nothing else but the log. -/
structure Work.Retried (w w' : Work) : Prop where
  swept : w.symbols.Swept w'.symbols
  frame : w' = { w with symbols := w'.symbols, log := w'.log }

namespace Work

theorem Retried.trans {w w' w'' : Work} (h : w.Retried w') (h' : w'.Retried w'') :
    w.Retried w'' := by
  refine ⟨h.swept.trans h'.swept, ?_⟩
  rw [h'.frame, h.frame]

theorem retried_report (w : Work) (notice : Notice) : w.Retried (w.report notice) :=
  ⟨.refl _, rfl⟩

theorem retry_retried (w : Work) (name : Text) : w.Retried (w.retry name).2 := by
  have swept := w.symbols.retry_swept name
  unfold Work.retry
  split
  · next h =>
    rw [h] at swept
    exact ⟨swept, rfl⟩
  · next h =>
    rw [h] at swept
    exact ⟨swept, rfl⟩

theorem sweepRound_retried (round : Nat) (names : List Text) (advanced : Nat) (w : Work) :
    w.Retried (sweepRound round names advanced w).2 := by
  induction names generalizing advanced w with
  | nil => exact ⟨.refl _, rfl⟩
  | cons name rest ih =>
    have first := w.retry_retried name
    rw [sweepRound]
    split
    · next h =>
      rw [h] at first
      exact first
    · next h =>
      rw [h] at first
      exact (first.trans (retried_report _ _)).trans (ih _ _)
    · next h =>
      rw [h] at first
      exact first.trans (ih _ _)

theorem sweep_retried (left round : Nat) (w : Work) : w.Retried (sweep left round w).2 := by
  induction left generalizing round w with
  | zero => exact ⟨.refl _, rfl⟩
  | succ left ih =>
    rw [sweep]
    split
    · exact ⟨.refl _, rfl⟩
    · have first := sweepRound_retried round w.symbols.unresolvedNames 0 w
      split
      · next h =>
        rw [h] at first
        exact first
      · next advanced w₁ h =>
        rw [h] at first
        have reported := first.trans
          (retried_report w₁ (.sweepRound round advanced w₁.symbols.unresolvedCount))
        dsimp only
        split
        · exact reported
        · exact reported.trans (ih _ _)

theorem retryAll_retried (w : Work) : w.Retried w.retryAll := by
  unfold Work.retryAll
  generalize w.symbols.unresolvedNames = names
  induction names generalizing w with
  | nil => exact ⟨.refl _, rfl⟩
  | cons name rest ih => exact (w.retry_retried name).trans (ih _)

theorem foldl_report (notices : List Notice) (w : Work) :
    w.Retried (notices.foldl (fun w notice => w.report notice) w) := by
  induction notices generalizing w with
  | nil => exact ⟨.refl _, rfl⟩
  | cons notice rest ih => exact (w.retried_report notice).trans (ih _)

end Work

namespace Assembly

/-- A pass that does not end the run carries out all lines; the sweep follows the first one. -/
theorem runPass_none {a a' : Assembly} {p : Nat} (h : a.runPass p = (none, a')) :
    ∃ w, Passed a.config a.records (a.work.startPass a.config p) a'.records w ∧
      w.Retried a'.work ∧ (p ≠ 1 → a'.work = w.finishPass) ∧ a'.config = a.config := by
  unfold runPass at h
  split at h
  · cases h
  · next records w lines =>
    split at h
    · next first =>
      have retried := w.finishPass.sweep_retried a.config.resolveBudget.toNat 1
      split at h
      · cases h
      · next sweep =>
        rw [sweep] at retried
        cases h
        exact ⟨w, passed_of_runLines lines, (w.retried_report _).trans retried,
          fun hp => absurd first hp, rfl⟩
    · cases h
      exact ⟨w, passed_of_runLines lines, w.retried_report _, fun _ => rfl, rfl⟩

/-- A pass that ends the run fails at a line, or it is the first and the sweep after it fails. -/
theorem runPass_some {a a' : Assembly} {p : Nat} {ending : Ending}
    (h : a.runPass p = (some ending, a')) :
    (∃ r v v' halt, Meets a.config a.records (a.work.startPass a.config p) r v ∧
      (Step.runLine a.config r.source).run v = (.error halt, v') ∧
      ending = halt.ending r.source) ∨
    ∃ records w w' cause, p = 1 ∧
      Passed a.config a.records (a.work.startPass a.config p) records w ∧
      w.finishPass.sweep a.config.resolveBudget.toNat 1 = (some cause, w') ∧
      ending = .failed ⟨cause.problem, []⟩ := by
  unfold runPass at h
  split at h
  · next lines =>
    cases h
    exact Or.inl (Work.runLines_some lines)
  · next lines =>
    split at h
    · next first =>
      split at h
      · next cause _ swept =>
        cases h
        exact Or.inr ⟨_, _, _, cause, first, passed_of_runLines lines, swept, rfl⟩
      · cases h
    · cases h

theorem runPass_ne_done {a a' : Assembly} {p : Nat} : a.runPass p ≠ (some .done, a') := by
  intro h
  rcases runPass_some h with ⟨_, _, _, halt, _, _, ending⟩ | ⟨_, _, _, _, _, _, _, ending⟩
  · cases halt <;> cases ending
  · cases ending

/-- A run that gives up tries every symbol once more and then reports what is open, unless the
number of its last pass is the greatest there is. -/
theorem giveUp_cases {a b : Assembly} {ending : Ending} (h : a.giveUp = (ending, b)) :
    (ending = .crashed ∧ b = a ∧ a.config.maxPasses.toNat + 1 = UInt32.size) ∨
    (ending = .failed (b.work.exhaustion a.config) ∧ a.work.Retried b.work) := by
  unfold giveUp at h
  split at h
  · next top =>
    cases h
    exact Or.inl ⟨rfl, rfl, top⟩
  · cases h
    exact Or.inr ⟨rfl, (a.work.retryAll_retried.trans (Work.retried_report _ _)).trans
      (Work.foldl_report _ _)⟩

theorem giveUp_ne_done {a a' : Assembly} : a.giveUp ≠ (.done, a') := by
  intro h
  rcases giveUp_cases h with ⟨ending, _⟩ | ⟨ending, _⟩ <;> cases ending

/-- The assemblies that lie between the passes of a run, with the number of passes done. -/
inductive Reached (start : Assembly) : Nat → Assembly → Prop where
  | start : Reached start 0 start
  | pass {p : Nat} {a a' : Assembly} (before : Reached start p a)
      (passed : a.runPass (p + 1) = (none, a')) : Reached start (p + 1) a'

theorem Reached.config_eq {start a : Assembly} {p : Nat} (h : start.Reached p a) :
    a.config = start.config := by
  induction h with
  | start => rfl
  | pass _ passed ih =>
    obtain ⟨_, _, _, _, same⟩ := runPass_none passed
    exact same.trans ih

theorem Reached.sources {start a : Assembly} {p : Nat} (h : start.Reached p a) :
    a.records.map Record.source = start.records.map Record.source := by
  induction h with
  | start => rfl
  | pass _ passed ih =>
    obtain ⟨_, lines, _⟩ := runPass_none passed
    exact lines.sources.trans ih

theorem Reached.pass_eq {start a : Assembly} {p : Nat} (h : start.Reached (p + 1) a) :
    a.work.pass = p + 1 := by
  cases h with
  | pass before passed =>
    obtain ⟨w, done, retried, _⟩ := runPass_none passed
    rw [retried.frame]
    exact done.pass_eq.trans (startPass_pass _ _ _)

/-- How a run ends: a pass settles everything, a pass or the sweep fails, or no pass is left. -/
theorem runPasses_cases {start a b : Assembly} {left p : Nat} {ending : Ending}
    (reached : start.Reached p a) (unsettled : p ≠ 0 → a.work.settled = false)
    (h : a.runPasses left (p + 1) = (ending, b)) :
    (∃ q a', start.Reached (q + 1) a' ∧ a'.work.settled = true ∧ ending = .done ∧
      ∃ log, b = { a' with work := { a'.work with log }, stage := .done }) ∨
    (∃ q a', start.Reached q a' ∧ a'.runPass (q + 1) = (some ending, b)) ∨
    (∃ a', start.Reached (p + left) a' ∧ (p + left ≠ 0 → a'.work.settled = false) ∧
      a'.giveUp = (ending, b)) := by
  induction left generalizing p a with
  | zero => exact Or.inr (Or.inr ⟨a, reached, unsettled, h⟩)
  | succ left ih =>
    rw [runPasses] at h
    split at h
    · next failed =>
      cases h
      exact Or.inr (Or.inl ⟨p, a, reached, failed⟩)
    · next a' passed =>
      have reached' := Reached.pass reached passed
      split at h
      · next settled =>
        cases h
        refine Or.inl ⟨p, a', reached', settled, rfl, ?_⟩
        unfold Work.reportIf
        split
        · exact ⟨_, rfl⟩
        · exact ⟨a'.work.log, rfl⟩
      · next unsettled' =>
        have cases := ih reached' (fun _ => by simpa using unsettled') h
        rwa [Nat.add_assoc, Nat.add_comm 1] at cases

theorem two_le_maxPasses {config : Config} (valid : config.validate = .ok ()) :
    2 ≤ config.maxPasses.toNat := by
  unfold Config.validate at valid
  split_ifs at valid with empty few
  rw [UInt32.lt_iff_toNat_lt] at few
  exact Nat.not_lt.mp few

theorem run_new_cases {config : Config} {lines : List SourceLine} {ending : Ending} {b : Assembly}
    (h : (new config lines).run = (ending, b)) :
    (∃ cause, config.validate = .error cause ∧ ending = .failed ⟨cause.problem, []⟩) ∨
    config.validate = .ok () ∧
    ((∃ q a, (new config lines).Reached (q + 1) a ∧ a.work.settled = true ∧ ending = .done ∧
      ∃ log, b = { a with work := { a.work with log }, stage := .done }) ∨
    (∃ q a, (new config lines).Reached q a ∧ a.runPass (q + 1) = (some ending, b)) ∨
    (∃ a, (new config lines).Reached config.maxPasses.toNat a ∧
      (config.maxPasses.toNat ≠ 0 → a.work.settled = false) ∧ a.giveUp = (ending, b))) := by
  unfold run at h
  dsimp only at h
  split at h
  · next cause invalid =>
    cases h
    exact Or.inl ⟨cause, invalid, rfl⟩
  · next valid =>
    have cases := runPasses_cases .start (fun hp => absurd rfl hp) h
    rw [Nat.zero_add] at cases
    exact Or.inr ⟨valid, cases⟩

/-- A run of a new assembly that is done ends with a pass that settles everything. -/
theorem reached_of_run_done {config : Config} {lines : List SourceLine} {b : Assembly}
    (h : (new config lines).run = (.done, b)) :
    config.validate = .ok () ∧ ∃ q a, (new config lines).Reached (q + 1) a ∧
      a.work.settled = true ∧
      ∃ log, b = { a with work := { a.work with log }, stage := .done } := by
  rcases run_new_cases h with ⟨_, _, ending⟩ | ⟨valid, done | ⟨_, _, _, failed⟩ | ⟨_, _, _, gave⟩⟩
  · cases ending
  · obtain ⟨q, a, reached, settled, _, eq⟩ := done
    exact ⟨valid, q, a, reached, settled, eq⟩
  · exact absurd failed runPass_ne_done
  · exact absurd gave giveUp_ne_done

end Assembly

end Assembler65816
