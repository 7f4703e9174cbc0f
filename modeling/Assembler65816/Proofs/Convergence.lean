import Assembler65816.Proofs.Faults
import Assembler65816.Proofs.Stability
import Mathlib.Data.Finset.Card
import Mathlib.Data.Finset.Dedup

/-! # Convergence

When no name starts with a digit, a pass that learns no new value leaves the run stuck: no later
pass and no retry learns one either. Every other pass learns a value, so two passes more than there
are names are enough. What is open after them is a name that nothing defines or a symbol that cannot
get a value, never values that keep moving.
-/
namespace Assembler65816

/-- A name was missed, a symbol stood without a value, or a name had two values. -/
inductive Blamed (firstPass : Bool) (ds : List Definition) (b₀ b₁ : Bindings)
    (forward : List ForwardRef) : Prop where
  | missed (some : forward ≠ [])
  | waiting {b : Bindings} {name : Text} (visit : Visits firstPass ds b₀ b₁ b)
      (waits : b.symbols.lookup name = some .unresolved)
  | moved {b b' : Bindings} {name : Text} {old new : UInt32}
      (visit : Visits firstPass ds b₀ b₁ b) (visit' : Visits firstPass ds b₀ b₁ b')
      (before : b.symbols.lookup name = some (.known old))
      (after : b'.symbols.lookup name = some (.known new)) (differ : old ≠ new)

section Blamed

variable {firstPass : Bool} {ds more : List Definition} {b b₀ b₁ b₂ : Bindings}
  {forward forward' : List ForwardRef}

theorem Visits.after (h : Visits firstPass ds b₁ b₂ b) (left : Bound firstPass more b₀ b₁) :
    Visits firstPass (more ++ ds) b₀ b₂ b := by
  obtain ⟨pre, post, rfl, before, rest⟩ := h
  exact ⟨more ++ pre, post, by simp, left.append before, rest⟩

theorem Visits.before (h : Visits firstPass ds b₀ b₁ b) (right : Bound firstPass more b₁ b₂) :
    Visits firstPass (ds ++ more) b₀ b₂ b := by
  obtain ⟨pre, post, rfl, before, rest⟩ := h
  exact ⟨pre, post ++ more, by simp, before, rest.append right⟩

theorem Blamed.after (h : Blamed firstPass ds b₁ b₂ forward) (left : Bound firstPass more b₀ b₁) :
    Blamed firstPass (more ++ ds) b₀ b₂ forward := by
  cases h with
  | missed some => exact .missed some
  | waiting visit waits => exact .waiting (visit.after left) waits
  | moved visit visit' before after differ =>
    exact .moved (visit.after left) (visit'.after left) before after differ

theorem Blamed.before (h : Blamed firstPass ds b₀ b₁ forward) (right : Bound firstPass more b₁ b₂)
    (kept : forward ≠ [] → forward' ≠ []) : Blamed firstPass (ds ++ more) b₀ b₂ forward' := by
  cases h with
  | missed some => exact .missed (kept some)
  | waiting visit waits => exact .waiting (visit.before right) waits
  | moved visit visit' before after differ =>
    exact .moved (visit.before right) (visit'.before right) before after differ

end Blamed

section Lines

variable {config : Config} {w w' : Work}

/-- A binding asks for another pass only where it gives a name another value. -/
theorem Performed.moved_of_unsettled {name expression : Text} {value : Value}
    (h : Performed config w (.binding name expression value) w') (asks : w'.unsettled = true) :
    w.unsettled = true ∨ ∃ old new, w.symbols.lookup name = some (.known old) ∧
      w'.symbols.lookup name = some (.known new) ∧ old ≠ new := by
  cases h with
  | binding agrees bound =>
    rcases Bool.or_eq_true_iff.mp asks with before | moved
    · exact Or.inl before
    · right
      have lookup := SymbolTable.lookup_define bound name
      have contradicts := (Bool.and_eq_true_iff.mp moved).2
      unfold Step.contradicts at contradicts
      split at contradicts
      · next old new found =>
        refine ⟨old, new, found, ?_, by simpa using contradicts⟩
        dsimp only
        rw [lookup, if_pos rfl]
        simp [Value.merge]
      · cases contradicts

theorem Labelled.blamed {names : List Text} (h : Labelled config names w w')
    (hw : w.symbols.Worded) (hn : ∀ name ∈ names, isWord name) (asks : w'.unsettled = true) :
    w.unsettled = true ∨ Blamed (w.pass == 1) (names.map (⟨·, ['$'], w.counter⟩)) w.bindings
      w'.bindings w'.forward := by
  induction h with
  | nil => exact Or.inl asks
  | @cons name rest w w₁ w₂ pc placed bound more ih =>
    have one : Labelled config [name] w w₁ := .cons placed bound (.nil _)
    have frame := one.frame
    have first := one.bound hw (by simpa using hn name (by simp))
    have hn' : ∀ name ∈ rest, isWord name := fun name h => hn name (by simp [h])
    have worded : w₁.symbols.Worded := first.worded hw (by simpa using hn name (by simp))
    have last := more.bound worded hn'
    have rest_blamed := ih worded hn' asks
    rw [frame.pass, frame.counter] at last rest_blamed
    rcases rest_blamed with asked | blamed
    · rcases bound.moved_of_unsettled asked with before | ⟨old, new, found, found', differ⟩
      · exact Or.inl before
      · exact Or.inr (.moved (first.append last).visits_start
          (first.visits_end.before last) found found' differ)
    · exact Or.inr (blamed.after first)

theorem CarriedOut.blamed {place : SourceLine} (h : CarriedOut config place w w')
    (hw : w.symbols.Worded) (asks : w'.unsettled = true) :
    w.unsettled = true ∨ Blamed (w.pass == 1)
      ((ParsedLine.ofText place.text).definitions w.counter) w.bindings w'.bindings
      w'.forward := by
  obtain @⟨labelled, outcome, trace, _, labels, read, performed⟩ := h
  have words : ∀ name ∈ (ParsedLine.ofText place.text).labels, isWord name :=
    fun name h => ParsedLine.isWord_of_mem_labels h
  have frame := labels.frame
  have left := labels.bound hw words
  have right := performed.bound read
  rw [frame.pass, frame.counter] at right
  have forward : w'.forward = labelled.forward ++ trace.missed.map (⟨·, place⟩) := by
    rw [performed.frame.2.2, takeTrace_forward]
  -- The statement moved a value, or what came before it asks for another pass.
  have asked : (labelled.takeTrace config place trace).unsettled = true ∨
      ∃ name old new, labelled.symbols.lookup name = some (.known old) ∧
        w'.symbols.lookup name = some (.known new) ∧ old ≠ new := by
    rcases Statement.outcome_binds read with ⟨name, expression, value, _, rfl, _⟩ | ⟨_, other⟩
    · have moved := performed.moved_of_unsettled asks
      rw [takeTrace_symbols] at moved
      exact moved.imp_right fun h => ⟨name, h⟩
    · rw [(performed.bindings_eq other).2] at asks
      exact Or.inl asks
  rcases asked with asked | ⟨name, old, new, found, found', differ⟩
  · rw [takeTrace_unsettled, Bool.or_eq_true_iff] at asked
    rcases asked with asked | deferred
    · refine (labels.blamed hw words asked).imp_right fun blamed => blamed.before right ?_
      intro some
      rw [forward]
      simp [some]
    · right
      have blamed := (ParsedLine.outcome_follows (Env.Extends.refl labelled.env) labelled.widths
        place.text).blamed { hint := labelled.hint }
      rw [read] at blamed
      rcases blamed deferred with impossible | missed | ⟨name, waits⟩
      · cases impossible
      · exact .missed (by rw [forward]; simp [missed])
      · exact .waiting (left.visits_end.before right) waits
  · exact Or.inr (.moved (left.visits_end.before right) (left.append right).visits_end found found'
      differ)

theorem CarriedOut.forward_kept {place : SourceLine} (h : CarriedOut config place w w')
    (some : w.forward ≠ []) : w'.forward ≠ [] := by
  refine h.preserves (I := fun v => v.forward ≠ []) ?_ ?_ some
  · intro v place trace hv
    rw [takeTrace_forward]
    simp [hv]
  · intro v outcome v' hv performed
    rw [performed.frame.2.2]
    exact hv

theorem Passed.forward_kept {records records' : List Record}
    (h : Passed config records w records' w') (some : w.forward ≠ []) : w'.forward ≠ [] := by
  induction h with
  | nil => exact some
  | cons line more ih => exact ih ((Step.runLine_run_ok line).forward_kept some)

theorem Passed.blamed {records records' : List Record} (h : Passed config records w records' w')
    (hw : w.symbols.Worded) (asks : w'.unsettled = true) :
    w.unsettled = true ∨ Blamed (w.pass == 1)
      (definitionsAt (records.map Record.source) (Work.counters config records w)) w.bindings
      w'.bindings w'.forward := by
  induction h with
  | nil => exact Or.inl asks
  | @cons r rest rest' w w₁ w₂ line more ih =>
    have carried := Step.runLine_run_ok line
    have first := carried.bound hw
    have worded := first.worded hw fun d hd => ParsedLine.isWord_of_mem_definitions hd
    have last := more.bound worded
    have rest_blamed := ih worded asks
    rw [show w₁.pass = w.pass from carried.pass_eq] at last rest_blamed
    rw [List.map_cons, Work.counters, line]
    rcases rest_blamed with asked | blamed
    · exact (carried.blamed hw asked).imp_right fun blamed =>
        blamed.before last more.forward_kept
    · exact Or.inr (blamed.after first)

end Lines

def SymbolTable.Closed (ds : List Definition) (t : SymbolTable) : Prop :=
  ∀ d ∈ ds, ∀ word, Expression.eval (t.env d.pc) d.expression = .ok word →
    ∃ word', t.lookup d.name = some (.known word')

def SymbolTable.KnowsAllOf (t t' : SymbolTable) : Prop :=
  ∀ m word, t'.lookup m = some (.known word) → ∃ word', t.lookup m = some (.known word')

theorem SymbolTable.Swept.eq_of_closed {ds : List Definition} {t t' : SymbolTable}
    (h : t.Swept t') (closed : t.Closed ds) (sound : t.Sound ds) : t' = t := by
  cases h with
  | refl => rfl
  | @step _ _ s word found waiting read more =>
    obtain ⟨word', known⟩ := closed s.definition (sound.origins _ _ found) word read
    have value : t.lookup s.name = some s.value := by simp [SymbolTable.lookup, found]
    rw [waiting] at value
    exact absurd (value.symm.trans known) (by simp)

section Pass

variable {firstPass : Bool} {ds : List Definition} {t : SymbolTable} {b b₁ : Bindings}

theorem Visits.present_start (visit : Visits firstPass ds ⟨t, []⟩ b₁ b)
    (full : ∀ d ∈ ds, t.lookup d.name ≠ none) {m : Text} (hm : b.symbols.lookup m ≠ none) :
    t.lookup m ≠ none := by
  obtain ⟨pre, post, rfl, left, _⟩ := visit
  rcases (left.names m).mp hm with before | later
  · exact before
  · obtain ⟨d, mem, rfl⟩ := List.mem_map.mp later
    exact full d (List.mem_append_left _ mem)

/-- A pass that learned nothing leaves a closed table: each definition was met with the values of
the end already in place. -/
theorem Bound.closed_of_knowsAllOf (pass : Bound firstPass ds ⟨t, []⟩ b₁) (sound : t.Sound ds)
    (names : ∀ d ∈ ds, isSymbolName d.name = true) (full : ∀ d ∈ ds, t.lookup d.name ≠ none)
    (same : t.KnowsAllOf b₁.symbols) : b₁.symbols.Closed ds := by
  intro d mem word read
  obtain ⟨here, rest, visit, bound⟩ := pass.visits_definition mem
  have env_extends : (b₁.symbols.env d.pc).Extends (here.symbols.env d.pc) := by
    refine ⟨rfl, fun m v hm => ?_, fun m hm => ?_, fun m _ => ?_⟩
    · obtain ⟨v', known⟩ := same m v hm
      obtain rfl := known_inj hm (pass.visits_start.known_end pass sound names known)
      exact pass.grounded_kept sound.named names (sound.grounded m v known) here visit
    · exact visit.present (pass.visits_end.present_start full hm)
    · exact (visit.named sound.named names).fresh m
  have again := bound.binds_read (Expression.eval_of_extends env_extends read)
  exact ⟨word, pass.coherent_end d.name word again⟩

theorem Bound.knowsAllOf_of_closed (pass : Bound firstPass ds ⟨t, []⟩ b₁) (sound : t.Sound ds)
    (names : ∀ d ∈ ds, isSymbolName d.name = true) (full : ∀ d ∈ ds, t.lookup d.name ≠ none)
    (closed : t.Closed ds) : t.KnowsAllOf b₁.symbols := by
  refine pass.visits_induction (P := fun b => t.KnowsAllOf b.symbols) ?_ ?_
  · exact fun m word hm => ⟨word, hm⟩
  · intro d mem b b' visit visit' binds known m word hm
    obtain ⟨value, reads, _, symbols, _⟩ := binds.lookups
    rw [symbols m] at hm
    split at hm
    · next same =>
      subst same
      rcases Value.merge_known (Option.some.inj hm) with rfl | ⟨_, old⟩
      · have env_extends : (b.symbols.env d.pc).Extends (t.env d.pc) := by
          refine ⟨rfl, fun m v hm => ?_, fun m hm => visit.present_start full hm, fun m _ => ?_⟩
          · obtain ⟨v', known'⟩ := known m v hm
            have still := pass.grounded_kept sound.named names (sound.grounded m v' known') b visit
            obtain rfl := known_inj hm still
            exact known'
          · exact sound.named.fresh m
        exact closed d mem word
          (Expression.eval_of_extends env_extends ((reads word).mpr rfl))
      · exact known _ _ old
    · exact known m word hm

/-- Where every name has a value from the start, only a missed name asks for another pass. -/
theorem Blamed.forward_ne_nil {forward : List ForwardRef}
    (h : Blamed firstPass ds ⟨t, []⟩ b₁ forward) (pass : Bound firstPass ds ⟨t, []⟩ b₁)
    (sound : t.Sound ds) (names : ∀ d ∈ ds, isSymbolName d.name = true)
    (full : ∀ d ∈ ds, t.lookup d.name ≠ none)
    (known : ∀ m, t.lookup m ≠ none → ∃ word, t.lookup m = some (.known word)) :
    forward ≠ [] := by
  cases h with
  | missed some => exact some
  | waiting visit waits =>
    obtain ⟨word, value⟩ := known _ (visit.present_start full (by rw [waits]; simp))
    have still := pass.grounded_kept sound.named names (sound.grounded _ word value) _ visit
    rw [waits] at still
    cases still
  | moved visit visit' before after differ =>
    have old := visit.known_end pass sound names before
    have new := visit'.known_end pass sound names after
    exact absurd (known_inj old new) differ

end Pass

def knownNames (lines : List SourceLine) (t : SymbolTable) : Finset Text :=
  (definedNames lines).toFinset.filter fun name => (t.lookup name).any Value.isKnown = true

theorem mem_knownNames {lines : List SourceLine} {t : SymbolTable} {name : Text} :
    name ∈ knownNames lines t ↔
      name ∈ definedNames lines ∧ ∃ word, t.lookup name = some (.known word) := by
  unfold knownNames
  rw [Finset.mem_filter, List.mem_toFinset]
  refine and_congr_right fun _ => ?_
  rcases t.lookup name with _ | (word | _) <;> simp [Value.isKnown, Value.known?]

theorem SymbolTable.unresolvedCount_of_names {t : SymbolTable} (h : t.unresolvedNames = []) :
    t.unresolvedCount = 0 := by
  unfold SymbolTable.unresolvedCount
  rw [List.countP_eq_length_filter, List.map_eq_nil_iff.mp h]
  rfl

theorem SymbolTable.lookup_known {t : SymbolTable} (h : t.unresolvedCount = 0) {m : Text}
    (hm : t.lookup m ≠ none) : ∃ word, t.lookup m = some (.known word) := by
  unfold SymbolTable.lookup at hm ⊢
  cases found : t.find? m with
  | none => simp [found] at hm
  | some s =>
    obtain ⟨word, value⟩ := SymbolTable.known_of_unresolvedCount h (List.mem_of_find?_eq_some found)
    exact ⟨word, by simp [value]⟩

/-- A run that is used up reports moving values only if nothing else is open. -/
theorem Work.exhaustion_kind {config : Config} {w : Work}
    (h : (w.exhaustion config).problem.kind = .passBudget) :
    w.forward = [] ∧ w.symbols.unresolvedNames = [] := by
  unfold Work.exhaustion at h
  split at h
  · rw [Fault.kind_problem] at h
    cases h
  · rw [Fault.kind_problem] at h
    cases h
  · next forward names => exact ⟨forward, names⟩

namespace Assembly

variable {config : Config} {lines : List SourceLine} {p : Nat} {a a' : Assembly}

theorem Reached.full (letters : LetterNames lines) (h : (new config lines).Reached (p + 1) a) :
    ∀ d ∈ definitions config lines, a.work.symbols.lookup d.name ≠ none := by
  intro d hd
  apply (h.names d.name).mpr
  refine ⟨by omega, ?_⟩
  rw [← map_name_definitions letters h]
  exact List.mem_map_of_mem hd

theorem Reached.closed (letters : LetterNames lines) (h : (new config lines).Reached (p + 1) a)
    (passed : a.runPass (p + 1 + 1) = (none, a'))
    (same : a.work.symbols.KnowsAllOf a'.work.symbols) :
    a'.work.symbols.Closed (definitions config lines) := by
  obtain ⟨w, bound, _, _, later⟩ := h.bound letters passed
  rw [later (by omega)] at same ⊢
  exact bound.closed_of_knowsAllOf (h.sound letters) (h.definitions_named letters)
    (h.full letters) same

theorem Reached.stuck (letters : LetterNames lines) (h : (new config lines).Reached (p + 1) a)
    (passed : a.runPass (p + 1 + 1) = (none, a'))
    (closed : a.work.symbols.Closed (definitions config lines)) :
    a.work.symbols.KnowsAllOf a'.work.symbols := by
  obtain ⟨w, bound, _, _, later⟩ := h.bound letters passed
  rw [later (by omega)]
  exact bound.knowsAllOf_of_closed (h.sound letters) (h.definitions_named letters)
    (h.full letters) closed

/-- After so many passes, either the last one learned nothing or at least one name less than there
were passes has a value. -/
theorem Reached.progress (letters : LetterNames lines)
    (h : (new config lines).Reached (p + 1) a) :
    (∃ q a₀, p = q + 1 ∧ (new config lines).Reached p a₀ ∧ a₀.runPass (p + 1) = (none, a) ∧
      a₀.work.symbols.KnowsAllOf a.work.symbols) ∨
    p ≤ (knownNames lines a.work.symbols).card := by
  induction p generalizing a with
  | zero => exact Or.inr (Nat.zero_le _)
  | succ p ih =>
    cases h with
    | @pass _ a₀ _ before passed =>
      by_cases same : a₀.work.symbols.KnowsAllOf a.work.symbols
      · exact Or.inl ⟨p, a₀, rfl, before, passed, same⟩
      · right
        rcases ih before with ⟨q, a₁, rfl, earlier, passed', stuck⟩ | learned
        · exact absurd (before.stuck letters passed (earlier.closed letters passed' stuck)) same
        · have more : knownNames lines a₀.work.symbols ⊂ knownNames lines a.work.symbols := by
            apply Finset.ssubset_iff_subset_ne.mpr
            refine ⟨fun m hm => ?_, fun eq => same fun m word hm => ?_⟩
            · obtain ⟨mem, word, known⟩ := mem_knownNames.mp hm
              exact mem_knownNames.mpr ⟨mem, word, before.known_step letters passed known⟩
            · have present := ((Reached.pass before passed).names m).mp (by rw [hm]; simp)
              have here : m ∈ knownNames lines a.work.symbols :=
                mem_knownNames.mpr ⟨present.2, word, hm⟩
              rw [← eq] at here
              exact (mem_knownNames.mp here).2
          have lt := Finset.card_lt_card more
          omega

/-- After two passes more than there are names, a run that is not settled has missed a name, or a
symbol has no value and gets none by being tried again. -/
theorem Reached.open_end (letters : LetterNames lines) (h : (new config lines).Reached (p + 2) a)
    (enough : (definedNames lines).toFinset.card ≤ p) (unsettled : a.work.settled = false)
    (forward : a.work.forward = []) {t : SymbolTable} (swept : a.work.symbols.Swept t) :
    t.unresolvedNames ≠ [] := by
  intro resolved
  have few : (knownNames lines a.work.symbols).card ≤ p :=
    (Finset.card_filter_le _ _).trans enough
  rcases h.progress letters with ⟨q, a₀, _, before, passed, same⟩ | many
  · -- The last pass learned nothing, so the table is closed and the retries change nothing.
    have closed := before.closed letters passed same
    rw [swept.eq_of_closed closed (h.sound letters)] at resolved
    have count := SymbolTable.unresolvedCount_of_names resolved
    have known : ∀ m, a₀.work.symbols.lookup m ≠ none →
        ∃ word, a₀.work.symbols.lookup m = some (.known word) := by
      intro m hm
      have present := (h.names m).mpr ⟨by omega, ((before.names m).mp hm).2⟩
      obtain ⟨word, value⟩ := SymbolTable.lookup_known count present
      exact same m word value
    -- With every name known from the start of the last pass, only a missed name is left to blame.
    obtain ⟨w, bound, done, _, later⟩ := before.bound letters passed
    have asks : w.unsettled = true := by
      have asks : a.work.unsettled = true := by
        simpa [Work.settled, h.pass_eq, count] using unsettled
      rwa [later (by omega)] at asks
    rcases done.blamed (by rw [startPass_symbols]; exact before.worded) asks with asked | blamed
    · rw [startPass_unsettled] at asked
      cases asked
    · have first : (p + 1 + 1 == 1) = (p + 1 == 0) := by simp
      rw [before.definitions_eq letters passed, startPass_pass, Work.bindings, startPass_symbols,
        startPass_defined, first] at blamed
      have missed := blamed.forward_ne_nil bound (before.sound letters)
        (before.definitions_named letters) (before.full letters) known
      rw [later (by omega)] at forward
      exact missed forward
  · omega

/-- Convergence. With two passes more than there are distinct names, a run fails for not converging
only if some name starts with a digit. -/
theorem digit_name_of_no_convergence {failure : Failure}
    (enough : (definedNames lines).toFinset.card + 2 ≤ config.maxPasses.toNat)
    (failed : (new config lines).run = (.failed failure, a))
    (kind : failure.problem.kind = .passBudget) :
    ∃ name ∈ definedNames lines, startsWithDigit name = true := by
  by_contra none
  have letters : LetterNames lines := by
    intro name mem
    by_contra digit
    exact none ⟨name, mem, by simpa using digit⟩
  rcases run_new_cases failed with ⟨cause, _, ending⟩ | ⟨_, done | ⟨_, _, _, ended⟩ | last⟩
  · cases ending
    cases cause <;> cases kind
  · obtain ⟨_, _, _, _, ending, _⟩ := done
    cases ending
  · exact runPass_kind ended kind
  · obtain ⟨a₁, reached, unsettled, gave⟩ := last
    unfold giveUp at gave
    split at gave
    · cases gave
    · obtain ⟨left, passes⟩ := Nat.exists_eq_add_of_le' enough
      cases gave
      obtain ⟨forward, resolved⟩ := Work.exhaustion_kind kind
      have retried := (a₁.work.retryAll_retried.trans (Work.retried_report _
        (.budgetExhausted a₁.config.maxPasses.toNat))).trans (Work.foldl_report
          (Notice.ofTable (a₁.work.retryAll.report
            (.budgetExhausted a₁.config.maxPasses.toNat)).symbols) _)
      rw [retried.frame] at forward
      rw [passes, ← Nat.add_assoc] at reached
      exact reached.open_end letters (by omega) (unsettled (by omega)) forward retried.swept
        resolved

/-- A name that starts with a digit and grows in each pass: from the second one on, its expression
reads the name where the first one read the numeral. -/
def growingSource : List SourceLine :=
  SourceLine.ofText "growing.asm" (" org $80\n1 equ \x7b1 2 +\x7d\n".toList)

theorem digit_name_of_no_convergence_growing :
    ∃ failure a, (definedNames growingSource).toFinset.card + 2 ≤ 3 ∧
      (new { romSize := 16, maxPasses := 3 } growingSource).run = (.failed failure, a) ∧
      failure.problem.kind = .passBudget ∧
      ∃ name ∈ definedNames growingSource, startsWithDigit name = true := by
  have enough : (definedNames growingSource).toFinset.card + 2 ≤
      (Config.maxPasses { romSize := 16, maxPasses := 3 }).toNat := by decide +kernel
  have ends : (match (new { romSize := 16, maxPasses := 3 } growingSource).run.1 with
      | .failed failure => decide (failure.problem.kind = .passBudget)
      | _ => false) = true := by decide +kernel
  rcases run : (new { romSize := 16, maxPasses := 3 } growingSource).run with ⟨ending, a⟩
  rw [run] at ends
  cases ending with
  | failed failure =>
    have kind : failure.problem.kind = .passBudget := by simpa using ends
    exact ⟨failure, a, enough, rfl, kind, digit_name_of_no_convergence enough run kind⟩
  | done => cases ends
  | crashed => cases ends

end Assembly

end Assembler65816
