import Assembler65816.Proofs.Line

/-! # Signals of an evaluation

An evaluation asks for another pass exactly when it comes to no value. Then one symbol stopped it:
a name that is in no table is noted, once, and a symbol that waits for its value is not. A value or
a fault leaves everything as it was. This holds of every text, in all forms of expressions, for a
table alone as for the line at hand.
-/
namespace Assembler65816

namespace Expression

variable {env : Env} {form : Form} {text name other : Text}

/-- The symbol that stops an evaluation. Whatever else becomes known, the answer stays as long as
this symbol has no value. -/
structure StopsAt (env : Env) (form : Form) (text name : Text) : Prop where
  unknown : env.lookup name = none ∨ env.lookup name = some .unresolved
  stays : ∀ more, env.Extends more → more.lookup name = env.lookup name →
    evalForm more form text = evalForm env form text

theorem enclosedBody?_head {t body : Text} (h : enclosedBody? t = some body) :
    t.head? = some '(' := by
  unfold enclosedBody? at h
  split at h
  · next closed =>
    simp only [Bool.and_eq_true, decide_eq_true_eq] at closed
    exact closed.1
  · cases h

-- A text that is to be one group and does not start as one may be any word of the table. It is
-- then a symbol or refused, so `evalWithin_advances`, which knows of symbol names only, is not
-- needed for it.
theorem evalForm_enclosed_open {t : Text} (h : (Text.trim t).head? ≠ some '(') (env : Env) :
    evalForm env .enclosed t =
      match env.lookup (Text.trim t) with
      | some value => valueOf value
      | none => .error (.fault (.unterminated (Text.trim t))) := by
  have refused : enclosedBody? (Text.trim t) = none := by
    cases found : enclosedBody? (Text.trim t) with
    | none => rfl
    | some body => exact absurd (enclosedBody?_head found) h
  refine (evalForm_enclosed env t).trans ?_
  cases env.lookup (Text.trim t) with
  | some value => rfl
  | none => simp only [refused]

theorem stopsAt_of_missing (h : evalForm env form text = .error (.missing name)) :
    isSymbolName name = true ∧ env.lookup name = none ∧ StopsAt env form text name := by
  by_cases group : form = .enclosed → (Text.trim text).head? = some '('
  · have answer := (evalWithin_advances env (text.length + 2) form text group).answer
    dsimp only at answer
    rw [show evalWithin env (text.length + 2) form text = _ from h] at answer
    obtain ⟨symbol, absent, stays⟩ := answer
    refine ⟨symbol, absent, Or.inl absent, fun more ext same => ?_⟩
    rw [h]
    exact stays more ext (same.trans absent)
  · obtain ⟨rfl, apart⟩ := Classical.not_imp.mp group
    rw [evalForm_enclosed_open apart] at h
    rcases found : env.lookup (Text.trim text) with _ | (word | _) <;> rw [found] at h <;> cases h

theorem stopsAt_of_pending (h : evalForm env form text = .error .pending) :
    ∃ name, env.lookup name = some .unresolved ∧ StopsAt env form text name := by
  by_cases group : form = .enclosed → (Text.trim text).head? = some '('
  · have answer := (evalWithin_advances env (text.length + 2) form text group).answer
    dsimp only at answer
    rw [show evalWithin env (text.length + 2) form text = _ from h] at answer
    obtain ⟨name, waits, stays⟩ := answer
    refine ⟨name, waits, Or.inr waits, fun more ext same => ?_⟩
    rw [h]
    exact stays more ext (same.trans waits)
  · obtain ⟨rfl, apart⟩ := Classical.not_imp.mp group
    have waits : env.lookup (Text.trim text) = some .unresolved := by
      rw [evalForm_enclosed_open apart] at h
      rcases found : env.lookup (Text.trim text) with _ | (word | _)
      · rw [found] at h
        cases h
      · rw [found] at h
        cases h
      · rfl
    refine ⟨Text.trim text, waits, Or.inr waits, fun more ext same => ?_⟩
    rw [evalForm_enclosed_open apart, evalForm_enclosed_open apart, same]

def supply (env : Env) (name : Text) : Env :=
  { env with lookup := fun m => if m = name then some (.known 0) else env.lookup m }

theorem extends_supply (symbol : isSymbolName name = true) (absent : env.lookup name = none) :
    env.Extends (supply env name) := by
  refine ⟨rfl, fun m word known => ?_, fun m present => ?_, fun m fresh => ?_⟩
  · have apart : m ≠ name := by
      rintro rfl
      rw [absent] at known
      cases known
    simpa [supply, apart] using known
  · by_cases same : m = name
    · simp [supply, same]
    · simpa [supply, same] using present
  · by_cases same : m = name
    · right
      rw [same]
      exact symbol
    · left
      simpa [supply, same] using fresh

theorem StopsAt.eq_missing (h : StopsAt env form text other)
    (missing : evalForm env form text = .error (.missing name)) : other = name := by
  obtain ⟨symbol, absent, _⟩ := stopsAt_of_missing missing
  by_contra apart
  -- With a value for `name` the answer is another one, so no other symbol stops the evaluation.
  have same : (supply env name).lookup other = env.lookup other := by simp [supply, apart]
  have again := h.stays _ (extends_supply symbol absent) same
  rw [missing] at again
  have found := (stopsAt_of_missing again).2.1
  simp [supply] at found

def settle (env : Env) : Env :=
  { env with lookup := fun m => (env.lookup m).map fun value => .known (value.getD 0) }

theorem extends_settle (env : Env) : env.Extends (settle env) := by
  refine ⟨rfl, fun m word known => ?_, fun m present => ?_, fun m fresh => ?_⟩
  · simp [settle, known, Value.getD]
  · simpa [settle] using present
  · left
    simp [settle, fresh]

theorem StopsAt.waits_of_pending (h : StopsAt env form text other)
    (pending : evalForm env form text = .error .pending) :
    env.lookup other = some .unresolved := by
  rcases h.unknown with absent | waits
  · exfalso
    have same : (settle env).lookup other = env.lookup other := by simp [settle, absent]
    have again := h.stays _ (extends_settle env) same
    rw [pending] at again
    obtain ⟨waiting, waits, _⟩ := stopsAt_of_pending again
    cases found : env.lookup waiting <;> simp [settle, found] at waits
  · exact waits

end Expression

open Expression

/-- How an evaluation that is `unresolved` or not changes a signal and a list of names. -/
structure Signals {α : Type} (env : Env) (form : Form) (text : Text) (entry : Text → α)
    (unresolved : Prop) (signal signal' : Bool) (names names' : List α) : Prop where
  raised : signal' = true ↔ signal = true ∨ unresolved
  settled : ¬unresolved → names' = names
  stopped : unresolved → ∃ name, StopsAt env form text name
  noted : unresolved → ∀ name, StopsAt env form text name →
    names' = names ++ if env.lookup name = none then [entry name] else []

theorem run_signals {env : Env} {form : Form} {text : Text} {trace after : Trace}
    {result : Except Fault Value}
    (h : (Tracing.evalForm env form text).run trace = (result, after)) :
    Signals env form text id (result = .ok .unresolved) trace.deferred after.deferred
      trace.missed after.missed := by
  rw [Tracing.evalForm_eq] at h
  rcases found : evalForm env form text with (cause | name | _) | word
  · rw [found] at h
    cases h
    exact ⟨by simp, fun _ => rfl, by simp, by simp⟩
  · obtain ⟨_, absent, stops⟩ := stopsAt_of_missing found
    rw [found] at h
    cases h
    refine ⟨by simp, fun known => absurd rfl known, fun _ => ⟨name, stops⟩, fun _ other h => ?_⟩
    obtain rfl := h.eq_missing found
    simp [Trace.missed, Trace.add, absent]
  · obtain ⟨name, waits, stops⟩ := stopsAt_of_pending found
    rw [found] at h
    cases h
    refine ⟨by simp, fun known => absurd rfl known, fun _ => ⟨name, stops⟩, fun _ other h => ?_⟩
    simp [Trace.missed, h.waits_of_pending found]
  · rw [found] at h
    cases h
    exact ⟨by simp, fun _ => rfl, by simp, by simp⟩

theorem traced_signals {config : Config} {place : SourceLine} {w after : Work} {form : Form}
    {text : Text} {result : Except Halt Value}
    (h : (Step.traced config place (Tracing.evalForm w.env form text)).run w = (result, after)) :
    Signals w.env form text (⟨·, place⟩) (result = .ok .unresolved) w.unsettled after.unsettled
      w.forward after.forward := by
  rw [Step.traced_run] at h
  rcases found : (Tracing.evalForm w.env form text).run { hint := w.hint } with
    ⟨cause | value, trace⟩
  · obtain ⟨raised, settled, _, _⟩ := run_signals found
    rw [found] at h
    cases h
    have quiet : trace.deferred = false := by simpa using raised
    have none : trace.missed = [] := settled nofun
    exact ⟨by simp [quiet], fun _ => by simp [none], nofun, nofun⟩
  · obtain ⟨raised, settled, stopped, noted⟩ := run_signals found
    rw [found] at h
    cases h
    simp only [Bool.false_eq_true, false_or, Except.ok.injEq] at raised settled stopped noted ⊢
    refine ⟨by simp [raised], fun known => ?_, stopped, fun unknown name stops => ?_⟩
    · have none : trace.missed = [] := settled known
      simp [none]
    · have missed : trace.missed = _ := noted unknown name stops
      rw [takeTrace_forward, missed]
      by_cases absent : w.env.lookup name = none <;> simp [absent, Trace.missed]

/-- Whatever the text, an evaluation raises the signal exactly when it comes to no value. Then the
symbol that stopped it is noted exactly if it is absent, and otherwise nothing is. -/
theorem evaluation_signals (form : Form) (text : Text) :
    (∀ (table : SymbolTable) (address : Option UInt32) (trace : Trace),
      let run := (Tracing.evalForm (table.env address) form text).run trace
      Signals (table.env address) form text id (run.1 = .ok .unresolved)
        trace.deferred run.2.deferred trace.missed run.2.missed) ∧
    ∀ (config : Config) (place : SourceLine) (w : Work),
      let run := (Step.traced config place (Tracing.evalForm w.env form text)).run w
      Signals w.env form text (⟨·, place⟩) (run.1 = .ok .unresolved)
        w.unsettled run.2.unsettled w.forward run.2.forward :=
  ⟨fun _ _ _ => run_signals rfl, fun _ _ _ => traced_signals rfl⟩

end Assembler65816
