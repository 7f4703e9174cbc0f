import Assembler65816.Proofs.Pass

/-! # Definitions of a pass

Labels and equates bind names. A pass that gets through meets the definitions of all lines in
order, each at the location counter of its line, and binds them one after the other against the
table as it stands. `Bound` keeps only that part of a pass.
-/
namespace Assembler65816

def definedNames (lines : List SourceLine) : List Text :=
  lines.flatMap fun line => (ParsedLine.ofText line.text).names

def isWord (t : Text) : Prop := t ≠ [] ∧ ∀ c ∈ t, isNameChar c = true

theorem isWord_of_takeWord {t word rest : Text} (h : Text.takeWord t = some (word, rest)) :
    isWord word := by
  refine ⟨Text.takeWord_ne_nil h, fun c hc => ?_⟩
  unfold Text.takeWord at h
  split at h
  · cases h
  · cases h
    have all : ∀ d ∈ t.takeWhile isNameChar, isNameChar d = true :=
      List.all_eq_true.mp List.all_takeWhile
    exact all c hc

namespace ParsedLine

theorem isWord_of_mem_labels {limit : Nat} {t name : Text} (h : name ∈ (peelLabels limit t).1) :
    isWord name := by
  induction limit generalizing t with
  | zero => simp [peelLabels] at h
  | succ limit ih =>
    rw [peelLabels] at h
    split at h
    · simp at h
    · next word rest hl =>
      rcases List.mem_cons.mp h with rfl | h
      · unfold label? at hl
        split at hl
        · next word' rest' hw =>
          cases hl
          exact isWord_of_takeWord hw
        · cases hl
      · exact ih h

theorem isWord_of_equate {t name expression : Text}
    (h : Statement.ofText t = .equate name expression) : isWord name := by
  unfold Statement.ofText at h
  dsimp only at h
  split at h
  · next word rest hw =>
    rcases Statement.ofWord_cases word (Text.trim rest) with ⟨_, equate⟩ | ⟨other, _⟩
    · rw [equate] at h
      cases h
      exact isWord_of_takeWord hw
    · exact absurd h (other name expression)
  · split at h <;> cases h

theorem isWord_of_mem_names {t name : Text} (h : name ∈ (ofText t).names) : isWord name := by
  rcases List.mem_append.mp h with h | h
  · exact isWord_of_mem_labels h
  · split at h
    · next word expression hs =>
      obtain rfl := List.mem_singleton.mp h
      exact isWord_of_equate hs
    · cases h

end ParsedLine

theorem isWord_of_mem_definedNames {lines : List SourceLine} {name : Text}
    (h : name ∈ definedNames lines) : isWord name := by
  obtain ⟨line, _, h⟩ := List.mem_flatMap.mp h
  exact ParsedLine.isWord_of_mem_names h

def startsWithDigit (t : Text) : Bool := t.head?.any Char.isDigit

theorem isSymbolName_of_isWord {t : Text} (h : isWord t) (letter : startsWithDigit t = false) :
    isSymbolName t = true := by
  obtain ⟨nonempty, all⟩ := h
  cases t with
  | nil => exact absurd rfl nonempty
  | cons c rest =>
    have hc := all c (by simp)
    have hd : c.isDigit = false := letter
    have start : isNameStart c = true := by
      simpa [isNameChar, isNameStart, Char.isAlphanum, hd] using hc
    simp only [isSymbolName, start, Bool.true_and, List.all_eq_true]
    exact fun d hd => all d (by simp [hd])

theorem eval_counter {env : Env} {pc : UInt32} (free : env.lookup ['$'] = none)
    (set : env.address = some pc) : Expression.eval env ['$'] = .ok pc := by
  have trim : Text.trim ['$'] = ['$'] := rfl
  rw [Expression.eval, Expression.evalForm_chain, trim, free]
  change (Expression.Chain.State.flush env none { term := ['$'] } >>= _) = _
  simp only [Expression.Chain.State.flush, Expression.Chain.State.operand, Expression.Atom.read,
    trim]
  change ((Except.map some (Expression.Atom.counter env ['$']) >>= _) >>= _) = _
  simp only [Expression.Atom.counter, set]
  rfl

/-- A definition as a pass meets it. A label stands for the location counter. -/
structure Definition where
  name : Text
  expression : Text
  pc : Option UInt32
  deriving DecidableEq, Repr

def Statement.definitions (counter : Option UInt32) : Statement → List Definition
  | .equate name expression => [⟨name, expression, counter⟩]
  | _ => []

def ParsedLine.definitions (line : ParsedLine) (counter : Option UInt32) : List Definition :=
  line.labels.map (⟨·, ['$'], counter⟩) ++ line.statement.definitions counter

theorem ParsedLine.map_name_definitions (line : ParsedLine) (counter : Option UInt32) :
    (line.definitions counter).map Definition.name = line.names := by
  unfold ParsedLine.definitions ParsedLine.names
  rw [List.map_append, List.map_map]
  congr 1
  · exact List.map_id _
  · cases line.statement <;> rfl

def definitionsAt : List SourceLine → List (Option UInt32) → List Definition
  | line :: lines, counter :: counters =>
    (ParsedLine.ofText line.text).definitions counter ++ definitionsAt lines counters
  | _, _ => []

theorem map_name_definitionsAt {lines : List SourceLine} {counters : List (Option UInt32)}
    (h : counters.length = lines.length) :
    (definitionsAt lines counters).map Definition.name = definedNames lines := by
  induction lines generalizing counters with
  | nil => simp [definitionsAt, definedNames]
  | cons line lines ih =>
    cases counters with
    | nil => simp at h
    | cons counter counters =>
      rw [definitionsAt, List.map_append, ParsedLine.map_name_definitions,
        ih (by simpa using h)]
      rfl

theorem Passed.length_counters {config : Config} {records records' : List Record} {w w' : Work}
    (h : Passed config records w records' w') :
    (Work.counters config records w).length = records.length := by
  induction h with
  | nil => rfl
  | cons line more ih =>
    rw [Work.counters, line]
    simp [ih]

structure Bindings where
  symbols : SymbolTable
  defined : List (Text × Value) := []

inductive Bindings.Binds (firstPass : Bool) (d : Definition) (b : Bindings) : Bindings → Prop where
  | intro {value : Value} {symbols : SymbolTable}
      (reads : ∀ word, Expression.eval (b.symbols.env d.pc) d.expression = .ok word ↔
        value = .known word)
      (agrees : Step.contradicts (b.defined.lookup d.name) value = false)
      (bound : b.symbols.define ⟨d.name, value, d.expression, d.pc⟩ firstPass = some symbols) :
      Binds firstPass d b
        { symbols
          defined :=
            if value.isKnown || (b.defined.lookup d.name).isNone then (d.name, value) :: b.defined
            else b.defined }

inductive Bound (firstPass : Bool) : List Definition → Bindings → Bindings → Prop where
  | nil (b : Bindings) : Bound firstPass [] b b
  | cons {d : Definition} {ds : List Definition} {b b₁ b₂ : Bindings}
      (binds : b.Binds firstPass d b₁) (more : Bound firstPass ds b₁ b₂) :
      Bound firstPass (d :: ds) b b₂

variable {firstPass : Bool}

theorem Bound.append {ds ds' : List Definition} {b b₁ b₂ : Bindings} (h : Bound firstPass ds b b₁)
    (h' : Bound firstPass ds' b₁ b₂) : Bound firstPass (ds ++ ds') b b₂ := by
  induction h with
  | nil => exact h'
  | cons binds _ ih => exact .cons binds (ih h')

theorem Bound.append_inv {ds ds' : List Definition} {b b₂ : Bindings}
    (h : Bound firstPass (ds ++ ds') b b₂) :
    ∃ b₁, Bound firstPass ds b b₁ ∧ Bound firstPass ds' b₁ b₂ := by
  induction ds generalizing b with
  | nil => exact ⟨b, .nil b, h⟩
  | cons d ds ih =>
    cases h with
    | cons binds more =>
      obtain ⟨b₁, left, right⟩ := ih more
      exact ⟨b₁, .cons binds left, right⟩

/-- What binding does to look-ups: both sides take up the value, and keep a known one. -/
theorem Bindings.Binds.lookups {d : Definition} {b b' : Bindings} (h : b.Binds firstPass d b') :
    ∃ value,
      (∀ word, Expression.eval (b.symbols.env d.pc) d.expression = .ok word ↔
        value = .known word) ∧
      Step.contradicts (b.defined.lookup d.name) value = false ∧
      (∀ m, b'.symbols.lookup m =
        if d.name = m then some (Value.merge (b.symbols.lookup d.name) value)
        else b.symbols.lookup m) ∧
      (∀ m, b'.defined.lookup m =
        if d.name = m then some (Value.merge (b.defined.lookup d.name) value)
        else b.defined.lookup m) := by
  obtain ⟨reads, agrees, bound⟩ := h
  exact ⟨_, reads, agrees, SymbolTable.lookup_define bound, lookup_defined _ _ _⟩

/-- The names of the table are those it had and those of the definitions. -/
theorem Bound.names {ds : List Definition} {b b' : Bindings} (h : Bound firstPass ds b b')
    (m : Text) : b'.symbols.lookup m ≠ none ↔
      b.symbols.lookup m ≠ none ∨ m ∈ ds.map Definition.name := by
  induction h with
  | nil => simp
  | @cons d ds b b₁ b₂ binds more ih =>
    obtain ⟨value, _, _, symbols, _⟩ := binds.lookups
    rw [ih, symbols m, List.map_cons, List.mem_cons]
    by_cases same : d.name = m
    · simp [same]
    · simp [same, Ne.symm same]

theorem Value.merge_known {old : Option Value} {value : Value} {word : UInt32}
    (h : Value.merge old value = .known word) :
    value = .known word ∨ value = .unresolved ∧ old = some (.known word) := by
  unfold Value.merge at h
  split at h
  · cases h
    exact Or.inr ⟨rfl, rfl⟩
  · exact Or.inl h

/-- A value that a pass has bound stays bound: another one would be a contradiction. -/
theorem Bindings.Binds.defined_kept {d : Definition} {b b' : Bindings}
    (h : b.Binds firstPass d b') {m : Text} {word : UInt32}
    (hm : b.defined.lookup m = some (.known word)) : b'.defined.lookup m = some (.known word) := by
  obtain ⟨value, _, agrees, _, defined⟩ := h.lookups
  rw [defined m]
  split
  · next same =>
    subst same
    rw [hm] at agrees ⊢
    cases value with
    | unresolved => rfl
    | known new =>
      have same : word = new := by simpa [Step.contradicts] using agrees
      rw [same]
      rfl
  · exact hm

theorem Bound.defined_kept {ds : List Definition} {b b' : Bindings} (h : Bound firstPass ds b b')
    {m : Text} {word : UInt32} (hm : b.defined.lookup m = some (.known word)) :
    b'.defined.lookup m = some (.known word) := by
  induction h with
  | nil => exact hm
  | cons binds _ ih => exact ih (binds.defined_kept hm)

def Bindings.Coherent (b : Bindings) : Prop :=
  ∀ m word, b.defined.lookup m = some (.known word) → b.symbols.lookup m = some (.known word)

theorem Bindings.Binds.coherent {d : Definition} {b b' : Bindings} (h : b.Binds firstPass d b')
    (hb : b.Coherent) : b'.Coherent := by
  intro m word hm
  obtain ⟨value, _, _, symbols, defined⟩ := h.lookups
  rw [defined m] at hm
  rw [symbols m]
  split at hm
  · next same =>
    subst same
    rw [if_pos rfl]
    rcases Value.merge_known (Option.some.inj hm) with rfl | ⟨rfl, old⟩
    · simp [Value.merge]
    · rw [hb _ _ old]
      rfl
  · next other =>
    rw [if_neg other]
    exact hb m word hm

theorem Bound.coherent {ds : List Definition} {b b' : Bindings} (h : Bound firstPass ds b b')
    (hb : b.Coherent) : b'.Coherent := by
  induction h with
  | nil => exact hb
  | cons binds _ ih => exact ih (binds.coherent hb)

theorem Bound.coherent_end {ds : List Definition} {t : SymbolTable} {b' : Bindings}
    (h : Bound firstPass ds ⟨t, []⟩ b') : b'.Coherent := by
  apply h.coherent
  intro m word hm
  cases hm

theorem Bound.known_from {ds : List Definition} {b b' : Bindings} (h : Bound firstPass ds b b')
    {m : Text} {word : UInt32} (hm : b'.symbols.lookup m = some (.known word)) :
    b'.defined.lookup m = some (.known word) ∨ b.symbols.lookup m = some (.known word) := by
  induction h with
  | nil => exact Or.inr hm
  | @cons d ds b b₁ b₂ binds more ih =>
    rcases ih hm with bound | before
    · exact Or.inl bound
    · obtain ⟨value, _, agrees, symbols, defined⟩ := binds.lookups
      rw [symbols m] at before
      split at before
      · next same =>
        subst same
        rcases Value.merge_known (Option.some.inj before) with rfl | ⟨_, old⟩
        · refine Or.inl (more.defined_kept ?_)
          rw [defined d.name, if_pos rfl]
          simp [Value.merge]
        · exact Or.inr old
      · exact Or.inr before

theorem Bound.known_kept {ds : List Definition} {b b' : Bindings} (h : Bound firstPass ds b b')
    {m : Text} {word : UInt32} (hm : b.symbols.lookup m = some (.known word))
    (only : ∀ word', b'.defined.lookup m = some (.known word') → word' = word) :
    b'.symbols.lookup m = some (.known word) := by
  induction h with
  | nil => exact hm
  | @cons d ds b b₁ b₂ binds more ih =>
    refine ih ?_ only
    obtain ⟨value, _, agrees, symbols, defined⟩ := binds.lookups
    rw [symbols m]
    split
    · next same =>
      subst same
      rw [hm]
      cases value with
      | unresolved => rfl
      | known new =>
        have bound : b₁.defined.lookup d.name = some (.known new) := by
          rw [defined d.name, if_pos rfl]
          simp [Value.merge]
        rw [only new (more.defined_kept bound)]
        rfl
    · exact hm

/-- A definition whose expression has a value when it is met binds that value. -/
theorem Bound.binds_read {d : Definition} {ds : List Definition} {b b' : Bindings} {word : UInt32}
    (h : Bound firstPass (d :: ds) b b')
    (read : Expression.eval (b.symbols.env d.pc) d.expression = .ok word) :
    b'.defined.lookup d.name = some (.known word) := by
  cases h with
  | cons binds more =>
    obtain ⟨value, reads, _, _, defined⟩ := binds.lookups
    refine more.defined_kept ?_
    rw [defined d.name, if_pos rfl, (reads word).mp read]
    simp [Value.merge]

def Symbol.definition (s : Symbol) : Definition := ⟨s.name, s.expression, s.pc⟩

theorem Bound.origins {ds : List Definition} {b b' : Bindings} (h : Bound firstPass ds b b')
    {m : Text} {s : Symbol} (hs : b'.symbols.find? m = some s) :
    b.symbols.find? m = some s ∨ s.definition ∈ ds := by
  induction h with
  | nil => exact Or.inl hs
  | cons binds more ih =>
    rcases ih hs with before | later
    · obtain ⟨_, _, bound⟩ := binds
      rcases SymbolTable.define_cases bound with ⟨rfl, _⟩ | ⟨rfl, _⟩
      · exact Or.inl before
      · rw [SymbolTable.find?_put] at before
        split at before
        · cases before
          exact Or.inr (by simp [Symbol.definition])
        · exact Or.inl before
    · exact Or.inr (List.mem_cons_of_mem _ later)

theorem Tracing.eval_reads {env : Env} {text : Text} {t t' : Trace} {value : Value}
    (h : (Tracing.eval env text).run t = (.ok value, t')) (word : UInt32) :
    Expression.eval env text = .ok word ↔ value = .known word := by
  constructor
  · intro read
    rw [Tracing.eval_eq, read] at h
    cases h
    rfl
  · exact (Tracing.eval_run_ok h).2 word

/-- An equate comes to a binding of its name, and no other statement does. -/
theorem Statement.outcome_binds {env : Env} {widths : RegisterWidths} {statement : Statement}
    {t t' : Trace} {outcome : Outcome}
    (h : (statement.outcome env widths).run t = (.ok outcome, t')) :
    (∃ name expression value, statement = .equate name expression ∧
      outcome = .binding name expression value ∧
      ∀ word, Expression.eval env expression = .ok word ↔ value = .known word) ∨
    ((∀ name expression, statement ≠ .equate name expression) ∧
      ∀ name expression value, outcome ≠ .binding name expression value) := by
  cases statement with
  | nothing | rom | accumulatorWidth | indexWidth =>
    cases h
    exact Or.inr ⟨by simp, by simp⟩
  | equate name expression =>
    obtain ⟨value, t₁, hv, hr⟩ := run_bind_ok h
    cases hr
    exact Or.inl ⟨name, expression, value, rfl, rfl, Tracing.eval_reads hv⟩
  | origin expression =>
    obtain ⟨value, t₁, hv, hr⟩ := run_bind_ok h
    cases value with
    | unresolved => cases hr
    | known address =>
      cases hr
      exact Or.inr ⟨by simp, by simp⟩
  | data size list =>
    simp only [Statement.outcome] at h
    split at h
    · cases h
    · obtain ⟨values, t₁, hv, hr⟩ := run_bind_ok h
      cases hr
      exact Or.inr ⟨by simp, by simp⟩
  | instruction mnemonic operand =>
    obtain ⟨run, t₁, hv, hr⟩ := run_bind_ok h
    cases hr
    exact Or.inr ⟨by simp, by simp⟩
  | faulty cause => cases h

def Work.bindings (w : Work) : Bindings := ⟨w.symbols, w.defined⟩

theorem Performed.bindings_eq {config : Config} {w w' : Work} {outcome : Outcome}
    (h : Performed config w outcome w')
    (other : ∀ name expression value, outcome ≠ .binding name expression value) :
    w'.bindings = w.bindings ∧ w'.unsettled = w.unsettled := by
  cases h with
  | binding => exact absurd rfl (other _ _ _)
  | nothing | firstOrigin | origin | bytes | widths => exact ⟨rfl, rfl⟩

def SymbolTable.Worded (t : SymbolTable) : Prop := ∀ m, t.lookup m ≠ none → isWord m

theorem SymbolTable.Worded.counter_free {t : SymbolTable} (h : t.Worded) :
    t.lookup ['$'] = none := by
  by_contra present
  have all := (h ['$'] present).2 '$' (by simp)
  exact absurd all (by decide)

theorem Bound.worded {ds : List Definition} {b b' : Bindings} (h : Bound firstPass ds b b')
    (hb : b.symbols.Worded) (hd : ∀ d ∈ ds, isWord d.name) : b'.symbols.Worded := by
  intro m hm
  rcases (h.names m).mp hm with before | later
  · exact hb m before
  · obtain ⟨d, mem, rfl⟩ := List.mem_map.mp later
    exact hd d mem

theorem ParsedLine.isWord_of_mem_definitions {text : Text} {counter : Option UInt32}
    {d : Definition} (h : d ∈ (ofText text).definitions counter) : isWord d.name := by
  refine isWord_of_mem_names (t := text) ?_
  rw [← map_name_definitions (ofText text) counter]
  exact List.mem_map_of_mem h

theorem Labelled.bound {config : Config} {names : List Text} {w w' : Work}
    (h : Labelled config names w w') (hw : w.symbols.Worded) (hn : ∀ name ∈ names, isWord name) :
    Bound (w.pass == 1) (names.map (⟨·, ['$'], w.counter⟩)) w.bindings w'.bindings := by
  induction h with
  | nil => exact .nil _
  | @cons name rest w w₁ w₂ pc placed bound more ih =>
    cases bound with
    | binding agrees bound =>
      have reads : ∀ word, Expression.eval (w.symbols.env w.counter) ['$'] = .ok word ↔
          Value.known pc = .known word := by
        intro word
        rw [eval_counter hw.counter_free placed]
        simp
      have binds := Bindings.Binds.intro (b := w.bindings) (d := ⟨name, ['$'], w.counter⟩)
        reads agrees bound
      have one : Bound (w.pass == 1) [⟨name, ['$'], w.counter⟩] w.bindings _ := .cons binds (.nil _)
      have worded := one.worded hw (by simpa using hn name (by simp))
      exact .cons binds (ih worded fun name h => hn name (by simp [h]))

theorem Performed.bound {config : Config} {place : SourceLine} {statement : Statement}
    {w w' : Work} {outcome : Outcome} {trace : Trace}
    (read : (statement.outcome w.env w.widths).run { hint := w.hint } = (.ok outcome, trace))
    (performed : Performed config (w.takeTrace config place trace) outcome w') :
    Bound (w.pass == 1) (statement.definitions w.counter) w.bindings w'.bindings := by
  rcases Statement.outcome_binds read with ⟨name, expression, value, rfl, rfl, reads⟩ | ⟨hs, ho⟩
  · cases performed with
    | binding agrees bound =>
      simp only [takeTrace_symbols, takeTrace_defined, takeTrace_counter, takeTrace_pass]
        at agrees bound
      have binds := Bindings.Binds.intro (b := w.bindings) (d := ⟨name, expression, w.counter⟩)
        reads agrees bound
      refine .cons binds ?_
      simp only [Work.bindings, takeTrace_defined]
      exact .nil _
  · have same : w'.bindings = w.bindings := by
      rw [(performed.bindings_eq ho).1]
      simp only [Work.bindings, takeTrace_symbols, takeTrace_defined]
    have none : statement.definitions w.counter = [] := by
      cases statement with
      | equate name expression => exact absurd rfl (hs name expression)
      | _ => rfl
    rw [same, none]
    exact .nil _

theorem CarriedOut.bound {config : Config} {place : SourceLine} {w w' : Work}
    (h : CarriedOut config place w w') (hw : w.symbols.Worded) :
    Bound (w.pass == 1) ((ParsedLine.ofText place.text).definitions w.counter) w.bindings
      w'.bindings := by
  obtain ⟨labels, read, performed⟩ := h
  have left := labels.bound hw fun name h => ParsedLine.isWord_of_mem_labels h
  have right := performed.bound read
  rw [labels.frame.pass, labels.frame.counter] at right
  exact left.append right

theorem Passed.bound {config : Config} {records records' : List Record} {w w' : Work}
    (h : Passed config records w records' w') (hw : w.symbols.Worded) :
    Bound (w.pass == 1)
      (definitionsAt (records.map Record.source) (Work.counters config records w))
      w.bindings w'.bindings := by
  induction h with
  | nil => exact .nil _
  | @cons r rest rest' w w₁ w₂ line more ih =>
    have carried := Step.runLine_run_ok line
    have first := carried.bound hw
    have worded := first.worded hw fun d hd => ParsedLine.isWord_of_mem_definitions hd
    have rest := ih worded
    rw [show w₁.pass = w.pass from carried.pass_eq] at rest
    rw [List.map_cons, Work.counters, line]
    exact first.append rest

theorem Assembly.Reached.sources_eq {config : Config} {lines : List SourceLine} {p : Nat}
    {a : Assembly} (h : (Assembly.new config lines).Reached p a) :
    a.records.map Record.source = lines := by
  rw [h.sources]
  simp [Assembly.new, Function.comp_def]

/-- From the first pass on the names of the table are those that the lines define. -/
theorem Assembly.Reached.names {config : Config} {lines : List SourceLine} {p : Nat} {a : Assembly}
    (h : (Assembly.new config lines).Reached p a) (m : Text) :
    a.work.symbols.lookup m ≠ none ↔ p ≠ 0 ∧ m ∈ definedNames lines := by
  induction h generalizing m with
  | start => simp [Assembly.new, SymbolTable.lookup, SymbolTable.find?]
  | @pass p a a' before passed ih =>
    obtain ⟨w, done, retried, _⟩ := Assembly.runPass_none passed
    have worded : a.work.symbols.Worded := fun m hm => isWord_of_mem_definedNames ((ih m).mp hm).2
    have bound := done.bound (by simpa using worded)
    have names : (definitionsAt (a.records.map Record.source) (Work.counters a.config a.records
        (a.work.startPass a.config (p + 1)))).map Definition.name = definedNames lines := by
      rw [map_name_definitionsAt (by simpa using done.length_counters), before.sources_eq]
    have step := bound.names m
    rw [names] at step
    rw [retried.swept.names]
    refine step.trans ?_
    constructor
    · rintro (old | new)
      · exact ⟨by simp, ((ih m).mp (by simpa [Work.bindings] using old)).2⟩
      · exact ⟨by simp, new⟩
    · rintro ⟨_, new⟩
      exact Or.inr new

theorem Assembly.Reached.worded {config : Config} {lines : List SourceLine} {p : Nat}
    {a : Assembly} (h : (Assembly.new config lines).Reached p a) : a.work.symbols.Worded :=
  fun m hm => isWord_of_mem_definedNames ((h.names m).mp hm).2

end Assembler65816
