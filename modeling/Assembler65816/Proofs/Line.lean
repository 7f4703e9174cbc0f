import Assembler65816.Assembly.Run
import Assembler65816.Proofs.Tracing

/-! # What a line does

A statement first evaluates its expressions, which leaves a trace and comes to an outcome, and
then performs the outcome on the work in progress. `Performed` says all that performing can do.
Logs are left open throughout: no result here depends on what is reported.
-/
namespace Assembler65816

inductive Outcome where
  | nothing
  | binding (name expression : Text) (value : Value)
  | origin (address : UInt32)
  | bytes (run : List UInt8)
  | widths (widths : RegisterWidths)
  deriving DecidableEq, Repr

def Statement.outcome (env : Env) (widths : RegisterWidths) : Statement → Tracing Outcome
  | .nothing | .rom => pure .nothing
  | .equate name expression => do return .binding name expression (← Tracing.eval env expression)
  | .origin expression => do
    match ← Tracing.eval env expression with
    | .unresolved => throw (.unknownOrigin expression)
    | .known address => pure (.origin address)
  | .accumulatorWidth wide => pure (.widths { widths with accumulator16 := wide })
  | .indexWidth wide => pure (.widths { widths with index16 := wide })
  | .data size list =>
    if (DataList.items list).isEmpty then throw .noData
    else do
      let values ← Step.dataValues env size (DataList.items list)
      return .bytes (values.flatMap fun value => littleEndian value size.bytes)
  | .instruction mnemonic operand => do
    return .bytes (← Instruction.encode ⟨env, widths⟩ mnemonic operand)
  | .faulty cause => throw cause

/-- A word starts an equate of that word, or a statement that binds nothing and whose fault, if it
has one, is found in the text. -/
theorem Statement.ofWord_cases (word rest : Text) :
    (∃ expression, ofWord word rest = .equate word expression) ∨
    ((∀ name expression, ofWord word rest ≠ .equate name expression) ∧
      ∀ cause, ofWord word rest = .faulty cause → cause.beyondText = false) := by
  unfold Statement.ofWord
  split
  · next expression _ => exact Or.inl ⟨expression, rfl⟩
  · right
    split
    case h_12 =>
      split
      · exact ⟨fun _ _ => Statement.noConfusion, fun _ h => Statement.noConfusion h⟩
      · refine ⟨fun _ _ => Statement.noConfusion, fun cause h => ?_⟩
        cases h
        rfl
    case h_10 =>
      refine ⟨fun _ _ => Statement.noConfusion, fun cause h => ?_⟩
      cases h
      rfl
    all_goals exact ⟨fun _ _ => Statement.noConfusion, fun _ h => Statement.noConfusion h⟩

theorem ParsedLine.fault_of_faulty {text : Text} {cause : Fault}
    (h : (ParsedLine.ofText text).statement = .faulty cause) : cause.beyondText = false := by
  change Statement.ofText _ = _ at h
  unfold Statement.ofText at h
  dsimp only at h
  split at h
  · next word rest _ =>
    rcases Statement.ofWord_cases word (Text.trim rest) with ⟨expression, equate⟩ | ⟨_, faults⟩
    · rw [equate] at h
      cases h
    · exact faults cause h
  · split at h
    · cases h
    · cases h
      rfl

theorem Statement.outcome_follows {env more : Env} (h : env.Extends more)
    (widths : RegisterWidths) {statement : Statement}
    (plain : ∀ cause, statement = .faulty cause → cause.beyondText = false) :
    Tracing.Follows env (statement.outcome env widths) (statement.outcome more widths) := by
  cases statement with
  | nothing | rom | accumulatorWidth | indexWidth => exact .pure _
  | equate name expression => exact (Tracing.Follows.eval h _).bind fun _ => .pure _
  | origin expression =>
    refine (Tracing.Follows.eval h _).bind fun value => ?_
    cases value with
    | known address => exact .pure _
    | unresolved => exact .throw rfl
  | data size list =>
    simp only [Statement.outcome]
    split
    · exact .throw rfl
    · exact (Step.dataValues_follows h size _).bind fun _ => .pure _
  | instruction mnemonic operand =>
    exact (Instruction.encode_follows h widths mnemonic operand).bind fun _ => .pure _
  | faulty cause => exact .throw (plain cause rfl)

theorem ParsedLine.outcome_follows {env more : Env} (h : env.Extends more)
    (widths : RegisterWidths) (text : Text) :
    Tracing.Follows env ((ofText text).statement.outcome env widths)
      ((ofText text).statement.outcome more widths) :=
  Statement.outcome_follows h widths fun _ => fault_of_faulty

theorem ParsedLine.outcome_fault {env : Env} {widths : RegisterWidths} {text : Text}
    {t t' : Trace} {cause : Fault}
    (h : ((ofText text).statement.outcome env widths).run t = (.error cause, t')) :
    cause.beyondText = false :=
  (ParsedLine.outcome_follows (Env.Extends.refl env) widths text).faults t cause (by rw [h])

/-- A statement that asks for no other pass comes to the same when more is known. -/
theorem ParsedLine.outcome_same {env more : Env} (h : env.Extends more) {widths : RegisterWidths}
    {text : Text} {t t' : Trace} {outcome : Outcome}
    (read : ((ofText text).statement.outcome env widths).run t = (.ok outcome, t'))
    (quiet : t'.deferred = false) :
    ((ofText text).statement.outcome more widths).run t = (.ok outcome, t') := by
  have same := (ParsedLine.outcome_follows h widths text).same t
  rw [read] at same
  exact (same quiet).2

/-- What an outcome may become when more is known: known values stay, and so do lengths. -/
inductive Outcome.Similar : Outcome → Outcome → Prop where
  | nothing : Similar .nothing .nothing
  | binding (name expression : Text) {value value' : Value}
      (known : ∀ word, value = .known word → value' = .known word) :
      Similar (.binding name expression value) (.binding name expression value')
  | origin (address : UInt32) : Similar (.origin address) (.origin address)
  | bytes {run run' : List UInt8} (length : run'.length = run.length) :
      Similar (.bytes run) (.bytes run')
  | widths (widths : RegisterWidths) : Similar (.widths widths) (.widths widths)

/-- A statement read again, when more is known and the width remembered for it is in force, comes
to a similar outcome and remembers the same. -/
theorem Statement.outcome_similar {env more : Env} (h : env.Extends more)
    {widths : RegisterWidths} {statement : Statement} {t t' s s' : Trace}
    {outcome outcome' : Outcome}
    (first : (statement.outcome env widths).run t = (.ok outcome, t'))
    (later : (statement.outcome more widths).run s = (.ok outcome', s'))
    (hint : s.hint = t'.hint) : outcome.Similar outcome' ∧ s'.hint = t'.hint := by
  cases statement with
  | nothing | rom =>
    cases first
    cases later
    exact ⟨.nothing, hint⟩
  | accumulatorWidth | indexWidth =>
    cases first
    cases later
    exact ⟨.widths _, hint⟩
  | equate name expression =>
    obtain ⟨value, t₁, hv, hr⟩ := run_bind_ok first
    obtain ⟨value', s₁, hv', hr'⟩ := run_bind_ok later
    cases hr
    cases hr'
    refine ⟨.binding name expression fun word hw => ?_, ?_⟩
    · subst hw
      exact Tracing.eval_known h hv hv'
    · exact (Tracing.eval_run_ok hv').1.trans hint
  | origin expression =>
    obtain ⟨value, t₁, hv, hr⟩ := run_bind_ok first
    obtain ⟨value', s₁, hv', hr'⟩ := run_bind_ok later
    cases value with
    | unresolved => cases hr
    | known address =>
      obtain rfl := Tracing.eval_known h hv hv'
      cases hr
      cases hr'
      exact ⟨.origin address, (Tracing.eval_run_ok hv').1.trans hint⟩
  | data size list =>
    simp only [Statement.outcome] at first later
    split at first
    · cases first
    · next some =>
      rw [if_neg some] at later
      obtain ⟨values, t₁, hv, hr⟩ := run_bind_ok first
      obtain ⟨values', s₁, hv', hr'⟩ := run_bind_ok later
      obtain ⟨hn, _⟩ := Step.dataValues_yields env size _ t values t₁ hv
      obtain ⟨hn', hk'⟩ := Step.dataValues_yields more size _ s values' s₁ hv'
      cases hr
      cases hr'
      refine ⟨.bytes ?_, hk'.trans hint⟩
      simp only [List.length_flatMap, length_littleEndian, List.map_const', hn, hn']
  | instruction mnemonic operand =>
    obtain ⟨run, t₁, hv, hr⟩ := run_bind_ok first
    obtain ⟨run', s₁, hv', hr'⟩ := run_bind_ok later
    cases hr
    cases hr'
    obtain ⟨hn, hk⟩ := (Instruction.encode_resized h widths mnemonic operand).length _ _ _ _ _ _
      hv hv' hint
    exact ⟨.bytes hn, hk⟩
  | faulty cause => cases first

/-- A statement that asks for no other pass leaves the remembered width as it is. -/
theorem Statement.outcome_quiet {env : Env} {widths : RegisterWidths} {statement : Statement}
    {t t' : Trace} {outcome : Outcome}
    (h : (statement.outcome env widths).run t = (.ok outcome, t')) (settled : t'.deferred = false) :
    t'.hint = t.hint := by
  cases statement with
  | nothing | rom | accumulatorWidth | indexWidth =>
    cases h
    rfl
  | equate name expression =>
    obtain ⟨value, t₁, hv, hr⟩ := run_bind_ok h
    cases hr
    exact (Tracing.eval_run_ok hv).1
  | origin expression =>
    obtain ⟨value, t₁, hv, hr⟩ := run_bind_ok h
    cases value with
    | unresolved => cases hr
    | known address =>
      cases hr
      exact (Tracing.eval_run_ok hv).1
  | data size list =>
    simp only [Statement.outcome] at h
    split at h
    · cases h
    · obtain ⟨values, t₁, hv, hr⟩ := run_bind_ok h
      cases hr
      exact (Step.dataValues_yields env size _ t values _ hv).2
  | instruction mnemonic operand =>
    obtain ⟨run, t₁, hv, hr⟩ := run_bind_ok h
    cases hr
    exact (Instruction.encode_resized (Env.Extends.refl env) widths mnemonic operand).quiet
      _ _ _ hv settled
  | faulty cause => cases h

namespace Step

def performBinding (place : SourceLine) (name expression : Text) (value : Value) : Step Unit := do
  match value with
  | .known word => report (.equate name word)
  | .unresolved => report (.equateDeferred name expression)
  define place name value expression

def performOrigin (config : Config) (address : UInt32) : Step Unit := do
  let w ← get
  if w.counter.isNone && config.romBase.isNone then
    if w.image.base != address then
      report (.romBase address)
      modify fun w => { w with image := w.image.rebase address }
  else if address < w.image.base || w.image.limit < address then
    fault (.originOutsideRom address w.image.base w.image.limit)
  report (.origin address)
  modify fun w => { w with counter := some address }

def perform (config : Config) (place : SourceLine) : Outcome → Step Unit
  | .nothing => pure ()
  | .binding name expression value => performBinding place name expression value
  | .origin address => performOrigin config address
  | .bytes run => emit run
  | .widths widths => modify fun w => { w with widths }

theorem get_run (w : Work) : (get : Step Work).run w = (.ok w, w) := rfl

theorem takeTrace_untouched (config : Config) (place : SourceLine) (w : Work) :
    w.takeTrace config place { hint := w.hint } = w := by
  simp [Work.takeTrace]

theorem traced_run {α : Type} (config : Config) (place : SourceLine) (body : Tracing α)
    (w : Work) :
    (traced config place body).run w = match body.run { hint := w.hint } with
      | (.ok value, trace) => (.ok value, w.takeTrace config place trace)
      | (.error cause, trace) => (.error (.fault cause), w.takeTrace config place trace) := by
  unfold traced
  rw [run_bind_of_ok (get_run w)]
  rcases body.run { hint := w.hint } with ⟨cause | value, trace⟩ <;> rfl

theorem runStatement_run (config : Config) (place : SourceLine) (statement : Statement)
    (w : Work) :
    (runStatement config place statement).run w =
      match (statement.outcome w.env w.widths).run { hint := w.hint } with
      | (.ok outcome, trace) =>
        (perform config place outcome).run (w.takeTrace config place trace)
      | (.error cause, trace) => (.error (.fault cause), w.takeTrace config place trace) := by
  cases statement with
  | nothing | rom =>
    change _ = (perform config place .nothing).run (w.takeTrace config place { hint := w.hint })
    rw [takeTrace_untouched]
    rfl
  | accumulatorWidth wide =>
    change _ = (perform config place _).run (w.takeTrace config place { hint := w.hint })
    rw [takeTrace_untouched]
    rfl
  | indexWidth wide =>
    change _ = (perform config place _).run (w.takeTrace config place { hint := w.hint })
    rw [takeTrace_untouched]
    rfl
  | equate name expression =>
    simp only [runStatement, defineEquate, eval, Statement.outcome]
    rw [run_bind, run_bind_of_ok (get_run w), traced_run, run_bind]
    rcases (Tracing.eval w.env expression).run { hint := w.hint } with ⟨cause | value, trace⟩
    · rfl
    · rfl
  | origin expression =>
    simp only [runStatement, setOrigin, eval, Statement.outcome]
    rw [run_bind, run_bind_of_ok (get_run w), traced_run, run_bind]
    rcases (Tracing.eval w.env expression).run { hint := w.hint } with ⟨cause | value, trace⟩
    · rfl
    · cases value <;> rfl
  | data size list =>
    simp only [runStatement, storeData, Statement.outcome]
    by_cases empty : (DataList.items list).isEmpty = true
    · simp only [empty, if_true]
      change _ = (_, w.takeTrace config place { hint := w.hint })
      rw [takeTrace_untouched]
      rfl
    · simp only [empty, Bool.false_eq_true, if_false]
      rw [run_bind_of_ok (get_run w), run_bind, traced_run, run_bind]
      rcases (dataValues w.env size (DataList.items list)).run { hint := w.hint } with
        ⟨cause | values, trace⟩
      · rfl
      · rfl
  | instruction mnemonic operand =>
    simp only [runStatement, runInstruction, Statement.outcome]
    rw [run_bind_of_ok (get_run w), run_bind, traced_run, run_bind]
    rcases (Instruction.encode ⟨w.env, w.widths⟩ mnemonic operand).run { hint := w.hint } with
      ⟨cause | value, trace⟩
    · rfl
    · rfl
  | faulty cause =>
    change _ = (_, w.takeTrace config place { hint := w.hint })
    rw [takeTrace_untouched]
    rfl

end Step

/-- The value of a name after a definition: a known value is not forgotten. -/
def Value.merge : Option Value → Value → Value
  | some (.known word), .unresolved => .known word
  | _, value => value

theorem known_inj {value : Option Value} {word word' : UInt32} (h : value = some (.known word))
    (h' : value = some (.known word')) : word = word' := by
  rw [h] at h'
  cases h'
  rfl

inductive Performed (config : Config) (w : Work) : Outcome → Work → Prop where
  | nothing : Performed config w .nothing w
  | binding {name expression : Text} {value : Value} {symbols : SymbolTable} {log : Array Notice}
      (agrees : Step.contradicts (w.defined.lookup name) value = false)
      (bound : w.symbols.define ⟨name, value, expression, w.counter⟩ (w.pass == 1) =
        some symbols) :
      Performed config w (.binding name expression value)
        { w with
          symbols
          defined :=
            if value.isKnown || (w.defined.lookup name).isNone then (name, value) :: w.defined
            else w.defined
          unsettled := w.unsettled ||
            (w.pass != 1 && Step.contradicts (w.symbols.lookup name) value)
          log }
  | firstOrigin {address : UInt32} {log : Array Notice} (unset : w.counter = none)
      (free : config.romBase = none) :
      Performed config w (.origin address)
        { w with
          image := if w.image.base = address then w.image else w.image.rebase address
          counter := some address
          log }
  | origin {address : UInt32} {log : Array Notice}
      (later : w.counter ≠ none ∨ config.romBase ≠ none)
      (inside : w.image.base ≤ address ∧ address ≤ w.image.limit) :
      Performed config w (.origin address) { w with counter := some address, log }
  | bytes {run : List UInt8} {pc : UInt32} {start : Nat} (placed : w.counter = some pc)
      (located : w.image.locate pc run = .ok start) :
      Performed config w (.bytes run)
        { w with
          image := w.image.overwrite start run
          counter := some (pc + UInt32.ofNat run.length) }
  | widths {widths : RegisterWidths} : Performed config w (.widths widths) { w with widths }

namespace Step

theorem define_run (place : SourceLine) {name expression : Text} {value : Value} {w : Work}
    {symbols : SymbolTable} (agrees : contradicts (w.defined.lookup name) value = false)
    (bound : w.symbols.define ⟨name, value, expression, w.counter⟩ (w.pass == 1) = some symbols) :
    ∃ log, (define place name value expression).run w = (.ok (),
      { w with
        symbols
        defined :=
          if value.isKnown || (w.defined.lookup name).isNone then (name, value) :: w.defined
          else w.defined
        unsettled := w.unsettled ||
          (w.pass != 1 && contradicts (w.symbols.lookup name) value)
        log }) := by
  unfold define
  rw [run_bind_of_ok (get_run w)]
  simp only [agrees, Bool.false_eq_true, if_false, bound]
  rcases hp : w.symbols.lookup name with _ | old | _
  · exact ⟨w.log, by simp [contradicts]; rfl⟩
  · cases value with
    | unresolved => exact ⟨w.log, by simp [contradicts]; rfl⟩
    | known new =>
      by_cases moved : (w.pass != 1 && old != new) = true
      · exact ⟨w.log.push (.moved name old new place.number), by
          simp only [contradicts, moved, Bool.or_true]; rfl⟩
      · exact ⟨w.log, by simp only [contradicts, moved, Bool.or_false]; rfl⟩
  · exact ⟨w.log, by simp [contradicts]; rfl⟩

theorem define_refused (place : SourceLine) {name expression : Text} {value : Value} {w : Work}
    (refused : contradicts (w.defined.lookup name) value = true ∨
      w.symbols.define ⟨name, value, expression, w.counter⟩ (w.pass == 1) = none) :
    (define place name value expression).run w =
      (.error (.fault (.duplicateSymbol name)), w) := by
  unfold define
  rw [run_bind_of_ok (get_run w)]
  cases agrees : contradicts (w.defined.lookup name) value with
  | true =>
    simp only [agrees, if_true]
    rfl
  | false =>
    have unbound := refused.resolve_left (by simp [agrees])
    simp only [agrees, Bool.false_eq_true, if_false, unbound]
    rfl

/-- A definition is refused and leaves no trace, or `define_run` says what it does. -/
theorem define_cases (place : SourceLine) (name expression : Text) (value : Value) (w : Work) :
    (define place name value expression).run w =
      (.error (.fault (.duplicateSymbol name)), w) ∨
    contradicts (w.defined.lookup name) value = false ∧
      ∃ symbols, w.symbols.define ⟨name, value, expression, w.counter⟩ (w.pass == 1) =
        some symbols := by
  cases agrees : contradicts (w.defined.lookup name) value with
  | true => exact .inl (define_refused place (.inl agrees))
  | false =>
    cases bound : w.symbols.define ⟨name, value, expression, w.counter⟩ (w.pass == 1) with
    | none => exact .inl (define_refused place (.inr bound))
    | some symbols => exact .inr ⟨rfl, symbols, rfl⟩

theorem define_run_ok (config : Config) {place : SourceLine} {name expression : Text}
    {value : Value} {w w' : Work}
    (h : (define place name value expression).run w = (.ok (), w')) :
    Performed config w (.binding name expression value) w' := by
  rcases define_cases place name expression value w with refused | ⟨agrees, symbols, bound⟩
  · rw [refused] at h
    cases h
  · obtain ⟨log, run⟩ := define_run place agrees bound
    rw [run] at h
    cases h
    exact .binding agrees bound

theorem firstOrigin_run {config : Config} (address : UInt32) {w : Work}
    (unset : w.counter = none) (free : config.romBase = none) :
    ∃ log, (performOrigin config address).run w = (.ok (),
      { w with
        image := if w.image.base = address then w.image else w.image.rebase address
        counter := some address
        log }) := by
  unfold performOrigin
  rw [run_bind_of_ok (get_run w)]
  simp only [unset, free, Option.isNone_none, Bool.and_self, if_true]
  by_cases same : w.image.base = address
  · exact ⟨_, by simp only [same, bne_self_eq_false, Bool.false_eq_true, if_false, if_true]; rfl⟩
  · exact ⟨_, by simp only [bne_iff_ne, ne_eq, same, not_false_iff, if_true, if_false]; rfl⟩

theorem laterOrigin_run {config : Config} {address : UInt32} {w : Work}
    (later : w.counter ≠ none ∨ config.romBase ≠ none)
    (inside : w.image.base ≤ address ∧ address ≤ w.image.limit) :
    ∃ log, (performOrigin config address).run w =
      (.ok (), { w with counter := some address, log }) := by
  have notFirst : (w.counter.isNone && config.romBase.isNone) = false := by
    rcases later with h | h <;> simp [Option.isNone_eq_false_iff, Option.isSome_iff_ne_none, h]
  have within : (decide (address < w.image.base) || decide (w.image.limit < address)) = false := by
    simp only [Bool.or_eq_false_iff, decide_eq_false_iff_not, UInt32.not_lt]
    exact inside
  unfold performOrigin
  rw [run_bind_of_ok (get_run w)]
  simp only [notFirst, within, Bool.false_eq_true, if_false]
  exact ⟨_, rfl⟩

theorem performOrigin_run_ok {config : Config} {address : UInt32} {w w' : Work}
    (h : (performOrigin config address).run w = (.ok (), w')) :
    Performed config w (.origin address) w' := by
  by_cases first : w.counter = none ∧ config.romBase = none
  · obtain ⟨log, hr⟩ := firstOrigin_run address first.1 first.2
    rw [hr] at h
    cases h
    exact .firstOrigin first.1 first.2
  · have later : w.counter ≠ none ∨ config.romBase ≠ none := by
      by_contra hn
      exact first (by simpa using hn)
    by_cases inside : w.image.base ≤ address ∧ address ≤ w.image.limit
    · obtain ⟨log, hr⟩ := laterOrigin_run later inside
      rw [hr] at h
      cases h
      exact .origin later inside
    · exfalso
      have notFirst : (w.counter.isNone && config.romBase.isNone) = false := by
        rcases later with h | h <;>
          simp [Option.isNone_eq_false_iff, Option.isSome_iff_ne_none, h]
      have outside : (decide (address < w.image.base) || decide (w.image.limit < address)) =
          true := by
        simp only [Bool.or_eq_true, decide_eq_true_eq, ← UInt32.not_le]
        by_contra hn
        exact inside (by simpa using hn)
      unfold performOrigin at h
      rw [run_bind_of_ok (get_run w)] at h
      simp only [notFirst, outside, Bool.false_eq_true, if_false, if_true] at h
      cases h

theorem emit_run {run : List UInt8} {w : Work} {pc : UInt32} {start : Nat}
    (placed : w.counter = some pc) (located : w.image.locate pc run = .ok start) :
    (emit run).run w = (.ok (),
      { w with
        image := w.image.overwrite start run
        counter := some (pc + UInt32.ofNat run.length) }) := by
  unfold emit
  rw [run_bind_of_ok (get_run w)]
  simp only [placed, located]
  rfl

theorem emit_run_ok {config : Config} {run : List UInt8} {w w' : Work}
    (h : (emit run).run w = (.ok (), w')) : Performed config w (.bytes run) w' := by
  cases placed : w.counter with
  | none =>
    unfold emit at h
    rw [run_bind_of_ok (get_run w)] at h
    simp only [placed] at h
    cases h
  | some pc =>
    cases located : w.image.locate pc run with
    | error e =>
      unfold emit at h
      rw [run_bind_of_ok (get_run w)] at h
      simp only [placed, located] at h
      cases e <;> cases h
    | ok start =>
      rw [emit_run placed located] at h
      cases h
      exact .bytes placed located

theorem perform_run_ok {config : Config} {place : SourceLine} {outcome : Outcome} {w w' : Work}
    (h : (perform config place outcome).run w = (.ok (), w')) :
    Performed config w outcome w' := by
  cases outcome with
  | nothing =>
    cases h
    exact .nothing
  | binding name expression value =>
    cases value with
    | known word =>
      have bound := define_run_ok config (w := w.report (.equate name word)) h
      cases bound with
      | binding agrees bound => exact .binding agrees bound
    | unresolved =>
      have bound :=
        define_run_ok config (w := w.report (.equateDeferred name expression)) h
      cases bound with
      | binding agrees bound => exact .binding agrees bound
  | origin address => exact performOrigin_run_ok h
  | bytes run => exact emit_run_ok h
  | widths widths =>
    cases h
    exact .widths

end Step

theorem Performed.run {config : Config} {w w' : Work} {outcome : Outcome}
    (h : Performed config w outcome w') (place : SourceLine) :
    ∃ log, (Step.perform config place outcome).run w = (.ok (), { w' with log }) := by
  cases h with
  | nothing => exact ⟨w.log, rfl⟩
  | @binding name expression value symbols log agrees bound =>
    cases value with
    | known word =>
      obtain ⟨log, hr⟩ := Step.define_run place (w := w.report (.equate name word))
        agrees bound
      exact ⟨log, hr⟩
    | unresolved =>
      obtain ⟨log, hr⟩ := Step.define_run place
        (w := w.report (.equateDeferred name expression)) agrees bound
      exact ⟨log, hr⟩
  | firstOrigin unset free => exact Step.firstOrigin_run _ unset free
  | origin later inside => exact Step.laterOrigin_run later inside
  | bytes placed located => exact ⟨w.log, Step.emit_run placed located⟩
  | widths => exact ⟨w.log, rfl⟩

theorem Performed.frame {config : Config} {w w' : Work} {outcome : Outcome}
    (h : Performed config w outcome w') :
    w'.hint = w.hint ∧ w'.warnings = w.warnings ∧ w'.forward = w.forward := by
  cases h <;> exact ⟨rfl, rfl, rfl⟩

theorem foldl_takeNote (config : Config) (place : SourceLine) (notes : List Note) (w : Work) :
    ∃ log, notes.foldl (Work.takeNote config place) w =
      { w with
        forward := w.forward ++ (Trace.missed { notes }).map (⟨·, place⟩)
        warnings := w.warnings ++
          (Trace.cautions { notes }).map fun about => place.diagnostic .warning about.problem
        log } := by
  induction notes generalizing w with
  | nil => exact ⟨w.log, by simp [Trace.missed, Trace.cautions]⟩
  | cons note rest ih =>
    obtain ⟨log, hr⟩ := ih (w.takeNote config place note)
    refine ⟨log, ?_⟩
    rw [List.foldl_cons, hr]
    cases note with
    | missed name =>
      by_cases enabled : config.infoEnabled w.pass = true <;>
        simp [Work.takeNote, Work.reportIf, Work.report, enabled, Trace.missed, Trace.cautions]
    | caution about =>
      by_cases enabled : config.warnEnabled w.pass = true <;>
        simp [Work.takeNote, Work.reportIf, Work.report, enabled, Trace.missed, Trace.cautions]

theorem takeTrace_eq (config : Config) (place : SourceLine) (trace : Trace) (w : Work) :
    ∃ log, w.takeTrace config place trace =
      { w with
        unsettled := w.unsettled || trace.deferred
        hint := trace.hint
        forward := w.forward ++ trace.missed.map (⟨·, place⟩)
        warnings := w.warnings ++
          trace.cautions.map fun about => place.diagnostic .warning about.problem
        log } :=
  foldl_takeNote config place trace.notes
    { w with unsettled := w.unsettled || trace.deferred, hint := trace.hint }

section TakeTrace

variable (config : Config) (place : SourceLine) (trace : Trace) (w : Work)

@[simp] theorem takeTrace_pass : (w.takeTrace config place trace).pass = w.pass := by
  obtain ⟨log, eq⟩ := takeTrace_eq config place trace w
  rw [eq]

@[simp] theorem takeTrace_symbols : (w.takeTrace config place trace).symbols = w.symbols := by
  obtain ⟨log, eq⟩ := takeTrace_eq config place trace w
  rw [eq]

@[simp] theorem takeTrace_defined : (w.takeTrace config place trace).defined = w.defined := by
  obtain ⟨log, eq⟩ := takeTrace_eq config place trace w
  rw [eq]

@[simp] theorem takeTrace_image : (w.takeTrace config place trace).image = w.image := by
  obtain ⟨log, eq⟩ := takeTrace_eq config place trace w
  rw [eq]

@[simp] theorem takeTrace_counter : (w.takeTrace config place trace).counter = w.counter := by
  obtain ⟨log, eq⟩ := takeTrace_eq config place trace w
  rw [eq]

@[simp] theorem takeTrace_widths : (w.takeTrace config place trace).widths = w.widths := by
  obtain ⟨log, eq⟩ := takeTrace_eq config place trace w
  rw [eq]

@[simp] theorem takeTrace_hint : (w.takeTrace config place trace).hint = trace.hint := by
  obtain ⟨log, eq⟩ := takeTrace_eq config place trace w
  rw [eq]

@[simp] theorem takeTrace_unsettled :
    (w.takeTrace config place trace).unsettled = (w.unsettled || trace.deferred) := by
  obtain ⟨log, eq⟩ := takeTrace_eq config place trace w
  rw [eq]

@[simp] theorem takeTrace_forward : (w.takeTrace config place trace).forward =
    w.forward ++ trace.missed.map (⟨·, place⟩) := by
  obtain ⟨log, eq⟩ := takeTrace_eq config place trace w
  rw [eq]

@[simp] theorem takeTrace_warnings : (w.takeTrace config place trace).warnings =
    w.warnings ++ trace.cautions.map fun about => place.diagnostic .warning about.problem := by
  obtain ⟨log, eq⟩ := takeTrace_eq config place trace w
  rw [eq]

end TakeTrace

inductive Labelled (config : Config) : List Text → Work → Work → Prop where
  | nil (w : Work) : Labelled config [] w w
  | cons {name : Text} {rest : List Text} {w w₁ w₂ : Work} {pc : UInt32}
      (placed : w.counter = some pc)
      (bound : Performed config w (.binding name ['$'] (.known pc)) w₁)
      (more : Labelled config rest w₁ w₂) : Labelled config (name :: rest) w w₂

structure Work.SameButBound (w w' : Work) : Prop where
  pass : w'.pass = w.pass
  image : w'.image = w.image
  counter : w'.counter = w.counter
  widths : w'.widths = w.widths
  hint : w'.hint = w.hint
  forward : w'.forward = w.forward
  warnings : w'.warnings = w.warnings

theorem Labelled.frame {config : Config} {names : List Text} {w w' : Work}
    (h : Labelled config names w w') : w.SameButBound w' := by
  induction h with
  | nil => exact ⟨rfl, rfl, rfl, rfl, rfl, rfl, rfl⟩
  | cons placed bound more ih =>
    cases bound
    exact ⟨ih.pass, ih.image, ih.counter, ih.widths, ih.hint, ih.forward, ih.warnings⟩

theorem Work.SameButBound.refl (w : Work) : w.SameButBound w := ⟨rfl, rfl, rfl, rfl, rfl, rfl, rfl⟩

theorem Work.SameButBound.trans {w w' w'' : Work} (h : w.SameButBound w')
    (h' : w'.SameButBound w'') : w.SameButBound w'' :=
  ⟨h'.pass.trans h.pass, h'.image.trans h.image, h'.counter.trans h.counter,
    h'.widths.trans h.widths, h'.hint.trans h.hint, h'.forward.trans h.forward,
    h'.warnings.trans h.warnings⟩

theorem Work.SameButBound.of_report {w w' : Work} {notice : Notice}
    (h : (w.report notice).SameButBound w') : w.SameButBound w' :=
  ⟨h.pass, h.image, h.counter, h.widths, h.hint, h.forward, h.warnings⟩

structure Work.SameButPerformed (w w' : Work) : Prop where
  pass : w'.pass = w.pass
  hint : w'.hint = w.hint
  forward : w'.forward = w.forward
  warnings : w'.warnings = w.warnings

/-- A line that gets done: labels first, then the statement is read and performed. -/
inductive CarriedOut (config : Config) (place : SourceLine) (w : Work) : Work → Prop where
  | intro {labelled : Work} {outcome : Outcome} {trace : Trace} {w' : Work}
      (labels : Labelled config (ParsedLine.ofText place.text).labels w labelled)
      (read : ((ParsedLine.ofText place.text).statement.outcome labelled.env
        labelled.widths).run { hint := labelled.hint } = (.ok outcome, trace))
      (performed : Performed config (labelled.takeTrace config place trace) outcome w') :
      CarriedOut config place w w'

namespace Step

theorem defineLabel_run {place : SourceLine} {name : Text} {w : Work} {pc : UInt32}
    (placed : w.counter = some pc) :
    (defineLabel place name).run w =
      (define place name (.known pc) ['$']).run (w.report (.label name pc)) := by
  unfold defineLabel
  rw [run_bind_of_ok (get_run w)]
  simp only [placed]
  rfl

theorem defineLabel_refused (place : SourceLine) {name : Text} {w : Work}
    (unplaced : w.counter = none) :
    (defineLabel place name).run w = (.error (.fault (.labelBeforeOrigin name)), w) := by
  unfold defineLabel
  rw [run_bind_of_ok (get_run w)]
  simp only [unplaced]
  rfl

theorem define_frame (place : SourceLine) (name expression : Text) (value : Value) (w : Work) :
    w.SameButBound ((define place name value expression).run w).2 := by
  rcases define_cases place name expression value w with refused | ⟨agrees, symbols, bound⟩
  · rw [refused]
    exact .refl w
  · obtain ⟨log, run⟩ := define_run place agrees bound
    rw [run]
    exact ⟨rfl, rfl, rfl, rfl, rfl, rfl, rfl⟩

theorem defineLabel_frame (place : SourceLine) (name : Text) (w : Work) :
    w.SameButBound ((defineLabel place name).run w).2 := by
  cases placed : w.counter with
  | none =>
    rw [defineLabel_refused place placed]
    exact .refl w
  | some pc =>
    rw [defineLabel_run placed]
    exact (define_frame place name ['$'] (.known pc) _).of_report

theorem labels_frame (place : SourceLine) (names : List Text) (w : Work) :
    w.SameButBound ((names.forM (defineLabel place)).run w).2 := by
  induction names generalizing w with
  | nil => exact .refl w
  | cons name rest ih =>
    have first := defineLabel_frame place name w
    change w.SameButBound ((defineLabel place name >>= fun _ => _).run w).2
    rw [run_bind]
    rcases run : (defineLabel place name).run w with ⟨halt | _, w₁⟩
    · rw [run] at first
      exact first
    · rw [run] at first
      exact first.trans (ih w₁)

theorem performOrigin_frame (config : Config) (address : UInt32) (w : Work) :
    w.SameButPerformed ((performOrigin config address).run w).2 := by
  unfold performOrigin
  rw [run_bind_of_ok (get_run w)]
  split
  · split <;> exact ⟨rfl, rfl, rfl, rfl⟩
  · split <;> exact ⟨rfl, rfl, rfl, rfl⟩

theorem emit_frame (run : List UInt8) (w : Work) : w.SameButPerformed ((emit run).run w).2 := by
  unfold emit
  rw [run_bind_of_ok (get_run w)]
  split
  · exact ⟨rfl, rfl, rfl, rfl⟩
  · split <;> exact ⟨rfl, rfl, rfl, rfl⟩

theorem perform_frame (config : Config) (place : SourceLine) (outcome : Outcome) (w : Work) :
    w.SameButPerformed ((perform config place outcome).run w).2 := by
  cases outcome with
  | nothing | widths => exact ⟨rfl, rfl, rfl, rfl⟩
  | origin address => exact performOrigin_frame config address w
  | bytes run => exact emit_frame run w
  | binding name expression value =>
    have bound : w.SameButBound ((performBinding place name expression value).run w).2 := by
      cases value with
      | known word =>
        exact (define_frame place name expression (.known word)
          (w.report (.equate name word))).of_report
      | unresolved =>
        exact (define_frame place name expression .unresolved
          (w.report (.equateDeferred name expression))).of_report
    exact ⟨bound.pass, bound.hint, bound.forward, bound.warnings⟩

theorem labels_run_ok {config : Config} {place : SourceLine} {labels : List Text} {w w' : Work}
    (h : (labels.forM (defineLabel place)).run w = (.ok (), w')) :
    Labelled config labels w w' := by
  induction labels generalizing w with
  | nil =>
    cases h
    exact .nil _
  | cons name rest ih =>
    obtain ⟨_, w₁, hn, hr⟩ := run_bind_ok h
    cases placed : w.counter with
    | none =>
      rw [defineLabel_refused place placed] at hn
      cases hn
    | some pc =>
      rw [defineLabel_run placed] at hn
      cases define_run_ok config hn with
      | binding agrees bound => exact .cons placed (.binding agrees bound) (ih hr)

theorem runStatement_run_ok {config : Config} {place : SourceLine} {statement : Statement}
    {w w' : Work} (h : (runStatement config place statement).run w = (.ok (), w')) :
    ∃ outcome trace,
      (statement.outcome w.env w.widths).run { hint := w.hint } = (.ok outcome, trace) ∧
      Performed config (w.takeTrace config place trace) outcome w' := by
  rw [runStatement_run] at h
  rcases hr : (statement.outcome w.env w.widths).run { hint := w.hint } with
    ⟨cause | outcome, trace⟩
  · rw [hr] at h
    cases h
  · rw [hr] at h
    exact ⟨outcome, trace, rfl, perform_run_ok h⟩

theorem runLine_run_ok {config : Config} {place : SourceLine} {w w' : Work}
    (h : (runLine config place).run w = (.ok (), w')) : CarriedOut config place w w' := by
  obtain ⟨_, labelled, hl, hs⟩ := run_bind_ok h
  obtain ⟨outcome, trace, read, performed⟩ := runStatement_run_ok hs
  exact ⟨labels_run_ok hl, read, performed⟩

end Step

end Assembler65816
