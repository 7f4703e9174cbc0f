import Assembler65816.Proofs.Definitions

/-! # Settled passes

A pass after the first that asks for no other one reads nothing that its own end contradicts: every
value it used on the way is the value of the table it ends with. `SettledRun` describes such a pass
by that table alone.
-/
namespace Assembler65816

/-- The part of the work that lines move: the location counter, the widths and the image. -/
structure Cursor where
  counter : Option UInt32 := none
  widths : RegisterWidths := {}
  image : Image

def Work.cursor (w : Work) : Cursor := ⟨w.counter, w.widths, w.image⟩

theorem takeTrace_cursor (config : Config) (place : SourceLine) (trace : Trace) (w : Work) :
    (w.takeTrace config place trace).cursor = w.cursor := by
  simp only [Work.cursor, takeTrace_counter, takeTrace_widths, takeTrace_image]

inductive Moves (config : Config) (p : Cursor) : Outcome → Cursor → Prop where
  | nothing : Moves config p .nothing p
  | binding (name expression : Text) (value : Value) :
      Moves config p (.binding name expression value) p
  | firstOrigin (address : UInt32) (unset : p.counter = none) (free : config.romBase = none) :
      Moves config p (.origin address)
        { p with
          image := if p.image.base = address then p.image else p.image.rebase address
          counter := some address }
  | origin (address : UInt32) (later : p.counter ≠ none ∨ config.romBase ≠ none)
      (inside : p.image.base ≤ address ∧ address ≤ p.image.limit) :
      Moves config p (.origin address) { p with counter := some address }
  | bytes (run : List UInt8) (pc : UInt32) (start : Nat) (placed : p.counter = some pc)
      (located : p.image.locate pc run = .ok start) :
      Moves config p (.bytes run)
        { p with
          image := p.image.overwrite start run
          counter := some (pc + UInt32.ofNat run.length) }
  | widths (widths : RegisterWidths) : Moves config p (.widths widths) { p with widths }

theorem Performed.moves {config : Config} {w w' : Work} {outcome : Outcome}
    (h : Performed config w outcome w') : Moves config w.cursor outcome w'.cursor := by
  cases h with
  | nothing => exact .nothing
  | binding => exact .binding _ _ _
  | firstOrigin unset free => exact .firstOrigin _ unset free
  | origin later inside => exact .origin _ later inside
  | bytes placed located => exact .bytes _ _ _ placed located
  | widths => exact .widths _

/-- The image is a window of the size and with the fill byte of the settings, at their base if they
fix one. Nothing is written before the location counter is set. -/
structure Cursor.Window (config : Config) (p : Cursor) : Prop where
  fill : p.image.fill = config.fill
  size : p.image.bytes.size = config.romSize.toNat
  fixed : ∀ base, config.romBase = some base → p.image.base = base
  blank : p.counter = none →
    p.image.bytes = Array.replicate config.romSize.toNat config.fill

theorem Cursor.Window.bytes_clear {config : Config} {p : Cursor} (h : p.Window config) :
    p.image.clear.bytes = Array.replicate config.romSize.toNat config.fill := by
  simp only [Image.clear, h.size, h.fill]

theorem Moves.window {config : Config} {p p' : Cursor} {outcome : Outcome}
    (h : Moves config p outcome p') (hp : p.Window config) : p'.Window config := by
  cases h with
  | nothing => exact hp
  | binding => exact hp
  | widths => exact ⟨hp.fill, hp.size, hp.fixed, hp.blank⟩
  | origin => exact ⟨hp.fill, hp.size, hp.fixed, fun h => (by cases h)⟩
  | bytes run pc start =>
    refine ⟨hp.fill, ?_, hp.fixed, fun h => (by cases h)⟩
    simp only [Image.overwrite, Image.size_write, hp.size]
  | firstOrigin address unset free =>
    refine ⟨?_, ?_, fun base fixed => ?_, fun h => (by cases h)⟩
    · dsimp only
      split
      · exact hp.fill
      · exact hp.fill
    · dsimp only
      split
      · exact hp.size
      · simp only [Image.rebase, Image.clear, Array.size_replicate, hp.size]
    · rw [free] at fixed
      cases fixed

theorem Moves.base_eq {config : Config} {p p' : Cursor} {outcome : Outcome}
    (h : Moves config p outcome p') (set : p.counter ≠ none) :
    p'.counter ≠ none ∧ p'.image.base = p.image.base := by
  cases h with
  | nothing => exact ⟨set, rfl⟩
  | binding => exact ⟨set, rfl⟩
  | widths => exact ⟨set, rfl⟩
  | origin => exact ⟨by simp, rfl⟩
  | bytes => exact ⟨by simp, rfl⟩
  | firstOrigin address unset free => exact absurd unset set

theorem Moves.image_eq {config : Config} {p p' : Cursor} {outcome : Outcome}
    (h : Moves config p outcome p') (window : p.Window config)
    (empty : ∀ run, outcome ≠ .bytes run) (base : UInt32) :
    { p'.image with base } = { p.image with base } := by
  cases h with
  | nothing | binding | widths | origin => rfl
  | firstOrigin address unset free =>
    dsimp only
    split
    · rfl
    · have clear : p.image.clear.bytes = p.image.bytes := by
        rw [window.bytes_clear, window.blank unset]
      simp only [Image.rebase]
      rw [clear]
      rfl
  | bytes run => exact absurd rfl (empty run)

/-- A line read against a table of final values: labels and equates agree with the table, and
nothing is left open. -/
inductive Settles (config : Config) (table : SymbolTable) (r : Record) (p : Cursor) :
    Cursor → List Diagnostic → Prop where
  | intro {outcome : Outcome} {trace : Trace} {p' : Cursor}
      (labels : ∀ name ∈ (ParsedLine.ofText r.source.text).labels,
        ∃ pc, p.counter = some pc ∧ table.lookup name = some (.known pc))
      (read : ((ParsedLine.ofText r.source.text).statement.outcome (table.env p.counter)
        p.widths).run { hint := r.hint } = (.ok outcome, trace))
      (quiet : trace.deferred = false)
      (bound : ∀ name expression value, outcome = .binding name expression value →
        ∃ word, value = .known word ∧ table.lookup name = some (.known word))
      (moves : Moves config p outcome p') :
      Settles config table r p p'
        (trace.cautions.map fun about => r.source.diagnostic .warning about.problem)

inductive SettledRun (config : Config) (table : SymbolTable) :
    List Record → Cursor → Cursor → List Diagnostic → Prop where
  | nil (p : Cursor) : SettledRun config table [] p p []
  | cons {r : Record} {rest : List Record} {p p₁ p₂ : Cursor} {warnings more : List Diagnostic}
      (line : Settles config table r p p₁ warnings)
      (run : SettledRun config table rest p₁ p₂ more) :
      SettledRun config table (r :: rest) p p₂ (warnings ++ more)

theorem SettledRun.base_eq {config : Config} {table : SymbolTable} {records : List Record}
    {p p' : Cursor} {warnings : List Diagnostic}
    (h : SettledRun config table records p p' warnings) (set : p.counter ≠ none) :
    p'.image.base = p.image.base := by
  induction h with
  | nil => rfl
  | cons line run ih =>
    obtain ⟨_, _, _, _, moves⟩ := line
    obtain ⟨set₁, same⟩ := moves.base_eq set
    exact (ih set₁).trans same

theorem takeTrace_window {config : Config} {place : SourceLine} {trace : Trace} {w : Work}
    (h : w.cursor.Window config) : (w.takeTrace config place trace).cursor.Window config := by
  rw [takeTrace_cursor]
  exact h

theorem Passed.window {config : Config} {records records' : List Record} {w w' : Work}
    (h : Passed config records w records' w') (hw : w.cursor.Window config) :
    w'.cursor.Window config :=
  h.preserves (I := fun v => v.cursor.Window config) (fun _ _ hv => hv)
    (fun _ _ _ hv => takeTrace_window hv) (fun _ _ _ hv performed => performed.moves.window hv) hw

theorem Meets.window {config : Config} {records : List Record} {r : Record} {w w' : Work}
    (h : Meets config records w r w') (hw : w.cursor.Window config) :
    w'.cursor.Window config :=
  h.preserves (I := fun v => v.cursor.Window config) (fun _ _ hv => hv)
    (fun _ _ _ hv => takeTrace_window hv) (fun _ _ _ hv performed => performed.moves.window hv) hw

theorem Work.startPass_window {config : Config} {w : Work} (h : w.cursor.Window config)
    (pass : Nat) : (w.startPass config pass).cursor.Window config := by
  simp only [Work.cursor, startPass_counter, startPass_widths, startPass_image]
  refine ⟨h.fill, ?_, h.fixed, fun _ => h.bytes_clear⟩
  simp only [Image.clear, Array.size_replicate]
  exact h.size

theorem Work.Retried.cursor_eq {w w' : Work} (h : w.Retried w') : w'.cursor = w.cursor := by
  rw [h.frame]
  rfl

theorem Assembly.Reached.window {config : Config} {lines : List SourceLine} {p : Nat}
    {a : Assembly} (h : (Assembly.new config lines).Reached p a) :
    a.work.cursor.Window config := by
  induction h with
  | start =>
    refine ⟨rfl, by simp [Work.cursor, Assembly.new, Image.new], fun base fixed => ?_, fun _ => rfl⟩
    simp [Work.cursor, Assembly.new, Image.new, fixed]
  | @pass p a a' before passed ih =>
    obtain ⟨w, done, retried, _⟩ := Assembly.runPass_none passed
    have config_eq : a.config = config := before.config_eq
    rw [retried.cursor_eq]
    rw [config_eq] at done
    exact done.window (Work.startPass_window ih _)

/-- Every name of `t` is in `table`, with the same value where it is known. -/
structure SymbolTable.Leads (t table : SymbolTable) : Prop where
  known : ∀ m word, t.lookup m = some (.known word) → table.lookup m = some (.known word)
  present : ∀ m, t.lookup m ≠ none → table.lookup m ≠ none

def SymbolTable.Covers (t table : SymbolTable) : Prop :=
  ∀ m, table.lookup m ≠ none → t.lookup m ≠ none

theorem SymbolTable.Leads.env_extends {t table : SymbolTable} (h : t.Leads table)
    (covers : t.Covers table) (pc : Option UInt32) : (t.env pc).Extends (table.env pc) := by
  refine ⟨rfl, h.known, h.present, fun m hm => Or.inl ?_⟩
  by_contra present
  exact covers m present hm

theorem Performed.covers {config : Config} {table : SymbolTable} {w w' : Work} {outcome : Outcome}
    (h : Performed config w outcome w') (covers : w.symbols.Covers table) :
    w'.symbols.Covers table := by
  intro m hm
  exact h.present (covers m hm)

theorem CarriedOut.covers {config : Config} {table : SymbolTable} {place : SourceLine}
    {w w' : Work} (h : CarriedOut config place w w') (covers : w.symbols.Covers table) :
    w'.symbols.Covers table := by
  refine h.preserves (I := fun v => v.symbols.Covers table) ?_ ?_ covers
  · intro v place trace hv
    rw [takeTrace_symbols]
    exact hv
  · intro v outcome v' hv performed
    exact performed.covers hv

section Backwards

variable {config : Config} {table : SymbolTable} {w w' : Work}

/-- Where no value moved, the table before a binding leads to the same end. -/
theorem Performed.leads_of_binding {name expression : Text} {value : Value}
    (h : Performed config w (.binding name expression value) w') (later : w.pass ≠ 1)
    (settled : w'.unsettled = false) (leads : w'.symbols.Leads table) :
    w.unsettled = false ∧ w.symbols.Leads table ∧
      ∀ word, value = .known word → table.lookup name = some (.known word) := by
  cases h with
  | binding agrees bound =>
    have lookup := SymbolTable.lookup_define bound
    have later : (w.pass != 1) = true := by simpa using later
    obtain ⟨before, still⟩ := Bool.or_eq_false_iff.mp settled
    rw [later, Bool.true_and] at still
    refine ⟨before, ⟨fun m word hm => ?_, fun m hm => ?_⟩, fun word hv => ?_⟩
    · apply leads.known m word
      rw [lookup m]
      split
      · next same =>
        subst same
        dsimp only
        rw [hm] at still ⊢
        cases value with
        | unresolved => rfl
        | known new =>
          have same : word = new := by simpa [Step.contradicts] using still
          rw [same]
          rfl
      · exact hm
    · apply leads.present m
      rw [lookup m]
      split
      · simp
      · exact hm
    · apply leads.known
      rw [lookup name, if_pos rfl, hv]
      simp [Value.merge]

theorem Performed.leads {outcome : Outcome} (h : Performed config w outcome w')
    (later : w.pass ≠ 1) (settled : w'.unsettled = false) (leads : w'.symbols.Leads table) :
    w.unsettled = false ∧ w.symbols.Leads table ∧
      ∀ name expression word, outcome = .binding name expression (.known word) →
        table.lookup name = some (.known word) := by
  by_cases binding : ∃ name expression value, outcome = .binding name expression value
  · obtain ⟨name, expression, value, rfl⟩ := binding
    obtain ⟨before, leads₀, found⟩ := h.leads_of_binding later settled leads
    refine ⟨before, leads₀, fun name' expression' word eq => ?_⟩
    cases eq
    exact found word rfl
  · have other : ∀ name expression value, outcome ≠ .binding name expression value :=
      fun name expression value eq => binding ⟨name, expression, value, eq⟩
    obtain ⟨bindings, unsettled⟩ := h.bindings_eq other
    have symbols : w'.symbols = w.symbols := congrArg Bindings.symbols bindings
    rw [unsettled] at settled
    rw [symbols] at leads
    exact ⟨settled, leads, fun name expression word eq => absurd eq (other _ _ _)⟩

theorem Labelled.leads {names : List Text} (h : Labelled config names w w') (later : w.pass ≠ 1)
    (settled : w'.unsettled = false) (leads : w'.symbols.Leads table) :
    w.unsettled = false ∧ w.symbols.Leads table ∧
      ∀ name ∈ names, ∃ pc, w.counter = some pc ∧ table.lookup name = some (.known pc) := by
  induction h with
  | nil => exact ⟨settled, leads, by simp⟩
  | @cons name rest w w₁ w₂ pc placed bound more ih =>
    have frame := (Labelled.cons placed bound (.nil _)).frame
    obtain ⟨settled₁, leads₁, labels⟩ := ih (frame.pass ▸ later) settled leads
    obtain ⟨settled₀, leads₀, here⟩ := bound.leads_of_binding later settled₁ leads₁
    refine ⟨settled₀, leads₀, fun m hm => ?_⟩
    rcases List.mem_cons.mp hm with rfl | hm
    · exact ⟨pc, placed, here pc rfl⟩
    · obtain ⟨pc', placed', found⟩ := labels m hm
      exact ⟨pc', frame.counter ▸ placed', found⟩

end Backwards

theorem Statement.known_of_binding {env : Env} {widths : RegisterWidths} {statement : Statement}
    {t t' : Trace} {name expression : Text} {value : Value}
    (h : (statement.outcome env widths).run t = (.ok (.binding name expression value), t'))
    (quiet : t'.deferred = false) : ∃ word, value = .known word := by
  rcases Statement.outcome_binds h with ⟨_, _, _, rfl, same, _⟩ | ⟨_, other⟩
  · cases same
    obtain ⟨value, t₁, hv, hr⟩ := run_bind_ok h
    cases hr
    cases value with
    | known word => exact ⟨word, rfl⟩
    | unresolved =>
      rw [Tracing.eval_deferred hv] at quiet
      cases quiet
  · exact absurd rfl (other _ _ _)

/-- A line of a pass that ends settled reads the same against the last table. -/
theorem CarriedOut.settles {config : Config} {table : SymbolTable} {r : Record} {w w' : Work}
    (h : CarriedOut config r.source { w with hint := r.hint } w') (later : w.pass ≠ 1)
    (settled : w'.unsettled = false) (leads : w'.symbols.Leads table)
    (covers : w.symbols.Covers table) :
    w.unsettled = false ∧ w.symbols.Leads table ∧ w'.hint = r.hint ∧
      ∃ warnings, Settles config table r w.cursor w'.cursor warnings ∧
        w'.warnings = w.warnings ++ warnings := by
  obtain @⟨labelled, outcome, trace, _, labels, read, performed⟩ := h
  have frame := labels.frame
  -- Backwards through the statement and the labels: nothing on the way asked for another pass.
  obtain ⟨settled₁, leads₁, bound⟩ :=
    performed.leads (by simpa [frame.pass] using later) settled leads
  simp only [takeTrace_unsettled, Bool.or_eq_false_iff] at settled₁
  simp only [takeTrace_symbols] at leads₁
  obtain ⟨settled₀, leads₀, found⟩ := labels.leads later settled₁.1 leads₁
  -- Forwards: the table on the way has the last one's names, so the statement reads the same.
  have covered : labelled.symbols.Covers table :=
    labels.preserves (I := fun v => v.symbols.Covers table) (fun _ _ _ hv h => h.covers hv) covers
  have counter : labelled.counter = w.counter := frame.counter
  have widths : labelled.widths = w.widths := frame.widths
  have hint : labelled.hint = r.hint := frame.hint
  have same := ParsedLine.outcome_same (leads₁.env_extends covered labelled.counter) read
    settled₁.2
  rw [counter, widths, hint] at same
  have kept : trace.hint = r.hint := (Statement.outcome_quiet read settled₁.2).trans hint
  obtain ⟨hint', warnings', _⟩ := performed.frame
  refine ⟨settled₀, leads₀, ?_, _, .intro found same settled₁.2 ?_ ?_, ?_⟩
  · rw [hint', takeTrace_hint, kept]
  · intro name expression value eq
    subst eq
    obtain ⟨word, rfl⟩ := Statement.known_of_binding read settled₁.2
    exact ⟨word, rfl, bound name expression word rfl⟩
  · have moves := performed.moves
    simp only [Work.cursor, takeTrace_counter, takeTrace_widths, takeTrace_image, frame.counter,
      frame.widths, frame.image] at moves
    exact moves
  · rw [warnings', takeTrace_warnings, frame.warnings]

/-- A pass after the first that ends without asking for another one is settled by its last
table, if that table names nothing new. -/
theorem Passed.settled {config : Config} {table : SymbolTable} {records records' : List Record}
    {w w' : Work} (h : Passed config records w records' w') (last : w'.symbols = table)
    (settled : w'.unsettled = false) (later : w.pass ≠ 1) (covers : w.symbols.Covers table) :
    w.unsettled = false ∧ w.symbols.Leads table ∧ records' = records ∧
      ∃ warnings, SettledRun config table records w.cursor w'.cursor warnings ∧
        w'.warnings = w.warnings ++ warnings := by
  induction h with
  | nil w =>
    have leads : w.symbols.Leads table := by
      rw [last]
      exact ⟨fun _ _ h => h, fun _ h => h⟩
    exact ⟨settled, leads, rfl, [], .nil _, by simp⟩
  | @cons r rest rest' w w₁ w₂ line more ih =>
    have carried := Step.runLine_run_ok line
    have later₁ : w₁.pass ≠ 1 := by rwa [carried.pass_eq]
    obtain ⟨settled₁, leads₁, rfl, more, run, added⟩ :=
      ih last settled later₁ (carried.covers covers)
    obtain ⟨settled₀, leads₀, hint, warnings, here, noted⟩ :=
      carried.settles later settled₁ leads₁ covers
    refine ⟨settled₀, leads₀, ?_, _, .cons here run, ?_⟩
    · rw [hint]
    · rw [added, noted, List.append_assoc]

structure Assembly.Finished (config : Config) (lines : List SourceLine) (a : Assembly) : Prop where
  valid : config.validate = .ok ()
  config_eq : a.config = config
  sources : a.records.map Record.source = lines
  resolved : a.work.symbols.unresolvedCount = 0
  names : ∀ m, a.work.symbols.lookup m ≠ none ↔ m ∈ definedNames lines
  settled : a.work.unsettled = false
  window : a.work.cursor.Window config
  last : ∃ image, Cursor.Window config { image } ∧
    SettledRun config a.work.symbols a.records { image } a.work.cursor a.work.warnings

theorem Assembly.finished_of_run_done {config : Config} {lines : List SourceLine} {a : Assembly}
    (h : (Assembly.new config lines).run = (.done, a)) : a.Finished config lines := by
  obtain ⟨valid, q, a, reached, settled, log, rfl⟩ := reached_of_run_done h
  simp only [Work.settled, Bool.and_eq_true, decide_eq_true_eq, Bool.not_eq_true', beq_iff_eq]
    at settled
  obtain ⟨⟨two, settled⟩, resolved⟩ := settled
  have window := reached.window
  have names := reached.names
  refine ⟨valid, reached.config_eq, reached.sources_eq, resolved, fun m => by simp [names m],
    settled, window, ?_⟩
  cases reached with
  | @pass _ a₀ _ before passed =>
    obtain ⟨w, done, retried, later, _⟩ := runPass_none passed
    have pass : a.work.pass = q + 1 := by
      rw [retried.frame]
      exact done.pass_eq.trans (startPass_pass _ _ _)
    have later := later (by omega)
    have config_eq : a₀.config = config := before.config_eq
    rw [config_eq] at done
    have covers : (a₀.work.startPass config (q + 1)).symbols.Covers w.symbols := by
      intro m hm
      rw [startPass_symbols]
      have : a.work.symbols.lookup m ≠ none := by
        rw [later]
        exact hm
      exact (before.names m).mpr ⟨by omega, ((names m).mp this).2⟩
    rw [later] at settled ⊢
    obtain ⟨_, _, same, warnings, run, noted⟩ :=
      done.settled rfl settled (by rw [startPass_pass]; omega) covers
    refine ⟨a₀.work.image.clear, ?_, ?_⟩
    · have := Work.startPass_window before.window (q + 1)
      simpa only [Work.cursor, startPass_counter, startPass_widths, startPass_image] using this
    · rw [startPass_warnings, List.nil_append] at noted
      rw [← noted] at run
      simp only [Work.cursor, startPass_counter, startPass_widths, startPass_image] at run
      rw [same]
      exact run

end Assembler65816
