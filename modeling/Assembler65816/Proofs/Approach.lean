import Assembler65816.Proofs.FixedPoint
import Assembler65816.Proofs.Layout
import Assembler65816.Proofs.Provisional

/-! # Passes on the way

A later pass that runs on a table which leads to the last one gets through. Beside it stand the
first pass, which has fixed the layout, and a settled pass, which has stored the final bytes at the
same places: what is provisional has the length of what is final, and every binding agrees with the
last table. A pass that knows the last table from its start settles.
-/
namespace Assembler65816

/-- The work of a pass on the way to `table`, where a settled pass stands at `p`. -/
structure Work.Approaches (config : Config) (table : SymbolTable) (p : Cursor) (x : Work) :
    Prop where
  later : x.pass ≠ 1
  leads : x.symbols.Leads table
  covers : x.symbols.Covers table
  defined : ∀ m word, x.defined.lookup m = some (.known word) →
    table.lookup m = some (.known word)
  counter : x.counter = p.counter
  widths : x.widths = p.widths
  size : x.image.bytes.size = p.image.bytes.size
  base : p.counter ≠ none ∨ config.romBase ≠ none → x.image.base = p.image.base

structure Work.Agrees (table : SymbolTable) (x : Work) : Prop where
  lookup : ∀ m, x.symbols.lookup m = table.lookup m
  settled : x.unsettled = false

theorem SymbolTable.define_later (t : SymbolTable) (s : Symbol) :
    ∃ symbols, t.define s false = some symbols := by
  unfold SymbolTable.define
  split
  · exact ⟨t, rfl⟩
  · split
    · exact ⟨t, rfl⟩
    · exact ⟨_, rfl⟩
  · exact ⟨_, rfl⟩

theorem Image.limit_congr {i j : Image} (base : i.base = j.base)
    (size : i.bytes.size = j.bytes.size) : i.limit = j.limit := by
  simp only [Image.limit, Image.size, base, size]

theorem Image.locate_congr {i j : Image} {run run' : List UInt8} (base : i.base = j.base)
    (size : i.bytes.size = j.bytes.size) (length : run.length = run'.length) (address : UInt32) :
    i.locate address run = j.locate address run' := by
  have empty : run.isEmpty = run'.isEmpty := by
    rw [Bool.eq_iff_iff, List.isEmpty_iff_length_eq_zero, List.isEmpty_iff_length_eq_zero, length]
  unfold Image.locate Image.contains Image.size
  rw [base, size, length, empty]

section Approaches

variable {config : Config} {table : SymbolTable} {p p' : Cursor} {x : Work}

theorem Work.Approaches.congr {y : Work} (h : x.Approaches config table p) (pass : y.pass = x.pass)
    (symbols : y.symbols = x.symbols) (defined : y.defined = x.defined)
    (counter : y.counter = x.counter) (widths : y.widths = x.widths) (image : y.image = x.image) :
    y.Approaches config table p := by
  refine ⟨?_, ?_, ?_, ?_, ?_, ?_, ?_, ?_⟩
  · rw [pass]
    exact h.later
  · rw [symbols]
    exact h.leads
  · rw [symbols]
    exact h.covers
  · rw [defined]
    exact h.defined
  · rw [counter]
    exact h.counter
  · rw [widths]
    exact h.widths
  · rw [image]
    exact h.size
  · rw [image]
    exact h.base

/-- A value that is provisional or final contradicts nothing that this pass has bound. -/
theorem Work.Approaches.defines (h : x.Approaches config table p) {name : Text} {value : Value}
    {word : UInt32} (found : table.lookup name = some (.known word))
    (approx : value.Approximates (.known word)) (expression : Text) :
    Step.contradicts (x.defined.lookup name) value = false ∧
      ∃ symbols, x.symbols.define ⟨name, value, expression, x.counter⟩ (x.pass == 1) =
        some symbols := by
  constructor
  · rcases approx with rfl | rfl
    · rcases x.defined.lookup name with _ | (_ | _) <;> rfl
    · exact contradicts_same fun word' bound => known_inj (h.defined name word' bound) found
  · have first : (x.pass == 1) = false := by simpa using h.later
    rw [first]
    exact SymbolTable.define_later _ _

theorem Performed.approaches {x' : Work} {name expression : Text} {value : Value} {word : UInt32}
    (performed : Performed config x (.binding name expression value) x')
    (h : x.Approaches config table p) (found : table.lookup name = some (.known word))
    (approx : value.Approximates (.known word)) :
    x'.Approaches config table p ∧ (value = .known word → x.Agrees table → x'.Agrees table) := by
  -- What a merged value is known to be, it is in the table.
  have merged : ∀ {old : Option Value} {word' : UInt32},
      (old = some (.known word') → table.lookup name = some (.known word')) →
      Value.merge old value = .known word' → table.lookup name = some (.known word') := by
    intro old word' before eq
    rcases Value.merge_known eq with rfl | ⟨_, known⟩
    · rcases approx with impossible | same
      · cases impossible
      · rw [same]
        exact found
    · exact before known
  cases performed with
  | binding agrees bound =>
    have lookup := SymbolTable.lookup_define bound
    dsimp only at lookup
    refine ⟨⟨h.later, ⟨fun m word' hm => ?_, fun m hm => ?_⟩, fun m hm => ?_, fun m word' hm => ?_,
      h.counter, h.widths, h.size, h.base⟩, ?_⟩
    · rw [lookup m] at hm
      split at hm
      · next same =>
        subst same
        exact merged (h.leads.known name word') (Option.some.inj hm)
      · exact h.leads.known m word' hm
    · rw [lookup m] at hm
      split at hm
      · next same =>
        subst same
        rw [found]
        simp
      · exact h.leads.present m hm
    · rw [lookup m]
      split
      · simp
      · exact h.covers m hm
    · dsimp only at hm
      rw [lookup_defined] at hm
      split at hm
      · next same =>
        subst same
        exact merged (h.defined name word') (Option.some.inj hm)
      · exact h.defined m word' hm
    · rintro rfl ⟨same, settled⟩
      have current : x.symbols.lookup name = some (.known word) := (same name).trans found
      refine ⟨fun m => ?_, ?_⟩
      · rw [lookup m]
        split
        · next eq =>
          subst eq
          rw [current, found]
          simp [Value.merge]
        · exact same m
      · have still : Step.contradicts (x.symbols.lookup name) (.known word) = false :=
          contradicts_same fun word' known => known_inj known current
        simp [settled, still]

theorem Work.Approaches.labels (h : x.Approaches config table p) (place : SourceLine)
    {names : List Text}
    (found : ∀ name ∈ names, ∃ pc, p.counter = some pc ∧ table.lookup name = some (.known pc)) :
    ∃ x', (names.forM (Step.defineLabel place)).run x = (.ok (), x') ∧
      x'.Approaches config table p ∧ (x.Agrees table → x'.Agrees table) := by
  induction names generalizing x with
  | nil => exact ⟨x, rfl, h, id⟩
  | cons name rest ih =>
    obtain ⟨pc, placed, value⟩ := found name (by simp)
    have placed : x.counter = some pc := h.counter.trans placed
    have reported : (x.report (.label name pc)).Approaches config table p :=
      h.congr rfl rfl rfl rfl rfl rfl
    obtain ⟨agrees, symbols, bound⟩ := reported.defines value (Or.inr rfl) ['$']
    obtain ⟨log, run⟩ := Step.define_run place agrees bound
    have performed := Step.define_run_ok config run
    obtain ⟨approaches, keeps⟩ := performed.approaches reported value (Or.inr rfl)
    obtain ⟨x', more, approaches', keeps'⟩ := ih approaches fun name h => found name (by simp [h])
    refine ⟨x', (run_bind_of_ok ((Step.defineLabel_run placed).trans run)).trans more,
      approaches', fun agreed => keeps' (keeps rfl ⟨agreed.lookup, agreed.settled⟩)⟩

/-- An outcome similar to the final one can be performed where that one was. -/
theorem Work.Approaches.perform (h : x.Approaches config table p) {outcome outcome' : Outcome}
    (similar : outcome'.Similar outcome) (moves : Moves config p outcome p')
    (bound : ∀ name expression value, outcome = .binding name expression value →
      ∃ word, value = .known word ∧ table.lookup name = some (.known word)) :
    ∃ x', Performed config x outcome' x' ∧ x'.Approaches config table p' ∧
      (outcome' = outcome → x.Agrees table → x'.Agrees table) := by
  cases similar with
  | nothing =>
    cases moves
    exact ⟨x, .nothing, h, fun _ agrees => agrees⟩
  | @binding name expression value' value known =>
    cases moves
    obtain ⟨word, rfl, found⟩ := bound name expression value rfl
    have approx : value'.Approximates (.known word) := by
      cases value' with
      | unresolved => exact Or.inl rfl
      | known word' => exact Or.inr (known word' rfl).symm
    obtain ⟨agrees, symbols, defines⟩ := h.defines found approx expression
    have performed :=
      @Performed.binding config x name expression value' symbols x.log agrees defines
    obtain ⟨approaches, keeps⟩ := performed.approaches h found approx
    refine ⟨_, performed, approaches, fun same => keeps ?_⟩
    cases same
    rfl
  | origin address =>
    cases moves with
    | firstOrigin _ unset free =>
      refine ⟨{ x with
          image := if x.image.base = address then x.image else x.image.rebase address
          counter := some address }, .firstOrigin (h.counter.trans unset) free,
        ⟨h.later, h.leads, h.covers, h.defined, rfl, h.widths, ?_, fun _ => ?_⟩,
        fun _ agrees => ⟨agrees.lookup, agrees.settled⟩⟩
      · dsimp only
        split <;> split <;> simp [Image.rebase, Image.clear, h.size]
      · dsimp only
        split <;> split <;> simp_all [Image.rebase, Image.clear]
    | origin _ later inside =>
      have base := h.base later
      have inside' : x.image.base ≤ address ∧ address ≤ x.image.limit := by
        rw [Image.limit_congr base h.size, base]
        exact inside
      rw [← h.counter] at later
      refine ⟨{ x with counter := some address }, .origin later inside',
        ⟨h.later, h.leads, h.covers, h.defined, rfl, h.widths, h.size, fun _ => base⟩,
        fun _ agrees => ⟨agrees.lookup, agrees.settled⟩⟩
  | @bytes run' run length =>
    cases moves with
    | bytes _ pc start placed located =>
      have base := h.base (Or.inl (by simp [placed]))
      have located' : x.image.locate pc run' = .ok start := by
        rw [← located]
        exact Image.locate_congr base h.size length.symm pc
      refine ⟨_, .bytes (h.counter.trans placed) located',
        ⟨h.later, h.leads, h.covers, h.defined, ?_, h.widths, ?_, fun _ => base⟩,
        fun _ agrees => ⟨agrees.lookup, agrees.settled⟩⟩
      · rw [length]
      · simp [Image.overwrite, h.size]
  | widths widths =>
    cases moves
    exact ⟨_, .widths, ⟨h.later, h.leads, h.covers, h.defined, h.counter, rfl, h.size, h.base⟩,
      fun _ agrees => ⟨agrees.lookup, agrees.settled⟩⟩

theorem Statement.origin_known {env : Env} {widths : RegisterWidths} {expression : Text}
    {t t' : Trace} {outcome : Outcome}
    (h : ((Statement.origin expression).outcome env widths).run t = (.ok outcome, t')) :
    ∃ address, Expression.eval env expression = .ok address := by
  obtain ⟨value, t₁, hv, hr⟩ := run_bind_ok h
  cases value with
  | unresolved => cases hr
  | known address => exact ⟨address, (Tracing.eval_run_ok hv).2 address rfl⟩

/-- A line of a pass on the way: the first pass got it done at the same place, and so did the
settled pass. -/
theorem Work.Approaches.line {r : Record} {warnings : List Diagnostic} {w w' : Work}
    (h : x.Approaches config table p) (line : Settles config table r p p' warnings)
    (first : CarriedOut config r.source w w') (tracks : w.bindings.Tracks x.bindings)
    (counter : x.counter = w.counter) (widths : x.widths = w.widths) (hint : r.hint = w'.hint)
    (names : ∀ name ∈ (ParsedLine.ofText r.source.text).names, isSymbolName name = true) :
    ∃ x', (Step.runLine config r.source).run { x with hint := r.hint } = (.ok (), x') ∧
      x'.Approaches config table p' ∧ (x.Agrees table → x'.Agrees table) := by
  obtain @⟨outcome, trace, _, found, read, quiet, bound, moves⟩ := line
  obtain @⟨labelled, outcome₁, trace₁, _, labels₁, read₁, performed₁⟩ := first
  have hinted : Work.Approaches config table p { x with hint := r.hint } :=
    h.congr rfl rfl rfl rfl rfl rfl
  obtain ⟨x₁, run, approaches, keeps⟩ := hinted.labels r.source found
  have labels : Labelled config _ _ x₁ := Step.labels_run_ok run
  have frame := labels.frame
  have frame₁ := labels₁.frame
  have tracked := labels₁.tracks labels tracks counter fun name mem =>
    names name (List.mem_append_left _ mem)
  -- What the first pass knew here, this one knows, and what this one knows is final.
  have before : labelled.env.Extends x₁.env := by
    have same : x₁.counter = labelled.counter := by
      rw [frame.counter, frame₁.counter]
      exact counter
    rw [Work.env, Work.env, same]
    exact tracked.env_extends labelled.counter
  have after : x₁.env.Extends (table.env p.counter) := by
    rw [Work.env, approaches.counter]
    exact approaches.leads.env_extends approaches.covers p.counter
  have origin : ∀ expression, (ParsedLine.ofText r.source.text).statement = .origin expression →
      ∃ address, Expression.eval x₁.env expression = .ok address := by
    intro expression eq
    rw [eq] at read₁
    obtain ⟨address, known⟩ := Statement.origin_known read₁
    exact ⟨address, Expression.eval_of_extends before known⟩
  obtain ⟨outcome', trace', read'⟩ := Statement.outcome_succeeds after origin read
  have wide : labelled.widths = p.widths := by
    rw [frame₁.widths, ← widths]
    exact h.widths
  rw [wide] at read₁
  have kept : r.hint = trace₁.hint := by rw [hint, performed₁.frame.1, takeTrace_hint]
  obtain ⟨_, same⟩ := Statement.outcome_similar before read₁ read' kept
  obtain ⟨similar, _⟩ := Statement.outcome_similar after read' read (by rw [same]; exact kept)
  have taken : (x₁.takeTrace config r.source trace').Approaches config table p :=
    approaches.congr (by simp) (by simp) (by simp) (by simp) (by simp) (by simp)
  obtain ⟨x', performed, approaches', keeps'⟩ := taken.perform similar moves bound
  obtain ⟨log, done⟩ := performed.run r.source
  have statement : (Step.runStatement config r.source
      (ParsedLine.ofText r.source.text).statement).run x₁ = (.ok (), { x' with log }) := by
    rw [Step.runStatement_run, approaches.widths, show x₁.hint = r.hint from frame.hint, read']
    exact done
  refine ⟨{ x' with log }, (run_bind_of_ok run).trans statement,
    approaches'.congr rfl rfl rfl rfl rfl rfl, fun agrees => ?_⟩
  -- With the last table in place, the statement reads as in the settled pass.
  have agreed := keeps ⟨agrees.lookup, agrees.settled⟩
  have env : x₁.env = table.env p.counter := by
    have lookup : x₁.symbols.lookup = table.lookup := funext agreed.lookup
    rw [Work.env, approaches.counter, SymbolTable.env, SymbolTable.env, lookup]
  rw [env, read] at read'
  cases read'
  obtain ⟨lookup, settled⟩ := keeps' rfl ⟨by simpa using agreed.lookup, by
    rw [takeTrace_unsettled, agreed.settled, quiet]
    rfl⟩
  exact ⟨lookup, settled⟩

end Approaches

/-- A pass on the way gets through, and settles if it starts with the last table. -/
theorem Passed.approaches {config : Config} {table : SymbolTable} {records records' : List Record}
    {p p' : Cursor} {warnings : List Diagnostic} {w w' x : Work}
    (first : Passed config records w records' w')
    (settled : SettledRun config table records' p p' warnings)
    (h : x.Approaches config table p) (tracks : w.bindings.Tracks x.bindings)
    (counter : x.counter = w.counter) (widths : x.widths = w.widths)
    (names : ∀ name ∈ definedNames (records.map Record.source), isSymbolName name = true) :
    ∃ x', Passed config records' x records' x' ∧ x'.counter = p'.counter ∧
      w'.counter = p'.counter ∧ (x.Agrees table → x'.Agrees table) := by
  induction first generalizing x p warnings with
  | nil =>
    cases settled
    exact ⟨x, .nil x, h.counter, counter.symm.trans h.counter, id⟩
  | @cons r rest rest' w w₁ w₂ line more ih =>
    have carried := Step.runLine_run_ok line
    obtain ⟨here, later⟩ := symbolNames_cons names
    cases settled with
    | cons settles run =>
      obtain ⟨x₁, done, approaches, keeps⟩ :=
        h.line settles carried tracks counter widths rfl here
      obtain ⟨counter₁, widths₁, hint₁, tracks₁⟩ :=
        carried.layout (Step.runLine_run_ok done) tracks counter widths rfl here
      obtain ⟨x', passed, ends, ends', keeps'⟩ := ih run approaches tracks₁ counter₁ widths₁ later
      have lines := Passed.cons done passed
      rw [hint₁] at lines
      exact ⟨x', lines, ends, ends', fun agrees => keeps' (keeps agrees)⟩

end Assembler65816
