import Assembler65816.Proofs.Settled

/-! # Finished assemblies are fixed points

Another pass over a finished assembly meets the table that its last pass ended with. Every line
reads and binds what it did before, so that the pass gets through and changes nothing, whatever its
number is. Running the assembly again therefore takes two passes.
-/
namespace Assembler65816

/-- The work of a pass that repeats a settled one and has come to a cursor of it. The window has
its last base from the start. -/
structure Work.Repeats (table : SymbolTable) (base : UInt32) (p : Cursor) (w : Work) : Prop where
  symbols : w.symbols = table
  counter : w.counter = p.counter
  widths : w.widths = p.widths
  image : w.image = { p.image with base }
  settled : w.unsettled = false
  defined : ∀ m word, w.defined.lookup m = some (.known word) →
    table.lookup m = some (.known word)

section Repeats

variable {config : Config} {table : SymbolTable} {base : UInt32} {p p' : Cursor} {w : Work}

theorem SymbolTable.define_same {t : SymbolTable} {name expression : Text} {word : UInt32}
    {pc : Option UInt32} (found : t.lookup name = some (.known word)) (firstPass : Bool) :
    t.define ⟨name, .known word, expression, pc⟩ firstPass = some t := by
  unfold SymbolTable.define
  rw [found]
  simp

theorem contradicts_same {old : Option Value} {word : UInt32}
    (h : ∀ word', old = some (.known word') → word' = word) :
    Step.contradicts old (.known word) = false := by
  rcases old with _ | (old | _)
  · rfl
  · simp [Step.contradicts, h old rfl]
  · rfl

/-- A name that is bound to the value it has in the table changes nothing. -/
theorem Work.Repeats.bind (h : w.Repeats table base p) {name : Text} {word : UInt32}
    (found : table.lookup name = some (.known word)) (expression : Text) (log : Array Notice) :
    Step.contradicts (w.defined.lookup name) (.known word) = false ∧
    w.symbols.define ⟨name, .known word, expression, w.counter⟩ (w.pass == 1) = some table ∧
    Work.Repeats table base p
      { w with
        symbols := table
        defined :=
          if (Value.known word).isKnown || (w.defined.lookup name).isNone then
            (name, .known word) :: w.defined
          else w.defined
        unsettled := w.unsettled ||
          (w.pass != 1 && Step.contradicts (w.symbols.lookup name) (.known word))
        log } := by
  have same : ∀ word', table.lookup name = some (.known word') → word' = word :=
    fun word' found' => known_inj found' found
  refine ⟨contradicts_same fun word' hd => same word' (h.defined name word' hd), ?_, rfl, h.counter,
    h.widths, h.image, ?_, fun m word' hm => ?_⟩
  · rw [h.symbols]
    exact SymbolTable.define_same found _
  · rw [h.symbols, contradicts_same same, h.settled]
    simp
  · dsimp only at hm
    rw [lookup_defined] at hm
    split at hm
    · next eq =>
      subst eq
      rcases Value.merge_known (Option.some.inj hm) with eq | ⟨eq, _⟩
      · cases eq
        exact found
      · cases eq
    · exact h.defined m word' hm

theorem Work.Repeats.labels (h : w.Repeats table base p) (place : SourceLine) {names : List Text}
    (found : ∀ name ∈ names, ∃ pc, p.counter = some pc ∧ table.lookup name = some (.known pc)) :
    ∃ w', (names.forM (Step.defineLabel place)).run w = (.ok (), w') ∧
      w'.Repeats table base p ∧ w.SameButBound w' := by
  induction names generalizing w with
  | nil => exact ⟨w, rfl, h, rfl, rfl, rfl, rfl, rfl, rfl, rfl⟩
  | cons name rest ih =>
    obtain ⟨pc, placed, bound⟩ := found name (by simp)
    have placed : w.counter = some pc := h.counter.trans placed
    have reported : (w.report (.label name pc)).Repeats table base p :=
      ⟨h.symbols, h.counter, h.widths, h.image, h.settled, h.defined⟩
    obtain ⟨agrees, defines, _⟩ := reported.bind bound ['$'] #[]
    obtain ⟨log, run⟩ := Step.define_run place agrees defines
    obtain ⟨_, _, repeats⟩ := reported.bind bound ['$'] log
    obtain ⟨w', more, repeats', frame⟩ := ih repeats fun name h => found name (by simp [h])
    refine ⟨w', ?_, repeats', frame.pass, frame.image, frame.counter, frame.widths, frame.hint,
      frame.forward, frame.warnings⟩
    exact (run_bind_of_ok ((Step.defineLabel_run placed).trans run)).trans more

theorem Work.Repeats.perform (h : w.Repeats table base p) (window : p.Window config)
    {outcome : Outcome} (moves : Moves config p outcome p')
    (bound : ∀ name expression value, outcome = .binding name expression value →
      ∃ word, value = .known word ∧ table.lookup name = some (.known word))
    (last : p'.counter ≠ none → base = p'.image.base) :
    ∃ w', Performed config w outcome w' ∧ w'.Repeats table base p' := by
  have unchanged := moves.image_eq window
  cases moves with
  | nothing => exact ⟨w, .nothing, h⟩
  | binding name expression value =>
    obtain ⟨word, rfl, found⟩ := bound name expression value rfl
    obtain ⟨agrees, defines, repeats⟩ := h.bind found expression w.log
    exact ⟨_, .binding agrees defines, repeats⟩
  | firstOrigin address unset free =>
    -- The base is already the address of the first origin, so the window is not moved.
    have same : base = address := by
      have last := last (by simp)
      dsimp only at last
      split at last
      · next eq => rw [last, eq]
      · exact last
    have fits : w.image.base = address := by rw [h.image, same]
    refine ⟨{ w with
        image := if w.image.base = address then w.image else w.image.rebase address
        counter := some address }, .firstOrigin (h.counter.trans unset) free, h.symbols, rfl,
      h.widths, ?_, h.settled, h.defined⟩
    rw [if_pos fits, h.image]
    exact (unchanged (by simp) base).symm
  | origin address later inside =>
    have same : base = p.image.base := last (by simp)
    have image : w.image = p.image := by rw [h.image, same]
    rw [← image] at inside
    rw [← h.counter] at later
    exact ⟨{ w with counter := some address }, .origin later inside, h.symbols, rfl, h.widths,
      h.image, h.settled, h.defined⟩
  | bytes run pc start placed located =>
    have same : base = p.image.base := last (by simp)
    have image : w.image = p.image := by rw [h.image, same]
    rw [← image] at located
    rw [← h.counter] at placed
    refine ⟨_, .bytes placed located, h.symbols, rfl, h.widths, ?_, h.settled, h.defined⟩
    rw [image, same]
    rfl
  | widths widths =>
    exact ⟨_, .widths, h.symbols, h.counter, rfl, h.image, h.settled, h.defined⟩

theorem Work.Repeats.line (h : w.Repeats table base p) (window : p.Window config) {r : Record}
    {warnings : List Diagnostic} (line : Settles config table r p p' warnings)
    (last : p'.counter ≠ none → base = p'.image.base) :
    ∃ w', (Step.runLine config r.source).run { w with hint := r.hint } = (.ok (), w') ∧
      w'.Repeats table base p' ∧ w'.hint = r.hint ∧ w'.warnings = w.warnings ++ warnings := by
  obtain @⟨outcome, trace, _, labels, read, quiet, bound, moves⟩ := line
  have hinted : Work.Repeats table base p { w with hint := r.hint } :=
    ⟨h.symbols, h.counter, h.widths, h.image, h.settled, h.defined⟩
  obtain ⟨labelled, run, repeats, frame⟩ := hinted.labels r.source labels
  have taken : (labelled.takeTrace config r.source trace).Repeats table base p := by
    refine ⟨?_, ?_, ?_, ?_, ?_, ?_⟩
    · rw [takeTrace_symbols, repeats.symbols]
    · rw [takeTrace_counter, repeats.counter]
    · rw [takeTrace_widths, repeats.widths]
    · rw [takeTrace_image, repeats.image]
    · rw [takeTrace_unsettled, repeats.settled, quiet]
      rfl
    · rw [takeTrace_defined]
      exact repeats.defined
  obtain ⟨w', performed, repeats'⟩ := taken.perform window moves bound last
  obtain ⟨log, done⟩ := performed.run r.source
  obtain ⟨hint', warnings', _⟩ := performed.frame
  have statement : (Step.runStatement config r.source
      (ParsedLine.ofText r.source.text).statement).run labelled = (.ok (), { w' with log }) := by
    rw [Step.runStatement_run, Work.env, repeats.symbols, repeats.counter, repeats.widths,
      show labelled.hint = r.hint from frame.hint, read]
    exact done
  refine ⟨{ w' with log }, (run_bind_of_ok run).trans statement,
    ⟨repeats'.symbols, repeats'.counter, repeats'.widths, repeats'.image, repeats'.settled,
      repeats'.defined⟩, ?_, ?_⟩
  · change w'.hint = r.hint
    rw [hint', takeTrace_hint, Statement.outcome_quiet read quiet]
  · change w'.warnings = _
    rw [warnings', takeTrace_warnings, frame.warnings]

end Repeats

theorem SettledRun.repeated {config : Config} {table : SymbolTable} {records : List Record}
    {p p' : Cursor} {warnings : List Diagnostic}
    (h : SettledRun config table records p p' warnings) (window : p.Window config) {w : Work}
    (repeats : w.Repeats table p'.image.base p) :
    ∃ w', Passed config records w records w' ∧ w'.Repeats table p'.image.base p' ∧
      w'.warnings = w.warnings ++ warnings := by
  induction h generalizing w with
  | nil => exact ⟨w, .nil w, repeats, by simp⟩
  | @cons r rest p p₁ p₂ warnings more line run ih =>
    obtain ⟨w₁, done, repeats₁, hint, noted⟩ :=
      repeats.line window line fun set => run.base_eq set
    have window₁ : p₁.Window config := by
      obtain ⟨_, _, _, _, moves⟩ := line
      exact moves.window window
    obtain ⟨w₂, passed, repeats₂, added⟩ := ih window₁ repeats₁
    refine ⟨w₂, ?_, repeats₂, by rw [added, noted, List.append_assoc]⟩
    have lines := Passed.cons done passed
    rwa [hint] at lines

theorem Work.sweep_resolved {w : Work} (h : w.symbols.unresolvedCount = 0) (left round : Nat) :
    w.sweep left round = (none, w) := by
  cases left with
  | zero => rfl
  | succ left =>
    rw [Work.sweep]
    exact if_pos h

structure Assembly.Alike (a b : Assembly) : Prop where
  config : b.config = a.config
  records : b.records = a.records
  symbols : b.work.symbols = a.work.symbols
  image : b.work.image = a.work.image

namespace Assembly

variable {config : Config} {lines : List SourceLine} {a b : Assembly}

theorem Finished.start (h : a.Finished config lines) (alike : a.Alike b) (p : Nat) :
    ∃ start, start.Window config ∧
      SettledRun config a.work.symbols a.records start a.work.cursor a.work.warnings ∧
      (b.work.startPass config p).Repeats a.work.symbols a.work.image.base start := by
  obtain ⟨image, window, last⟩ := h.last
  have cleared : a.work.image.clear = { image with base := a.work.image.base } := by
    have bytes := h.window.bytes_clear
    have fill := h.window.fill
    rw [← window.blank rfl] at bytes
    rw [← window.fill] at fill
    simp only [Work.cursor] at bytes fill
    rw [← bytes, ← fill]
    rfl
  refine ⟨{ image }, window, last, ?_, ?_, ?_, ?_, ?_, ?_⟩
  · rw [startPass_symbols, alike.symbols]
  · rw [startPass_counter]
  · rw [startPass_widths]
  · rw [startPass_image, alike.image, cleared]
  · rw [startPass_unsettled]
  · rw [startPass_defined]
    intro m word hm
    cases hm

theorem Finished.runPass (h : a.Finished config lines) (alike : a.Alike b) (p : Nat) :
    ∃ b', b.runPass p = (none, b') ∧ a.Alike b' ∧ b'.work.warnings = a.work.warnings ∧
      b'.work.unsettled = false ∧ b'.work.pass = p := by
  obtain ⟨start, window, last, repeats⟩ := h.start alike p
  have config_eq : b.config = config := alike.config.trans h.config_eq
  obtain ⟨w, passed, repeated, noted⟩ := last.repeated window repeats
  have pass : w.pass = p := passed.pass_eq.trans (startPass_pass _ _ _)
  have image_eq : w.image = a.work.image := repeated.image
  rw [startPass_warnings, List.nil_append] at noted
  have resolved : w.finishPass.symbols.unresolvedCount = 0 := by
    change w.symbols.unresolvedCount = 0
    rw [repeated.symbols]
    exact h.resolved
  refine ⟨{ b with records := a.records, work := w.finishPass }, ?_,
    ⟨alike.config, rfl, repeated.symbols, image_eq⟩, noted, repeated.settled, pass⟩
  unfold Assembly.runPass
  rw [config_eq, alike.records, passed.runLines]
  by_cases first : p = 1
  · simp only [if_pos first, Work.sweep_resolved resolved]
  · simp only [if_neg first]

/-- A finished assembly runs again in two passes: the first asks for a second one, as every run
takes two, and the second settles. -/
theorem Finished.run (h : a.Finished config lines) :
    ∃ b, a.run = (.done, b) ∧ a.Alike b ∧ b.work.warnings = a.work.warnings ∧
      b.work.pass = 2 := by
  have start : a.Alike { a with work.log := #[] } := ⟨rfl, rfl, rfl, rfl⟩
  obtain ⟨b₁, first, alike₁, _, _, pass₁⟩ := h.runPass start 1
  obtain ⟨b₂, second, alike₂, warnings₂, settled₂, pass₂⟩ := h.runPass alike₁ 2
  obtain ⟨left, passes⟩ := Nat.exists_eq_add_of_le' (two_le_maxPasses h.valid)
  have unsettled : b₁.work.settled = false := by simp [Work.settled, pass₁]
  have settled : b₂.work.settled = true := by
    simp [Work.settled, pass₂, settled₂, alike₂.symbols, h.resolved]
  have run : a.run = runPasses (left + 2) 1 { a with work.log := #[] } := by
    unfold Assembly.run
    simp only [h.config_eq, h.valid, passes]
  rw [run, runPasses, first]
  simp only [unsettled, Bool.false_eq_true, if_false]
  rw [runPasses, second]
  simp only [settled, if_true]
  refine ⟨_, rfl, ?_⟩
  unfold Work.reportIf
  split
  · exact ⟨⟨alike₂.config, alike₂.records, alike₂.symbols, alike₂.image⟩, warnings₂, pass₂⟩
  · exact ⟨⟨alike₂.config, alike₂.records, alike₂.symbols, alike₂.image⟩, warnings₂, pass₂⟩

/-- The result of a run that is done is a fixed point. Another pass, whatever its number, gets
through and leaves image, symbols, remembered widths and warnings as they are; running the assembly
again takes two passes to the same result. -/
theorem run_done_fixed (h : (new config lines).run = (.done, a)) :
    (∀ p, ∃ a', a.runPass p = (none, a') ∧ a'.work.image = a.work.image ∧
      a'.work.symbols = a.work.symbols ∧ a'.records = a.records ∧
      a'.work.warnings = a.work.warnings ∧ a'.work.unsettled = false) ∧
    ∃ a', a.run = (.done, a') ∧ a'.work.pass = 2 ∧ a'.work.image = a.work.image ∧
      a'.work.symbols = a.work.symbols ∧ a'.records = a.records ∧
      a'.work.warnings = a.work.warnings := by
  have finished := finished_of_run_done h
  constructor
  · intro p
    obtain ⟨a', run, alike, warnings, settled, _⟩ := finished.runPass ⟨rfl, rfl, rfl, rfl⟩ p
    exact ⟨a', run, alike.image, alike.symbols, alike.records, warnings, settled⟩
  · obtain ⟨a', run, alike, warnings, pass⟩ := finished.run
    exact ⟨a', run, pass, alike.image, alike.symbols, alike.records, warnings⟩

/-- A source whose first pass guesses the width of an operand, and which stores too wide a value. -/
def widenedSource : List SourceLine :=
  SourceLine.ofText "widened.asm" (" org $80\n lda tail\n lda #tail*4\ntail: nop\n".toList)

theorem run_done_fixed_widened :
    ∃ a, (new { romSize := 16 } widenedSource).run = (.done, a) ∧ a.work.warnings ≠ [] ∧
      ∃ a', a.run = (.done, a') ∧ a'.work.pass = 2 ∧ a'.work.image = a.work.image := by
  have done : (new { romSize := 16 } widenedSource).run.1 = .done := by decide +kernel
  have warned : (new { romSize := 16 } widenedSource).run.2.work.warnings ≠ [] := by
    decide +kernel
  rcases run : (new { romSize := 16 } widenedSource).run with ⟨ending, a⟩
  rw [run] at done warned
  obtain rfl : ending = .done := done
  obtain ⟨a', again, pass, image, _⟩ := (run_done_fixed run).2
  exact ⟨a, rfl, warned, a', again, pass, image⟩

end Assembly

end Assembler65816
