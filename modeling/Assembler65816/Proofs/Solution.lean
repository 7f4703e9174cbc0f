import Assembler65816.Proofs.Convergence
import Assembler65816.Proofs.FixedPoint
import Assembler65816.Proofs.Table

/-! # The solution of a source

The table that a run ends with solves the definitions of the source: each of them comes to the
value of its name. When no name starts with a digit there is no other solution that a run can
come to. Every value known on the way to it is its value, no expression that is tried on the way
has a fault, and a table that learns nothing more knows all of it.
-/
namespace Assembler65816

def SymbolTable.Solves (ds : List Definition) (t : SymbolTable) : Prop :=
  ∀ d ∈ ds, ∃ word, Expression.eval (t.env d.pc) d.expression = .ok word ∧
    t.lookup d.name = some (.known word)

section Solves

variable {ds : List Definition} {t table : SymbolTable}

theorem Grounded.solved (solves : table.Solves ds) (named : table.Named)
    (names : ∀ m, t.lookup m ≠ none → table.lookup m ≠ none) {m : Text} {word : UInt32}
    (h : Grounded ds t m word) : table.lookup m = some (.known word) := by
  induction h with
  | @intro d word env mem read address present _ _ ih =>
    have env_extends : env.Extends (table.env d.pc) :=
      ⟨address.symm, ih, fun m hm => names m (present m hm), fun m _ => named.fresh m⟩
    obtain ⟨word', read', value⟩ := solves d mem
    rw [Expression.eval_of_extends env_extends read] at read'
    cases read'
    exact value

theorem SymbolTable.Sound.leads (sound : t.Sound ds) (solves : table.Solves ds)
    (named : table.Named) (names : ∀ m, t.lookup m ≠ none → table.lookup m ≠ none) :
    t.Leads table :=
  ⟨fun m word hm => (sound.grounded m word hm).solved solves named names, names⟩

theorem SymbolTable.Closed.known (closed : t.Closed ds) (leads : t.Leads table)
    (covers : t.Covers table) (named : t.Named) {m : Text} {word : UInt32}
    (h : Grounded ds table m word) : t.lookup m = some (.known word) := by
  induction h with
  | @intro d word env mem read address present _ value ih =>
    have env_extends : env.Extends (t.env d.pc) :=
      ⟨address.symm, ih, fun m hm => covers m (present m hm), fun m _ => named.fresh m⟩
    obtain ⟨word', known⟩ := closed d mem word (Expression.eval_of_extends env_extends read)
    rw [known, known_inj value (leads.known _ _ known)]

end Solves

/-- Where there is a solution, no definition is refused on the way to it. -/
theorem SymbolTable.Sound.not_refuses {ds : List Definition} {t table : SymbolTable}
    (sound : t.Sound ds) (solves : table.Solves ds) (named : table.Named)
    (names : ∀ m, t.lookup m ≠ none ↔ table.lookup m ≠ none) (cause : Fault) :
    ¬t.Refuses cause := by
  rintro ⟨t', s, swept, found, _, fault⟩
  have sound' := swept.sound sound
  have names' : ∀ m, t'.lookup m ≠ none ↔ table.lookup m ≠ none :=
    fun m => (swept.names m).trans (names m)
  have leads := sound'.leads solves named fun m => (names' m).mp
  have covers : t'.Covers table := fun m => (names' m).mpr
  have answer := (Expression.eval_advances (t'.env s.pc) s.expression).answer
  rw [fault] at answer
  obtain ⟨word, read, _⟩ := solves s.definition (sound'.origins _ _ found)
  have stays := answer.2 _ (leads.env_extends covers s.pc)
  rw [show Expression.eval (table.env s.pc) s.expression = .ok word from read] at stays
  cases stays

theorem Settles.solves {config : Config} {table : SymbolTable} {r : Record} {p p' : Cursor}
    {warnings : List Diagnostic} (h : Settles config table r p p' warnings)
    (worded : table.Worded) :
    table.Solves ((ParsedLine.ofText r.source.text).definitions p.counter) := by
  obtain @⟨outcome, trace, _, labels, read, quiet, bound, _⟩ := h
  intro d mem
  rcases List.mem_append.mp mem with label | equate
  · obtain ⟨name, here, rfl⟩ := List.mem_map.mp label
    obtain ⟨pc, placed, value⟩ := labels name here
    exact ⟨pc, eval_counter worded.counter_free placed, value⟩
  · rcases Statement.outcome_binds read with ⟨name, expression, value, eq, rfl, reads⟩ | ⟨other, _⟩
    · obtain ⟨word, rfl, found⟩ := bound name expression value rfl
      rw [eq] at equate
      obtain rfl := List.mem_singleton.mp equate
      exact ⟨word, (reads word).mpr rfl, found⟩
    · generalize (ParsedLine.ofText r.source.text).statement = statement at equate other
      cases statement with
      | equate name expression => exact absurd rfl (other name expression)
      | _ => cases equate

theorem SettledRun.solves {config : Config} {table : SymbolTable} {records : List Record}
    {p p' : Cursor} {warnings : List Diagnostic}
    (h : SettledRun config table records p p' warnings) (window : p.Window config)
    (worded : table.Worded) {w : Work} (repeats : w.Repeats table p'.image.base p) :
    table.Solves
      (definitionsAt (records.map Record.source) (Work.counters config records w)) := by
  induction h generalizing w with
  | nil =>
    intro d mem
    cases mem
  | @cons r rest p p₁ p₂ warnings more line run ih =>
    obtain ⟨w₁, done, repeats₁, _, _⟩ := repeats.line window line fun set => run.base_eq set
    have window₁ : p₁.Window config := by
      obtain ⟨_, _, _, _, moves⟩ := line
      exact moves.window window
    rw [List.map_cons, Work.counters, done, repeats.counter]
    intro d mem
    rcases List.mem_append.mp mem with here | later
    · exact line.solves worded d here
    · exact ih window₁ repeats₁ d later

namespace Assembly

variable {config : Config} {lines : List SourceLine} {a : Assembly}

theorem Finished.named (letters : LetterNames lines) (h : a.Finished config lines) :
    a.work.symbols.Named :=
  fun m hm => letters.isSymbolName ((h.names m).mp hm)

structure Solved (config : Config) (lines : List SourceLine) (a : Assembly) : Prop where
  finished : a.Finished config lines
  solves : a.work.symbols.Solves (definitions config lines)
  sound : a.work.symbols.Sound (definitions config lines)
  first : ∃ w, Passed config (new config lines).records
    ((new config lines).work.startPass config 1) a.records w

theorem solved_of_run_done (letters : LetterNames lines)
    (h : (new config lines).run = (.done, a)) : a.Solved config lines := by
  have finished := finished_of_run_done h
  obtain ⟨_, q, b, reached, _, log, rfl⟩ := reached_of_run_done h
  obtain ⟨start, window, last, repeats⟩ :=
    finished.start (b := b) ⟨rfl, rfl, rfl, rfl⟩ (q + 1 + 1)
  obtain ⟨b', passed, _⟩ := finished.runPass (b := b) ⟨rfl, rfl, rfl, rfl⟩ (q + 1 + 1)
  have solves := last.solves window (finished.named letters).worded repeats
  dsimp only at solves
  rw [reached.definitions_eq letters passed] at solves
  obtain ⟨w, first⟩ := reached.first_pass letters
  have sound := reached.sound letters
  exact ⟨finished, solves, sound, w, first⟩

end Assembly

end Assembler65816
