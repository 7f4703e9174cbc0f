import Assembler65816.Proofs.Approach
import Assembler65816.Proofs.Solution

/-! # Budgets

How many passes a run may take, and how many rounds its sweep, decides whether the run gets to the
end, not what the end is. When no name starts with a digit and one run is done, every run of the
same source under other budgets is done with the same image and values, or uses up its passes.
-/
namespace Assembler65816

def Config.withBudgets (config : Config) (passes rounds : UInt32) : Config :=
  { config with maxPasses := passes, resolveBudget := rounds }

section Settings

variable {config : Config} (passes rounds : UInt32)

theorem runLine_withBudgets (place : SourceLine) :
    Step.runLine (config.withBudgets passes rounds) place = Step.runLine config place := rfl

theorem startPass_withBudgets (w : Work) (p : Nat) :
    w.startPass (config.withBudgets passes rounds) p = w.startPass config p := rfl

theorem passed_withBudgets {records records' : List Record} {w w' : Work} :
    Passed (config.withBudgets passes rounds) records w records' w' ↔
      Passed config records w records' w' := by
  constructor
  · intro h
    induction h with
    | nil w => exact .nil w
    | cons line more ih => exact .cons line ih
  · intro h
    induction h with
    | nil w => exact .nil w
    | cons line more ih => exact .cons line ih

theorem counters_withBudgets (records : List Record) (w : Work) :
    Work.counters (config.withBudgets passes rounds) records w =
      Work.counters config records w := by
  induction records generalizing w with
  | nil => rfl
  | cons r rest ih => simp only [Work.counters, runLine_withBudgets, ih]

theorem definitions_withBudgets (lines : List SourceLine) :
    Assembly.definitions (config.withBudgets passes rounds) lines =
      Assembly.definitions config lines := by
  unfold Assembly.definitions Assembly.counters
  exact congrArg (definitionsAt lines) (counters_withBudgets passes rounds _ _)

end Settings

/-- Cursors at the same point of two settled passes. Before the location counter is set the windows
may still have different bases. -/
structure Cursor.Alike (p q : Cursor) : Prop where
  counter : p.counter = q.counter
  widths : p.widths = q.widths
  image : ∀ base, { p.image with base } = { q.image with base }
  base : p.counter ≠ none → p.image.base = q.image.base

theorem Cursor.Alike.image_eq {p q : Cursor} (h : p.Alike q) (base : p.image.base = q.image.base) :
    p.image = q.image := by
  have images := h.image p.image.base
  exact images.trans (by rw [base])

theorem window_of_withBudgets {config : Config} {passes rounds : UInt32} {p : Cursor}
    (h : p.Window (config.withBudgets passes rounds)) : p.Window config :=
  ⟨h.fill, h.size, h.fixed, h.blank⟩

theorem Moves.alike {config : Config} {passes rounds : UInt32} {p p' q q' : Cursor}
    {outcome : Outcome} (h : Moves config p outcome p')
    (h' : Moves (config.withBudgets passes rounds) q outcome q') (alike : p.Alike q)
    (window : p.Window config) (window' : q.Window (config.withBudgets passes rounds)) :
    p'.Alike q' := by
  have image : (∀ run, outcome ≠ .bytes run) → ∀ base,
      { p'.image with base } = { q'.image with base } := fun empty base => by
    rw [h.image_eq window empty base, h'.image_eq window' empty base, alike.image base]
  cases h with
  | nothing =>
    cases h'
    exact alike
  | binding =>
    cases h'
    exact alike
  | widths widths =>
    cases h'
    exact ⟨alike.counter, rfl, alike.image, alike.base⟩
  | firstOrigin address unset free =>
    cases h' with
    | firstOrigin =>
      refine ⟨rfl, alike.widths, image (by simp), fun _ => ?_⟩
      dsimp only
      split <;> split <;> simp_all [Image.rebase, Image.clear]
    | origin _ later =>
      rw [← alike.counter] at later
      exact absurd unset (later.resolve_right fun fixed => fixed free)
  | origin address later inside =>
    cases h' with
    | firstOrigin _ unset free =>
      rw [alike.counter] at later
      exact absurd unset (later.resolve_right fun fixed => fixed free)
    | origin =>
      refine ⟨rfl, alike.widths, image (by simp), fun _ => ?_⟩
      by_cases set : p.counter = none
      · obtain ⟨base, fixed⟩ := Option.ne_none_iff_exists'.mp (later.resolve_left fun h => h set)
        exact (window.fixed base fixed).trans (window'.fixed base fixed).symm
      · exact alike.base set
  | bytes run pc start placed located =>
    cases h' with
    | bytes _ pc' start' placed' located' =>
      have base : p.image.base = q.image.base := alike.base (by simp [placed])
      have same := alike.image_eq base
      rw [← alike.counter, placed] at placed'
      cases placed'
      rw [← same, located] at located'
      cases located'
      exact ⟨rfl, alike.widths, fun _ => by rw [same], fun _ => base⟩

theorem SettledRun.alike {config : Config} {passes rounds : UInt32} {table table' : SymbolTable}
    {records : List Record} {p p' q q' : Cursor} {warnings warnings' : List Diagnostic}
    (h : SettledRun config table records p p' warnings)
    (h' : SettledRun (config.withBudgets passes rounds) table' records q q' warnings')
    (lookup : table'.lookup = table.lookup) (alike : p.Alike q) (window : p.Window config)
    (window' : q.Window (config.withBudgets passes rounds)) : p'.Alike q' := by
  induction h generalizing q warnings' with
  | nil =>
    cases h'
    exact alike
  | cons line run ih =>
    cases h' with
    | cons line' run' =>
      obtain ⟨_, read, _, _, moves⟩ := line
      obtain ⟨_, read', _, _, moves'⟩ := line'
      rw [SymbolTable.env, lookup, ← alike.counter, ← alike.widths] at read'
      cases read.symm.trans read'
      exact ih run' (moves.alike moves' alike window window') (moves.window window)
        (moves'.window window')

theorem Moves.unmoved {config : Config} {p p' : Cursor} {outcome : Outcome}
    (h : Moves config p outcome p') (unset : p'.counter = none) :
    p.counter = none ∧ p'.image.base = p.image.base := by
  cases h with
  | nothing | binding | widths => exact ⟨unset, rfl⟩
  | firstOrigin | origin | bytes => cases unset

theorem CarriedOut.unmoved {config : Config} {place : SourceLine} {w w' : Work}
    (h : CarriedOut config place w w') (unset : w'.counter = none) :
    w.counter = none ∧ w'.image.base = w.image.base := by
  obtain ⟨labels, _, performed⟩ := h
  obtain ⟨counter, base⟩ := performed.moves.unmoved unset
  simp only [Work.cursor, takeTrace_counter, takeTrace_image] at counter base
  exact ⟨labels.frame.counter.symm.trans counter, base.trans (by rw [labels.frame.image])⟩

theorem Passed.unmoved {config : Config} {records records' : List Record} {w w' : Work}
    (h : Passed config records w records' w') (unset : w'.counter = none) :
    w.counter = none ∧ w'.image.base = w.image.base := by
  induction h with
  | nil => exact ⟨unset, rfl⟩
  | cons line more ih =>
    obtain ⟨counter, base⟩ := ih unset
    obtain ⟨counter', base'⟩ := (Step.runLine_run_ok line).unmoved counter
    exact ⟨counter', base.trans base'⟩

namespace Assembly

variable {config : Config} {lines : List SourceLine} {passes rounds : UInt32} {p : Nat}
  {a b b' : Assembly}

theorem Solved.first_pass (letters : LetterNames lines) (solved : a.Solved config lines)
    (h : (new (config.withBudgets passes rounds) lines).Reached (p + 1) b) :
    b.records = a.records := by
  obtain ⟨w, first⟩ := solved.first
  obtain ⟨w', first'⟩ := h.first_pass letters
  have same := first.runLines.symm.trans ((passed_withBudgets passes rounds).mp first').runLines
  exact (congrArg (fun result => result.2.1) same).symm

theorem Solved.names (solved : a.Solved config lines)
    (h : (new (config.withBudgets passes rounds) lines).Reached (p + 1) b) (m : Text) :
    b.work.symbols.lookup m ≠ none ↔ a.work.symbols.lookup m ≠ none := by
  rw [solved.finished.names m, h.names m]
  simp

theorem Solved.leads (letters : LetterNames lines) (solved : a.Solved config lines)
    (h : (new (config.withBudgets passes rounds) lines).Reached (p + 1) b) :
    b.work.symbols.Leads a.work.symbols := by
  have sound := h.sound letters
  rw [definitions_withBudgets] at sound
  exact sound.leads solved.solves (solved.finished.named letters) fun m => (solved.names h m).mp

/-- A table on the way that has a value for every name is the last one. -/
theorem Solved.lookup_eq (letters : LetterNames lines) (solved : a.Solved config lines)
    (h : (new (config.withBudgets passes rounds) lines).Reached (p + 1) b)
    (known : ∀ m, b.work.symbols.lookup m ≠ none →
      ∃ word, b.work.symbols.lookup m = some (.known word)) :
    b.work.symbols.lookup = a.work.symbols.lookup := by
  funext m
  by_cases present : b.work.symbols.lookup m = none
  · have absent := mt (solved.names h m).mpr (not_not.mpr present)
    rw [present, not_not.mp absent]
  · obtain ⟨word, value⟩ := known m present
    rw [value, (solved.leads letters h).known m word value]

/-- A later pass gets through, and ends where the first one ended. If it starts with the last values
it settles. -/
theorem Solved.later_pass (letters : LetterNames lines) (solved : a.Solved config lines)
    (h : (new (config.withBudgets passes rounds) lines).Reached (p + 1) b) :
    ∃ w x, Passed config (new config lines).records ((new config lines).work.startPass config 1)
        a.records w ∧ w.counter = a.work.counter ∧
      Passed config a.records (b.work.startPass config (p + 2)) a.records x ∧
      x.counter = a.work.counter ∧
      (b.work.symbols.lookup = a.work.symbols.lookup → x.Agrees a.work.symbols) := by
  obtain ⟨w, first⟩ := solved.first
  obtain ⟨image, window, last⟩ := solved.finished.last
  have window' : (b.work.startPass config (p + 2)).cursor.Window config :=
    window_of_withBudgets (Work.startPass_window h.window (p + 2))
  -- The pass starts where the settled one did, with less known.
  have start : (b.work.startPass config (p + 2)).Approaches config a.work.symbols { image } := by
    refine ⟨?_, ?_, ?_, ?_, ?_, ?_, ?_, ?_⟩
    · rw [startPass_pass]
      omega
    · rw [startPass_symbols]
      exact solved.leads letters h
    · rw [startPass_symbols]
      exact fun m => (solved.names h m).mpr
    · rw [startPass_defined]
      intro m word hm
      cases hm
    · rw [startPass_counter]
    · rw [startPass_widths]
    · exact window'.size.trans window.size.symm
    · rintro (set | fixed)
      · exact absurd rfl set
      · obtain ⟨base, fixed⟩ := Option.ne_none_iff_exists'.mp fixed
        exact (window'.fixed base fixed).trans (window.fixed base fixed).symm
  obtain ⟨x, passed, ends, ends', keeps⟩ := first.approaches last start
    (h.tracks_start letters 1 (p + 2)) (by rw [startPass_counter, startPass_counter])
    (by rw [startPass_widths, startPass_widths]) (by
      rw [Reached.start.sources_eq]
      exact fun name hn => letters.isSymbolName hn)
  refine ⟨w, x, first, ends', passed, ends, fun same => keeps ⟨fun m => ?_, ?_⟩⟩
  · rw [startPass_symbols, same]
  · exact startPass_unsettled _ _ _

/-- A pass gets through if its lines do, and the sweep after the first pass refuses nothing. -/
theorem runPass_of_passed {records : List Record} {w : Work}
    (done : Passed a.config a.records (a.work.startPass a.config p) records w)
    (sweeps : p = 1 → ∀ cause, ¬w.symbols.Refuses cause) : ∃ a', a.runPass p = (none, a') := by
  unfold Assembly.runPass
  rw [done.runLines]
  dsimp only
  split
  · next first =>
    split
    · next cause _ swept => exact absurd (Work.sweep_refused swept) (sweeps first cause)
    · exact ⟨_, rfl⟩
  · exact ⟨_, rfl⟩

theorem Solved.not_refuses (letters : LetterNames lines) (solved : a.Solved config lines) {w : Work}
    (first : Passed config (new config lines).records
      ((new config lines).work.startPass config 1) a.records w) (cause : Fault) :
    ¬w.symbols.Refuses cause := by
  have named := solved.finished.named letters
  have bound := first.bound (by rw [startPass_symbols]; exact Reached.start.worded)
  rw [startPass_pass, Work.bindings, startPass_symbols, startPass_defined,
    Reached.start.sources_eq] at bound
  have present : ∀ d ∈ definitions config lines, a.work.symbols.lookup d.name ≠ none := by
    intro d mem
    obtain ⟨word, _, value⟩ := solved.solves d mem
    simp [value]
  have sound : w.symbols.Sound (definitions config lines) :=
    bound.sound (Reached.start.sound letters) fun d mem => named d.name (present d mem)
  -- What is left is that the first pass defines the names of the last table, and no others.
  refine sound.not_refuses solved.solves named (fun m => ?_) cause
  refine (bound.names m).trans ⟨?_, fun known => Or.inr ?_⟩
  · rintro (before | here)
    · exact absurd rfl before
    · obtain ⟨d, mem, rfl⟩ := List.mem_map.mp here
      exact present d mem
  · obtain ⟨s, found⟩ : ∃ s, a.work.symbols.find? m = some s := by
      simpa [SymbolTable.lookup, Option.ne_none_iff_exists'] using known
    obtain rfl := SymbolTable.find?_name found
    exact List.mem_map_of_mem (solved.sound.origins _ _ found)

theorem Solved.runPass (letters : LetterNames lines) (solved : a.Solved config lines)
    (h : (new (config.withBudgets passes rounds) lines).Reached p b) :
    ∃ b', b.runPass (p + 1) = (none, b') := by
  cases p with
  | zero =>
    cases h
    obtain ⟨w, first⟩ := solved.first
    exact runPass_of_passed ((passed_withBudgets passes rounds).mpr first)
      fun _ => solved.not_refuses letters first
  | succ p =>
    obtain ⟨_, x, _, _, passed, _⟩ := solved.later_pass letters h
    rw [← solved.first_pass letters h] at passed
    have done := (passed_withBudgets passes rounds).mpr passed
    rw [← startPass_withBudgets passes rounds] at done
    rw [show config.withBudgets passes rounds = b.config from h.config_eq.symm] at done
    exact runPass_of_passed done (by omega)

theorem Solved.reached (letters : LetterNames lines) (solved : a.Solved config lines)
    (h : (new (config.withBudgets passes rounds) lines).Reached (p + 1) b)
    (passed : b.runPass (p + 2) = (none, b')) :
    b'.work.counter = a.work.counter ∧
      (b.work.symbols.lookup = a.work.symbols.lookup → b'.work.Agrees a.work.symbols) := by
  obtain ⟨_, x, _, _, lines_done, counter, agrees⟩ := solved.later_pass letters h
  obtain ⟨v, done, _, later, _⟩ := runPass_none passed
  rw [h.config_eq, solved.first_pass letters h] at done
  have same := lines_done.runLines.symm.trans ((passed_withBudgets passes rounds).mp done).runLines
  obtain rfl : x = v := congrArg (fun result => result.2.2) same
  rw [later (by omega)]
  refine ⟨counter, fun start => ?_⟩
  obtain ⟨lookup, settled⟩ := agrees start
  exact ⟨lookup, settled⟩

theorem Solved.counter (letters : LetterNames lines) (solved : a.Solved config lines)
    (h : (new (config.withBudgets passes rounds) lines).Reached (p + 1) b) :
    b.work.counter = a.work.counter := by
  cases h with
  | @pass _ b₀ _ before passed =>
    cases p with
    | succ p => exact (solved.reached letters before passed).1
    | zero =>
      obtain ⟨w, _, first, counter, _⟩ := solved.later_pass letters (Reached.pass before passed)
      obtain ⟨v, done, retried, _⟩ := runPass_none passed
      cases before
      have same := first.runLines.symm.trans
        ((passed_withBudgets passes rounds).mp done).runLines
      obtain rfl : w = v := congrArg (fun result => result.2.2) same
      rw [retried.frame]
      exact counter

/-- A run that never sets the location counter leaves the window where it was. -/
theorem Solved.unmoved (letters : LetterNames lines) (solved : a.Solved config lines)
    (unset : a.work.counter = none)
    (h : (new (config.withBudgets passes rounds) lines).Reached p b) :
    b.work.image.base = (new config lines).work.image.base := by
  induction h with
  | start => rfl
  | @pass p b b' before passed ih =>
    have ends := (solved.counter letters (Reached.pass before passed)).trans unset
    obtain ⟨v, done, retried, _⟩ := runPass_none passed
    rw [retried.frame] at ends ⊢
    obtain ⟨_, base⟩ := done.unmoved ends
    rw [startPass_image] at base
    exact base.trans ih

/-- Two runs that are done have the same values and the same image. -/
theorem Solved.done (letters : LetterNames lines) (solved : a.Solved config lines)
    (done : (new config lines).run = (.done, a))
    (done' : (new (config.withBudgets passes rounds) lines).run = (.done, b)) :
    b.work.symbols.lookup = a.work.symbols.lookup ∧ b.work.image = a.work.image := by
  have finished := finished_of_run_done done'
  obtain ⟨image, window, last⟩ := solved.finished.last
  obtain ⟨image', window', last'⟩ := finished.last
  obtain ⟨_, _, a₀, reached, _, log, same⟩ := reached_of_run_done done
  obtain ⟨_, _, b₀, reached', _, log', rfl⟩ := reached_of_run_done done'
  have lookup := solved.lookup_eq letters reached' fun m =>
    SymbolTable.lookup_known finished.resolved
  have start : Cursor.Alike { image } { image := image' } := by
    refine ⟨rfl, rfl, fun base => ?_, fun set => absurd rfl set⟩
    have bytes := (window.blank rfl).trans (window'.blank rfl).symm
    have fill := window.fill.trans window'.fill.symm
    dsimp only at bytes fill ⊢
    rw [bytes, fill]
  dsimp only at last'
  rw [solved.first_pass letters reached'] at last'
  have alike := last.alike last' lookup start window window'
  -- Cursors are alike up to the base, which only a run that never sets the counter leaves open.
  have base : a.work.image.base = b₀.work.image.base := by
    by_cases unset : a.work.counter = none
    · have here : a₀.work.image.base = (new config lines).work.image.base :=
        @Solved.unmoved _ _ config.maxPasses config.resolveBudget _ _ _ letters solved unset reached
      rw [solved.unmoved letters unset reached', ← here, same]
    · exact alike.base unset
  exact ⟨lookup, (alike.image_eq base).symm⟩

theorem Solved.settles (letters : LetterNames lines) (solved : a.Solved config lines)
    (h : (new (config.withBudgets passes rounds) lines).Reached (p + 2) b)
    (enough : (definedNames lines).toFinset.card ≤ p) : b.work.settled = true := by
  have few : (knownNames lines b.work.symbols).card ≤ p :=
    (Finset.card_filter_le _ _).trans enough
  rcases h.progress letters with ⟨q, b₀, _, before, passed, same⟩ | many
  · -- The last pass learned nothing, so it began with all there is to know.
    have closed := before.closed letters passed same
    rw [definitions_withBudgets] at closed
    have known : ∀ m word, a.work.symbols.lookup m = some (.known word) →
        b.work.symbols.lookup m = some (.known word) := fun m word value =>
      closed.known (solved.leads letters h) (fun m => (solved.names h m).mpr) (h.named letters)
        (solved.sound.grounded m word value)
    have start := solved.lookup_eq letters before fun m present => by
      obtain ⟨word, value⟩ := SymbolTable.lookup_known solved.finished.resolved
        ((solved.names before m).mp present)
      exact same m word (known m word value)
    obtain ⟨lookup, settled⟩ := (solved.reached letters before passed).2 start
    have resolved : b.work.symbols.unresolvedCount = 0 := h.ordered.resolved
      fun m present => by
        rw [lookup m] at present ⊢
        exact SymbolTable.lookup_known solved.finished.resolved present
    simp [Work.settled, h.pass_eq, settled, resolved]
  · omega

theorem giveUp_pass {ending : Ending} (gave : a.giveUp = (ending, b)) :
    b.work.pass = a.work.pass := by
  rcases giveUp_cases gave with ⟨_, rfl, _⟩ | ⟨_, retried⟩
  · rfl
  · rw [retried.frame]

/-- A run that uses up its passes has not two more of them than there are names. The crash is that
of a pass after the greatest number. -/
theorem Solved.giveUp {ending : Ending} (letters : LetterNames lines)
    (solved : a.Solved config lines) (two : 2 ≤ passes.toNat)
    (h : (new (config.withBudgets passes rounds) lines).Reached passes.toNat b)
    (unsettled : b.work.settled = false) (gave : b.giveUp = (ending, b')) :
    b'.work.pass = passes.toNat ∧ passes.toNat < (definedNames lines).toFinset.card + 2 ∧
      ((∃ failure, ending = .failed failure ∧
        (failure.problem.kind = .unknownSymbol ∨ failure.problem.kind = .passBudget)) ∨
      ending = .crashed ∧ passes.toNat + 1 = UInt32.size) := by
  obtain ⟨left, count⟩ := Nat.exists_eq_add_of_le' two
  have config_eq : b.config = config.withBudgets passes rounds := h.config_eq
  refine ⟨?_, ?_, ?_⟩
  · rw [giveUp_pass gave, count]
    rw [count] at h
    exact h.pass_eq
  · by_contra enough
    rw [count] at h
    have settled := solved.settles letters h (by omega)
    rw [settled] at unsettled
    cases unsettled
  · rcases giveUp_cases gave with ⟨rfl, _, top⟩ | ⟨rfl, _⟩
    · rw [config_eq] at top
      exact Or.inr ⟨rfl, top⟩
    · exact Or.inl ⟨_, rfl, Work.exhaustion_kinds _ _⟩

/-- Budgets decide whether a run is done, not what it comes to. When no name starts with a digit and
one run is done, a run under other valid budgets is done with the same image and the same value of
every name, or it used up its passes, which were less than two more than there are names. -/
theorem run_under_budgets (letters : LetterNames lines)
    (valid : (config.withBudgets passes rounds).validate = .ok ())
    (done : (new config lines).run = (.done, a)) :
    ∃ ending b, (new (config.withBudgets passes rounds) lines).run = (ending, b) ∧
      (ending = .done ∧ b.work.image = a.work.image ∧
        (∀ name, b.work.symbols.lookup name = a.work.symbols.lookup name) ∨
      b.work.pass = passes.toNat ∧ passes.toNat < (definedNames lines).toFinset.card + 2 ∧
        ((∃ failure, ending = .failed failure ∧
          (failure.problem.kind = .unknownSymbol ∨ failure.problem.kind = .passBudget)) ∨
        ending = .crashed ∧ passes.toNat + 1 = UInt32.size)) := by
  have solved := solved_of_run_done letters done
  rcases run : (new (config.withBudgets passes rounds) lines).run with ⟨ending, b⟩
  refine ⟨ending, b, rfl, ?_⟩
  rcases run_new_cases run with ⟨_, invalid, _⟩ | ⟨_, ends | ⟨q, b₀, reached, failed⟩ | last⟩
  · rw [valid] at invalid
    cases invalid
  · left
    obtain ⟨_, _, _, _, rfl, _⟩ := ends
    obtain ⟨lookup, image⟩ := solved.done letters done run
    exact ⟨rfl, image, congrFun lookup⟩
  · obtain ⟨_, passed⟩ := solved.runPass letters reached
    rw [passed] at failed
    cases failed
  · right
    obtain ⟨b₀, reached, unsettled, gave⟩ := last
    have two : 2 ≤ passes.toNat := two_le_maxPasses valid
    exact solved.giveUp letters two reached (unsettled (show passes.toNat ≠ 0 by omega)) gave

/-- Equates that wait for each other. A sweep finds their values after the first pass; without one
each takes another pass. -/
def waitingSource : List SourceLine :=
  SourceLine.ofText "waiting.asm"
    (" org $80\na equ b+1\nb equ c+1\nc equ tail\n dw a\ntail: nop\n".toList)

theorem run_under_budgets_waiting :
    ∃ a b, (new { romSize := 16 } waitingSource).run = (.done, a) ∧ a.work.pass = 2 ∧
      (new (Config.withBudgets { romSize := 16 } 7 0) waitingSource).run = (.done, b) ∧
      b.work.pass = 4 ∧ b.work.image = a.work.image := by
  have letters : LetterNames waitingSource := by
    unfold LetterNames
    decide +kernel
  have valid : (Config.withBudgets { romSize := 16 } 7 0).validate = .ok () := by decide +kernel
  have done : (new { romSize := 16 } waitingSource).run.1 = .done := by decide +kernel
  have two : (new { romSize := 16 } waitingSource).run.2.work.pass = 2 := by decide +kernel
  have four : (new (Config.withBudgets { romSize := 16 } 7 0) waitingSource).run.2.work.pass = 4 :=
    by decide +kernel
  have enough : ¬(7 : UInt32).toNat < (definedNames waitingSource).toFinset.card + 2 := by
    decide +kernel
  rcases run : (new { romSize := 16 } waitingSource).run with ⟨ending, a⟩
  rw [run] at done two
  obtain rfl : ending = .done := done
  obtain ⟨_, b, run', ⟨rfl, image, _⟩ | ⟨_, few, _⟩⟩ := run_under_budgets letters valid run
  · rw [run'] at four
    exact ⟨a, b, rfl, two, run', four, image⟩
  · exact absurd few enough

end Assembly

end Assembler65816
