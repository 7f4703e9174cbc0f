import Assembler65816.Proofs.Approach
import Assembler65816.Proofs.Contents

/-! # Settings that do not reach the result

The fill byte and the switches for the messages of the first pass decide nothing. Two assemblies of
the same lines whose settings differ in these alone go through the same passes side by side: only
what is logged differs, and in the image the bytes that no line stores.
-/
namespace Assembler65816

/-- Settings that differ in the fill byte and the messages of the first pass at most. -/
structure Config.Twin (c c' : Config) : Prop where
  romSize : c'.romSize = c.romSize
  romBase : c'.romBase = c.romBase
  maxPasses : c'.maxPasses = c.maxPasses
  resolveBudget : c'.resolveBudget = c.resolveBudget

structure Image.Twin (i i' : Image) : Prop where
  base : i'.base = i.base
  size : i'.bytes.size = i.bytes.size

namespace Image.Twin

variable {i i' : Image}

theorem limit (h : i.Twin i') : i'.limit = i.limit := Image.limit_congr h.base h.size

theorem clear (h : i.Twin i') : i.clear.Twin i'.clear := by
  constructor
  · exact h.base
  · simp only [Image.clear, Array.size_replicate, h.size]

theorem rebase (h : i.Twin i') (base : UInt32) : (i.rebase base).Twin (i'.rebase base) :=
  ⟨rfl, h.clear.size⟩

theorem overwrite (h : i.Twin i') (start : Nat) (run : List UInt8) :
    (i.overwrite start run).Twin (i'.overwrite start run) := by
  constructor
  · exact h.base
  · simp only [Image.overwrite, Image.size_write, h.size]

end Image.Twin

/-- Work that differs in its log and in the bytes of its window at most. -/
inductive Work.Twin (w : Work) : Work → Prop where
  | intro (log : Array Notice) (image : Image) (same : w.image.Twin image) :
      Twin w { w with log, image }

structure Twins {α : Type} (r r' : α × Work) : Prop where
  answer : r'.1 = r.1
  work : r.2.Twin r'.2

theorem Twins.eq {α : Type} {answer : α} {w : Work} {r' : α × Work} (h : Twins (answer, w) r') :
    ∃ w', r' = (answer, w') ∧ w.Twin w' :=
  ⟨r'.2, Prod.ext h.answer rfl, h.work⟩

namespace Work.Twin

variable {w w' : Work}

theorem symbols (h : w.Twin w') : w'.symbols = w.symbols := by
  cases h
  rfl

theorem counter (h : w.Twin w') : w'.counter = w.counter := by
  cases h
  rfl

theorem hint (h : w.Twin w') : w'.hint = w.hint := by
  cases h
  rfl

theorem widths (h : w.Twin w') : w'.widths = w.widths := by
  cases h
  rfl

theorem env (h : w.Twin w') : w'.env = w.env := by
  cases h
  rfl

theorem pass (h : w.Twin w') : w'.pass = w.pass := by
  cases h
  rfl

theorem warnings (h : w.Twin w') : w'.warnings = w.warnings := by
  cases h
  rfl

theorem image (h : w.Twin w') : w.image.Twin w'.image := by
  obtain ⟨_, image, same⟩ := h
  exact same

theorem moved (h : w.Twin w') {image image' : Image} (same : image.Twin image')
    (counter : Option UInt32) (log log' : Array Notice) :
    ({ w with image, counter, log } : Work).Twin
      { w' with image := image', counter, log := log' } := by
  obtain ⟨_, _, _⟩ := h
  exact ⟨log', image', same⟩

theorem report (h : w.Twin w') (notice notice' : Notice) :
    (w.report notice).Twin (w'.report notice') := by
  obtain ⟨log, image, same⟩ := h
  exact ⟨_, image, same⟩

theorem reportIf (h : w.Twin w') (enabled enabled' : Bool) (notice notice' : Notice) :
    (w.reportIf enabled notice).Twin (w'.reportIf enabled' notice') := by
  obtain ⟨_, reported⟩ := w.reportIf_eq enabled notice
  obtain ⟨log', reported'⟩ := w'.reportIf_eq enabled' notice'
  rw [reported, reported']
  obtain ⟨_, image, same⟩ := h
  exact ⟨log', image, same⟩

theorem hinted (h : w.Twin w') (hint : Option Width) :
    ({ w with hint } : Work).Twin { w' with hint } := by
  obtain ⟨log, image, same⟩ := h
  exact ⟨log, image, same⟩

theorem takeTrace (h : w.Twin w') (config config' : Config) (place : SourceLine) (trace : Trace) :
    (w.takeTrace config place trace).Twin (w'.takeTrace config' place trace) := by
  obtain ⟨log, image, same⟩ := h
  obtain ⟨_, took⟩ := takeTrace_eq config place trace w
  obtain ⟨log', took'⟩ := takeTrace_eq config' place trace { w with log, image }
  rw [took, took']
  exact ⟨log', image, same⟩

end Work.Twin

namespace Step

variable {α β : Type} {config config' : Config}

def Agrees (x y : Step α) : Prop := ∀ w w', w.Twin w' → Twins (x.run w) (y.run w')

theorem Agrees.bind {x y : Step α} {f g : α → Step β} (hx : Agrees x y)
    (hf : ∀ a, Agrees (f a) (g a)) : Agrees (x >>= f) (y >>= g) := by
  intro w w' twin
  have first := hx w w' twin
  rw [run_bind, run_bind]
  rcases run : x.run w with ⟨halt | a, w₁⟩
  all_goals
    rw [run] at first
    obtain ⟨w₁', run', work⟩ := first.eq
    rw [run']
  · exact ⟨rfl, work⟩
  · exact hf a w₁ w₁' work

theorem define_agrees (place : SourceLine) (name expression : Text) (value : Value) :
    Agrees (define place name value expression) (define place name value expression) := by
  rintro w _ ⟨log, image, same⟩
  by_cases refused : contradicts (w.defined.lookup name) value = true ∨
      w.symbols.define ⟨name, value, expression, w.counter⟩ (w.pass == 1) = none
  · rw [define_refused place refused, define_refused place (w := { w with log, image }) refused]
    exact ⟨rfl, log, image, same⟩
  · obtain ⟨agrees, bound⟩ := not_or.mp refused
    have agrees : contradicts (w.defined.lookup name) value = false := by simpa using agrees
    obtain ⟨symbols, bound⟩ := Option.ne_none_iff_exists'.mp bound
    obtain ⟨_, run⟩ := define_run place agrees bound
    obtain ⟨log', run'⟩ := define_run place (w := { w with log, image }) agrees bound
    rw [run, run']
    exact ⟨rfl, log', image, same⟩

theorem report_agrees (notice notice' : Notice) : Agrees (report notice) (report notice') :=
  fun _ _ twin => ⟨rfl, twin.report notice notice'⟩

theorem defineLabel_agrees (place : SourceLine) (name : Text) :
    Agrees (defineLabel place name) (defineLabel place name) := by
  intro w w' twin
  cases placed : w.counter with
  | none =>
    rw [defineLabel_refused place placed, defineLabel_refused place (twin.counter.trans placed)]
    exact ⟨rfl, twin⟩
  | some pc =>
    rw [defineLabel_run placed, defineLabel_run (twin.counter.trans placed)]
    exact define_agrees place name ['$'] (.known pc) _ _ (twin.report _ _)

theorem labels_agree (place : SourceLine) (names : List Text) :
    Agrees (names.forM (defineLabel place)) (names.forM (defineLabel place)) := by
  induction names with
  | nil => exact fun _ _ twin => ⟨rfl, twin⟩
  | cons name rest ih => exact (defineLabel_agrees place name).bind fun _ => ih

theorem performOrigin_agrees (settings : config.Twin config') (address : UInt32) :
    Agrees (performOrigin config address) (performOrigin config' address) := by
  intro w w' twin
  unfold performOrigin
  rw [run_bind_of_ok (get_run w), run_bind_of_ok (get_run w'), settings.romBase, twin.counter,
    twin.image.base, twin.image.limit]
  split
  · split
    · exact ⟨rfl, twin.moved (twin.image.rebase address) _ _ _⟩
    · exact ⟨rfl, twin.moved twin.image _ _ _⟩
  · split
    · exact ⟨rfl, twin⟩
    · exact ⟨rfl, twin.moved twin.image _ _ _⟩

theorem emit_agrees (run : List UInt8) : Agrees (emit run) (emit run) := by
  intro w w' twin
  unfold emit
  rw [run_bind_of_ok (get_run w), run_bind_of_ok (get_run w'), twin.counter]
  cases w.counter with
  | none => exact ⟨rfl, twin⟩
  | some pc =>
    dsimp only
    rw [Image.locate_congr twin.image.base twin.image.size rfl pc]
    rcases w.image.locate pc run with (address | _) | start
    · dsimp only
      rw [Image.outsideFault, Image.outsideFault, twin.image.base, twin.image.limit]
      exact ⟨rfl, twin⟩
    · exact ⟨rfl, twin⟩
    · exact ⟨rfl, twin.moved (twin.image.overwrite start run) _ _ _⟩

theorem perform_agrees (settings : config.Twin config') (place : SourceLine)
    (outcome : Outcome) : Agrees (perform config place outcome) (perform config' place outcome) := by
  cases outcome with
  | nothing => exact fun _ _ twin => ⟨rfl, twin⟩
  | widths widths =>
    rintro w _ ⟨log, image, same⟩
    exact ⟨rfl, log, image, same⟩
  | origin address => exact performOrigin_agrees settings address
  | bytes run => exact emit_agrees run
  | binding name expression value =>
    cases value <;> exact (report_agrees _ _).bind fun _ => define_agrees place name expression _

theorem runStatement_agrees (settings : config.Twin config') (place : SourceLine)
    (statement : Statement) :
    Agrees (runStatement config place statement) (runStatement config' place statement) := by
  intro w w' twin
  rw [runStatement_run, runStatement_run, twin.env, twin.widths, twin.hint]
  rcases (statement.outcome w.env w.widths).run { hint := w.hint } with ⟨cause | outcome, trace⟩
  · exact ⟨rfl, twin.takeTrace config config' place trace⟩
  · exact perform_agrees settings place outcome _ _ (twin.takeTrace config config' place trace)

/-- No line depends on the looks of the work, nor on the settings for them. -/
theorem runLine_agrees (settings : config.Twin config') (place : SourceLine) :
    Agrees (runLine config place) (runLine config' place) :=
  (labels_agree place _).bind fun _ => runStatement_agrees settings place _

end Step

namespace Work

variable {config config' : Config} {w w' : Work}

theorem Twin.outcome (twin : w.Twin w') (place : SourceLine) :
    w'.outcome place = w.outcome place := by
  have labels := Step.labels_agree place (ParsedLine.ofText place.text).labels w w' twin
  unfold Work.outcome
  rcases run : ((ParsedLine.ofText place.text).labels.forM (Step.defineLabel place)).run w with
    ⟨halt | _, labelled⟩
  all_goals
    rw [run] at labels
    obtain ⟨_, run', work⟩ := labels.eq
    rw [run']
  · obtain ⟨log, image, same⟩ := work
    rfl

theorem Twin.startPass (twin : w.Twin w') (config config' : Config) (pass : Nat) :
    (w.startPass config pass).Twin (w'.startPass config' pass) := by
  obtain ⟨log, image, same⟩ := twin
  exact Twin.reportIf ⟨log, image.clear, same.clear⟩ _ _ _ _

theorem runLines_twin (settings : config.Twin config') (twin : w.Twin w')
    {records records' : List Record} {ending : Option Ending} {v : Work}
    (h : runLines config records w = (ending, records', v)) :
    ∃ v', runLines config' records w' = (ending, records', v') ∧ v.Twin v' := by
  induction records generalizing w w' records' ending v with
  | nil =>
    cases h
    exact ⟨w', rfl, twin⟩
  | cons r rest ih =>
    have line := Step.runLine_agrees settings r.source _ _ (twin.hinted r.hint)
    rw [runLines] at h ⊢
    rcases run : (Step.runLine config r.source).run { w with hint := r.hint } with ⟨halt | _, w₁⟩
    all_goals
      rw [run] at h line
      obtain ⟨w₁', run', work⟩ := line.eq
      have hint : w₁'.hint = w₁.hint := work.hint
      rw [run']
      dsimp only at h ⊢
      rw [hint]
    · cases h
      exact ⟨w₁', rfl, work⟩
    · rcases more : runLines config rest w₁ with ⟨ending', rest', v₁⟩
      obtain ⟨v', more', last⟩ := ih work more
      rw [more] at h
      rw [more']
      cases h
      exact ⟨v', rfl, last⟩

theorem runs_twin (settings : config.Twin config') (twin : w.Twin w') (records : List Record) :
    runs config' records w' = runs config records w := by
  induction records generalizing w w' with
  | nil => rfl
  | cons r rest ih =>
    have line := Step.runLine_agrees settings r.source _ _ (twin.hinted r.hint)
    rw [runs, runs]
    rcases run : (Step.runLine config r.source).run { w with hint := r.hint } with ⟨halt | _, w₁⟩
    all_goals
      rw [run] at line
      obtain ⟨w₁', run', work⟩ := line.eq
      rw [run']
    · dsimp only
      rw [(twin.hinted r.hint).outcome r.source, twin.counter, ih work]

theorem retry_twins (twin : w.Twin w') (name : Text) : Twins (w.retry name) (w'.retry name) := by
  obtain ⟨log, image, same⟩ := twin
  unfold Work.retry
  dsimp only
  split
  · exact ⟨rfl, _, image, same⟩
  · exact ⟨rfl, log, image, same⟩

theorem sweepRound_twins (twin : w.Twin w') (round : Nat) (names : List Text) (advanced : Nat) :
    Twins (sweepRound round names advanced w) (sweepRound round names advanced w') := by
  induction names generalizing w w' advanced with
  | nil => exact ⟨rfl, twin⟩
  | cons name rest ih =>
    have first := retry_twins twin name
    rw [sweepRound, sweepRound]
    rcases run : w.retry name with ⟨attempt, w₁⟩
    rw [run] at first
    obtain ⟨w₁', run', work⟩ := first.eq
    rw [run']
    cases attempt with
    | refused cause => exact ⟨rfl, work⟩
    | advanced => exact ih (work.report _ _) _
    | stable | waiting => exact ih work _

theorem sweep_twins (twin : w.Twin w') (left round : Nat) :
    Twins (sweep left round w) (sweep left round w') := by
  induction left generalizing w w' round with
  | zero => exact ⟨rfl, twin⟩
  | succ left ih =>
    have tried := sweepRound_twins twin round w.symbols.unresolvedNames 0
    rw [sweep, sweep, twin.symbols]
    split
    · exact ⟨rfl, twin⟩
    · rcases run : sweepRound round w.symbols.unresolvedNames 0 w with ⟨cause | advanced, w₁⟩
      all_goals
        rw [run] at tried
        obtain ⟨w₁', run', work⟩ := tried.eq
        rw [run']
        dsimp only
      · exact ⟨rfl, work⟩
      · split
        · exact ⟨rfl, work.report _ _⟩
        · exact ih (work.report _ _) _

theorem Twin.retryAll (twin : w.Twin w') : w.retryAll.Twin w'.retryAll := by
  unfold Work.retryAll
  rw [twin.symbols]
  generalize w.symbols.unresolvedNames = names
  induction names generalizing w w' with
  | nil => exact twin
  | cons name rest ih => exact ih (retry_twins twin name).work

theorem Twin.foldl_report (twin : w.Twin w') (notices : List Notice) :
    (notices.foldl (fun w notice => w.report notice) w).Twin
      (notices.foldl (fun w notice => w.report notice) w') := by
  induction notices generalizing w w' with
  | nil => exact twin
  | cons notice rest ih => exact ih (twin.report notice notice)

theorem Twin.exhaustion (settings : config.Twin config') (twin : w.Twin w') :
    w'.exhaustion config' = w.exhaustion config := by
  obtain ⟨log, image, same⟩ := twin
  unfold Work.exhaustion
  rw [settings.maxPasses]

end Work

namespace Assembly

structure Twin (a a' : Assembly) : Prop where
  settings : a.config.Twin a'.config
  records : a'.records = a.records
  stage : a'.stage = a.stage
  work : a.work.Twin a'.work

variable {a a' b : Assembly}

theorem Twin.runPass (twin : a.Twin a') {p : Nat} {ending : Option Ending}
    (h : a.runPass p = (ending, b)) : ∃ b', a'.runPass p = (ending, b') ∧ b.Twin b' := by
  have started := twin.work.startPass a.config a'.config p
  unfold Assembly.runPass at h ⊢
  rw [twin.records, twin.settings.resolveBudget]
  rcases run : (a.work.startPass a.config p).runLines a.config a.records with
    ⟨_ | stopped, records, w⟩
  all_goals
    obtain ⟨w', run', work⟩ := Work.runLines_twin twin.settings started run
    rw [run] at h
    rw [run']
    dsimp only at h ⊢
  · have finished : w.finishPass.Twin w'.finishPass := work.report _ _
    split at h
    · next first =>
      have swept := Work.sweep_twins finished a.config.resolveBudget.toNat 1
      rw [if_pos first]
      rcases sweep : w.finishPass.sweep a.config.resolveBudget.toNat 1 with ⟨_ | cause, v⟩
      all_goals
        rw [sweep] at h swept
        obtain ⟨v', sweep', work⟩ := swept.eq
        rw [sweep']
        cases h
      · exact ⟨_, rfl, twin.settings, rfl, twin.stage, work⟩
      · exact ⟨_, rfl, twin.settings, rfl, rfl, work⟩
    · next later =>
      rw [if_neg later]
      cases h
      exact ⟨_, rfl, twin.settings, rfl, twin.stage, finished⟩
  · cases h
    exact ⟨_, rfl, twin.settings, rfl, rfl, work⟩

theorem Twin.giveUp (twin : a.Twin a') :
    a'.giveUp.1 = a.giveUp.1 ∧ a.giveUp.2.Twin a'.giveUp.2 := by
  unfold Assembly.giveUp
  rw [twin.settings.maxPasses]
  split
  · exact ⟨rfl, twin⟩
  · have reported : (a.work.retryAll.report (.budgetExhausted a.config.maxPasses.toNat)).Twin
        (a'.work.retryAll.report (.budgetExhausted a.config.maxPasses.toNat)) :=
      twin.work.retryAll.report _ _
    dsimp only
    rw [reported.symbols]
    have listed := reported.foldl_report
      (Notice.ofTable (a.work.retryAll.report (.budgetExhausted a.config.maxPasses.toNat)).symbols)
    exact ⟨congrArg Ending.failed (listed.exhaustion twin.settings), twin.settings, twin.records,
      rfl, listed⟩

theorem Twin.settled (twin : a.Twin a') : a'.work.settled = a.work.settled := by
  obtain ⟨_, _, _, work⟩ := twin
  generalize a.work = w at work
  generalize a'.work = w' at work
  cases work
  rfl

theorem Twin.runPasses (twin : a.Twin a') (left p : Nat) :
    (a'.runPasses left p).1 = (a.runPasses left p).1 ∧
      (a.runPasses left p).2.Twin (a'.runPasses left p).2 := by
  induction left generalizing a a' p with
  | zero => exact twin.giveUp
  | succ left ih =>
    rw [Assembly.runPasses, Assembly.runPasses]
    rcases run : a.runPass p with ⟨_ | ending, b⟩
    all_goals
      obtain ⟨b', run', twin'⟩ := twin.runPass run
      rw [run']
      dsimp only
    · rw [twin'.settled]
      split
      · exact ⟨rfl, twin'.settings, twin'.records, rfl, twin'.work.reportIf _ _ _ _⟩
      · exact ih twin' (p + 1)
    · exact ⟨rfl, twin'⟩

theorem twin_new {config config' : Config} (settings : config.Twin config')
    (lines : List SourceLine) : (new config lines).Twin (new config' lines) := by
  refine ⟨settings, rfl, rfl, ?_⟩
  refine ⟨#[], Image.new (config'.romBase.getD 0) config'.romSize config'.fill, ?_, ?_⟩
  · simp only [new, Image.new, settings.romBase]
  · simp only [new, Image.new, Array.size_replicate, settings.romSize]

theorem validate_twin {config config' : Config} (settings : config.Twin config') :
    config'.validate = config.validate := by
  unfold Config.validate
  rw [settings.romSize, settings.maxPasses]

theorem Twin.run (twin : a.Twin a') : a'.run.1 = a.run.1 ∧ a.run.2.Twin a'.run.2 := by
  have fresh : ({ a with work := { a.work with log := #[] } } : Assembly).Twin
      { a' with work := { a'.work with log := #[] } } := by
    refine ⟨twin.settings, twin.records, twin.stage, ?_⟩
    obtain ⟨_, _, _, work⟩ := twin
    generalize a.work = w at work ⊢
    generalize a'.work = w' at work ⊢
    obtain ⟨_, image, same⟩ := work
    exact ⟨#[], image, same⟩
  unfold Assembly.run
  dsimp only
  rw [validate_twin twin.settings, twin.settings.maxPasses]
  split
  · exact ⟨rfl, fresh⟩
  · exact fresh.runPasses _ _

theorem Twin.runs (twin : a.Twin a') (p : Nat) : a'.runs p = a.runs p := by
  unfold Assembly.runs
  rw [twin.records]
  exact Work.runs_twin twin.settings (twin.work.startPass _ _ p) _

theorem Twin.reached {start start' : Assembly} {p : Nat} (twin : start.Twin start')
    (h : start.Reached p a) (h' : start'.Reached p a') : a.Twin a' := by
  induction h generalizing a' with
  | start =>
    cases h'
    exact twin
  | pass _ passed ih =>
    cases h' with
    | pass before' passed' =>
      obtain ⟨b', passed'', twins⟩ := (ih before').runPass passed
      rw [passed'] at passed''
      cases passed''
      exact twins

/-- Under valid settings that differ in the fill byte and the messages of the first pass only, the
same lines end in the same way: with the same answer after the same number of passes, with the same
symbols, remembered widths and warnings, and with a window at the same base. The last pass stores
the same runs in both, and every byte that it does not store is the fill byte of its own settings. -/
theorem run_cosmetics {config config' : Config} (settings : config.Twin config')
    (valid : config.validate = .ok ()) (lines : List SourceLine) :
    ∃ ending b b', (new config lines).run = (ending, b) ∧
      (new config' lines).run = (ending, b') ∧
      b'.stage = b.stage ∧ b'.records = b.records ∧ b'.work.pass = b.work.pass ∧
      b'.work.symbols = b.work.symbols ∧ b'.work.warnings = b.work.warnings ∧
      b'.work.image.base = b.work.image.base ∧
      b.work.image.bytes.size = config.romSize.toNat ∧
      b'.work.image.bytes.size = config.romSize.toNat ∧
      ∃ q a a', (new config lines).Reached q a ∧ (new config' lines).Reached q a' ∧
        b.work.pass = q + 1 ∧ a'.runs (q + 1) = a.runs (q + 1) ∧
        ∀ k < config.romSize.toNat,
          b.work.image.bytes[k]? = some ((written (a.runs (q + 1))
            (b.work.image.base.toNat + k)).getD config.fill) ∧
          b'.work.image.bytes[k]? = some ((written (a.runs (q + 1))
            (b.work.image.base.toNat + k)).getD config'.fill) := by
  have start := twin_new settings lines
  obtain ⟨answer, twin⟩ := start.run
  rcases run : (new config lines).run with ⟨ending, b⟩
  rcases run' : (new config' lines).run with ⟨ending', b'⟩
  rw [run, run'] at answer twin
  obtain rfl : ending' = ending := answer
  have base : b'.work.image.base = b.work.image.base := twin.work.image.base
  have pass : b'.work.pass = b.work.pass := twin.work.pass
  obtain ⟨q, a, reached, last, shows⟩ := run_shows valid run
  obtain ⟨q', a', reached', last', shows'⟩ :=
    run_shows ((validate_twin settings).trans valid) run'
  obtain rfl : q' = q := by omega
  have runs : a'.runs (q' + 1) = a.runs (q' + 1) := (start.reached reached reached').runs _
  refine ⟨ending', b, b', rfl, rfl, twin.stage, twin.records, pass, twin.work.symbols,
    twin.work.warnings, base, shows.window.size, ?_, q', a, a', reached, reached', last, runs, ?_⟩
  · rw [← settings.romSize]
    exact shows'.window.size
  · intro k lt
    have byte' := shows'.bytes k (by rw [settings.romSize]; exact lt)
    rw [runs] at byte'
    refine ⟨shows.bytes k lt, ?_⟩
    rw [← base]
    exact byte'

def dotSource : List SourceLine := SourceLine.ofText "dot.asm" " org $8000\n db 1\n".toList

def dressed : Config := { romSize := 4, fill := 0xFF, quietInfo := true, quietWarnings := true }

theorem run_cosmetics_dot :
    Config.Twin { romSize := 4 } dressed ∧ Config.validate { romSize := 4 } = .ok () ∧
    ∃ ending b b', (new { romSize := 4 } dotSource).run = (ending, b) ∧
      (new dressed dotSource).run = (ending, b') ∧ b'.work.pass = b.work.pass ∧
      b'.work.symbols = b.work.symbols ∧ b'.work.image.base = b.work.image.base := by
  have settings : Config.Twin { romSize := 4 } dressed := by constructor <;> rfl
  have valid : Config.validate { romSize := 4 } = .ok () := by decide
  obtain ⟨ending, b, b', run, run', _, _, pass, symbols, _, base, _⟩ :=
    run_cosmetics settings valid dotSource
  exact ⟨settings, valid, ending, b, b', run, run', pass, symbols, base⟩

example : (new { romSize := 4 } dotSource).run.2.work.image.bytes = #[1, 0, 0, 0] ∧
    (new dressed dotSource).run.2.work.image.bytes = #[1, 0xFF, 0xFF, 0xFF] := by
  decide +kernel

end Assembly

end Assembler65816
