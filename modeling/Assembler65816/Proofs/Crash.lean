import Assembler65816.Proofs.ByteStores

/-! # Runs that crash

A whole run is carried out by offsets: lines, sweeps and passes, with every check on the way. Below
the greatest number of passes and for every source below 2 GiB no check fails, so that what is left
to crash a run is a run of bytes that passes the end of the buffer. It does so only where the
saturated address of its last byte is the top of the address space, and lies in the window.
-/
namespace Assembler65816

namespace Bytewise

open Text

def retrySymbol? (t : SymbolTable) (name : Text) : Option (Attempt × SymbolTable) :=
  match t.find? name with
  | none => some (.waiting none, t)
  | some s =>
    if s.value.isKnown then some (.stable, t)
    else do
      let reading ← eval? (t.env s.pc) s.expression
      return t.attempt (fun _ _ => reading) name

theorem retrySymbol?_eq (t : SymbolTable) (name : Text) :
    retrySymbol? t name = some (t.retry name) := by
  simp only [retrySymbol?, SymbolTable.retry, SymbolTable.attempt, eval?_eq]
  cases t.find? name with
  | none => rfl
  | some s =>
    by_cases known : s.value.isKnown = true
    · simp only [known, if_true]
    · simp only [known]
      rfl

def attempt? (w : Work) (name : Text) : Option (Attempt × Work) := do
  match ← retrySymbol? w.symbols name with
  | (.waiting (some missing), symbols) =>
    return (.waiting (some missing), { w with symbols }.report (.waits name missing))
  | (attempt, symbols) => return (attempt, { w with symbols })

theorem attempt?_eq (w : Work) (name : Text) : attempt? w name = some (w.retry name) := by
  rw [attempt?, retrySymbol?_eq, Work.retry]
  rcases w.symbols.retry name with ⟨_ | _ | (_ | missing) | cause, symbols⟩ <;> rfl

def sweepRound? (round : Nat) : List Text → Nat → Work → Option (Except Fault Nat × Work)
  | [], advanced, w => some (.ok advanced, w)
  | name :: rest, advanced, w => do
    match ← attempt? w name with
    | (.refused cause, w) => return (.error cause, w)
    | (.advanced, w) => sweepRound? round rest (advanced + 1) (w.report (.resolved name round))
    | (_, w) => sweepRound? round rest advanced w

theorem sweepRound?_eq (round : Nat) (names : List Text) (advanced : Nat) (w : Work) :
    sweepRound? round names advanced w = some (w.sweepRound round names advanced) := by
  induction names generalizing advanced w with
  | nil => rfl
  | cons name rest ih =>
    rw [sweepRound?, Work.sweepRound, attempt?_eq]
    rcases w.retry name with ⟨_ | _ | missing | cause, w'⟩
    · exact ih _ _
    · exact ih _ _
    · exact ih _ _
    · rfl

def sweep? : Nat → Nat → Work → Option (Option Fault × Work)
  | 0, _, w => some (none, w)
  | left + 1, round, w =>
    if w.symbols.unresolvedCount = 0 then some (none, w)
    else do
      match ← sweepRound? round w.symbols.unresolvedNames 0 w with
      | (.error cause, w) => return (some cause, w)
      | (.ok advanced, w) =>
        let w := w.report (.sweepRound round advanced w.symbols.unresolvedCount)
        if advanced = 0 then return (none, w) else sweep? left (round + 1) w

theorem sweep?_eq (left round : Nat) (w : Work) : sweep? left round w = some (w.sweep left round) := by
  induction left generalizing round w with
  | zero => rfl
  | succ left ih =>
    rw [sweep?, Work.sweep, sweepRound?_eq]
    by_cases resolved : w.symbols.unresolvedCount = 0
    · rw [if_pos resolved, if_pos resolved]
    · rw [if_neg resolved, if_neg resolved]
      rcases w.sweepRound round w.symbols.unresolvedNames 0 with ⟨cause | advanced, w'⟩
      · rfl
      · by_cases stuck : advanced = 0
        · simp [stuck]
        · simp [stuck, ih]

def retryAll? (w : Work) : Option Work :=
  w.symbols.unresolvedNames.foldlM (fun w name => (attempt? w name).map Prod.snd) w

theorem retryAll?_eq (w : Work) : retryAll? w = some w.retryAll := by
  rw [retryAll?, Work.retryAll]
  generalize w.symbols.unresolvedNames = names
  induction names generalizing w with
  | nil => rfl
  | cons name rest ih =>
    rw [List.foldlM_cons, attempt?_eq]
    exact ih _

def Fits (place : SourceLine) : Prop :=
  size (argument (ParsedLine.ofText place.text).statement) < 2 ^ 31

def runLines? (config : Config) :
    List Record → Work → Option (Option Ending × List Record × Work)
  | [], w => some (none, [], w)
  | r :: rest, w =>
    match (runLine? config r.source).run.run { w with hint := r.hint } with
    | (.error halt, w) =>
      some (some (halt.ending r.source), { r with hint := w.hint } :: rest, w)
    | (.ok none, _) => none
    | (.ok (some ()), w) => do
      let carriedOut : Record := { r with hint := w.hint }
      let (ending, rest, w) ← runLines? config rest w
      return (ending, carriedOut :: rest, w)

theorem lift_run {α : Type} (x : Step α) (w : Work) :
    (liftM x : OptionT Step α).run.run w = match x.run w with
      | (.error halt, w') => (.error halt, w')
      | (.ok a, w') => (.ok (some a), w') := by
  change (some <$> x : Step (Option α)).run w = _
  rw [map_eq_pure_bind, run_bind]
  rcases x.run w with ⟨halt | a, w'⟩ <;> rfl

theorem runLines?_eq (config : Config) {records : List Record}
    (fits : ∀ r ∈ records, Fits r.source) (w : Work) :
    runLines? config records w = some (w.runLines config records) := by
  induction records generalizing w with
  | nil => rfl
  | cons r rest ih =>
    have line := runLine?_eq config (fits r List.mem_cons_self)
    have later := ih fun r mem => fits r (List.mem_cons_of_mem _ mem)
    rw [runLines?, Work.runLines, line, lift_run]
    rcases (Step.runLine config r.source).run { w with hint := r.hint } with ⟨halt | _, w'⟩
    · rfl
    · simp only [later]
      rfl

def runPass? (pass : Nat) (a : Assembly) : Option (Option Ending × Assembly) := do
  match ← runLines? a.config a.records (a.work.startPass a.config pass) with
  | (some ending, records, work) => return (some ending, { a with records, work, stage := .failed })
  | (none, records, work) =>
    if pass = 1 then
      match ← sweep? a.config.resolveBudget.toNat 1 work.finishPass with
      | (some cause, work) =>
        return (some (.failed ⟨cause.problem, []⟩), { a with records, work, stage := .failed })
      | (none, work) => return (none, { a with records, work })
    else return (none, { a with records, work := work.finishPass })

theorem runPass?_eq (pass : Nat) {a : Assembly} (fits : ∀ r ∈ a.records, Fits r.source) :
    runPass? pass a = some (a.runPass pass) := by
  rw [runPass?, Assembly.runPass, runLines?_eq a.config fits]
  rcases (a.work.startPass a.config pass).runLines a.config a.records with
    ⟨_ | ending, records, work⟩
  · by_cases first : pass = 1
    · simp only [first, if_true, Option.bind_eq_bind, Option.bind_some, sweep?_eq]
      rcases work.finishPass.sweep a.config.resolveBudget.toNat 1 with ⟨_ | cause, work'⟩ <;> rfl
    · simp [first]
  · rfl

def giveUp? (a : Assembly) : Option (Ending × Assembly) := do
  let work := (← retryAll? a.work).report (.budgetExhausted a.config.maxPasses.toNat)
  let work := (Notice.ofTable work.symbols).foldl (fun w notice => w.report notice) work
  return (.failed (work.exhaustion a.config), { a with work, stage := .failed })

/-- At most `left` passes, of which the first has the number `pass`. The number is a word. -/
def runPasses? : Nat → Nat → Assembly → Option (Ending × Assembly)
  | 0, _, a => giveUp? a
  | left + 1, pass, a => do
    match ← runPass? pass a with
    | (some ending, a) => return (ending, a)
    | (none, a) =>
      if a.work.settled then
        let work := a.work.reportIf (a.config.infoEnabled pass)
          (.complete pass a.work.image.base a.work.image.limit)
        return (.done, { a with work, stage := .done })
      else if pass + 1 < UInt32.size then runPasses? left (pass + 1) a
      else none

theorem giveUp?_eq {a : Assembly} (passes : a.config.maxPasses.toNat + 1 ≠ UInt32.size) :
    giveUp? a = some a.giveUp := by
  rw [giveUp?, retryAll?_eq, Assembly.giveUp, if_neg passes]
  rfl

theorem runPasses?_eq {left pass : Nat} {a : Assembly} (fits : ∀ r ∈ a.records, Fits r.source)
    (passes : a.config.maxPasses.toNat + 1 ≠ UInt32.size) (room : pass + left < UInt32.size) :
    runPasses? left pass a = some (a.runPasses left pass) := by
  induction left generalizing pass a with
  | zero => exact giveUp?_eq passes
  | succ left ih =>
    rw [runPasses?, Assembly.runPasses, runPass?_eq pass fits]
    rcases ran : a.runPass pass with ⟨_ | ending, a'⟩
    · obtain ⟨_, passed, _, _, config⟩ := Assembly.runPass_none ran
      have fits' : ∀ r ∈ a'.records, Fits r.source := by
        intro r mem
        have source := List.mem_map_of_mem (f := Record.source) mem
        rw [passed.sources] at source
        obtain ⟨r', mem', same⟩ := List.mem_map.mp source
        rw [← same]
        exact fits r' mem'
      have later := ih fits' (config ▸ passes) (show pass + 1 + left < _ by omega)
      have next : pass + 1 < UInt32.size := by omega
      by_cases settled : a'.work.settled = true
      · simp [settled]
      · simp [settled, next, later]
    · rfl

def assemble? (config : Config) (file : String) (text : Text) : Option (Ending × Assembly) := do
  let a := Assembly.new config (← sourceLines? file false 0 (lines text))
  match config.validate with
  | .error cause => return (.failed ⟨cause.problem, []⟩, a)
  | .ok () => runPasses? config.maxPasses.toNat 1 a

theorem assemble?_eq {config : Config} {file : String} {text : Text}
    (passes : config.maxPasses.toNat < 2 ^ 32 - 1) (short : size text < 2 ^ 31) :
    assemble? config file text = some (assemble config file text) := by
  have room : 1 + config.maxPasses.toNat < UInt32.size := by
    rw [UInt32.size]
    omega
  have fits : ∀ r ∈ (Assembly.new config (SourceLine.ofText file text)).records,
      Fits r.source := by
    intro r mem
    obtain ⟨place, held, rfl⟩ := List.mem_map.mp mem
    exact Nat.lt_of_le_of_lt (size_argument_le held) short
  have lines := sourceLines?_ofText file (show size text < UInt32.size by rw [UInt32.size]; omega)
  have run := runPasses?_eq fits (show config.maxPasses.toNat + 1 ≠ UInt32.size by omega) room
  rw [assemble?, lines]
  simp only [Option.bind_eq_bind, Option.bind_some]
  rw [run]
  change _ = some (match config.validate with
    | .error cause => _
    | .ok () => _)
  cases config.validate <;> rfl

end Bytewise

/-- A run of bytes that keeps the bounds of the window and not those of the buffer reaches past the
top of the address space, and the top lies in the window. -/
theorem Image.contains_top_of_overrun {i : Image} {pc : UInt32} {run : List UInt8}
    (short : run.length < UInt32.size) (h : i.locate pc run = .error .overrun) :
    i.contains 0xFFFFFFFF = true := by
  rw [Image.locate] at h
  split at h
  · cases h
  · next some =>
    dsimp only at h
    split_ifs at h with outside last past
    · cases h
    · cases h
    · simp only [Bool.not_eq_true', Bool.not_eq_false] at outside last
      by_cases room : pc.toNat + (UInt32.ofNat (run.length - 1)).toNat < UInt32.size
      · -- Without saturation the last byte is in the window, and so is the end of the run.
        exfalso
        have first := Image.bounds_of_contains outside
        have final := Image.bounds_of_contains last
        have counted : (UInt32.ofNat (run.length - 1)).toNat = run.length - 1 :=
          UInt32.toNat_ofNat_of_lt' (by omega)
        have positive : 0 < run.length := List.length_pos_iff.mpr (by simpa using some)
        have below : i.base ≤ pc := UInt32.le_iff_toNat_le.mpr first.1
        rw [saturatingAdd, if_pos room, UInt32.toNat_add, counted] at final
        rw [counted, UInt32.size] at room
        rw [Nat.mod_eq_of_lt room] at final
        rw [UInt32.toNat_sub_of_le _ _ below] at past
        omega
      · rw [saturatingAdd, if_neg room] at last
        exact last

theorem Work.outcome_length {place : SourceLine} (fits : Bytewise.Fits place) (w : Work) :
    (w.outcome place).stored.length < UInt32.size := by
  have none : 0 < UInt32.size := by decide
  unfold Work.outcome
  split
  · exact none
  · split
    · exact none
    · next read => exact Bytewise.outcome_length fits read

namespace Assembly

/-- A run that crashes does so at a line whose bytes overrun the buffer. -/
theorem overrun_of_crash {config : Config} {lines : List SourceLine} {b : Assembly}
    (passes : config.maxPasses.toNat + 1 ≠ UInt32.size)
    (h : (new config lines).run = (.crashed, b)) :
    ∃ q a r w pc, (new config lines).Reached q a ∧
      Meets config a.records (a.work.startPass config (q + 1)) r w ∧ w.counter = some pc ∧
      w.image.locate pc (w.outcome r.source).stored = .error .overrun := by
  rcases run_new_cases h with ⟨_, _, ending⟩ |
    ⟨_, ⟨_, _, _, _, ending, _⟩ | ⟨q, a, reached, failed⟩ | ⟨a, reached, _, gave⟩⟩
  · cases ending
  · cases ending
  · have config_eq : a.config = config := reached.config_eq
    rcases runPass_some failed with ⟨r, w, w', halt, met, line, ending⟩ | ⟨_, _, _, _, _, _, _, ending⟩
    · rw [config_eq] at met line
      cases halt with
      | fault cause => cases ending
      | overrun =>
        obtain ⟨pc, placed, past⟩ := (Step.runLine_refused line).overrun rfl
        exact ⟨q, a, r, w, pc, reached, met, placed, past⟩
    · cases ending
  · rcases giveUp_cases gave with ⟨_, _, top⟩ | ⟨ending, _⟩
    · rw [reached.config_eq] at top
      exact absurd top passes
    · cases ending

/-- For every source below 2 GiB and below the greatest number of passes, every check on the way of
a run holds, whatever the source: offsets into text are in range and between characters, and no
difference of lengths, depths or addresses is negative. A run that crashes all the same does so where
a line's bytes overrun the buffer, with the top of the address space in the window. -/
theorem only_overruns_crash (config : Config) (file : String) (text : Text)
    (passes : config.maxPasses.toNat < 2 ^ 32 - 1) (short : Text.size text < 2 ^ 31) :
    Bytewise.assemble? config file text = some (assemble config file text) ∧
    ((assemble config file text).1 = .crashed →
      ∃ q a r w pc, (new config (SourceLine.ofText file text)).Reached q a ∧
        Meets config a.records (a.work.startPass config (q + 1)) r w ∧ w.counter = some pc ∧
        w.image.locate pc (w.outcome r.source).stored = .error .overrun ∧
        w.image.contains 0xFFFFFFFF = true) := by
  constructor
  · exact Bytewise.assemble?_eq passes short
  · intro crashed
    have top : config.maxPasses.toNat + 1 ≠ UInt32.size := by
      rw [UInt32.size]
      omega
    obtain ⟨q, a, r, w, pc, reached, met, placed, past⟩ :=
      overrun_of_crash top (Prod.ext crashed rfl : assemble config file text = (.crashed, _))
    have held := List.mem_map_of_mem (f := Record.source) met.mem
    rw [reached.sources_eq] at held
    have fits : Bytewise.Fits r.source :=
      Nat.lt_of_le_of_lt (Bytewise.size_argument_le held) short
    exact ⟨q, a, r, w, pc, reached, met, placed, past,
      Image.contains_top_of_overrun (Work.outcome_length fits w) past⟩

/-- Four bytes at the last but one address of a window that ends at the top. -/
theorem only_overruns_crash_top :
    let config : Config := { romSize := 16, romBase := some 0xFFFFFFF0 }
    let text := "  org $FFFFFFFE\n  byt 1, 2, 3, 4\n".toList
    (assemble config "top" text).1 = .crashed ∧
      Bytewise.assemble? config "top" text = some (assemble config "top" text) ∧
      ∃ q a r w pc, (new config (SourceLine.ofText "top" text)).Reached q a ∧
        Meets config a.records (a.work.startPass config (q + 1)) r w ∧ w.counter = some pc ∧
        w.image.locate pc (w.outcome r.source).stored = .error .overrun ∧
        w.image.contains 0xFFFFFFFF = true := by
  intro config text
  have crashed : (assemble config "top" text).1 = .crashed := by decide +kernel
  have result := only_overruns_crash config "top" text (by decide) (by decide +kernel)
  exact ⟨crashed, result.1, result.2 crashed⟩

end Assembly

end Assembler65816
