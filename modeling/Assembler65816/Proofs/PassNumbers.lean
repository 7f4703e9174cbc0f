import Assembler65816.Proofs.Budgets

/-! # The numbers of passes

The loop over passes counts them in a word and compares the number of the next pass with the
budget. `Turns` is that loop, turn by turn. A run is one such loop: its passes have the numbers
1, 2, …, k with k within the budget, it is done exactly when it says so, and it comes to no end of
its own in one case only, where the budget is the greatest word and every pass of it asks for
another one: the number of the next pass is then no word.
-/
namespace Assembler65816

namespace Step

/-- A step that leaves the number of the pass as it is, whether it gets done or not. -/
def KeepsPass {α : Type} (x : Step α) : Prop := ∀ w, (x.run w).2.pass = w.pass

theorem KeepsPass.bind {α β : Type} {x : Step α} {f : α → Step β} (hx : x.KeepsPass)
    (hf : ∀ a, (f a).KeepsPass) : KeepsPass (x >>= f) := by
  intro w
  have first := hx w
  rw [run_bind]
  rcases run : x.run w with ⟨halt | a, w₁⟩
  · rw [run] at first
    exact first
  · rw [run] at first
    exact (hf a w₁).trans first

theorem runStatement_keepsPass (config : Config) (place : SourceLine) (statement : Statement) :
    KeepsPass (runStatement config place statement) := by
  intro w
  rw [runStatement_run]
  rcases (statement.outcome w.env w.widths).run { hint := w.hint } with ⟨cause | outcome, trace⟩
  · exact takeTrace_pass config place trace w
  · exact (perform_frame config place outcome _).pass.trans (takeTrace_pass config place trace w)

theorem runLine_keepsPass (config : Config) (place : SourceLine) :
    KeepsPass (runLine config place) :=
  KeepsPass.bind (fun w => (labels_frame place _ w).pass) fun _ =>
    runStatement_keepsPass config place _

end Step

theorem Work.runLines_pass (config : Config) (records : List Record) (w : Work) :
    (Work.runLines config records w).2.2.pass = w.pass := by
  induction records generalizing w with
  | nil => rfl
  | cons r rest ih =>
    have first := Step.runLine_keepsPass config r.source { w with hint := r.hint }
    rw [Work.runLines]
    rcases run : (Step.runLine config r.source).run { w with hint := r.hint } with ⟨halt | _, w₁⟩
    · rw [run] at first
      exact first
    · rw [run] at first
      exact (ih w₁).trans first

theorem Work.reportIf_eq (w : Work) (enabled : Bool) (notice : Notice) :
    ∃ log, w.reportIf enabled notice = { w with log } := by
  unfold Work.reportIf
  split
  · exact ⟨_, rfl⟩
  · exact ⟨w.log, rfl⟩

namespace Assembly

/-- However a pass ends, its number is the one it was started with. -/
theorem runPass_pass {a b : Assembly} {p : Nat} {ending : Option Ending}
    (h : a.runPass p = (ending, b)) : b.work.pass = p := by
  have lines := Work.runLines_pass a.config a.records (a.work.startPass a.config p)
  rw [startPass_pass] at lines
  unfold runPass at h
  rcases run : (a.work.startPass a.config p).runLines a.config a.records with
    ⟨_ | stopped, records, w⟩
  · rw [run] at h lines
    dsimp only at h
    split at h
    · have retried := w.finishPass.sweep_retried a.config.resolveBudget.toNat 1
      split at h
      all_goals
        next swept =>
        rw [swept] at retried
        cases h
        exact (congrArg Work.pass retried.frame).trans lines
    · cases h
      exact lines
  · rw [run] at h lines
    cases h
    exact lines

theorem runPass_stage {a b : Assembly} {p : Nat} {ending : Ending}
    (h : a.runPass p = (some ending, b)) : b.stage = .failed := by
  unfold runPass at h
  split at h
  · cases h
    rfl
  · split at h
    · split at h
      · cases h
        rfl
      · cases h
    · cases h

/-- The loop over passes with the number of the next pass in a word. `numbers` are those of the
passes that it starts. -/
inductive Turns : UInt32 → Assembly → List Nat → Ending → Assembly → Prop where
  | exhausted {pass : UInt32} {a b : Assembly} {ending : Ending}
      (spent : a.config.maxPasses < pass) (gave : a.giveUp = (ending, b)) :
      Turns pass a [] ending b
  | stopped {pass : UInt32} {a b : Assembly} {ending : Ending}
      (within : pass ≤ a.config.maxPasses) (ran : a.runPass pass.toNat = (some ending, b)) :
      Turns pass a [pass.toNat] ending b
  | settled {pass : UInt32} {a a' : Assembly} (within : pass ≤ a.config.maxPasses)
      (ran : a.runPass pass.toNat = (none, a')) (settled : a'.work.settled = true) :
      Turns pass a [pass.toNat] .done
        { a' with
          work := a'.work.reportIf (a'.config.infoEnabled pass.toNat)
            (.complete pass.toNat a'.work.image.base a'.work.image.limit)
          stage := .done }
  | overflow {pass : UInt32} {a a' : Assembly} (within : pass ≤ a.config.maxPasses)
      (ran : a.runPass pass.toNat = (none, a')) (unsettled : a'.work.settled = false)
      (top : pass.toNat + 1 = UInt32.size) : Turns pass a [pass.toNat] .crashed a'
  | again {pass : UInt32} {a a' b : Assembly} {numbers : List Nat} {ending : Ending}
      (within : pass ≤ a.config.maxPasses) (ran : a.runPass pass.toNat = (none, a'))
      (unsettled : a'.work.settled = false) (room : pass.toNat + 1 < UInt32.size)
      (more : Turns (pass + 1) a' numbers ending b) :
      Turns pass a (pass.toNat :: numbers) ending b

theorem toNat_next {pass : UInt32} (room : pass.toNat + 1 < UInt32.size) :
    (pass + 1).toNat = pass.toNat + 1 := by
  rw [UInt32.toNat_add]
  exact Nat.mod_eq_of_lt room

theorem turns_of_turn {pass : UInt32} {a b : Assembly} {left : Nat} {ending : Ending}
    (within : pass ≤ a.config.maxPasses)
    (h : a.runPasses (left + 1) pass.toNat = (ending, b))
    (next : ∀ a', a.runPass pass.toNat = (none, a') → a'.work.settled = false →
      a'.runPasses left (pass.toNat + 1) = (ending, b) → ∃ numbers, Turns pass a numbers ending b) :
    ∃ numbers, Turns pass a numbers ending b := by
  rw [runPasses] at h
  split at h
  · next ran =>
    cases h
    exact ⟨_, .stopped within ran⟩
  · next a' ran =>
    split at h
    · next settled =>
      cases h
      exact ⟨_, .settled within ran settled⟩
    · next unsettled => exact next a' ran (by simpa using unsettled) h

theorem giveUp_top {a : Assembly} (top : a.config.maxPasses.toNat + 1 = UInt32.size) :
    a.giveUp = (.crashed, a) := if_pos top

/-- A number beyond the budget is a word, so the budget is not the greatest one. -/
theorem giveUp_spent {a : Assembly} {pass : UInt32} (spent : a.config.maxPasses < pass) :
    ∃ failure b, a.giveUp = (.failed failure, b) ∧ b.stage = .failed := by
  have below : a.config.maxPasses.toNat + 1 ≠ UInt32.size := by
    have beyond := UInt32.lt_iff_toNat_lt.mp spent
    have limit : pass.toNat < UInt32.size := pass.toNat_lt
    omega
  exact ⟨_, _, if_neg below, rfl⟩

theorem turns_of_runPasses {pass : UInt32} {a b : Assembly} {left : Nat} {ending : Ending}
    (budget : pass.toNat + left = a.config.maxPasses.toNat)
    (h : a.runPasses (left + 1) pass.toNat = (ending, b)) :
    ∃ numbers, Turns pass a numbers ending b := by
  have limit : a.config.maxPasses.toNat < UInt32.size := a.config.maxPasses.toNat_lt
  induction left generalizing pass a with
  | zero =>
    have within : pass ≤ a.config.maxPasses := UInt32.le_iff_toNat_le.mpr (by omega)
    apply turns_of_turn within h
    intro a' ran unsettled gave
    obtain ⟨_, _, _, _, same⟩ := runPass_none ran
    by_cases top : pass.toNat + 1 = UInt32.size
    · have crashed : a'.giveUp = (.crashed, a') := giveUp_top (by rw [same]; omega)
      obtain ⟨rfl, rfl⟩ : Ending.crashed = ending ∧ a' = b := Prod.mk.inj (crashed.symm.trans gave)
      exact ⟨_, .overflow within ran unsettled top⟩
    · have room : pass.toNat + 1 < UInt32.size := by omega
      refine ⟨_, .again within ran unsettled room (.exhausted ?_ gave)⟩
      rw [UInt32.lt_iff_toNat_lt, toNat_next room, same]
      omega
  | succ left ih =>
    have within : pass ≤ a.config.maxPasses := UInt32.le_iff_toNat_le.mpr (by omega)
    apply turns_of_turn within h
    intro a' ran unsettled rest
    obtain ⟨_, _, _, _, same⟩ := runPass_none ran
    have room : pass.toNat + 1 < UInt32.size := by omega
    rw [← toNat_next room] at rest
    have budget' : (pass + 1).toNat + left = a'.config.maxPasses.toNat := by
      rw [toNat_next room, same]
      omega
    obtain ⟨numbers, more⟩ := ih budget' rest (by rw [same]; exact limit)
    exact ⟨_, .again within ran unsettled room more⟩

namespace Turns

variable {start a b : Assembly} {pass : UInt32} {p : Nat} {numbers : List Nat} {ending : Ending}

theorem numbers_eq (h : Turns pass a numbers ending b) :
    numbers = List.range' pass.toNat numbers.length := by
  induction h with
  | exhausted => rfl
  | stopped | settled | overflow => rfl
  | again _ _ _ room _ ih =>
    rw [toNat_next room] at ih
    rw [List.length_cons, List.range'_succ, ← ih]

theorem numbers_le (h : Turns pass a numbers ending b) :
    ∀ n ∈ numbers, n ≤ a.config.maxPasses.toNat := by
  induction h with
  | exhausted => exact nofun
  | stopped within | settled within | overflow within =>
    intro n here
    rw [List.mem_singleton.mp here]
    exact UInt32.le_iff_toNat_le.mp within
  | again within ran _ _ _ ih =>
    obtain ⟨_, _, _, _, same⟩ := runPass_none ran
    rw [same] at ih
    intro n here
    rcases List.mem_cons.mp here with rfl | later
    · exact UInt32.le_iff_toNat_le.mp within
    · exact ih n later

theorem numbers_ne_nil (h : Turns pass a numbers ending b) (within : pass ≤ a.config.maxPasses) :
    numbers ≠ [] := by
  cases h with
  | exhausted spent => exact absurd spent (UInt32.not_lt.mpr within)
  | stopped | settled | overflow | again => exact List.cons_ne_nil _ _

/-- The number of the pass at the end is that of the last pass that was started. -/
theorem pass_eq (h : Turns pass a numbers ending b) (numbered : a.work.pass + 1 = pass.toNat) :
    b.work.pass + 1 = pass.toNat + numbers.length := by
  induction h with
  | exhausted spent gave =>
    rw [giveUp_pass gave]
    exact numbered
  | stopped _ ran | overflow _ ran =>
    rw [runPass_pass ran]
    rfl
  | @settled pass _ a' _ ran =>
    obtain ⟨log, same⟩ := a'.work.reportIf_eq (a'.config.infoEnabled pass.toNat)
      (.complete pass.toNat a'.work.image.base a'.work.image.limit)
    rw [same, runPass_pass ran]
    rfl
  | again _ ran _ room _ ih =>
    rw [toNat_next room] at ih
    rw [ih (by rw [runPass_pass ran]), List.length_cons]
    omega

theorem stage_of_done (h : Turns pass a numbers .done b) :
    b.stage = .done ∧ b.work.settled = true := by
  generalize target : Ending.done = ending at h
  induction h with
  | exhausted _ gave =>
    subst target
    exact absurd gave giveUp_ne_done
  | stopped _ ran =>
    subst target
    exact absurd ran runPass_ne_done
  | @settled pass _ a' _ _ settled =>
    obtain ⟨log, same⟩ := a'.work.reportIf_eq (a'.config.infoEnabled pass.toNat)
      (.complete pass.toNat a'.work.image.base a'.work.image.limit)
    rw [same]
    exact ⟨rfl, settled⟩
  | overflow => cases target
  | again _ _ _ _ _ ih => exact ih target

theorem stage_of_failed {failure : Failure} (h : Turns pass a numbers (.failed failure) b) :
    b.stage = .failed := by
  generalize target : Ending.failed failure = ending at h
  induction h with
  | exhausted spent gave =>
    obtain ⟨_, _, failed, stage⟩ := giveUp_spent spent
    rw [failed] at gave
    cases gave
    exact stage
  | stopped _ ran => exact runPass_stage ran
  | settled | overflow => cases target
  | again _ _ _ _ _ ih => exact ih target

/-- A loop crashes within a pass, or after a pass whose number is the greatest word. -/
theorem crashed (h : Turns pass a numbers .crashed b) (reached : start.Reached p a)
    (numbered : p + 1 = pass.toNat) :
    (∃ q c, start.Reached q c ∧ c.runPass (q + 1) = (some .crashed, b)) ∨
    ∃ q, start.Reached q b ∧ b.work.settled = false ∧ q + 1 = UInt32.size := by
  generalize target : Ending.crashed = ending at h
  induction h generalizing p with
  | exhausted spent gave =>
    obtain ⟨_, _, failed, _⟩ := giveUp_spent spent
    rw [failed] at gave
    cases gave
    cases target
  | stopped _ ran =>
    subst target
    rw [← numbered] at ran
    exact Or.inl ⟨p, _, reached, ran⟩
  | settled => cases target
  | overflow _ ran unsettled top =>
    rw [← numbered] at ran top
    exact Or.inr ⟨p + 1, reached.pass ran, unsettled, top⟩
  | again _ ran _ room _ ih =>
    rw [toNat_next room] at ih
    rw [← numbered] at ran ih
    exact ih (reached.pass ran) rfl target

end Turns

/-- A run under valid settings starts passes 1, 2, …, k in this order, with k within the budget, and
remembers k. It is done after a second pass at least, the last of which asks for no other and leaves
no symbol without a value; or it fails; or it crashes, which is a crash within pass k unless k is
the greatest word and pass k still asks for another one. -/
theorem run_within_budget {config : Config} (valid : config.validate = .ok ())
    (lines : List SourceLine) :
    ∃ k ending b, (new config lines).run = (ending, b) ∧
      Turns 1 (new config lines) (List.range' 1 k) ending b ∧
      1 ≤ k ∧ k ≤ config.maxPasses.toNat ∧ b.work.pass = k ∧
      (ending = .done ∧ b.stage = .done ∧ 2 ≤ k ∧ b.work.unsettled = false ∧
          b.work.symbols.unresolvedCount = 0 ∨
        (∃ failure, ending = .failed failure) ∧ b.stage = .failed ∨
        ending = .crashed ∧
          ((∃ q a, (new config lines).Reached q a ∧ q + 1 = k ∧
              a.runPass k = (some .crashed, b)) ∨
            (new config lines).Reached k b ∧ b.work.settled = false ∧ k + 1 = UInt32.size)) := by
  have two := two_le_maxPasses valid
  rcases run : (new config lines).run with ⟨ending, b⟩
  have passes : (new config lines).runPasses config.maxPasses.toNat 1 = (ending, b) := by
    rw [← run]
    unfold Assembly.run
    dsimp only
    rw [show (new config lines).config.validate = .ok () from valid]
    rfl
  obtain ⟨left, budget⟩ := Nat.exists_eq_add_of_le' (Nat.le_of_succ_le two)
  rw [budget] at passes
  have numbered : (1 : UInt32).toNat + left = (new config lines).config.maxPasses.toNat :=
    (Nat.add_comm 1 left).trans budget.symm
  obtain ⟨numbers, turns⟩ := turns_of_runPasses numbered passes
  have one : (1 : UInt32) ≤ config.maxPasses :=
    UInt32.le_iff_toNat_le.mpr (Nat.le_of_succ_le two)
  obtain ⟨k, rfl⟩ : ∃ k, numbers = List.range' 1 k := ⟨_, turns.numbers_eq⟩
  have some_pass : 1 ≤ k := by
    have pos := List.length_pos_iff.mpr (turns.numbers_ne_nil one)
    rwa [List.length_range'] at pos
  have last : b.work.pass = k := by
    have counted := turns.pass_eq rfl
    rw [UInt32.toNat_one, List.length_range'] at counted
    omega
  have within : k ≤ config.maxPasses.toNat :=
    turns.numbers_le k (List.mem_range'_1.mpr ⟨some_pass, by omega⟩)
  refine ⟨k, ending, b, rfl, turns, some_pass, within, last, ?_⟩
  cases ending with
  | done =>
    obtain ⟨stage, settled⟩ := turns.stage_of_done
    simp only [Work.settled, Bool.and_eq_true, decide_eq_true_eq, Bool.not_eq_true',
      beq_iff_eq] at settled
    rw [last] at settled
    exact Or.inl ⟨rfl, stage, settled.1.1, settled.1.2, settled.2⟩
  | failed failure => exact Or.inr (Or.inl ⟨⟨failure, rfl⟩, turns.stage_of_failed⟩)
  | crashed =>
    refine Or.inr (Or.inr ⟨rfl, ?_⟩)
    rcases turns.crashed .start rfl with ⟨q, a, reached, ran⟩ | ⟨q, reached, unsettled, top⟩
    · have same := runPass_pass ran
      rw [last] at same
      rw [same]
      exact Or.inl ⟨q, a, reached, rfl, ran⟩
    · obtain ⟨q, rfl⟩ : ∃ r, q = r + 1 := Nat.exists_eq_succ_of_ne_zero (by rintro rfl; cases top)
      rw [reached.pass_eq] at last
      rw [← last]
      exact Or.inr ⟨reached, unsettled, top⟩

def openSource : List SourceLine := SourceLine.ofText "open.asm" "x equ y\n".toList

/-- The budget is used up to the last pass. -/
theorem run_within_budget_open :
    ∃ failure b, (new { romSize := 1, maxPasses := 3 } openSource).run = (.failed failure, b) ∧
      Turns 1 (new { romSize := 1, maxPasses := 3 } openSource) [1, 2, 3] (.failed failure) b ∧
      b.work.pass = 3 ∧ b.stage = .failed := by
  have three : (new { romSize := 1, maxPasses := 3 } openSource).run.2.work.pass = 3 := by
    decide +kernel
  have failed : (new { romSize := 1, maxPasses := 3 } openSource).run.1 ≠ .crashed ∧
      (new { romSize := 1, maxPasses := 3 } openSource).run.1 ≠ .done := by decide +kernel
  have valid : Config.validate { romSize := 1, maxPasses := 3 } = .ok () := by decide
  obtain ⟨k, ending, b, run, turns, _, _, last, ends⟩ := run_within_budget valid openSource
  rw [run] at three failed
  obtain rfl : k = 3 := last.symm.trans three
  rcases ends with ⟨rfl, _⟩ | ⟨⟨failure, rfl⟩, stage⟩ | ⟨rfl, _⟩
  · exact absurd rfl failed.2
  · exact ⟨failure, b, run, turns, last, stage⟩
  · exact absurd rfl failed.1

def openTable : SymbolTable := ⟨[⟨['x'], .unresolved, ['y'], none⟩]⟩

def topConfig : Config := { romSize := 1, maxPasses := 0xFFFFFFFF }

structure Waits (a : Assembly) : Prop where
  config : a.config = topConfig
  records : a.records = openSource.map fun source => { source }
  symbols : a.work.symbols = {} ∨ a.work.symbols = openTable
  stage : a.stage = .idle

theorem open_line {w : Work} {place : SourceLine} (text : place.text = "x equ y".toList)
    (symbols : w.symbols = {} ∨ w.symbols = openTable) (counter : w.counter = none)
    (hint : w.hint = none) (defined : w.defined = []) :
    ∃ w', (Step.runLine topConfig place).run w = (.ok (), w') ∧ w'.symbols = openTable ∧
      w'.hint = none ∧ w'.unsettled = true := by
  have parsed : ParsedLine.ofText place.text = ⟨[], .equate ['x'] ['y']⟩ := by
    rw [text]
    decide +kernel
  have missing : Expression.eval w.env ['y'] = .error (.missing ['y']) := by
    unfold Work.env
    rw [counter]
    rcases symbols with same | same <;> rw [same] <;> decide +kernel
  have read : ((Statement.equate ['x'] ['y']).outcome w.env w.widths).run { hint := w.hint } =
      (.ok (.binding ['x'] ['y'] .unresolved), ⟨true, [.missed ['y']], w.hint⟩) := by
    simp only [Statement.outcome, Tracing.eval_eq, missing]
    rfl
  obtain ⟨v, took⟩ : ∃ v, v = w.takeTrace topConfig place ⟨true, [.missed ['y']], w.hint⟩ :=
    ⟨_, rfl⟩
  have line : (Step.runLine topConfig place).run w =
      (Step.perform topConfig place (.binding ['x'] ['y'] .unresolved)).run v := by
    unfold Step.runLine
    rw [parsed]
    change (Step.runStatement topConfig place (.equate ['x'] ['y'])).run w = _
    rw [Step.runStatement_run, read, took]
  have bound : v.symbols.define ⟨['x'], .unresolved, ['y'], v.counter⟩ (v.pass == 1) =
      some openTable := by
    rw [took, takeTrace_symbols, takeTrace_counter, counter]
    rcases symbols with same | same <;> rw [same] <;> rfl
  have agrees : Step.contradicts (v.defined.lookup ['x']) .unresolved = false := by
    rw [took, takeTrace_defined, defined]
    rfl
  obtain ⟨log, performed⟩ :=
    (@Performed.binding topConfig v ['x'] ['y'] .unresolved openTable #[] agrees bound).run place
  rw [line, performed]
  refine ⟨_, rfl, rfl, ?_, ?_⟩
  · change v.hint = none
    rw [took, takeTrace_hint, hint]
  · change (v.unsettled || _) = true
    rw [took, takeTrace_unsettled, Bool.or_true, Bool.true_or]

theorem open_sweep (rounds : Nat) {w : Work} (symbols : w.symbols = openTable) :
    ∃ log, w.sweep rounds 1 = (none, { w with log }) := by
  have retried : openTable.retry ['x'] = (.waiting (some ['y']), openTable) := by decide +kernel
  have tried : w.retry ['x'] = (.waiting (some ['y']), w.report (.waits ['x'] ['y'])) := by
    unfold Work.retry
    rw [symbols, retried, ← symbols]
  cases rounds with
  | zero => exact ⟨w.log, rfl⟩
  | succ rounds =>
    have round : Work.sweepRound 1 w.symbols.unresolvedNames 0 w =
        (.ok 0, w.report (.waits ['x'] ['y'])) := by
      rw [symbols]
      change Work.sweepRound 1 [['x']] 0 w = _
      rw [Work.sweepRound, tried]
      rfl
    have waiting : ¬w.symbols.unresolvedCount = 0 := by
      rw [symbols]
      decide
    rw [Work.sweep, if_neg waiting, round]
    exact ⟨_, rfl⟩

/-- Every pass over the open equate gets through and asks for another one. -/
theorem Waits.pass {a : Assembly} (h : a.Waits) (p : Nat) :
    ∃ a', a.runPass p = (none, a') ∧ a'.Waits ∧ a'.work.settled = false := by
  obtain ⟨place, source, text⟩ : ∃ place, openSource = [place] ∧ place.text = "x equ y".toList :=
    ⟨_, rfl, by decide +kernel⟩
  obtain ⟨w, line, symbols, hint, unsettled⟩ := open_line
    (w := { a.work.startPass topConfig p with hint := none }) text
    (by simpa using h.symbols) (startPass_counter _ _ _) rfl (startPass_defined _ _ _)
  have lines : (a.work.startPass topConfig p).runLines topConfig [{ source := place }] =
      (none, [{ source := place }], w) := by
    rw [Work.runLines, line]
    simp only [Work.runLines, hint]
  have records : a.records = [{ source := place }] := by rw [h.records, source, List.map_singleton]
  have open_end : ∀ log, Work.settled { w with log } = false := by simp [Work.settled, unsettled]
  unfold runPass
  rw [h.config, records, lines]
  by_cases first : p = 1
  · obtain ⟨log, swept⟩ := open_sweep topConfig.resolveBudget.toNat (w := w.finishPass) symbols
    simp only [first, if_true, swept]
    exact ⟨_, rfl, ⟨rfl, h.records ▸ records.symm, Or.inr symbols, h.stage⟩, open_end log⟩
  · simp only [first, if_false]
    exact ⟨_, rfl, ⟨rfl, h.records ▸ records.symm, Or.inr symbols, h.stage⟩, open_end _⟩

/-- The greatest budget cannot be used up: after the pass with the greatest number the run crashes,
although no pass of it did. -/
theorem greatest_budget_crashes :
    topConfig.validate = .ok () ∧
      ∃ b, (new topConfig openSource).run = (.crashed, b) ∧
        (new topConfig openSource).Reached 0xFFFFFFFF b ∧ b.work.pass = 0xFFFFFFFF ∧
        b.stage = .idle := by
  have waits : ∀ p a, (new topConfig openSource).Reached p a → a.Waits := by
    intro p a reached
    induction reached with
    | start => exact ⟨rfl, rfl, Or.inl rfl, rfl⟩
    | @pass p a a' before passed ih =>
      obtain ⟨a'', ran, waits, _⟩ := ih.pass (p + 1)
      rw [passed] at ran
      cases ran
      exact waits
  refine ⟨by decide, ?_⟩
  rcases run : (new topConfig openSource).run with ⟨ending, b⟩
  rcases run_new_cases run with ⟨cause, invalid, _⟩ |
    ⟨_, ⟨q, a, reached, settled, _⟩ | ⟨q, a, reached, failed⟩ | ⟨a, reached, _, gave⟩⟩
  · cases invalid
  · cases reached with
    | pass before passed =>
      obtain ⟨_, ran, _, unsettled⟩ := (waits q _ before).pass (q + 1)
      rw [passed] at ran
      cases ran
      rw [settled] at unsettled
      cases unsettled
  · obtain ⟨_, ran, _⟩ := (waits q a reached).pass (q + 1)
    rw [ran] at failed
    cases failed
  · rw [giveUp_top (by rw [reached.config_eq]; rfl)] at gave
    cases gave
    exact ⟨_, rfl, reached, reached.pass_eq, (waits _ _ reached).stage⟩

end Assembly

end Assembler65816
