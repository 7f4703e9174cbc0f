import Assembler65816.Proofs.Guesses
import Assembler65816.Proofs.PassNumbers

/-! # Remembered widths

An address that has no value yet is given a width when its line is first encoded, and the line
remembers it. From then on the line is encoded at that width, whatever value the address gets, and
no later pass or run chooses another one.
-/
namespace Assembler65816

/-- What a line hands to the encoder once its labels are bound, if it gets that far and holds an
instruction. -/
def Work.encoding? (place : SourceLine) (w : Work) : Option Encoding :=
  match ((ParsedLine.ofText place.text).labels.forM (Step.defineLabel place)).run w,
    (ParsedLine.ofText place.text).statement with
  | (.ok (), labelled), .instruction mnemonic operand =>
    some ⟨⟨labelled.env, labelled.widths⟩, mnemonic, operand⟩
  | _, _ => none

open Tracing in
theorem Step.dataValues_keepsHint (env : Env) (size : DataSize) (items : List Text) :
    KeepsHint (Step.dataValues env size items) := by
  refine (KeepsHint.mapM (fun item => ?_) items).bind fun values =>
    (KeepsHint.forM (fun value => ?_) _).bind fun _ => .pure _
  · unfold Step.dataItem
    split
    · split
      · exact .pure _
      · exact .throw _
    · exact (KeepsHint.eval env _).bind fun _ => .pure _
  · split
    · exact fun _ => rfl
    · exact .pure _

open Tracing in
theorem Statement.outcome_keepsHint {statement : Statement}
    (other : ∀ mnemonic operand, statement ≠ .instruction mnemonic operand) (env : Env)
    (widths : RegisterWidths) : KeepsHint (statement.outcome env widths) := by
  cases statement with
  | nothing | rom | accumulatorWidth | indexWidth => exact .pure _
  | equate name expression => exact (KeepsHint.eval env expression).bind fun _ => .pure _
  | origin expression =>
    refine (KeepsHint.eval env expression).bind fun value => ?_
    cases value with
    | known address => exact .pure _
    | unresolved => exact .throw _
  | data size list =>
    simp only [Statement.outcome]
    split
    · exact .throw _
    · exact (Step.dataValues_keepsHint env size _).bind fun _ => .pure _
  | instruction mnemonic operand => exact absurd rfl (other mnemonic operand)
  | faulty cause => exact .throw cause

theorem Step.runStatement_hint (config : Config) (place : SourceLine) (statement : Statement)
    (w : Work) :
    ((Step.runStatement config place statement).run w).2.hint =
      ((statement.outcome w.env w.widths).run { hint := w.hint }).2.hint := by
  rw [Step.runStatement_run]
  rcases (statement.outcome w.env w.widths).run { hint := w.hint } with ⟨cause | outcome, trace⟩
  · exact takeTrace_hint config place trace w
  · exact (Step.perform_frame config place outcome _).hint.trans
      (takeTrace_hint config place trace w)

theorem Step.runLine_hint (config : Config) (place : SourceLine) (w : Work) :
    ((Step.runLine config place).run w).2.hint =
      (w.encoding? place).elim w.hint fun e => (e.run w.hint).2.hint := by
  have kept := (Step.labels_frame place (ParsedLine.ofText place.text).labels w).hint
  unfold Step.runLine Work.encoding?
  rw [run_bind]
  rcases labels : ((ParsedLine.ofText place.text).labels.forM (Step.defineLabel place)).run w with
    ⟨halt | _, labelled⟩
  · rw [labels] at kept
    exact kept
  · rw [labels] at kept
    dsimp only at kept ⊢
    rw [Step.runStatement_hint, kept]
    cases statement : (ParsedLine.ofText place.text).statement with
    | instruction mnemonic operand =>
      dsimp only [Option.elim_some, Encoding.run]
      unfold Statement.outcome
      rw [run_bind]
      rcases (Instruction.encode ⟨labelled.env, labelled.widths⟩ mnemonic operand).run
        { hint := w.hint } with ⟨cause | bytes, trace⟩ <;> rfl
    | nothing | rom | accumulatorWidth | indexWidth | equate | origin | data | faulty =>
      exact Statement.outcome_keepsHint (fun _ _ => Statement.noConfusion) _ _ _

namespace Work

/-- What a pass over lines hands to the encoder at the line `i`, if it comes that far. -/
def encodingAt? (config : Config) : List Record → Work → Nat → Option Encoding
  | [], _, _ => none
  | r :: _, w, 0 => Work.encoding? r.source { w with hint := r.hint }
  | r :: rest, w, i + 1 =>
    match (Step.runLine config r.source).run { w with hint := r.hint } with
    | (.error _, _) => none
    | (.ok (), w') => encodingAt? config rest w' i

theorem statement_of_encoding? {place : SourceLine} {w : Work} {e : Encoding}
    (h : w.encoding? place = some e) :
    (ParsedLine.ofText place.text).statement = .instruction e.mnemonic e.operand := by
  unfold Work.encoding? at h
  split at h
  · next statement =>
    cases h
    exact statement
  · cases h

theorem statement_of_encodingAt? {config : Config} {records : List Record} {w : Work} {i : Nat}
    {r : Record} {e : Encoding} (here : records[i]? = some r)
    (h : encodingAt? config records w i = some e) :
    (ParsedLine.ofText r.source.text).statement = .instruction e.mnemonic e.operand := by
  induction records generalizing w i with
  | nil => cases h
  | cons first rest ih =>
    cases i with
    | zero =>
      cases here
      exact statement_of_encoding? h
    | succ i =>
      rw [encodingAt?] at h
      split at h
      · cases h
      · exact ih here h

/-- A pass changes of each line only the width that it remembers, and only by encoding it. -/
theorem runLines_records (config : Config) (records : List Record) (w : Work) (i : Nat) :
    (runLines config records w).2.1[i]? = (records[i]?).map fun r =>
      { r with
        hint := (encodingAt? config records w i).elim r.hint fun e => (e.run r.hint).2.hint } := by
  induction records generalizing w i with
  | nil => rfl
  | cons r rest ih =>
    have remembered := Step.runLine_hint config r.source { w with hint := r.hint }
    rw [runLines]
    rcases line : (Step.runLine config r.source).run { w with hint := r.hint } with ⟨halt | _, w₁⟩
    · rw [line] at remembered
      cases i with
      | zero =>
        dsimp only at remembered ⊢
        rw [remembered]
        rfl
      | succ i =>
        rw [encodingAt?, line]
        exact (Option.map_id' (x := rest[i]?)).symm
    · rw [line] at remembered
      cases i with
      | zero =>
        dsimp only at remembered ⊢
        rw [remembered]
        rfl
      | succ i =>
        rw [encodingAt?, line]
        exact ih w₁ i

end Work

/-- What a line remembers is a width that its mnemonic has for its unforced address. -/
def Record.Sound (r : Record) : Prop :=
  ∀ width, r.hint = some width → ∀ e : Encoding,
    (ParsedLine.ofText r.source.text).statement = .instruction e.mnemonic e.operand →
    ∃ m shape expression, e.Addresses m shape expression ∧
      Instruction.opcodeAt? m shape width ≠ none

namespace Assembly

variable {start a b : Assembly} {p i : Nat} {ending : Option Ending} {width : Width}

/-- What the pass with the number `p` hands to the encoder at the line `i`, if it comes that far. -/
def encodingAt? (a : Assembly) (p i : Nat) : Option Encoding :=
  Work.encodingAt? a.config a.records (a.work.startPass a.config p) i

theorem runPass_records (h : a.runPass p = (ending, b)) (i : Nat) :
    b.records[i]? = (a.records[i]?).map fun r =>
      { r with hint := (a.encodingAt? p i).elim r.hint fun e => (e.run r.hint).2.hint } := by
  have lines := Work.runLines_records a.config a.records (a.work.startPass a.config p) i
  unfold runPass at h
  rcases run : (a.work.startPass a.config p).runLines a.config a.records with
    ⟨_ | stopped, records, w⟩
  · rw [run] at h lines
    dsimp only at h
    split at h
    · split at h
      all_goals
        cases h
        exact lines
    · cases h
      exact lines
  · rw [run] at h lines
    cases h
    exact lines

/-- The moments of the life of an assembly between its passes. Apart from passes, symbols are tried
again, messages are reported and the stage changes. -/
inductive Life (start : Assembly) : Assembly → Prop where
  | start : Life start start
  | pass {a b : Assembly} {p : Nat} {ending : Option Ending} (before : Life start a)
      (ran : a.runPass p = (ending, b)) : Life start b
  | between {a : Assembly} (before : Life start a) (work : Work) (retried : a.work.Retried work)
      (stage : Stage) : Life start { a with work, stage }

theorem Life.trans {c : Assembly} (h : a.Life b) (h' : b.Life c) : a.Life c := by
  induction h' with
  | start => exact h
  | pass _ ran ih => exact ih.pass ran
  | between _ work retried stage ih => exact ih.between work retried stage

theorem Life.giveUp (h : start.Life a) : start.Life a.giveUp.2 := by
  unfold Assembly.giveUp
  split
  · exact h
  · exact h.between _ ((a.work.retryAll_retried.trans (Work.retried_report _ _)).trans
      (Work.foldl_report _ _)) _

theorem Life.runPasses (h : start.Life a) (left p : Nat) : start.Life (a.runPasses left p).2 := by
  induction left generalizing a p with
  | zero => exact h.giveUp
  | succ left ih =>
    rw [Assembly.runPasses]
    split
    · next ran => exact h.pass ran
    · next a' ran =>
      have h' := h.pass ran
      split
      · obtain ⟨log, same⟩ := a'.work.reportIf_eq (a'.config.infoEnabled p)
          (.complete p a'.work.image.base a'.work.image.limit)
        rw [same]
        exact h'.between { a'.work with log } ⟨.refl _, rfl⟩ .done
      · exact ih h' (p + 1)

theorem Life.run (h : start.Life a) : start.Life a.run.2 := by
  have fresh : start.Life { a with work := { a.work with log := #[] } } :=
    h.between { a.work with log := #[] } ⟨.refl _, rfl⟩ a.stage
  unfold Assembly.run
  dsimp only
  split
  · exact fresh
  · exact fresh.runPasses _ _

theorem record_after {r r' : Record} (h : a.runPass p = (ending, b))
    (before : a.records[i]? = some r) (after : b.records[i]? = some r') :
    r' = { r with
      hint := (a.encodingAt? p i).elim r.hint fun e => (e.run r.hint).2.hint } := by
  rw [runPass_records h, before] at after
  exact (Option.some.inj after).symm

theorem hint_kept {r r' : Record} (h : a.runPass p = (ending, b)) (before : a.records[i]? = some r)
    (after : b.records[i]? = some r') (remembered : r.hint = some width) :
    r'.hint = some width := by
  rw [record_after h before after, remembered]
  cases encoded : a.encodingAt? p i with
  | none => rfl
  | some e =>
    by_contra changed
    cases (Encoding.run_hint_kept _ _ changed).1

theorem Life.kept {r : Record} (h : start.Life b) (before : start.records[i]? = some r)
    (remembered : r.hint = some width) :
    ∃ r', b.records[i]? = some r' ∧ r'.source = r.source ∧ r'.hint = some width := by
  induction h with
  | start => exact ⟨r, before, rfl, remembered⟩
  | between _ _ _ _ ih => exact ih
  | @pass a b p ending _ ran ih =>
    obtain ⟨r₁, here, source, remembered⟩ := ih
    have after := runPass_records ran i
    rw [here, Option.map_some] at after
    exact ⟨_, after, source, hint_kept ran here after remembered⟩

theorem sound_after {r r' : Record} (h : a.runPass p = (ending, b))
    (before : a.records[i]? = some r) (after : b.records[i]? = some r') (sound : r.Sound) :
    r'.Sound := by
  have line := record_after h before after
  have source : r'.source = r.source := by rw [line]
  intro width remembered e statement
  rw [source] at statement
  cases encoded : a.encodingAt? p i with
  | none =>
    rw [encoded] at line
    rw [line] at remembered
    exact sound width remembered e statement
  | some e' =>
    rw [encoded] at line
    rw [line] at remembered
    by_cases changed : (e'.run r.hint).2.hint = r.hint
    · exact sound width (changed.symm.trans remembered) e statement
    · have unset := (Encoding.run_hint_kept _ _ changed).1
      rw [unset] at remembered
      obtain ⟨m, shape, expression, address, _, _, default⟩ :=
        Encoding.hint_eq_some_iff.mp remembered
      have same := Work.statement_of_encodingAt? before encoded
      rw [statement] at same
      injection same with mnemonic operand
      refine ⟨m, shape, expression, ⟨?_, ?_, address.unforced⟩, default.has⟩
      · rw [mnemonic]
        exact address.found
      · rw [operand]
        exact address.address

theorem Life.sound {config : Config} {lines : List SourceLine} (h : (new config lines).Life a) :
    ∀ r ∈ a.records, r.Sound := by
  induction h with
  | start =>
    intro r mem width remembered
    obtain ⟨source, _, rfl⟩ := List.mem_map.mp mem
    cases remembered
  | between _ _ _ _ ih => exact ih
  | @pass a b p ending _ ran ih =>
    intro r' mem
    obtain ⟨i, after⟩ := List.mem_iff_getElem?.mp mem
    have before := runPass_records ran i
    rw [after] at before
    obtain ⟨r, before, _⟩ := Option.map_eq_some_iff.mp before.symm
    exact sound_after ran before after (ih r (List.mem_of_getElem? before))

/-- Remembered widths, over the whole life of an assembly. At first no line remembers one. A pass
makes a line remember a width exactly if the line remembers none and an unforced address is encoded
there that has no value, and then it is the default width; where encoding fails it remembers no
more than before. What a line remembers it remembers for good, and a line that remembers a width at
the end of a pass has been encoded at it, unless its expression is at fault. -/
theorem widths_remembered (config : Config) (lines : List SourceLine) :
    (∀ r ∈ (new config lines).records, r.hint = none) ∧
    ∀ a, (new config lines).Life a →
      (new config lines).Life a.run.2 ∧
      (∀ b, a.Life b → (new config lines).Life b ∧
        ∀ (i : Nat) (r : Record) (width : Width), a.records[i]? = some r → r.hint = some width →
          ∃ r' : Record, b.records[i]? = some r' ∧ r'.source = r.source ∧
            r'.hint = some width) ∧
      ∀ p ending b, a.runPass p = (ending, b) →
        (new config lines).Life b ∧
        ∀ (i : Nat) (r : Record), a.records[i]? = some r →
          ∃ r' : Record, b.records[i]? = some r' ∧ r'.source = r.source ∧
          (r.hint = none → ∀ width,
            (r'.hint = some width ↔ ∃ e, a.encodingAt? p i = some e ∧ e.Guesses width)) ∧
          (∀ e cause t, a.encodingAt? p i = some e → e.run r.hint = (.error cause, t) →
            r'.hint = r.hint) ∧
          ∀ e width, a.encodingAt? p i = some e → r'.hint = some width →
            e.AnswersAt width (e.run r.hint).1 := by
  constructor
  · intro r mem
    obtain ⟨source, _, rfl⟩ := List.mem_map.mp mem
    rfl
  intro a life
  refine ⟨life.run, fun b later => ⟨life.trans later, fun i r width => later.kept⟩, ?_⟩
  intro p ending b ran
  refine ⟨life.pass ran, ?_⟩
  intro i r before
  have after := runPass_records ran i
  rw [before, Option.map_some] at after
  refine ⟨_, after, rfl, ?_, ?_, ?_⟩
  · intro unset width
    dsimp only
    rw [unset]
    cases a.encodingAt? p i with
    | none => simp
    | some e => simpa using Encoding.hint_eq_some_iff
  · intro e cause t encoded refused
    dsimp only
    rw [encoded, Option.elim_some, refused]
    exact Encoding.hint_of_error refused
  · intro e width encoded remembered
    dsimp only at remembered
    rw [encoded, Option.elim_some] at remembered
    by_cases changed : (e.run r.hint).2.hint = r.hint
    · rw [changed] at remembered
      obtain ⟨m, shape, expression, address, has⟩ := life.sound r (List.mem_of_getElem? before)
        width remembered e (Work.statement_of_encodingAt? before encoded)
      rw [remembered]
      exact Encoding.run_remembered address has
    · have unset := (Encoding.run_hint_kept _ _ changed).1
      rw [unset] at remembered ⊢
      exact (Encoding.hint_eq_some_iff.mp remembered).answersAt

def laterSource : List SourceLine :=
  SourceLine.ofText "later.asm" " org $8000\n lda x\nx equ 5\n".toList

def laterStart : Assembly := new { romSize := 16 } laterSource

/-- The first pass guesses two bytes for the address. The second one knows that it would fit one
byte and keeps to two. -/
theorem widths_remembered_later :
    ∃ b e e', laterStart.Life b ∧ laterStart.encodingAt? 1 1 = some e ∧ e.Guesses .absolute ∧
      b.encodingAt? 2 1 = some e' ∧ e'.AnswersAt .absolute (e'.run (some .absolute)).1 := by
  have first : laterStart.records[1]?.map Record.hint = some none := by decide +kernel
  have second : (laterStart.runPass 1).2.records[1]?.map Record.hint = some (some .absolute) := by
    decide +kernel
  have met : ((laterStart.runPass 1).2.encodingAt? 2 1).isSome = true := by decide +kernel
  obtain ⟨r, before, unset⟩ := Option.map_eq_some_iff.mp first
  rcases ran : laterStart.runPass 1 with ⟨ending, b⟩
  rw [ran] at second met
  obtain ⟨e', encoded'⟩ := Option.isSome_iff_exists.mp met
  rcases ran' : b.runPass 2 with ⟨ending', c⟩
  obtain ⟨_, life⟩ := widths_remembered { romSize := 16 } laterSource
  obtain ⟨_, _, passes⟩ := life laterStart .start
  obtain ⟨later, lines⟩ := passes 1 ending b ran
  obtain ⟨r', here, _, guesses, _⟩ := lines 1 r before
  rw [here] at second
  have remembered : r'.hint = some .absolute := Option.some.inj second
  obtain ⟨e, encoded, guessed⟩ := (guesses unset .absolute).mp remembered
  obtain ⟨_, _, passes'⟩ := life b later
  obtain ⟨r'', here', _, _, _, answers⟩ := (passes' 2 ending' c ran').2 1 r' here
  have answer := answers e' .absolute encoded' (hint_kept ran' here here' remembered)
  rw [remembered] at answer
  exact ⟨b, e, e', later, encoded, guessed, encoded', answer⟩

end Assembly

end Assembler65816
