import Assembler65816.Proofs.Settled
import Assembler65816.Proofs.Table

/-! # Replaying a finished assembly

A run that is done leaves one symbol table behind. Replaying the lines with that table fixed, every
label and every equate agrees with it, no operand is left open, and the bytes of instructions and
data, stored in order into a blank window, give the image.
-/
namespace Assembler65816

structure Point where
  counter : Option UInt32 := none
  widths : RegisterWidths := {}
  deriving DecidableEq, Repr

structure Run where
  address : UInt32
  bytes : List UInt8
  deriving DecidableEq, Repr

/-- What a statement does when every symbol has its final value. A trace that asks for another
pass would mean an operand with a placeholder for its value. -/
inductive Effect (table : SymbolTable) (hint : Option Width) (p : Point) :
    Statement → Point → List Run → Prop where
  | nothing : Effect table hint p .nothing p []
  | rom : Effect table hint p .rom p []
  | equate {name expression : Text} {word : UInt32}
      (value : Expression.eval (table.env p.counter) expression = .ok word)
      (bound : table.lookup name = some (.known word)) :
      Effect table hint p (.equate name expression) p []
  | origin {expression : Text} {address : UInt32}
      (value : Expression.eval (table.env p.counter) expression = .ok address) :
      Effect table hint p (.origin expression) { p with counter := some address } []
  | accumulatorWidth (wide : Bool) :
      Effect table hint p (.accumulatorWidth wide) { p with widths.accumulator16 := wide } []
  | indexWidth (wide : Bool) :
      Effect table hint p (.indexWidth wide) { p with widths.index16 := wide } []
  | data {size : DataSize} {list : Text} {values : List UInt32} {trace : Trace} {pc : UInt32}
      {bytes : List UInt8} (placed : p.counter = some pc)
      (listed : (DataList.items list).isEmpty = false)
      (read : (Step.dataValues (table.env p.counter) size (DataList.items list)).run { hint } =
        (.ok values, trace))
      (resolved : trace.deferred = false)
      (stored : bytes = values.flatMap fun value => littleEndian value size.bytes) :
      Effect table hint p (.data size list)
        { p with counter := some (pc + UInt32.ofNat bytes.length) } [⟨pc, bytes⟩]
  | instruction {mnemonic operand : Text} {bytes : List UInt8} {trace : Trace} {pc : UInt32}
      (placed : p.counter = some pc)
      (read : (Instruction.encode ⟨table.env p.counter, p.widths⟩ mnemonic operand).run { hint } =
        (.ok bytes, trace))
      (resolved : trace.deferred = false) :
      Effect table hint p (.instruction mnemonic operand)
        { p with counter := some (pc + UInt32.ofNat bytes.length) } [⟨pc, bytes⟩]

/-- A replay of lines with a fixed table and the remembered widths, and the bytes it emits. -/
inductive Replays (table : SymbolTable) : Point → List Record → List Run → Prop where
  | nil (p : Point) : Replays table p [] []
  | cons {p p' : Point} {r : Record} {rest : List Record} {runs more : List Run}
      (labels : ∀ name ∈ (ParsedLine.ofText r.source.text).labels,
        ∃ pc, p.counter = some pc ∧ table.lookup name = some (.known pc))
      (effect : Effect table r.hint p (ParsedLine.ofText r.source.text).statement p' runs)
      (lines : Replays table p' rest more) : Replays table p (r :: rest) (runs ++ more)

def Image.storeAll (image : Image) (runs : List Run) : Except Image.StoreError Image :=
  runs.foldlM (fun image run => image.store run.address run.bytes) image

theorem Image.storeAll_append {image image' : Image} {runs more : List Run}
    (h : image.storeAll runs = .ok image') :
    image.storeAll (runs ++ more) = image'.storeAll more := by
  unfold Image.storeAll at h ⊢
  rw [List.foldlM_append, h]
  rfl

def Cursor.point (p : Cursor) : Point := ⟨p.counter, p.widths⟩

def Outcome.runs (counter : Option UInt32) : Outcome → List Run
  | .bytes run => counter.toList.map (⟨·, run⟩)
  | _ => []

theorem Settles.effect {config : Config} {table : SymbolTable} {hint : Option Width}
    {statement : Statement} {p p' : Cursor} {outcome : Outcome} {trace : Trace}
    (read : (statement.outcome (table.env p.counter) p.widths).run { hint } = (.ok outcome, trace))
    (quiet : trace.deferred = false)
    (bound : ∀ name expression value, outcome = .binding name expression value →
      ∃ word, value = .known word ∧ table.lookup name = some (.known word))
    (moves : Moves config p outcome p') :
    Effect table hint p.point statement p'.point (outcome.runs p.counter) := by
  cases statement with
  | nothing =>
    cases read
    cases moves
    exact .nothing
  | rom =>
    cases read
    cases moves
    exact .rom
  | accumulatorWidth wide =>
    cases read
    cases moves
    exact .accumulatorWidth wide
  | indexWidth wide =>
    cases read
    cases moves
    exact .indexWidth wide
  | equate name expression =>
    obtain ⟨value, t₁, hv, hr⟩ := run_bind_ok read
    cases hr
    cases moves
    obtain ⟨word, rfl, found⟩ := bound _ _ _ rfl
    exact .equate ((Tracing.eval_run_ok hv).2 word rfl) found
  | origin expression =>
    obtain ⟨value, t₁, hv, hr⟩ := run_bind_ok read
    cases value with
    | unresolved => cases hr
    | known address =>
      cases hr
      have value := (Tracing.eval_run_ok hv).2 address rfl
      cases moves with
      | firstOrigin => exact .origin value
      | origin => exact .origin value
  | data size list =>
    simp only [Statement.outcome] at read
    split at read
    · cases read
    · next listed =>
      obtain ⟨values, t₁, hv, hr⟩ := run_bind_ok read
      cases hr
      cases moves with
      | bytes run pc start placed located =>
        rw [placed]
        exact .data placed (by simpa using listed) hv quiet rfl
  | instruction mnemonic operand =>
    obtain ⟨run, t₁, hv, hr⟩ := run_bind_ok read
    cases hr
    cases moves with
    | bytes run pc start placed located =>
      rw [placed]
      exact .instruction placed hv quiet
  | faulty cause => cases read

/-- Seen from the base that the pass ends with, a move stores the bytes of its outcome. -/
theorem Moves.stores {config : Config} {p p' : Cursor} {outcome : Outcome} {base : UInt32}
    (h : Moves config p outcome p') (window : p.Window config)
    (last : p'.counter ≠ none → base = p'.image.base) :
    Image.storeAll { p.image with base } (outcome.runs p.counter) =
      .ok { p'.image with base } := by
  have unchanged := h.image_eq window
  cases h with
  | nothing | binding | widths | origin | firstOrigin =>
    rw [unchanged (by simp) base]
    rfl
  | bytes run pc start placed located =>
    have same : base = p.image.base := last (by simp)
    subst same
    rw [placed]
    change (p.image.store pc run >>= pure) = _
    rw [Image.store, located]
    rfl

theorem SettledRun.replays {config : Config} {table : SymbolTable} {records : List Record}
    {p p' : Cursor} {warnings : List Diagnostic}
    (h : SettledRun config table records p p' warnings) (window : p.Window config) :
    ∃ runs, Replays table p.point records runs ∧
      Image.storeAll { p.image with base := p'.image.base } runs = .ok p'.image := by
  induction h with
  | nil p => exact ⟨[], .nil _, rfl⟩
  | cons line run ih =>
    obtain ⟨labels, read, quiet, bound, moves⟩ := line
    obtain ⟨more, lines, stored⟩ := ih (moves.window window)
    have here := moves.stores window fun set => run.base_eq set
    refine ⟨_, .cons labels (Settles.effect read quiet bound moves) lines, ?_⟩
    rw [Image.storeAll_append here, stored]

/-- A run that is done is consistent with its last table: every symbol has a value, the names are
those that the lines define, and a replay with the table fixed gives the image. -/
theorem Assembly.run_done_replays {config : Config} {lines : List SourceLine} {a : Assembly}
    (h : (Assembly.new config lines).run = (.done, a)) :
    (∀ s ∈ a.work.symbols.entries, ∃ word, s.value = .known word) ∧
    (∀ name, name ∈ a.work.symbols.entries.map Symbol.name ↔ name ∈ definedNames lines) ∧
    a.records.map Record.source = lines ∧
    (∀ base, config.romBase = some base → a.work.image.base = base) ∧
    ∃ runs, Replays a.work.symbols {} a.records runs ∧
      (Image.new a.work.image.base config.romSize config.fill).storeAll runs =
        .ok a.work.image := by
  have finished := finished_of_run_done h
  obtain ⟨image, window, last⟩ := finished.last
  obtain ⟨runs, replays, stored⟩ := last.replays window
  refine ⟨fun s hs => SymbolTable.known_of_unresolvedCount finished.resolved hs, fun name => ?_,
    finished.sources, finished.window.fixed, runs, replays, ?_⟩
  · rw [← SymbolTable.lookup_ne_none_iff]
    exact finished.names name
  · have blank : Image.new a.work.image.base config.romSize config.fill =
        { image with base := a.work.image.base } := by
      rw [Image.new, ← window.blank rfl, ← window.fill]
    rw [blank]
    exact stored

def forwardSource : List SourceLine :=
  SourceLine.ofText "forward.asm"
    (" org $80\nstart: lda #size\n jmp end\nsize equ end-start\nend: nop\n".toList)

theorem Assembly.run_done_replays_forward :
    ∃ a, (Assembly.new { romSize := 16 } forwardSource).run = (.done, a) ∧
      ∃ runs, Replays a.work.symbols {} a.records runs ∧
        (Image.new a.work.image.base 16 0).storeAll runs = .ok a.work.image := by
  have done : (Assembly.new { romSize := 16 } forwardSource).run.1 = .done := by decide +kernel
  rcases run : (Assembly.new { romSize := 16 } forwardSource).run with ⟨ending, a⟩
  rw [run] at done
  obtain rfl : ending = .done := done
  obtain ⟨_, _, _, _, replay⟩ := Assembly.run_done_replays run
  exact ⟨a, rfl, replay⟩

end Assembler65816
