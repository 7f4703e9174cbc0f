import Assembler65816.Proofs.ByteExpressions
import Assembler65816.Proofs.ByteLines
import Assembler65816.Proofs.ByteOperands
import Assembler65816.Proofs.Line

/-! # Statements by offsets

The expressions of a statement are evaluated, its operand or data list is taken apart and its bytes
are put together with every check on the way. Computations with checks may come to no answer at any
of them. On every statement below 2 GiB they come to one: they are the computations that run.
-/
namespace Assembler65816.Bytewise

open Text Instruction

section Check

variable {m : Type → Type} [Monad m] {α : Type}

def check (answer : Option α) : OptionT m α := OptionT.mk (pure answer)

@[simp] theorem check_some (a : α) : (check (some a) : OptionT m α) = pure a := rfl

end Check

def evalTraced? (env : Env) (text : Text) : OptionT Tracing Value := do
  Tracing.ofReading (← check (eval? env text))

@[simp] theorem evalTraced?_eq (env : Env) (text : Text) :
    evalTraced? env text = liftM (Tracing.eval env text) := by
  rw [evalTraced?, eval?_eq, check_some, pure_bind, Tracing.eval_eq]

def littleEndian? (word : UInt32) (count : Nat) : Option (List UInt8) :=
  if count ≤ 4 then some (littleEndian word count) else none

theorem littleEndian?_width (word : UInt32) (width : Width) :
    littleEndian? word width.bytes = some (littleEndian word width.bytes) := by
  cases width <;> rfl

theorem littleEndian?_size (word : UInt32) (size : DataSize) :
    littleEndian? word size.bytes = some (littleEndian word size.bytes) := by
  cases size <;> rfl

def splitForce? (expression : Text) : Option (Option Width × Text) :=
  match expression.head?.bind Width.ofForce? with
  | some width => do return (some width, ← from? expression 1)
  | none => some (none, expression)

theorem splitForce?_eq (expression : Text) :
    splitForce? expression = some (splitForce expression) := by
  cases expression with
  | nil => rfl
  | cons c rest =>
    rw [splitForce?, splitForce, List.head?_cons, Option.bind_some]
    cases force : Width.ofForce? c with
    | none => rfl
    | some width =>
      have narrow : isWide c = false := by
        unfold Width.ofForce? at force
        split at force
        · rfl
        · rfl
        · rfl
        · cases force
      simp only [from?_one narrow]
      rfl

def encodeAddress? (ctx : EncodeContext) (m : Mnemonic) (shape : Shape)
    (expression operand : Text) : OptionT Tracing (List UInt8) := do
  let (force, expression) ← check (splitForce? expression)
  let value ← evalTraced? ctx.env expression
  let width ← chooseWidth m shape operand force value
  match opcodeAt? m shape width with
  | none => (throw (.addressingMode m.name operand) : Tracing (List UInt8))
  | some op => return op :: (← check (littleEndian? (value.getD 0) width.bytes))

theorem encodeAddress?_eq (ctx : EncodeContext) (m : Mnemonic) (shape : Shape)
    (expression operand : Text) :
    encodeAddress? ctx m shape expression operand =
      liftM (encodeAddress ctx m shape expression operand) := by
  rw [encodeAddress?, encodeAddress, splitForce?_eq]
  simp only [check_some, pure_bind, evalTraced?_eq, liftM_bind, littleEndian?_width]
  apply bind_congr
  intro value
  apply bind_congr
  intro width
  cases opcodeAt? m shape width <;> rfl

def encodeImmediate? (ctx : EncodeContext) (m : Mnemonic) (expression operand : Text) :
    OptionT Tracing (List UInt8) :=
  match m.opcode? .immediate with
  | none => (throw (.addressingMode m.name operand) : Tracing (List UInt8))
  | some op => do
    let word := (← evalTraced? ctx.env expression).getD 0
    let wide := Instruction.isWide ctx.widths m
    (do
      if (if wide then 0xFFFF else 0xFF) < word then Tracing.caution (.wideImmediate word wide)
      pure (op :: littleEndian word (if wide then 2 else 1)) : Tracing (List UInt8))

theorem encodeImmediate?_eq (ctx : EncodeContext) (m : Mnemonic) (expression operand : Text) :
    encodeImmediate? ctx m expression operand =
      liftM (encodeImmediate ctx m expression operand) := by
  rw [encodeImmediate?, encodeImmediate]
  cases m.opcode? .immediate with
  | none => rfl
  | some op => simp only [evalTraced?_eq, liftM_bind]

def encodeBlockMove? (ctx : EncodeContext) (m : Mnemonic) (source destination operand : Text) :
    OptionT Tracing (List UInt8) :=
  match m.opcode? .blockMove with
  | none => (throw (.addressingMode m.name operand) : Tracing (List UInt8))
  | some op => do
    let sourceBank := (← evalTraced? ctx.env source).getD 0
    let destinationBank := (← evalTraced? ctx.env destination).getD 0
    (do
      if 0xFF < sourceBank then Tracing.caution (.bankRange sourceBank)
      if 0xFF < destinationBank then Tracing.caution (.bankRange destinationBank)
      pure [op, destinationBank.toUInt8, sourceBank.toUInt8] : Tracing (List UInt8))

theorem encodeBlockMove?_eq (ctx : EncodeContext) (m : Mnemonic)
    (source destination operand : Text) :
    encodeBlockMove? ctx m source destination operand =
      liftM (encodeBlockMove ctx m source destination operand) := by
  rw [encodeBlockMove?, encodeBlockMove]
  cases m.opcode? .blockMove with
  | none => rfl
  | some op => simp only [evalTraced?_eq, liftM_bind]

def encodeBranch? (ctx : EncodeContext) (op : UInt8) (mode : Mode) (operand : Text) :
    OptionT Tracing (List UInt8) :=
  match ctx.env.address with
  | none => (throw .instructionBeforeOrigin : Tracing (List UInt8))
  | some pc => do
    let size := mode.operandSize
    let source := pc + UInt32.ofNat (1 + size)
    let target := (← evalTraced? ctx.env operand).getD source
    let offset : Int := target.toNat - source.toNat
    let reach : Int := (1 <<< (8 * size - 1) : Nat)
    (if offset < -reach || reach ≤ offset then throw (.branchRange offset source)
      else pure (op :: littleEndian (target - source) size) : Tracing (List UInt8))

theorem encodeBranch?_eq (ctx : EncodeContext) (op : UInt8) (mode : Mode) (operand : Text) :
    encodeBranch? ctx op mode operand = liftM (encodeBranch ctx op mode operand) := by
  rw [encodeBranch?, encodeBranch]
  cases ctx.env.address with
  | none => rfl
  | some pc => simp only [evalTraced?_eq, liftM_bind]

def encodeOperand? (ctx : EncodeContext) (m : Mnemonic) (operand : Text) :
    Operand → OptionT Tracing (List UInt8)
  | .immediate expression => encodeImmediate? ctx m expression operand
  | .address shape expression => encodeAddress? ctx m shape expression operand
  | .blockMove source destination => encodeBlockMove? ctx m source destination operand
  | _ => (throw (.addressingMode m.name operand) : Tracing (List UInt8))

theorem encodeOperand?_eq (ctx : EncodeContext) (m : Mnemonic) (operand : Text) (form : Operand) :
    encodeOperand? ctx m operand form = liftM (encodeOperand ctx m operand form) := by
  cases form with
  | immediate expression => exact encodeImmediate?_eq ctx m expression operand
  | address shape expression => exact encodeAddress?_eq ctx m shape expression operand
  | blockMove source destination => exact encodeBlockMove?_eq ctx m source destination operand
  | empty | openIndirect | openIndirectLong => rfl

def encodeExplicit? (ctx : EncodeContext) (m : Mnemonic) (operand : Text) :
    OptionT Tracing (List UInt8) :=
  match m.opcode? .relative, m.opcode? .relativeLong with
  | some op, _ => encodeBranch? ctx op .relative operand
  | none, some op => encodeBranch? ctx op .relativeLong operand
  | none, none => do
    match ← check (classify? operand) with
    | .openIndirect text =>
      Tracing.caution (.doubtfulIndirect m.name text)
      encodeOperand? ctx m operand (← check (classifyDirect? text))
    | form => encodeOperand? ctx m operand form

theorem encodeExplicit?_eq (ctx : EncodeContext) (m : Mnemonic) {operand : Text}
    (short : size operand < 2 ^ 31) :
    encodeExplicit? ctx m operand = liftM (encodeExplicit ctx m operand) := by
  rw [encodeExplicit?, encodeExplicit, classify?_eq short]
  cases m.opcode? .relative with
  | some op => exact encodeBranch?_eq ctx op .relative operand
  | none =>
    cases m.opcode? .relativeLong with
    | some op => exact encodeBranch?_eq ctx op .relativeLong operand
    | none =>
      simp only [check_some, pure_bind]
      cases form : Operand.classify operand with
      | openIndirect text =>
        obtain rfl := eq_trim_of_openIndirect form
        have short' := Nat.lt_of_le_of_lt (size_le_of_sublist (trim_sublist operand)) short
        simp only [classifyDirect?_eq short', check_some, pure_bind, encodeOperand?_eq, liftM_bind]
      | empty | immediate | address | blockMove | openIndirectLong => exact encodeOperand?_eq ctx m operand _

def encodeMnemonic? (ctx : EncodeContext) (m : Mnemonic) (operand : Text) :
    OptionT Tracing (List UInt8) :=
  match m.opcode? .implied with
  | some op =>
    if operand.isEmpty || sameLetters operand ['A'] then pure [op]
    else encodeExplicit? ctx m operand
  | none =>
    if operand.isEmpty then (throw (.addressingMode m.name operand) : Tracing (List UInt8))
    else encodeExplicit? ctx m operand

def encode? (ctx : EncodeContext) (mnemonic operand : Text) : OptionT Tracing (List UInt8) :=
  match Mnemonic.ofText? mnemonic with
  | none => (throw (.unknownInstruction mnemonic) : Tracing (List UInt8))
  | some m => encodeMnemonic? ctx m (trim operand)

theorem encode?_eq (ctx : EncodeContext) (mnemonic : Text) {operand : Text}
    (short : size operand < 2 ^ 31) :
    encode? ctx mnemonic operand = liftM (encode ctx mnemonic operand) := by
  have short' := Nat.lt_of_le_of_lt (size_le_of_sublist (trim_sublist operand)) short
  rw [encode?, encode]
  cases Mnemonic.ofText? mnemonic with
  | none => rfl
  | some m =>
    simp only [encodeMnemonic?, encodeMnemonic]
    cases m.opcode? .implied with
    | some op =>
      simp only
      split
      · rfl
      · exact encodeExplicit?_eq ctx m short'
    | none =>
      simp only
      split
      · rfl
      · exact encodeExplicit?_eq ctx m short'

def dataItem? (env : Env) (item : Text) : OptionT Tracing (List UInt32) :=
  match item with
  | '"' :: rest =>
    match dropLast? '"' rest with
    | some body => do return (← check (decode? body)).map Char.val
    | none => (throw (.openString item) : Tracing (List UInt32))
  | _ => do return [(← evalTraced? env item).getD 0]

theorem dataItem?_eq (env : Env) (item : Text) :
    dataItem? env item = liftM (Step.dataItem env item) := by
  by_cases quoted : ∃ rest, item = '"' :: rest
  · obtain ⟨rest, rfl⟩ := quoted
    simp only [dataItem?, Step.dataItem]
    cases dropLast? '"' rest with
    | none => rfl
    | some body =>
      simp only [decode?_eq]
      rfl
  · have plain : dataItem? env item = (do return [(← evalTraced? env item).getD 0]) := by
      unfold dataItem?
      split
      · exact absurd ⟨_, rfl⟩ quoted
      · rfl
    have plain' : Step.dataItem env item = (do return [(← Tracing.eval env item).getD 0]) := by
      unfold Step.dataItem
      split
      · exact absurd ⟨_, rfl⟩ quoted
      · rfl
    rw [plain, plain', evalTraced?_eq, liftM_bind]
    rfl

theorem mapM_lift {α β : Type} {f? : α → OptionT Tracing β} {f : α → Tracing β}
    (h : ∀ a, f? a = liftM (f a)) (list : List α) :
    list.mapM f? = (liftM (list.mapM f) : OptionT Tracing (List β)) := by
  induction list with
  | nil => rfl
  | cons a rest ih =>
    rw [List.mapM_cons, List.mapM_cons, h, ih]
    simp only [liftM_bind, liftM_pure]

def dataValues? (env : Env) (size : DataSize) (items : List Text) :
    OptionT Tracing (List UInt32) := do
  let values := (← items.mapM (dataItem? env)).flatten
  (do
    values.forM fun value => do
      if size.limit < value then Tracing.caution (.dataRange value size.limit)
    return values : Tracing (List UInt32))

theorem dataValues?_eq (env : Env) (size : DataSize) (items : List Text) :
    dataValues? env size items = liftM (Step.dataValues env size items) := by
  rw [dataValues?, Step.dataValues, mapM_lift (dataItem?_eq env)]
  simp only [liftM_bind]

def dataBytes? (size : DataSize) (values : List UInt32) : OptionT Tracing (List UInt8) := do
  return (← values.mapM fun value => check (littleEndian? value size.bytes)).flatten

theorem dataBytes?_eq (size : DataSize) (values : List UInt32) :
    dataBytes? size values = pure (values.flatMap fun value => littleEndian value size.bytes) := by
  simp only [dataBytes?, littleEndian?_size, check_some, List.mapM_pure, pure_bind, List.flatMap]

def outcome? (env : Env) (widths : RegisterWidths) : Statement → OptionT Tracing Outcome
  | .nothing | .rom => pure .nothing
  | .equate name expression => do return .binding name expression (← evalTraced? env expression)
  | .origin expression => do
    match ← evalTraced? env expression with
    | .unresolved => (throw (.unknownOrigin expression) : Tracing Outcome)
    | .known address => pure (.origin address)
  | .accumulatorWidth wide => pure (.widths { widths with accumulator16 := wide })
  | .indexWidth wide => pure (.widths { widths with index16 := wide })
  | .data size list => do
    let items ← check (dataItems? list)
    if items.isEmpty then (throw .noData : Tracing Outcome)
    else return .bytes (← dataBytes? size (← dataValues? env size items))
  | .instruction mnemonic operand => do
    return .bytes (← encode? ⟨env, widths⟩ mnemonic operand)
  | .faulty cause => (throw cause : Tracing Outcome)

def argument : Statement → Text
  | .equate _ expression | .origin expression => expression
  | .data _ list => list
  | .instruction _ operand => operand
  | _ => []

theorem outcome?_eq (env : Env) (widths : RegisterWidths) {statement : Statement}
    (short : size (argument statement) < 2 ^ 31) :
    outcome? env widths statement = liftM (statement.outcome env widths) := by
  cases statement with
  | nothing | rom | accumulatorWidth | indexWidth | faulty => rfl
  | equate name expression =>
    simp only [outcome?, Statement.outcome, evalTraced?_eq, liftM_bind]
    rfl
  | origin expression =>
    simp only [outcome?, Statement.outcome, evalTraced?_eq, liftM_bind]
    apply bind_congr
    intro value
    cases value <;> rfl
  | data size list =>
    simp only [outcome?, Statement.outcome, dataItems?_eq, check_some, pure_bind]
    by_cases empty : (DataList.items list).isEmpty = true
    · rw [if_pos empty, if_pos empty]
    · rw [if_neg empty, if_neg empty, dataValues?_eq]
      simp only [dataBytes?_eq, pure_bind, liftM_bind]
      rfl
  | instruction mnemonic operand =>
    have short : size operand < 2 ^ 31 := short
    rw [outcome?, Statement.outcome, encode?_eq _ mnemonic short, liftM_bind]
    rfl

/-- Runs a computation with checks for the line at hand and takes over its trace. -/
def traced? {α : Type} (config : Config) (place : SourceLine) (body : OptionT Tracing α) :
    OptionT Step α :=
  OptionT.mk (Step.traced config place body.run)

theorem traced?_lift {α : Type} (config : Config) (place : SourceLine) (body : Tracing α) :
    traced? config place (liftM body) = liftM (Step.traced config place body) := by
  apply OptionT.ext
  change Step.traced config place (some <$> body) = some <$> Step.traced config place body
  apply ExceptT.ext
  funext w
  rw [Step.traced_run, map_eq_pure_bind, map_eq_pure_bind, run_bind, run_bind, Step.traced_run]
  rcases body.run { hint := w.hint } with ⟨cause | value, trace⟩ <;> rfl

end Assembler65816.Bytewise
