import Assembler65816.Proofs.Replay
import Mathlib.Data.List.Forall2
import Mathlib.Data.Nat.Digits.Defs

/-! # Values that are cut to fit

An immediate operand, a block move and a data item keep their values or leave a caution for each
value that they cut. The address of an unknown symbol gets a width in an early pass, and that width
stays: a value that turns out to be wider is cut to it, with no caution.
-/
namespace Assembler65816

def ofLittleEndian (bytes : List UInt8) : Nat := Nat.ofDigits 256 (bytes.map UInt8.toNat)

theorem ofLittleEndian_littleEndian (word : UInt32) (count : Nat) :
    ofLittleEndian (littleEndian word count) = word.toNat % 256 ^ count := by
  induction count generalizing word with
  | zero => simp [littleEndian, ofLittleEndian, Nat.mod_one]
  | succ count ih =>
    have high : (word >>> 8).toNat = word.toNat / 256 := by
      simp [UInt32.toNat_shiftRight, Nat.shiftRight_eq_div_pow]
    have step : ofLittleEndian (littleEndian word (count + 1)) =
        word.toNat % 256 + 256 * ofLittleEndian (littleEndian (word >>> 8) count) := by
      simp [littleEndian, ofLittleEndian, Nat.ofDigits_cons]
    rw [step, ih, high, Nat.pow_succ', Nat.mod_mul]

theorem ofLittleEndian_of_lt {word : UInt32} {count : Nat} (h : word.toNat < 256 ^ count) :
    ofLittleEndian (littleEndian word count) = word.toNat := by
  rw [ofLittleEndian_littleEndian, Nat.mod_eq_of_lt h]

def Caution.cut? : Caution → Option UInt32
  | .wideImmediate value _ | .bankRange value | .dataRange value _ => some value
  | .doubtfulIndirect _ _ | .guessedWidth _ => none

def Told (reported : Caution → Prop) (value : UInt32) (kept : Nat) : Prop :=
  kept = value.toNat ∨ ∃ about, about.cut? = some value ∧ reported about

theorem told_of_limit {reported : Caution → Prop} {value : UInt32} (limit : UInt32) (count : Nat)
    (size : limit.toNat + 1 = 256 ^ count)
    (h : limit < value → ∃ about, about.cut? = some value ∧ reported about) :
    Told reported value (ofLittleEndian (littleEndian value count)) := by
  by_cases large : limit < value
  · exact Or.inr (h large)
  · have fits : value.toNat ≤ limit.toNat := UInt32.le_iff_toNat_le.mp (UInt32.not_lt.mp large)
    exact Or.inl (ofLittleEndian_of_lt (by omega))

namespace Operand

/-- The form in which an operand is encoded. A bracket that closes no indirect operand belongs to
the expression. -/
def ofText (t : Text) : Operand :=
  match classify t with
  | .openIndirect text => classifyDirect text
  | form => form

def expressions : Operand → List Text
  | .immediate expression | .address _ expression => [expression]
  | .blockMove source destination => [destination, source]
  | .empty | .openIndirect _ | .openIndirectLong _ => []

def stored : Operand → List UInt8 → List Nat
  | .blockMove _ _, bytes => bytes.map UInt8.toNat
  | _, bytes => [ofLittleEndian bytes]

def isForced : Operand → Bool
  | .address _ expression => (Instruction.splitForce expression).1.isSome
  | _ => false

def CutBy (form : Operand) (hint : Option Width) (value : UInt32) : Prop :=
  ∃ shape expression width, form = .address shape expression ∧ hint = some width ∧
    256 ^ width.bytes ≤ value.toNat

end Operand

namespace Instruction

/-- An instruction that stores the known values of an operand: neither implied nor a branch, and
with no width forced. -/
structure Carries (env : Env) (m : Mnemonic) (operand : Text) (values : List UInt32) : Prop where
  explicit : m.opcode? .implied ≠ none → operand ≠ [] ∧ Text.sameLetters operand ['A'] = false
  straight : m.opcode? .relative = none ∧ m.opcode? .relativeLong = none
  unforced : (Operand.ofText operand).isForced = false
  known : (Operand.ofText operand).expressions.mapM (Expression.eval env) = .ok values

variable {env : Env} {widths : RegisterWidths} {m : Mnemonic} {operand expression : Text}
  {t t' : Trace} {bytes : List UInt8}

theorem eval_run_known {word : UInt32} (h : Expression.eval env expression = .ok word)
    (t : Trace) : (Tracing.eval env expression).run t = (.ok (.known word), t) := by
  rw [Tracing.eval_eq, h]
  rfl

theorem cautions_add (t : Trace) (about : Caution) :
    (t.add (.caution about)).cautions = t.cautions ++ [about] := by
  simp [Trace.add, Trace.cautions]

def Accounts (form : Operand) (values : List UInt32) (t t' : Trace) (bytes : List UInt8) : Prop :=
  ∃ op rest added, bytes = op :: rest ∧ t'.cautions = t.cautions ++ added ∧
    List.Forall₂ (fun value kept => Told (· ∈ added) value kept ∨ form.CutBy t.hint value)
      values (form.stored rest)

theorem encodeImmediate_accounts {word : UInt32}
    (value : Expression.eval env expression = .ok word)
    (h : (encodeImmediate ⟨env, widths⟩ m expression operand).run t = (.ok bytes, t')) :
    Accounts (.immediate expression) [word] t t' bytes := by
  unfold encodeImmediate at h
  split at h
  · cases h
  · next op _ =>
    rw [run_bind_of_ok (eval_run_known value t)] at h
    dsimp only [Value.getD] at h
    generalize isWide widths m = wide at h
    have size : (if wide = true then 0xFFFF else 0xFF : UInt32).toNat + 1 =
        256 ^ (if wide = true then 2 else 1) := by cases wide <;> rfl
    by_cases large : (if wide = true then 0xFFFF else 0xFF : UInt32) < word
    · rw [if_pos large] at h
      cases h
      refine ⟨op, _, [_], rfl, cautions_add t _, .cons (Or.inl (told_of_limit _ _ size ?_)) .nil⟩
      exact fun _ => ⟨.wideImmediate word wide, rfl, by simp⟩
    · rw [if_neg large] at h
      cases h
      refine ⟨op, _, [], rfl, by simp, .cons (Or.inl (told_of_limit _ _ size ?_)) .nil⟩
      exact fun large' => absurd large' large

theorem told_bank {reported : Caution → Prop} {bank : UInt32}
    (h : 0xFF < bank → reported (.bankRange bank)) : Told reported bank bank.toUInt8.toNat := by
  have told := told_of_limit 0xFF 1 rfl fun large => ⟨_, rfl, h large⟩
  simpa [littleEndian, ofLittleEndian] using told

theorem encodeBlockMove_accounts {source destination : Text} {bank bank' : UInt32}
    (value : Expression.eval env source = .ok bank)
    (value' : Expression.eval env destination = .ok bank')
    (h : (encodeBlockMove ⟨env, widths⟩ m source destination operand).run t = (.ok bytes, t')) :
    Accounts (.blockMove source destination) [bank', bank] t t' bytes := by
  unfold encodeBlockMove at h
  split at h
  · cases h
  · next op _ =>
    rw [run_bind_of_ok (eval_run_known value t), run_bind_of_ok (eval_run_known value' t)] at h
    dsimp only [Value.getD] at h
    have ran : ∃ added, bytes = [op, bank'.toUInt8, bank.toUInt8] ∧
        t'.cautions = t.cautions ++ added ∧
        (0xFF < bank → .bankRange bank ∈ added) ∧ (0xFF < bank' → .bankRange bank' ∈ added) := by
      by_cases large : (0xFF : UInt32) < bank <;> by_cases large' : (0xFF : UInt32) < bank' <;>
        simp only [large, large', if_true, if_false] at h <;> cases h
      · exact ⟨[.bankRange bank, .bankRange bank'], rfl, by simp [Trace.add, Trace.cautions], by simp⟩
      · exact ⟨[.bankRange bank], rfl, cautions_add t _, by simp [large']⟩
      · exact ⟨[.bankRange bank'], rfl, cautions_add t _, by simp [large]⟩
      · exact ⟨[], rfl, by simp, by simp [large, large']⟩
    -- The source is read first and stored last.
    obtain ⟨added, rfl, grown, first, second⟩ := ran
    exact ⟨op, _, added, rfl, grown,
      .cons (Or.inl (told_bank second)) (.cons (Or.inl (told_bank first)) .nil)⟩

theorem lt_of_ofValue? {word : UInt32} {least : Width} (h : Width.ofValue? word = some least) :
    word.toNat < 256 ^ least.bytes := by
  unfold Width.ofValue? at h
  split_ifs at h with direct absolute long <;> cases h
  · exact Nat.lt_succ_of_le (UInt32.le_iff_toNat_le.mp direct)
  · exact Nat.lt_succ_of_le (UInt32.le_iff_toNat_le.mp absolute)
  · exact Nat.lt_succ_of_le (UInt32.le_iff_toNat_le.mp long)

theorem bytes_le_of_promoteWidth? {shape : Shape} {least width : Width}
    (h : promoteWidth? m shape least = some width) : least.bytes ≤ width.bytes := by
  have mem := List.mem_of_find?_eq_some h
  simpa using (List.mem_filter.mp mem).2

theorem splitForce_of_unforced (h : (splitForce expression).1 = none) :
    splitForce expression = (none, expression) := by
  cases expression with
  | nil => rfl
  | cons c rest =>
    cases found : Width.ofForce? c with
    | none => simp [splitForce, found]
    | some width => simp [splitForce, found] at h

theorem chooseWidth_trace {shape : Shape} {force : Option Width} {word : UInt32} {width : Width}
    (h : (chooseWidth m shape operand force (.known word)).run t = (.ok width, t')) : t' = t := by
  obtain ⟨seen, t₁, hg, h⟩ := run_bind_ok h
  cases hg
  split at h
  · cases h
    rfl
  · cases h
    rfl
  · contradiction
  · split at h
    · cases h
    · split at h
      · cases h
      · cases h
        rfl

theorem encodeAddress_accounts {shape : Shape} {word : UInt32}
    (unforced : (splitForce expression).1 = none)
    (value : Expression.eval env expression = .ok word)
    (h : (encodeAddress ⟨env, widths⟩ m shape expression operand).run t = (.ok bytes, t')) :
    Accounts (.address shape expression) [word] t t' bytes := by
  unfold encodeAddress at h
  rw [splitForce_of_unforced unforced] at h
  rw [run_bind_of_ok (eval_run_known value t)] at h
  obtain ⟨width, t₁, chosen, h⟩ := run_bind_ok h
  split at h
  · cases h
  · next op _ =>
    cases h
    obtain rfl := chooseWidth_trace chosen
    refine ⟨op, _, [], rfl, by simp, .cons ?_ .nil⟩
    by_cases fits : word.toNat < 256 ^ width.bytes
    · exact Or.inl (Or.inl (ofLittleEndian_of_lt fits))
    · -- A width that goes by the magnitude is wide enough, which leaves the remembered one.
      rcases chooseWidth_cases chosen with ⟨forced, _⟩ | ⟨_, _, hint | ⟨_, unknown⟩⟩ |
        ⟨_, _, _, known, least, same, narrow, promoted⟩
      · cases forced
      · exact Or.inr ⟨shape, expression, width, rfl, hint, not_lt.mp fits⟩
      · cases unknown
      · cases same
        refine absurd (lt_of_lt_of_le (lt_of_ofValue? narrow) ?_) fits
        exact Nat.pow_le_pow_right (by decide) (bytes_le_of_promoteWidth? promoted)

theorem mapM_eval_one {word : List UInt32}
    (h : [expression].mapM (Expression.eval env) = .ok word) :
    ∃ value, word = [value] ∧ Expression.eval env expression = .ok value := by
  rw [List.mapM_cons] at h
  cases found : Expression.eval env expression with
  | error => rw [found] at h; cases h
  | ok value =>
    rw [found] at h
    cases h
    exact ⟨value, rfl, rfl⟩

theorem encodeOperand_accounts {form : Operand} {values : List UInt32}
    (unforced : form.isForced = false)
    (known : form.expressions.mapM (Expression.eval env) = .ok values)
    (h : (encodeOperand ⟨env, widths⟩ m operand form).run t = (.ok bytes, t')) :
    Accounts form values t t' bytes := by
  cases form with
  | empty | openIndirect | openIndirectLong => cases h
  | immediate expression =>
    obtain ⟨word, rfl, value⟩ := mapM_eval_one known
    exact encodeImmediate_accounts value h
  | address shape expression =>
    obtain ⟨word, rfl, value⟩ := mapM_eval_one known
    exact encodeAddress_accounts (by simpa [Operand.isForced] using unforced) value h
  | blockMove source destination =>
    simp only [Operand.expressions, List.mapM_cons, List.mapM_nil] at known
    cases target : Expression.eval env destination with
    | error => rw [target] at known; cases known
    | ok bank' =>
      cases origin : Expression.eval env source with
      | error => rw [target, origin] at known; cases known
      | ok bank =>
        rw [target, origin] at known
        cases known
        exact encodeBlockMove_accounts origin target h

theorem Accounts.after_caution {form : Operand} {values : List UInt32} (about : Caution)
    (h : Accounts form values (t.add (.caution about)) t' bytes) :
    Accounts form values t t' bytes := by
  obtain ⟨op, rest, added, rfl, grown, told⟩ := h
  refine ⟨op, rest, about :: added, rfl, ?_, told.imp fun value kept h => ?_⟩
  · rw [grown, cautions_add, List.append_assoc]
    rfl
  · rcases h with (exact_ | ⟨reported, cut, mem⟩) | cut
    · exact Or.inl (Or.inl exact_)
    · exact Or.inl (Or.inr ⟨reported, cut, List.mem_cons_of_mem _ mem⟩)
    · exact Or.inr cut

theorem encodeExplicit_accounts {values : List UInt32} (carries : Carries env m operand values)
    (h : (encodeExplicit ⟨env, widths⟩ m operand).run t = (.ok bytes, t')) :
    Accounts (Operand.ofText operand) values t t' bytes := by
  obtain ⟨_, ⟨relative, relativeLong⟩, unforced, known⟩ := carries
  unfold encodeExplicit at h
  simp only [relative, relativeLong] at h
  split at h
  · next text found =>
    have form : Operand.ofText operand = Operand.classifyDirect text := by
      rw [Operand.ofText, found]
    obtain ⟨_, t₁, cautioned, h⟩ := run_bind_ok h
    cases cautioned
    rw [form] at unforced known ⊢
    exact (encodeOperand_accounts unforced known h).after_caution
  · next other =>
    have form : Operand.ofText operand = Operand.classify operand := by
      unfold Operand.ofText
      split
      · next text found => exact absurd found (other text)
      · rfl
    rw [form] at unforced known ⊢
    exact encodeOperand_accounts unforced known h

/-- An operand of known values keeps each of them, or tells that it is cut, or is an address with
a remembered width. -/
theorem encode_accounts {mnemonic : Text} {values : List UInt32}
    (found : Mnemonic.ofText? mnemonic = some m)
    (carries : Carries env m (Text.trim operand) values)
    (h : (encode ⟨env, widths⟩ mnemonic operand).run t = (.ok bytes, t')) :
    Accounts (Operand.ofText (Text.trim operand)) values t t' bytes := by
  unfold encode at h
  rw [found] at h
  dsimp only [encodeMnemonic] at h
  split at h
  · next op implied =>
    obtain ⟨some, other⟩ := carries.explicit (by simp [implied])
    rw [if_neg (by simp [some, other])] at h
    exact encodeExplicit_accounts carries h
  · split at h
    · cases h
    · exact encodeExplicit_accounts carries h

end Instruction

namespace Tracing

variable {α β : Type}

def Unworried (x : Tracing α) : Prop := ∀ t, (x.run t).2.cautions = t.cautions

theorem Unworried.eval (env : Env) (text : Text) : Unworried (Tracing.eval env text) := by
  intro t
  rw [Tracing.eval_eq]
  rcases Expression.eval env text with (cause | name | _) | word
  · rfl
  · change (t.add (.missed name)).cautions = _
    simp [Trace.add, Trace.cautions]
  · rfl
  · rfl

theorem Unworried.bind {x : Tracing α} {f : α → Tracing β} (hx : Unworried x)
    (hf : ∀ a, Unworried (f a)) : Unworried (x >>= f) := by
  intro t
  have first := hx t
  rw [run_bind]
  rcases ran : x.run t with ⟨cause | a, t'⟩
  · rw [ran] at first
    exact first
  · rw [ran] at first
    exact (hf a t').trans first

theorem Unworried.mapM {f : α → Tracing β} (h : ∀ a, Unworried (f a)) (l : List α) :
    Unworried (l.mapM f) := by
  induction l with
  | nil => exact fun _ => rfl
  | cons a rest ih =>
    rw [List.mapM_cons]
    exact (h a).bind fun _ => ih.bind fun _ _ => rfl

end Tracing

namespace Step

open Tracing

theorem dataItem_unworried (env : Env) (item : Text) : Unworried (dataItem env item) := by
  unfold dataItem
  split
  · split
    · exact fun _ => rfl
    · exact fun _ => rfl
  · exact (Unworried.eval env _).bind fun _ _ => rfl

theorem cautions_of_limit (limit : UInt32) {values : List UInt32} {t t' : Trace}
    (h : (values.forM fun value => do
      if limit < value then Tracing.caution (.dataRange value limit) : Tracing PUnit).run t =
      (.ok (), t')) :
    t'.cautions = t.cautions ++ (values.filter (limit < ·)).map (.dataRange · limit) := by
  induction values generalizing t with
  | nil =>
    cases h
    simp
  | cons value rest ih =>
    obtain ⟨_, t₁, here, h⟩ := run_bind_ok h
    dsimp only at here
    rw [ih h]
    by_cases large : limit < value
    · rw [if_pos large] at here
      cases here
      simp [large, Trace.add, Trace.cautions]
    · rw [if_neg large] at here
      cases here
      simp [large]

theorem dataValues_cautions {env : Env} {size : DataSize} {items : List Text}
    {values : List UInt32} {t t' : Trace}
    (h : (dataValues env size items).run t = (.ok values, t')) :
    t'.cautions =
      t.cautions ++ (values.filter (size.limit < ·)).map (.dataRange · size.limit) := by
  obtain ⟨lists, t₁, read, h⟩ := run_bind_ok h
  obtain ⟨_, t₂, limits, h⟩ := run_bind_ok h
  cases h
  -- Only the limits caution, and they come after all items are read.
  have quiet := Unworried.mapM (dataItem_unworried env) items t
  rw [read] at quiet
  rw [cautions_of_limit size.limit limits, quiet]

theorem dataValues_told {env : Env} {size : DataSize} {items : List Text} {values : List UInt32}
    {t t' : Trace} (h : (dataValues env size items).run t = (.ok values, t')) :
    ∃ added, t'.cautions = t.cautions ++ added ∧ ∀ value ∈ values,
      Told (· ∈ added) value (ofLittleEndian (littleEndian value size.bytes)) := by
  refine ⟨_, dataValues_cautions h, fun value mem => ?_⟩
  refine told_of_limit size.limit size.bytes ?_ fun large => ?_
  · cases size <;> rfl
  · exact ⟨.dataRange value size.limit, rfl, List.mem_map_of_mem (by simpa using ⟨mem, large⟩)⟩

end Step

def Statement.Tells (env : Env) (hint : Option Width) (reported : Caution → Prop)
    (runs : List Run) : Statement → Prop
  | .instruction mnemonic operand => ∀ m values, Mnemonic.ofText? mnemonic = some m →
      Instruction.Carries env m (Text.trim operand) values →
      ∃ pc op rest, runs = [⟨pc, op :: rest⟩] ∧
        List.Forall₂ (fun value kept => Told reported value kept ∨
          (Operand.ofText (Text.trim operand)).CutBy hint value)
          values ((Operand.ofText (Text.trim operand)).stored rest)
  | .data size list => ∃ pc values trace,
      (Step.dataValues env size (DataList.items list)).run { hint } = (.ok values, trace) ∧
      runs = [⟨pc, values.flatMap fun value => littleEndian value size.bytes⟩] ∧
      ∀ value ∈ values, Told reported value (ofLittleEndian (littleEndian value size.bytes))
  | _ => True

/-- A replay in which every value is kept or reported among the warnings, or falls to a width
remembered for its line. -/
inductive Audited (table : SymbolTable) (warnings : List Diagnostic) :
    Point → List Record → List Run → Prop where
  | nil (p : Point) : Audited table warnings p [] []
  | cons {p p' : Point} {r : Record} {rest : List Record} {runs more : List Run}
      (effect : Effect table r.hint p (ParsedLine.ofText r.source.text).statement p' runs)
      (tells : (ParsedLine.ofText r.source.text).statement.Tells (table.env p.counter) r.hint
        (fun about => r.source.diagnostic .warning about.problem ∈ warnings) runs)
      (lines : Audited table warnings p' rest more) :
      Audited table warnings p (r :: rest) (runs ++ more)

theorem Told.imp {reported reported' : Caution → Prop} {value : UInt32} {kept : Nat}
    (h : Told reported value kept) (more : ∀ about, reported about → reported' about) :
    Told reported' value kept :=
  Or.imp_right (fun ⟨about, cut, told⟩ => ⟨about, cut, more about told⟩) h

theorem Effect.tells {table : SymbolTable} {hint : Option Width} {p p' : Point}
    {statement : Statement} {runs : List Run} {outcome : Outcome} {trace : Trace}
    {reported : Caution → Prop}
    (effect : Effect table hint p statement p' runs)
    (read : (statement.outcome (table.env p.counter) p.widths).run { hint } = (.ok outcome, trace))
    (noted : ∀ about ∈ trace.cautions, reported about) :
    statement.Tells (table.env p.counter) hint reported runs := by
  cases effect with
  | nothing | rom | equate | origin | accumulatorWidth | indexWidth => trivial
  | @data size list values trace' pc bytes placed listed values_read resolved stored =>
    simp only [Statement.outcome, listed, Bool.false_eq_true, if_false] at read
    rw [run_bind_of_ok values_read] at read
    cases read
    obtain ⟨added, grown, told⟩ := Step.dataValues_told values_read
    refine ⟨pc, values, _, values_read, by rw [stored], fun value mem => ?_⟩
    exact (told value mem).imp fun about mem => noted about (by simp [grown, mem])
  | @instruction mnemonic operand bytes trace' pc placed encoded resolved =>
    intro m values found carries
    simp only [Statement.outcome] at read
    rw [run_bind_of_ok encoded] at read
    cases read
    obtain ⟨op, rest, added, rfl, grown, told⟩ := Instruction.encode_accounts found carries encoded
    refine ⟨pc, op, rest, rfl, told.imp fun value kept h => h.imp_left fun told => ?_⟩
    exact told.imp fun about mem => noted about (by simp [grown, mem])

theorem SettledRun.audited {config : Config} {table : SymbolTable} {records : List Record}
    {p p' : Cursor} {warnings noted : List Diagnostic}
    (h : SettledRun config table records p p' warnings) (window : p.Window config)
    (within : ∀ w ∈ warnings, w ∈ noted) :
    ∃ runs, Audited table noted p.point records runs ∧
      Image.storeAll { p.image with base := p'.image.base } runs = .ok p'.image := by
  induction h with
  | nil p => exact ⟨[], .nil _, rfl⟩
  | cons line run ih =>
    obtain @⟨outcome, trace, _, labels, read, quiet, bound, moves⟩ := line
    obtain ⟨more, lines, stored⟩ :=
      ih (moves.window window) fun w mem => within w (List.mem_append_right _ mem)
    have effect := Settles.effect read quiet bound moves
    have here := moves.stores window fun set => run.base_eq set
    refine ⟨_, .cons effect (effect.tells read fun about mem => ?_) lines, ?_⟩
    · exact within _ (List.mem_append_left _ (List.mem_map_of_mem mem))
    · rw [Image.storeAll_append here, stored]

theorem Assembly.Finished.audited {config : Config} {lines : List SourceLine} {a : Assembly}
    (h : a.Finished config lines) :
    ∃ runs, Audited a.work.symbols a.work.warnings {} a.records runs ∧
      (Image.new a.work.image.base config.romSize config.fill).storeAll runs =
        .ok a.work.image := by
  obtain ⟨image, window, last⟩ := h.last
  obtain ⟨runs, audited, stored⟩ := last.audited window fun _ mem => mem
  have blank : Image.new a.work.image.base config.romSize config.fill =
      { image with base := a.work.image.base } := by
    rw [Image.new, ← window.blank rfl, ← window.fill]
  exact ⟨runs, audited, by rw [blank]; exact stored⟩

/-- Values that are cut to fit are reported, by every encoder, for every item of a data list and in
every finished assembly. The one exception is an address whose width was remembered for its line
before the address was known. -/
theorem truncation_told (ctx : EncodeContext) (mnemonic operand : Text) (size : DataSize)
    (items : List Text) (t : Trace) (config : Config) (lines : List SourceLine) :
    (∀ (m : Mnemonic) (values : List UInt32) (bytes : List UInt8) (t' : Trace),
      Mnemonic.ofText? mnemonic = some m →
      Instruction.Carries ctx.env m (Text.trim operand) values →
      (Instruction.encode ctx mnemonic operand).run t = (.ok bytes, t') →
      Instruction.Accounts (Operand.ofText (Text.trim operand)) values t t' bytes) ∧
    (∀ (values : List UInt32) (t' : Trace),
      (Step.dataValues ctx.env size items).run t = (.ok values, t') →
      ∃ added, t'.cautions = t.cautions ++ added ∧ ∀ value ∈ values,
        Told (· ∈ added) value (ofLittleEndian (littleEndian value size.bytes))) ∧
    ∀ a : Assembly, (Assembly.new config lines).run = (.done, a) →
      ∃ runs, Audited a.work.symbols a.work.warnings {} a.records runs ∧
        (Image.new a.work.image.base config.romSize config.fill).storeAll runs =
          .ok a.work.image := by
  refine ⟨?_, ?_, ?_⟩
  · intro m values bytes t' found carries h
    exact Instruction.encode_accounts found carries h
  · intro values t' h
    exact Step.dataValues_told h
  · intro a done
    exact (Assembly.finished_of_run_done done).audited

/-- An address that is wider than the width guessed for it in the first pass. -/
def cutSource : List SourceLine :=
  SourceLine.ofText "cut.asm" " org $80\n lda far\nfar equ $123456\n".toList

theorem truncation_untold :
    ∃ a, (Assembly.new { romSize := 16 } cutSource).run = (.done, a) ∧
      a.work.warnings = [] ∧ a.records.map Record.hint = [none, some .absolute, none] ∧
      Instruction.Carries (a.work.symbols.env (some 0x80)) .LDA "far".toList [0x123456] ∧
      a.work.image.bytes.toList.take 3 = 0xAD :: littleEndian 0x3456 2 := by
  have known : (Operand.ofText "far".toList).expressions.mapM (Expression.eval
      ((Assembly.new { romSize := 16 } cutSource).run.2.work.symbols.env (some 0x80))) =
      .ok [0x123456] := by decide +kernel
  have facts : (Assembly.new { romSize := 16 } cutSource).run.1 = .done ∧
      (Assembly.new { romSize := 16 } cutSource).run.2.work.warnings = [] ∧
      (Assembly.new { romSize := 16 } cutSource).run.2.records.map Record.hint =
        [none, some .absolute, none] ∧
      (Assembly.new { romSize := 16 } cutSource).run.2.work.image.bytes.toList.take 3 =
        0xAD :: littleEndian 0x3456 2 := by decide +kernel
  rcases run : (Assembly.new { romSize := 16 } cutSource).run with ⟨ending, a⟩
  rw [run] at known facts
  obtain ⟨done, quiet, hints, bytes⟩ := facts
  obtain rfl : ending = .done := done
  exact ⟨a, rfl, quiet, hints, ⟨by decide, by decide, by decide, known⟩, bytes⟩

end Assembler65816
