import Assembler65816.Proofs.Modes
import Assembler65816.Proofs.Provisional

/-! # Widths for addresses without a value

An address that has no value yet is encoded at a default width, which is remembered. An address
for which a width is remembered is encoded at that width, whatever its value. No other operand and
no failing one makes a difference to what is remembered.
-/
namespace Assembler65816

def Undetermined (env : Env) (expression : Text) : Prop :=
  Expression.eval env expression = .error .pending ∨
    ∃ name, Expression.eval env expression = .error (.missing name)

namespace Tracing

variable {α β : Type}

theorem eval_undetermined {env : Env} {expression : Text} (h : Undetermined env expression)
    (t : Trace) :
    ∃ t', (Tracing.eval env expression).run t = (.ok .unresolved, t') ∧ t'.hint = t.hint := by
  rw [Tracing.eval_eq]
  rcases h with h | ⟨name, h⟩ <;> rw [h] <;> exact ⟨_, rfl, rfl⟩

theorem undetermined_of_eval {env : Env} {expression : Text} {t t' : Trace}
    (h : (Tracing.eval env expression).run t = (.ok .unresolved, t')) :
    Undetermined env expression := by
  rw [Tracing.eval_eq] at h
  rcases reading : Expression.eval env expression with (cause | name | _) | word
  · rw [reading] at h
    cases h
  · exact Or.inr ⟨name, reading⟩
  · exact Or.inl reading
  · rw [reading] at h
    cases h

theorem fault_of_eval {env : Env} {expression : Text} {t t' : Trace} {cause : Fault}
    (h : (Tracing.eval env expression).run t = (.error cause, t')) :
    Expression.eval env expression = .error (.fault cause) := by
  rw [Tracing.eval_eq] at h
  rcases reading : Expression.eval env expression with (fault | name | _) | word
  all_goals
    rw [reading] at h
    cases h
  rfl

/-- A computation that leaves the remembered width as it is, whether it gets done or not. -/
def KeepsHint (x : Tracing α) : Prop := ∀ t, (x.run t).2.hint = t.hint

theorem KeepsHint.pure (a : α) : KeepsHint (Pure.pure a) := fun _ => rfl

theorem KeepsHint.throw (cause : Fault) : KeepsHint (MonadExcept.throw cause : Tracing α) :=
  fun _ => rfl

theorem KeepsHint.bind {x : Tracing α} {f : α → Tracing β} (hx : KeepsHint x)
    (hf : ∀ a, KeepsHint (f a)) : KeepsHint (x >>= f) := by
  intro t
  have first := hx t
  rw [run_bind]
  rcases run : x.run t with ⟨cause | a, t'⟩
  · rw [run] at first
    exact first
  · rw [run] at first
    exact (hf a t').trans first

theorem KeepsHint.eval (env : Env) (text : Text) : KeepsHint (Tracing.eval env text) := by
  intro t
  rw [Tracing.eval_eq]
  rcases Expression.eval env text with (cause | name | _) | word <;> rfl

theorem KeepsHint.cautionIf (c : Prop) [Decidable c] (about : Caution) {f : PUnit → Tracing α}
    (h : KeepsHint (f ())) :
    KeepsHint (if c then Tracing.caution about >>= f else f ()) := by
  split
  · exact KeepsHint.bind (fun _ => rfl) fun _ => h
  · exact h

theorem KeepsHint.mapM {f : α → Tracing β} (h : ∀ a, KeepsHint (f a)) (l : List α) :
    KeepsHint (l.mapM f) := by
  induction l with
  | nil => exact .pure _
  | cons a rest ih =>
    rw [List.mapM_cons]
    exact (h a).bind fun _ => ih.bind fun _ => .pure _

theorem KeepsHint.forM {f : α → Tracing PUnit} (h : ∀ a, KeepsHint (f a)) (l : List α) :
    KeepsHint (l.forM f) := by
  induction l with
  | nil => exact .pure _
  | cons a rest ih => exact (h a).bind fun _ => ih

end Tracing

namespace Instruction

open Tracing

variable {ctx : EncodeContext} {mnemonic operand expression : Text} {m : Mnemonic} {shape : Shape}
  {width : Width} {value : Value} {t : Trace}

/-- The width for an address that has no value yet: absolute if the mnemonic has the shape there,
otherwise the narrowest width at which it does. -/
structure Default (m : Mnemonic) (shape : Shape) (width : Width) : Prop where
  has : opcodeAt? m shape width ≠ none
  absolute : opcodeAt? m shape .absolute ≠ none → width = .absolute
  narrowest : opcodeAt? m shape .absolute = none →
    ∀ w : Width, opcodeAt? m shape w ≠ none → width.bytes ≤ w.bytes

theorem Default.unique {w : Width} (h : Default m shape width) (h' : Default m shape w) :
    width = w := by
  by_cases absolute : opcodeAt? m shape .absolute = none
  · have same : width.bytes = w.bytes :=
      le_antisymm (h.narrowest absolute w h'.has) (h'.narrowest absolute width h.has)
    cases width <;> cases w <;> first | rfl | cases same
  · exact (h.absolute absolute).trans (h'.absolute absolute).symm

theorem default_of_guessWidth? (h : guessWidth? m shape = some width) : Default m shape width := by
  unfold guessWidth? at h
  split at h
  · next absolute =>
    have absolute := Option.isSome_iff_ne_none.mp absolute
    cases h
    exact ⟨absolute, fun _ => rfl, fun missing => absurd missing absolute⟩
  · next absolute =>
    refine ⟨?_, ?_, ?_⟩
    · simpa [Option.isSome_iff_ne_none] using List.find?_some h
    · intro other
      exact absurd (Option.isSome_iff_ne_none.mpr other) absolute
    · intro _ w has
      exact Width.le_of_find? h Width.pairwise_all (Width.mem_all w)
        (Option.isSome_iff_ne_none.mpr has)

theorem guessWidth?_eq_some_iff : guessWidth? m shape = some width ↔ Default m shape width := by
  constructor
  · exact default_of_guessWidth?
  · intro h
    obtain ⟨w, guessed, _⟩ := guessWidth?_of_opcode (Option.isSome_iff_ne_none.mpr h.has)
    rw [(default_of_guessWidth? guessed).unique h] at guessed
    exact guessed

theorem chooseWidth_settled (m : Mnemonic) (shape : Shape) (operand : Text)
    {force : Option Width}
    (settled : force ≠ none ∨ t.hint ≠ none ∨ value ≠ .unresolved) :
    ((chooseWidth m shape operand force value).run t).2 = t := by
  unfold chooseWidth
  rw [run_bind_of_ok (Tracing.get_run t)]
  split
  · rfl
  · rfl
  · next unguessed =>
    rcases settled with forced | guessed | known
    · exact absurd rfl forced
    · exact absurd unguessed guessed
    · exact absurd rfl known
  · split
    · rfl
    · split <;> rfl

/-- A width is chosen afresh only where none is forced or remembered and the address has no
value. -/
theorem encodeAddress_settled (settled : (splitForce expression).1 ≠ none ∨ t.hint ≠ none ∨
      ¬Undetermined ctx.env (splitForce expression).2) :
    ((encodeAddress ctx m shape expression operand).run t).2.hint = t.hint := by
  unfold encodeAddress
  dsimp only
  have kept := KeepsHint.eval ctx.env (splitForce expression).2 t
  rw [run_bind]
  rcases read : (Tracing.eval ctx.env (splitForce expression).2).run t with ⟨cause | value, t₁⟩
  · rw [read] at kept
    exact kept
  · rw [read] at kept
    have settled : (splitForce expression).1 ≠ none ∨ t₁.hint ≠ none ∨ value ≠ .unresolved := by
      rw [kept]
      refine settled.imp_right (Or.imp_right ?_)
      rintro determined rfl
      exact determined (undetermined_of_eval read)
    have chosen := chooseWidth_settled m shape operand settled
    dsimp only
    rw [run_bind]
    rcases run : (chooseWidth m shape operand (splitForce expression).1 value).run t₁ with
      ⟨cause | width, t₂⟩
    · rw [run] at chosen
      exact (congrArg Trace.hint chosen).trans kept
    · rw [run] at chosen
      dsimp only
      split <;> exact (congrArg Trace.hint chosen).trans kept

theorem chooseWidth_unresolved (m : Mnemonic) (shape : Shape) (operand : Text)
    (unguessed : t.hint = none) :
    (∃ width t', Default m shape width ∧
      (chooseWidth m shape operand none .unresolved).run t = (.ok width, t') ∧
      t'.hint = some width) ∨
    ∃ cause, (chooseWidth m shape operand none .unresolved).run t = (.error cause, t) := by
  unfold chooseWidth
  rw [run_bind_of_ok (Tracing.get_run t), unguessed]
  dsimp only
  cases guessed : guessWidth? m shape with
  | none => exact Or.inr ⟨_, rfl⟩
  | some width => exact Or.inl ⟨width, _, guessWidth?_eq_some_iff.mp guessed, rfl, rfl⟩

/-- An address that has no value, with no width forced and none remembered, is encoded at the
default width, which is remembered; or there is none and the address is refused. -/
theorem encodeAddress_undetermined (m : Mnemonic) (shape : Shape) (operand : Text)
    (unforced : (splitForce expression).1 = none) (unguessed : t.hint = none)
    (undetermined : Undetermined ctx.env expression) :
    (∃ width op rest t', Default m shape width ∧ opcodeAt? m shape width = some op ∧
      (encodeAddress ctx m shape expression operand).run t = (.ok (op :: rest), t') ∧
      rest.length = width.bytes ∧ t'.hint = some width) ∨
    ∃ cause t', (encodeAddress ctx m shape expression operand).run t = (.error cause, t') ∧
      t'.hint = none := by
  obtain ⟨t₁, read, kept⟩ := eval_undetermined undetermined t
  have unguessed : t₁.hint = none := kept.trans unguessed
  unfold encodeAddress
  rw [splitForce_of_unforced unforced]
  dsimp only
  rw [run_bind_of_ok read]
  rcases chooseWidth_unresolved m shape operand unguessed with
    ⟨width, t₂, default, chosen, remembered⟩ | ⟨cause, refused⟩
  · left
    obtain ⟨op, entry⟩ := Option.ne_none_iff_exists'.mp default.has
    refine ⟨width, op, littleEndian 0 width.bytes, t₂, default, entry, ?_,
      length_littleEndian _ _, remembered⟩
    rw [run_bind_of_ok chosen, entry]
    rfl
  · right
    refine ⟨cause, t₁, ?_, unguessed⟩
    rw [run_bind, refused]

/-- A line that remembers a width is encoded at it, unless the expression is at fault. -/
theorem encodeAddress_remembered (ctx : EncodeContext) (operand : Text) {op : UInt8}
    (unforced : (splitForce expression).1 = none) (remembered : t.hint = some width)
    (entry : opcodeAt? m shape width = some op) :
    (∃ rest t', (encodeAddress ctx m shape expression operand).run t = (.ok (op :: rest), t') ∧
      rest.length = width.bytes) ∨
    ∃ cause t', (encodeAddress ctx m shape expression operand).run t = (.error cause, t') ∧
      Expression.eval ctx.env expression = .error (.fault cause) := by
  have kept := KeepsHint.eval ctx.env expression t
  unfold encodeAddress
  rw [splitForce_of_unforced unforced]
  dsimp only
  rw [run_bind]
  rcases read : (Tracing.eval ctx.env expression).run t with ⟨cause | value, t₁⟩
  · right
    exact ⟨cause, t₁, rfl, fault_of_eval read⟩
  · left
    rw [read, remembered] at kept
    have chosen : (chooseWidth m shape operand none value).run t₁ = (.ok width, t₁) := by
      unfold chooseWidth
      rw [run_bind_of_ok (Tracing.get_run t₁), kept]
      rfl
    dsimp only
    rw [run_bind_of_ok chosen, entry]
    exact ⟨littleEndian (value.getD 0) width.bytes, t₁, rfl, length_littleEndian _ _⟩

theorem encodeImmediate_keepsHint (ctx : EncodeContext) (m : Mnemonic)
    (expression operand : Text) : KeepsHint (encodeImmediate ctx m expression operand) := by
  unfold encodeImmediate
  split
  · exact .throw _
  · exact (KeepsHint.eval ctx.env _).bind fun _ => .cautionIf _ _ (.pure _)

theorem encodeBlockMove_keepsHint (ctx : EncodeContext) (m : Mnemonic)
    (source destination operand : Text) :
    KeepsHint (encodeBlockMove ctx m source destination operand) := by
  unfold encodeBlockMove
  split
  · exact .throw _
  · exact (KeepsHint.eval ctx.env _).bind fun _ => (KeepsHint.eval ctx.env _).bind fun _ =>
      .cautionIf _ _ (.cautionIf _ _ (.pure _))

theorem encodeBranch_keepsHint (ctx : EncodeContext) (op : UInt8) (mode : Mode)
    (operand : Text) : KeepsHint (encodeBranch ctx op mode operand) := by
  unfold encodeBranch
  split
  · exact .throw _
  · refine (KeepsHint.eval ctx.env _).bind fun value => ?_
    dsimp only
    split
    · exact .throw _
    · exact .pure _

theorem encodeOperand_keepsHint {form : Operand}
    (other : ∀ shape expression, form ≠ .address shape expression) :
    KeepsHint (encodeOperand ctx m operand form) := by
  cases form with
  | immediate expression => exact encodeImmediate_keepsHint ctx m expression operand
  | address shape expression => exact absurd rfl (other shape expression)
  | blockMove source destination => exact encodeBlockMove_keepsHint ctx m source destination operand
  | empty | openIndirect | openIndirectLong => exact .throw _

theorem encodeExplicit_keepsHint (explicit : m.opcode? .implied ≠ none →
      Text.sameLetters operand ['A'] = false)
    (other : ∀ shape expression, ¬Addresses m operand shape expression) :
    KeepsHint (encodeExplicit ctx m operand) := by
  unfold encodeExplicit
  split
  · exact encodeBranch_keepsHint ctx _ _ operand
  · exact encodeBranch_keepsHint ctx _ _ operand
  · next relative relativeLong =>
    have other {form : Operand} (read : Operand.ofText operand = form) (shape : Shape)
        (expression : Text) : form ≠ .address shape expression := by
      rintro rfl
      exact other shape expression ⟨read, ⟨relative, relativeLong⟩, explicit⟩
    split
    · next text read =>
      refine KeepsHint.bind (fun _ => rfl) fun _ => encodeOperand_keepsHint (other ?_)
      rw [Operand.ofText, read]
    · next direct =>
      refine encodeOperand_keepsHint (other ?_)
      unfold Operand.ofText
      split
      · next text read => exact absurd read (direct text)
      · rfl

theorem encode_keepsHint (other : ∀ m shape expression, Mnemonic.ofText? mnemonic = some m →
      ¬Addresses m (Text.trim operand) shape expression) :
    KeepsHint (encode ctx mnemonic operand) := by
  unfold encode
  split
  · exact .throw _
  · next m found =>
    have other (shape : Shape) (expression : Text) := other m shape expression found
    unfold encodeMnemonic
    split
    · split
      · exact .pure _
      · next given =>
        refine encodeExplicit_keepsHint (fun _ => ?_) other
        simp only [Bool.or_eq_true, not_or, Bool.not_eq_true] at given
        exact given.2
    · next missing =>
      split
      · exact .throw _
      · exact encodeExplicit_keepsHint (fun implied => absurd missing implied) other

end Instruction

structure Encoding where
  ctx : EncodeContext
  mnemonic : Text
  operand : Text

namespace Encoding

variable {e : Encoding} {m : Mnemonic} {shape : Shape} {expression : Text} {width : Width}
  {hint : Option Width}

/-- The bytes or the fault that encoding comes to for a line that remembers a width, with the trace
that it leaves. -/
def run (e : Encoding) (hint : Option Width) : Except Fault (List UInt8) × Trace :=
  (Instruction.encode e.ctx e.mnemonic e.operand).run { hint }

structure Addresses (e : Encoding) (m : Mnemonic) (shape : Shape) (expression : Text) : Prop where
  found : Mnemonic.ofText? e.mnemonic = some m
  address : Instruction.Addresses m (Text.trim e.operand) shape expression
  unforced : (Instruction.splitForce expression).1 = none

/-- An unforced address is encoded while it has no value, and the width is the default one. -/
def Guesses (e : Encoding) (width : Width) : Prop :=
  ∃ m shape expression, e.Addresses m shape expression ∧
    Undetermined e.ctx.env expression ∧ (∃ bytes t, e.run none = (.ok bytes, t)) ∧
    Instruction.Default m shape width

/-- The answer of encoding an address at a fixed width: the opcode for that width with as many
bytes as the width has, or the fault of the expression. -/
def AnswersAt (e : Encoding) (width : Width) (answer : Except Fault (List UInt8)) : Prop :=
  ∃ m shape expression op, e.Addresses m shape expression ∧
    Instruction.opcodeAt? m shape width = some op ∧
    ((∃ rest, answer = .ok (op :: rest) ∧ rest.length = width.bytes) ∨
      ∃ cause, answer = .error cause ∧
        Expression.eval e.ctx.env expression = .error (.fault cause))

theorem run_address (h : e.Addresses m shape expression) (hint : Option Width) :
    e.run hint = (Instruction.encodeAddress e.ctx m shape expression (Text.trim e.operand)).run
      { notes := Instruction.doubts m (Text.trim e.operand), hint } :=
  Instruction.encode_address h.found h.address { hint }

theorem run_hint_kept (e : Encoding) (hint : Option Width) (h : (e.run hint).2.hint ≠ hint) :
    hint = none ∧ ∃ m shape expression, e.Addresses m shape expression ∧
      Undetermined e.ctx.env expression := by
  by_contra settled
  refine h ?_
  by_cases address : ∃ m shape expression, Mnemonic.ofText? e.mnemonic = some m ∧
      Instruction.Addresses m (Text.trim e.operand) shape expression
  · obtain ⟨m, shape, expression, found, address⟩ := address
    unfold run
    rw [Instruction.encode_address found address]
    apply Instruction.encodeAddress_settled
    by_cases unforced : (Instruction.splitForce expression).1 = none
    · rw [Instruction.splitForce_of_unforced unforced]
      by_contra none_settled
      simp only [not_or, not_not] at none_settled
      exact settled ⟨none_settled.2.1, m, shape, expression, ⟨found, address, unforced⟩,
        none_settled.2.2⟩
    · exact Or.inl unforced
  · refine Instruction.encode_keepsHint ?_ _
    intro m shape expression found addresses
    exact address ⟨m, shape, expression, found, addresses⟩

theorem run_remembered (h : e.Addresses m shape expression)
    (has : Instruction.opcodeAt? m shape width ≠ none) :
    e.AnswersAt width (e.run (some width)).1 := by
  obtain ⟨op, entry⟩ := Option.ne_none_iff_exists'.mp has
  refine ⟨m, shape, expression, op, h, entry, ?_⟩
  rw [run_address h]
  rcases Instruction.encodeAddress_remembered e.ctx (Text.trim e.operand)
      (t := ⟨false, Instruction.doubts m (Text.trim e.operand), some width⟩) h.unforced rfl entry
    with ⟨rest, t', run, length⟩ | ⟨cause, t', run, fault⟩
  · rw [run]
    exact Or.inl ⟨rest, rfl, length⟩
  · rw [run]
    exact Or.inr ⟨cause, rfl, fault⟩

/-- The first encoding of an unforced address that has no value, width by width. -/
theorem run_undetermined (h : e.Addresses m shape expression)
    (undetermined : Undetermined e.ctx.env expression) :
    (∃ width op rest t, Instruction.Default m shape width ∧
      Instruction.opcodeAt? m shape width = some op ∧ e.run none = (.ok (op :: rest), t) ∧
      rest.length = width.bytes ∧ t.hint = some width) ∨
    ∃ cause t, e.run none = (.error cause, t) ∧ t.hint = none := by
  rw [run_address h]
  exact Instruction.encodeAddress_undetermined m shape (Text.trim e.operand) h.unforced rfl
    undetermined

theorem hint_eq_some_iff : (e.run none).2.hint = some width ↔ e.Guesses width := by
  constructor
  · intro remembered
    obtain ⟨_, m, shape, expression, address, undetermined⟩ :=
      run_hint_kept e none (by rw [remembered]; exact Option.some_ne_none width)
    rcases run_undetermined address undetermined with
      ⟨w, op, rest, t, default, _, run, _, hint⟩ | ⟨cause, t, run, hint⟩
    · rw [run, hint] at remembered
      cases remembered
      exact ⟨m, shape, expression, address, undetermined, ⟨_, t, run⟩, default⟩
    · rw [run, hint] at remembered
      cases remembered
  · rintro ⟨m, shape, expression, address, undetermined, ⟨bytes, t', encoded⟩, default⟩
    rcases run_undetermined address undetermined with
      ⟨w, op, rest, t, other, _, run, _, hint⟩ | ⟨cause, t, run, hint⟩
    · rw [run, hint, other.unique default]
    · rw [run] at encoded
      cases encoded

theorem hint_of_error {cause : Fault} {t : Trace} (h : e.run hint = (.error cause, t)) :
    t.hint = hint := by
  by_contra changed
  have changed : (e.run hint).2.hint ≠ hint := by rwa [h]
  obtain ⟨rfl, m, shape, expression, address, undetermined⟩ := run_hint_kept e hint changed
  rcases run_undetermined address undetermined with
    ⟨w, op, rest, t', _, _, run, _, _⟩ | ⟨cause', t', run, unset⟩
  · rw [run] at h
    cases h
  · rw [run] at changed
    exact changed unset

/-- The encoding that makes a line remember a width is at that width. -/
theorem Guesses.answersAt (h : e.Guesses width) : e.AnswersAt width (e.run none).1 := by
  obtain ⟨m, shape, expression, address, undetermined, ⟨bytes, t', encoded⟩, default⟩ := h
  rcases run_undetermined address undetermined with
    ⟨w, op, rest, t, other, entry, run, length, _⟩ | ⟨cause, t, run, _⟩
  · obtain rfl := other.unique default
    rw [run]
    exact ⟨m, shape, expression, op, address, entry, Or.inl ⟨rest, rfl, length⟩⟩
  · rw [run] at encoded
    cases encoded

end Encoding

end Assembler65816
