import Assembler65816.Proofs.Line

/-! # Provisional values

A pass that does not know all symbols yet reads some operands as unresolved and puts a placeholder
in their place. A placeholder never breaks a line: a statement that can be read with the final
values can be read before, as long as an origin is known.
-/
namespace Assembler65816

def Value.Approximates (v v' : Value) : Prop := v = .unresolved ∨ v = v'

namespace Tracing

variable {α β γ δ : Type} {env more : Env}

def Precedes (R : α → β → Prop) (x : Tracing α) (y : Tracing β) : Prop :=
  ∀ s t b t', s.hint = t.hint → y.run t = (.ok b, t') →
    ∃ a s', x.run s = (.ok a, s') ∧ R a b ∧ s'.hint = t'.hint

def Succeeds (x : Tracing α) (y : Tracing β) : Prop :=
  ∀ s t b t', s.hint = t.hint → y.run t = (.ok b, t') → ∃ a s', x.run s = (.ok a, s')

variable {R : α → β → Prop}

theorem Precedes.pure {a : α} {b : β} (h : R a b) : Precedes R (Pure.pure a) (Pure.pure b) := by
  intro s t b t' hint ran
  cases ran
  exact ⟨a, s, rfl, h, hint⟩

theorem Precedes.bind {S : γ → δ → Prop} {x : Tracing α} {y : Tracing β} {f : α → Tracing γ}
    {g : β → Tracing δ} (h : Precedes R x y) (k : ∀ a b, R a b → Precedes S (f a) (g b)) :
    Precedes S (x >>= f) (y >>= g) := by
  intro s t d t'' hint ran
  obtain ⟨b, t', first, last⟩ := run_bind_ok ran
  obtain ⟨a, s', first', related, hint'⟩ := h s t b t' hint first
  obtain ⟨c, s'', last', related', hint''⟩ := k a b related s' t' d t'' hint' last
  exact ⟨c, s'', (run_bind_of_ok first').trans last', related', hint''⟩

theorem Precedes.bind_succeeds {x : Tracing α} {y : Tracing β} {f : α → Tracing γ}
    {g : β → Tracing δ} (h : Precedes R x y) (k : ∀ a b, R a b → Succeeds (f a) (g b)) :
    Succeeds (x >>= f) (y >>= g) := by
  intro s t d t'' hint ran
  obtain ⟨b, t', first, last⟩ := run_bind_ok ran
  obtain ⟨a, s', first', related, hint'⟩ := h s t b t' hint first
  obtain ⟨c, s'', last'⟩ := k a b related s' t' d t'' hint' last
  exact ⟨c, s'', (run_bind_of_ok first').trans last'⟩

/-- A fault of an expression would still be there with the final values. -/
theorem Precedes.eval (h : env.Extends more) (text : Text) :
    Precedes Value.Approximates (Tracing.eval env text) (Tracing.eval more text) := by
  intro s t value t' hint ran
  have kept := (eval_run_ok ran).1
  have answer := (Expression.eval_advances env text).answer
  rw [Tracing.eval_eq]
  rcases found : Expression.eval env text with (cause | name | _) | word
  · rw [found] at answer
    rw [Tracing.eval_eq, answer.2 more h] at ran
    cases ran
  · exact ⟨.unresolved, _, rfl, Or.inl rfl, hint.trans kept.symm⟩
  · exact ⟨.unresolved, _, rfl, Or.inl rfl, hint.trans kept.symm⟩
  · rw [Tracing.eval_eq, Expression.eval_of_extends h found] at ran
    cases ran
    exact ⟨.known word, s, rfl, Or.inr rfl, hint⟩

theorem Precedes.mapM {f : γ → Tracing α} {g : γ → Tracing β}
    (h : ∀ c, Precedes (fun _ _ => True) (f c) (g c)) (l : List γ) :
    Precedes (fun _ _ => True) (l.mapM f) (l.mapM g) := by
  induction l with
  | nil => exact .pure trivial
  | cons c rest ih =>
    rw [List.mapM_cons, List.mapM_cons]
    exact (h c).bind fun _ _ _ => ih.bind fun _ _ _ => .pure trivial

theorem Succeeds.of_always {x : Tracing α} (y : Tracing β)
    (h : ∀ s, ∃ a s', x.run s = (.ok a, s')) : Succeeds x y :=
  fun s _ _ _ _ _ => h s

theorem Succeeds.pure (a : α) (y : Tracing β) : Succeeds (Pure.pure a) y :=
  .of_always y fun s => ⟨a, s, rfl⟩

theorem Succeeds.throw (x : Tracing α) (cause : Fault) :
    Succeeds x (MonadExcept.throw cause : Tracing β) := by
  intro s t b t' _ ran
  cases ran

theorem Succeeds.bind_pure {x : Tracing α} {y : Tracing β} (h : Succeeds x y) (f : α → γ)
    (g : β → δ) : Succeeds (x >>= fun a => Pure.pure (f a)) (y >>= fun b => Pure.pure (g b)) := by
  intro s t d t'' hint ran
  obtain ⟨b, t', first, _⟩ := run_bind_ok ran
  obtain ⟨a, s', first'⟩ := h s t b t' hint first
  exact ⟨f a, s', run_bind_of_ok first'⟩

theorem Succeeds.after_caution {x : Tracing α} {y : Tracing β} (about : Caution)
    (h : Succeeds x y) :
    Succeeds (caution about >>= fun _ => x) (caution about >>= fun _ => y) := by
  intro s t b t' hint ran
  obtain ⟨_, t₁, first, last⟩ := run_bind_ok ran
  cases first
  exact h (s.add (.caution about)) (t.add (.caution about)) b t' hint last

theorem always_cautionIf {c : Prop} [Decidable c] (about : Caution) {f : PUnit → Tracing α}
    (h : ∀ s, ∃ a s', (f ()).run s = (.ok a, s')) (s : Trace) :
    ∃ a s', (if c then caution about >>= f else f ()).run s = (.ok a, s') := by
  split
  · exact h (s.add (.caution about))
  · exact h s

end Tracing

namespace Instruction

open Tracing

variable {env more : Env} {m : Mnemonic} {shape : Shape} {operand : Text}

theorem guessWidth?_of_opcode {width : Width} (h : (opcodeAt? m shape width).isSome = true) :
    ∃ guessed, guessWidth? m shape = some guessed ∧ (opcodeAt? m shape guessed).isSome = true := by
  unfold guessWidth?
  split
  · next absolute => exact ⟨.absolute, rfl, absolute⟩
  · cases found : Width.all.find? fun w => (opcodeAt? m shape w).isSome with
    | some guessed => exact ⟨guessed, rfl, by simpa using List.find?_some found⟩
    | none =>
      have none := List.find?_eq_none.mp found width (by cases width <;> simp [Width.all])
      exact absurd h none

/-- A width that a mnemonic has is chosen before the value is known, too. -/
theorem chooseWidth_precedes {force : Option Width} {v v' : Value} {s t t' : Trace}
    {width : Width} (approx : v.Approximates v') (hint : s.hint = t.hint)
    (chosen : (chooseWidth m shape operand force v').run t = (.ok width, t'))
    (has : (opcodeAt? m shape width).isSome = true) :
    ∃ width' s', (chooseWidth m shape operand force v).run s = (.ok width', s') ∧
      (opcodeAt? m shape width').isSome = true := by
  have seen (s : Trace) : (get : Tracing Trace).run s = (.ok s, s) := rfl
  unfold chooseWidth at chosen ⊢
  rw [run_bind_of_ok (seen t)] at chosen
  rw [run_bind_of_ok (seen s), hint]
  cases force with
  | some forced =>
    cases chosen
    exact ⟨width, s, rfl, has⟩
  | none =>
    cases remembered : t.hint with
    | some kept =>
      rw [remembered] at chosen
      cases chosen
      exact ⟨width, s, rfl, has⟩
    | none =>
      rw [remembered] at chosen
      cases v with
      | unresolved =>
        -- Without a value the width is a guess, and there is one since `width` has an opcode.
        obtain ⟨guessed, found, has'⟩ := guessWidth?_of_opcode has
        simp only [found]
        exact ⟨guessed, _, rfl, has'⟩
      | known word =>
        obtain rfl : .known word = v' := approx.resolve_left (by simp)
        dsimp only at chosen ⊢
        split at chosen
        · cases chosen
        · split at chosen
          · cases chosen
          · cases chosen
            exact ⟨width, s, rfl, has⟩

theorem encodeAddress_succeeds (h : env.Extends more) (widths : RegisterWidths) (m : Mnemonic)
    (shape : Shape) (expression operand : Text) :
    Succeeds (encodeAddress ⟨env, widths⟩ m shape expression operand)
      (encodeAddress ⟨more, widths⟩ m shape expression operand) := by
  refine (Precedes.eval h _).bind_succeeds fun v v' approx => ?_
  intro s t bytes t' hint ran
  obtain ⟨width, t₁, chosen, ran⟩ := run_bind_ok ran
  split at ran
  · cases ran
  · next op has =>
    obtain ⟨width', s', chosen', has'⟩ :=
      chooseWidth_precedes approx hint chosen (by rw [has]; rfl)
    obtain ⟨op', has'⟩ := Option.isSome_iff_exists.mp has'
    refine ⟨op' :: littleEndian (v.getD 0) width'.bytes, s', (run_bind_of_ok chosen').trans ?_⟩
    rw [has']
    rfl

theorem encodeImmediate_succeeds (h : env.Extends more) (widths : RegisterWidths) (m : Mnemonic)
    (expression operand : Text) :
    Succeeds (encodeImmediate ⟨env, widths⟩ m expression operand)
      (encodeImmediate ⟨more, widths⟩ m expression operand) := by
  unfold encodeImmediate
  split
  · exact .throw _ _
  · refine (Precedes.eval h _).bind_succeeds fun v v' _ => .of_always _ ?_
    exact always_cautionIf _ fun s => ⟨_, s, rfl⟩

theorem encodeBlockMove_succeeds (h : env.Extends more) (widths : RegisterWidths) (m : Mnemonic)
    (source destination operand : Text) :
    Succeeds (encodeBlockMove ⟨env, widths⟩ m source destination operand)
      (encodeBlockMove ⟨more, widths⟩ m source destination operand) := by
  unfold encodeBlockMove
  split
  · exact .throw _ _
  · refine (Precedes.eval h _).bind_succeeds fun v v' _ => ?_
    refine (Precedes.eval h _).bind_succeeds fun u u' _ => .of_always _ ?_
    exact always_cautionIf _ (always_cautionIf _ fun s => ⟨_, s, rfl⟩)

/-- A branch to a place that is not known yet goes nowhere, which is in reach. -/
theorem encodeBranch_succeeds (h : env.Extends more) (widths : RegisterWidths) (op : UInt8)
    (mode : Mode) (operand : Text) :
    Succeeds (encodeBranch ⟨env, widths⟩ op mode operand)
      (encodeBranch ⟨more, widths⟩ op mode operand) := by
  unfold encodeBranch
  simp only [h.address]
  split
  · exact .throw _ _
  · refine (Precedes.eval h _).bind_succeeds fun v v' approx => ?_
    rcases approx with rfl | rfl
    · refine .of_always _ fun s => ?_
      have reach : (0 : Int) < ((1 <<< (8 * mode.operandSize - 1) : Nat) : Int) := by
        rw [Nat.one_shiftLeft]
        exact Int.natCast_pos.mpr (Nat.two_pow_pos _)
      split
      · next outside =>
        simp only [Value.getD, Int.sub_self, Bool.or_eq_true, decide_eq_true_eq] at outside
        omega
      · exact ⟨_, s, rfl⟩
    · intro s t bytes t' _ ran
      split at ran
      · cases ran
      · next inside =>
        rw [if_neg inside]
        exact ⟨_, s, rfl⟩

theorem encode_succeeds (h : env.Extends more) (widths : RegisterWidths)
    (mnemonic operand : Text) :
    Succeeds (encode ⟨env, widths⟩ mnemonic operand) (encode ⟨more, widths⟩ mnemonic operand) := by
  have form (m : Mnemonic) (operand : Text) (form : Operand) :
      Succeeds (encodeOperand ⟨env, widths⟩ m operand form)
        (encodeOperand ⟨more, widths⟩ m operand form) := by
    cases form with
    | immediate expression => exact encodeImmediate_succeeds h widths m expression operand
    | address shape expression => exact encodeAddress_succeeds h widths m shape expression operand
    | blockMove source destination =>
      exact encodeBlockMove_succeeds h widths m source destination operand
    | empty | openIndirect | openIndirectLong => exact .throw _ _
  have explicit (m : Mnemonic) (operand : Text) :
      Succeeds (encodeExplicit ⟨env, widths⟩ m operand)
        (encodeExplicit ⟨more, widths⟩ m operand) := by
    unfold encodeExplicit
    split
    · exact encodeBranch_succeeds h widths _ _ operand
    · exact encodeBranch_succeeds h widths _ _ operand
    · split
      · exact .after_caution _ (form m operand _)
      · exact form m operand _
  unfold encode
  split
  · exact .throw _ _
  · unfold encodeMnemonic
    split
    · split
      · exact .pure _ _
      · exact explicit _ _
    · split
      · exact .throw _ _
      · exact explicit _ _

end Instruction

open Tracing

theorem Step.dataValues_succeeds {env more : Env} (h : env.Extends more) (size : DataSize)
    (items : List Text) :
    Succeeds (Step.dataValues env size items) (Step.dataValues more size items) := by
  have item (text : Text) : Precedes (fun _ _ => True) (Step.dataItem env text)
      (Step.dataItem more text) := by
    unfold Step.dataItem
    split
    · split
      · exact .pure trivial
      · intro s t b t' _ ran
        cases ran
    · exact (Precedes.eval h _).bind fun _ _ _ => .pure trivial
  have cautions (values : List UInt32) (s : Trace) : ∃ s',
      (values.forM fun value => do
        if size.limit < value then Tracing.caution (.dataRange value size.limit) :
          Tracing PUnit).run s = (.ok (), s') := by
    induction values generalizing s with
    | nil => exact ⟨s, rfl⟩
    | cons value rest ih =>
      obtain ⟨s₁, here⟩ : ∃ s₁, (if size.limit < value then
          Tracing.caution (.dataRange value size.limit) else pure () : Tracing PUnit).run s =
          (.ok (), s₁) := by
        split
        · exact ⟨_, rfl⟩
        · exact ⟨s, rfl⟩
      obtain ⟨s', more⟩ := ih s₁
      exact ⟨s', (run_bind_of_ok here).trans more⟩
  refine (Precedes.mapM item items).bind_succeeds fun lists _ _ => .of_always _ fun s => ?_
  obtain ⟨s', noted⟩ := cautions lists.flatten s
  exact ⟨_, s', run_bind_of_ok noted⟩

/-- A statement that can be read with the final values can be read before, if it is not an origin
that waits for a value. -/
theorem Statement.outcome_succeeds {env more : Env} (h : env.Extends more)
    {widths : RegisterWidths} {statement : Statement} {t t' : Trace} {outcome : Outcome}
    (origin : ∀ expression, statement = .origin expression →
      ∃ address, Expression.eval env expression = .ok address)
    (read : (statement.outcome more widths).run t = (.ok outcome, t')) :
    ∃ outcome' s', (statement.outcome env widths).run t = (.ok outcome', s') := by
  have ends : Succeeds (statement.outcome env widths) (statement.outcome more widths) := by
    cases statement with
    | nothing | rom | accumulatorWidth | indexWidth => exact .pure _ _
    | equate name expression =>
      exact (Precedes.eval h _).bind_succeeds fun _ _ _ => .pure _ _
    | origin expression =>
      obtain ⟨address, found⟩ := origin expression rfl
      refine .of_always _ fun s => ⟨.origin address, s, ?_⟩
      rw [Statement.outcome, Tracing.eval_eq, found]
      rfl
    | data size list =>
      simp only [Statement.outcome]
      split
      · exact .throw _ _
      · exact (Step.dataValues_succeeds h size _).bind_pure _ _
    | instruction mnemonic operand =>
      exact (Instruction.encode_succeeds h widths mnemonic operand).bind_pure _ _
    | faulty cause => exact .throw _ _
  exact ends t t outcome t' rfl read

end Assembler65816
