import Assembler65816.Expression.Traced
import Assembler65816.Proofs.Knowledge

/-! # Evaluation and reading

The evaluator with signals comes to the reading of an expression, and what it leaves behind is told
by the obstacle that the reading ended at.
-/
namespace Assembler65816.Tracing

open Expression

variable {α β : Type}

/-- What a step leaves behind whose answer is known as a whole. -/
def answer : Except Obstacle α → OptionT Tracing α
  | .ok word => pure word
  | .error (.fault cause) => throwThe Fault cause
  | .error (.missing name) => do
    miss name
    failure
  | .error .pending => do
    defer
    failure

theorem settle_answer (r : Reading) : settle (answer r) = ofReading r := by
  rcases r with (cause | name | _) | word <;> rfl

def reading : Except Fault Value × Trace → Reading
  | (.error cause, _) => .error (.fault cause)
  | (.ok (.known word), _) => .ok word
  | (.ok .unresolved, trace) =>
    match trace.missed with
    | name :: _ => .error (.missing name)
    | [] => .error .pending

theorem reading_ofReading (r : Reading) : reading ((ofReading r).run {}) = r := by
  rcases r with (cause | name | _) | word <;> rfl

theorem ofReading_injective {r r' : Reading} (h : ofReading r = ofReading r') :
    r = r' := by
  rw [← reading_ofReading r, h, reading_ofReading]

theorem answer_bind (x : Except Obstacle α) (f : α → Except Obstacle β) :
    answer (x >>= f) = answer x >>= fun a => answer (f a) := by
  rcases x with (cause | name | _) | a <;> rfl

theorem answer_map (x : Except Obstacle α) (f : α → β) :
    answer (x.map f) = answer x >>= fun a => pure (f a) := by
  rcases x with (cause | name | _) | a <;> rfl

theorem answer_foldlM {step : β → α → Except Obstacle β} {step' : β → α → OptionT Tracing β}
    (same : ∀ b a, step' b a = answer (step b a)) (list : List α) (start : β) :
    list.foldlM step' start = answer (list.foldlM step start) := by
  induction list generalizing start with
  | nil => rfl
  | cons a rest ih =>
    rw [List.foldlM_cons, List.foldlM_cons, answer_bind, same]
    congr 1
    funext b
    exact ih b

/-- A group without a value has signalled inside, so the signal where it is used changes nothing. -/
theorem force_ofReading (r : Reading) :
    (OptionT.lift (ofReading r) >>= force) = answer r := by
  rcases r with (cause | name | _) | word <;> rfl

def IsPlain (x : Except Obstacle α) : Prop :=
  ∀ obstacle, x = .error obstacle → ∃ cause, obstacle = .fault cause

theorem IsPlain.eq_answer {x : Except Obstacle α} (h : IsPlain x) : plain x = answer x := by
  rcases x with obstacle | a
  · obtain ⟨cause, rfl⟩ := h obstacle rfl
    rfl
  · rfl

theorem IsPlain.of_ok (a : α) : IsPlain (.ok a) := nofun

theorem IsPlain.of_fault (cause : Fault) : IsPlain (.error (.fault cause) : Except Obstacle α) := by
  intro obstacle failed
  cases failed
  exact ⟨cause, rfl⟩

theorem number_isPlain (radix : Nat) (digits text : Text) :
    IsPlain (Atom.number radix digits text) := by
  unfold Atom.number
  split
  · exact .of_ok _
  · exact .of_fault _

theorem literal_isPlain (mark : Char) (rest text : Text) :
    IsPlain (Atom.literal mark rest text) := by
  unfold Atom.literal
  split
  · exact .of_fault _
  · split
    · exact .of_ok _
    · exact .of_fault _

theorem counter_isPlain (env : Env) (text : Text) : IsPlain (Atom.counter env text) := by
  unfold Atom.counter
  split
  · exact .of_ok _
  · exact .of_fault _

theorem body_isPlain (env : Env) (text : Text) {body : Text} (h : isSymbolName body = false) :
    IsPlain (Atom.body env text body) := by
  cases body with
  | nil => exact .of_fault _
  | cons c rest =>
    simp only [Atom.body]
    split_ifs with _ _ _ _ _ _ symbol
    · exact number_isPlain 10 _ text
    · exact counter_isPlain env text
    · exact number_isPlain 16 rest text
    · exact number_isPlain 2 rest text
    · exact number_isPlain 8 rest text
    · exact literal_isPlain c rest text
    · rw [h] at symbol
      cases symbol
    · exact .of_fault _

theorem force_atomBody (env : Env) (text body : Text) :
    (OptionT.lift (atomBody env text body) >>= force) = answer (Atom.body env text body) := by
  rw [atomBody]
  split
  · next name =>
    rw [Atom.body_symbolName name, symbol, Atom.symbol]
    rcases env.lookup body with _ | (word | _) <;> rfl
  · next name =>
    rw [(body_isPlain env text (by simpa using name)).eq_answer, settle_answer, force_ofReading]

theorem force_map (x : Tracing Value) (f : UInt32 → UInt32) :
    (OptionT.lift (Value.map f <$> x) >>= force) =
      (OptionT.lift x >>= force) >>= fun word => pure (f word) := by
  have lifted : OptionT.lift (Value.map f <$> x) =
      OptionT.lift x >>= fun value => OptionT.lift (pure (value.map f)) := by
    rw [map_eq_pure_bind]
    exact monadLift_bind (n := OptionT Tracing) x _
  rw [lifted, bind_assoc, bind_assoc]
  congr 1
  funext value
  cases value <;> rfl

theorem force_atom (env : Env) (text : Text) :
    (OptionT.lift (atom env text) >>= force) = answer (Atom.read env text) := by
  unfold atom Atom.read
  cases Text.trim text with
  | nil => rfl
  | cons c rest =>
    cases found : Selector.ofChar? c with
    | none => simp only [found, force_atomBody]
    | some selector => simp only [found, force_map, force_atomBody, answer_map]

section Chain

variable {env : Env} {read : Form → Text → Tracing Value} {read' : Form → Text → Reading}

theorem combine_isPlain (s : Chain.State) (word : Option UInt32) : IsPlain (s.combine word) := by
  unfold Chain.State.combine
  split
  · exact .of_ok _
  · split
    · exact .of_ok _
    · split
      · exact .of_ok _
      · exact .of_fault _

theorem closeGroup_isPlain (body : Text) (word : UInt32) (s : Chain.State) :
    IsPlain (s.closeGroup body word) := by
  unfold Chain.State.closeGroup
  split
  · exact .of_ok _
  · split
    · exact .of_ok _
    · exact .of_fault _
  · exact .of_fault _

theorem operand_eq (s : Chain.State) : operand env s = answer (s.operand env) := by
  unfold operand Chain.State.operand
  cases s.group with
  | none =>
    cases s.term with
    | nil => rfl
    | cons c rest =>
      dsimp only
      rw [answer_map, ← force_atom, bind_assoc]
      rfl
  | some word => cases s.term <;> rfl

theorem flush_eq (next : Option Operator) (s : Chain.State) :
    flush env next s = answer (s.flush env next) := by
  rw [flush, Chain.State.flush, answer_bind, operand_eq]
  congr 1
  funext word
  rw [(combine_isPlain s word).eq_answer, answer_bind]
  rfl

theorem group_eq {form : Form} {text : Text} (same : read form text = ofReading (read' form text))
    (body : Text) (s : Chain.State) :
    (OptionT.lift (read form text) >>= fun value => force value >>= fun word =>
      plain (s.closeGroup body word)) =
      answer (read' form text >>= fun word => s.closeGroup body word) := by
  rw [← bind_assoc, same, force_ofReading, answer_bind]
  congr 1
  funext word
  exact (closeGroup_isPlain body word s).eq_answer

theorem step_eq (same : ∀ form text, read form text = ofReading (read' form text)) (body : Text)
    (s : Chain.State) (item : Chain.Item) :
    step env read body s item = answer (s.step env read' body item) := by
  cases item with
  | operator op => exact flush_eq (some op) s
  | piece text => rfl
  | parens inside => exact group_eq (same .enclosed inside) body s
  | braces inside => exact group_eq (same .polish inside) body s
  | fault cause => rfl

theorem chain_eq (same : ∀ form text, read form text = ofReading (read' form text))
    (body : Text) : chain env read body = answer (Chain.eval env read' body) := by
  rw [chain, Chain.eval, answer_bind, answer_foldlM (step_eq same body)]
  congr 1
  funext last
  rw [answer_bind, flush_eq]
  rfl

end Chain

section Polish

variable {read : Form → Text → Tracing Value} {read' : Form → Text → Reading}

theorem operate_isPlain (whole : Text) (op : Operator) (stack : List UInt32) :
    IsPlain (Polish.operate whole op stack) := by
  unfold Polish.operate
  split
  · split
    · exact .of_ok _
    · exact .of_fault _
  · exact .of_fault _

theorem result_isPlain (whole : Text) (stack : List UInt32) :
    IsPlain (Polish.result whole stack) := by
  unfold Polish.result
  split
  · exact .of_fault _
  · exact .of_ok _
  · exact .of_fault _

theorem polishOperand_eq (same : ∀ form text, read form text = ofReading (read' form text))
    (token : Text) : polishOperand read token = ofReading (Polish.operand read' token) := by
  unfold polishOperand Polish.operand
  split_ifs <;> exact same _ _

theorem polishStep_eq (same : ∀ form text, read form text = ofReading (read' form text))
    (whole : Text) (stack : List UInt32) (token : Text) :
    polishStep read whole stack token = answer (Polish.step read' whole stack token) := by
  unfold polishStep Polish.step
  cases Operator.ofText? token with
  | some op => exact (operate_isPlain whole op stack).eq_answer
  | none =>
    dsimp only
    rw [answer_map, ← force_ofReading, ← polishOperand_eq same, bind_assoc]
    rfl

theorem polish_eq (same : ∀ form text, read form text = ofReading (read' form text))
    (whole : Text) : polish read whole = answer (Polish.eval read' whole) := by
  unfold polish Polish.eval
  cases Polish.tokens whole with
  | error cause => rfl
  | ok tokens =>
    dsimp only
    rw [answer_bind, answer_foldlM (polishStep_eq same whole)]
    congr 1
    funext stack
    exact (result_isPlain whole stack).eq_answer

end Polish

theorem settle_force (value : Value) : settle (force value) = ofReading (valueOf value) := by
  cases value <;> rfl

theorem evalWithin_eq (env : Env) (depth : Nat) (form : Form) (text : Text) :
    evalWithin env depth form text = ofReading (Expression.evalWithin env depth form text) := by
  induction depth generalizing form text with
  | zero => rfl
  | succ depth ih =>
    cases form with
    | polish => rw [evalWithin, polish_eq ih, settle_answer, Expression.evalWithin]
    | chain =>
      rw [evalWithin, Expression.evalWithin]
      cases env.lookup (Text.trim text) with
      | some value => exact settle_force value
      | none =>
        dsimp only
        rw [chain_eq ih, settle_answer]
    | enclosed =>
      rw [evalWithin, Expression.evalWithin]
      cases env.lookup (Text.trim text) with
      | some value => exact settle_force value
      | none =>
        cases enclosedBody? (Text.trim text) with
        | some body =>
          dsimp only
          rw [chain_eq ih, settle_answer]
        | none => rfl

/-- The evaluator with signals answers what the text is read as, and leaves behind what the obstacle
in its way calls for. -/
theorem evalForm_eq (env : Env) (form : Form) (text : Text) :
    evalForm env form text = ofReading (Expression.evalForm env form text) :=
  evalWithin_eq env _ form text

theorem eval_eq (env : Env) (text : Text) :
    eval env text = ofReading (Expression.eval env text) := evalForm_eq env .chain text

end Assembler65816.Tracing
