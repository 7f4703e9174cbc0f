import Assembler65816.Proofs.Evaluation
import Mathlib.Data.List.Forall2
import Mathlib.Data.List.Induction

/-! # Groups as trees

The tokens between braces are run on a stack. At every moment the stack holds the values of trees
whose tokens, in postorder, are the tokens read so far. A group has a value exactly if its tokens
are those of one tree with a value; else it fails where the tokens stop to be those of trees.
-/
namespace Assembler65816.Expression.Polish

open Grammar (sign compute)

variable {env : Env}

structure Leaf (env : Env) where
  text : Text
  word : UInt32
  text_ne_nil : text ≠ []
  solid : Solid .outside text
  not_operator : Operator.ofText? text = none
  value : Expression.eval env text = .ok word

def Leaf.ofAtom (named : ∀ m, env.lookup m ≠ none → isSymbolName m = true) (a : Grammar.Atom)
    (word : UInt32) (h : a.meaning env = .ok word) : Leaf env where
  text := a.text
  word := word
  text_ne_nil := a.text_ne_nil
  solid := a.solid_text
  not_operator := a.ofText?_text
  value := (a.eval_text fun m present => head_isNameStart (named m present)).trans h

inductive Token (env : Env) where
  | operator (op : Operator)
  | leaf (a : Leaf env)

def Token.text : Token env → Text
  | .operator op => sign op
  | .leaf a => a.text

inductive Spaced : List Text → Text → Prop where
  | nil {blanks : Text} (blank : ∀ c ∈ blanks, isAsciiBlank c = true) : Spaced [] blanks
  | cons {blanks token rest : Text} {tokens : List Text}
      (blank : ∀ c ∈ blanks, isAsciiBlank c = true) (apart : Boundary rest)
      (more : Spaced tokens rest) : Spaced (token :: tokens) (blanks ++ (token ++ rest))

theorem Token.solid_text (token : Token env) : Solid .outside token.text := by
  cases token with
  | operator op => exact Grammar.solid_sign op
  | leaf a => exact a.solid

theorem Token.text_ne_nil (token : Token env) : token.text ≠ [] := by
  cases token with
  | operator op => cases op <;> exact List.cons_ne_nil _ _
  | leaf a => exact a.text_ne_nil

theorem tokensFrom_blanks {whole blanks : Text} (blank : ∀ c ∈ blanks, isAsciiBlank c = true)
    (t : Text) : tokensFrom whole (.skip 0) (blanks ++ t) = tokensFrom whole (.skip 0) t := by
  induction blanks with
  | nil => rfl
  | cons c blanks ih =>
    rw [List.cons_append, tokensFrom, if_pos (blank c (by simp))]
    exact ih fun d mem => blank d (by simp [mem])

theorem tokensFrom_spaced {whole t : Text} {tokens : List (Token env)}
    (h : Spaced (tokens.map Token.text) t) :
    tokensFrom whole (.skip 0) t = .ok (tokens.map Token.text) := by
  induction tokens generalizing t with
  | nil =>
    cases h with
    | nil blank =>
      have ends : tokensFrom whole (.skip 0) (t ++ []) = _ := tokensFrom_blanks blank []
      rw [List.append_nil] at ends
      exact ends
  | cons token tokens ih =>
    cases h with
    | cons blank apart more =>
      rw [tokensFrom_blanks blank, tokensFrom_solid token.solid_text token.text_ne_nil apart,
        ih more]
      rfl

inductive Tree (env : Env) where
  | leaf (a : Leaf env)
  | node (op : Operator) (left right : Tree env)

namespace Tree

def postorder : Tree env → List (Token env)
  | .leaf a => [.leaf a]
  | .node op left right => left.postorder ++ (right.postorder ++ [.operator op])

def value : Tree env → Reading
  | .leaf a => .ok a.word
  | .node op left right => do
    let a ← left.value
    let b ← right.value
    compute op a b

def Defined (t : Tree env) : Prop := ∃ word, t.value = .ok word

end Tree

/-- The tokens of trees on a stack; the tree on top was written last. -/
def written : List (Tree env) → List (Token env)
  | [] => []
  | top :: below => written below ++ top.postorder

def run (whole : Text) (tokens : List (Token env)) (stack : List UInt32) :
    Except Obstacle (List UInt32) :=
  (tokens.map Token.text).foldlM (step (evalForm env) whole) stack

variable {whole : Text} {tokens : List (Token env)}

theorem run_append (first later : List (Token env)) (stack : List UInt32) :
    run whole (first ++ later) stack = run whole first stack >>= run whole later := by
  rw [run, List.map_append, List.foldlM_append]
  rfl

theorem run_leaf (a : Leaf env) (stack : List UInt32) :
    run whole [.leaf a] stack = .ok (a.word :: stack) := by
  have read : evalForm env .chain a.text = .ok a.word := a.value
  change [a.text].foldlM _ stack = _
  rw [Grammar.step_operand a.not_operator, Grammar.operand_of_solid _ a.solid, read]
  rfl

theorem run_operator (op : Operator) (a b : UInt32) (stack : List UInt32) :
    run whole [(.operator op : Token env)] (b :: a :: stack) =
      (compute op a b).map (· :: stack) :=
  Grammar.step_sign (evalForm env) whole op a b stack

theorem run_operator_starved (op : Operator) {stack : List UInt32} (few : stack.length < 2) :
    run whole [(.operator op : Token env)] stack =
      .error (.fault (.missingValue (Text.trim whole))) := by
  have found : Operator.ofText? (sign op) = some op := by cases op <;> rfl
  change [sign op].foldlM _ stack = _
  rw [List.foldlM_cons, step, found]
  obtain _ | ⟨a, _ | ⟨b, below⟩⟩ := stack
  · rfl
  · rfl
  · simp only [List.length_cons] at few
    omega

theorem run_postorder {t : Tree env} {word : UInt32} (h : t.value = .ok word)
    (stack : List UInt32) : run whole t.postorder stack = .ok (word :: stack) := by
  induction t generalizing word stack with
  | leaf a =>
    cases h
    exact run_leaf a stack
  | node op left right ihl ihr =>
    rw [Tree.value] at h
    cases hl : left.value with
    | error => rw [hl] at h; cases h
    | ok a =>
      cases hr : right.value with
      | error => rw [hl, hr] at h; cases h
      | ok b =>
        rw [hl, hr] at h
        change compute op a b = .ok word at h
        rw [Tree.postorder, run_append, ihl hl]
        change run whole (right.postorder ++ _) (a :: stack) = _
        rw [run_append, ihr hr]
        change run whole _ (b :: a :: stack) = _
        rw [run_operator, h]
        rfl

theorem run_written {trees : List (Tree env)} {stack : List UInt32}
    (h : List.Forall₂ (fun t word => t.value = .ok word) trees stack) :
    run whole (written trees) [] = .ok stack := by
  induction h with
  | nil => rfl
  | cons value _ ih =>
    rw [written, run_append, ih]
    exact run_postorder value _

theorem exists_values {trees : List (Tree env)} (h : ∀ t ∈ trees, t.Defined) :
    ∃ stack, List.Forall₂ (fun t word => t.value = .ok word) trees stack := by
  induction trees with
  | nil => exact ⟨[], .nil⟩
  | cons t trees ih =>
    obtain ⟨word, value⟩ := h t (by simp)
    obtain ⟨stack, values⟩ := ih fun t mem => h t (by simp [mem])
    exact ⟨word :: stack, .cons value values⟩

/-- The ways in which tokens fail to be those of one tree with a value. -/
inductive Failure where
  | starved
  | zeroDivisor
  | nothing
  | surplus
  deriving DecidableEq, Repr

namespace Failure

def fault (whole : Text) : Failure → Fault
  | .starved => .missingValue (Text.trim whole)
  | .zeroDivisor => .divisionByZero
  | .nothing => .missingOperand (Text.trim whole)
  | .surplus => .extraValues (Text.trim whole)

def kind : Failure → Kind
  | .starved | .zeroDivisor | .nothing => .malformed
  | .surplus => .trailingOperands

/-- The tokens fail so: up to the place of the failure they are those of trees with values. -/
def Meets (tokens : List (Token env)) : Failure → Prop
  | .starved => ∃ trees op later, tokens = written trees ++ .operator op :: later ∧
      (∀ t ∈ trees, t.Defined) ∧ trees.length < 2
  | .zeroDivisor => ∃ left right below op later,
      tokens = written (right :: left :: below) ++ .operator op :: later ∧
      (∀ t ∈ left :: below, t.Defined) ∧ right.value = .ok 0 ∧ (op = .div ∨ op = .mod)
  | .nothing => tokens = []
  | .surplus => ∃ trees, tokens = written trees ∧ (∀ t ∈ trees, t.Defined) ∧ 2 ≤ trees.length

end Failure

theorem Failure.fault_inj {a b : Failure} (h : a.fault whole = b.fault whole) : a = b := by
  cases a <;> cases b <;> simp [fault] at h ⊢

theorem Failure.kind_fault (whole : Text) (failure : Failure) :
    (failure.fault whole).kind = failure.kind := by
  cases failure <;> rfl

theorem compute_total (op : Operator) (a b : UInt32) :
    (∃ word, compute op a b = .ok word) ∨ ((op = .div ∨ op = .mod) ∧ b = 0) := by
  have zero (h : b.toNat = 0) : b = 0 := UInt32.toNat_inj.mp h
  cases op with
  | div | mod =>
    by_cases h : b.toNat = 0
    · exact .inr ⟨by simp, zero h⟩
    · exact .inl ⟨_, if_neg h⟩
  | _ => exact .inl ⟨_, rfl⟩

theorem compute_zero {op : Operator} (h : op = .div ∨ op = .mod) (a : UInt32) :
    compute op a 0 = .error (.fault .divisionByZero) := by
  rcases h with rfl | rfl <;> rfl

theorem Failure.Meets.append {failure : Failure}
    (running : failure = .starved ∨ failure = .zeroDivisor)
    (h : failure.Meets tokens) (later : List (Token env)) : failure.Meets (tokens ++ later) := by
  rcases running with rfl | rfl
  · obtain ⟨trees, op, rest, rfl, defined, few⟩ := h
    exact ⟨trees, op, rest ++ later, by simp, defined, few⟩
  · obtain ⟨left, right, below, op, rest, rfl, defined, zero, divides⟩ := h
    exact ⟨left, right, below, op, rest ++ later, by simp, defined, zero, divides⟩

/-- Tokens are those of trees with values, unless one of the failures that stop the run is met. -/
theorem written_or_stopped (tokens : List (Token env)) :
    (∃ trees, tokens = written trees ∧ ∀ t ∈ trees, t.Defined) ∨
      ∃ failure : Failure,
        (failure = .starved ∨ failure = .zeroDivisor) ∧ failure.Meets tokens := by
  -- The next token comes at the end, where the top of the stack is.
  induction tokens using List.reverseRecOn with
  | nil => exact .inl ⟨[], rfl, by simp⟩
  | append_singleton tokens token ih =>
    obtain ⟨trees, rfl, defined⟩ | ⟨failure, running, meets⟩ := ih
    · cases token with
      | leaf a =>
        refine .inl ⟨.leaf a :: trees, rfl, ?_⟩
        rintro t (_ | ⟨_, mem⟩)
        · exact ⟨a.word, rfl⟩
        · exact defined t mem
      | operator op =>
        match trees, defined with
        | [], defined | [_], defined =>
          exact .inr ⟨.starved, .inl rfl, _, op, [], rfl, defined, by simp⟩
        | right :: left :: below, defined =>
          obtain ⟨b, hr⟩ := defined right (by simp)
          obtain ⟨a, hl⟩ := defined left (by simp)
          have under : ∀ t ∈ left :: below, t.Defined := fun t mem => defined t (by simp [mem])
          rcases compute_total op a b with ⟨word, hw⟩ | ⟨divides, rfl⟩
          · refine .inl ⟨.node op left right :: below, by simp [written, Tree.postorder], ?_⟩
            rintro t (_ | ⟨_, mem⟩)
            · refine ⟨word, ?_⟩
              rw [Tree.value, hl, hr]
              exact hw
            · exact under t (List.mem_cons_of_mem _ mem)
          · exact .inr ⟨.zeroDivisor, .inr rfl, left, right, below, op, [], rfl, under, hr, divides⟩
    · exact .inr ⟨failure, running, meets.append running _⟩

/-- Tokens are those of one tree with a value, or they fail in one of the four ways. -/
theorem tree_or_failure (tokens : List (Token env)) :
    (∃ t : Tree env, t.postorder = tokens ∧ t.Defined) ∨
      ∃ failure : Failure, failure.Meets tokens := by
  obtain ⟨trees, rfl, defined⟩ | ⟨failure, -, meets⟩ := written_or_stopped tokens
  · match trees, defined with
    | [], _ => exact .inr ⟨.nothing, rfl⟩
    | [t], defined => exact .inl ⟨t, rfl, defined t (by simp)⟩
    | top :: next :: below, defined =>
      exact .inr ⟨.surplus, top :: next :: below, rfl, defined, by simp⟩
  · exact .inr ⟨failure, meets⟩

section Spaced

variable (spaced : Spaced (tokens.map Token.text) whole)

include spaced

theorem eval_spaced : evalForm env .polish whole = (run whole tokens [] >>= result whole) := by
  rw [evalForm_polish, Polish.eval, Polish.tokens, tokensFrom_spaced spaced]
  rfl

theorem eval_of_tree {t : Tree env} (order : t.postorder = tokens) {word : UInt32}
    (value : t.value = .ok word) : evalForm env .polish whole = .ok word := by
  rw [eval_spaced spaced, ← order, run_postorder value]
  rfl

theorem eval_of_meets {failure : Failure} (meets : failure.Meets tokens) :
    evalForm env .polish whole = .error (.fault (failure.fault whole)) := by
  rw [eval_spaced spaced]
  cases failure with
  | starved =>
    obtain ⟨trees, op, later, rfl, defined, few⟩ := meets
    obtain ⟨stack, values⟩ := exists_values defined
    rw [List.append_cons, run_append, run_append, run_written values]
    change ((run whole [.operator op] stack >>= _) >>= _) = _
    rw [run_operator_starved op (by rwa [← values.length_eq])]
    rfl
  | zeroDivisor =>
    obtain ⟨left, right, below, op, later, rfl, defined, zero, divides⟩ := meets
    obtain ⟨_ | ⟨a, stack⟩, values⟩ := exists_values defined
    · cases values
    · rw [List.append_cons, run_append, run_append, run_written (.cons zero values)]
      change ((run whole [.operator op] (0 :: a :: stack) >>= _) >>= _) = _
      rw [run_operator, compute_zero divides]
      rfl
  | nothing =>
    cases meets
    rfl
  | surplus =>
    obtain ⟨trees, rfl, defined, many⟩ := meets
    obtain ⟨stack, values⟩ := exists_values defined
    rw [run_written values]
    rw [values.length_eq] at many
    match stack, many with
    | _ :: _ :: _, _ => rfl

/-- A group has a value exactly if its tokens are those of a tree with this value, and it fails in
one of four ways exactly if its tokens do; one of these is always the case. -/
theorem eval_polish_outcomes :
    (∀ word, evalForm env .polish whole = .ok word ↔
      ∃ t : Tree env, t.postorder = tokens ∧ t.value = .ok word) ∧
    (∀ failure : Failure, evalForm env .polish whole = .error (.fault (failure.fault whole)) ↔
      failure.Meets tokens) ∧
    ((∃ word, evalForm env .polish whole = .ok word) ∨
      ∃ failure : Failure, evalForm env .polish whole = .error (.fault (failure.fault whole))) ∧
    (∀ failure : Failure, (failure.fault whole).kind = failure.kind) := by
  have outcome := tree_or_failure tokens
  refine ⟨fun word => ⟨fun eval => ?_, fun ⟨t, order, value⟩ => eval_of_tree spaced order value⟩,
    fun failure => ⟨fun eval => ?_, eval_of_meets spaced⟩, ?_, Failure.kind_fault whole⟩
  · obtain ⟨t, order, found, value⟩ | ⟨failure, meets⟩ := outcome
    · rw [eval_of_tree spaced order value] at eval
      cases eval
      exact ⟨t, order, value⟩
    · rw [eval_of_meets spaced meets] at eval
      cases eval
  · obtain ⟨t, order, found, value⟩ | ⟨other, meets⟩ := outcome
    · rw [eval_of_tree spaced order value] at eval
      cases eval
    · rw [eval_of_meets spaced meets] at eval
      have same : other.fault whole = failure.fault whole := by simpa using eval
      exact Failure.fault_inj same ▸ meets
  · obtain ⟨t, order, word, value⟩ | ⟨failure, meets⟩ := outcome
    · exact .inl ⟨word, eval_of_tree spaced order value⟩
    · exact .inr ⟨failure, eval_of_meets spaced meets⟩

end Spaced

/-- In `" 7  3 - "` the seven is the left operand. -/
theorem eval_polish_outcomes_difference :
    Spaced [['7'], ['3'], ['-']] [' ', '7', ' ', ' ', '3', ' ', '-', ' '] ∧
      ∃ t : Tree ⟨fun _ => none, none⟩,
        t.postorder.map Token.text = [['7'], ['3'], ['-']] ∧ t.value = .ok 4 := by
  let env : Env := ⟨fun _ => none, none⟩
  have named : ∀ m, env.lookup m ≠ none → isSymbolName m = true := fun m h => absurd rfl h
  let digit (d : Fin 10) : Grammar.Atom :=
    { simple := .number ⟨.decimal, [⟨d, false⟩], List.cons_ne_nil _ _, by revert d; decide⟩ }
  let seven : Leaf env := .ofAtom named (digit 7) 7 rfl
  let three : Leaf env := .ofAtom named (digit 3) 3 rfl
  let tokens : List (Token env) := [.leaf seven, .leaf three, .operator .sub]
  have one : ∀ c ∈ [' '], isAsciiBlank c = true := by simp [isAsciiBlank]
  have two : ∀ c ∈ [' ', ' '], isAsciiBlank c = true := by simp [isAsciiBlank]
  have apart (rest : Text) : Boundary (' ' :: rest) := by simp [Boundary, isAsciiBlank]
  have spaced : Spaced (tokens.map Token.text) [' ', '7', ' ', ' ', '3', ' ', '-', ' '] :=
    .cons one (apart _) (.cons two (apart _) (.cons one (apart _) (.nil one)))
  obtain ⟨value, -⟩ := eval_polish_outcomes spaced
  obtain ⟨t, order, four⟩ := (value 4).mp rfl
  exact ⟨spaced, t, by rw [order]; rfl, four⟩

end Assembler65816.Expression.Polish
