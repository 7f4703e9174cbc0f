import Assembler65816.Proofs.Atoms
import Assembler65816.Proofs.Definitions

/-! # Evaluation

The evaluator gives every written expression its meaning when the names of the table start with a
letter or an underscore, but for one case: a text that is as a whole a name of the table is the
symbol of that name, whatever else it could be read as.
-/
namespace Assembler65816.Grammar

open Expression

theorem solid_sign (op : Operator) : Solid .outside (sign op) := by
  cases op <;> simp [sign, Solid, Quote.step, isAsciiBlank, isBracket, isQuoteMark]

section Neutral

variable {b : Brackets} (kind : b = parentheses ∨ b = braces)

include kind

theorem proper_of_kind : b.Proper := by
  rcases kind with rfl | rfl
  · exact Brackets.proper_parentheses
  · exact Brackets.proper_braces

theorem neutral_parens {inside : Text} (h : b.Neutral inside) :
    b.Neutral ('(' :: (inside ++ [')'])) := by
  rcases kind with rfl | rfl
  · exact h.group Brackets.proper_parentheses.apart
  · have opens : braces.Neutral ['('] := .char rfl (by decide) (by decide)
    have closes : braces.Neutral [')'] := .char rfl (by decide) (by decide)
    exact opens.append (h.append closes)

theorem neutral_braces {inside : Text} (h : b.Neutral inside) :
    b.Neutral ('{' :: (inside ++ ['}'])) := by
  rcases kind with rfl | rfl
  · have opens : parentheses.Neutral ['{'] := .char rfl (by decide) (by decide)
    have closes : parentheses.Neutral ['}'] := .char rfl (by decide) (by decide)
    exact opens.append (h.append closes)
  · exact h.group Brackets.proper_braces.apart

theorem neutral_blank : b.Neutral [' '] := by
  rcases kind with rfl | rfl <;> exact .char rfl (by decide) (by decide)

theorem neutral_solid {t : Text} (h : Solid .outside t) : b.Neutral t :=
  Brackets.neutral_of_solid (proper_of_kind kind) h

theorem neutral_lead (selector : Option Selector) : b.Neutral (lead selector) := by
  have solid := solid_lead selector (t := []) rfl
  rw [List.append_nil] at solid
  exact neutral_solid kind solid

theorem neutral_sign (op : Operator) : b.Neutral (sign op) :=
  neutral_solid kind (solid_sign op)

end Neutral

mutual

theorem Infix.neutral_text {b : Brackets} (kind : b = parentheses ∨ b = braces) :
    ∀ e : Infix, b.Neutral e.text
  | .operand x => by
    rw [Infix.text]
    exact x.neutral_text kind
  | .chain left op right => by
    rw [Infix.text]
    have blank := neutral_blank kind
    exact (left.neutral_text kind).append
      (blank.append ((neutral_sign kind op).append (blank.append (right.neutral_text kind))))

theorem Operand.neutral_text {b : Brackets} (kind : b = parentheses ∨ b = braces) :
    ∀ x : Operand, b.Neutral x.text
  | .atom a => by
    rw [Operand.text]
    exact neutral_solid kind a.solid_text
  | .parens selector inside => by
    rw [Operand.text]
    exact (neutral_lead kind selector).append (neutral_parens kind (inside.neutral_text kind))
  | .braces selector inside => by
    rw [Operand.text]
    exact (neutral_lead kind selector).append (neutral_braces kind (inside.neutral_text kind))

theorem Postfix.neutral_text {b : Brackets} (kind : b = parentheses ∨ b = braces) :
    ∀ e : Postfix, b.Neutral e.text
  | .atom a => by
    rw [Postfix.text]
    exact neutral_solid kind a.solid_text
  | .parens inside => by
    rw [Postfix.text]
    exact neutral_parens kind (inside.neutral_text kind)
  | .braces inside => by
    rw [Postfix.text]
    exact neutral_braces kind (inside.neutral_text kind)
  | .node op left right => by
    rw [Postfix.text]
    have blank := neutral_blank kind
    exact (left.neutral_text kind).append
      (blank.append ((right.neutral_text kind).append (blank.append (neutral_sign kind op))))

end

def Postfix.tokens : Postfix → List Text
  | .atom a => [a.text]
  | .parens inside => ['(' :: (inside.text ++ [')'])]
  | .braces inside => ['{' :: (inside.text ++ ['}'])]
  | .node op left right => left.tokens ++ (right.tokens ++ [sign op])

theorem Postfix.tokensFrom_text {whole : Text} : ∀ (e : Postfix) (rest : Text),
    Polish.Boundary rest → Polish.tokensFrom whole (.skip 0) (e.text ++ rest) =
      (Polish.tokensFrom whole (.skip 0) rest).map (e.tokens ++ ·)
  | .atom a, rest, boundary => by
    rw [Postfix.text, Postfix.tokens]
    exact Polish.tokensFrom_solid a.solid_text a.text_ne_nil boundary
  | .parens inside, rest, boundary => by
    rw [Postfix.text, Postfix.tokens, List.cons_append, List.append_assoc]
    exact Polish.tokensFrom_parens (inside.neutral_text (.inl rfl)) rest
  | .braces inside, rest, boundary => by
    rw [Postfix.text, Postfix.tokens, List.cons_append, List.append_assoc]
    exact Polish.tokensFrom_braces (inside.neutral_text (.inr rfl)) rest
  | .node op left right, rest, boundary => by
    have blank : ∀ t, Polish.Boundary (' ' :: t) := by simp [Polish.Boundary, isAsciiBlank]
    have some : sign op ≠ [] := by cases op <;> simp [sign]
    have last : Polish.tokensFrom whole (.skip 0) (' ' :: (sign op ++ rest)) = _ :=
      Polish.tokensFrom_solid (solid_sign op) some boundary
    have split : (Postfix.node op left right).text ++ rest =
        left.text ++ ' ' :: (right.text ++ ' ' :: (sign op ++ rest)) := by
      simp [Postfix.text]
    rw [split, left.tokensFrom_text _ (blank _)]
    change (Polish.tokensFrom whole (.skip 0) (right.text ++ _)).map _ = _
    rw [right.tokensFrom_text _ (blank _), last, Postfix.tokens]
    cases Polish.tokensFrom whole (.skip 0) rest with
    | error cause => rfl
    | ok tokens => simp [Except.map]

theorem Postfix.tokens_text (e : Postfix) : Polish.tokens e.text = .ok e.tokens := by
  have tokens : Polish.tokensFrom e.text (.skip 0) (e.text ++ []) = _ :=
    e.tokensFrom_text [] (by simp [Polish.Boundary])
  rw [List.append_nil] at tokens
  rw [Polish.tokens, tokens]
  simp [Polish.tokensFrom, Except.map]

/-- The state of a chain after an operand, which the next operator or the end of the chain takes
in: an atom is still to be read. -/
def Operand.pending (env : Env) (s : Chain.State) : Operand → Except Obstacle Chain.State
  | .atom a => .ok { s with term := a.text }
  | .parens selector inside =>
    (inside.meaning env).map fun word => { s with group := some (pick selector word) }
  | .braces selector inside =>
    (inside.meaning env).map fun word => { s with group := some (pick selector word) }

def Infix.pending (env : Env) : Infix → Except Obstacle Chain.State
  | .operand x => x.pending env {}
  | .chain left op right =>
    left.meaning env >>= fun total => right.pending env { total, operator := some op }

theorem Operand.flush_pending (env : Env) (x : Operand) (total : UInt32) (op next : Option Operator) :
    (x.pending env { total, operator := op } >>= Chain.State.flush env next) =
      (x.meaning env >>= fun word =>
        (Chain.State.combine { total, operator := op } (some word)).map fun total =>
          { total, operator := next <|> op }) := by
  cases x with
  | atom a =>
    have read : Chain.State.operand env { total, operator := op, term := a.text } =
        (a.meaning env).map some := by
      obtain ⟨c, rest, text_eq⟩ := List.exists_cons_of_ne_nil a.text_ne_nil
      rw [← a.read_text env, text_eq]
      rfl
    rw [Operand.pending, Operand.meaning]
    change Chain.State.flush env next _ = _
    unfold Chain.State.flush
    rw [read]
    cases a.meaning env with
    | error obstacle => rfl
    | ok word => rfl
  | parens selector inside =>
    rw [Operand.pending, Operand.meaning]
    cases inside.meaning env with
    | error obstacle => rfl
    | ok word => rfl
  | braces selector inside =>
    rw [Operand.pending, Operand.meaning]
    cases inside.meaning env with
    | error obstacle => rfl
    | ok word => rfl

theorem combine_operator (op : Operator) (a b : UInt32) :
    Chain.State.combine { total := a, operator := some op } (some b) = compute op a b := by
  rw [← outcome_apply]
  simp only [Chain.State.combine]
  cases op.apply a b <;> rfl

theorem Infix.flush_pending (env : Env) (e : Infix) (next : Option Operator) :
    ∃ op, (e.pending env >>= Chain.State.flush env next) =
      (e.meaning env).map fun total => { total, operator := next <|> op } := by
  cases e with
  | operand x =>
    refine ⟨none, ?_⟩
    rw [Infix.pending, Infix.meaning, x.flush_pending env]
    cases x.meaning env <;> rfl
  | chain left op right =>
    refine ⟨some op, ?_⟩
    rw [Infix.pending, Infix.meaning]
    cases left.meaning env with
    | error obstacle => rfl
    | ok a =>
      change (right.pending env _ >>= _) = _
      rw [right.flush_pending env]
      cases right.meaning env with
      | error obstacle => rfl
      | ok b =>
        change (Chain.State.combine _ _).map _ = (compute op a b).map _
        rw [combine_operator]

/-- A chain that is taken in operand by operand has the meaning of its expression. -/
theorem Infix.eval_of_fold {env : Env} {e : Infix}
    (fold : Chain.fold env e.text {} (e.text ++ []) =
      (e.pending env >>= fun s => Chain.fold env e.text s [])) :
    Chain.eval env (evalForm env) e.text = e.meaning env := by
  obtain ⟨op, flush⟩ := e.flush_pending env none
  have ends : (e.pending env >>= fun s => Chain.fold env e.text s []) = e.pending env :=
    bind_pure (e.pending env)
  rw [List.append_nil, ends] at fold
  rw [Chain.eval_eq_fold, fold]
  have total : (e.pending env >>= fun last => (last.flush env none).map Chain.State.total) =
      (e.pending env >>= Chain.State.flush env none).map Chain.State.total := by
    cases e.pending env <;> rfl
  rw [total, flush]
  cases e.meaning env <;> rfl

theorem closeGroup_lead (body : Text) (selector : Option Selector) (total word : UInt32)
    (op : Option Operator) :
    Chain.State.closeGroup body word { total, operator := op, term := lead selector } =
      .ok { total, operator := op, group := some (pick selector word) } := by
  cases selector with
  | none => rfl
  | some selector =>
    rw [← select_eq_pick]
    cases selector <;> rfl

section Eval

variable {env : Env}

/-- Looking up a whole text changes nothing, unless it is a name that is no symbol name. -/
theorem evalForm_chain_eq {t : Text} (trim : Text.trim t = t)
    (named : env.lookup t ≠ none → isSymbolName t = true) :
    evalForm env .chain t = Chain.eval env (evalForm env) t := by
  rw [evalForm_chain, trim]
  cases found : env.lookup t with
  | none => rfl
  | some value =>
    rw [Chain.eval_symbolName _ (named (by simp [found])), Expression.Atom.symbol, found]
    cases value <;> rfl

theorem Atom.isSymbolName_text {a : Atom} (start : a.text.head?.any isNameStart = true) :
    isSymbolName a.text = true := by
  obtain ⟨_ | selector, simple⟩ := a
  · cases simple with
    | number n =>
      obtain ⟨radix, digits, some, fits⟩ := n
      obtain ⟨d, rest, rfl⟩ := List.exists_cons_of_ne_nil some
      cases radix with
      | binary | octal | hex => cases start
      | decimal =>
        have digit := Digit.isDigit_char d (le_refl 10)
        have letter : isNameStart d.char = true := start
        rw [isDigit_of_isNameStart letter] at digit
        cases digit
    | character mark quoted => cases mark <;> cases start
    | counter => cases start
    | symbol name isName => exact isName
  · cases selector <;> cases start

variable (letters : ∀ m, env.lookup m ≠ none → m.head?.any isNameStart = true)

include letters

theorem evalForm_parens {inside : Text} (h : parentheses.Neutral inside) :
    evalForm env .enclosed ('(' :: (inside ++ [')'])) = Chain.eval env (evalForm env) inside := by
  have trim : Text.trim ('(' :: (inside ++ [')'])) = '(' :: (inside ++ [')']) :=
    (Edged.group rfl rfl inside).trim
  -- The whole text is looked up first, but a name has no bracket.
  have absent : env.lookup ('(' :: (inside ++ [')'])) = none := by
    by_contra present
    cases letters _ present
  have length : parentheses.groupLength ('(' :: (inside ++ [')'])) = some (inside.length + 2) :=
    Brackets.groupLength_group Brackets.proper_parentheses.apart h []
  have body : enclosedBody? ('(' :: (inside ++ [')'])) = some inside := by
    simp [enclosedBody?, length, inner_group]
  rw [evalForm_enclosed, trim, absent, body]

theorem Atom.eval_text (a : Atom) : evalForm env .chain a.text = a.meaning env := by
  have text : (Infix.operand (.atom a)).text = a.text := by rw [Infix.text, Operand.text]
  have eval : Chain.eval env (evalForm env) (Infix.operand (.atom a)).text = _ :=
    Infix.eval_of_fold (by
      rw [text, Infix.pending, Operand.pending]
      exact a.fold_text [])
  rw [text, Infix.meaning, Operand.meaning] at eval
  have named (present : env.lookup a.text ≠ none) := Atom.isSymbolName_text (letters _ present)
  rw [evalForm_chain_eq a.edged_text.trim named, eval]

end Eval

theorem fold_group {env : Env} {body : Text} (selector : Option Selector) (total : UInt32)
    (op : Option Operator) {c : Char} {t rest : Text} {item : Chain.Item} {reading : Reading}
    (blank : isBlank c = false) (low : c ≠ '<') (high : c ≠ '>')
    (items : Chain.items body 0 (c :: t) = item :: Chain.items body 0 rest)
    (step : ∀ s : Chain.State, s.step env (evalForm env) body item =
      (reading >>= fun word => s.closeGroup body word)) :
    Chain.fold env body { total, operator := op } (lead selector ++ c :: t) =
      (reading.map fun word => { total, operator := op, group := some (pick selector word) }) >>=
        fun s => Chain.fold env body s rest := by
  rw [fold_lead selector blank low high, Chain.fold_of_items items, step]
  cases reading with
  | error obstacle => rfl
  | ok word =>
    change (Chain.State.closeGroup body word _ >>= _) = _
    rw [List.nil_append, closeGroup_lead]
    rfl

theorem step_operand {read : Form → Text → Reading} {whole token : Text}
    (h : Operator.ofText? token = none) (stack : List UInt32) :
    [token].foldlM (Polish.step read whole) stack =
      (Polish.operand read token).map (· :: stack) := by
  rw [List.foldlM_cons, Polish.step, h]
  cases Polish.operand read token <;> rfl

theorem step_sign (read : Form → Text → Reading) (whole : Text) (op : Operator) (a b : UInt32)
    (stack : List UInt32) : [sign op].foldlM (Polish.step read whole) (b :: a :: stack) =
      (compute op a b).map (· :: stack) := by
  have found : Operator.ofText? (sign op) = some op := by cases op <;> rfl
  rw [List.foldlM_cons, Polish.step, found, ← outcome_apply]
  dsimp only
  rw [Polish.operate]
  cases op.apply a b <;> rfl

theorem operand_of_solid (read : Form → Text → Reading) {token : Text}
    (h : Solid .outside token) : Polish.operand read token = read .chain token := by
  cases token with
  | nil => rfl
  | cons c rest =>
    have bracket := (h.1 rfl).2
    simp only [isBracket, Bool.or_eq_false_iff, beq_eq_false_iff_ne] at bracket
    simp [Polish.operand, bracket]

theorem Postfix.eval_of_run {env : Env} {e : Postfix}
    (run : e.tokens.foldlM (Polish.step (evalForm env) e.text) [] =
      (e.meaning env).map fun word => [word]) : evalForm env .polish e.text = e.meaning env := by
  rw [evalForm_polish, Polish.eval, e.tokens_text]
  dsimp only
  rw [run]
  cases e.meaning env <;> rfl

mutual

theorem Infix.fold_text {env : Env}
    (letters : ∀ m, env.lookup m ≠ none → m.head?.any isNameStart = true) :
    ∀ (e : Infix) (body rest : Text), Chain.fold env body {} (e.text ++ rest) =
      (e.pending env >>= fun s => Chain.fold env body s rest)
  | .operand x, body, rest => by
    rw [Infix.text, Infix.pending]
    exact x.fold_text letters body 0 none rest
  | .chain left op right, body, rest => by
    have step : ∀ s : Chain.State,
        Chain.fold env body s (' ' :: (sign op ++ ' ' :: (right.text ++ rest))) =
          (s.flush env (some op) >>= fun s => Chain.fold env body s (right.text ++ rest)) :=
      fun s => Chain.fold_of_items (Chain.items_operator op _)
    have split : (Infix.chain left op right).text ++ rest =
        left.text ++ ' ' :: (sign op ++ ' ' :: (right.text ++ rest)) := by
      simp [Infix.text]
    -- The operator takes in the operand that the left part leaves pending.
    obtain ⟨_, flush⟩ := left.flush_pending env (some op)
    rw [split, left.fold_text letters, Infix.pending]
    simp only [step]
    rw [← bind_assoc, flush]
    cases left.meaning env with
    | error obstacle => rfl
    | ok total => exact right.fold_text letters body total (some op) rest

theorem Operand.fold_text {env : Env}
    (letters : ∀ m, env.lookup m ≠ none → m.head?.any isNameStart = true) :
    ∀ (x : Operand) (body : Text) (total : UInt32) (op : Option Operator) (rest : Text),
      Chain.fold env body { total, operator := op } (x.text ++ rest) =
        (x.pending env { total, operator := op } >>= fun s => Chain.fold env body s rest)
  | .atom a, body, total, op, rest => by
    rw [Operand.text, Operand.pending]
    exact a.fold_text rest
  | .parens selector inside, body, total, op, rest => by
    have neutral := inside.neutral_text (b := parentheses) (.inl rfl)
    have eval := Infix.eval_of_fold (inside.fold_text letters inside.text [])
    have split : (Operand.parens selector inside).text ++ rest =
        lead selector ++ '(' :: (inside.text ++ ')' :: rest) := by
      simp [Operand.text]
    rw [split, Operand.pending]
    refine fold_group selector total op rfl (by decide) (by decide)
      (Chain.items_parens neutral rest) fun s => ?_
    rw [← eval, ← evalForm_parens letters neutral]
    rfl
  | .braces selector inside, body, total, op, rest => by
    have neutral := inside.neutral_text (b := braces) (.inr rfl)
    have eval := Postfix.eval_of_run (inside.run_tokens letters inside.text [])
    have split : (Operand.braces selector inside).text ++ rest =
        lead selector ++ '{' :: (inside.text ++ '}' :: rest) := by
      simp [Operand.text]
    rw [split, Operand.pending]
    refine fold_group selector total op rfl (by decide) (by decide)
      (Chain.items_braces neutral rest) fun s => ?_
    rw [← eval]
    rfl

theorem Postfix.run_tokens {env : Env}
    (letters : ∀ m, env.lookup m ≠ none → m.head?.any isNameStart = true) :
    ∀ (e : Postfix) (whole : Text) (stack : List UInt32),
      e.tokens.foldlM (Polish.step (evalForm env) whole) stack =
        (e.meaning env).map (· :: stack)
  | .atom a, whole, stack => by
    rw [Postfix.tokens, Postfix.meaning, step_operand a.ofText?_text,
      operand_of_solid _ a.solid_text, a.eval_text letters]
  | .parens inside, whole, stack => by
    have neutral := inside.neutral_text (b := parentheses) (.inl rfl)
    have eval := Infix.eval_of_fold (inside.fold_text letters inside.text [])
    rw [Postfix.tokens, Postfix.meaning, step_operand rfl, ← eval,
      ← evalForm_parens letters neutral]
    rfl
  | .braces inside, whole, stack => by
    have eval := Postfix.eval_of_run (inside.run_tokens letters inside.text [])
    rw [Postfix.tokens, Postfix.meaning, step_operand rfl, ← eval]
    simp [Polish.operand, inner_group]
  | .node op left right, whole, stack => by
    rw [Postfix.tokens, Postfix.meaning, List.foldlM_append, left.run_tokens letters]
    cases left.meaning env with
    | error obstacle => rfl
    | ok a =>
      change List.foldlM (Polish.step (evalForm env) whole) (a :: stack) _ = _
      rw [List.foldlM_append, right.run_tokens letters]
      cases right.meaning env with
      | error obstacle => rfl
      | ok b => exact step_sign (evalForm env) whole op a b stack

end

theorem Operand.edged_text (x : Operand) : Edged x.text := by
  cases x with
  | atom a =>
    rw [Operand.text]
    exact a.edged_text
  | parens selector inside =>
    rw [Operand.text]
    exact edged_lead selector (.group rfl rfl inside.text)
  | braces selector inside =>
    rw [Operand.text]
    exact edged_lead selector (.group rfl rfl inside.text)

theorem Infix.edged_text : ∀ e : Infix, Edged e.text
  | .operand x => by
    rw [Infix.text]
    exact x.edged_text
  | .chain left op right => by
    have split : (Infix.chain left op right).text =
        left.text ++ ((' ' :: (sign op ++ [' '])) ++ right.text) := by
      simp [Infix.text]
    rw [split]
    exact left.edged_text.join _ right.edged_text

/-- The evaluator gives every written expression its meaning, unless the text is a name of the table
that is no symbol name. Then it gives that symbol's value. -/
theorem eval_text_eq_meaning {t : SymbolTable}
    (letters : ∀ name, t.lookup name ≠ none → name.head?.any isNameStart = true) (e : Infix)
    (address : Option UInt32) :
    (t.lookup e.text = none ∨ isSymbolName e.text = true →
      Expression.eval (t.env address) e.text = e.meaning (t.env address)) ∧
    ∀ value, t.lookup e.text = some value →
      Expression.eval (t.env address) e.text = valueOf value := by
  have trim := e.edged_text.trim
  constructor
  · intro plain
    have named (present : t.lookup e.text ≠ none) := plain.resolve_left present
    rw [Expression.eval, evalForm_chain_eq trim named]
    exact Infix.eval_of_fold (e.fold_text letters e.text [])
  · intro value found
    have present : (t.env address).lookup e.text = some value := found
    rw [Expression.eval, evalForm_chain, trim, present]

def mixedExpression : Infix :=
  let five : Number := ⟨.binary, [⟨1, false⟩, ⟨0, false⟩, ⟨1, false⟩], by simp, by decide⟩
  let shift : Number :=
    ⟨.hex, [⟨0, false⟩, ⟨1, false⟩, ⟨8, false⟩, ⟨0, false⟩], by simp, by decide⟩
  let fourteen : Number := ⟨.octal, [⟨1, false⟩, ⟨6, false⟩], by simp, by decide⟩
  let sum : Infix :=
    .chain (.operand (.atom ⟨none, .symbol ['a'] rfl⟩)) .add (.atom ⟨none, .number five⟩)
  let shifted : Postfix :=
    .node .shiftLeft (.atom ⟨none, .character .single (.escaped (.quote .single))⟩)
      (.atom ⟨some .high, .number shift⟩)
  .chain (.chain (.operand (.parens (some .low) sum)) .mul (.braces none shifted)) .mod
    (.atom ⟨none, .number fourteen⟩)

theorem eval_text_eq_meaning_mixed :
    let t : SymbolTable := ⟨[⟨['a'], .known 0x123, [], none⟩]⟩
    (∀ name, t.lookup name ≠ none → name.head?.any isNameStart = true) ∧
      mixedExpression.text = "<(a + %101) * \x7b'\\'' >$0180 <<\x7d % &16".toList ∧
      t.lookup mixedExpression.text = none ∧
      Expression.eval (t.env none) mixedExpression.text = .ok 12 := by
  intro t
  have letters : ∀ name, t.lookup name ≠ none → name.head?.any isNameStart = true := by
    intro name present
    by_contra other
    have differ : (['a'] == name) = false := by
      rw [beq_eq_false_iff_ne]
      rintro rfl
      exact other rfl
    exact present (by simp [t, SymbolTable.lookup, SymbolTable.find?, differ])
  have absent : t.lookup mixedExpression.text = none := by decide +kernel
  refine ⟨letters, by decide +kernel, absent, ?_⟩
  rw [(eval_text_eq_meaning letters mixedExpression none).1 (.inl absent)]
  rfl

def sumExpression : Infix :=
  .chain (.operand (.atom ⟨none, .symbol ['a'] rfl⟩)) .add (.atom ⟨none, .symbol ['b'] rfl⟩)

/-- It is not enough that names start with a letter or an underscore: where `a + b` itself is a
name, it has the value of that symbol and not that of the sum. -/
theorem eval_text_of_sum_name :
    let t : SymbolTable := ⟨[⟨['a'], .known 1, [], none⟩, ⟨"a + b".toList, .known 9, [], none⟩,
      ⟨['b'], .known 2, [], none⟩]⟩
    (∀ s ∈ t.entries, s.name.head?.any isNameStart = true) ∧
      sumExpression.text = "a + b".toList ∧
      Expression.eval (t.env none) sumExpression.text = .ok 9 ∧
      sumExpression.meaning (t.env none) = .ok 3 ∧
      Expression.eval (t.env none) sumExpression.text ≠ sumExpression.meaning (t.env none) := by
  decide +kernel

end Assembler65816.Grammar
