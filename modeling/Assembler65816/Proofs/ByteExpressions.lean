import Assembler65816.Expression.Depth
import Assembler65816.Proofs.ByteTokens

/-! # Evaluation by offsets

Atoms read the first and the last byte of their text and cut the text behind a sign; groups are cut
at their brackets. With every such check in place, evaluation has an answer for every text, and it
is the answer of the evaluator on characters.
-/
namespace Assembler65816.Bytewise

open Text Expression

/-- A fold whose steps have checks of their own and may end it with an error. -/
def foldChecked? {σ α ε : Type} (step? : σ → α → Option (Except ε σ)) :
    List α → σ → Option (Except ε σ)
  | [], s => some (.ok s)
  | a :: rest, s => do
    match ← step? s a with
    | .ok s => foldChecked? step? rest s
    | .error e => return .error e

theorem foldChecked?_eq {σ α ε : Type} {step? : σ → α → Option (Except ε σ)}
    {step : σ → α → Except ε σ} {list : List α}
    (h : ∀ s, ∀ a ∈ list, step? s a = some (step s a)) (s : σ) :
    foldChecked? step? list s = some (list.foldlM step s) := by
  induction list generalizing s with
  | nil => rfl
  | cons a rest ih =>
    rw [foldChecked?, h s a (by simp), List.foldlM_cons]
    cases step s a with
    | error => rfl
    | ok s => exact ih (fun s b mem => h s b (by simp [mem])) s

/-- The code point that a literal stands for; `text` is the whole atom, for the report. -/
def literal? (body text : Text) : Option Reading := do
  let mark ← body.bytes[0]?
  if size body < 3 then return .error (.fault (.openQuote text))
  else if (← body.bytes[← less? (size body) 1]?) != mark then
    return .error (.fault (.openQuote text))
  else
    match (← decode? (← slice? body 1 (← less? (size body) 1))).head? with
    | some c => return .ok c.val
    | none => return .error (.fault (.missingOperand text))

def atomBody? (env : Env) (text body : Text) : Option Reading :=
  if body.isEmpty then some (.error (.fault (.missingOperand text)))
  else do
    let c ← body.bytes[0]?
    if c.isDigit then return Atom.number 10 body text
    else if c == '$' then
      if size body = 1 then return Atom.counter env text
      else return Atom.number 16 (← from? body 1) text
    else if c == '%' then return Atom.number 2 (← from? body 1) text
    else if c == '&' then return Atom.number 8 (← from? body 1) text
    else if isQuoteMark c then literal? body text
    else if isSymbolName body then return Atom.symbol env body
    else return .error (.fault (.badNumber text))

def atom? (env : Env) (text : Text) : Option Reading :=
  let text := trim text
  match text.head? with
  | none => some (.error (.fault .nothingToRead))
  | some c =>
    match Selector.ofChar? c with
    | some selector => do return (← atomBody? env text (← from? text 1)).map selector.select
    | none => atomBody? env text text

section Atoms

variable {c : Char} {rest : Text}

theorem from?_one (narrow : isWide c = false) : from? (c :: rest) 1 = some rest :=
  from?_eq (show c :: rest = [c] ++ rest from rfl) (size_narrow narrow).symm

theorem isDigit_of_isWide (h : isWide c = true) : c.isDigit = false := by
  apply Bool.eq_false_iff.mpr
  intro digit
  have := isDigit_bounds digit
  have := of_decide_eq_true h
  omega

theorem getElem?_bytes_first (narrow : isWide c = false) : (bytes (c :: rest))[0]? = some c :=
  getElem?_bytes_narrow (show c :: rest = [] ++ c :: rest from rfl) narrow

theorem literal?_eq (quote : isQuoteMark c = true) (text : Text) :
    literal? (c :: rest) text = some (Atom.literal c rest text) := by
  have narrow := isWide_of_isQuoteMark quote
  have total : size (c :: rest) = 1 + size rest := by
    rw [show c :: rest = [c] ++ rest from rfl, size_append, size_narrow narrow]
  have shrinks : less? (size (c :: rest)) 1 = some (size (c :: rest) - 1) := if_pos (by omega)
  rw [literal?, getElem?_bytes_first narrow, Atom.literal, shrinks]
  simp only [Option.bind_eq_bind, Option.bind_some]
  rcases List.eq_nil_or_concat rest with rfl | ⟨init, last, rfl⟩
  · simp [total]
  rw [List.concat_eq_append] at *
  obtain ⟨k, byte, whole, found, byte_eq⟩ :=
    getElem?_bytes_last (show c :: (init ++ [last]) = c :: init ++ last :: [] from rfl)
  rw [List.cons_append] at whole
  rw [whole, Nat.add_sub_cancel, found]
  by_cases same : last = c
  · subst same
    obtain rfl : byte = last := by
      rcases byte_eq with rfl | ⟨-, wide⟩
      · rfl
      · rw [narrow] at wide
        cases wide
    rw [size_append, size_narrow narrow] at total
    have cut : slice? (byte :: (init ++ [byte])) 1 k = some init :=
      slice?_eq (show byte :: (init ++ [byte]) = [byte] ++ init ++ [byte] from rfl)
        (size_narrow narrow).symm (by rw [size_narrow narrow]; omega)
    rw [cut]
    cases init with
    | nil =>
      rw [size_nil] at total
      rw [if_pos (by omega)]
      rfl
    | cons d init =>
      have filled := size_ne_zero d init
      have closed : (decide ((d :: init ++ [byte]).length < 2) ||
          (d :: init ++ [byte]).getLast? != some byte) = false := by
        rw [List.getLast?_concat]
        simp
      rw [if_neg (by omega), closed]
      simp only [Option.bind_some, bne_self_eq_false, Bool.false_eq_true, if_false, decode?_eq,
        List.dropLast_concat]
      cases (Escape.decode (d :: init)).head? <;> rfl
  · have open_end : (byte != c) = true := by
      apply bne_iff_ne.mpr
      rintro rfl
      rcases byte_eq with rfl | ⟨wide, -⟩
      · exact same rfl
      · rw [narrow] at wide
        cases wide
    have open_end' : (decide ((init ++ [last]).length < 2) ||
        (init ++ [last]).getLast? != some c) = true := by simp [same]
    simp only [Option.bind_some, if_pos open_end, if_pos open_end', ite_self]
    rfl

/-- The tests of the first character of an atom have the same answer on its first byte. -/
theorem atomBody?_eq (env : Env) (text body : Text) :
    atomBody? env text body = some (Atom.body env text body) := by
  cases body with
  | nil => rfl
  | cons c rest =>
    rw [Atom.body, atomBody?]
    by_cases wide : isWide c = true
    · obtain ⟨byte, found, wide'⟩ := getElem?_bytes_wide (show c :: rest = [] ++ c :: rest from rfl)
        wide (Nat.pos_of_ne_zero (size_ne_zero c []))
      have plain := isMark_of_isWide wide
      have plain' := isMark_of_isWide wide'
      simp only [isMark, Bool.or_eq_false_iff] at plain plain'
      rw [show size [] + 0 = 0 from rfl] at found
      rw [found]
      simp only [List.isEmpty_cons, Option.bind_eq_bind, Option.bind_some, isDigit_of_isWide wide,
        isDigit_of_isWide wide', ne_of_isWide wide (show isWide '$' = false from rfl),
        ne_of_isWide wide' (show isWide '$' = false from rfl), plain, plain', Bool.false_eq_true,
        if_false]
      split <;> rfl
    · have narrow : isWide c = false := by simpa using wide
      have alone : size (c :: rest) = 1 ↔ rest.isEmpty = true := by
        rw [show c :: rest = [c] ++ rest from rfl, size_append, size_narrow narrow]
        cases rest with
        | nil => simp
        | cons d more => simp [size_ne_zero]
      rw [getElem?_bytes_first narrow]
      simp only [List.isEmpty_cons, Bool.false_eq_true, if_false, Option.bind_eq_bind, Option.bind_some,
        from?_one narrow, Option.pure_def, alone]
      split
      · rfl
      split
      · split <;> rfl
      split
      · rfl
      split
      · rfl
      split
      · next quote => exact literal?_eq quote text
      · split <;> rfl

theorem atom?_eq (env : Env) (text : Text) : atom? env text = some (Atom.read env text) := by
  rw [atom?, Atom.read]
  cases trim text with
  | nil => rfl
  | cons c rest =>
    simp only [List.head?_cons]
    cases selector : Selector.ofChar? c with
    | none => exact atomBody?_eq env _ _
    | some selector =>
      have narrow : isWide c = false := by
        apply Bool.eq_false_iff.mpr
        intro wide
        have plain := isMark_of_isWide wide
        simp only [isMark, Bool.or_eq_false_iff, beq_eq_false_iff_ne] at plain
        rw [Selector.ofChar?_eq_none plain.1.1.1.1.1.1.1.1.1.2 plain.1.1.1.1.1.1.1.1.2 plain.2] at selector
        cases selector
      simp only [from?_one narrow, Option.bind_eq_bind, Option.bind_some, atomBody?_eq]
      rfl

end Atoms

def quotient? (a b : UInt32) : Option UInt32 := if b = 0 then none else some (a / b)

def remainder? (a b : UInt32) : Option UInt32 := if b = 0 then none else some (a % b)

/-- The result of an operator; division looks at the divisor first. -/
def result? : Operator → UInt32 → UInt32 → Option (Option UInt32)
  | .div, a, b => if b = 0 then some none else do return some (← quotient? a b)
  | .mod, a, b => if b = 0 then some none else do return some (← remainder? a b)
  | op, a, b => some (op.apply a b)

theorem result?_eq (op : Operator) (a b : UInt32) : result? op a b = some (op.apply a b) := by
  cases op with
  | div => by_cases zero : b = 0 <;> simp [result?, Operator.apply, quotient?, zero]
  | mod => by_cases zero : b = 0 <;> simp [result?, Operator.apply, remainder?, zero]
  | add | sub | mul | shiftLeft | shiftRight | or | and | xor => rfl

def pending? (env : Env) (s : Chain.State) : Option (Except Obstacle (Option UInt32)) :=
  match s.group, s.term with
  | group, [] => some (.ok group)
  | none, term => do return (← atom? env term).map some
  | some _, term => some (.error (.fault (.textAfterGroup term)))

theorem pending?_eq (env : Env) (s : Chain.State) : pending? env s = some (s.operand env) := by
  rcases s with ⟨total, operator, term, group⟩
  rw [pending?, Chain.State.operand]
  cases term with
  | nil => cases group <;> rfl
  | cons c term =>
    cases group with
    | none =>
      simp only [atom?_eq]
      rfl
    | some word => rfl

def combine? (s : Chain.State) : Option UInt32 → Option Reading
  | none => some (.ok s.total)
  | some word =>
    match s.operator with
    | none => some (.ok word)
    | some op => do
      match ← result? op s.total word with
      | some total => return .ok total
      | none => return .error (.fault .divisionByZero)

theorem combine?_eq (s : Chain.State) (operand : Option UInt32) :
    combine? s operand = some (s.combine operand) := by
  rcases s with ⟨total, operator, term, group⟩
  cases operand with
  | none => rfl
  | some word =>
    cases operator with
    | none => rfl
    | some op =>
      simp only [combine?, Chain.State.combine, result?_eq, Option.bind_eq_bind, Option.bind_some]
      cases op.apply total word <;> rfl

def flush? (env : Env) (next : Option Operator) (s : Chain.State) :
    Option (Except Obstacle Chain.State) := do
  match ← pending? env s with
  | .error obstacle => return .error obstacle
  | .ok operand =>
    return (← combine? s operand).map fun total => { total, operator := next <|> s.operator }

theorem flush?_eq (env : Env) (next : Option Operator) (s : Chain.State) :
    flush? env next s = some (s.flush env next) := by
  rw [flush?, pending?_eq, Chain.State.flush]
  cases s.operand env with
  | error obstacle => rfl
  | ok operand =>
    simp only [Option.bind_eq_bind, Option.bind_some, combine?_eq]
    change some ((s.combine operand).map _) = some (s.combine operand >>= _)
    cases s.combine operand <;> rfl

def step? (env : Env) (read? : Form → Text → Option Reading) (body : Text) (s : Chain.State) :
    Chain.Item → Option (Except Obstacle Chain.State)
  | .operator op => flush? env (some op) s
  | .piece text => some (.ok { s with term := s.term ++ text })
  | .parens group => do return (← read? .enclosed group) >>= s.closeGroup body
  | .braces inside => do return (← read? .polish inside) >>= s.closeGroup body
  | .fault cause => some (.error (.fault cause))

def chain? (env : Env) (read? : Form → Text → Option Reading) (body : Text) : Option Reading := do
  match ← foldChecked? (step? env read? body) (← items? body) {} with
  | .error obstacle => return .error obstacle
  | .ok last => return (← flush? env none last).map Chain.State.total

theorem chain?_eq {env : Env} {read? : Form → Text → Option Reading}
    {read : Form → Text → Reading} {body : Text}
    (parens : ∀ group, 0 < body.length → group.length ≤ body.length →
      read? .enclosed group = some (read .enclosed group))
    (braces : ∀ inside, inside.length + 2 ≤ body.length →
      read? .polish inside = some (read .polish inside)) :
    chain? env read? body = some (Chain.eval env read body) := by
  have steps (s : Chain.State) (item : Chain.Item) (mem : item ∈ Chain.items body 0 body) :
      step? env read? body s item = some (s.step env read body item) := by
    have fits := Chain.fits_of_mem_items mem
    cases item with
    | operator op => exact flush?_eq env (some op) s
    | piece text => rfl
    | parens group =>
      rw [step?, parens group fits.1 fits.2]
      rfl
    | braces inside =>
      rw [step?, braces inside fits]
      rfl
    | fault cause => rfl
  rw [chain?, items?_eq, Chain.eval]
  simp only [Option.bind_eq_bind, Option.bind_some, foldChecked?_eq steps, flush?_eq]
  cases (Chain.items body 0 body).foldlM (Chain.State.step env read body) {} with
  | error => rfl
  | ok last =>
    change some ((last.flush env none).map _) = some (last.flush env none >>= _)
    cases last.flush env none <;> rfl

def operand? (read? : Form → Text → Option Reading) (token : Text) : Option Reading :=
  if token.head? = some '{' then do
    read? .polish (← slice? token 1 (← less? (size token) 1))
  else if token.head? = some '(' then read? .enclosed token
  else read? .chain token

def polishStep? (read? : Form → Text → Option Reading) (whole : Text) (stack : List UInt32)
    (token : Text) : Option (Except Obstacle (List UInt32)) :=
  match Operator.ofText? token with
  | some op =>
    match stack with
    | right :: left :: rest => do
      match ← result? op left right with
      | some word => return .ok (word :: rest)
      | none => return .error (.fault .divisionByZero)
    | _ => some (.error (.fault (.missingValue (trim whole))))
  | none => do return (← operand? read? token).map (· :: stack)

def polish? (read? : Form → Text → Option Reading) (whole : Text) : Option Reading := do
  match ← tokens? whole with
  | .error cause => return .error (.fault cause)
  | .ok tokens =>
    return (← foldChecked? (polishStep? read? whole) tokens []) >>= Polish.result whole

/-- The tokens of a group are read as the checks let them: a token that starts with a brace has a
brace at its end as well. -/
theorem operand?_eq {read? : Form → Text → Option Reading} {read : Form → Text → Reading}
    {token : Text}
    (braced : token.head? = some '{' → ∃ inside, token = '{' :: (inside ++ ['}']))
    (chain : read? .chain token = some (read .chain token))
    (enclosed : 0 < token.length → read? .enclosed token = some (read .enclosed token))
    (polish : ∀ inside, inside.length + 2 = token.length →
      read? .polish inside = some (read .polish inside)) :
    operand? read? token = some (Polish.operand read token) := by
  rw [operand?, Polish.operand]
  by_cases brace : token.head? = some '{'
  · obtain ⟨inside, rfl⟩ := braced brace
    have total : size ('{' :: (inside ++ ['}'])) = 1 + size inside + 1 := by
      rw [show '{' :: (inside ++ ['}']) = ['{'] ++ inside ++ ['}'] from rfl, size_append,
        size_append, size_narrow rfl, size_narrow rfl]
    have shrinks : less? (size ('{' :: (inside ++ ['}']))) 1 = some (1 + size inside) := by
      rw [less?, if_pos (by omega), total, Nat.add_sub_cancel]
    have cut : slice? ('{' :: (inside ++ ['}'])) 1 (1 + size inside) = some inside :=
      slice?_eq (show '{' :: (inside ++ ['}']) = ['{'] ++ inside ++ ['}'] from rfl)
        (size_narrow rfl).symm (by rw [size_narrow rfl])
    rw [if_pos brace, if_pos brace, shrinks, inner_group]
    simp only [Option.bind_eq_bind, Option.bind_some, cut]
    exact polish inside (by simp)
  · rw [if_neg brace, if_neg brace]
    by_cases paren : token.head? = some '('
    · rw [if_pos paren, if_pos paren]
      apply enclosed
      cases token with
      | nil => cases paren
      | cons c rest => exact Nat.succ_pos _
    · rw [if_neg paren, if_neg paren]
      exact chain

theorem polish?_eq {read? : Form → Text → Option Reading} {read : Form → Text → Reading}
    {whole : Text}
    (chain : ∀ token, token.length ≤ whole.length →
      read? .chain token = some (read .chain token))
    (enclosed : ∀ token, 0 < token.length → token.length ≤ whole.length →
      read? .enclosed token = some (read .enclosed token))
    (polish : ∀ inside, inside.length + 1 ≤ whole.length →
      read? .polish inside = some (read .polish inside)) :
    polish? read? whole = some (Polish.eval read whole) := by
  rw [polish?, tokens?_eq, Polish.eval]
  cases tokens_eq : Polish.tokens whole with
  | error => rfl
  | ok tokens =>
    have steps (stack : List UInt32) (token : Text) (mem : token ∈ tokens) :
        polishStep? read? whole stack token = some (Polish.step read whole stack token) := by
      have le : token.length ≤ whole.length := by
        simpa [Polish.Place.taken] using Polish.length_le_of_mem_tokensFrom tokens_eq mem
      rw [polishStep?, Polish.step]
      cases Operator.ofText? token with
      | some op =>
        rcases stack with _ | ⟨right, _ | ⟨left, rest⟩⟩
        · rfl
        · rfl
        · simp only [result?_eq, Option.bind_eq_bind, Option.bind_some, Polish.operate]
          cases op.apply left right <;> rfl
      | none =>
        have operand : operand? read? token = some (Polish.operand read token) :=
          operand?_eq (braced_of_mem_tokens tokens_eq mem) (chain token le)
            (fun pos => enclosed token pos le) fun inside length => polish inside (by omega)
        simp only [operand]
        rfl
    simp only [Option.bind_eq_bind, Option.bind_some, foldChecked?_eq steps]
    rfl

def insideParens? (t : Text) : Option (Option Text) :=
  if t.head? = some '(' then do
    match ← findClose? parentheses t 0 with
    | none => return none
    | some close =>
      if close = (← less? (size t) 1) then return some (← slice? t 1 close) else return none
  else some none

theorem insideParens?_eq (t : Text) : insideParens? t = some (enclosedBody? t) := by
  rw [insideParens?, enclosedBody?]
  cases t with
  | nil => rfl
  | cons c rest =>
    by_cases paren : c = '('
    · subst paren
      obtain ⟨close, length, closes, found, group⟩ : ∃ close length,
          findClose? parentheses ('(' :: rest) (size []) = some close ∧
          Found ')' ([] ++ ['(']) rest length close ∧
          parentheses.groupLength ('(' :: rest) = length.map (· + 1) :=
        findClose?_found Brackets.proper_parentheses (by rfl)
      rw [size_nil] at closes
      rw [closes, group]
      simp only [List.head?_cons, if_true, Option.bind_eq_bind, Option.bind_some, decide_true,
        Bool.true_and]
      cases found with
      | missing => rfl
      | here inside after parts =>
        have whole : '(' :: rest = ['('] ++ inside ++ ')' :: after := by rw [parts]; rfl
        have place : size ([] ++ ['('] ++ inside) = 1 + size inside := by
          rw [List.nil_append, size_append, size_narrow rfl]
        have total : size ('(' :: rest) = 1 + size inside + (1 + size after) := by
          rw [whole, size_append, size_append, size_narrow rfl, size_cons]
          rfl
        have length : ('(' :: rest).length = inside.length + 2 + after.length := by
          rw [parts]
          simp only [List.length_cons, List.length_append]
          omega
        have shrinks : less? (size ('(' :: rest)) 1 = some (1 + size inside + size after) := by
          rw [less?, if_pos (by omega), total]
          congr 1
          omega
        rw [shrinks, place, length]
        simp only [Option.bind_some, Option.map_some]
        cases after with
        | nil =>
          have cut := slice?_eq whole (size_narrow rfl).symm (by rw [size_narrow rfl])
          rw [cut, parts, inner_group]
          simp
        | cons c after =>
          have := size_ne_zero c after
          rw [if_neg (by omega)]
          simp
    · simp [paren]

/-- Evaluation with at most `depth` levels of nesting; there is no answer beyond them. -/
def evalWithin? (env : Env) : Nat → Form → Text → Option Reading
  | 0, _, _ => none
  | depth + 1, .polish, text => polish? (evalWithin? env depth) text
  | depth + 1, .chain, text =>
    match env.lookup (trim text) with
    | some value => some (valueOf value)
    | none => chain? env (evalWithin? env depth) (trim text)
  | depth + 1, .enclosed, text =>
    match env.lookup (trim text) with
    | some value => some (valueOf value)
    | none => do
      match ← insideParens? (trim text) with
      | some body => chain? env (evalWithin? env depth) body
      | none => return .error (.fault (.unterminated (trim text)))

theorem evalWithin?_eq (env : Env) {depth : Nat} {form : Form} {t : Text}
    (h : form.depth t ≤ depth) : evalWithin? env depth form t = some (evalWithin env depth form t) := by
  induction depth generalizing form t with
  | zero => cases form <;> simp [Form.depth] at h
  | succ depth ih =>
    have trimmed := Text.length_trim_le t
    cases form with
    | polish =>
      simp only [Form.depth] at h
      exact polish?_eq (fun token le => ih (by simp only [Form.depth]; omega))
        (fun token pos le => ih (by simp only [Form.depth]; omega))
        (fun inside le => ih (by simp only [Form.depth]; omega))
    | chain =>
      simp only [Form.depth] at h
      rw [evalWithin?, evalWithin]
      cases env.lookup (trim t) with
      | some value => rfl
      | none =>
        exact chain?_eq (fun group pos le => ih (by simp only [Form.depth]; omega))
          (fun inside le => ih (by simp only [Form.depth]; omega))
    | enclosed =>
      simp only [Form.depth] at h
      rw [evalWithin?, evalWithin, insideParens?_eq]
      cases env.lookup (trim t) with
      | some value => rfl
      | none =>
        simp only [Option.bind_eq_bind, Option.bind_some]
        cases inside : enclosedBody? (trim t) with
        | none => rfl
        | some body =>
          have := enclosedBody?_length inside
          exact chain?_eq (fun group pos le => ih (by simp only [Form.depth]; omega))
            (fun inside le => ih (by simp only [Form.depth]; omega))

def eval? (env : Env) (text : Text) : Option Reading := evalWithin? env (text.length + 2) .chain text

theorem eval?_eq (env : Env) (text : Text) : eval? env text = some (Expression.eval env text) :=
  evalWithin?_eq env (Form.depth_le .chain text)

end Assembler65816.Bytewise
