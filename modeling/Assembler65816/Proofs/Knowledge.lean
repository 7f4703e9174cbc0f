import Assembler65816.Expression.Depth
import Mathlib.Order.Basic

/-! # Evaluation and knowledge

An evaluation reads symbols of an environment. When the environment comes to know more, a value
or a fault that was already found stays; only an answer that waited for a symbol may change. New
names have to be symbol names: a word that starts with a digit would turn a numeral into a symbol.
-/
namespace Assembler65816

/-- Every symbol known in `env` has the same value in `more`, and no name is lost. -/
structure Env.Extends (env more : Env) : Prop where
  address : more.address = env.address
  known : ∀ name word, env.lookup name = some (.known word) →
    more.lookup name = some (.known word)
  present : ∀ name, env.lookup name ≠ none → more.lookup name ≠ none
  fresh : ∀ name, env.lookup name = none →
    more.lookup name = none ∨ isSymbolName name = true

theorem Env.Extends.refl (env : Env) : env.Extends env :=
  ⟨rfl, fun _ _ h => h, fun _ h => h, fun _ h => Or.inl h⟩

def Fault.endsBudget : Fault → Bool
  | .unresolvedSymbol _ | .noConvergence _ => true
  | _ => false

/-- Faults that reading a text does not find: beside those at the end of a run, that two definitions
disagree. -/
def Fault.beyondText : Fault → Bool
  | .duplicateSymbol _ => true
  | cause => cause.endsBudget

theorem Fault.endsBudget_of_text {cause : Fault} (h : cause.beyondText = false) :
    cause.endsBudget = false := by
  cases cause with
  | duplicateSymbol => rfl
  | _ => exact h

theorem Fault.kind_of_text {cause : Fault} (h : cause.beyondText = false) :
    cause.kind ≠ .duplicateSymbol := by
  cases cause with
  | duplicateSymbol => cases h
  | _ => exact Kind.noConfusion

namespace Expression

/-- What an answer found in `env` becomes when more is known: a value or a fault stays. An answer
that waits has one symbol it waits for, and stays as long as that symbol has no value. -/
inductive Advances {α : Type} (env : Env) (f : Env → Except Obstacle α) : Prop where
  | ok (a : α) (stays : ∀ more, env.Extends more → f more = .ok a)
  | fault {cause : Fault} (plain : cause.beyondText = false)
      (stays : ∀ more, env.Extends more → f more = .error (.fault cause))
  | missing {name : Text} (symbol : isSymbolName name = true) (absent : env.lookup name = none)
      (stays : ∀ more, env.Extends more → more.lookup name = none →
        f more = .error (.missing name))
  | pending {name : Text} (waits : env.lookup name = some .unresolved)
      (stays : ∀ more, env.Extends more → more.lookup name = some .unresolved →
        f more = .error .pending)

variable {env more : Env} {α β : Type}

theorem Advances.of_ok (a : α) : Advances env fun _ => .ok a := .ok a fun _ _ => rfl

theorem Advances.of_fault {cause : Fault} (plain : cause.beyondText = false) :
    Advances env fun _ => (.error (.fault cause) : Except Obstacle α) :=
  .fault plain fun _ _ => rfl

theorem Advances.answer {f : Env → Except Obstacle α} (h : Advances env f) :
    match f env with
    | .ok a => ∀ more, env.Extends more → f more = .ok a
    | .error (.fault cause) => cause.beyondText = false ∧
        ∀ more, env.Extends more → f more = .error (.fault cause)
    | .error (.missing name) => isSymbolName name = true ∧ env.lookup name = none ∧
        ∀ more, env.Extends more → more.lookup name = none → f more = .error (.missing name)
    | .error .pending => ∃ name, env.lookup name = some .unresolved ∧
        ∀ more, env.Extends more → more.lookup name = some .unresolved →
          f more = .error .pending := by
  cases h with
  | ok a stays =>
    rw [stays env (.refl env)]
    exact stays
  | fault plain stays =>
    rw [stays env (.refl env)]
    exact ⟨plain, stays⟩
  | missing symbol absent stays =>
    rw [stays env (.refl env) absent]
    exact ⟨symbol, absent, stays⟩
  | pending waits stays =>
    rw [stays env (.refl env) waits]
    exact ⟨_, waits, stays⟩

theorem Advances.congr {f g : Env → Except Obstacle α} (h : Advances env f)
    (same : ∀ more, env.Extends more → g more = f more) : Advances env g := by
  cases h with
  | ok a stays => exact .ok a fun more ext => (same more ext).trans (stays more ext)
  | fault plain stays => exact .fault plain fun more ext => (same more ext).trans (stays more ext)
  | missing symbol absent stays =>
    exact .missing symbol absent fun more ext absent' =>
      (same more ext).trans (stays more ext absent')
  | pending waits stays =>
    exact .pending waits fun more ext waits' => (same more ext).trans (stays more ext waits')

theorem Advances.bind {f : Env → Except Obstacle α} {g : α → Env → Except Obstacle β}
    (h : Advances env f) (k : ∀ a, Advances env (g a)) :
    Advances env fun e => f e >>= fun a => g a e := by
  cases h with
  | ok a stays =>
    refine (k a).congr fun more ext => ?_
    rw [stays more ext]
    rfl
  | fault plain stays =>
    refine .fault plain fun more ext => ?_
    rw [stays more ext]
    rfl
  | missing symbol absent stays =>
    refine .missing symbol absent fun more ext absent' => ?_
    rw [stays more ext absent']
    rfl
  | pending waits stays =>
    refine .pending waits fun more ext waits' => ?_
    rw [stays more ext waits']
    rfl

theorem Advances.map {f : Env → Except Obstacle α} (g : α → β) (h : Advances env f) :
    Advances env fun e => (f e).map g := by
  refine (h.bind fun a => of_ok (g a)).congr fun more _ => ?_
  cases f more <;> rfl

theorem Advances.foldlM {items : List α} {step : Env → β → α → Except Obstacle β}
    (h : ∀ item ∈ items, ∀ s, Advances env fun e => step e s item) (s : β) :
    Advances env fun e => items.foldlM (step e) s := by
  induction items generalizing s with
  | nil => exact .of_ok s
  | cons item rest ih =>
    simp only [List.foldlM_cons]
    exact (h item (by simp) s).bind fun s => ih (fun i hi => h i (by simp [hi])) s

theorem toNat_bounds {c low high : Char} (h : low.val ≤ c.val ∧ c.val ≤ high.val) :
    low.toNat ≤ c.toNat ∧ c.toNat ≤ high.toNat :=
  ⟨UInt32.le_iff_toNat_le.mp h.1, UInt32.le_iff_toNat_le.mp h.2⟩

theorem isAlpha_bounds {c : Char} (h : c.isAlpha = true) :
    65 ≤ c.toNat ∧ c.toNat ≤ 90 ∨ 97 ≤ c.toNat ∧ c.toNat ≤ 122 := by
  rcases Bool.or_eq_true_iff.mp (h : (c.isUpper || c.isLower) = true) with upper | lower
  · have inside : 'A'.val ≤ c.val ∧ c.val ≤ 'Z'.val := of_decide_eq_true upper
    exact Or.inl (toNat_bounds inside)
  · have inside : 'a'.val ≤ c.val ∧ c.val ≤ 'z'.val := by
      obtain ⟨above, below⟩ := Bool.and_eq_true_iff.mp lower
      exact ⟨of_decide_eq_true above, of_decide_eq_true below⟩
    exact Or.inr (toNat_bounds inside)

theorem isDigit_bounds {c : Char} (h : c.isDigit = true) : 48 ≤ c.toNat ∧ c.toNat ≤ 57 := by
  have inside : '0'.val ≤ c.val ∧ c.val ≤ '9'.val := by
    obtain ⟨above, below⟩ := Bool.and_eq_true_iff.mp h
    exact ⟨of_decide_eq_true above, of_decide_eq_true below⟩
  exact toNat_bounds inside

theorem isNameChar_bounds {c : Char} (h : isNameChar c = true) :
    48 ≤ c.toNat ∧ c.toNat ≤ 122 := by
  rcases Bool.or_eq_true_iff.mp h with word | line
  · rcases Bool.or_eq_true_iff.mp (word : (c.isAlpha || c.isDigit) = true) with alpha | digit
    · have bounds := isAlpha_bounds alpha
      omega
    · have bounds := isDigit_bounds digit
      omega
  · obtain rfl := eq_of_beq line
    decide

theorem isBlank_of_isNameChar {c : Char} (h : isNameChar c = true) : isBlank c = false := by
  have bounds := isNameChar_bounds h
  simp only [isBlank, Bool.or_eq_false_iff, Bool.and_eq_false_iff, decide_eq_false_iff_not,
    beq_eq_false_iff_ne]
  omega

def isInert (c : Char) : Bool := isNameChar c || c == '$'

theorem isInert_ne {c d : Char} (h : isInert c = true) (hd : isInert d = false) : c ≠ d := by
  rintro rfl
  rw [h] at hd
  contradiction

section Inert

variable {c : Char} (h : isInert c = true)

include h

theorem isBlank_of_isInert : isBlank c = false := by
  rcases Bool.or_eq_true_iff.mp h with name | counter
  · exact isBlank_of_isNameChar name
  · obtain rfl := eq_of_beq counter
    rfl

theorem isAsciiBlank_of_isInert : isAsciiBlank c = false := by
  by_contra blank
  have blank := Text.isBlank_of_isAsciiBlank (by simpa using blank)
  rw [isBlank_of_isInert h] at blank
  contradiction

theorem isQuoteMark_of_isInert : isQuoteMark c = false := by
  simp [isQuoteMark, isInert_ne h (d := '\'') rfl, isInert_ne h (d := '"') rfl]

theorem isBracket_of_isInert : isBracket c = false := by
  simp [isBracket, isInert_ne h (d := '(') rfl, isInert_ne h (d := ')') rfl,
    isInert_ne h (d := '{') rfl, isInert_ne h (d := '}') rfl]

end Inert

theorem Chain.items_inert {body : Text} {c : Char} (h : isInert c = true) (rest : Text) :
    Chain.items body 0 (c :: rest) = .piece [c] :: Chain.items body 0 rest := by
  have ne (d : Char) (hd : isInert d = false) : c ≠ d := isInert_ne h hd
  have shift : Chain.shiftAt? c rest = none := by simp [Chain.shiftAt?, ne '<' rfl, ne '>' rfl]
  have op : Chain.operatorAt? c rest = none := by
    simp [Chain.operatorAt?, ne '+' rfl, ne '-' rfl, ne '*' rfl, ne '/' rfl, ne '%' rfl, ne '|' rfl,
      ne '&' rfl, ne '^' rfl]
  simp only [Chain.items, isAsciiBlank_of_isInert h, shift, op, isQuoteMark_of_isInert h]
  simp [ne '(' rfl, ne ')' rfl, ne '{' rfl, ne '}' rfl]

theorem Chain.items_of_inert (body : Text) {t : Text} (h : ∀ c ∈ t, isInert c = true)
    (rest : Text) : Chain.items body 0 (t ++ rest) =
      (t.map fun c => .piece [c]) ++ Chain.items body 0 rest := by
  induction t with
  | nil => rfl
  | cons c t ih =>
    rw [List.cons_append, Chain.items_inert (h c (by simp)), ih fun d hd => h d (by simp [hd])]
    rfl

theorem Chain.foldlM_pieces (read : Form → Text → Reading) (body t : Text) (s : Chain.State) :
    (t.map fun c => Chain.Item.piece [c]).foldlM (Chain.State.step env read body) s =
      .ok { s with term := s.term ++ t } := by
  induction t generalizing s with
  | nil => simp [pure, Except.pure]
  | cons c rest ih =>
    simp only [List.map_cons, List.foldlM_cons, Chain.State.step]
    change List.foldlM _ _ _ = _
    rw [ih]
    simp

theorem isNameChar_ne {c d : Char} (h : isNameChar c = true) (hd : isNameChar d = false) :
    c ≠ d := by
  rintro rfl
  rw [h] at hd
  contradiction

theorem isDigit_of_isNameStart {c : Char} (h : isNameStart c = true) : c.isDigit = false := by
  by_contra digit
  have bounds := isDigit_bounds (by simpa using digit)
  rcases Bool.or_eq_true_iff.mp h with alpha | line
  · have letter := isAlpha_bounds alpha
    omega
  · obtain rfl := eq_of_beq line
    exact absurd bounds (by decide)

theorem head_isNameStart {t : Text} (h : isSymbolName t = true) :
    t.head?.any isNameStart = true := by
  cases t with
  | nil => cases h
  | cons c rest => exact (Bool.and_eq_true_iff.mp h).1

theorem trim_eq_self {t : Text} (head : ∀ c ∈ t.head?, isBlank c = false)
    (last : ∀ c ∈ t.getLast?, isBlank c = false) : Text.trim t = t := by
  have keep {s : Text} (h : ∀ c ∈ s.head?, isBlank c = false) : s.dropWhile isBlank = s := by
    cases s with
    | nil => rfl
    | cons c rest => exact List.dropWhile_cons_of_neg (by simp [h c (by simp)])
  rw [Text.trim, Text.trimStart, keep head, Text.trimEnd,
    keep (by rw [List.head?_reverse]; exact last), List.reverse_reverse]

theorem nameChars_of_isSymbolName {t : Text} (h : isSymbolName t = true) :
    ∀ c ∈ t, isNameChar c = true := by
  cases t with
  | nil => simp
  | cons c rest =>
    simp only [isSymbolName, Bool.and_eq_true, List.all_eq_true] at h
    intro d hd
    rcases List.mem_cons.mp hd with rfl | hd
    · simp only [isNameStart, Bool.or_eq_true] at h
      simp only [isNameChar, Char.isAlphanum, Bool.or_eq_true]
      exact h.1.imp_left Or.inl
    · exact h.2 d hd

theorem inert_of_isSymbolName {t : Text} (h : isSymbolName t = true) :
    ∀ c ∈ t, isInert c = true := by
  intro c hc
  rw [isInert, nameChars_of_isSymbolName h c hc, Bool.true_or]

theorem Selector.ofChar?_eq_none {c : Char} (low : c ≠ '<') (high : c ≠ '>') (bank : c ≠ '^') :
    Selector.ofChar? c = none := by
  unfold Selector.ofChar?
  split
  · exact absurd rfl low
  · exact absurd rfl high
  · exact absurd rfl bank
  · rfl

theorem Atom.body_symbolName {t : Text} (h : isSymbolName t = true) (text : Text) :
    Atom.body env text t = Atom.symbol env t := by
  have chars := nameChars_of_isSymbolName h
  cases t with
  | nil => simp [isSymbolName] at h
  | cons c rest =>
    have ne (d : Char) (hd : isNameChar d = false) : c ≠ d := isNameChar_ne (chars c (by simp)) hd
    have start : isNameStart c = true := by
      simp only [isSymbolName, Bool.and_eq_true] at h
      exact h.1
    have quote : isQuoteMark c = false := by simp [isQuoteMark, ne '\'' rfl, ne '"' rfl]
    simp [Atom.body, isDigit_of_isNameStart start, ne '$' rfl, ne '%' rfl, ne '&' rfl, quote, h]

/-- A symbol name is read as an atom, and the atom as a symbol. -/
theorem Atom.read_symbolName {t : Text} (h : isSymbolName t = true) :
    Atom.read env t = Atom.symbol env t := by
  have inert := inert_of_isSymbolName h
  have trim : Text.trim t = t :=
    trim_eq_self (fun c hc => isBlank_of_isInert (inert c (List.mem_of_mem_head? hc)))
      fun c hc => isBlank_of_isInert (inert c (List.mem_of_mem_getLast? hc))
  cases t with
  | nil => simp [isSymbolName] at h
  | cons c rest =>
    have ne (d : Char) (hd : isInert d = false) : c ≠ d := isInert_ne (inert c (by simp)) hd
    unfold Atom.read
    simp only [trim, Selector.ofChar?_eq_none (ne '<' rfl) (ne '>' rfl) (ne '^' rfl)]
    exact Atom.body_symbolName h _

theorem Chain.eval_symbolName (read : Form → Text → Reading) {t : Text}
    (h : isSymbolName t = true) : Chain.eval env read t = Atom.symbol env t := by
  have items := Chain.items_of_inert t (inert_of_isSymbolName h) []
  rw [List.append_nil, Chain.items, List.append_nil] at items
  unfold Chain.eval
  rw [items, Chain.foldlM_pieces]
  cases t with
  | nil => simp [isSymbolName] at h
  | cons c rest =>
    change (Chain.State.flush env none { term := c :: rest } >>= _) = _
    simp only [Chain.State.flush, Chain.State.operand, Atom.read_symbolName h]
    cases Atom.symbol env (c :: rest) <;> rfl

theorem Atom.symbol_advances (env : Env) {name : Text} (symbol : isSymbolName name = true) :
    Advances env fun e => Atom.symbol e name := by
  unfold Atom.symbol
  cases found : env.lookup name with
  | none => exact .missing symbol found fun more _ absent => by rw [absent]
  | some value =>
    cases value with
    | unresolved => exact .pending found fun more _ waits => by rw [waits]
    | known word => exact .ok word fun more ext => by rw [ext.known name word found]

theorem Atom.counter_advances (env : Env) (text : Text) :
    Advances env fun e => Atom.counter e text := by
  unfold Atom.counter
  cases set : env.address with
  | none => exact .fault rfl fun more ext => by rw [ext.address, set]
  | some address => exact .ok address fun more ext => by rw [ext.address, set]

theorem Atom.number_advances (env : Env) (radix : Nat) (digits text : Text) :
    Advances env fun _ => Atom.number radix digits text := by
  unfold Atom.number
  split
  · exact .of_ok _
  · exact .of_fault rfl

theorem Atom.literal_advances (env : Env) (mark : Char) (rest text : Text) :
    Advances env fun _ => Atom.literal mark rest text := by
  unfold Atom.literal
  split
  · exact .of_fault rfl
  · split
    · exact .of_ok _
    · exact .of_fault rfl

theorem Atom.body_advances (env : Env) (text t : Text) :
    Advances env fun e => Atom.body e text t := by
  cases t with
  | nil => exact .of_fault rfl
  | cons c rest =>
    simp only [Atom.body]
    split_ifs with _ _ _ _ _ _ symbol
    · exact number_advances env 10 _ text
    · exact counter_advances env text
    · exact number_advances env 16 rest text
    · exact number_advances env 2 rest text
    · exact number_advances env 8 rest text
    · exact literal_advances env c rest text
    · exact symbol_advances env symbol
    · exact .of_fault rfl

theorem Atom.read_advances (env : Env) (text : Text) :
    Advances env fun e => Atom.read e text := by
  unfold Atom.read
  split
  · exact .of_fault rfl
  · split
    · exact (body_advances env _ _).map _
    · exact body_advances env _ _

theorem head_trim_of_not_blank {c : Char} (rest : Text) (h : isBlank c = false) :
    (Text.trim (c :: rest)).head? = some c := by
  have start : Text.trimStart (c :: rest) = c :: rest :=
    List.dropWhile_cons_of_neg (by simp [h])
  rw [Text.trim, start, Text.trimEnd, List.reverse_cons, List.dropWhile_append]
  split
  · simp [h]
  · simp

theorem head_trim_of_paren {t : Text} (h : t.head? = some '(') :
    (Text.trim t).head? = some '(' := by
  cases t with
  | nil => simp at h
  | cons c rest =>
    obtain rfl : c = '(' := by simpa using h
    exact head_trim_of_not_blank rest rfl

/-- What the induction on the depth says of the readers of groups. A text in parentheses is never a
symbol name, so they need to agree only on texts that start with one. -/
def ReadersAdvance (env : Env) (read : Env → Form → Text → Reading) : Prop :=
  ∀ form t, (form = .enclosed → (Text.trim t).head? = some '(') →
    Advances env fun e => read e form t

variable {read : Env → Form → Text → Reading}

theorem Chain.flush_advances (env : Env) (next : Option Operator) (s : Chain.State) :
    Advances env fun e => s.flush e next := by
  have operand : Advances env fun e => s.operand e := by
    unfold Chain.State.operand
    split
    · exact .of_ok _
    · exact (Atom.read_advances env _).map some
    · exact .of_fault rfl
  have combine (word : Option UInt32) : Advances env fun _ => s.combine word := by
    unfold Chain.State.combine
    split
    · exact .of_ok _
    · split
      · exact .of_ok _
      · split
        · exact .of_ok _
        · exact .of_fault rfl
  exact operand.bind fun word => (combine word).bind fun total => .of_ok _

theorem Chain.closeGroup_advances (env : Env) (body : Text) (word : UInt32) (s : Chain.State) :
    Advances env fun _ => s.closeGroup body word := by
  unfold Chain.State.closeGroup
  split
  · exact .of_ok _
  · split
    · exact .of_ok _
    · exact .of_fault rfl
  · exact .of_fault rfl

/-- Where the items of a chain come from: a group in parentheses starts with one, and a fault is
one of expressions. -/
def Chain.Item.Plausible : Chain.Item → Prop
  | .parens group => group.head? = some '('
  | .fault cause => cause.beyondText = false
  | _ => True

theorem Chain.plausible_of_mem_items {body t : Text} {skip : Nat} {item : Chain.Item}
    (h : item ∈ Chain.items body skip t) : item.Plausible := by
  fun_induction Chain.items body skip t with
  | case1 => cases h
  | case2 _ _ _ ih | case3 _ _ _ ih => exact ih h
  | case8 c rest _ _ hc n hn _ _ ih =>
    rcases List.mem_cons.1 h with rfl | h
    · cases n with
      | zero => exact absurd (parentheses.span_bounds hn).1 (by omega)
      | succ n => simpa [Chain.Item.Plausible] using hc
    · exact ih h
  | case7 | case9 | case11 | case12 =>
    cases List.mem_singleton.1 h
    rfl
  | case4 _ _ _ _ _ ih | case5 _ _ _ _ _ _ ih | case6 _ _ _ _ _ _ _ _ ih
  | case10 _ _ _ _ _ _ _ _ _ _ ih | case13 _ _ _ _ _ _ _ _ _ ih =>
    rcases List.mem_cons.1 h with rfl | h
    · trivial
    · exact ih h

theorem Chain.eval_advances (hr : ReadersAdvance env read) (body : Text) :
    Advances env fun e => Chain.eval e (read e) body := by
  have step (item : Chain.Item) (mem : item ∈ Chain.items body 0 body) (s : Chain.State) :
      Advances env fun e => s.step e (read e) body item := by
    cases item with
    | operator op => exact flush_advances env _ s
    | piece text => exact .of_ok _
    | parens group =>
      exact (hr .enclosed group fun _ => head_trim_of_paren (plausible_of_mem_items mem)).bind
        fun word => closeGroup_advances env body word s
    | braces inside =>
      exact (hr .polish inside (by simp)).bind fun word => closeGroup_advances env body word s
    | fault cause => exact .of_fault (plausible_of_mem_items mem)
  exact (Advances.foldlM step {}).bind fun last =>
    (flush_advances env none last).bind fun last => .of_ok _

theorem Polish.fault_of_tokensFrom {whole t : Text} {place : Place} {cause : Fault}
    (h : tokensFrom whole place t = .error cause) : cause.beyondText = false := by
  have ofMap {x : Except Fault (List Text)} {token : Text}
      (ih : x = .error cause → cause.beyondText = false)
      (h : x.map (token :: ·) = .error cause) : cause.beyondText = false := by
    cases x with
    | error => exact ih h
    | ok => simp [Except.map] at h
  fun_induction tokensFrom whole place t with
  | case1 | case10 => contradiction
  | case5 | case7 | case8 | case11 | case13 =>
    cases h
    rfl
  | case2 _ _ _ ih | case3 _ _ _ ih | case9 _ _ _ _ _ _ ih | case14 _ _ _ _ _ _ ih => exact ih h
  | case4 _ _ _ _ _ _ ih | case6 _ _ _ _ _ _ _ ih | case12 _ _ _ _ _ ih => exact ofMap ih h

theorem Polish.eval_advances (hr : ReadersAdvance env read) (whole : Text) :
    Advances env fun e => Polish.eval (read e) whole := by
  have operand (token : Text) : Advances env fun e => Polish.operand (read e) token := by
    unfold Polish.operand
    split_ifs with brace paren
    · exact hr .polish _ (by simp)
    · exact hr .enclosed _ fun _ => head_trim_of_paren paren
    · exact hr .chain _ (by simp)
  have step (stack : List UInt32) (token : Text) :
      Advances env fun e => Polish.step (read e) whole stack token := by
    unfold Polish.step
    split
    · unfold Polish.operate
      split
      · split
        · exact .of_ok _
        · exact .of_fault rfl
      · exact .of_fault rfl
    · exact (operand token).map _
  have result (stack : List UInt32) : Advances env fun _ => Polish.result whole stack := by
    unfold Polish.result
    split
    · exact .of_fault rfl
    · exact .of_ok _
    · exact .of_fault rfl
  unfold Polish.eval
  cases ht : Polish.tokens whole with
  | error cause => exact .of_fault (fault_of_tokensFrom ht)
  | ok tokens => exact (Advances.foldlM (fun token _ stack => step stack token) []).bind result

/-- A symbol of the environment, or what is read in its place. A text that is not in the
environment is not in a later one either, unless it is a symbol name. -/
theorem Advances.of_lookup {name : Text} {f : Env → Reading} (h : Advances env f)
    (fresh : isSymbolName name = true → ∀ more, more.lookup name = none →
      f more = .error (.missing name)) :
    Advances env fun e => match e.lookup name with
      | some value => valueOf value
      | none => f e := by
  cases found : env.lookup name with
  | some value =>
    cases value with
    | unresolved => exact .pending found fun more _ waits => by rw [waits]; rfl
    | known word => exact .ok word fun more ext => by rw [ext.known name word found]; rfl
  | none =>
    by_cases symbol : isSymbolName name = true
    · refine .missing symbol found fun more _ absent => ?_
      rw [absent]
      exact fresh symbol more absent
    · refine h.congr fun more ext => ?_
      have absent : more.lookup name = none := (ext.fresh name found).resolve_right symbol
      rw [absent]

theorem evalWithin_advances (env : Env) (depth : Nat) :
    ReadersAdvance env fun e => evalWithin e depth := by
  induction depth with
  | zero =>
    intro form t _
    exact .of_fault rfl
  | succ depth ih =>
    intro form t head
    cases form with
    | polish => exact Polish.eval_advances ih t
    | chain =>
      simp only [evalWithin]
      refine (Chain.eval_advances ih _).of_lookup fun symbol more absent => ?_
      simp [Chain.eval_symbolName _ symbol, Atom.symbol, absent]
    | enclosed =>
      simp only [evalWithin]
      refine Advances.of_lookup ?_ fun symbol _ _ => ?_
      · cases enclosedBody? (Text.trim t) with
        | some body => exact Chain.eval_advances ih body
        | none => exact .of_fault rfl
      · exact absurd (nameChars_of_isSymbolName symbol '(' (List.mem_of_mem_head? (head rfl)))
          (by decide)

theorem eval_advances (env : Env) (t : Text) : Advances env fun e => eval e t :=
  evalWithin_advances env _ .chain t (by simp)

theorem eval_of_extends (h : env.Extends more) {t : Text} {word : UInt32}
    (he : eval env t = .ok word) : eval more t = .ok word := by
  have answer := (eval_advances env t).answer
  rw [he] at answer
  exact answer more h

end Expression

end Assembler65816
