import Assembler65816.Proofs.Layout
import Assembler65816.Proofs.Location

/-! # Looking up whole texts

Wherever a chain is expected, its whole text is first looked up in the table. `Expression.scan`
reads the same texts without that look-up: a word is then read as an atom, which is a numeral if it
starts with a digit and a symbol otherwise. The look-up is a shortcut for the symbols. It is one for
every text exactly when each name of the table that starts with a digit has the value it would have
as a numeral, so in particular when no name starts with a digit. The names of the tables that a run
comes by are words, which may start with a digit.
-/
namespace Assembler65816

namespace Expression

def scanWithin (env : Env) : Nat → Form → Text → Reading
  | 0, _, text => .error (.fault (.unterminated text))
  | depth + 1, .polish, text => Polish.eval (scanWithin env depth) text
  | depth + 1, .chain, text => Chain.eval env (scanWithin env depth) (Text.trim text)
  | depth + 1, .enclosed, text =>
    match enclosedBody? (Text.trim text) with
    | some body => Chain.eval env (scanWithin env depth) body
    | none => .error (.fault (.unterminated (Text.trim text)))

def scan (env : Env) (text : Text) : Reading := scanWithin env (text.length + 2) .chain text

variable {env : Env}

theorem inert_of_isWord {t : Text} (word : isWord t) : ∀ c ∈ t, isInert c = true := by
  intro c mem
  rw [isInert, word.2 c mem, Bool.true_or]

theorem trim_of_isWord {t : Text} (word : isWord t) : Text.trim t = t := by
  have inert := inert_of_isWord word
  apply trim_eq_self
  · intro c head
    exact isBlank_of_isInert (inert c (List.mem_of_mem_head? head))
  · intro c last
    exact isBlank_of_isInert (inert c (List.mem_of_mem_getLast? last))

theorem Atom.read_digits {t : Text} (word : isWord t) (digit : startsWithDigit t = true) :
    Atom.read env t = Atom.number 10 t t := by
  have trim := trim_of_isWord word
  cases t with
  | nil => exact absurd rfl word.1
  | cons c rest =>
    have ne (d : Char) (hd : isInert d = false) : c ≠ d :=
      isInert_ne (inert_of_isWord word c List.mem_cons_self) hd
    have digit : c.isDigit = true := digit
    unfold Atom.read
    simp only [trim, Selector.ofChar?_eq_none (ne '<' rfl) (ne '>' rfl) (ne '^' rfl)]
    simp [Atom.body, digit]

theorem Chain.eval_word (read : Form → Text → Reading) {t : Text} (word : isWord t) :
    Chain.eval env read t = Atom.read env t := by
  have items := Chain.items_of_inert t (inert_of_isWord word) []
  rw [List.append_nil, Chain.items, List.append_nil] at items
  unfold Chain.eval
  rw [items, Chain.foldlM_pieces]
  cases t with
  | nil => exact absurd rfl word.1
  | cons c rest =>
    change (Chain.State.flush env none { term := c :: rest } >>= _) = _
    simp only [Chain.State.flush, Chain.State.operand]
    cases Atom.read env (c :: rest) <;> rfl

/-- Looking up a whole text brings nothing that reading it would not: names are words, and a name
that starts with a digit is a numeral of its value. -/
structure Shortcut (env : Env) : Prop where
  words : ∀ name, env.lookup name ≠ none → isWord name
  numerals : ∀ name value, env.lookup name = some value → startsWithDigit name = true →
    ∃ word, value = .known word ∧ Numeral.word? 10 name = some word

theorem Shortcut.eval_name (h : Shortcut env) (read : Form → Text → Reading) {name : Text}
    {value : Value} (found : env.lookup name = some value) :
    Chain.eval env read name = valueOf value := by
  have word : isWord name := h.words name (by simp [found])
  by_cases digit : startsWithDigit name = true
  · obtain ⟨number, rfl, numeral⟩ := h.numerals name value found digit
    rw [Chain.eval_word read word, Atom.read_digits word digit, Atom.number, numeral]
    rfl
  · have letter : isSymbolName name = true := isSymbolName_of_isWord word (by simpa using digit)
    rw [Chain.eval_symbolName read letter, Atom.symbol, found]
    cases value <;> rfl

theorem Shortcut.not_paren (h : Shortcut env) {t : Text} (paren : t.head? = some '(') :
    env.lookup t = none := by
  by_contra present
  have word := h.words t present
  have inert := word.2 '(' (List.mem_of_mem_head? paren)
  exact absurd inert (by decide)

/-- The value of a chain depends on its groups only; those in parentheses start with one. -/
theorem Chain.eval_congr_groups {read read' : Form → Text → Reading} {body : Text}
    (parens : ∀ group, group.head? = some '(' → read .enclosed group = read' .enclosed group)
    (braces : ∀ inside, read .polish inside = read' .polish inside) :
    Chain.eval env read body = Chain.eval env read' body := by
  unfold Chain.eval
  rw [Chain.foldlM_step_congr _ (fun group mem => parens group (Chain.plausible_of_mem_items mem))
    fun inside _ => braces inside]

theorem Shortcut.evalWithin_eq (h : Shortcut env) (depth : Nat) {form : Form} {t : Text}
    (paren : form = .enclosed → t.head? = some '(') :
    evalWithin env depth form t = scanWithin env depth form t := by
  induction depth generalizing form t with
  | zero => rfl
  | succ depth ih =>
    have groups : ∀ body, Chain.eval env (evalWithin env depth) body =
        Chain.eval env (scanWithin env depth) body := by
      intro body
      apply Chain.eval_congr_groups
      · intro group open_paren
        exact ih fun _ => open_paren
      · intro inside
        exact ih nofun
    cases form with
    | polish =>
      apply Polish.eval_congr
      · intro token _
        exact ih nofun
      · intro token open_paren _
        exact ih fun _ => open_paren
      · intro inside _
        exact ih nofun
    | chain =>
      rw [evalWithin, scanWithin, ← groups]
      cases found : env.lookup (Text.trim t) with
      | none => rfl
      | some value => exact (h.eval_name _ found).symm
    | enclosed =>
      rw [evalWithin, scanWithin, h.not_paren (head_trim_of_paren (paren rfl))]
      cases enclosedBody? (Text.trim t) with
      | none => rfl
      | some body => exact groups body

theorem Shortcut.eval_eq (h : Shortcut env) (text : Text) : eval env text = scan env text :=
  h.evalWithin_eq _ nofun

/-- Where leaving out the look-ups of whole texts changes nothing, a name that starts with a digit
is a numeral of its value. -/
theorem numeral_of_eval_eq {name : Text} {value : Value} (word : isWord name)
    (digit : startsWithDigit name = true) (found : env.lookup name = some value)
    (same : eval env name = scan env name) :
    ∃ number, value = .known number ∧ Numeral.word? 10 name = some number := by
  have looked_up : eval env name = valueOf value := by
    rw [eval, evalForm_chain, trim_of_isWord word, found]
  have read : scan env name = Atom.number 10 name name := by
    rw [scan, scanWithin, trim_of_isWord word, Chain.eval_word _ word, Atom.read_digits word digit]
  rw [looked_up, read, Atom.number] at same
  cases numeral : Numeral.word? 10 name with
  | none =>
    rw [numeral] at same
    cases value <;> cases same
  | some number =>
    rw [numeral] at same
    cases value with
    | unresolved => cases same
    | known other =>
      cases same
      exact ⟨number, rfl, rfl⟩

end Expression

namespace Tracing

def scan (env : Env) (text : Text) : Tracing Value := ofReading (Expression.scan env text)

theorem eval_eq_scan_iff {env : Env} {text : Text} :
    Tracing.eval env text = Tracing.scan env text ↔
      Expression.eval env text = Expression.scan env text := by
  rw [eval_eq, scan]
  exact ⟨ofReading_injective, congrArg ofReading⟩

end Tracing

namespace Assembly

variable {config : Config} {lines : List SourceLine} {t : SymbolTable}

/-- The tables that a run comes by: at its start, in front of a line, behind some labels of a line,
and at the end of a pass while symbols are tried again. -/
inductive Visited (config : Config) (lines : List SourceLine) : SymbolTable → Prop where
  | start : Visited config lines (new config lines).work.symbols
  | line {p : Nat} {a : Assembly} {r : Record} {w : Work} (reached : (new config lines).Reached p a)
      (met : Meets config a.records (a.work.startPass config (p + 1)) r w) :
      Visited config lines w.symbols
  | labels {p : Nat} {a : Assembly} {r : Record} {w w' : Work} {names : List Text}
      (reached : (new config lines).Reached p a)
      (met : Meets config a.records (a.work.startPass config (p + 1)) r w)
      (front : names <+: (ParsedLine.ofText r.source.text).labels)
      (labelled : Labelled config names w w') : Visited config lines w'.symbols
  | pass {p : Nat} {a : Assembly} {records : List Record} {w : Work} {t : SymbolTable}
      (reached : (new config lines).Reached p a)
      (passed : Passed config a.records (a.work.startPass config (p + 1)) records w)
      (swept : w.symbols.Swept t) : Visited config lines t

def DefinedBy (lines : List SourceLine) (t : SymbolTable) : Prop :=
  ∀ m, t.lookup m ≠ none → m ∈ definedNames lines

theorem DefinedBy.worded (h : DefinedBy lines t) : t.Worded :=
  fun m present => isWord_of_mem_definedNames (h m present)

theorem mem_definedNames {line : SourceLine} (mem : line ∈ lines) {m : Text}
    (name : m ∈ (ParsedLine.ofText line.text).names) : m ∈ definedNames lines :=
  List.mem_flatMap.mpr ⟨line, mem, name⟩

theorem DefinedBy.line {place : SourceLine} {w w' : Work} (mem : place ∈ lines)
    (h : CarriedOut config place w w') (defined : DefinedBy lines w.symbols) :
    DefinedBy lines w'.symbols := by
  intro m present
  rcases ((h.bound defined.worded).names m).mp present with before | new
  · exact defined m before
  · rw [ParsedLine.map_name_definitions] at new
    exact mem_definedNames mem new

theorem DefinedBy.meets {records : List Record} {r : Record} {w w' : Work}
    (sources : ∀ r ∈ records, r.source ∈ lines) (h : Meets config records w r w')
    (defined : DefinedBy lines w.symbols) : DefinedBy lines w'.symbols := by
  induction h with
  | here => exact defined
  | later line _ ih =>
    apply ih
    · intro r mem
      exact sources r (List.mem_cons_of_mem _ mem)
    · exact defined.line (sources _ List.mem_cons_self) (Step.runLine_run_ok line)

theorem DefinedBy.passed {records records' : List Record} {w w' : Work}
    (sources : ∀ r ∈ records, r.source ∈ lines) (h : Passed config records w records' w')
    (defined : DefinedBy lines w.symbols) : DefinedBy lines w'.symbols := by
  induction h with
  | nil => exact defined
  | cons line _ ih =>
    apply ih
    · intro r mem
      exact sources r (List.mem_cons_of_mem _ mem)
    · exact defined.line (sources _ List.mem_cons_self) (Step.runLine_run_ok line)

theorem DefinedBy.labelled {place : SourceLine} {names : List Text} {w w' : Work}
    (mem : place ∈ lines) (front : names <+: (ParsedLine.ofText place.text).labels)
    (h : Labelled config names w w') (defined : DefinedBy lines w.symbols) :
    DefinedBy lines w'.symbols := by
  intro m present
  have bound := h.bound defined.worded fun name label =>
    ParsedLine.isWord_of_mem_labels (front.subset label)
  rcases (bound.names m).mp present with before | new
  · exact defined m before
  · rw [List.map_map] at new
    obtain ⟨name, label, rfl⟩ := List.mem_map.mp new
    exact mem_definedNames mem (List.mem_append_left _ (front.subset label))

theorem Reached.definedBy {p : Nat} {a : Assembly} (h : (new config lines).Reached p a)
    (pass : Nat) : DefinedBy lines (a.work.startPass config pass).symbols := by
  intro m present
  rw [startPass_symbols] at present
  exact ((h.names m).mp present).2

/-- The names of every table that a run comes by are defined by its lines. -/
theorem Visited.definedBy (h : Visited config lines t) : DefinedBy lines t := by
  cases h with
  | start => exact fun m present => ((Reached.start.names m).mp present).2
  | line reached met => exact (reached.definedBy _).meets (fun _ mem => reached.mem_lines mem) met
  | labels reached met front labelled =>
    have before := (reached.definedBy _).meets (fun _ mem => reached.mem_lines mem) met
    exact before.labelled (reached.mem_lines met.mem) front labelled
  | pass reached passed swept =>
    have ended := (reached.definedBy _).passed (fun _ mem => reached.mem_lines mem) passed
    exact fun m present => ended m ((swept.names m).mp present)

/-- In every table that a run comes by, the look-up of whole texts is a shortcut for all texts,
value, fault and trace, exactly when each name that starts with a digit is a numeral of its own
value. It is one throughout when no line defines such a name. -/
theorem whole_lookup_shortcut (visited : Visited config lines t) :
    ((∀ address text, Tracing.eval (t.env address) text = Tracing.scan (t.env address) text) ↔
      ∀ name value, t.lookup name = some value → startsWithDigit name = true →
        ∃ word, value = .known word ∧ Numeral.word? 10 name = some word) ∧
    (LetterNames lines →
      ∀ address text, Tracing.eval (t.env address) text = Tracing.scan (t.env address) text) := by
  have defined := visited.definedBy
  have words : ∀ name, t.lookup name ≠ none → isWord name := defined.worded
  have shortcut : (∀ name value, t.lookup name = some value → startsWithDigit name = true →
        ∃ word, value = .known word ∧ Numeral.word? 10 name = some word) →
      ∀ address text, Tracing.eval (t.env address) text = Tracing.scan (t.env address) text := by
    intro numerals address text
    have h : Expression.Shortcut (t.env address) := ⟨words, numerals⟩
    exact Tracing.eval_eq_scan_iff.mpr (h.eval_eq text)
  constructor
  · constructor
    · intro same name value found digit
      have readings := Tracing.eval_eq_scan_iff.mp (same none name)
      exact Expression.numeral_of_eval_eq (words name (by simp [found])) digit found readings
    · exact shortcut
  · intro letters
    apply shortcut
    intro name value found digit
    have letter := letters name (defined name (by simp [found]))
    rw [digit] at letter
    cases letter

def plainSource : List SourceLine :=
  SourceLine.ofText "plain.asm" " org $80\n10 equ $A\n lda 10\n".toList

def digitSource : List SourceLine :=
  SourceLine.ofText "digit.asm" " org $80\n10 equ 5\n lda 10\n".toList

theorem visited_of_runPass (first : ((new config lines).runPass 1).1 = none) :
    Visited config lines ((new config lines).runPass 1).2.work.symbols := by
  rcases run : (new config lines).runPass 1 with ⟨ending, a⟩
  rw [run] at first
  obtain rfl : ending = none := first
  obtain ⟨w, passed, retried, _⟩ := runPass_none run
  exact .pass .start passed retried.swept

theorem whole_lookup_shortcut_plain :
    ∃ t, Visited { romSize := 16 } plainSource t ∧ t.lookup "10".toList = some (.known 10) ∧
      ∀ address text, Tracing.eval (t.env address) text = Tracing.scan (t.env address) text := by
  have visited : Visited { romSize := 16 } plainSource _ := visited_of_runPass (by decide +kernel)
  have entries : ((new { romSize := 16 } plainSource).runPass 1).2.work.symbols =
      ⟨[⟨"10".toList, .known 10, "$A".toList, some 0x80⟩]⟩ := by decide +kernel
  rw [entries] at visited
  refine ⟨_, visited, rfl, (whole_lookup_shortcut visited).1.mpr ?_⟩
  intro name value found _
  obtain ⟨s, here, rfl⟩ := Option.map_eq_some_iff.mp found
  obtain rfl := List.mem_singleton.mp (List.mem_of_find?_eq_some here)
  obtain rfl : "10".toList = name := SymbolTable.find?_name here
  exact ⟨10, rfl, by decide +kernel⟩

/-- A name that starts with a digit takes the place of the numeral. -/
theorem whole_lookup_overrides :
    ∃ t, Visited { romSize := 16 } digitSource t ∧
      Expression.eval (t.env (some 0x80)) "10".toList = .ok 5 ∧
      Expression.scan (t.env (some 0x80)) "10".toList = .ok 10 ∧
      Tracing.eval (t.env (some 0x80)) "10".toList ≠
        Tracing.scan (t.env (some 0x80)) "10".toList := by
  have visited : Visited { romSize := 16 } digitSource _ := visited_of_runPass (by decide +kernel)
  have looked_up : Expression.eval
      (((new { romSize := 16 } digitSource).runPass 1).2.work.symbols.env (some 0x80))
      "10".toList = .ok 5 := by decide +kernel
  have read : Expression.scan
      (((new { romSize := 16 } digitSource).runPass 1).2.work.symbols.env (some 0x80))
      "10".toList = .ok 10 := by decide +kernel
  refine ⟨_, visited, looked_up, read, fun same => ?_⟩
  have readings := Tracing.eval_eq_scan_iff.mp same
  rw [looked_up, read] at readings
  cases readings

end Assembly

end Assembler65816
