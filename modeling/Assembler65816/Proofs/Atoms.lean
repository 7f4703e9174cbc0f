import Assembler65816.Proofs.Scanning

/-! # Written atoms

An atom of the grammar is solid, goes into the term of a chain as a whole and is read back as what
it means.
-/
namespace Assembler65816.Grammar

open Expression

theorem Radix.base_le (radix : Radix) : radix.base ≤ 16 := by cases radix <;> decide

theorem digitChar_facts : ∀ value < 16, ∀ upper : Bool,
    let c := if upper then (Nat.digitChar value).toUpper else Nat.digitChar value
    isNameChar c = true ∧ Numeral.digitValue c = some value ∧ (value < 10 → c.isDigit = true) := by
  decide

namespace Digit

variable {radix : Radix} (d : Digit radix)

theorem value_lt : d.value.val < 16 := d.value.isLt.trans_le radix.base_le

theorem isNameChar_char : isNameChar d.char = true := (digitChar_facts _ d.value_lt d.upper).1

theorem isInert_char : isInert d.char = true := by
  rw [isInert, d.isNameChar_char, Bool.true_or]

theorem isDigit_char (ten : radix.base ≤ 10) : d.char.isDigit = true :=
  (digitChar_facts _ d.value_lt d.upper).2.2 (d.value.isLt.trans_le ten)

theorem digit?_char : Numeral.digit? radix.base d.char = some d.value.val := by
  have value : Numeral.digitValue d.char = some d.value.val :=
    (digitChar_facts _ d.value_lt d.upper).2.1
  simp [Numeral.digit?, value]

end Digit

theorem ofDigits?_chars {radix : Radix} (digits : List (Digit radix)) :
    Numeral.ofDigits? radix.base (digits.map Digit.char) =
      some (Nat.ofDigits radix.base (digits.reverse.map fun d => d.value.val)) := by
  have fold : ∀ start, (digits.map Digit.char).foldlM
      (fun n c => (Numeral.digit? radix.base c).map (n * radix.base + ·)) start =
        some (digits.foldl (fun n d => n * radix.base + d.value.val) start) := by
    induction digits with
    | nil => exact fun start => rfl
    | cons d rest ih =>
      intro start
      simp only [List.map_cons, List.foldlM_cons, d.digit?_char, List.foldl_cons]
      exact ih _
  rw [Numeral.ofDigits?, fold, Nat.ofDigits_eq_foldr, List.foldr_map, List.foldr_reverse]
  simp only [Nat.cast_id, Nat.mul_comm radix.base, Nat.add_comm]

theorem word?_of_digits {radix : Nat} {t : Text} {n : Nat} (some : t ≠ [])
    (unsigned : t.head? ≠ Option.some '+') (digits : Numeral.ofDigits? radix t = Option.some n)
    (fits : n < UInt32.size) : Numeral.word? radix t = Option.some (UInt32.ofNat n) := by
  cases t with
  | nil => exact absurd rfl some
  | cons c rest =>
    have plus : c ≠ '+' := by simpa using unsigned
    unfold Numeral.word?
    split
    · next eq => exact absurd (List.cons.inj eq).1 plus
    · simp [digits, fits]

theorem Number.word?_digits (n : Number) :
    Numeral.word? n.radix.base (n.digits.map Digit.char) = some (UInt32.ofNat n.value) := by
  apply word?_of_digits
  · simpa using n.digits_ne_nil
  · intro plus
    obtain ⟨d, _, same⟩ := List.mem_map.mp (List.mem_of_mem_head? plus)
    exact absurd same (Expression.isNameChar_ne d.isNameChar_char rfl)
  · exact ofDigits?_chars n.digits
  · exact n.fits

def startsAtom (c : Char) : Bool := isInert c || c == '%' || c == '&' || isQuoteMark c

theorem startsAtom_ne {c d : Char} (h : startsAtom c = true) (hd : startsAtom d = false) :
    c ≠ d := by
  rintro rfl
  rw [h] at hd
  contradiction

theorem isBlank_of_startsAtom {c : Char} (h : startsAtom c = true) : isBlank c = false := by
  simp only [startsAtom, isQuoteMark, Bool.or_eq_true, beq_iff_eq] at h
  rcases h with ((inert | rfl) | rfl) | rfl | rfl
  · exact Expression.isBlank_of_isInert inert
  all_goals rfl

def endsAtom (c : Char) : Bool := isInert c || isQuoteMark c

theorem isBlank_of_endsAtom {c : Char} (h : endsAtom c = true) : isBlank c = false := by
  apply isBlank_of_startsAtom
  simp only [endsAtom, Bool.or_eq_true] at h
  simp only [startsAtom, Bool.or_eq_true]
  tauto

namespace Number

theorem inert_digits (n : Number) : ∀ c ∈ n.digits.map Digit.char, isInert c = true := by
  intro c hc
  obtain ⟨d, _, rfl⟩ := List.mem_map.mp hc
  exact d.isInert_char

theorem exists_text_eq (n : Number) : ∃ c rest, n.text = c :: rest ∧ startsAtom c = true := by
  obtain ⟨d, rest, digits⟩ := List.exists_cons_of_ne_nil n.digits_ne_nil
  have first : startsAtom d.char = true := by simp [startsAtom, d.isInert_char]
  rw [text, digits, List.map_cons]
  generalize d.char = c at first
  generalize rest.map Digit.char = rest
  cases n.radix with
  | decimal => exact ⟨_, _, rfl, first⟩
  | binary | octal | hex => exact ⟨_, _, rfl, rfl⟩

theorem getLast?_text (n : Number) : ∃ c, n.text.getLast? = some c ∧ endsAtom c = true := by
  obtain ⟨d, last⟩ := Option.ne_none_iff_exists'.mp (mt List.getLast?_eq_none_iff.mp n.digits_ne_nil)
  refine ⟨d.char, ?_, by simp [endsAtom, d.isInert_char]⟩
  rw [text, List.getLast?_append, List.getLast?_map, last]
  rfl

theorem solid_text (n : Number) : Solid .outside n.text := by
  have digits := Expression.solid_of_inert n.inert_digits
  rw [text]
  generalize n.digits.map Digit.char = t at digits
  cases n.radix with
  | decimal => exact digits
  | binary | octal | hex => exact .cons rfl rfl rfl digits

theorem fold_text {env : Env} {body : Text} {s : Chain.State} (n : Number) (rest : Text) :
    Chain.fold env body s (n.text ++ rest) =
      Chain.fold env body { s with term := s.term ++ n.text } rest := by
  obtain ⟨d, more, digits⟩ := List.exists_cons_of_ne_nil n.digits_ne_nil
  have inert := n.inert_digits
  rw [digits, List.map_cons] at inert
  rw [text, digits, List.map_cons]
  generalize d.char = c at inert
  generalize more.map Digit.char = more at inert
  -- `%` and `&` are operators only at the end or before a blank.
  have ambiguous : ∀ {sign : Char}, Chain.isAmbiguous sign = true →
      Chain.fold env body s (sign :: c :: more ++ rest) =
        Chain.fold env body { s with term := s.term ++ sign :: c :: more } rest := by
    intro sign h
    have first := inert c (by simp)
    rw [List.cons_append, List.cons_append, Chain.fold_ambiguous h (isBlank_of_isInert first)
      (isInert_ne first rfl) (isInert_ne first rfl), ← List.cons_append, Chain.fold_inert inert,
      List.append_assoc]
    rfl
  cases n.radix with
  | binary | octal => exact ambiguous rfl
  | decimal => exact Chain.fold_inert inert rest
  | hex => exact Chain.fold_inert (List.forall_mem_cons.mpr ⟨rfl, inert⟩) rest

theorem body_text (env : Env) (whole : Text) (n : Number) :
    Expression.Atom.body env whole n.text = .ok (UInt32.ofNat n.value) := by
  have word := n.word?_digits
  obtain ⟨d, rest, digits⟩ := List.exists_cons_of_ne_nil n.digits_ne_nil
  have decimal : n.radix = .decimal → d.char.isDigit = true := by
    intro radix
    exact d.isDigit_char (by rw [radix]; decide)
  rw [digits, List.map_cons] at word
  rw [text, digits, List.map_cons]
  generalize d.char = c at word decimal
  generalize rest.map Digit.char = rest at word
  generalize n.radix = radix at word decimal
  cases radix with
  | decimal =>
    simp only [Radix.base] at word
    simp [Expression.Atom.body, Expression.Atom.number, Radix.sign, decimal rfl, word]
  | binary | octal | hex =>
    simp only [Radix.base] at word
    simp [Expression.Atom.body, Expression.Atom.number, Radix.sign, word]

end Number

theorem Quoted.decode_text {mark : Mark} (quoted : Quoted mark) :
    Assembler65816.Escape.decode quoted.text = [quoted.char] := by
  cases quoted with
  | plain c ne_mark ne_backslash =>
    rw [text, char]
    unfold Assembler65816.Escape.decode
    split <;> simp_all [Assembler65816.Escape.decode]
  | escaped escape =>
    cases escape with
    | quote mark => cases mark <;> rfl
    | _ => rfl

theorem Quoted.literal_text {mark : Mark} (quoted : Quoted mark) (whole : Text) :
    Expression.Atom.literal mark.char (quoted.text ++ [mark.char]) whole =
      .ok (UInt32.ofNat quoted.char.toNat) := by
  have long : ¬(quoted.text ++ [mark.char]).length < 2 := by
    cases quoted <;> simp [text]
  have code : quoted.char.val = UInt32.ofNat quoted.char.toNat := (UInt32.ofNat_toNat).symm
  unfold Expression.Atom.literal
  simp only [long, List.getLast?_concat, bne_self_eq_false, decide_false, Bool.or_self,
    Bool.false_eq_true, if_false, List.dropLast_concat, quoted.decode_text, List.head?_cons, code]

namespace Simple

theorem exists_text_eq (x : Simple) : ∃ c rest, x.text = c :: rest ∧ startsAtom c = true := by
  cases x with
  | number n => exact n.exists_text_eq
  | character mark quoted =>
    refine ⟨_, _, rfl, ?_⟩
    simp [startsAtom, Expression.isQuoteMark_char]
  | counter => exact ⟨_, _, rfl, rfl⟩
  | symbol name isName =>
    cases name with
    | nil => cases isName
    | cons c rest =>
      refine ⟨c, rest, rfl, ?_⟩
      simp [startsAtom, Expression.inert_of_isSymbolName isName c (by simp)]

theorem getLast?_text (x : Simple) : ∃ c, x.text.getLast? = some c ∧ endsAtom c = true := by
  cases x with
  | number n => exact n.getLast?_text
  | character mark quoted =>
    refine ⟨mark.char, ?_, by simp [endsAtom, Expression.isQuoteMark_char]⟩
    rw [text, ← List.cons_append, List.getLast?_concat]
  | counter => exact ⟨_, rfl, rfl⟩
  | symbol name isName =>
    have some : name ≠ [] := by
      rintro rfl
      cases isName
    obtain ⟨c, last⟩ := Option.ne_none_iff_exists'.mp (mt List.getLast?_eq_none_iff.mp some)
    refine ⟨c, last, ?_⟩
    simp [endsAtom, Expression.inert_of_isSymbolName isName c (List.mem_of_mem_getLast? last)]

theorem solid_text (x : Simple) : Solid .outside x.text := by
  cases x with
  | number n => exact n.solid_text
  | character mark quoted => exact Expression.solid_quoted quoted
  | counter => exact .cons rfl rfl rfl rfl
  | symbol name isName => exact Expression.solid_of_inert (Expression.inert_of_isSymbolName isName)

theorem body_text (env : Env) (whole : Text) (x : Simple) :
    Expression.Atom.body env whole x.text = x.meaning env whole := by
  cases x with
  | number n => exact n.body_text env whole
  | character mark quoted =>
    have literal := quoted.literal_text whole
    cases mark <;> exact literal
  | counter => rfl
  | symbol name isName => exact Expression.Atom.body_symbolName isName whole

theorem fold_text {env : Env} {body : Text} {s : Chain.State} (x : Simple) (rest : Text) :
    Chain.fold env body s (x.text ++ rest) =
      Chain.fold env body { s with term := s.term ++ x.text } rest := by
  cases x with
  | number n => exact n.fold_text rest
  | character mark quoted =>
    rw [text, List.cons_append, List.append_assoc, List.singleton_append]
    exact Chain.fold_piece (Chain.items_quoted quoted rest)
  | counter => exact Chain.fold_piece (Chain.items_inert rfl rest)
  | symbol name isName => exact Chain.fold_inert (Expression.inert_of_isSymbolName isName) rest

end Simple

theorem selectorSign_facts (selector : Selector) :
    Chain.isAmbiguous (selectorSign selector) = true ∧
      Selector.ofChar? (selectorSign selector) = some selector ∧
      isBlank (selectorSign selector) = false := by
  cases selector <;> exact ⟨rfl, rfl, rfl⟩

theorem solid_lead (selector : Option Selector) {t : Text} (h : Solid .outside t) :
    Solid .outside (lead selector ++ t) := by
  rcases selector with _ | (_ | _ | _)
  · exact h
  all_goals exact .cons rfl rfl rfl h

theorem edged_lead (selector : Option Selector) {t : Text} (h : Edged t) :
    Edged (lead selector ++ t) := by
  cases selector with
  | none => exact h
  | some selector =>
    obtain ⟨last, last_eq, ends⟩ := h.last
    refine ⟨⟨_, rfl, (selectorSign_facts selector).2.2⟩, ⟨last, ?_, ends⟩⟩
    rw [List.getLast?_append, last_eq]
    rfl

theorem fold_lead {env : Env} {body : Text} {s : Chain.State} (selector : Option Selector) {c : Char}
    (blank : isBlank c = false) (low : c ≠ '<') (high : c ≠ '>') (rest : Text) :
    Chain.fold env body s (lead selector ++ c :: rest) =
      Chain.fold env body { s with term := s.term ++ lead selector } (c :: rest) := by
  cases selector with
  | none => simp [lead]
  | some selector =>
    exact Chain.fold_ambiguous (selectorSign_facts selector).1 blank low high rest

theorem eq_sign_of_ofText? {t : Text} {op : Operator} (h : Operator.ofText? t = some op) :
    t = sign op := by
  unfold Operator.ofText? at h
  split at h <;> cases h <;> rfl

namespace Atom

variable (a : Atom)

theorem edged_text : Edged a.text := by
  apply edged_lead
  obtain ⟨c, rest, text_eq, starts⟩ := a.simple.exists_text_eq
  obtain ⟨last, last_eq, ends⟩ := a.simple.getLast?_text
  exact ⟨⟨c, by rw [text_eq]; rfl, isBlank_of_startsAtom starts⟩,
    ⟨last, last_eq, isBlank_of_endsAtom ends⟩⟩

theorem read_text (env : Env) : Expression.Atom.read env a.text = a.meaning env := by
  have trim := a.edged_text.trim
  have body := a.simple.body_text env a.text
  obtain ⟨c, rest, text_eq, starts⟩ := a.simple.exists_text_eq
  have plain : Selector.ofChar? c = none := Selector.ofChar?_eq_none (startsAtom_ne starts rfl)
    (startsAtom_ne starts rfl) (startsAtom_ne starts rfl)
  unfold Expression.Atom.read
  rw [trim, meaning, ← body]
  cases selector : a.selector with
  | none =>
    have whole : a.text = c :: rest := by rw [text, selector, text_eq]; rfl
    simp only [whole, text_eq, plain]
    exact (congrFun Except.map_id _).symm
  | some selector' =>
    have whole : a.text = selectorSign selector' :: a.simple.text := by rw [text, selector]; rfl
    simp only [whole, (selectorSign_facts selector').2.1]
    congr 1
    funext word
    exact select_eq_pick selector' word

theorem text_ne_nil : a.text ≠ [] := by
  obtain ⟨c, rest, text_eq, _⟩ := a.simple.exists_text_eq
  simp [text, text_eq]

theorem solid_text : Solid .outside a.text := solid_lead a.selector a.simple.solid_text

theorem ofText?_text : Operator.ofText? a.text = none := by
  obtain ⟨last, last_eq, ends⟩ := a.simple.getLast?_text
  have last_eq : a.text.getLast? = some last := by rw [text, List.getLast?_append, last_eq]; rfl
  cases found : Operator.ofText? a.text with
  | none => rfl
  | some op =>
    -- A selector alone would be an operator; no operator ends as an atom does.
    rw [eq_sign_of_ofText? found] at last_eq
    cases op <;> cases last_eq <;> cases ends

theorem fold_text {env : Env} {body : Text} {s : Chain.State} (rest : Text) :
    Chain.fold env body s (a.text ++ rest) =
      Chain.fold env body { s with term := s.term ++ a.text } rest := by
  obtain ⟨c, more, text_eq, starts⟩ := a.simple.exists_text_eq
  have selected : Chain.fold env body s (lead a.selector ++ c :: (more ++ rest)) = _ :=
    fold_lead a.selector (isBlank_of_startsAtom starts) (startsAtom_ne starts rfl)
      (startsAtom_ne starts rfl) (more ++ rest)
  rw [← List.cons_append, ← text_eq, a.simple.fold_text] at selected
  rw [text, List.append_assoc, selected, List.append_assoc]

end Atom

end Assembler65816.Grammar
