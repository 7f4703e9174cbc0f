import Assembler65816.Proofs.Grammar

/-! # Scanning

What the scanners of expressions make of the parts of a text. A solid text, in which blanks and
brackets stand in quotes only, is one token and leaves the nesting of brackets as it is. A neutral
text closes the brackets that it opens, so that the bracket around it is found. A chain takes one
operand after the other from the front of its text.
-/
namespace Assembler65816.Expression

structure Edged (t : Text) : Prop where
  head : ∃ c, t.head? = some c ∧ isBlank c = false
  last : ∃ c, t.getLast? = some c ∧ isBlank c = false

namespace Edged

variable {s t : Text}

theorem trim (h : Edged t) : Text.trim t = t := by
  obtain ⟨⟨c, head, hc⟩, ⟨d, last, hd⟩⟩ := h
  apply trim_eq_self
  · intro c' hc'
    rw [head] at hc'
    cases hc'
    exact hc
  · intro d' hd'
    rw [last] at hd'
    cases hd'
    exact hd

theorem join (hs : Edged s) (mid : Text) (ht : Edged t) : Edged (s ++ (mid ++ t)) := by
  obtain ⟨c, head, hc⟩ := hs.head
  obtain ⟨d, last, hd⟩ := ht.last
  refine ⟨⟨c, ?_, hc⟩, ⟨d, ?_, hd⟩⟩
  · rw [List.head?_append, head]
    rfl
  · rw [List.getLast?_append, List.getLast?_append, last]
    rfl

theorem group {c d : Char} (hc : isBlank c = false) (hd : isBlank d = false) (inside : Text) :
    Edged (c :: (inside ++ [d])) := by
  refine ⟨⟨c, rfl, hc⟩, ⟨d, ?_, hd⟩⟩
  rw [← List.cons_append, List.getLast?_concat]

end Edged

/-- From `q` on, blanks and brackets stand in quotes only, and every quote is closed. -/
def Solid : Quote → Text → Prop
  | q, [] => q = .outside
  | q, c :: rest =>
    (q = .outside → isAsciiBlank c = false ∧ isBracket c = false) ∧ Solid (q.step c) rest

theorem Solid.cons {c : Char} {rest : Text} (blank : isAsciiBlank c = false)
    (bracket : isBracket c = false) (quote : isQuoteMark c = false) (h : Solid .outside rest) :
    Solid .outside (c :: rest) := by
  refine ⟨fun _ => ⟨blank, bracket⟩, ?_⟩
  rw [Quote.step, quote]
  exact h

theorem solid_of_inert {t : Text} (h : ∀ c ∈ t, isInert c = true) : Solid .outside t := by
  induction t with
  | nil => rfl
  | cons c rest ih =>
    have inert := h c (by simp)
    exact .cons (isAsciiBlank_of_isInert inert) (isBracket_of_isInert inert)
      (isQuoteMark_of_isInert inert) (ih fun d hd => h d (by simp [hd]))

section Quoted

variable {mark : Grammar.Mark} (quoted : Grammar.Quoted mark)

theorem isQuoteMark_char (mark : Grammar.Mark) : isQuoteMark mark.char = true := by
  cases mark <;> rfl

theorem span_quoted (rest : Text) :
    (Quote.inside mark.char).span (quoted.text ++ mark.char :: rest) =
      some (quoted.text.length + 1) := by
  cases quoted with
  | plain c ne_mark ne_backslash =>
    simp [Grammar.Quoted.text, Quote.span, Quote.step_inside ne_backslash ne_mark,
      Quote.step_closing (isQuoteMark_char mark)]
  | escaped escape =>
    simp [Grammar.Quoted.text, Quote.span, Quote.step_backslash, Quote.step_escaped,
      Quote.step_closing (isQuoteMark_char mark)]

theorem solid_quoted : Solid .outside (mark.char :: (quoted.text ++ [mark.char])) := by
  have start : isAsciiBlank mark.char = false ∧ isBracket mark.char = false := by
    cases mark <;> exact ⟨rfl, rfl⟩
  refine ⟨fun _ => start, ?_⟩
  rw [Quote.step_opening (isQuoteMark_char mark)]
  cases quoted with
  | plain c ne_mark ne_backslash =>
    simp [Grammar.Quoted.text, Solid, Quote.step_inside ne_backslash ne_mark,
      Quote.step_closing (isQuoteMark_char mark)]
  | escaped escape =>
    simp [Grammar.Quoted.text, Solid, Quote.step_backslash, Quote.step_escaped,
      Quote.step_closing (isQuoteMark_char mark)]

end Quoted

namespace Brackets

def Neutral (b : Brackets) (t : Text) : Prop :=
  ∀ depth rest, b.span (depth + 1) .outside (t ++ rest) =
    (b.span (depth + 1) .outside rest).map (· + t.length)

variable {b : Brackets}

section Span

variable {c : Char} {depth : Nat} {rest : Text}

theorem span_literal (quote : isQuoteMark c = true) :
    b.span depth .outside (c :: rest) = (b.span depth (.inside c) rest).map (· + 1) := by
  rw [span, if_pos quote]

theorem span_opening (quote : isQuoteMark b.opening = false) :
    b.span depth .outside (b.opening :: rest) =
      (b.span (depth + 1) .outside rest).map (· + 1) := by
  simp [span, quote]

theorem span_closing (quote : isQuoteMark b.closing = false) (distinct : b.closing ≠ b.opening) :
    b.span depth .outside (b.closing :: rest) =
      if depth ≤ 1 then some 1 else (b.span (depth - 1) .outside rest).map (· + 1) := by
  simp [span, quote, distinct]

theorem span_plain (quote : isQuoteMark c = false) (opening : c ≠ b.opening)
    (closing : c ≠ b.closing) :
    b.span depth .outside (c :: rest) = (b.span depth .outside rest).map (· + 1) := by
  simp [span, quote, opening, closing]

end Span

theorem Neutral.append {s t : Text} (hs : b.Neutral s) (ht : b.Neutral t) : b.Neutral (s ++ t) := by
  intro depth rest
  rw [List.append_assoc, hs, ht, Option.map_map, List.length_append]
  congr 1
  funext n
  simp only [Function.comp_apply]
  omega

theorem Neutral.char {c : Char} (quote : isQuoteMark c = false) (opening : c ≠ b.opening)
    (closing : c ≠ b.closing) : b.Neutral [c] := by
  intro depth rest
  exact span_plain quote opening closing

structure Proper (b : Brackets) : Prop where
  opening : isBracket b.opening = true
  closing : isBracket b.closing = true
  distinct : b.closing ≠ b.opening

theorem proper_parentheses : parentheses.Proper := ⟨rfl, rfl, by decide⟩

theorem proper_braces : braces.Proper := ⟨rfl, rfl, by decide⟩

theorem isQuoteMark_of_isBracket {c : Char} (h : isBracket c = true) : isQuoteMark c = false := by
  simp only [isBracket, Bool.or_eq_true, beq_iff_eq] at h
  rcases h with ((rfl | rfl) | rfl) | rfl <;> rfl

structure Apart (b : Brackets) : Prop where
  opening : isQuoteMark b.opening = false
  closing : isQuoteMark b.closing = false
  distinct : b.closing ≠ b.opening

theorem Proper.apart (proper : b.Proper) : b.Apart :=
  ⟨isQuoteMark_of_isBracket proper.opening, isQuoteMark_of_isBracket proper.closing,
    proper.distinct⟩

theorem span_of_solid (proper : b.Proper) {q : Quote} {t : Text} (h : Solid q t) (depth : Nat)
    (rest : Text) : b.span (depth + 1) q (t ++ rest) =
      (b.span (depth + 1) .outside rest).map (· + t.length) := by
  induction t generalizing q with
  | nil =>
    obtain rfl : q = .outside := h
    simp
  | cons c t ih =>
    obtain ⟨plain, solid⟩ := h
    -- Outside quotes `c` is no bracket, and inside them no bracket counts.
    have step : b.span (depth + 1) q (c :: (t ++ rest)) =
        (b.span (depth + 1) (q.step c) (t ++ rest)).map (· + 1) := by
      cases q with
      | outside =>
        have bracket := (plain rfl).2
        have opening : c ≠ b.opening := fun same => by simp [same, proper.opening] at bracket
        have closing : c ≠ b.closing := fun same => by simp [same, proper.closing] at bracket
        cases quote : isQuoteMark c with
        | true => rw [span_literal quote, Quote.step_opening quote]
        | false => rw [span_plain quote opening closing, Quote.step_outside quote]
      | inside mark => simp [span]
      | escaped mark => simp [span]
    rw [List.cons_append, step, ih solid, Option.map_map, List.length_cons]
    rfl

theorem neutral_of_solid (proper : b.Proper) {t : Text} (h : Solid .outside t) : b.Neutral t :=
  fun depth rest => span_of_solid proper h depth rest

theorem span_group (apart : b.Apart) {inside : Text} (h : b.Neutral inside) (depth : Nat)
    (rest : Text) : b.span depth .outside (b.opening :: (inside ++ b.closing :: rest)) =
      if depth = 0 then some (inside.length + 2)
      else (b.span depth .outside rest).map (· + (inside.length + 2)) := by
  rw [span_opening apart.opening, h, span_closing apart.closing apart.distinct]
  cases depth with
  | zero =>
    rw [if_pos le_rfl, if_pos rfl, Option.map_some, Option.map_some]
    congr 1
    omega
  | succ depth =>
    rw [if_neg (by omega), if_neg (by omega), Nat.add_sub_cancel, Option.map_map, Option.map_map]
    congr 1
    funext n
    simp only [Function.comp_apply]
    omega

theorem Neutral.group (apart : b.Apart) {inside : Text} (h : b.Neutral inside) :
    b.Neutral (b.opening :: (inside ++ [b.closing])) := by
  intro depth rest
  have group := span_group apart h (depth + 1) rest
  rw [if_neg (by omega)] at group
  simpa using group

theorem groupLength_group (apart : b.Apart) {inside : Text} (h : b.Neutral inside)
    (rest : Text) : b.groupLength (b.opening :: (inside ++ b.closing :: rest)) =
      some (inside.length + 2) := by
  rw [groupLength, span_group apart h, if_pos rfl]

end Brackets

theorem inner_group (c d : Char) (inside : Text) : inner (c :: (inside ++ [d])) = inside := by
  simp [inner]

theorem take_group (d : Char) (inside rest : Text) :
    (inside ++ d :: rest).take (inside.length + 1) = inside ++ [d] := by
  have split : inside ++ d :: rest = (inside ++ [d]) ++ rest := by simp
  rw [split]
  exact List.take_left' (by simp)

theorem drop_group (d : Char) (inside rest : Text) :
    (inside ++ d :: rest).drop (inside.length + 1) = rest := by
  have split : inside ++ d :: rest = (inside ++ [d]) ++ rest := by simp
  rw [split]
  exact List.drop_left' (by simp)

namespace Polish

def Boundary (rest : Text) : Prop := ∀ c ∈ rest.head?, isAsciiBlank c = true

variable {whole : Text}

theorem tokensFrom_of_solid {q : Quote} {t : Text} (h : Solid q t) (taken rest : Text) :
    tokensFrom whole (.word taken q) (t ++ rest) =
      tokensFrom whole (.word (taken ++ t) .outside) rest := by
  induction t generalizing q taken with
  | nil =>
    obtain rfl : q = .outside := h
    simp
  | cons c t ih =>
    obtain ⟨plain, solid⟩ := h
    have blank : (decide (q = .outside) && isAsciiBlank c) = false := by
      by_cases outside : q = .outside
      · simp [(plain outside).1]
      · simp [outside]
    have bracket : (decide (q = .outside) && isBracket c) = false := by
      by_cases outside : q = .outside
      · simp [(plain outside).2]
      · simp [outside]
    rw [List.cons_append, tokensFrom, blank, bracket]
    simp only [Bool.false_eq_true, if_false]
    rw [ih solid, List.append_assoc, List.singleton_append]

theorem tokensFrom_boundary {rest : Text} (h : Boundary rest) (taken : Text) :
    tokensFrom whole (.word taken .outside) rest =
      (tokensFrom whole (.skip 0) rest).map (taken :: ·) := by
  cases rest with
  | nil => rfl
  | cons c rest =>
    have blank : isAsciiBlank c = true := h c (by simp)
    simp [tokensFrom, blank]

theorem tokensFrom_solid {t rest : Text} (solid : Solid .outside t) (some : t ≠ [])
    (h : Boundary rest) : tokensFrom whole (.skip 0) (t ++ rest) =
      (tokensFrom whole (.skip 0) rest).map (t :: ·) := by
  cases t with
  | nil => exact absurd rfl some
  | cons c t =>
    obtain ⟨plain, solid⟩ := solid
    obtain ⟨blank, bracket⟩ := plain rfl
    simp only [isBracket, Bool.or_eq_false_iff] at bracket
    obtain ⟨⟨⟨opens, closes⟩, opens'⟩, closes'⟩ := bracket
    rw [List.cons_append, tokensFrom, blank, opens, opens', closes, closes']
    simp only [Bool.false_eq_true, if_false, Bool.or_self]
    rw [tokensFrom_of_solid solid, tokensFrom_boundary h, List.singleton_append]

theorem tokensFrom_group (d : Char) (inside rest : Text) :
    tokensFrom whole (.skip (inside.length + 1)) (inside ++ d :: rest) =
      tokensFrom whole (.skip 0) rest := by
  rw [tokensFrom_skip, drop_group]

theorem tokensFrom_parens {inside : Text} (h : parentheses.Neutral inside) (rest : Text) :
    tokensFrom whole (.skip 0) ('(' :: (inside ++ ')' :: rest)) =
      (tokensFrom whole (.skip 0) rest).map (('(' :: (inside ++ [')'])) :: ·) := by
  have length : parentheses.groupLength ('(' :: (inside ++ ')' :: rest)) =
      some (inside.length + 2) :=
    Brackets.groupLength_group Brackets.proper_parentheses.apart h rest
  simp [tokensFrom, isAsciiBlank, length, take_group, tokensFrom_group]

theorem tokensFrom_braces {inside : Text} (h : braces.Neutral inside) (rest : Text) :
    tokensFrom whole (.skip 0) ('{' :: (inside ++ '}' :: rest)) =
      (tokensFrom whole (.skip 0) rest).map (('{' :: (inside ++ ['}'])) :: ·) := by
  have length : braces.groupLength ('{' :: (inside ++ '}' :: rest)) =
      some (inside.length + 2) := Brackets.groupLength_group Brackets.proper_braces.apart h rest
  simp [tokensFrom, isAsciiBlank, length, take_group, tokensFrom_group]

end Polish

namespace Chain

variable {body : Text}

def isAmbiguous (c : Char) : Bool := c == '<' || c == '>' || c == '^' || c == '%' || c == '&'

theorem items_ambiguous {c d : Char} (h : isAmbiguous c = true) (blank : isAsciiBlank d = false)
    (low : d ≠ '<') (high : d ≠ '>') (rest : Text) :
    items body 0 (c :: d :: rest) = .piece [c] :: items body 0 (d :: rest) := by
  simp only [isAmbiguous, Bool.or_eq_true, beq_iff_eq] at h
  rw [items]
  rcases h with (((rfl | rfl) | rfl) | rfl) | rfl <;>
    simp [shiftAt?, operatorAt?, isQuoteMark, blank, low, high] <;> rfl

theorem items_group (d : Char) (inside rest : Text) :
    items body (inside.length + 1) (inside ++ d :: rest) = items body 0 rest := by
  rw [items_skip, drop_group]

theorem items_parens {inside : Text} (h : parentheses.Neutral inside) (rest : Text) :
    items body 0 ('(' :: (inside ++ ')' :: rest)) =
      .parens ('(' :: (inside ++ [')'])) :: items body 0 rest := by
  have length : parentheses.groupLength ('(' :: (inside ++ ')' :: rest)) =
      some (inside.length + 2) :=
    Brackets.groupLength_group Brackets.proper_parentheses.apart h rest
  rw [items]
  simp [isAsciiBlank, shiftAt?, operatorAt?, isQuoteMark, length, take_group, items_group]

theorem items_braces {inside : Text} (h : Expression.braces.Neutral inside) (rest : Text) :
    items body 0 ('{' :: (inside ++ '}' :: rest)) = .braces inside :: items body 0 rest := by
  have length : Expression.braces.groupLength ('{' :: (inside ++ '}' :: rest)) =
      some (inside.length + 2) := Brackets.groupLength_group Brackets.proper_braces.apart h rest
  rw [items]
  simp [isAsciiBlank, shiftAt?, operatorAt?, isQuoteMark, length, take_group, items_group,
    inner_group]

theorem items_quoted {mark : Grammar.Mark} (quoted : Grammar.Quoted mark) (rest : Text) :
    items body 0 (mark.char :: (quoted.text ++ mark.char :: rest)) =
      .piece (mark.char :: (quoted.text ++ [mark.char])) :: items body 0 rest := by
  have span := span_quoted quoted rest
  cases mark <;>
    simp [items, Grammar.Mark.char, isAsciiBlank, shiftAt?, operatorAt?, isQuoteMark] at span ⊢ <;>
    simp [span, take_group, items_group]

theorem items_operator (op : Operator) (rest : Text) :
    items body 0 (Grammar.sign op ++ ' ' :: rest) = .operator op :: items body 0 rest := by
  cases op <;> rfl

/-- The fold of a chain over the items of a text, which may be the last part of the chain. -/
def fold (env : Env) (body : Text) (s : State) (t : Text) : Except Obstacle State :=
  (items body 0 t).foldlM (State.step env (evalForm env) body) s

variable {env : Env} {s : State}

theorem eval_eq_fold (t : Text) : eval env (evalForm env) t =
    (fold env t {} t >>= fun last => (last.flush env none).map State.total) := by
  rfl

theorem fold_of_items {t t' : Text} {item : Item} (h : items body 0 t = item :: items body 0 t') :
    fold env body s t =
      (s.step env (evalForm env) body item >>= fun s => fold env body s t') := by
  rw [fold, h]
  rfl

theorem fold_piece {t t' text : Text} (h : items body 0 t = .piece text :: items body 0 t') :
    fold env body s t = fold env body { s with term := s.term ++ text } t' :=
  fold_of_items h

theorem fold_inert {t : Text} (h : ∀ c ∈ t, isInert c = true) (rest : Text) :
    fold env body s (t ++ rest) = fold env body { s with term := s.term ++ t } rest := by
  rw [fold, items_of_inert body h, List.foldlM_append, foldlM_pieces]
  rfl

theorem fold_ambiguous {c d : Char} (h : isAmbiguous c = true) (blank : isBlank d = false)
    (low : d ≠ '<') (high : d ≠ '>') (rest : Text) :
    fold env body s (c :: d :: rest) =
      fold env body { s with term := s.term ++ [c] } (d :: rest) := by
  refine fold_piece (items_ambiguous h ?_ low high rest)
  by_contra ascii
  rw [Text.isBlank_of_isAsciiBlank (by simpa using ascii)] at blank
  contradiction

end Chain

end Assembler65816.Expression
