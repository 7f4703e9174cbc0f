import Assembler65816.Proofs.ByteScanners
import Assembler65816.Proofs.Scanning

/-! # Cutting chains by offsets

A chain is cut into its items by a loop over bytes that looks for the end of a quote or of a group
and goes on behind it. A search that jumps over an escaped character may land inside it; no byte in
there is a mark, so that every end is found at a mark and every cut lies between characters. The
count of open brackets starts at a bracket that opens, and the search stops where it comes back to
zero.
-/
namespace Assembler65816

open Text Expression

def Quote.Within (mark : Char) (q : Quote) : Prop := q = .inside mark ∨ q = .escaped mark

namespace Quote

variable {mark : Char} {q : Quote} {c : Char}

/-- A literal ends at its mark, unless that is escaped, and nowhere else. -/
theorem Within.step (h : q.Within mark) (c : Char) :
    (q = .inside mark ∧ c = mark ∧ q.step c = .outside) ∨
      ((q = .inside mark → c = '\\' ∨ c ≠ mark) ∧ (q.step c).Within mark) := by
  rcases h with rfl | rfl
  · by_cases backslash : c = '\\'
    · subst backslash
      exact .inr ⟨fun _ => .inl rfl, .inr rfl⟩
    · by_cases same : c = mark
      · subst same
        exact .inl ⟨rfl, rfl, by simp [Quote.step, backslash]⟩
      · exact .inr ⟨fun _ => .inr same, .inl (by simp [Quote.step, backslash, same])⟩
  · exact .inr ⟨fun inside => Quote.noConfusion inside, .inl rfl⟩

theorem Within.marked (h : q.Within mark) (hm : isQuoteMark mark = true) : q.Marked := by
  rcases h with rfl | rfl <;> exact hm

theorem span_of_outside (h : q.step c = .outside) (rest : Text) : q.span (c :: rest) = some 1 := by
  rw [Quote.span, h]

theorem span_of_within (h : (q.step c).Within mark) (rest : Text) :
    q.span (c :: rest) = ((q.step c).span rest).map (· + 1) := by
  rw [Quote.span]
  rcases h with h | h <;> rw [h]

end Quote

theorem Expression.Brackets.span_within (b : Brackets) {mark : Char} {q : Quote}
    (h : q.Within mark) (depth : Nat) (t : Text) :
    b.span depth q t =
      (q.span t).bind fun n => (b.span depth .outside (t.drop n)).map (· + n) := by
  induction t generalizing q with
  | nil => cases q <;> rfl
  | cons c rest ih =>
    have step : b.span depth q (c :: rest) = (b.span depth (q.step c) rest).map (· + 1) := by
      rcases h with rfl | rfl <;> rw [Brackets.span] <;> exact Quote.noConfusion
    rw [step]
    rcases h.step c with ⟨-, -, ends⟩ | ⟨-, within⟩
    · rw [Quote.span_of_outside ends, ends]
      rfl
    · rw [Quote.span_of_within within, ih within]
      cases (q.step c).span rest with
      | none => rfl
      | some n => simp [Function.comp_def, Nat.add_assoc]

section Enclosed

variable {t front inside after : Text} {c d : Char}

theorem size_enclosed (narrow : isWide d = false) :
    size (front ++ c :: (inside ++ [d])) = size (front ++ [c] ++ inside) + 1 := by
  rw [show front ++ c :: (inside ++ [d]) = front ++ [c] ++ inside ++ [d] by simp,
    size_append _ [d], size_narrow narrow]

/-- A text with the marks around it is cut out from the first to the last one. -/
theorem slice?_enclosed (h : t = front ++ c :: (inside ++ d :: after)) (narrow : isWide d = false) :
    slice? t (size front) (size (front ++ [c] ++ inside) + 1) = some (c :: (inside ++ [d])) := by
  have whole : t = front ++ c :: (inside ++ [d]) ++ after := by simp [h]
  exact slice?_eq whole rfl (by rw [← size_enclosed narrow, size_append])

theorem slice?_inside (h : t = front ++ c :: (inside ++ d :: after)) (narrow : isWide c = false) :
    slice? t (size front + 1) (size (front ++ [c] ++ inside)) = some inside := by
  have whole : t = front ++ [c] ++ inside ++ d :: after := by simp [h]
  have start : size front + 1 = size (front ++ [c]) := by rw [size_append, size_narrow narrow]
  exact slice?_eq whole start (size_append _ _)

end Enclosed

/-- Two searches in `rest`, which stands after `front`, agree: neither finds the mark, or both find
it at one place, which one counts in characters with the mark included and the other in bytes. -/
inductive Found (mark : Char) (front rest : Text) : Option Nat → Option Nat → Prop where
  | missing : Found mark front rest none none
  | here (inside after : Text) (parts : rest = inside ++ mark :: after) :
    Found mark front rest (some (inside.length + 1)) (some (size (front ++ inside)))

theorem Found.passed {mark : Char} {front skipped rest : Text} {length offset : Option Nat}
    (h : Found mark (front ++ skipped) rest length offset) :
    Found mark front (skipped ++ rest) (length.map (· + skipped.length)) offset := by
  cases h with
  | missing => exact .missing
  | here inside after parts =>
    have found : Found mark front (skipped ++ rest) (some ((skipped ++ inside).length + 1))
        (some (size (front ++ (skipped ++ inside)))) := .here _ after (by simp [parts])
    rw [List.length_append, ← List.append_assoc] at found
    rw [Option.map_some, show inside.length + 1 + skipped.length = skipped.length + inside.length + 1
      by omega]
    exact found

theorem Found.first (mark : Char) (front rest : Text) :
    Found mark front (mark :: rest) (some 1) (some (size front)) := by
  have found : Found mark front (mark :: rest) (some 1) (some (size (front ++ []))) :=
    .here [] rest rfl
  rwa [List.append_nil] at found

namespace Bytewise

def quoteEndTurn (mark : Char) (_ : Unit) (i : Nat) (c : Char) : Option (Turn Unit (Option Nat)) :=
  if c == '\\' then some (.next () (i + 2))
  else if c == mark then some (.stop (some i))
  else some (.next () (i + 1))

def quoteEnd? (t : Text) (start : Nat) : Option (Option Nat) := do
  let mark ← t.bytes[start]?
  scan t.bytes (quoteEndTurn mark) (fun _ _ => some none) () (start + 1)

theorem scan_quoteEnd {t front rest : Text} {mark : Char} {q : Quote}
    (hm : isQuoteMark mark = true) (within : q.Within mark) (h : t = front ++ rest) :
    ∃ offset, scan t.bytes (quoteEndTurn mark) (fun _ _ => some none) () (size front + ahead q) =
      some offset ∧ Found mark front rest (q.span rest) offset := by
  have narrow := isWide_of_isQuoteMark hm
  have ne_backslash : mark ≠ '\\' := by rcases isQuoteMark_cases hm with rfl | rfl <;> decide
  induction rest generalizing q front with
  | nil =>
    rw [List.append_nil] at h
    exact ⟨none, scan_end (getElem?_bytes_end (by rw [h]; omega)), .missing⟩
  | cons c rest ih =>
    rcases within.step c with ⟨rfl, rfl, ends⟩ | ⟨other, within'⟩
    · have stop : quoteEndTurn c () (size front) c = some (.stop (some (size front))) := by
        simp [quoteEndTurn, ne_backslash]
      refine ⟨some (size front), scan_stop (getElem?_bytes_narrow h narrow) stop, ?_⟩
      rw [Quote.span_of_outside ends]
      exact .first c front rest
    · obtain ⟨offset, later, found⟩ := ih within' (show t = front ++ [c] ++ rest by simp [h])
      rw [Quote.span_of_within within']
      refine ⟨offset, Eq.trans ?_ later, found.passed⟩
      refine scan_passQuote (f := fun _ => ()) (within.marked hm) h ?_ ?_
      · intro plain _
        obtain rfl : q = .inside mark := by
          rcases within with rfl | rfl
          · rfl
          · cases plain
        rw [quoteEndTurn, mark?, passQuote]
        by_cases backslash : c = '\\'
        · simp [backslash]
        · have ne := (other rfl).resolve_left backslash
          simp [backslash, ne]
      · intro quote i d wide
        have ne_mark := ne_of_isWide wide narrow
        have ne := ne_of_isWide wide (show isWide '\\' = false from rfl)
        rw [quoteEndTurn, ne, ne_mark]
        cases quote with
        | none => rfl
        | some other =>
          rw [passQuote, ne]
          simp only [Bool.false_eq_true, if_false]
          split <;> rfl

theorem quoteEnd?_found {t front rest : Text} {mark : Char} (hm : isQuoteMark mark = true)
    (h : t = front ++ mark :: rest) :
    ∃ offset, quoteEnd? t (size front) = some offset ∧
      Found mark (front ++ [mark]) rest ((Quote.inside mark).span rest) offset := by
  have narrow := isWide_of_isQuoteMark hm
  obtain ⟨offset, found, place⟩ := scan_quoteEnd (q := .inside mark) hm (.inl rfl)
    (show t = front ++ [mark] ++ rest by simp [h])
  rw [size_append, size_narrow narrow] at found
  refine ⟨offset, ?_, place⟩
  rw [quoteEnd?, getElem?_bytes_narrow h narrow]
  exact found

def less? (n k : Nat) : Option Nat := if k ≤ n then some (n - k) else none

def findCloseTurn (b : Brackets) (t : Text) (depth : Nat) (i : Nat) (c : Char) :
    Option (Turn Nat (Option Nat)) :=
  if isQuoteMark c then do
    match ← quoteEnd? t i with
    | none => return .stop none
    | some stop => return .next depth (stop + 1)
  else if c == b.opening then some (.next (depth + 1) (i + 1))
  else if c == b.closing then do
    let depth ← less? depth 1
    if depth = 0 then return .stop (some i) else return .next depth (i + 1)
  else some (.next depth (i + 1))

def findClose? (b : Brackets) (t : Text) (start : Nat) : Option (Option Nat) :=
  scan t.bytes (findCloseTurn b t) (fun _ _ => some none) 0 start

theorem isWide_of_isBracket {c : Char} (h : isBracket c = true) : isWide c = false := by
  simp only [isBracket, Bool.or_eq_true, beq_iff_eq] at h
  rcases h with ((rfl | rfl) | rfl) | rfl <;> rfl

section FindClose

variable {b : Brackets} {t front rest : Text} {depth depth' : Nat}

/-- With one more than `depth` brackets open, the loop and the scanner on characters agree. -/
def CloseAgrees (b : Brackets) (t front rest : Text) (depth : Nat) : Prop :=
  ∃ offset, scan t.bytes (findCloseTurn b t) (fun _ _ => some none) (depth + 1) (size front) =
    some offset ∧ Found b.closing front rest (b.span (depth + 1) .outside rest) offset

theorem CloseAgrees.passed {skipped : Text} (h : CloseAgrees b t (front ++ skipped) rest depth')
    (moves : scan t.bytes (findCloseTurn b t) (fun _ _ => some none) (depth + 1) (size front) =
      scan t.bytes (findCloseTurn b t) (fun _ _ => some none) (depth' + 1)
        (size (front ++ skipped)))
    (spans : b.span (depth + 1) .outside (skipped ++ rest) =
      (b.span (depth' + 1) .outside rest).map (· + skipped.length)) :
    CloseAgrees b t front (skipped ++ rest) depth := by
  obtain ⟨offset, later, found⟩ := h
  refine ⟨offset, moves.trans later, ?_⟩
  rw [spans]
  exact found.passed

/-- A literal is passed over whole; without an end, it leaves the group open. -/
theorem closeAgrees_quote {mark : Char} (hm : isQuoteMark mark = true)
    (h : t = front ++ mark :: rest)
    (ih : ∀ skipped after, rest = skipped ++ after →
      t = front ++ mark :: skipped ++ after → CloseAgrees b t (front ++ mark :: skipped) after depth) :
    CloseAgrees b t front (mark :: rest) depth := by
  have narrow := isWide_of_isQuoteMark hm
  have byte := getElem?_bytes_narrow h narrow
  have spans : b.span (depth + 1) .outside (mark :: rest) =
      (b.span (depth + 1) (.inside mark) rest).map (· + 1) := by
    rw [Brackets.span, if_pos hm]
  obtain ⟨stop, ends, found⟩ := quoteEnd?_found hm h
  rw [b.span_within (.inl rfl)] at spans
  generalize (Quote.inside mark).span rest = length at found spans
  cases found with
  | missing =>
    have stops : findCloseTurn b t (depth + 1) (size front) mark = some (.stop none) := by
      simp [findCloseTurn, hm, ends]
    refine ⟨none, scan_stop byte stops, ?_⟩
    rw [spans]
    exact .missing
  | here inside after parts =>
    have moves : findCloseTurn b t (depth + 1) (size front) mark =
        some (.next (depth + 1) (size (front ++ [mark] ++ inside) + 1)) := by
      simp [findCloseTurn, hm, ends]
    have further : size front < size (front ++ [mark] ++ inside) + 1 := by
      simp only [size_append]
      omega
    have whole : mark :: rest = mark :: (inside ++ [mark]) ++ after := by simp [parts]
    rw [whole]
    apply (ih (inside ++ [mark]) after (by simp [parts]) (by simp [h, parts])).passed
    · rw [size_enclosed narrow]
      exact scan_next byte moves further
    · rw [← whole, spans, Option.bind_some, parts, drop_group, Option.map_map]
      congr 1
      funext n
      simp only [Function.comp_apply, List.length_cons, List.length_append, List.length_nil]
      omega

variable (proper : b.Proper)
include proper

theorem findCloseTurn_wide {i : Nat} {d : Char} (wide : isWide d = true) :
    findCloseTurn b t depth i d = some (.next depth (i + 1)) := by
  rw [findCloseTurn, isQuoteMark_of_isWide wide,
    ne_of_isWide wide (isWide_of_isBracket proper.opening),
    ne_of_isWide wide (isWide_of_isBracket proper.closing)]
  rfl

theorem closeAgrees (h : t = front ++ rest) (depth : Nat) : CloseAgrees b t front rest depth := by
  have opens := Brackets.isQuoteMark_of_isBracket proper.opening
  have closes := Brackets.isQuoteMark_of_isBracket proper.closing
  induction len : rest.length using Nat.strongRecOn generalizing front rest depth with
  | _ n ih =>
    subst len
    cases rest with
    | nil =>
      rw [List.append_nil] at h
      exact ⟨none, scan_end (getElem?_bytes_end (by rw [h])), .missing⟩
    | cons c rest =>
      have onward (depth' : Nat) : CloseAgrees b t (front ++ [c]) rest depth' :=
        ih rest.length (Nat.lt_succ_self _) (by simp [h]) depth' rfl
      by_cases quote : isQuoteMark c = true
      · apply closeAgrees_quote quote h
        intro skipped after parts whole
        apply ih after.length _ whole depth rfl
        rw [parts, List.length_cons, List.length_append]
        omega
      by_cases opening : c = b.opening
      · subst opening
        have narrow := isWide_of_isBracket proper.opening
        apply (onward (depth + 1)).passed
        · rw [size_append, size_narrow narrow]
          apply scan_next (getElem?_bytes_narrow h narrow) _ (Nat.lt_succ_self _)
          simp [findCloseTurn, opens]
        · simp [Brackets.span, opens]
      by_cases closing : c = b.closing
      · subst closing
        have narrow := isWide_of_isBracket proper.closing
        have byte := getElem?_bytes_narrow h narrow
        cases depth with
        | zero =>
          have stops : findCloseTurn b t 1 (size front) b.closing =
              some (.stop (some (size front))) := by
            simp [findCloseTurn, less?, closes, opening]
          refine ⟨some (size front), scan_stop byte stops, ?_⟩
          simpa [Brackets.span, closes, opening] using Found.first b.closing front rest
        | succ depth =>
          apply (onward depth).passed
          · rw [size_append, size_narrow narrow]
            apply scan_next byte _ (Nat.lt_succ_self _)
            simp [findCloseTurn, less?, closes, opening]
          · simp [Brackets.span, closes, opening]
      · have plain : findCloseTurn b t (depth + 1) (size front) c =
            some (.next (depth + 1) (size front + 1)) := by
          simp [findCloseTurn, quote, opening, closing]
        apply (onward depth).passed
        · apply scan_char h
          · intro _
            exact plain
          · intro _ i d wide
            exact ⟨findCloseTurn_wide proper wide, findCloseTurn_wide proper wide⟩
        · simp [Brackets.span, quote, opening, closing]

/-- The search for the end of a group finds the bracket that closes it. -/
theorem findClose?_found (h : t = front ++ b.opening :: rest) :
    ∃ offset length, findClose? b t (size front) = some offset ∧
      Found b.closing (front ++ [b.opening]) rest length offset ∧
      b.groupLength (b.opening :: rest) = length.map (· + 1) := by
  have narrow := isWide_of_isBracket proper.opening
  have opens := Brackets.isQuoteMark_of_isBracket proper.opening
  have moves : findCloseTurn b t 0 (size front) b.opening = some (.next 1 (size front + 1)) := by
    simp [findCloseTurn, opens]
  obtain ⟨offset, later, found⟩ := closeAgrees proper
    (show t = front ++ [b.opening] ++ rest by simp [h]) 0
  rw [size_append, size_narrow narrow] at later
  refine ⟨offset, _, ?_, found, by simp [Brackets.groupLength, Brackets.span, opens]⟩
  rw [findClose?, scan_next (getElem?_bytes_narrow h narrow) moves (Nat.lt_succ_self _)]
  exact later

end FindClose

def operatorTurn (body : Text) (items : List Chain.Item) (i : Nat) :
    Option (Turn (List Chain.Item) (List Chain.Item)) := do
  let op ← Operator.ofText? (← slice? body i (i + 1))
  return .next (items ++ [.operator op]) (i + 1)

def quoteTurn (body : Text) (items : List Chain.Item) (i : Nat) :
    Option (Turn (List Chain.Item) (List Chain.Item)) := do
  match ← quoteEnd? body i with
  | none => return .stop (items ++ [.fault (.openQuote body)])
  | some stop => return .next (items ++ [.piece (← slice? body i (stop + 1))]) (stop + 1)

def parensTurn (body : Text) (items : List Chain.Item) (i : Nat) :
    Option (Turn (List Chain.Item) (List Chain.Item)) := do
  match ← findClose? parentheses body i with
  | none => return .stop (items ++ [.fault (.unterminated body)])
  | some close => return .next (items ++ [.parens (← slice? body i (close + 1))]) (close + 1)

def bracesTurn (body : Text) (items : List Chain.Item) (i : Nat) :
    Option (Turn (List Chain.Item) (List Chain.Item)) := do
  match ← findClose? braces body i with
  | none => return .stop (items ++ [.fault (.unterminated body)])
  | some close => return .next (items ++ [.braces (← slice? body (i + 1) close)]) (close + 1)

def itemsTurn (body : Text) (items : List Chain.Item) (i : Nat) (c : Char) :
    Option (Turn (List Chain.Item) (List Chain.Item)) :=
  let next := body.bytes[i + 1]?
  if isAsciiBlank c then some (.next items (i + 1))
  else if (c == '<' || c == '>') && next == some c then
    some (.next (items ++ [.operator (if c == '<' then .shiftLeft else .shiftRight)]) (i + 2))
  else if c == '+' || c == '-' || c == '*' || c == '/' then operatorTurn body items i
  else if (c == '%' || c == '|' || c == '&' || c == '^') && next.all isAsciiBlank then
    operatorTurn body items i
  else if isQuoteMark c then quoteTurn body items i
  else if c == '(' then parensTurn body items i
  else if c == '{' then bracesTurn body items i
  else if c == ')' || c == '}' then some (.stop (items ++ [.fault (.unterminated body)]))
  else do
    let char := (← from? body i).head?.getD ' '
    return .next (items ++ [.piece [char]]) (i + char.utf8Size)

def items? (body : Text) : Option (List Chain.Item) :=
  scan body.bytes (itemsTurn body) (fun items _ => some items) [] 0

/-- What a turn of the loop comes to at the front of `t`: it stops with all the items of `t`, or it
takes a part of `t` with its items and leaves the others. -/
inductive ItemsStep (body front t : Text) (byte : Char) : Prop where
  | stops (turn : ∀ items, itemsTurn body items (size front) byte =
      some (.stop (items ++ Chain.items body 0 t)))
  | takes (taken after : Text) (new : List Chain.Item) (parts : t = taken ++ after)
      (filled : taken ≠ []) (items_eq : Chain.items body 0 t = new ++ Chain.items body 0 after)
      (turn : ∀ items, itemsTurn body items (size front) byte =
        some (.next (items ++ new) (size (front ++ taken))))

def isMark (c : Char) : Bool :=
  isAsciiBlank c || isQuoteMark c || isBracket c || c == '<' || c == '>' || c == '+' || c == '-' ||
    c == '*' || c == '/' || c == '%' || c == '|' || c == '&' || c == '^'

theorem isMark_of_isWide {c : Char} (h : isWide c = true) : isMark c = false := by
  apply Bool.eq_false_iff.mpr
  intro mark
  simp only [isMark, isAsciiBlank, isQuoteMark, isBracket, Bool.or_eq_true, beq_iff_eq,
    or_assoc] at mark
  rcases mark with rfl | rfl | rfl | rfl | rfl | rfl | rfl | rfl | rfl | rfl | rfl | rfl | rfl |
    rfl | rfl | rfl | rfl | rfl | rfl | rfl | rfl <;> cases h

section Items

variable {body front rest : Text} {c : Char}

theorem itemsStep_plain (h : body = front ++ c :: rest) {byte : Char} (plain : isMark c = false)
    (plain' : isMark byte = false) : ItemsStep body front (c :: rest) byte := by
  have place : size front + c.utf8Size = size (front ++ [c]) := by
    rw [size_append, size_cons, size_nil, Nat.add_zero]
  simp only [isMark, isBracket, Bool.or_eq_false_iff] at plain plain'
  refine .takes [c] rest [.piece [c]] rfl (List.cons_ne_nil _ _) ?_ fun items => ?_
  · rw [Chain.items]
    simp [Chain.shiftAt?, Chain.operatorAt?, plain]
  · rw [itemsTurn]
    simp only [plain', from?_eq h rfl]
    simp [place]

theorem itemsStep_blank (blank : isAsciiBlank c = true) :
    ItemsStep body front (c :: rest) c := by
  refine .takes [c] rest [] rfl (List.cons_ne_nil _ _) ?_ fun items => ?_
  · rw [Chain.items, if_pos blank]
    rfl
  · rw [itemsTurn, if_pos blank, List.append_nil, size_append,
      size_narrow (isWide_of_isAsciiBlank blank)]

theorem operatorAt?_cases (c : Char) (rest : Text) :
    (∃ op, Chain.operatorAt? c rest = some op ∧ Operator.ofText? [c] = some op ∧
      (((c == '+' || c == '-' || c == '*' || c == '/') = true) ∨
        ((c == '%' || c == '|' || c == '&' || c == '^') && rest.head?.all isAsciiBlank) = true)) ∨
    (Chain.operatorAt? c rest = none ∧ (c == '+' || c == '-' || c == '*' || c == '/') = false ∧
      ((c == '%' || c == '|' || c == '&' || c == '^') && rest.head?.all isAsciiBlank) = false) := by
  have named (h : (c == '+' || c == '-' || c == '*' || c == '/' || c == '%' || c == '|' ||
      c == '&' || c == '^') = true) : ∃ op, Operator.ofText? [c] = some op := by
    simp only [Bool.or_eq_true, beq_iff_eq, or_assoc] at h
    rcases h with rfl | rfl | rfl | rfl | rfl | rfl | rfl | rfl <;> exact ⟨_, rfl⟩
  rw [Chain.operatorAt?]
  by_cases always : (c == '+' || c == '-' || c == '*' || c == '/') = true
  · obtain ⟨op, named⟩ := named (by simp [always])
    exact .inl ⟨op, by rw [if_pos always, named], named, .inl always⟩
  rw [if_neg always]
  by_cases spaced : ((c == '%' || c == '|' || c == '&' || c == '^') &&
      rest.head?.all isAsciiBlank) = true
  · obtain ⟨sign, blank⟩ := Bool.and_eq_true_iff.mp spaced
    obtain ⟨op, named⟩ := named (by simp only [Bool.or_eq_true] at sign ⊢; tauto)
    exact .inl ⟨op, by rw [if_pos sign, if_pos blank, named], named, .inr spaced⟩
  · refine .inr ⟨?_, by simpa using always, by simpa using spaced⟩
    split
    · next sign => rw [if_neg fun blank => spaced (Bool.and_eq_true_iff.mpr ⟨sign, blank⟩)]
    · rfl

/-- A sign is an operator or half of one, or a piece of a term. -/
theorem itemsStep_sign (h : body = front ++ c :: rest) (narrow : isWide c = false)
    (blank : isAsciiBlank c = false) (quote : isQuoteMark c = false)
    (bracket : isBracket c = false) : ItemsStep body front (c :: rest) c := by
  have place : size (front ++ [c]) = size front + 1 := by rw [size_append, size_narrow narrow]
  have cut : slice? body (size front) (size front + 1) = some [c] :=
    slice?_eq (show body = front ++ [c] ++ rest by simp [h]) rfl (by rw [size_narrow narrow])
  have twice : body.bytes[size front + 1]? = some c ↔ rest.head? = some c := by
    rw [getElem?_bytes_next h narrow]
    rcases head?_bytes rest with same | ⟨d, e, char, byte, wide, wide'⟩
    · rw [same]
    · simp only [char, byte, Option.some.injEq]
      constructor <;> rintro rfl <;> simp_all
  have spaced : body.bytes[size front + 1]?.all isAsciiBlank = rest.head?.all isAsciiBlank := by
    rw [getElem?_bytes_next h narrow]
    exact head?_bytes_all fun d wide => isAsciiBlank_of_isWide wide
  simp only [isBracket, Bool.or_eq_false_iff] at bracket
  by_cases doubled : (c = '<' ∨ c = '>') ∧ rest.head? = some c
  · obtain ⟨sign, head⟩ := doubled
    obtain ⟨more, rfl⟩ : ∃ more, rest = c :: more := by
      cases rest with
      | nil => cases head
      | cons d more =>
        cases head
        exact ⟨more, rfl⟩
    have place' : size (front ++ [c, c]) = size front + 2 := by
      rw [show front ++ [c, c] = front ++ [c] ++ [c] by simp, size_append, place,
        size_narrow narrow]
    refine .takes [c, c] more [.operator (if c == '<' then .shiftLeft else .shiftRight)] rfl
      (List.cons_ne_nil _ _) ?_ fun items => ?_
    · rw [Chain.items]
      rcases sign with rfl | rfl <;> rfl
    · rw [itemsTurn, place']
      simp [blank, sign, twice]
  have single : Chain.shiftAt? c rest = none := by
    rw [Chain.shiftAt?, if_neg]
    simpa using doubled
  have single' : ((c == '<' || c == '>') && body.bytes[size front + 1]? == some c) = false := by
    apply Bool.eq_false_iff.mpr
    simpa [twice] using doubled
  rcases operatorAt?_cases c rest with ⟨op, found, named, sign⟩ | ⟨none, always, before⟩
  · refine .takes [c] rest [.operator op] rfl (List.cons_ne_nil _ _) ?_ fun items => ?_
    · rw [Chain.items]
      simp [blank, single, found]
    · have taken : operatorTurn body items (size front) =
          some (.next (items ++ [.operator op]) (size front + 1)) := by
        simp only [operatorTurn, cut, named, Option.bind_eq_bind, Option.bind_some, Option.pure_def]
      rw [itemsTurn, place]
      simp only [blank, single', spaced, taken, Bool.false_eq_true, if_false]
      rcases sign with always | before
      · rw [if_pos always]
      · rw [if_pos before, ite_self]
  · refine .takes [c] rest [.piece [c]] rfl (List.cons_ne_nil _ _) ?_ fun items => ?_
    · rw [Chain.items]
      simp [blank, single, none, quote, bracket]
    · have one : c.utf8Size = 1 := by
        have := size_narrow narrow
        rwa [size_cons, size_nil, Nat.add_zero] at this
      rw [itemsTurn, place]
      simp only [blank, single', spaced, always, before, quote, bracket, from?_eq h rfl]
      simp [one]

theorem itemsTurn_quote (body : Text) (quote : isQuoteMark c = true) (items : List Chain.Item)
    (i : Nat) : itemsTurn body items i c = quoteTurn body items i := by
  rcases isQuoteMark_cases quote with rfl | rfl <;> rfl

theorem items_quote (body : Text) (quote : isQuoteMark c = true) (rest : Text) :
    Chain.items body 0 (c :: rest) =
      match (Quote.inside c).span rest with
      | some n => .piece (c :: rest.take n) :: Chain.items body n rest
      | none => [.fault (.openQuote body)] := by
  rw [Chain.items]
  rcases isQuoteMark_cases quote with rfl | rfl <;> rfl

theorem itemsStep_quote (h : body = front ++ c :: rest) (quote : isQuoteMark c = true) :
    ItemsStep body front (c :: rest) c := by
  have narrow := isWide_of_isQuoteMark quote
  have turn (items : List Chain.Item) := itemsTurn_quote body quote items (size front)
  have read := items_quote body quote rest
  obtain ⟨stop, ends, found⟩ := quoteEnd?_found quote h
  simp only [quoteTurn, ends, Option.bind_eq_bind, Option.bind_some] at turn
  generalize (Quote.inside c).span rest = length at found read
  cases found with
  | missing =>
    refine .stops fun items => ?_
    rw [turn, read]
    rfl
  | here inside after parts =>
    have cut := slice?_enclosed (show body = front ++ c :: (inside ++ c :: after) by rw [h, parts])
      narrow
    refine .takes (c :: (inside ++ [c])) after [.piece (c :: (inside ++ [c]))] (by simp [parts])
      (List.cons_ne_nil _ _) ?_ fun items => ?_
    · rw [read, parts]
      simp [take_group, Chain.items_group]
    · rw [turn, size_enclosed narrow]
      simp only [cut, Option.bind_some, Option.pure_def]

theorem items_parens (body rest : Text) :
    Chain.items body 0 ('(' :: rest) =
      match parentheses.groupLength ('(' :: rest) with
      | some n => .parens (('(' :: rest).take n) :: Chain.items body (n - 1) rest
      | none => [.fault (.unterminated body)] := rfl

theorem itemsStep_parens (h : body = front ++ '(' :: rest) :
    ItemsStep body front ('(' :: rest) '(' := by
  have turn (items : List Chain.Item) : itemsTurn body items (size front) '(' =
      parensTurn body items (size front) := rfl
  have read := items_parens body rest
  obtain ⟨close, length, closes, found, group⟩ : ∃ close length,
      findClose? parentheses body (size front) = some close ∧
      Found ')' (front ++ ['(']) rest length close ∧
      parentheses.groupLength ('(' :: rest) = length.map (· + 1) :=
    findClose?_found Brackets.proper_parentheses h
  simp only [parensTurn, closes, Option.bind_eq_bind, Option.bind_some] at turn
  rw [group] at read
  cases found with
  | missing =>
    refine .stops fun items => ?_
    rw [turn, read]
    rfl
  | here inside after parts =>
    have cut := slice?_enclosed (h.trans (by rw [parts])) rfl
    refine .takes ('(' :: (inside ++ [')'])) after [.parens ('(' :: (inside ++ [')']))]
      (by simp [parts]) (List.cons_ne_nil _ _) ?_ fun items => ?_
    · rw [read, parts]
      simp [take_group, Chain.items_group]
    · rw [turn, size_enclosed rfl]
      simp only [cut, Option.bind_some, Option.pure_def]

theorem items_braces (body rest : Text) :
    Chain.items body 0 ('{' :: rest) =
      match braces.groupLength ('{' :: rest) with
      | some n => .braces (inner (('{' :: rest).take n)) :: Chain.items body (n - 1) rest
      | none => [.fault (.unterminated body)] := rfl

theorem itemsStep_braces (h : body = front ++ '{' :: rest) :
    ItemsStep body front ('{' :: rest) '{' := by
  have turn (items : List Chain.Item) : itemsTurn body items (size front) '{' =
      bracesTurn body items (size front) := rfl
  have read := items_braces body rest
  obtain ⟨close, length, closes, found, group⟩ : ∃ close length,
      findClose? braces body (size front) = some close ∧
      Found '}' (front ++ ['{']) rest length close ∧
      braces.groupLength ('{' :: rest) = length.map (· + 1) :=
    findClose?_found Brackets.proper_braces h
  simp only [bracesTurn, closes, Option.bind_eq_bind, Option.bind_some] at turn
  rw [group] at read
  cases found with
  | missing =>
    refine .stops fun items => ?_
    rw [turn, read]
    rfl
  | here inside after parts =>
    have cut := slice?_inside (h.trans (by rw [parts])) rfl
    refine .takes ('{' :: (inside ++ ['}'])) after [.braces inside] (by simp [parts])
      (List.cons_ne_nil _ _) ?_ fun items => ?_
    · rw [read, parts]
      simp [take_group, Chain.items_group, inner_group]
    · rw [turn, size_enclosed rfl]
      simp only [cut, Option.bind_some, Option.pure_def]

theorem itemsStep_narrow (h : body = front ++ c :: rest) (narrow : isWide c = false) :
    ItemsStep body front (c :: rest) c := by
  by_cases blank : isAsciiBlank c = true
  · exact itemsStep_blank blank
  by_cases quote : isQuoteMark c = true
  · exact itemsStep_quote h quote
  by_cases bracket : isBracket c = true
  · simp only [isBracket, Bool.or_eq_true, beq_iff_eq] at bracket
    rcases bracket with ((rfl | rfl) | rfl) | rfl
    · exact itemsStep_parens h
    · exact .stops fun items => rfl
    · exact itemsStep_braces h
    · exact .stops fun items => rfl
  · exact itemsStep_sign h narrow (by simpa using blank) (by simpa using quote) (by simpa using bracket)

/-- At every character there is a byte at which the loop goes on as the scanner does. -/
theorem itemsStep (h : body = front ++ c :: rest) :
    ∃ byte, body.bytes[size front]? = some byte ∧ ItemsStep body front (c :: rest) byte := by
  by_cases wide : isWide c = true
  · obtain ⟨byte, found, wide'⟩ :=
      getElem?_bytes_wide h wide (Nat.pos_of_ne_zero (size_ne_zero c []))
    exact ⟨byte, found, itemsStep_plain h (isMark_of_isWide wide) (isMark_of_isWide wide')⟩
  · have narrow : isWide c = false := by simpa using wide
    exact ⟨c, getElem?_bytes_narrow h narrow, itemsStep_narrow h narrow⟩

theorem scan_items (h : body = front ++ rest) (items : List Chain.Item) :
    scan body.bytes (itemsTurn body) (fun items _ => some items) items (size front) =
      some (items ++ Chain.items body 0 rest) := by
  induction len : rest.length using Nat.strongRecOn generalizing front rest items with
  | _ n ih =>
    subst len
    cases rest with
    | nil =>
      rw [List.append_nil] at h
      rw [scan_end (getElem?_bytes_end (by rw [h])), Chain.items, List.append_nil]
    | cons c rest =>
      obtain ⟨byte, found, step⟩ := itemsStep h
      cases step with
      | stops turn => exact scan_stop found (turn items)
      | takes taken after new parts filled items_eq turn =>
        have some := List.length_pos_iff.mpr filled
        have longer : size front < size (front ++ taken) := by
          have := length_le_size taken
          rw [size_append]
          omega
        have later := ih after.length (by rw [parts, List.length_append]; omega)
          (show body = front ++ taken ++ after by rw [h, parts, List.append_assoc]) (items ++ new) rfl
        rw [scan_next found (turn items) longer, later, items_eq, List.append_assoc]

end Items

theorem items?_eq (body : Text) : items? body = some (Chain.items body 0 body) :=
  scan_items (show body = [] ++ body from rfl) []

end Bytewise

end Assembler65816
