import Assembler65816.Proofs.Bytes
import Assembler65816.Text.Comment
import Assembler65816.Text.DataList
import Assembler65816.Text.Escape

/-! # Scanners over bytes

Comments, data items and escapes are found by loops that run over the bytes of a line and cut the
line at the offsets they stop at. Each of them is written here with the check that every cut and
every byte it reads asks for, so that it has no answer where a check fails. None fails: each loop
answers what the scanner on characters answers.
-/
namespace Assembler65816

open Text

def Quote.Marked : Quote → Prop
  | .outside => True
  | .inside mark | .escaped mark => isQuoteMark mark = true

theorem Quote.Marked.step {q : Quote} (h : q.Marked) (c : Char) : (q.step c).Marked := by
  cases q with
  | outside =>
    rw [Quote.step]
    split
    · next mark => exact mark
    · trivial
  | inside mark =>
    rw [Quote.step]
    split
    · exact h
    · split
      · trivial
      · exact h
  | escaped mark => exact h

theorem isQuoteMark_of_isWide {c : Char} (h : isWide c = true) : isQuoteMark c = false := by
  rw [isQuoteMark, ne_of_isWide h rfl, ne_of_isWide h rfl]
  rfl

theorem isWide_of_isQuoteMark {c : Char} (h : isQuoteMark c = true) : isWide c = false := by
  rcases isQuoteMark_cases h with rfl | rfl <;> rfl

theorem isWide_of_isAsciiBlank {c : Char} (h : isAsciiBlank c = true) : isWide c = false := by
  simp only [isAsciiBlank, Bool.or_eq_true, beq_iff_eq] at h
  rcases h with (((rfl | rfl) | rfl) | rfl) | rfl <;> rfl

theorem isAsciiBlank_of_isWide {c : Char} (h : isWide c = true) : isAsciiBlank c = false := by
  apply Bool.eq_false_iff.mpr
  intro blank
  rw [isWide_of_isAsciiBlank blank] at h
  cases h

def Quote.resumed : Quote → Quote
  | .outside => .outside
  | .inside mark | .escaped mark => .inside mark

theorem Quote.step_wide {q : Quote} (h : q.Marked) {c : Char} (wide : isWide c = true) :
    q.step c = q.resumed := by
  cases q with
  | outside => simp [Quote.step, Quote.resumed, isQuoteMark_of_isWide wide]
  | inside mark =>
    have backslash := ne_of_isWide wide (show isWide '\\' = false from rfl)
    simp [Quote.step, Quote.resumed, backslash, ne_of_isWide wide (isWide_of_isQuoteMark h)]
  | escaped mark => rfl

theorem Quote.resumed_resumed (q : Quote) : q.resumed.resumed = q.resumed := by
  cases q <;> rfl

namespace Bytewise

structure Flags where
  single : Bool := false
  double : Bool := false
  escape : Bool := false

def Flags.ofQuote : Quote → Flags
  | .outside => {}
  | .inside mark => { single := mark == '\'', double := mark == '"' }
  | .escaped mark => { single := mark == '\'', double := mark == '"', escape := true }

def splitSemicolonTurn (line : Text) (flags : Flags) (i : Nat) (c : Char) :
    Option (Turn Flags (Text × Text)) :=
  if flags.escape then some (.next { flags with escape := false } (i + 1))
  else if c == '\\' && (flags.single || flags.double) then
    some (.next { flags with escape := true } (i + 1))
  else if c == '\'' && !flags.double then
    some (.next { flags with single := !flags.single } (i + 1))
  else if c == '"' && !flags.single then
    some (.next { flags with double := !flags.double } (i + 1))
  else if c == ';' && !flags.single && !flags.double then do
    return .stop (← upTo? line i, ← from? line i)
  else some (.next flags (i + 1))

def splitSemicolon? (line : Text) : Option (Text × Text) :=
  scan line.bytes (splitSemicolonTurn line) (fun _ _ => some (line, [])) {} 0

theorem splitSemicolonTurn_ofQuote (line : Text) {q : Quote} (marked : q.Marked) (i : Nat)
    {c : Char} (other : q = .outside → c ≠ ';') :
    splitSemicolonTurn line (.ofQuote q) i c = some (.next (.ofQuote (q.step c)) (i + 1)) := by
  cases q with
  | outside =>
    have := other rfl
    by_cases single : c = '\''
    · subst single
      rfl
    · by_cases double : c = '"'
      · subst double
        rfl
      · simp [splitSemicolonTurn, Flags.ofQuote, Quote.step, isQuoteMark, single, double, this]
  | inside mark =>
    by_cases backslash : c = '\\'
    · subst backslash
      rcases isQuoteMark_cases marked with rfl | rfl <;> rfl
    · rcases isQuoteMark_cases marked with rfl | rfl
      · by_cases single : c = '\''
        · subst single
          rfl
        · simp [splitSemicolonTurn, Flags.ofQuote, Quote.step, backslash, single]
      · by_cases double : c = '"'
        · subst double
          rfl
        · simp [splitSemicolonTurn, Flags.ofQuote, Quote.step, backslash, double]
  | escaped mark => rfl

theorem scan_splitSemicolon {line front rest : Text} {q : Quote} (marked : q.Marked)
    (h : line = front ++ rest) :
    scan line.bytes (splitSemicolonTurn line) (fun _ _ => some (line, [])) (.ofQuote q) (size front) =
      some (front ++ (q.cut Comment.startsSemicolon rest).1,
        (q.cut Comment.startsSemicolon rest).2) := by
  induction rest generalizing q front with
  | nil =>
    rw [List.append_nil] at h
    rw [scan_end (getElem?_bytes_end (Nat.le_of_eq (by rw [h]))), h]
    simp [Quote.cut]
  | cons c rest ih =>
    by_cases stops : q = .outside ∧ c = ';'
    · obtain ⟨rfl, rfl⟩ := stops
      have stop : splitSemicolonTurn line {} (size front) ';' =
          some (.stop (front, ';' :: rest)) := by
        simp [splitSemicolonTurn, upTo?_eq h rfl, from?_eq h rfl]
      rw [Flags.ofQuote, scan_stop (getElem?_bytes_narrow h rfl) stop]
      simp [Quote.cut, Comment.startsSemicolon]
    · have other : q = .outside → c ≠ ';' := fun outside mark => stops ⟨outside, mark⟩
      have cut : q.cut Comment.startsSemicolon (c :: rest) =
          (c :: ((q.step c).cut Comment.startsSemicolon rest).1,
            ((q.step c).cut Comment.startsSemicolon rest).2) := by
        rw [Quote.cut, if_neg]
        simpa [Comment.startsSemicolon] using other
      have later := ih (marked.step c) (show line = front ++ [c] ++ rest by simp [h])
      rw [List.append_assoc] at later
      rw [cut]
      refine Eq.trans (scan_char h ?_ ?_) later
      · intro _
        exact splitSemicolonTurn_ofQuote line marked _ other
      · intro wide i d wide'
        have same : q.step d = q.step c := by
          rw [Quote.step_wide marked wide, Quote.step_wide marked wide']
        have still : (q.step c).step d = q.step c := by
          rw [Quote.step_wide (marked.step c) wide', Quote.step_wide marked wide,
            Quote.resumed_resumed]
        have ne : d ≠ ';' := by simpa using ne_of_isWide wide' (show isWide ';' = false from rfl)
        rw [splitSemicolonTurn_ofQuote line marked i fun _ => ne, same,
          splitSemicolonTurn_ofQuote line (marked.step c) i fun _ => ne, still]
        exact ⟨rfl, rfl⟩

theorem splitSemicolon?_eq (line : Text) :
    splitSemicolon? line = some (Comment.splitSemicolon line) :=
  scan_splitSemicolon (q := .outside) trivial (show line = [] ++ line from rfl)

/-- The quote in force after a byte and the offset to go on from. Within quotes a backslash takes
the next byte along. -/
def passQuote (quote : Option Char) (i : Nat) (c : Char) : Option Char × Nat :=
  match quote with
  | some mark =>
    if c == '\\' then (some mark, i + 2)
    else if c == mark then (none, i + 1)
    else (some mark, i + 1)
  | none => (if isQuoteMark c then some c else none, i + 1)

def mark? : Quote → Option Char
  | .outside => none
  | .inside mark | .escaped mark => some mark

def ahead : Quote → Nat
  | .escaped _ => 1
  | _ => 0

theorem passQuote_eq {q : Quote} (plain : ahead q = 0) (i : Nat) (c : Char) :
    passQuote (mark? q) i c = (mark? (q.step c), i + 1 + ahead (q.step c)) := by
  cases q with
  | outside =>
    rw [Quote.step, mark?, passQuote]
    split <;> rfl
  | inside mark =>
    rw [Quote.step, mark?, passQuote]
    split
    · rfl
    · split <;> rfl
  | escaped mark => cases plain

/-- A loop that passes quotes so goes past one character, also where it is ahead of it. -/
theorem scan_passQuote {σ ρ : Type} {turn : σ → Nat → Char → Option (Turn σ ρ)}
    {finish : σ → Nat → Option ρ} {f : Option Char → σ} {t front rest : Text} {c : Char}
    {q : Quote} (marked : q.Marked) (h : t = front ++ c :: rest)
    (here : ahead q = 0 → isWide c = false → turn (f (mark? q)) (size front) c =
      some (.next (f (passQuote (mark? q) (size front) c).1) (passQuote (mark? q) (size front) c).2))
    (wide : ∀ quote i d, isWide d = true → turn (f quote) i d =
      some (.next (f (passQuote quote i d).1) (passQuote quote i d).2)) :
    scan t.bytes turn finish (f (mark? q)) (size front + ahead q) =
      scan t.bytes turn finish (f (mark? (q.step c))) (size (front ++ [c]) + ahead (q.step c)) := by
  have inert : ∀ p : Quote, p.Marked → ahead p = 0 → ∀ i d, isWide d = true →
      turn (f (mark? p)) i d = some (.next (f (mark? p)) (i + 1)) := by
    intro p hp plain i d hd
    rw [wide _ i d hd, passQuote_eq plain, Quote.step_wide hp hd]
    cases p with
    | outside | inside => rfl
    | escaped => cases plain
  have one := Nat.pos_of_ne_zero (size_ne_zero c [])
  by_cases hc : isWide c = true
  · rw [Quote.step_wide marked hc]
    cases q with
    | outside => exact scan_wide h hc (inert .outside trivial rfl) (Nat.zero_le _)
    | inside mark => exact scan_wide h hc (inert (.inside mark) marked rfl) (Nat.zero_le _)
    | escaped mark => exact scan_wide h hc (inert (.inside mark) marked rfl) one
  · have narrow : isWide c = false := by simpa using hc
    rw [size_append, size_narrow narrow]
    by_cases plain : ahead q = 0
    · have moves := here plain narrow
      rw [passQuote_eq plain] at moves
      rw [plain, Nat.add_zero, scan_next (getElem?_bytes_narrow h narrow) moves (by omega)]
    · cases q with
      | outside | inside => exact absurd rfl plain
      | escaped mark => rfl

def stripSlashesTurn (line : Text) (quote : Option Char) (i : Nat) (c : Char) :
    Option (Turn (Option Char) Text) :=
  if quote.isNone && c == '/' && line.bytes[i + 1]?.any (· == '/') then
    (upTo? line i).map .stop
  else some (.next (passQuote quote i c).1 (passQuote quote i c).2)

def stripSlashes? (line : Text) : Option Text :=
  scan line.bytes (stripSlashesTurn line) (fun _ _ => some line) none 0

theorem startsSlashes_cons (c : Char) (rest : Text) :
    Comment.startsSlashes (c :: rest) = (c == '/' && rest.head?.any (· == '/')) := by
  rw [Comment.startsSlashes, Text.startsWith, List.isPrefixOf_cons_cons, Bool.beq_comm]
  cases rest with
  | nil => rfl
  | cons d more =>
    rw [List.isPrefixOf_cons_cons, List.isPrefixOf_nil_left, Bool.and_true, Bool.beq_comm (a := '/')]
    rfl

theorem slashes_bytes {line front rest : Text} {c : Char} (h : line = front ++ c :: rest)
    (narrow : isWide c = false) :
    (c == '/' && line.bytes[size front + 1]?.any (· == '/')) =
      Comment.startsSlashes (c :: rest) := by
  rw [startsSlashes_cons, getElem?_bytes_next h narrow, head?_bytes_any]
  intro d wide
  exact ne_of_isWide wide rfl

theorem scan_stripSlashes {line front rest : Text} {q : Quote} (marked : q.Marked)
    (h : line = front ++ rest) :
    scan line.bytes (stripSlashesTurn line) (fun _ _ => some line) (mark? q)
        (size front + ahead q) =
      some (front ++ (q.cut Comment.startsSlashes rest).1) := by
  induction rest generalizing q front with
  | nil =>
    rw [List.append_nil] at h
    rw [scan_end (getElem?_bytes_end (by rw [h]; omega)), h]
    simp [Quote.cut]
  | cons c rest ih =>
    by_cases stops : q = .outside ∧ Comment.startsSlashes (c :: rest) = true
    · obtain ⟨rfl, slashes⟩ := stops
      have narrow : isWide c = false := by
        rw [startsSlashes_cons, Bool.and_eq_true, beq_iff_eq] at slashes
        rw [slashes.1]
        rfl
      have stop : stripSlashesTurn line none (size front) c = some (.stop front) := by
        rw [stripSlashesTurn, Bool.and_assoc, slashes_bytes h narrow, slashes, upTo?_eq h rfl]
        rfl
      change scan _ _ _ none (size front) = _
      rw [scan_stop (getElem?_bytes_narrow h narrow) stop]
      simp [Quote.cut, slashes]
    · have cut : q.cut Comment.startsSlashes (c :: rest) =
          (c :: ((q.step c).cut Comment.startsSlashes rest).1,
            ((q.step c).cut Comment.startsSlashes rest).2) := by
        rw [Quote.cut, if_neg]
        simpa using stops
      have later := ih (marked.step c) (show line = front ++ [c] ++ rest by simp [h])
      rw [List.append_assoc] at later
      rw [cut]
      refine Eq.trans (scan_passQuote (f := id) marked h ?_ ?_) later
      · intro plain narrow
        rw [id, stripSlashesTurn, Bool.and_assoc, slashes_bytes h narrow, if_neg]
        · rfl
        · cases q with
          | outside => simpa [mark?] using stops
          | inside mark => simp [mark?]
          | escaped mark => cases plain
      · intro quote i d wide
        have ne := ne_of_isWide wide (show isWide '/' = false from rfl)
        rw [id, stripSlashesTurn, ne, Bool.and_false, Bool.false_and, if_neg Bool.false_ne_true]
        rfl

theorem stripSlashes?_eq (line : Text) :
    stripSlashes? line = some (Comment.stripSlashes line) :=
  scan_stripSlashes (q := .outside) trivial (show line = [] ++ line from rfl)

/-- The quote in force, the offset at which the field at hand starts, and the items so far. -/
structure Fields where
  quote : Option Char := none
  start : Nat := 0
  items : List Text := []

def Fields.push (s : Fields) (field : Text) : List Text :=
  if (Text.trim field).isEmpty then s.items else s.items ++ [Text.trim field]

def dataItemsTurn (list : Text) (s : Fields) (i : Nat) (c : Char) :
    Option (Turn Fields (List Text)) :=
  if s.quote.isNone && c == ',' then do
    let field ← slice? list s.start i
    return .next ⟨none, i + 1, s.push field⟩ (i + 1)
  else
    some (.next { s with quote := (passQuote s.quote i c).1 } (passQuote s.quote i c).2)

def dataItems? (list : Text) : Option (List Text) :=
  scan list.bytes (dataItemsTurn list) (fun s _ => (from? list s.start).map s.push) {} 0

def kept (fields : List Text) : List Text :=
  (fields.map Text.trim).filter fun item => !item.isEmpty

theorem Fields.push_eq (s : Fields) (field : Text) : s.push field = s.items ++ kept [field] := by
  rw [Fields.push, kept, List.map_cons, List.map_nil]
  by_cases empty : (Text.trim field).isEmpty = true
  · simp [empty]
  · simp [empty]

theorem kept_cons (field : Text) (more : List Text) : kept (field :: more) = kept [field] ++ kept more := by
  simp [kept, ← List.filter_append]

theorem fields_ne_nil (q : Quote) (t : Text) : DataList.fields q t ≠ [] := by
  cases t with
  | nil => simp [DataList.fields]
  | cons c rest =>
    rw [DataList.fields]
    split
    · simp
    · split <;> simp

theorem scan_dataItems {list done field rest first : Text} {q : Quote} {items more : List Text}
    (marked : q.Marked) (h : list = done ++ field ++ rest)
    (fields : DataList.fields q rest = first :: more) :
    scan list.bytes (dataItemsTurn list) (fun s _ => (from? list s.start).map s.push)
        ⟨mark? q, size done, items⟩ (size (done ++ field) + ahead q) =
      some (items ++ kept ((field ++ first) :: more)) := by
  induction rest generalizing q done field items first more with
  | nil =>
    cases fields
    rw [List.append_nil] at h
    rw [scan_end (getElem?_bytes_end (by rw [h]; omega)), from?_eq h rfl, List.append_nil]
    exact congrArg some (Fields.push_eq _ _)
  | cons c rest ih =>
    rw [DataList.fields] at fields
    by_cases comma : q = .outside ∧ c = ','
    · obtain ⟨rfl, rfl⟩ := comma
      cases fields
      have moves : dataItemsTurn list ⟨none, size done, items⟩ (size (done ++ field)) ',' =
          some (.next ⟨none, size (done ++ field) + 1, items ++ kept [field]⟩
            (size (done ++ field) + 1)) := by
        rw [dataItemsTurn, slice?_eq h rfl (by rw [size_append])]
        simp [Fields.push_eq]
      cases later : DataList.fields .outside rest with
      | nil => exact absurd later (fields_ne_nil _ _)
      | cons first' more' =>
        have whole : list = done ++ field ++ [','] ++ [] ++ rest := by simp [h]
        have next := @ih _ _ _ .outside (items ++ kept [field]) _ trivial whole later
        have size_comma : size (done ++ field ++ [',']) = size (done ++ field) + 1 := by
          rw [size_append, size_narrow rfl]
        rw [List.append_nil, size_comma, List.nil_append] at next
        change scan _ _ _ (⟨none, size done, items⟩ : Fields) (size (done ++ field)) = _
        rw [scan_next (getElem?_bytes_narrow h rfl) moves (Nat.lt_succ_self _)]
        refine next.trans ?_
        rw [List.append_nil, kept_cons field (first' :: more'), List.append_assoc]
    · have other : (decide (q = .outside) && c == ',') = false := by simpa using comma
      rw [other, if_neg Bool.false_ne_true] at fields
      cases later : DataList.fields (q.step c) rest with
      | nil => exact absurd later (fields_ne_nil _ _)
      | cons first' more' =>
        rw [later] at fields
        cases fields
        have whole : list = done ++ (field ++ [c]) ++ rest := by simp [h]
        have next := @ih _ _ _ (q.step c) items _ (marked.step c) whole later
        rw [List.append_assoc field, ← List.append_assoc done] at next
        refine Eq.trans (scan_passQuote (f := fun quote => (⟨quote, size done, items⟩ : Fields)) marked h
          ?_ ?_) next
        · intro plain _
          rw [dataItemsTurn, if_neg]
          cases q with
          | outside => simpa [mark?] using other
          | inside mark => simp [mark?]
          | escaped mark => cases plain
        · intro quote i d wide
          have ne := ne_of_isWide wide (show isWide ',' = false from rfl)
          rw [dataItemsTurn, ne, Bool.and_false, if_neg Bool.false_ne_true]

theorem dataItems?_eq (list : Text) : dataItems? list = some (DataList.items list) := by
  cases fields : DataList.fields .outside list with
  | nil => exact absurd fields (fields_ne_nil _ _)
  | cons first more =>
    rw [DataList.items, fields]
    exact scan_dataItems (q := .outside) trivial (show list = [] ++ [] ++ list from rfl) fields

def decodeTurn (chars : Text) (out : Text) (i : Nat) (c : Char) : Option (Turn Text Text) :=
  if c == '\\' then
    match chars[i + 1]?.bind Escape.ofBackslash? with
    | some decoded => some (.next (out ++ [decoded]) (i + 2))
    | none => some (.next (out ++ [c]) (i + 1))
  else if c == '^' then
    match chars[i + 1]?.bind Escape.ofCaret? with
    | some decoded => some (.next (out ++ [decoded]) (i + 2))
    | none => some (.next (out ++ [c]) (i + 1))
  else if c == 'E' && chars[i + 1]? == some 'S' && chars[i + 2]? == some 'C' &&
      chars[i + 3]? == some '[' then
    some (.next (out ++ ['\x1b']) (i + 4))
  else some (.next (out ++ [c]) (i + 1))

def decode? (chars : Text) : Option Text :=
  scan chars (decodeTurn chars) (fun out _ => some out) [] 0

theorem getElem?_after {chars front rest : Text} (h : chars = front ++ rest) (k : Nat) :
    chars[front.length + k]? = rest[k]? := by
  rw [h, List.getElem?_append_right (by omega), Nat.add_sub_cancel_left]

/-- A turn takes one character, or an escape, and puts out one character for it. -/
theorem decodeTurn_step (t : Text) (some_left : t ≠ []) :
    ∃ c taken left d, t = c :: (taken ++ left) ∧ Escape.decode t = d :: Escape.decode left ∧
      ∀ {chars front : Text} (out : Text), chars = front ++ t →
        decodeTurn chars out front.length c =
          some (.next (out ++ [d]) (front.length + (taken.length + 1))) := by
  fun_cases Escape.decode t with
  | case1 => exact absurd rfl some_left
  | case2 c rest d escape =>
    refine ⟨_, [c], rest, d, rfl, rfl, fun out h => ?_⟩
    simp [decodeTurn, getElem?_after h, escape]
  | case3 c rest escape =>
    refine ⟨_, [], c :: rest, _, rfl, rfl, fun out h => ?_⟩
    simp [decodeTurn, getElem?_after h, escape]
  | case4 c rest d escape =>
    refine ⟨_, [c], rest, d, rfl, rfl, fun out h => ?_⟩
    simp [decodeTurn, getElem?_after h, escape]
  | case5 c rest escape =>
    refine ⟨_, [], c :: rest, _, rfl, rfl, fun out h => ?_⟩
    simp [decodeTurn, getElem?_after h, escape]
  | case6 rest =>
    refine ⟨_, ['S', 'C', '['], rest, _, rfl, rfl, fun out h => ?_⟩
    simp [decodeTurn, getElem?_after h]
  | case7 c rest backslash caret spelled =>
    refine ⟨c, [], rest, c, rfl, rfl, fun out h => ?_⟩
    rw [decodeTurn]
    simp only [getElem?_after h]
    split_ifs with slash hat escape
    · obtain rfl : rest = [] := by
        cases rest with
        | nil => rfl
        | cons d more => exact (backslash d more (by simpa using slash) rfl).elim
      rfl
    · obtain rfl : rest = [] := by
        cases rest with
        | nil => rfl
        | cons d more => exact (caret d more (by simpa using hat) rfl).elim
      rfl
    · rcases rest with _ | ⟨s, _ | ⟨k, _ | ⟨b, more⟩⟩⟩
      · simp at escape
      · simp at escape
      · simp at escape
      · simp only [List.getElem?_cons_succ, List.getElem?_cons_zero, Bool.and_eq_true, beq_iff_eq,
          Option.some.injEq] at escape
        obtain ⟨⟨⟨rfl, rfl⟩, rfl⟩, rfl⟩ := escape
        exact (spelled more rfl rfl).elim
    · rfl

theorem scan_decode {chars front rest : Text} (out : Text) (h : chars = front ++ rest) :
    scan chars (decodeTurn chars) (fun out _ => some out) out front.length =
      some (out ++ Escape.decode rest) := by
  induction left : rest.length using Nat.strongRecOn generalizing front rest out with
  | _ n ih =>
    by_cases empty : rest = []
    · subst empty
      rw [scan_end (by rw [h]; simp)]
      simp [Escape.decode]
    · obtain ⟨c, taken, more, d, rfl, decoded, turn⟩ := decodeTurn_step rest empty
      have here : chars[front.length]? = some c := by
        rw [← Nat.add_zero front.length, getElem?_after h]
        rfl
      have shorter : more.length < n := by
        rw [← left, List.length_cons, List.length_append]
        omega
      have later := ih more.length shorter (out ++ [d])
        (show chars = front ++ c :: taken ++ more by simp [h]) rfl
      rw [List.length_append, List.length_cons] at later
      rw [scan_next here (turn out h) (by omega), later, decoded, List.append_assoc,
        List.singleton_append]

theorem decode?_eq (chars : Text) : decode? chars = some (Escape.decode chars) :=
  scan_decode [] (show chars = [] ++ chars from rfl)

end Bytewise

end Assembler65816
