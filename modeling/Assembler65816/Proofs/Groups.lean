import Assembler65816.Proofs.ByteItems

/-! # Groups

A group is an opening bracket, a sequence of items and the closing bracket. An item is a literal, a
group of the same brackets, or one character that is neither a bracket of the pair nor a quote mark.
The scanner keeps nothing but a count of open brackets; it stops exactly where the group ends that
this grammar gives, and it has no answer exactly where there is no group.
-/
namespace Assembler65816

open Text Expression

/-- What stands behind the opening mark of a literal, up to the mark that closes it. A backslash
hides the character behind it. -/
inductive Quote.Literal (mark : Char) : Text → Prop where
  | close : Literal mark [mark]
  | hidden (c : Char) {rest : Text} (more : Literal mark rest) : Literal mark ('\\' :: c :: rest)
  | plain {c : Char} {rest : Text} (backslash : c ≠ '\\') (other : c ≠ mark)
      (more : Literal mark rest) : Literal mark (c :: rest)

namespace Quote

variable {mark : Char}

theorem span_hidden (c : Char) (rest : Text) :
    (Quote.inside mark).span ('\\' :: c :: rest) =
      ((Quote.inside mark).span rest).map (· + 2) := by
  have first : ((Quote.inside mark).step '\\').Within mark := .inr rfl
  have second : ((Quote.escaped mark).step c).Within mark := .inl rfl
  rw [span_of_within first, show (Quote.inside mark).step '\\' = .escaped mark from rfl,
    span_of_within second, Option.map_map]
  rfl

theorem span_plain {c : Char} (backslash : c ≠ '\\') (other : c ≠ mark) (rest : Text) :
    (Quote.inside mark).span (c :: rest) = ((Quote.inside mark).span rest).map (· + 1) := by
  have stays := step_inside backslash other
  have within : ((Quote.inside mark).step c).Within mark := .inl stays
  rw [span_of_within within, stays]

theorem span_close (hm : isQuoteMark mark = true) (rest : Text) :
    (Quote.inside mark).span (mark :: rest) = some 1 :=
  span_of_outside (step_closing hm) rest

theorem Literal.span {body : Text} (h : Literal mark body) (hm : isQuoteMark mark = true)
    (after : Text) : (Quote.inside mark).span (body ++ after) = some body.length := by
  induction h with
  | close => exact span_close hm after
  | hidden c _ ih =>
    rw [List.cons_append, List.cons_append, span_hidden, ih]
    rfl
  | plain backslash other _ ih =>
    rw [List.cons_append, span_plain backslash other, ih]
    rfl

theorem literal_of_span (hm : isQuoteMark mark = true) {t : Text} {n : Nat}
    (h : (Quote.inside mark).span t = some n) :
    ∃ body after, t = body ++ after ∧ Literal mark body ∧ body.length = n := by
  induction len : t.length using Nat.strongRecOn generalizing t n with
  | _ k ih =>
    subst len
    match t with
    | [] => cases h
    | c :: rest =>
      by_cases closes : c = mark
      · subst closes
        rw [span_close hm] at h
        exact ⟨[c], rest, rfl, .close, Option.some.inj h⟩
      by_cases backslash : c = '\\'
      · subst backslash
        match rest with
        | [] => cases h
        | d :: rest =>
          rw [span_hidden, Option.map_eq_some_iff] at h
          obtain ⟨m, later, rfl⟩ := h
          have shorter : rest.length < ('\\' :: d :: rest).length := by
            simp only [List.length_cons]
            omega
          obtain ⟨body, after, rfl, literal, rfl⟩ := ih rest.length shorter later rfl
          exact ⟨'\\' :: d :: body, after, rfl, .hidden d literal, rfl⟩
      · rw [span_plain backslash closes, Option.map_eq_some_iff] at h
        obtain ⟨m, later, rfl⟩ := h
        obtain ⟨body, after, rfl, literal, rfl⟩ := ih rest.length (by simp) later rfl
        exact ⟨c :: body, after, rfl, .plain backslash closes literal, rfl⟩

end Quote

theorem Bytewise.quoteEnd?_eq_some_iff {t front rest : Text} {mark : Char}
    (hm : isQuoteMark mark = true) (h : t = front ++ mark :: rest) (offset : Nat) :
    quoteEnd? t (size front) = some (some offset) ↔ ∃ body after, rest = body ++ after ∧
      Quote.Literal mark body ∧ offset + 1 = size (front ++ mark :: body) := by
  have narrow := isWide_of_isQuoteMark hm
  obtain ⟨place, found, agree⟩ := quoteEnd?_found hm h
  rw [found, Option.some_inj]
  generalize scanned : (Quote.inside mark).span rest = length at agree
  cases agree with
  | missing =>
    refine iff_of_false nofun ?_
    rintro ⟨body, after, rfl, closed, -⟩
    rw [closed.span hm] at scanned
    cases scanned
  | here inside after parts =>
    -- Both the search and the grammar stop behind the same mark.
    have ended {body behind : Text} (whole : rest = body ++ behind)
        (width : body.length = inside.length + 1) : body = inside ++ [mark] := by
      have split : body ++ behind = (inside ++ [mark]) ++ after := by simp [← whole, parts]
      exact (List.append_inj split (by simp [width])).1
    rw [Option.some_inj]
    constructor
    · rintro rfl
      obtain ⟨body, behind, whole, closed, width⟩ := Quote.literal_of_span hm scanned
      obtain rfl := ended whole width
      exact ⟨_, behind, whole, closed, (size_enclosed narrow).symm⟩
    · rintro ⟨body, behind, whole, closed, sum⟩
      rw [whole, closed.span hm, Option.some_inj] at scanned
      obtain rfl := ended whole scanned
      rw [size_enclosed narrow] at sum
      omega

namespace Expression.Brackets

inductive Inside (b : Brackets) : Text → Prop where
  | nil : Inside b []
  | literal {mark : Char} {body rest : Text} (quote : isQuoteMark mark = true)
      (closed : Quote.Literal mark body) (more : Inside b rest) :
      Inside b (mark :: (body ++ rest))
  | group {inside rest : Text} (nested : Inside b inside) (more : Inside b rest) :
      Inside b (b.opening :: (inside ++ b.closing :: rest))
  | plain {c : Char} {rest : Text} (quote : isQuoteMark c = false) (opening : c ≠ b.opening)
      (closing : c ≠ b.closing) (more : Inside b rest) : Inside b (c :: rest)

def Group (b : Brackets) (t : Text) : Prop :=
  ∃ inside, b.Inside inside ∧ t = b.opening :: (inside ++ [b.closing])

variable {b : Brackets}

theorem Neutral.literal {mark : Char} {body : Text} (quote : isQuoteMark mark = true)
    (closed : Quote.Literal mark body) : b.Neutral (mark :: body) := by
  intro depth rest
  rw [List.cons_append, span_literal quote, b.span_within (.inl rfl), closed.span quote, Option.bind_some,
    List.drop_left, Option.map_map]
  rfl

theorem Inside.neutral (apart : b.Apart) {t : Text} (h : b.Inside t) : b.Neutral t := by
  induction h with
  | nil =>
    intro depth rest
    simp
  | literal quote closed _ ih => exact (Neutral.literal quote closed).append ih
  | @group inside rest _ _ nested ih =>
    have whole := (nested.group apart).append ih
    rwa [List.cons_append, List.append_assoc, List.singleton_append] at whole
  | plain quote opening closing _ ih => exact (Neutral.char quote opening closing).append ih

/-- Where `depth` brackets stay open, the scanner goes on behind the one that it has closed. -/
def Resumes (b : Brackets) (after : Text) : Nat → Nat → Prop
  | 0, length => length = 0
  | depth + 1, length => b.span (depth + 1) .outside after = some length

/-- From a place where brackets are open, the scanner passes a sequence of items to the bracket
that closes the last of them. -/
theorem inside_of_span {t : Text} {depth n : Nat}
    (h : b.span (depth + 1) .outside t = some n) :
    ∃ inside after length, t = inside ++ b.closing :: after ∧ b.Inside inside ∧
      b.Resumes after depth length ∧ n = inside.length + 1 + length := by
  induction len : t.length using Nat.strongRecOn generalizing t depth n with
  | _ k ih =>
    subst len
    match t with
    | [] => cases h
    | c :: rest =>
      by_cases quote : isQuoteMark c = true
      · -- A literal is passed over whole.
        rw [span_literal quote, b.span_within (.inl rfl), Option.map_eq_some_iff] at h
        obtain ⟨m, passed, rfl⟩ := h
        obtain ⟨width, literal, onward⟩ := Option.bind_eq_some_iff.mp passed
        obtain ⟨body, behind, rfl, closed, rfl⟩ := Quote.literal_of_span quote literal
        rw [List.drop_left, Option.map_eq_some_iff] at onward
        obtain ⟨n, later, rfl⟩ := onward
        obtain ⟨inside, after, length, rfl, items, resumes, rfl⟩ :=
          ih behind.length (by simp only [List.length_cons, List.length_append]; omega) later rfl
        refine ⟨c :: (body ++ inside), after, length, by simp,
          .literal quote closed items, resumes, ?_⟩
        simp only [List.length_cons, List.length_append]
        omega
      have unquoted : isQuoteMark c = false := by simpa using quote
      by_cases opening : c = b.opening
      · -- The group that opens here ends, and after it the one around it does.
        subst opening
        rw [span_opening unquoted, Option.map_eq_some_iff] at h
        obtain ⟨m, later, rfl⟩ := h
        obtain ⟨nested, behind, width, rfl, items, onward, rfl⟩ :=
          ih rest.length (by simp) later rfl
        obtain ⟨inside, after, length, rfl, items', resumes, rfl⟩ :=
          ih behind.length (by simp only [List.length_cons, List.length_append]; omega) onward rfl
        refine ⟨b.opening :: (nested ++ b.closing :: inside), after, length, by simp,
          .group items items', resumes, ?_⟩
        simp only [List.length_cons, List.length_append]
        omega
      by_cases closing : c = b.closing
      · subst closing
        rw [span_closing unquoted opening] at h
        cases depth with
        | zero =>
          rw [if_pos le_rfl] at h
          exact ⟨[], rest, 0, rfl, .nil, rfl, (Option.some.inj h).symm⟩
        | succ depth =>
          rw [if_neg (by omega), Option.map_eq_some_iff] at h
          obtain ⟨m, later, rfl⟩ := h
          exact ⟨[], rest, m, rfl, .nil, later, by simp; omega⟩
      · rw [span_plain unquoted opening closing, Option.map_eq_some_iff] at h
        obtain ⟨m, later, rfl⟩ := h
        obtain ⟨inside, after, length, rfl, items, resumes, rfl⟩ :=
          ih rest.length (by simp) later rfl
        refine ⟨c :: inside, after, length, rfl, .plain unquoted opening closing items, resumes, ?_⟩
        simp only [List.length_cons]
        omega

/-- The scanner takes exactly the groups from the front of a text that starts with a bracket. -/
theorem groupLength_eq_some_iff (apart : b.Apart) {t : Text} {n : Nat}
    (opens : t.head? = some b.opening) :
    b.groupLength t = some n ↔ ∃ group after, t = group ++ after ∧ b.Group group ∧
      group.length = n := by
  constructor
  · intro found
    match t with
    | [] => cases opens
    | c :: rest =>
      obtain rfl : c = b.opening := Option.some.inj opens
      rw [groupLength, span_opening apart.opening, Option.map_eq_some_iff] at found
      obtain ⟨m, later, rfl⟩ := found
      obtain ⟨inside, after, length, rfl, items, rfl, rfl⟩ := inside_of_span later
      exact ⟨b.opening :: (inside ++ [b.closing]), after, by simp, ⟨inside, items, rfl⟩, by simp⟩
  · rintro ⟨_, after, rfl, ⟨inside, items, rfl⟩, rfl⟩
    have found := groupLength_group apart (items.neutral apart) after
    rw [List.cons_append, List.append_assoc, List.singleton_append, found]
    simp

theorem Group.two_le_length {t : Text} (h : b.Group t) : 2 ≤ t.length := by
  obtain ⟨inside, -, rfl⟩ := h
  simp

def closingPlace? (b : Brackets) (t : Text) (i : Nat) : Option Nat :=
  (b.groupLength (t.drop i)).map fun length => i + length - 1

def between (t : Text) (i j : Nat) : Text := (t.take (j + 1)).drop i

theorem closingPlace?_eq_some_iff (apart : b.Apart) {t : Text} {i : Nat}
    (opens : t[i]? = some b.opening) (j : Nat) :
    b.closingPlace? t i = some j ↔ j < t.length ∧ b.Group (between t i j) := by
  have inBounds : i < t.length := (List.getElem?_eq_some_iff.mp opens).1
  have starts : (t.drop i).head? = some b.opening := by rw [List.head?_drop, opens]
  rw [closingPlace?, Option.map_eq_some_iff]
  constructor
  · rintro ⟨n, found, rfl⟩
    obtain ⟨group, after, parts, grouped, rfl⟩ := (groupLength_eq_some_iff apart starts).mp found
    have two := grouped.two_le_length
    have bound : group.length ≤ t.length - i := by
      rw [← List.length_drop, parts, List.length_append]
      omega
    have width : i + group.length - 1 + 1 - i = group.length := by omega
    refine ⟨by omega, ?_⟩
    rwa [between, List.drop_take, width, parts, List.take_left]
  · rintro ⟨bound, grouped⟩
    have two := grouped.two_le_length
    have width : (between t i j).length = j + 1 - i := by
      rw [between, List.length_drop, List.length_take, Nat.min_eq_left bound]
    refine ⟨j + 1 - i, (groupLength_eq_some_iff apart starts).mpr ?_, by omega⟩
    refine ⟨between t i j, (t.drop i).drop (j + 1 - i), ?_, grouped, width⟩
    rw [between, List.drop_take, List.take_append_drop]

open Bytewise in
/-- The loop over bytes finds the bracket that the scanner on characters finds. -/
theorem findClose?_eq_closingPlace? (proper : b.Proper) {t : Text} {i : Nat}
    (opens : t[i]? = some b.opening) :
    findClose? b t (size (t.take i)) =
      some ((b.closingPlace? t i).map fun j => size (t.take j)) := by
  have inBounds : i < t.length := (List.getElem?_eq_some_iff.mp opens).1
  obtain ⟨front, rest, rfl, rfl⟩ : ∃ front rest, t = front ++ b.opening :: rest ∧
      front.length = i := by
    refine ⟨t.take i, t.drop (i + 1), ?_, List.length_take_of_le inBounds.le⟩
    obtain ⟨_, holds⟩ := List.getElem?_eq_some_iff.mp opens
    rw [← holds, ← List.drop_eq_getElem_cons, List.take_append_drop]
  obtain ⟨offset, length, found, agree, scanned⟩ := findClose?_found proper rfl
  rw [List.take_left, found, closingPlace?, List.drop_left, scanned]
  cases agree with
  | missing => rfl
  | here inside after parts =>
    have place : (front ++ b.opening :: rest).take
        (front.length + (inside.length + 1 + 1) - 1) = front ++ [b.opening] ++ inside := by
      have split : front ++ b.opening :: rest =
          front ++ [b.opening] ++ inside ++ b.closing :: after := by simp [parts]
      rw [split]
      exact List.take_left' (by simp)
    rw [Option.map_some, Option.map_some, Option.map_some, place]

/-- From a bracket that opens, the search finds the one place up to which the text is a group, and
it finds nothing exactly where there is no such place. In bytes it finds the offset of that
place, and the literals of the grammar are those that the search for their ends delimits. -/
theorem closing_exact (apart : b.Apart) {t : Text} {i : Nat} (opens : t[i]? = some b.opening) :
    (∀ j, b.closingPlace? t i = some j ↔ j < t.length ∧ b.Group (between t i j)) ∧
    (∀ j k, j < t.length → k < t.length →
      b.Group (between t i j) → b.Group (between t i k) → j = k) ∧
    (b.closingPlace? t i = none ↔ ∀ j < t.length, ¬ b.Group (between t i j)) ∧
    (b.Proper → Bytewise.findClose? b t (size (t.take i)) =
      some ((b.closingPlace? t i).map fun j => size (t.take j))) ∧
    (∀ front mark rest, t = front ++ mark :: rest → isQuoteMark mark = true → ∀ offset,
      Bytewise.quoteEnd? t (size front) = some (some offset) ↔ ∃ body after,
        rest = body ++ after ∧ Quote.Literal mark body ∧
        offset + 1 = size (front ++ mark :: body)) := by
  have place := closingPlace?_eq_some_iff apart opens
  refine ⟨place, ?_, ?_, fun proper => findClose?_eq_closingPlace? proper opens,
    fun front mark rest parts quote => Bytewise.quoteEnd?_eq_some_iff quote parts⟩
  · intro j k inJ inK groupJ groupK
    have found := (place j).mpr ⟨inJ, groupJ⟩
    rw [(place k).mpr ⟨inK, groupK⟩] at found
    exact (Option.some.inj found).symm
  · rw [Option.eq_none_iff_forall_ne_some]
    constructor
    · intro missing j inJ group
      exact missing j ((place j).mpr ⟨inJ, group⟩)
    · intro missing j found
      obtain ⟨inJ, group⟩ := (place j).mp found
      exact missing j inJ group

/-- The bracket in the literal closes nothing, nor does the mark behind the backslash close the
literal, and the character of two bytes moves the offset by one. -/
theorem closing_exact_nested :
    let text := "é(\"\\\")\" (b)) c".toList
    parentheses.Group (between text 1 11) ∧
      (∀ j < text.length, parentheses.Group (between text 1 j) → j = 11) ∧
      Bytewise.findClose? parentheses text 2 = some (some 12) := by
  intro text
  obtain ⟨place, unique, -, offsets, -⟩ :=
    closing_exact proper_parentheses.apart (t := text) (i := 1) rfl
  have found : parentheses.closingPlace? text 1 = some 11 := by decide
  obtain ⟨inText, group⟩ := (place 11).mp found
  refine ⟨group, fun j inJ other => unique j 11 inJ inText other group, ?_⟩
  have offset := offsets proper_parentheses
  rw [found] at offset
  exact offset

end Expression.Brackets

end Assembler65816
