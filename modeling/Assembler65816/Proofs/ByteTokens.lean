import Assembler65816.Expression.Polish
import Assembler65816.Proofs.ByteItems

/-! # Cutting groups by offsets

The inside of a braced group is cut into tokens: groups, found as in chains, and words, which end at
a blank outside their literals. A token that starts with a brace is a group with both its braces.
-/
namespace Assembler65816

open Text Expression

/-- A word is read on up to the end of a literal in it. -/
theorem Expression.Polish.tokensFrom_within (whole taken : Text) {mark : Char} {q : Quote}
    (h : q.Within mark) (t : Text) :
    Polish.tokensFrom whole (.word taken q) t =
      match q.span t with
      | none => .error (.openQuote whole)
      | some n => Polish.tokensFrom whole (.word (taken ++ t.take n) .outside) (t.drop n) := by
  have inside : q ≠ .outside := by rcases h with rfl | rfl <;> nofun
  induction t generalizing q taken with
  | nil => simp [Polish.tokensFrom, Quote.span, inside]
  | cons c rest ih =>
    have step : Polish.tokensFrom whole (.word taken q) (c :: rest) =
        Polish.tokensFrom whole (.word (taken ++ [c]) (q.step c)) rest := by
      simp [Polish.tokensFrom, inside]
    rw [step]
    rcases h.step c with ⟨-, -, ends⟩ | ⟨-, within⟩
    · rw [Quote.span_of_outside ends, ends]
      rfl
    · have inside' : q.step c ≠ .outside := by rcases within with eq | eq <;> rw [eq] <;> nofun
      rw [Quote.span_of_within within, ih _ within inside']
      cases (q.step c).span rest <;> simp

namespace Bytewise

def wordEndTurn (t : Text) (_ : Unit) (i : Nat) (c : Char) :
    Option (Turn Unit (Except Fault Nat)) :=
  if isAsciiBlank c then some (.stop (.ok i))
  else if isQuoteMark c then do
    match ← quoteEnd? t i with
    | none => return .stop (.error (.openQuote t))
    | some stop => return .next () (stop + 1)
  else if isBracket c then some (.stop (.error (.unterminated t)))
  else some (.next () (i + 1))

def wordEnd? (t : Text) (start : Nat) : Option (Except Fault Nat) :=
  scan t.bytes (wordEndTurn t) (fun _ i => some (.ok i)) () start

/-- What the search for the end of a word and the reader of tokens make of `rest`: the same fault,
or the word up to the same place. -/
inductive WordEnd (whole front rest : Text) : Except Fault Nat → Prop where
  | fails (cause : Fault)
      (read : ∀ taken, Polish.tokensFrom whole (.word taken .outside) rest = .error cause) :
    WordEnd whole front rest (.error cause)
  | ends (word after : Text) (parts : rest = word ++ after)
      (filled : ∀ c ∈ rest.head?, isAsciiBlank c = false → word ≠ [])
      (read : ∀ taken, Polish.tokensFrom whole (.word taken .outside) rest =
        (Polish.tokensFrom whole (.skip 0) after).map ((taken ++ word) :: ·)) :
    WordEnd whole front rest (.ok (size (front ++ word)))

section WordEnd

variable {whole front rest skipped : Text} {answer : Except Fault Nat} {c : Char}

theorem WordEnd.passed (h : WordEnd whole (front ++ skipped) rest answer) (filled : skipped ≠ [])
    (read : ∀ taken, Polish.tokensFrom whole (.word taken .outside) (skipped ++ rest) =
      Polish.tokensFrom whole (.word (taken ++ skipped) .outside) rest) :
    WordEnd whole front (skipped ++ rest) answer := by
  cases h with
  | fails cause later => exact .fails cause fun taken => (read taken).trans (later _)
  | ends word after parts _ later =>
    rw [List.append_assoc]
    refine .ends (skipped ++ word) after (by rw [parts, List.append_assoc]) ?_ fun taken => ?_
    · intro _ _ _ empty
      exact filled (List.append_eq_nil_iff.mp empty).1
    · rw [read, later, List.append_assoc]

/-- The loop goes on behind a literal; one without an end is a fault. -/
theorem wordEnd_quote (h : whole = front ++ c :: rest) (quote : isQuoteMark c = true)
    (ih : ∀ skipped after, rest = skipped ++ after → ∃ answer,
      wordEnd? whole (size (front ++ c :: skipped)) = some answer ∧
        WordEnd whole (front ++ c :: skipped) after answer) :
    ∃ answer, wordEnd? whole (size front) = some answer ∧
      WordEnd whole front (c :: rest) answer := by
  have narrow := isWide_of_isQuoteMark quote
  have byte := getElem?_bytes_narrow h narrow
  have unblank : isAsciiBlank c = false := by rcases isQuoteMark_cases quote with rfl | rfl <;> rfl
  have read (taken : Text) : Polish.tokensFrom whole (.word taken .outside) (c :: rest) =
      Polish.tokensFrom whole (.word (taken ++ [c]) (.inside c)) rest := by
    rcases isQuoteMark_cases quote with rfl | rfl <;> rfl
  obtain ⟨stop, ends, found⟩ := quoteEnd?_found quote h
  simp only [Polish.tokensFrom_within whole _ (.inl rfl)] at read
  generalize (Quote.inside c).span rest = length at found read
  cases found with
  | missing =>
    have stops : wordEndTurn whole () (size front) c = some (.stop (.error (.openQuote whole))) := by
      simp [wordEndTurn, unblank, quote, ends]
    exact ⟨_, scan_stop byte stops, .fails _ read⟩
  | here inside after parts =>
    have moves : wordEndTurn whole () (size front) c =
        some (.next () (size (front ++ [c] ++ inside) + 1)) := by
      simp [wordEndTurn, unblank, quote, ends]
    have further : size front < size (front ++ [c] ++ inside) + 1 := by
      simp only [size_append]
      omega
    obtain ⟨answer, later, word⟩ := ih (inside ++ [c]) after (by simp [parts])
    rw [wordEnd?, size_enclosed narrow] at later
    refine ⟨answer, (scan_next byte moves further).trans later, ?_⟩
    rw [show c :: rest = c :: (inside ++ [c]) ++ after by simp [parts]]
    apply word.passed (List.cons_ne_nil _ _)
    intro taken
    rw [show c :: (inside ++ [c]) ++ after = c :: rest by simp [parts], read, parts]
    simp only [drop_group, take_group, List.append_assoc, List.singleton_append]

theorem wordEnd?_end (h : whole = front ++ rest) :
    ∃ answer, wordEnd? whole (size front) = some answer ∧ WordEnd whole front rest answer := by
  induction len : rest.length using Nat.strongRecOn generalizing front rest with
  | _ n ih =>
    subst len
    cases rest with
    | nil =>
      have ends : WordEnd whole front [] (.ok (size (front ++ []))) :=
        .ends [] [] rfl nofun fun taken => by rw [List.append_nil]; rfl
      rw [List.append_nil] at h ends
      exact ⟨_, scan_end (getElem?_bytes_end (by rw [h])), ends⟩
    | cons c rest =>
      by_cases blank : isAsciiBlank c = true
      · have stops : wordEndTurn whole () (size front) c = some (.stop (.ok (size front))) := by
          rw [wordEndTurn, if_pos blank]
        have ends : WordEnd whole front (c :: rest) (.ok (size (front ++ []))) := by
          refine .ends [] (c :: rest) rfl ?_ fun taken => ?_
          · rintro d ⟨⟩ unblank
            rw [blank] at unblank
            cases unblank
          · rw [List.append_nil]
            apply Polish.tokensFrom_boundary
            rintro d ⟨⟩
            exact blank
        rw [List.append_nil] at ends
        exact ⟨_, scan_stop (getElem?_bytes_narrow h (isWide_of_isAsciiBlank blank)) stops, ends⟩
      by_cases quote : isQuoteMark c = true
      · apply wordEnd_quote h quote
        intro skipped after parts
        apply ih after.length _ (by rw [h, parts, List.append_assoc]; rfl) rfl
        rw [parts, List.length_cons, List.length_append]
        omega
      by_cases bracket : isBracket c = true
      · have stops : wordEndTurn whole () (size front) c =
            some (.stop (.error (.unterminated whole))) := by
          simp [wordEndTurn, blank, quote, bracket]
        refine ⟨_, scan_stop (getElem?_bytes_narrow h (isWide_of_isBracket bracket)) stops, ?_⟩
        refine .fails _ fun taken => ?_
        simp [Polish.tokensFrom, blank, bracket]
      · have plain : wordEndTurn whole () (size front) c = some (.next () (size front + 1)) := by
          simp [wordEndTurn, blank, quote, bracket]
        obtain ⟨answer, later, word⟩ := ih rest.length (Nat.lt_succ_self _)
          (show whole = front ++ [c] ++ rest by simp [h]) rfl
        refine ⟨answer, Eq.trans ?_ later, ?_⟩
        · apply scan_char h
          · intro _
            exact plain
          · intro _ i d wide
            have none : wordEndTurn whole () i d = some (.next () (i + 1)) := by
              have unmarked := isMark_of_isWide wide
              simp only [isMark, Bool.or_eq_false_iff] at unmarked
              simp [wordEndTurn, unmarked]
            exact ⟨none, none⟩
        · refine word.passed (List.cons_ne_nil _ _) fun taken => ?_
          simp [Polish.tokensFrom, Quote.step, blank, quote, bracket]

end WordEnd

def tokenEnd? (t : Text) (i : Nat) (c : Char) : Option (Except Fault Nat) :=
  if c == '(' then do
    match ← findClose? parentheses t i with
    | none => return .error (.unterminated t)
    | some close => return .ok (close + 1)
  else if c == '{' then do
    match ← findClose? braces t i with
    | none => return .error (.unterminated t)
    | some close => return .ok (close + 1)
  else if c == ')' || c == '}' then some (.error (.unterminated t))
  else wordEnd? t i

def tokensTurn (t : Text) (tokens : List Text) (i : Nat) (c : Char) :
    Option (Turn (List Text) (Except Fault (List Text))) :=
  if isAsciiBlank c then some (.next tokens (i + 1))
  else do
    match ← tokenEnd? t i c with
    | .error cause => return .stop (.error cause)
    | .ok stop => return .next (tokens ++ [← slice? t i stop]) stop

def tokens? (t : Text) : Option (Except Fault (List Text)) :=
  scan t.bytes (tokensTurn t) (fun tokens _ => some (.ok tokens)) [] 0

/-- What the search for the end of a token and the reader of tokens make of `rest`. -/
inductive TokenEnd (whole front rest : Text) : Except Fault Nat → Prop where
  | fails (cause : Fault) (read : Polish.tokensFrom whole (.skip 0) rest = .error cause) :
    TokenEnd whole front rest (.error cause)
  | ends (token after : Text) (parts : rest = token ++ after) (filled : token ≠ [])
      (read : Polish.tokensFrom whole (.skip 0) rest =
        (Polish.tokensFrom whole (.skip 0) after).map (token :: ·)) :
    TokenEnd whole front rest (.ok (size (front ++ token)))

section Tokens

variable {whole front rest : Text} {c : Char}

theorem tokenEnd?_word (h : whole = front ++ c :: rest) (blank : isAsciiBlank c = false)
    (bracket : isBracket c = false) {byte : Char} (bracket' : isBracket byte = false) :
    ∃ answer, tokenEnd? whole (size front) byte = some answer ∧
      TokenEnd whole front (c :: rest) answer := by
  obtain ⟨answer, ends, word⟩ := wordEnd?_end h
  have start : Polish.tokensFrom whole (.skip 0) (c :: rest) =
      Polish.tokensFrom whole (.word [] .outside) (c :: rest) := by
    have unbracketed := bracket
    simp only [isBracket, Bool.or_eq_false_iff] at unbracketed
    simp [Polish.tokensFrom, blank, bracket, unbracketed]
  have search : tokenEnd? whole (size front) byte = wordEnd? whole (size front) := by
    simp only [isBracket, Bool.or_eq_false_iff] at bracket'
    simp [tokenEnd?, bracket']
  refine ⟨answer, search.trans ends, ?_⟩
  cases word with
  | fails cause read => exact .fails cause (start.trans (read []))
  | ends word after parts filled read =>
    exact .ends word after parts (filled c rfl blank) (start.trans (read []))

theorem tokenEnd?_group {b : Brackets} (proper : b.Proper) (h : whole = front ++ b.opening :: rest)
    (read : Polish.tokensFrom whole (.skip 0) (b.opening :: rest) =
      match b.groupLength (b.opening :: rest) with
      | some n =>
        (Polish.tokensFrom whole (.skip (n - 1)) rest).map ((b.opening :: rest).take n :: ·)
      | none => .error (.unterminated whole))
    (search : tokenEnd? whole (size front) b.opening = (do
      match ← findClose? b whole (size front) with
      | none => return .error (.unterminated whole)
      | some close => return .ok (close + 1))) :
    ∃ answer, tokenEnd? whole (size front) b.opening = some answer ∧
      TokenEnd whole front (b.opening :: rest) answer := by
  obtain ⟨close, length, closes, found, group⟩ := findClose?_found proper h
  rw [closes] at search
  rw [group] at read
  cases found with
  | missing => exact ⟨_, search, .fails _ read⟩
  | here inside after parts =>
    have ends : TokenEnd whole front (b.opening :: rest)
        (.ok (size (front ++ b.opening :: (inside ++ [b.closing])))) := by
      refine .ends _ after (by simp [parts]) (List.cons_ne_nil _ _) ?_
      rw [read, parts]
      simp [take_group, Polish.tokensFrom_group]
    rw [size_enclosed (isWide_of_isBracket proper.closing)] at ends
    exact ⟨_, search, ends⟩

theorem tokenEnd?_narrow (h : whole = front ++ c :: rest) (blank : isAsciiBlank c = false) :
    ∃ answer, tokenEnd? whole (size front) c = some answer ∧
      TokenEnd whole front (c :: rest) answer := by
  by_cases bracket : isBracket c = true
  · simp only [isBracket, Bool.or_eq_true, beq_iff_eq] at bracket
    rcases bracket with ((rfl | rfl) | rfl) | rfl
    · exact tokenEnd?_group Brackets.proper_parentheses h rfl rfl
    · exact ⟨.error (.unterminated whole), rfl, .fails _ rfl⟩
    · exact tokenEnd?_group Brackets.proper_braces h rfl rfl
    · exact ⟨.error (.unterminated whole), rfl, .fails _ rfl⟩
  · have bracket : isBracket c = false := by simpa using bracket
    exact tokenEnd?_word h blank bracket bracket

theorem tokenEnd?_end (h : whole = front ++ c :: rest) (blank : isAsciiBlank c = false) :
    ∃ byte answer, whole.bytes[size front]? = some byte ∧ isAsciiBlank byte = false ∧
      tokenEnd? whole (size front) byte = some answer ∧ TokenEnd whole front (c :: rest) answer := by
  by_cases wide : isWide c = true
  · obtain ⟨byte, found, wide'⟩ :=
      getElem?_bytes_wide h wide (Nat.pos_of_ne_zero (size_ne_zero c []))
    have plain := isMark_of_isWide wide
    have plain' := isMark_of_isWide wide'
    simp only [isMark, Bool.or_eq_false_iff] at plain plain'
    obtain ⟨answer, ends, token⟩ :=
      tokenEnd?_word h blank (by simp [plain]) (show isBracket byte = false by simp [plain'])
    exact ⟨byte, answer, found, by simp [plain'], ends, token⟩
  · obtain ⟨answer, ends, token⟩ := tokenEnd?_narrow h blank
    exact ⟨c, answer, getElem?_bytes_narrow h (by simpa using wide), blank, ends, token⟩

theorem scan_tokens (h : whole = front ++ rest) (tokens : List Text) :
    scan whole.bytes (tokensTurn whole) (fun tokens _ => some (.ok tokens)) tokens (size front) =
      some ((Polish.tokensFrom whole (.skip 0) rest).map (tokens ++ ·)) := by
  induction len : rest.length using Nat.strongRecOn generalizing front rest tokens with
  | _ n ih =>
    subst len
    cases rest with
    | nil =>
      rw [List.append_nil] at h
      rw [scan_end (getElem?_bytes_end (by rw [h])), Polish.tokensFrom, Except.map, List.append_nil]
    | cons c rest =>
      by_cases blank : isAsciiBlank c = true
      · have narrow := isWide_of_isAsciiBlank blank
        have moves : tokensTurn whole tokens (size front) c =
            some (.next tokens (size (front ++ [c]))) := by
          rw [tokensTurn, if_pos blank, size_append, size_narrow narrow]
        have later := ih rest.length (Nat.lt_succ_self _)
          (show whole = front ++ [c] ++ rest by simp [h]) tokens rfl
        have further : size front < size (front ++ [c]) := by
          rw [size_append, size_narrow narrow]
          omega
        rw [scan_next (getElem?_bytes_narrow h narrow) moves further, later, Polish.tokensFrom,
          if_pos blank]
      · obtain ⟨byte, answer, found, blank', ends, token⟩ := tokenEnd?_end h (by simpa using blank)
        cases token with
        | fails cause read =>
          have stops : tokensTurn whole tokens (size front) byte = some (.stop (.error cause)) := by
            simp [tokensTurn, blank', ends]
          rw [scan_stop found stops, read]
          rfl
        | ends token after parts filled read =>
          have whole' : whole = front ++ token ++ after := by rw [h, parts, List.append_assoc]
          have cut := slice?_eq whole' rfl (size_append front token)
          have moves : tokensTurn whole tokens (size front) byte =
              some (.next (tokens ++ [token]) (size (front ++ token))) := by
            rw [tokensTurn, blank', ends]
            simp only [Bool.false_eq_true, if_false, Option.bind_eq_bind, Option.bind_some, cut,
              Option.pure_def]
          have some := List.length_pos_iff.mpr filled
          have further : size front < size (front ++ token) := by
            have := length_le_size token
            rw [size_append]
            omega
          have later := ih after.length (by rw [parts, List.length_append]; omega) whole'
            (tokens ++ [token]) rfl
          rw [scan_next found moves further, later, read]
          cases Polish.tokensFrom whole (.skip 0) after <;> simp [Except.map]

end Tokens

theorem tokens?_eq (t : Text) : tokens? t = some (Polish.tokens t) := by
  rw [tokens?, ← size_nil, scan_tokens (show t = [] ++ t from rfl) [], Polish.tokens]
  cases Polish.tokensFrom t (.skip 0) t <;> rfl

theorem exists_of_map_cons {e : Except Fault (List Text)} {first token : Text} {tokens : List Text}
    (h : e.map (first :: ·) = .ok tokens) (mem : token ∈ tokens) :
    token = first ∨ ∃ rest, e = .ok rest ∧ token ∈ rest := by
  cases e with
  | error => cases h
  | ok rest =>
    cases h
    rcases List.mem_cons.mp mem with here | there
    · exact .inl here
    · exact .inr ⟨rest, rfl, there⟩

/-- Of the tokens read from a place, one that starts with a brace is a braced group, unless it is
the word at hand. -/
theorem braced_of_mem_tokensFrom {whole t token : Text} {place : Polish.Place} {tokens : List Text}
    (h : Polish.tokensFrom whole place t = .ok tokens) (mem : token ∈ tokens)
    (head : token.head? = some '{')
    (unbraced : ∀ taken quote, place = .word taken quote →
      ∃ c more, taken = c :: more ∧ c ≠ '{') :
    ∃ inside, token = '{' :: (inside ++ ['}']) := by
  fun_induction Polish.tokensFrom whole place t generalizing tokens with
  | case1 =>
    cases h
    cases mem
  | case2 _ _ _ ih | case3 _ _ _ ih => exact ih h mem fun _ _ other => Polish.Place.noConfusion other
  | case4 c rest _ paren n _ ih =>
    rcases exists_of_map_cons h mem with rfl | ⟨later, h, mem⟩
    · obtain rfl : c = '(' := by simpa using paren
      cases n <;> cases head
    · exact ih h mem fun _ _ other => Polish.Place.noConfusion other
  | case6 c rest _ _ brace n length ih =>
    rcases exists_of_map_cons h mem with rfl | ⟨later, h, mem⟩
    · obtain rfl : c = '{' := by simpa using brace
      obtain ⟨close, length', -, found, group⟩ : ∃ close length,
          findClose? braces ('{' :: rest) (size []) = some close ∧
          Found '}' ([] ++ ['{']) rest length close ∧
          braces.groupLength ('{' :: rest) = length.map (· + 1) :=
        findClose?_found Brackets.proper_braces (by rfl)
      rw [length] at group
      cases found with
      | missing => cases group
      | here inside after parts =>
        cases group
        exact ⟨inside, by rw [List.take_succ_cons, parts, take_group]⟩
    · exact ih h mem fun _ _ other => Polish.Place.noConfusion other
  | case9 c rest _ _ brace _ ih =>
    refine ih h mem ?_
    rintro _ _ ⟨⟩
    exact ⟨c, [], rfl, by simpa using brace⟩
  | case10 taken =>
    cases h
    obtain ⟨c, more, rfl, ne⟩ := unbraced _ _ rfl
    cases List.mem_singleton.mp mem
    cases head
    exact absurd rfl ne
  | case12 taken quote c rest _ ih =>
    rcases exists_of_map_cons h mem with rfl | ⟨later, h, mem⟩
    · obtain ⟨c, more, rfl, ne⟩ := unbraced _ _ rfl
      cases head
      exact absurd rfl ne
    · exact ih h mem fun _ _ other => Polish.Place.noConfusion other
  | case14 taken quote c rest _ _ ih =>
    refine ih h mem ?_
    rintro _ _ ⟨⟩
    obtain ⟨d, more, rfl, ne⟩ := unbraced _ _ rfl
    exact ⟨d, more ++ [c], rfl, ne⟩
  | case5 | case7 | case8 | case11 | case13 => cases h

theorem braced_of_mem_tokens {t token : Text} {tokens : List Text}
    (h : Polish.tokens t = .ok tokens) (mem : token ∈ tokens) (head : token.head? = some '{') :
    ∃ inside, token = '{' :: (inside ++ ['}']) :=
  braced_of_mem_tokensFrom h mem head fun _ _ other => Polish.Place.noConfusion other

end Bytewise

end Assembler65816
