import Assembler65816.Proofs.Settled

/-! # Strings in data lists

A string is written between double quotes, with backslashes in front of quotes and backslashes and
with `\r` and `\n` for the two characters that end lines. Comments, data lists and escapes are read
by scanners of their own; written strings pass all of them unharmed. Wherever the line of such a
list stands outside block comments, it is kept whole, and a pass that comes to it stores the code
points of the strings and nothing else.
-/
namespace Assembler65816

/-- Every byte of a run of the given length has its place in the window. -/
def Image.HasRoom (i : Image) (address : UInt32) (count : Nat) : Prop :=
  ∀ k < count, i.base.toNat ≤ address.toNat + k ∧
    address.toNat + k < i.base.toNat + i.bytes.size

theorem Image.contains_of_bounds {i : Image} {address : UInt32} (small : i.bytes.size < UInt32.size)
    (low : i.base.toNat ≤ address.toNat) (high : address.toNat < i.base.toNat + i.bytes.size) :
    i.contains address = true := by
  have base : i.base ≤ address := UInt32.le_iff_toNat_le.mpr low
  rw [Image.contains, Bool.and_eq_true, decide_eq_true_eq, decide_eq_true_eq]
  refine ⟨base, UInt32.lt_iff_toNat_lt.mpr ?_⟩
  rw [UInt32.toNat_sub_of_le _ _ base, Image.size, UInt32.toNat_ofNat_of_lt' small]
  omega

/-- A run with room for it finds its place, also where its addresses pass the top. -/
theorem Image.locate_of_hasRoom {i : Image} {pc : UInt32} {run : List UInt8}
    (small : i.bytes.size < UInt32.size) (room : i.HasRoom pc run.length) :
    ∃ start, i.locate pc run = .ok start ∧
      i.overwrite start run = i.overwrite (pc.toNat - i.base.toNat) run := by
  by_cases empty : run = []
  · subst empty
    exact ⟨0, rfl, rfl⟩
  · have positive : 0 < run.length := List.length_pos_iff.mpr empty
    have first := room 0 positive
    have final := room (run.length - 1) (by omega)
    have count : (UInt32.ofNat (run.length - 1)).toNat = run.length - 1 :=
      UInt32.toNat_ofNat_of_lt' (by omega)
    have start : (pc - i.base).toNat = pc.toNat - i.base.toNat :=
      UInt32.toNat_sub_of_le _ _ (UInt32.le_iff_toNat_le.mpr first.1)
    have here : i.contains pc = true := Image.contains_of_bounds small first.1 first.2
    have last : i.contains (saturatingAdd pc (UInt32.ofNat (run.length - 1))) = true := by
      rw [saturatingAdd]
      split
      · next below =>
        rw [count] at below
        apply Image.contains_of_bounds small <;>
          rw [UInt32.toNat_add, count, Nat.mod_eq_of_lt below]
        · exact final.1
        · exact final.2
      · next above =>
        rw [count] at above
        apply Image.contains_of_bounds small
        · exact Nat.le_of_lt_succ i.base.toNat_lt_size
        · have reaches : (0xFFFFFFFF : UInt32).toNat < pc.toNat + (run.length - 1) :=
            Nat.lt_of_lt_of_le (by decide) (Nat.not_lt.mp above)
          omega
    refine ⟨pc.toNat - i.base.toNat, ?_, rfl⟩
    rw [Image.locate, if_neg (by simpa using empty)]
    simp only [here, last, start, Bool.not_true, Bool.false_eq_true, if_false]
    rw [if_neg (by omega)]

namespace StringData

/-- The character that is written after a backslash for a character that cannot stand for itself. -/
def escaped? : Char → Option Char
  | '\\' => some '\\'
  | '"' => some '"'
  | '\r' => some 'r'
  | '\n' => some 'n'
  | _ => none

def escapeChar (c : Char) : Text :=
  match escaped? c with
  | some d => ['\\', d]
  | none => [c]

def escape (s : Text) : Text := s.flatMap escapeChar

def quoted (s : Text) : Text := '"' :: (escape s ++ ['"'])

def list : List Text → Text
  | [] => []
  | [s] => quoted s
  | s :: rest => quoted s ++ ',' :: ' ' :: list rest

def keyword : DataSize → Text
  | .byte => ['b', 'y', 't']
  | .word => ['w', 'o', 'r', 'd']

def line (size : DataSize) (strings : List Text) : Text := keyword size ++ ' ' :: list strings

/-- The other spellings of control characters, which have no escape of their own, do not occur. -/
structure Writable (s : Text) : Prop where
  caret : ∀ c ∈ ['G', 'H', 'I', 'J', 'L', 'M', '['], ¬['^', c] <:+: s
  spelled : ¬['E', 'S', 'C', '['] <:+: s

/-- The bytes of a character: its code point, as far as it fits, least significant byte first. -/
def cell : DataSize → Char → List UInt8
  | .byte, c => [UInt8.ofNat (c.toNat % 256)]
  | .word, c => [UInt8.ofNat (c.toNat % 65536 % 256), UInt8.ofNat (c.toNat % 65536 / 256)]

def bytes (size : DataSize) (strings : List Text) : List UInt8 :=
  strings.flatten.flatMap (cell size)

theorem ofBackslash?_of_escaped? {c d : Char} (h : escaped? c = some d) :
    Escape.ofBackslash? d = some c := by
  unfold escaped? at h
  split at h <;> cases h <;> rfl

theorem ne_of_escaped?_none {c : Char} (h : escaped? c = none) :
    c ≠ '\\' ∧ c ≠ '"' ∧ c ≠ '\r' ∧ c ≠ '\n' := by
  refine ⟨?_, ?_, ?_, ?_⟩ <;> rintro rfl <;> cases h

theorem escape_cons (c : Char) (s : Text) : escape (c :: s) = escapeChar c ++ escape s :=
  List.flatMap_cons

/-- A character that starts a written string and is no backslash stands for itself. -/
theorem of_escape_eq_cons {s t : Text} {c : Char} (h : escape s = c :: t) (plain : c ≠ '\\') :
    ∃ rest, s = c :: rest ∧ escape rest = t := by
  cases s with
  | nil => cases h
  | cons d rest =>
    rw [escape_cons, escapeChar] at h
    cases found : escaped? d with
    | some e =>
      rw [found] at h
      cases h
      exact absurd rfl plain
    | none =>
      rw [found] at h
      cases h
      exact ⟨rest, rfl, rfl⟩

theorem decode_plain {c : Char} (rest : Text) (backslash : c ≠ '\\') (caret : c ≠ '^')
    (letter : c ≠ 'E') : Escape.decode (c :: rest) = c :: Escape.decode rest := by
  rw [Escape.decode]
  · rintro _ _ rfl
    exact absurd rfl backslash
  · rintro _ _ rfl
    exact absurd rfl caret
  · rintro _ rfl
    exact absurd rfl letter

theorem decode_caret {rest : Text} (h : ∀ c ∈ rest.head?, Escape.ofCaret? c = none) :
    Escape.decode ('^' :: rest) = '^' :: Escape.decode rest := by
  cases rest with
  | nil => rfl
  | cons c rest => rw [Escape.decode, h c rfl]

theorem decode_letter {rest : Text} (h : ∀ more, rest ≠ 'S' :: 'C' :: '[' :: more) :
    Escape.decode ('E' :: rest) = 'E' :: Escape.decode rest := by
  rw [Escape.decode]
  · rintro _ _ c
    cases c
  · rintro _ _ c
    cases c
  · rintro more _ rfl
    exact absurd rfl (h more)

theorem ofCaret?_eq_none {c : Char} :
    Escape.ofCaret? c = none ↔ c ∉ ['G', 'H', 'I', 'J', 'L', 'M', '['] := by
  constructor
  · rintro none mem
    simp only [List.mem_cons, List.not_mem_nil, or_false] at mem
    rcases mem with rfl | rfl | rfl | rfl | rfl | rfl | rfl <;> cases none
  · intro other
    unfold Escape.ofCaret?
    split <;> simp at other ⊢

theorem writable_cons {c : Char} {s : Text} : Writable (c :: s) ↔
    (c = '^' → s.head?.bind Escape.ofCaret? = none) ∧ ¬['E', 'S', 'C', '['] <+: c :: s ∧
      Writable s := by
  constructor
  · intro h
    refine ⟨?_, fun here => h.spelled here.isInfix, ?_⟩
    · rintro rfl
      cases s with
      | nil => rfl
      | cons d rest => exact ofCaret?_eq_none.mpr fun mem => h.caret d mem ⟨[], rest, rfl⟩
    · exact ⟨fun d mem later => h.caret d mem (List.infix_cons later),
        fun later => h.spelled (List.infix_cons later)⟩
  · rintro ⟨caret, spelled, later⟩
    constructor
    · intro d mem found
      rcases List.infix_cons_iff.mp found with ⟨rest, here⟩ | found
      · cases here
        exact ofCaret?_eq_none.mp (caret rfl) mem
      · exact later.caret d mem found
    · intro found
      rcases List.infix_cons_iff.mp found with here | found
      · exact spelled here
      · exact later.spelled found

instance decidableWritable : DecidablePred Writable
  | [] => isTrue ⟨by simp, by simp⟩
  | _ :: s =>
    have := decidableWritable s
    decidable_of_iff _ writable_cons.symm

theorem decode_escape {s : Text} (h : Writable s) : Escape.decode (escape s) = s := by
  induction s with
  | nil => rfl
  | cons c s ih =>
    obtain ⟨alone, spelled, h⟩ := writable_cons.mp h
    have later := ih h
    rw [escape_cons, escapeChar]
    cases found : escaped? c with
    | some d =>
      change Escape.decode ('\\' :: d :: escape s) = _
      rw [Escape.decode, ofBackslash?_of_escaped? found, later]
    | none =>
      change Escape.decode (c :: escape s) = _
      have plain := (ne_of_escaped?_none found).1
      by_cases caret : c = '^'
      · subst caret
        rw [decode_caret, later]
        intro d head
        obtain ⟨t, written⟩ := List.head?_eq_some_iff.mp head
        by_cases backslash : d = '\\'
        · rw [backslash]
          rfl
        · obtain ⟨rest, rfl, _⟩ := of_escape_eq_cons written backslash
          exact alone rfl
      · by_cases letter : c = 'E'
        · subst letter
          rw [decode_letter, later]
          intro more written
          obtain ⟨s₁, rfl, written₁⟩ := of_escape_eq_cons written (by decide)
          obtain ⟨s₂, rfl, written₂⟩ := of_escape_eq_cons written₁ (by decide)
          obtain ⟨s₃, rfl, _⟩ := of_escape_eq_cons written₂ (by decide)
          exact spelled ⟨s₃, rfl⟩
        · rw [decode_plain _ plain caret letter, later]

def Hidden : Quote → Text → Prop
  | _, [] => True
  | q, c :: rest => q ≠ .outside ∧ Hidden (q.step c) rest

theorem Hidden.append {q : Quote} {t t' : Text} (h : Hidden q t)
    (h' : Hidden (t.foldl Quote.step q) t') : Hidden q (t ++ t') := by
  induction t generalizing q with
  | nil => exact h'
  | cons c rest ih => exact ⟨h.1, ih h.2 h'⟩

theorem hidden_escapeChar (c : Char) : Hidden (.inside '"') (escapeChar c) ∧
    (escapeChar c).foldl Quote.step (.inside '"') = .inside '"' := by
  unfold escapeChar
  cases found : escaped? c with
  | some d => exact ⟨⟨by simp, by simp [Quote.step], trivial⟩, rfl⟩
  | none =>
    obtain ⟨backslash, mark, _⟩ := ne_of_escaped?_none found
    exact ⟨⟨by simp, trivial⟩, by simp [Quote.step, backslash, mark]⟩

theorem hidden_escape (s : Text) : Hidden (.inside '"') (escape s) ∧
    (escape s).foldl Quote.step (.inside '"') = .inside '"' := by
  induction s with
  | nil => exact ⟨trivial, rfl⟩
  | cons c s ih =>
    obtain ⟨hidden, stays⟩ := hidden_escapeChar c
    rw [escape_cons]
    constructor
    · apply hidden.append
      rw [stays]
      exact ih.1
    · rw [List.foldl_append, stays, ih.2]

/-- The rest of a written string after its first quote is hidden and closes the literal. -/
theorem hidden_body (s : Text) : Hidden (.inside '"') (escape s ++ ['"']) ∧
    (escape s ++ ['"']).foldl Quote.step (.inside '"') = .outside := by
  obtain ⟨hidden, stays⟩ := hidden_escape s
  constructor
  · apply hidden.append
    rw [stays]
    exact ⟨by simp, trivial⟩
  · rw [List.foldl_append, stays]
    rfl

section Cut

variable {stop : Text → Bool} {front back : Text}

theorem cut_hidden {q : Quote} {t rest : Text} (hidden : Hidden q t)
    (h : (t.foldl Quote.step q).cut stop rest = (front, back)) :
    q.cut stop (t ++ rest) = (t ++ front, back) := by
  induction t generalizing q with
  | nil => exact h
  | cons c t ih =>
    rw [List.cons_append, Quote.cut, ih hidden.2 h]
    simp [hidden.1]

/-- A mark of comments is one that only texts starting with a semicolon or a slash show. -/
def Marks (stop : Text → Bool) : Prop := ∀ c rest, c ≠ ';' → c ≠ '/' → stop (c :: rest) = false

theorem cut_outside (marks : Marks stop) {c : Char} {rest : Text} (semicolon : c ≠ ';')
    (slash : c ≠ '/') (h : (Quote.outside.step c).cut stop rest = (front, back)) :
    Quote.outside.cut stop (c :: rest) = (c :: front, back) := by
  rw [Quote.cut, marks c rest semicolon slash, h]
  rfl

theorem cut_quoted (marks : Marks stop) (s : Text) {rest : Text}
    (h : Quote.outside.cut stop rest = (front, back)) :
    Quote.outside.cut stop (quoted s ++ rest) = (quoted s ++ front, back) := by
  obtain ⟨hidden, closes⟩ := hidden_body s
  rw [← closes] at h
  exact cut_outside marks (by decide) (by decide) (cut_hidden hidden h)

theorem cut_list (marks : Marks stop) (strings : List Text) :
    Quote.outside.cut stop (list strings) = (list strings, []) := by
  induction strings with
  | nil => rfl
  | cons s rest ih =>
    cases rest with
    | nil => simpa [list] using cut_quoted marks s (rfl : Quote.outside.cut stop [] = ([], []))
    | cons s' rest =>
      have space := cut_outside marks (c := ' ') (by decide) (by decide) ih
      have comma := cut_outside marks (c := ',') (by decide) (by decide) space
      exact cut_quoted marks s comma

theorem cut_line (marks : Marks stop) (size : DataSize) (strings : List Text) :
    Quote.outside.cut stop (line size strings) = (line size strings, []) := by
  have space := cut_outside marks (c := ' ') (by decide) (by decide) (cut_list marks strings)
  cases size with
  | byte =>
    have t := cut_outside marks (c := 't') (by decide) (by decide) space
    have y := cut_outside marks (c := 'y') (by decide) (by decide) t
    exact cut_outside marks (by decide) (by decide) y
  | word =>
    have d := cut_outside marks (c := 'd') (by decide) (by decide) space
    have r := cut_outside marks (c := 'r') (by decide) (by decide) d
    have o := cut_outside marks (c := 'o') (by decide) (by decide) r
    exact cut_outside marks (by decide) (by decide) o

end Cut

theorem marks_semicolon : Marks Comment.startsSemicolon := by
  intro c rest semicolon _
  simp [Comment.startsSemicolon, semicolon]

theorem marks_slashes : Marks Comment.startsSlashes := by
  intro c rest _ slash
  have other : ('/' == c) = false := beq_eq_false_iff_ne.mpr (Ne.symm slash)
  simp only [Comment.startsSlashes, Text.startsWith, List.isPrefixOf, other, Bool.false_and]

theorem getLast?_quoted (s : Text) : (quoted s).getLast? = some '"' :=
  List.getLast?_concat (l := '"' :: escape s)

theorem getLast?_list {strings : List Text} (nonempty : strings ≠ []) :
    (list strings).getLast? = some '"' := by
  induction strings with
  | nil => exact absurd rfl nonempty
  | cons s rest ih =>
    cases rest with
    | nil => exact getLast?_quoted s
    | cons s' rest =>
      rw [list, List.append_cons, List.append_cons, List.getLast?_append, ih nofun, Option.some_or]
      exact nofun

theorem trim_of_ends {t : Text} {c d : Char} (head : t.head? = some c) (last : t.getLast? = some d)
    (first : isBlank c = false) (final : isBlank d = false) : Text.trim t = t := by
  apply Expression.trim_eq_self
  · intro e mem
    rw [head] at mem
    cases mem
    exact first
  · intro e mem
    rw [last] at mem
    cases mem
    exact final

theorem trim_quoted (s : Text) : Text.trim (quoted s) = quoted s :=
  trim_of_ends rfl (getLast?_quoted s) (by decide) (by decide)

theorem head?_list {strings : List Text} (nonempty : strings ≠ []) :
    (list strings).head? = some '"' := by
  match strings with
  | [_] | _ :: _ :: _ => rfl

theorem trim_list {strings : List Text} (nonempty : strings ≠ []) :
    Text.trim (list strings) = list strings :=
  trim_of_ends (head?_list nonempty) (getLast?_list nonempty) (by decide) (by decide)

theorem trim_line (size : DataSize) {strings : List Text} (nonempty : strings ≠ []) :
    Text.trim (line size strings) = line size strings := by
  have last : (line size strings).getLast? = some '"' := by
    rw [line, List.append_cons, List.getLast?_append, getLast?_list nonempty, Option.some_or]
  cases size with
  | byte => exact trim_of_ends rfl last (by decide) (by decide)
  | word => exact trim_of_ends rfl last (by decide) (by decide)

theorem opensBlock_line (size : DataSize) (strings : List Text) :
    SourceLine.opensBlock (line size strings) = false := by
  cases size <;> rfl

theorem code_line (size : DataSize) {strings : List Text} (nonempty : strings ≠ []) :
    Comment.code (line size strings) = line size strings := by
  rw [Comment.code, Comment.splitSemicolon, cut_line marks_semicolon, Comment.stripSlashes,
    cut_line marks_slashes, trim_line size nonempty]

end StringData

namespace SourceLine

/-- Two texts between which a line can stand: it starts behind a line end, is followed by one, and
lies outside block comments. -/
structure Stands (front rest : Text) : Prop where
  starts : front = [] ∨ front.getLast? = some '\n'
  ends : rest = [] ∨ ['\n'] <+: rest ∨ ['\r', '\n'] <+: rest
  outside : (Text.lines front).foldl blockAfter false = false

theorem Stands.lines_append {front rest : Text} (h : Stands front rest) (line : Text) :
    Text.lines (front ++ line) = Text.lines front ++ Text.lines line := by
  rcases h.starts with rfl | feed
  · rfl
  · exact Text.lines_append_of_feed feed line

theorem Stands.headD_lines {front rest : Text} (h : Stands front rest) :
    (Text.lines rest).headD [] = [] := by
  rcases h.ends with rfl | ⟨_, rfl⟩ | ⟨_, rfl⟩ <;> rfl

end SourceLine

namespace StringData

theorem line_ne_nil (size : DataSize) (strings : List Text) : line size strings ≠ [] := by
  cases size <;> exact List.cons_ne_nil _ _

theorem not_mem_escape {c : Char} (h : c = '\r' ∨ c = '\n') (s : Text) : c ∉ escape s := by
  intro mem
  obtain ⟨d, _, here⟩ := List.mem_flatMap.mp mem
  unfold escapeChar at here
  cases found : escaped? d with
  | some e =>
    rw [found] at here
    unfold escaped? at found
    split at found <;> cases found <;> rcases h with rfl | rfl <;> simp at here
  | none =>
    rw [found] at here
    obtain rfl := List.mem_singleton.mp here
    rcases h with rfl | rfl <;> cases found

theorem not_mem_list {c : Char} (h : c = '\r' ∨ c = '\n') (strings : List Text) :
    c ∉ list strings := by
  have other : c ≠ '"' ∧ c ≠ ',' ∧ c ≠ ' ' := by
    rcases h with rfl | rfl <;> decide
  have single (s : Text) : c ∉ quoted s := by
    simp [quoted, not_mem_escape h s, other.1]
  induction strings with
  | nil => exact List.not_mem_nil
  | cons s rest ih =>
    cases rest with
    | nil => exact single s
    | cons s' rest => simp [list, single s, other, ih]

theorem not_mem_line {c : Char} (h : c = '\r' ∨ c = '\n') (size : DataSize)
    (strings : List Text) : c ∉ line size strings := by
  have later := not_mem_list h strings
  rcases h with rfl | rfl <;> cases size <;> simp [line, keyword, later]

theorem lines_line {size : DataSize} {strings : List Text} {front rest : Text}
    (stands : SourceLine.Stands front rest) :
    Text.lines (front ++ line size strings ++ rest) =
      Text.lines front ++ line size strings :: (Text.lines rest).tail := by
  have here : Text.lines (line size strings ++ rest) =
      line size strings :: (Text.lines rest).tail := by
    rw [Text.lines_append_of_plain (line_ne_nil size strings) (not_mem_line (.inr rfl) size strings)
      (not_mem_line (.inl rfl) size strings), stands.headD_lines, List.append_nil]
  rw [List.append_assoc, stands.lines_append, here]

theorem ofText_line (file : String) {size : DataSize} {strings : List Text} {front rest : Text}
    (nonempty : strings ≠ []) (stands : SourceLine.Stands front rest) :
    ∃ after, SourceLine.ofText file (front ++ line size strings ++ rest) =
      SourceLine.ofText file front ++
        ⟨file, (Text.lines front).length + 1, line size strings, line size strings⟩ :: after := by
  have code := code_line size nonempty
  have plain : SourceLine.opensBlock (Text.trim (line size strings)) = false := by
    rw [trim_line size nonempty, opensBlock_line]
  have kept := SourceLine.collect_code file ((Text.lines front).length + 1)
    (Text.lines rest).tail plain (by rw [code]; exact line_ne_nil size strings)
  rw [code] at kept
  refine ⟨SourceLine.collect file false ((Text.lines front).length + 2) (Text.lines rest).tail, ?_⟩
  rw [SourceLine.ofText, lines_line stands, SourceLine.collect_append, stands.outside,
    Nat.add_comm 1, kept]
  rfl

theorem takeWord_line (size : DataSize) (strings : List Text) :
    Text.takeWord (line size strings) = some (keyword size, ' ' :: list strings) := by
  cases size <;> rfl

theorem equateExpression?_list {strings : List Text} (nonempty : strings ≠ []) :
    Statement.equateExpression? (list strings) = none := by
  obtain ⟨rest, written⟩ := List.head?_eq_some_iff.mp (head?_list nonempty)
  rw [written]
  rfl

theorem parsed_line {size : DataSize} {strings : List Text} (nonempty : strings ≠ []) :
    ParsedLine.ofText (line size strings) = ⟨[], .data size (list strings)⟩ := by
  have start : Text.skipSigils (Text.skipBlanks (line size strings)) = line size strings := by
    cases size <;> rfl
  have unlabelled : ParsedLine.peelLabels (line size strings).length (line size strings) =
      ([], line size strings) := by
    cases (line size strings).length with
    | zero => rfl
    | succ limit =>
      rw [ParsedLine.peelLabels, ParsedLine.label?, start, takeWord_line]
      rfl
  have behind : Text.trim (' ' :: list strings) = list strings := trim_list nonempty
  rw [ParsedLine.ofText, unlabelled]
  dsimp only
  rw [Statement.ofText, start, takeWord_line]
  dsimp only
  rw [behind, Statement.ofWord, equateExpression?_list nonempty]
  cases size <;> rfl

theorem fields_hidden {q : Quote} {t rest field : Text} {more : List Text} (hidden : Hidden q t)
    (h : DataList.fields (t.foldl Quote.step q) rest = field :: more) :
    DataList.fields q (t ++ rest) = (t ++ field) :: more := by
  induction t generalizing q with
  | nil => exact h
  | cons c t ih =>
    rw [List.cons_append, DataList.fields, ih hidden.2 h]
    simp [hidden.1]

theorem fields_outside {c : Char} {rest field : Text} {more : List Text} (comma : c ≠ ',')
    (h : DataList.fields (Quote.outside.step c) rest = field :: more) :
    DataList.fields .outside (c :: rest) = (c :: field) :: more := by
  rw [DataList.fields, h]
  simp [comma]

theorem fields_quoted (s : Text) {rest field : Text} {more : List Text}
    (h : DataList.fields .outside rest = field :: more) :
    DataList.fields .outside (quoted s ++ rest) = (quoted s ++ field) :: more := by
  obtain ⟨hidden, closes⟩ := hidden_body s
  rw [← closes] at h
  exact fields_outside (by decide) (fields_hidden hidden h)

theorem fields_list (s : Text) (rest : List Text) :
    DataList.fields .outside (list (s :: rest)) = quoted s :: rest.map (' ' :: quoted ·) := by
  induction rest generalizing s with
  | nil =>
    have whole := fields_quoted s (rfl : DataList.fields .outside [] = [[]])
    rwa [List.append_nil] at whole
  | cons s' rest ih =>
    have space := fields_outside (c := ' ') (by decide) (ih s')
    have comma : DataList.fields .outside (',' :: ' ' :: list (s' :: rest)) =
        [] :: (' ' :: quoted s') :: rest.map (' ' :: quoted ·) := by
      rw [← space]
      rfl
    have whole := fields_quoted s comma
    rwa [List.append_nil] at whole

theorem items_list (strings : List Text) :
    DataList.items (list strings) = strings.map quoted := by
  cases strings with
  | nil => rfl
  | cons s rest =>
    have blank (s : Text) : Text.trim (' ' :: quoted s) = quoted s := trim_quoted s
    have trimmed : (DataList.fields .outside (list (s :: rest))).map Text.trim =
        (s :: rest).map quoted := by
      simp [fields_list, trim_quoted, blank]
    rw [DataList.items, trimmed, List.filter_eq_self]
    intro item mem
    obtain ⟨s, _, rfl⟩ := List.mem_map.mp mem
    rfl

theorem dataItem_quoted (env : Env) {s : Text} (h : Writable s) :
    Step.dataItem env (quoted s) = pure (s.map Char.val) := by
  have body : Text.dropLast? '"' (escape s ++ ['"']) = some (escape s) := by
    simp [Text.dropLast?]
  rw [quoted, Step.dataItem, body]
  dsimp only
  rw [decode_escape h]

theorem cautions_run (size : DataSize) (values : List UInt32) (trace : Trace) :
    ∃ trace', (values.forM fun value => do
      if size.limit < value then
        Tracing.caution (.dataRange value size.limit) : Tracing PUnit).run trace =
          (.ok (), trace') := by
  induction values generalizing trace with
  | nil => exact ⟨trace, rfl⟩
  | cons value rest ih =>
    rw [List.forM]
    by_cases beyond : size.limit < value
    · simp only [beyond, if_true]
      exact ih (trace.add (.caution (.dataRange value size.limit)))
    · simp only [beyond, if_false]
      exact ih trace

theorem dataValues_quoted (env : Env) (size : DataSize) {strings : List Text}
    (writable : ∀ s ∈ strings, Writable s) (trace : Trace) :
    ∃ trace', (Step.dataValues env size (strings.map quoted)).run trace =
      (.ok (strings.flatten.map Char.val), trace') := by
  have items : (strings.map quoted).mapM (Step.dataItem env) =
      pure (strings.map (·.map Char.val)) := by
    induction strings with
    | nil => rfl
    | cons s rest ih =>
      rw [List.forall_mem_cons] at writable
      rw [List.map_cons, List.mapM_cons, dataItem_quoted env writable.1, ih writable.2]
      rfl
  obtain ⟨trace', cautions⟩ := cautions_run size (strings.map (·.map Char.val)).flatten trace
  refine ⟨trace', ?_⟩
  rw [Step.dataValues, items, pure_bind, run_bind_of_ok cautions, List.map_flatten]
  rfl

theorem littleEndian_val (size : DataSize) (c : Char) :
    littleEndian c.val size.bytes = cell size c := by
  have low : c.val.toUInt8 = UInt8.ofNat (c.toNat % 256) := by
    apply UInt8.toNat_inj.mp
    rw [UInt32.toNat_toUInt8]
    simp
  have high : (c.val >>> 8).toUInt8 = UInt8.ofNat (c.toNat % 65536 / 256) := by
    apply UInt8.toNat_inj.mp
    simp [Nat.shiftRight_eq_div_pow]
    omega
  cases size with
  | byte => simp only [DataSize.bytes, littleEndian, cell, low]
  | word =>
    simp only [DataSize.bytes, littleEndian, cell, low, high]
    rw [Nat.mod_mod_of_dvd _ (by decide)]

theorem outcome_list (env : Env) (widths : RegisterWidths) (size : DataSize) {strings : List Text}
    (nonempty : strings ≠ []) (writable : ∀ s ∈ strings, Writable s) (trace : Trace) :
    ∃ trace', ((Statement.data size (list strings)).outcome env widths).run trace =
      (.ok (.bytes (bytes size strings)), trace') := by
  obtain ⟨trace', values⟩ := dataValues_quoted env size writable trace
  have some_items : ¬(strings.map quoted).isEmpty = true := by simpa using nonempty
  refine ⟨trace', ?_⟩
  rw [Statement.outcome, items_list, if_neg some_items, run_bind_of_ok values]
  simp only [List.flatMap_map, littleEndian_val]
  rfl

/-- Where there is room for its bytes, the line stores them at the location counter. -/
theorem runLine_line {config : Config} {place : SourceLine} {size : DataSize}
    {strings : List Text} (text : place.text = line size strings) (nonempty : strings ≠ [])
    (writable : ∀ s ∈ strings, Writable s) {w : Work} {pc : UInt32} (placed : w.counter = some pc)
    (small : w.image.bytes.size < UInt32.size)
    (room : w.image.HasRoom pc (bytes size strings).length) :
    ∃ w', (Step.runLine config place).run w = (.ok (), w') ∧
      w'.image = w.image.overwrite (pc.toNat - w.image.base.toNat) (bytes size strings) ∧
      w'.counter = some (pc + UInt32.ofNat (bytes size strings).length) := by
  obtain ⟨trace, outcome⟩ := outcome_list w.env w.widths size nonempty writable { hint := w.hint }
  have statement : (Step.runLine config place).run w =
      (Step.emit (bytes size strings)).run (w.takeTrace config place trace) := by
    rw [Step.runLine, text, parsed_line nonempty]
    change (Step.runStatement config place (.data size (list strings))).run w = _
    rw [Step.runStatement_run, outcome]
    rfl
  obtain ⟨start, located, same⟩ := Image.locate_of_hasRoom small room
  have placed : (w.takeTrace config place trace).counter = some pc := by rwa [takeTrace_counter]
  rw [← takeTrace_image] at located
  rw [statement, Step.emit_run placed located]
  refine ⟨_, rfl, ?_, rfl⟩
  simp [same]

end StringData

namespace Assembly

open StringData

/-- String data survives. Between two texts where a line can stand, the line of written strings is
kept as it is, under its own number. A pass that comes to it with the location counter set and with
room in the window gets it done: the bytes of the strings, and no others, go to the location
counter, which moves past them. -/
theorem strings_stored (file : String) (size : DataSize) {strings : List Text}
    (nonempty : strings ≠ []) (writable : ∀ s ∈ strings, Writable s) {front rest : Text}
    (stands : SourceLine.Stands front rest) :
    (∃ after, SourceLine.ofText file (front ++ line size strings ++ rest) =
      SourceLine.ofText file front ++
        ⟨file, (Text.lines front).length + 1, line size strings, line size strings⟩ :: after) ∧
    ∀ (config : Config) (lines : List SourceLine) (p : Nat) (a : Assembly) (r : Record) (w : Work)
      (pc : UInt32), (new config lines).Reached p a →
      Meets config a.records (a.work.startPass config (p + 1)) r w →
      r.source = ⟨file, (Text.lines front).length + 1, line size strings, line size strings⟩ →
      w.counter = some pc → w.image.HasRoom pc (bytes size strings).length →
      ∃ w', (Step.runLine config r.source).run w = (.ok (), w') ∧
        w'.image = w.image.overwrite (pc.toNat - w.image.base.toNat) (bytes size strings) ∧
        w'.counter = some (pc + UInt32.ofNat (bytes size strings).length) := by
  constructor
  · exact ofText_line file nonempty stands
  · intro config lines p a r w pc reached met source placed room
    have window := met.window (Work.startPass_window reached.window (p + 1))
    have small : w.image.bytes.size < UInt32.size := by
      have size : w.image.bytes.size = config.romSize.toNat := window.size
      rw [size]
      exact config.romSize.toNat_lt_size
    exact runLine_line (by rw [source]) nonempty writable placed small room

def markedStrings : List Text :=
  ["a;b//c, 'd'".toList, "\\\"\r\n^".toList, [], "é😀".toList]

def markedBytes : List UInt8 :=
  [0x61, 0, 0x3B, 0, 0x62, 0, 0x2F, 0, 0x2F, 0, 0x63, 0, 0x2C, 0, 0x20, 0, 0x27, 0, 0x64, 0, 0x27,
    0, 0x5C, 0, 0x22, 0, 0x0D, 0, 0x0A, 0, 0x5E, 0, 0xE9, 0, 0x00, 0xF6]

def markedFront : Text := " org $80\n/* byt \"\n*/\n".toList

def markedRest : Text := "\r\n nop\n".toList

def markedPlace : SourceLine :=
  ⟨"marks.asm", 4, line .word markedStrings, line .word markedStrings⟩

def markedAssembly : Assembly :=
  new { romSize := 64 }
    (SourceLine.ofText "marks.asm" (markedFront ++ line .word markedStrings ++ markedRest))

def markedWork : Work :=
  ((Step.runLine { romSize := 64 } ⟨"marks.asm", 1, " org $80".toList, "org $80".toList⟩).run
    (markedAssembly.work.startPass { romSize := 64 } 1)).2

theorem markedAssembly_meets :
    Meets { romSize := 64 } markedAssembly.records
      (markedAssembly.work.startPass { romSize := 64 } 1) ⟨markedPlace, none⟩
      { markedWork with hint := none } := by
  have records : markedAssembly.records =
      [⟨⟨"marks.asm", 1, " org $80".toList, "org $80".toList⟩, none⟩, ⟨markedPlace, none⟩,
        ⟨⟨"marks.asm", 5, " nop".toList, "nop".toList⟩, none⟩] := by decide +kernel
  rw [records]
  exact .later (Prod.ext (by decide +kernel) rfl) (.here _ _ _)

/-- Marks of comments, separators, quotes, line ends and characters beyond a word come through. -/
theorem strings_stored_marks :
    ∃ w', (Step.runLine { romSize := 64 } markedPlace).run { markedWork with hint := none } =
        (.ok (), w') ∧
      w'.image = markedWork.image.overwrite 0 markedBytes ∧
      w'.counter = some 0xA4 := by
  have writable : ∀ s ∈ markedStrings, Writable s := by decide +kernel
  have stands : SourceLine.Stands markedFront markedRest :=
    ⟨by decide, by decide +kernel, by decide +kernel⟩
  have base : markedWork.image.base = 0x80 := by decide +kernel
  have room : markedWork.image.HasRoom 0x80 (bytes .word markedStrings).length := by
    unfold Image.HasRoom
    decide +kernel
  have stored := (strings_stored "marks.asm" .word (by decide) writable stands).2 _ _ _ _ _ _ 0x80
    .start markedAssembly_meets (by decide +kernel) (by decide +kernel) room
  have written : bytes .word markedStrings = markedBytes := by decide +kernel
  rw [written, base] at stored
  exact stored

end Assembly

end Assembler65816
