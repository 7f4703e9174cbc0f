import Assembler65816.Text.Basic

/-! # Lines

A line ends at a line feed, or at a carriage return directly before one. A final line feed opens
no further line.
-/

namespace Assembler65816.Text

def lines : Text → List Text
  | [] => []
  | '\n' :: rest => [] :: lines rest
  | '\r' :: '\n' :: rest => [] :: lines rest
  | c :: rest =>
    match lines rest with
    | [] => [[c]]
    | line :: more => (c :: line) :: more

/-- A character that ends no line joins the first line of what follows it. -/
theorem lines_cons {c : Char} {rest : Text} (feed : c ≠ '\n')
    (carriage : c = '\r' → rest.head? ≠ some '\n') :
    lines (c :: rest) = (c :: (lines rest).headD []) :: (lines rest).tail := by
  rw [lines]
  · cases lines rest <;> rfl
  · exact feed
  · rintro _ rfl rfl
    exact carriage rfl rfl

/-- A text without line ends joins the first line of what follows it. -/
theorem lines_append_of_plain {line : Text} (nonempty : line ≠ []) (feed : '\n' ∉ line)
    (carriage : '\r' ∉ line) (rest : Text) :
    lines (line ++ rest) = (line ++ (lines rest).headD []) :: (lines rest).tail := by
  induction line with
  | nil => exact absurd rfl nonempty
  | cons c line ih =>
    rw [List.mem_cons, not_or] at feed carriage
    rw [List.cons_append, lines_cons (Ne.symm feed.1) fun eq => absurd eq.symm carriage.1]
    by_cases last : line = []
    · subst last
      rfl
    · rw [ih last feed.2 carriage.2]
      rfl

/-- A line ends at the first line feed, but for a carriage return before it. -/
theorem lines_feed {line : Text} (feed : '\n' ∉ line) (carriage : line.getLast? ≠ some '\r')
    (rest : Text) : lines (line ++ '\n' :: rest) = line :: lines rest := by
  induction line with
  | nil => rfl
  | cons c line ih =>
    rw [List.mem_cons, not_or] at feed
    rw [List.cons_append, lines_cons (Ne.symm feed.1)]
    · rw [ih feed.2]
      · rfl
      · cases line with
        | nil => nofun
        | cons d line => rwa [List.getLast?_cons_cons] at carriage
    · rintro rfl next
      cases line with
      | nil => exact carriage rfl
      | cons d line =>
        cases next
        exact feed.2 List.mem_cons_self

theorem not_mem_lines {t line : Text} (h : line ∈ lines t) : '\n' ∉ line := by
  fun_induction lines t generalizing line with
  | case1 => cases h
  | case2 rest ih | case3 rest ih =>
    rcases List.mem_cons.mp h with rfl | later
    · exact List.not_mem_nil
    · exact ih later
  | case4 c rest feed _ none ih =>
    obtain rfl := List.mem_singleton.mp h
    exact fun mem => feed (List.mem_singleton.mp mem).symm
  | case5 c rest feed _ first more found ih =>
    rw [found] at ih
    rcases List.mem_cons.mp h with rfl | later
    · intro mem
      rcases List.mem_cons.mp mem with same | mem
      · exact feed same.symm
      · exact ih List.mem_cons_self mem
    · exact ih (List.mem_cons_of_mem _ later)

theorem lines_single {line : Text} (nonempty : line ≠ []) (feed : '\n' ∉ line) :
    lines line = [line] := by
  induction line with
  | nil => exact absurd rfl nonempty
  | cons c line ih =>
    rw [List.mem_cons, not_or] at feed
    have next : line.head? ≠ some '\n' := fun head => feed.2 (List.mem_of_head? head)
    rw [lines_cons (Ne.symm feed.1) fun _ => next]
    by_cases last : line = []
    · rw [last]
      rfl
    · rw [ih last feed.2]
      rfl

theorem lines_eq_nil {t : Text} (h : lines t = []) : t = [] := by
  unfold lines at h
  split at h
  · rfl
  · cases h
  · cases h
  · split at h <;> cases h

theorem lines_append_of_feed {front : Text} (feed : front.getLast? = some '\n') (rest : Text) :
    lines (front ++ rest) = lines front ++ lines rest := by
  fun_induction lines front with
  | case1 => cases feed
  | case2 front ih =>
    rw [List.cons_append, lines, List.cons_append]
    by_cases last : front = []
    · subst last
      rfl
    · rw [ih (by rwa [List.getLast?_cons_of_ne_nil last] at feed)]
  | case3 front ih =>
    rw [List.cons_append, List.cons_append, lines, List.cons_append]
    by_cases last : front = []
    · subst last
      rfl
    · rw [ih]
      rwa [List.getLast?_cons_cons, List.getLast?_cons_of_ne_nil last] at feed
  | case4 c front other carriage none ih =>
    rw [lines_eq_nil none] at feed
    exact absurd (Option.some.inj feed) other
  | case5 c front other carriage line more some ih =>
    have later : front ≠ [] := by
      rintro rfl
      exact other (Option.some.inj feed)
    rw [List.getLast?_cons_of_ne_nil later] at feed
    rw [List.cons_append, lines_cons other, ih feed, some]
    · rfl
    · rintro rfl next
      obtain ⟨d, t, rfl⟩ := List.exists_cons_of_ne_nil later
      cases next
      exact carriage t rfl rfl

end Assembler65816.Text
