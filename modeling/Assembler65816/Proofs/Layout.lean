import Assembler65816.Proofs.Definitions

/-! # Layout

When no name starts with a digit, the first pass fixes the layout: every later pass has the same
location counter in front of every line that it reaches. A later pass knows at least what the first
one knew at the same point, the operand widths that the first one guessed are remembered, and the
length of everything else depends on the source alone.
-/
namespace Assembler65816

def LetterNames (lines : List SourceLine) : Prop :=
  ∀ name ∈ definedNames lines, startsWithDigit name = false

theorem LetterNames.isSymbolName {lines : List SourceLine} (h : LetterNames lines) {name : Text}
    (hn : name ∈ definedNames lines) : isSymbolName name = true :=
  isSymbolName_of_isWord (isWord_of_mem_definedNames hn) (h name hn)

def SymbolTable.Named (t : SymbolTable) : Prop := ∀ m, t.lookup m ≠ none → isSymbolName m = true

theorem isWord_of_isSymbolName {name : Text} (h : isSymbolName name = true) : isWord name := by
  refine ⟨?_, Expression.nameChars_of_isSymbolName h⟩
  rintro rfl
  cases h

theorem SymbolTable.Named.worded {t : SymbolTable} (h : t.Named) : t.Worded :=
  fun m hm => isWord_of_isSymbolName (h m hm)

theorem SymbolTable.Named.fresh {t : SymbolTable} (h : t.Named) (m : Text) :
    t.lookup m = none ∨ isSymbolName m = true := by
  by_cases absent : t.lookup m = none
  · exact Or.inl absent
  · exact Or.inr (h m absent)

theorem Bound.named {firstPass : Bool} {ds : List Definition} {b b' : Bindings}
    (h : Bound firstPass ds b b') (hb : b.symbols.Named)
    (hd : ∀ d ∈ ds, isSymbolName d.name = true) : b'.symbols.Named := by
  intro m hm
  rcases (h.names m).mp hm with before | later
  · exact hb m before
  · obtain ⟨d, mem, rfl⟩ := List.mem_map.mp later
    exact hd d mem

/-- What a later pass has bound, at the point where an earlier one had bound `b`. -/
structure Bindings.Tracks (b c : Bindings) : Prop where
  known : ∀ m word, b.symbols.lookup m = some (.known word) →
    c.defined.lookup m = some (.known word)
  present : ∀ m, b.symbols.lookup m ≠ none → c.symbols.lookup m ≠ none
  coherent : c.Coherent
  named : c.symbols.Named

theorem Bindings.Tracks.env_extends {b c : Bindings} (h : b.Tracks c) (pc : Option UInt32) :
    (b.symbols.env pc).Extends (c.symbols.env pc) := by
  have known : ∀ m word, b.symbols.lookup m = some (.known word) →
      c.symbols.lookup m = some (.known word) :=
    fun m word hm => h.coherent m word (h.known m word hm)
  exact ⟨rfl, known, h.present, fun m _ => h.named.fresh m⟩

theorem Bindings.Tracks.named_left {b c : Bindings} (h : b.Tracks c) : b.symbols.Named :=
  fun m hm => h.named m (h.present m hm)

section Tracks

variable {firstPass firstPass' : Bool}

theorem Bindings.Binds.tracks {d : Definition} {b b' c c' : Bindings}
    (h : b.Binds firstPass d b') (h' : c.Binds firstPass' d c') (tracks : b.Tracks c)
    (name : isSymbolName d.name = true) : b'.Tracks c' := by
  obtain ⟨value, reads, _, symbols, _⟩ := h.lookups
  obtain ⟨value', reads', _, symbols', defined'⟩ := h'.lookups
  refine ⟨fun m word hm => ?_, fun m hm => ?_, h'.coherent tracks.coherent, fun m hm => ?_⟩
  · rw [symbols m] at hm
    split at hm
    · next same =>
      subst same
      rcases Value.merge_known (Option.some.inj hm) with rfl | ⟨_, old⟩
      · -- The earlier pass found a value, so the later one finds the same.
        have found := Expression.eval_of_extends (tracks.env_extends d.pc)
          ((reads word).mpr rfl)
        rw [defined' d.name, if_pos rfl, (reads' word).mp found]
        simp [Value.merge]
      · exact h'.defined_kept (tracks.known _ _ old)
    · exact h'.defined_kept (tracks.known m word hm)
  · rw [symbols m] at hm
    rw [symbols' m]
    split
    · simp
    · next other =>
      rw [if_neg other] at hm
      exact tracks.present m hm
  · rw [symbols' m] at hm
    split at hm
    · next same => exact same ▸ name
    · exact tracks.named m hm

theorem Bound.tracks {ds : List Definition} {b b' c c' : Bindings} (h : Bound firstPass ds b b')
    (h' : Bound firstPass' ds c c') (tracks : b.Tracks c)
    (names : ∀ d ∈ ds, isSymbolName d.name = true) : b'.Tracks c' := by
  induction h generalizing c with
  | nil =>
    cases h'
    exact tracks
  | cons binds more ih =>
    cases h' with
    | cons binds' more' =>
      have first := binds.tracks binds' tracks (names _ (by simp))
      exact ih more' first fun d hd => names d (by simp [hd])

end Tracks

theorem Outcome.Similar.counter_eq {config : Config} {outcome outcome' : Outcome}
    (h : outcome.Similar outcome') {w w' x x' : Work} (performed : Performed config w outcome w')
    (performed' : Performed config x outcome' x') (counter : x.counter = w.counter)
    (widths : x.widths = w.widths) : x'.counter = w'.counter ∧ x'.widths = w'.widths := by
  cases h with
  | nothing =>
    cases performed
    cases performed'
    exact ⟨counter, widths⟩
  | binding =>
    cases performed
    cases performed'
    exact ⟨counter, widths⟩
  | origin =>
    cases performed <;> cases performed' <;> exact ⟨rfl, widths⟩
  | widths =>
    cases performed
    cases performed'
    exact ⟨counter, rfl⟩
  | bytes length =>
    cases performed with
    | bytes placed located =>
      cases performed' with
      | bytes placed' located' =>
        rw [counter, placed] at placed'
        cases placed'
        exact ⟨by rw [length], widths⟩

theorem Labelled.tracks {config : Config} {names : List Text} {w w' x x' : Work}
    (h : Labelled config names w w') (h' : Labelled config names x x')
    (tracks : w.bindings.Tracks x.bindings) (counter : x.counter = w.counter)
    (symbols : ∀ name ∈ names, isSymbolName name = true) : w'.bindings.Tracks x'.bindings := by
  have words : ∀ name ∈ names, isWord name :=
    fun name mem => isWord_of_isSymbolName (symbols name mem)
  have left := h.bound tracks.named_left.worded words
  have left' := h'.bound tracks.named.worded words
  rw [counter] at left'
  refine left.tracks left' tracks fun d hd => ?_
  obtain ⟨name, mem, rfl⟩ := List.mem_map.mp hd
  exact symbols name mem

/-- A line in a later pass, with the width remembered that the earlier pass left. -/
theorem CarriedOut.layout {config : Config} {place : SourceLine} {w w' x x' : Work}
    (h : CarriedOut config place w w') (h' : CarriedOut config place x x')
    (tracks : w.bindings.Tracks x.bindings) (counter : x.counter = w.counter)
    (widths : x.widths = w.widths) (hint : x.hint = w'.hint)
    (names : ∀ name ∈ (ParsedLine.ofText place.text).names, isSymbolName name = true) :
    x'.counter = w'.counter ∧ x'.widths = w'.widths ∧ x'.hint = w'.hint ∧
      w'.bindings.Tracks x'.bindings := by
  have worded := tracks.named_left.worded
  have worded' := tracks.named.worded
  have named : ∀ d ∈ (ParsedLine.ofText place.text).definitions w.counter,
      isSymbolName d.name = true := by
    intro d hd
    apply names
    rw [← ParsedLine.map_name_definitions _ w.counter]
    exact List.mem_map_of_mem hd
  have bound := h.bound worded
  have bound' := h'.bound worded'
  rw [counter] at bound'
  have tracks' := bound.tracks bound' tracks named
  obtain @⟨labelled, outcome, trace, _, labels, read, performed⟩ := h
  obtain @⟨labelled', outcome', trace', _, labels', read', performed'⟩ := h'
  have frame := labels.frame
  have frame' := labels'.frame
  have tracked := labels.tracks labels' tracks counter fun name mem =>
    names name (List.mem_append_left _ mem)
  have counters : labelled'.counter = labelled.counter := by
    rw [frame.counter, frame'.counter, counter]
  have widths₁ : labelled'.widths = labelled.widths := by rw [frame.widths, frame'.widths, widths]
  have env : labelled.env.Extends labelled'.env := by
    rw [Work.env, Work.env, counters]
    exact tracked.env_extends labelled.counter
  rw [widths₁] at read'
  have kept : w'.hint = trace.hint := by rw [performed.frame.1, takeTrace_hint]
  obtain ⟨similar, same⟩ := Statement.outcome_similar env read read' (by
    dsimp only
    rw [frame'.hint, hint, kept])
  obtain ⟨counter', widths'⟩ := similar.counter_eq performed performed'
    (by rw [takeTrace_counter, takeTrace_counter, counters])
    (by rw [takeTrace_widths, takeTrace_widths, widths₁])
  refine ⟨counter', widths', ?_, tracks'⟩
  rw [performed'.frame.1, takeTrace_hint, same, kept]

theorem symbolNames_cons {r : Record} {rest : List Record}
    (names : ∀ name ∈ definedNames ((r :: rest).map Record.source), isSymbolName name = true) :
    (∀ name ∈ (ParsedLine.ofText r.source.text).names, isSymbolName name = true) ∧
      ∀ name ∈ definedNames (rest.map Record.source), isSymbolName name = true := by
  rw [List.map_cons, definedNames, List.flatMap_cons] at names
  exact ⟨fun name h => names name (List.mem_append_left _ h),
    fun name h => names name (List.mem_append_right _ h)⟩

/-- A later pass follows the layout of an earlier one as far as it gets. -/
theorem Passed.layout {config : Config} {records records' : List Record} {w w' x : Work}
    (h : Passed config records w records' w') (tracks : w.bindings.Tracks x.bindings)
    (counter : x.counter = w.counter) (widths : x.widths = w.widths)
    (names : ∀ name ∈ definedNames (records.map Record.source), isSymbolName name = true) :
    Work.counters config records' x <+: Work.counters config records w ∧
      ∀ records'' x', Passed config records' x records'' x' →
        records'' = records' ∧ w'.bindings.Tracks x'.bindings := by
  induction h generalizing x with
  | nil =>
    refine ⟨List.prefix_refl _, fun records'' x' passed => ?_⟩
    cases passed
    exact ⟨rfl, tracks⟩
  | @cons r rest rest' w w₁ w₂ line more ih =>
    have carried := Step.runLine_run_ok line
    obtain ⟨here, later⟩ := symbolNames_cons names
    have step : ∀ x₁, (Step.runLine config r.source).run { x with hint := w₁.hint } = (.ok (), x₁) →
        x₁.counter = w₁.counter ∧ x₁.widths = w₁.widths ∧ x₁.hint = w₁.hint ∧
          w₁.bindings.Tracks x₁.bindings := by
      intro x₁ line'
      exact carried.layout (Step.runLine_run_ok line') tracks counter widths rfl here
    constructor
    · rcases line' : (Step.runLine config r.source).run { x with hint := w₁.hint } with ⟨_ | _, x₁⟩
      · rw [Work.counters, Work.counters, line, line', counter]
        exact (List.prefix_cons_inj _).mpr List.nil_prefix
      · obtain ⟨counter₁, widths₁, _, tracks₁⟩ := step x₁ line'
        rw [Work.counters, Work.counters, line, line', counter]
        exact (List.prefix_cons_inj _).mpr (ih tracks₁ counter₁ widths₁ later).1
    · intro records'' x' passed
      cases passed with
      | @cons _ _ rest'' _ x₁ _ line' more' =>
        obtain ⟨counter₁, widths₁, hint₁, tracks₁⟩ := step x₁ line'
        obtain ⟨same, tracks'⟩ := (ih tracks₁ counter₁ widths₁ later).2 _ _ more'
        exact ⟨by rw [hint₁, same], tracks'⟩

namespace Assembly

def counters (a : Assembly) (pass : Nat) : List (Option UInt32) :=
  Work.counters a.config a.records (a.work.startPass a.config pass)

def definitions (config : Config) (lines : List SourceLine) : List Definition :=
  definitionsAt lines ((new config lines).counters 1)

variable {config : Config} {lines : List SourceLine} {p : Nat} {a a' : Assembly}

theorem Reached.named (letters : LetterNames lines) (h : (new config lines).Reached p a) :
    a.work.symbols.Named :=
  fun m hm => letters.isSymbolName ((h.names m).mp hm).2

theorem Reached.tracks_start (letters : LetterNames lines) (h : (new config lines).Reached p a)
    (pass pass' : Nat) : ((new config lines).work.startPass config pass).bindings.Tracks
      (a.work.startPass config pass').bindings := by
  have empty : ∀ m, ((new config lines).work.startPass config pass).symbols.lookup m = none := by
    intro m
    rw [startPass_symbols]
    rfl
  refine ⟨fun m word hm => ?_, fun m hm => ?_, fun m word hm => ?_, ?_⟩
  · rw [Work.bindings, empty m] at hm
    cases hm
  · rw [Work.bindings, empty m] at hm
    exact absurd rfl hm
  · rw [Work.bindings, startPass_defined] at hm
    cases hm
  · rw [Work.bindings, startPass_symbols]
    exact h.named letters

theorem Reached.layout (letters : LetterNames lines) (h : (new config lines).Reached p a)
    {records : List Record} {w : Work} (pass : Nat)
    (first : Passed config (new config lines).records
      ((new config lines).work.startPass config 1) records w) :
    Work.counters config records (a.work.startPass config pass) <+:
        (new config lines).counters 1 ∧
      ∀ records' x, Passed config records (a.work.startPass config pass) records' x →
        records' = records ∧ w.bindings.Tracks x.bindings := by
  refine first.layout (h.tracks_start letters 1 pass) ?_ ?_ ?_
  · rw [startPass_counter, startPass_counter]
  · rw [startPass_widths, startPass_widths]
  · rw [Reached.start.sources_eq]
    exact fun name hn => letters.isSymbolName hn

/-- From the first pass on, the remembered widths are those that the first pass left. -/
theorem Reached.first_pass (letters : LetterNames lines)
    (h : (new config lines).Reached (p + 1) a) :
    ∃ w, Passed config (new config lines).records ((new config lines).work.startPass config 1)
      a.records w := by
  generalize hq : p + 1 = q at h
  induction h generalizing p with
  | start => cases hq
  | @pass q a a' before passed ih =>
    obtain ⟨w, done, _⟩ := runPass_none passed
    rw [before.config_eq] at done
    cases q with
    | zero =>
      cases before
      exact ⟨w, done⟩
    | succ q =>
      obtain ⟨w₁, first⟩ := ih rfl
      obtain ⟨same, _⟩ := (before.layout letters (q + 1 + 1) first).2 _ _ done
      exact ⟨w₁, same ▸ first⟩

theorem Reached.counters_prefix (letters : LetterNames lines)
    (h : (new config lines).Reached p a) :
    a.counters (p + 1) <+: (new config lines).counters 1 := by
  cases p with
  | zero =>
    cases h
    exact List.prefix_refl _
  | succ p =>
    obtain ⟨w, first⟩ := h.first_pass letters
    unfold counters
    rw [h.config_eq]
    exact (h.layout letters (p + 1 + 1) first).1

theorem Reached.counters_eq (letters : LetterNames lines) (h : (new config lines).Reached p a)
    (passed : a.runPass (p + 1) = (none, a')) :
    a.counters (p + 1) = (new config lines).counters 1 := by
  apply (h.counters_prefix letters).eq_of_length
  obtain ⟨w, first⟩ := (Reached.pass h passed).first_pass letters
  obtain ⟨w', done, _⟩ := runPass_none passed
  have length : a.records.length = (new config lines).records.length := by
    simpa using congrArg List.length h.sources
  rw [counters, done.length_counters, length]
  exact first.length_counters.symm

theorem Reached.definitions_eq (letters : LetterNames lines) (h : (new config lines).Reached p a)
    (passed : a.runPass (p + 1) = (none, a')) :
    definitionsAt (a.records.map Record.source)
      (Work.counters config a.records (a.work.startPass config (p + 1))) =
      definitions config lines := by
  have same := h.counters_eq letters passed
  unfold counters at same
  rw [h.config_eq] at same
  rw [h.sources_eq]
  exact congrArg (definitionsAt lines) same

theorem Reached.bound (letters : LetterNames lines) (h : (new config lines).Reached p a)
    (passed : a.runPass (p + 1) = (none, a')) :
    ∃ w, Bound (p == 0) (definitions config lines) ⟨a.work.symbols, []⟩ w.bindings ∧
      Passed config a.records (a.work.startPass config (p + 1)) a'.records w ∧
      w.Retried a'.work ∧ (p ≠ 0 → a'.work = w.finishPass) := by
  obtain ⟨w, done, retried, later, _⟩ := runPass_none passed
  rw [h.config_eq] at done
  refine ⟨w, ?_, done, retried, fun hp => later (by omega)⟩
  have bound := done.bound (by rw [startPass_symbols]; exact h.worded)
  have first : (p + 1 == 1) = (p == 0) := by simp
  rw [startPass_pass, Work.bindings, startPass_symbols, startPass_defined, first] at bound
  rw [← h.definitions_eq letters passed]
  exact bound

theorem map_name_definitions (letters : LetterNames lines)
    (h : (new config lines).Reached (p + 1) a) :
    (definitions config lines).map Definition.name = definedNames lines := by
  obtain ⟨w, first⟩ := h.first_pass letters
  apply map_name_definitionsAt
  refine first.length_counters.trans ?_
  simp [new]

end Assembly

end Assembler65816
