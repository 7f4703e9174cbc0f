import Assembler65816.Proofs.Location

/-! # Symbols that are blamed

A run that uses up its passes may blame a symbol. From the second pass on the table has an entry for
every name that the lines define, so a name that the last pass missed is defined nowhere, and the
failure names a line that missed it. Where nothing was missed, the symbol that is blamed has an
entry without a value. Labels always have one, so such a symbol comes from equates alone.
-/
namespace Assembler65816

/-- With its labels bound, the statement of a line looks up a name that has no entry. -/
inductive Misses (place : SourceLine) (w : Work) (name : Text) : Prop where
  | intro {labelled : Work} {result : Except Fault Outcome} {trace : Trace}
      (labels : ((ParsedLine.ofText place.text).labels.forM (Step.defineLabel place)).run w =
        (.ok (), labelled))
      (read : ((ParsedLine.ofText place.text).statement.outcome labelled.env
        labelled.widths).run { hint := labelled.hint } = (result, trace))
      (missed : name ∈ trace.missed)

section Lines

variable {config : Config} {place : SourceLine} {w w' : Work} {m name : Text}

theorem mem_forward_of_runLine (h : (Step.runLine config place).run w = (.ok (), w'))
    (ref : ForwardRef) :
    ref ∈ w'.forward ↔ ref ∈ w.forward ∨ place = ref.place ∧ Misses place w ref.name := by
  obtain ⟨_, labelled, labels, statement⟩ := run_bind_ok h
  obtain ⟨outcome, trace, read, performed⟩ := Step.runStatement_run_ok statement
  have bound : Labelled config _ w labelled := Step.labels_run_ok labels
  rw [performed.frame.2.2, takeTrace_forward, bound.frame.forward, List.mem_append, List.mem_map]
  refine or_congr_right ?_
  constructor
  · rintro ⟨name, missed, rfl⟩
    exact ⟨rfl, .intro labels read missed⟩
  · rintro ⟨rfl, misses⟩
    obtain ⟨labels', read', missed⟩ := misses
    rw [labels] at labels'
    cases labels'
    rw [read] at read'
    cases read'
    exact ⟨ref.name, missed, rfl⟩

/-- A pass that gets through notes what each line misses where the pass comes to it. -/
theorem Passed.mem_forward {records records' : List Record}
    (h : Passed config records w records' w') (ref : ForwardRef) :
    ref ∈ w'.forward ↔ ref ∈ w.forward ∨ ∃ r v, Meets config records w r v ∧
      r.source = ref.place ∧ Misses r.source v ref.name := by
  induction h with
  | nil =>
    constructor
    · exact Or.inl
    · rintro (before | ⟨_, _, met, _⟩)
      · exact before
      · cases met
  | @cons r rest rest' w w₁ w₂ line more ih =>
    rw [ih, mem_forward_of_runLine line, or_assoc]
    refine or_congr_right ?_
    constructor
    · rintro (⟨here, misses⟩ | ⟨r', v, met, there, misses⟩)
      · exact ⟨r, _, .here r rest w, here, misses⟩
      · exact ⟨r', v, .later line met, there, misses⟩
    · rintro ⟨r', v, met, there, misses⟩
      cases met with
      | here => exact Or.inl ⟨there, misses⟩
      | later line' met =>
        rw [line] at line'
        cases line'
        exact Or.inr ⟨r', v, met, there, misses⟩

theorem Performed.known {outcome : Outcome} (h : Performed config w outcome w')
    (known : ∃ word, w.symbols.lookup m = some (.known word)) :
    ∃ word, w'.symbols.lookup m = some (.known word) := by
  cases h with
  | nothing | firstOrigin | origin | bytes | widths => exact known
  | @binding name _ value _ _ _ bound =>
    rw [SymbolTable.lookup_define bound]
    split
    · next same =>
      obtain ⟨word, known⟩ := known
      subst same
      rw [known]
      cases value with
      | known new => exact ⟨new, rfl⟩
      | unresolved => exact ⟨word, rfl⟩
    · exact known

theorem Misses.absent (h : Misses place w name) : w.symbols.lookup name = none := by
  obtain @⟨labelled, result, trace, labels, read, missed⟩ := h
  have absent := (ParsedLine.outcome_follows (Env.Extends.refl labelled.env) labelled.widths
    place.text).absent { hint := labelled.hint } name
  rw [read] at absent
  by_contra present
  have bound : Labelled {} _ w labelled := Step.labels_run_ok labels
  have still : labelled.symbols.lookup name ≠ none :=
    bound.preserves (I := fun v => v.symbols.lookup name ≠ none)
      (fun _ _ _ hv performed => performed.present hv) present
  rcases absent missed with impossible | none
  · cases impossible
  · exact still none

theorem Meets.present {records : List Record} {r : Record} (h : Meets config records w r w')
    (present : w.symbols.lookup m ≠ none) : w'.symbols.lookup m ≠ none := by
  apply h.preserves (I := fun v => v.symbols.lookup m ≠ none) (fun _ _ hv => hv) _ _ present
  · intro v place trace hv
    rw [takeTrace_symbols]
    exact hv
  · intro v outcome v' hv performed
    exact performed.present hv

theorem Labelled.known {names : List Text} (h : Labelled config names w w') (mem : m ∈ names) :
    ∃ word, w'.symbols.lookup m = some (.known word) := by
  induction h with
  | nil => cases mem
  | @cons name rest w w₁ w₂ pc placed bound more ih =>
    rcases List.mem_cons.mp mem with rfl | later
    · apply more.preserves (I := fun v => ∃ word, v.symbols.lookup m = some (.known word))
        (fun _ _ _ hv performed => performed.known hv)
      cases bound with
      | binding _ bound =>
        refine ⟨pc, ?_⟩
        rw [SymbolTable.lookup_define bound, if_pos rfl]
        simp [Value.merge]
    · exact ih later

theorem CarriedOut.label_known (h : CarriedOut config place w w')
    (mem : m ∈ (ParsedLine.ofText place.text).labels) :
    ∃ word, w'.symbols.lookup m = some (.known word) := by
  obtain ⟨labels, _, performed⟩ := h
  apply performed.known
  rw [takeTrace_symbols]
  exact labels.known mem

theorem Passed.known {records records' : List Record} (h : Passed config records w records' w')
    (known : ∃ word, w.symbols.lookup m = some (.known word)) :
    ∃ word, w'.symbols.lookup m = some (.known word) := by
  apply h.preserves (I := fun v => ∃ word, v.symbols.lookup m = some (.known word))
    (fun _ _ hv => hv) _ _ known
  · intro v place trace hv
    rw [takeTrace_symbols]
    exact hv
  · intro v outcome v' hv performed
    exact performed.known hv

theorem Passed.label_known {records records' : List Record}
    (h : Passed config records w records' w') {r : Record} (met : r ∈ records)
    (mem : m ∈ (ParsedLine.ofText r.source.text).labels) :
    ∃ word, w'.symbols.lookup m = some (.known word) := by
  induction h with
  | nil => cases met
  | cons line more ih =>
    rcases List.mem_cons.mp met with rfl | later
    · exact more.known ((Step.runLine_run_ok line).label_known mem)
    · exact ih later

end Lines

/-- A line that defines a name without having it as a label is an equate of the name. -/
theorem ParsedLine.equate_of_mem_names {line : ParsedLine} {name : Text} (mem : name ∈ line.names)
    (other : name ∉ line.labels) : ∃ expression, line.statement = .equate name expression := by
  rcases List.mem_append.mp mem with label | equate
  · exact absurd label other
  · split at equate
    · next word expression statement =>
      obtain rfl := List.mem_singleton.mp equate
      exact ⟨expression, statement⟩
    · cases equate

/-- A run that has used up its passes blames the first name that was missed, or else the first
symbol without a value. -/
theorem Work.exhaustion_unknown {config : Config} {w : Work}
    (h : (w.exhaustion config).problem.kind = .unknownSymbol) :
    (∃ ref rest, w.forward = ref :: rest ∧
      w.exhaustion config = ⟨(Fault.unresolvedSymbol ref.name).problem,
        [ref.place.diagnostic .error (Fault.unresolvedSymbol ref.name).problem]⟩) ∨
    (w.forward = [] ∧ ∃ name rest, w.symbols.unresolvedNames = name :: rest ∧
      w.exhaustion config = ⟨(Fault.unresolvedSymbol name).problem, []⟩) := by
  unfold Work.exhaustion at h ⊢
  split
  · next ref rest forward => exact Or.inl ⟨ref, rest, forward, rfl⟩
  · next name rest forward names => exact Or.inr ⟨forward, name, rest, names, rfl⟩
  · next forward names =>
    rw [forward, names] at h
    dsimp only at h
    rw [Fault.kind_problem] at h
    cases h

theorem SymbolTable.Ordered.least {t : SymbolTable} (ordered : t.Ordered) {name : Text}
    {rest : List Text} (names : t.unresolvedNames = name :: rest) :
    t.lookup name = some .unresolved ∧
      ∀ m, t.lookup m = some .unresolved → m = name ∨ name.utf8 < m.utf8 := by
  constructor
  · apply ordered.mem_unresolvedNames.mp
    rw [names]
    exact List.mem_cons_self
  · intro m waits
    have mem := ordered.mem_unresolvedNames.mpr waits
    have ascending := ordered.describes.unresolvedNames_ascending
    rw [names] at mem
    rw [names, List.map_cons, List.pairwise_cons] at ascending
    rcases List.mem_cons.mp mem with same | later
    · exact Or.inl same
    · exact Or.inr (ascending.1 _ (List.mem_map_of_mem later))

namespace Assembly

/-- In its pass of the given number an assembly comes to a line that misses a name. -/
def MissesIn (a : Assembly) (pass : Nat) (place : SourceLine) (name : Text) : Prop :=
  ∃ r v, Meets a.config a.records (a.work.startPass a.config pass) r v ∧ r.source = place ∧
    Misses r.source v name

variable {config : Config} {lines : List SourceLine} {p : Nat} {a a' b : Assembly}

theorem mem_forward_of_runPass (h : a.runPass p = (none, a')) (ref : ForwardRef) :
    ref ∈ a'.work.forward ↔ a.MissesIn p ref.place ref.name := by
  obtain ⟨w, passed, retried, _⟩ := runPass_none h
  rw [retried.frame]
  refine (passed.mem_forward ref).trans ?_
  rw [startPass_forward]
  exact ⟨fun h => h.resolve_left List.not_mem_nil, Or.inr⟩

theorem Reached.undefined_of_missesIn (h : (new config lines).Reached (p + 1) a)
    {place : SourceLine} {name : Text} (misses : a.MissesIn (p + 2) place name) :
    place ∈ lines ∧ name ∉ definedNames lines := by
  obtain ⟨r, v, met, rfl, missed⟩ := misses
  refine ⟨h.mem_lines met.mem, fun mem => ?_⟩
  have present := (h.names name).mpr ⟨by omega, mem⟩
  rw [← startPass_symbols a.config (p + 2)] at present
  exact met.present present missed.absent

theorem Reached.equates_of_unresolved (h : (new config lines).Reached (p + 1) a) {name : Text}
    (waits : a.work.symbols.lookup name = some .unresolved) :
    (∃ line ∈ lines, ∃ expression,
      (ParsedLine.ofText line.text).statement = .equate name expression) ∧
    ∀ line ∈ lines, name ∉ (ParsedLine.ofText line.text).labels := by
  have other : ∀ line ∈ lines, name ∉ (ParsedLine.ofText line.text).labels := by
    intro line mem label
    cases h with
    | pass before passed =>
      obtain ⟨w, done, retried, _⟩ := runPass_none passed
      rw [← before.sources_eq] at mem
      obtain ⟨r, met, rfl⟩ := List.mem_map.mp mem
      obtain ⟨word, known⟩ := done.label_known met label
      rw [retried.swept.known known] at waits
      cases waits
  obtain ⟨_, defined⟩ := (h.names name).mp (by rw [waits]; simp)
  obtain ⟨line, mem, names⟩ := List.mem_flatMap.mp defined
  exact ⟨⟨line, mem, ParsedLine.equate_of_mem_names names (other line mem)⟩, other⟩

/-- The failure points at a line that missed the name in the given pass, and no line defines it. -/
structure BlamesMissed (a : Assembly) (lines : List SourceLine) (pass : Nat) (name : Text)
    (failure : Failure) : Prop where
  pointed : ∃ place ∈ lines, failure.diagnostics = [place.diagnostic .error failure.problem] ∧
    a.MissesIn pass place name
  undefined : name ∉ definedNames lines

/-- The failure points at no line, as no line missed any name in the given pass. The name is the
least one without a value in the table, and only equates define it. -/
structure BlamesWaiting (a : Assembly) (lines : List SourceLine) (pass : Nat) (name : Text)
    (failure : Failure) (table : SymbolTable) : Prop where
  bare : failure.diagnostics = []
  clear : ∀ place m, ¬ a.MissesIn pass place m
  equate : ∃ line ∈ lines, ∃ expression,
    (ParsedLine.ofText line.text).statement = .equate name expression
  unlabelled : ∀ line ∈ lines, name ∉ (ParsedLine.ofText line.text).labels
  waits : table.lookup name = some .unresolved
  least : ∀ m, table.lookup m = some .unresolved → m = name ∨ name.utf8 < m.utf8

/-- Blame. A run that fails over an unknown symbol has run all its passes, and it blames a name that
the last of them missed and no line defines, or one that equates define and leave waiting. -/
theorem unknown_symbol_blamed {failure : Failure}
    (failed : (new config lines).run = (.failed failure, b))
    (kind : failure.problem.kind = .unknownSymbol) :
    ∃ p a a' name, config.maxPasses.toNat = p + 1 ∧ (new config lines).Reached p a ∧
      a.runPass (p + 1) = (none, a') ∧ b.work.pass = p + 1 ∧
      failure.problem = (Fault.unresolvedSymbol name).problem ∧
      (a.BlamesMissed lines (p + 1) name failure ∨
        a.BlamesWaiting lines (p + 1) name failure b.work.symbols) := by
  rcases run_new_cases failed with ⟨cause, _, ending⟩ | ⟨valid, done | ⟨_, _, _, ended⟩ | last⟩
  · cases ending
    cases cause <;> cases kind
  · obtain ⟨_, _, _, _, ending, _⟩ := done
    cases ending
  · exact absurd kind (runPass_plain ended).1
  · obtain ⟨c, reached, _, gave⟩ := last
    rcases giveUp_cases gave with ⟨ending, _⟩ | ⟨ending, retried⟩
    · cases ending
    · obtain ⟨q, passes⟩ := Nat.exists_eq_add_of_le' (two_le_maxPasses valid)
      cases ending
      rw [passes] at reached
      have pass : b.work.pass = q + 2 := by
        rw [retried.frame]
        exact reached.pass_eq
      have all := reached
      cases reached with
      | @pass _ a _ before passed =>
        have forward : b.work.forward = c.work.forward := by rw [retried.frame]
        rcases Work.exhaustion_unknown kind with ⟨ref, rest, some, told⟩ | open_end
        · have misses : a.MissesIn (q + 2) ref.place ref.name := by
            apply (mem_forward_of_runPass passed ref).mp
            rw [← forward, some]
            exact List.mem_cons_self
          obtain ⟨mem, undefined⟩ := before.undefined_of_missesIn misses
          rw [told]
          exact ⟨q + 1, a, c, ref.name, passes, before, passed, pass, rfl,
            Or.inl ⟨⟨ref.place, mem, rfl, misses⟩, undefined⟩⟩
        · obtain ⟨none, name, rest, names, told⟩ := open_end
          have clear : ∀ place m, ¬ a.MissesIn (q + 2) place m := by
            intro place m misses
            have noted := (mem_forward_of_runPass passed ⟨m, place⟩).mpr misses
            rw [← forward, none] at noted
            cases noted
          have least := (retried.swept.ordered all.ordered).least names
          obtain ⟨equate, other⟩ :=
            all.equates_of_unresolved (retried.swept.unresolved least.1)
          rw [told]
          exact ⟨q + 1, a, c, name, passes, before, passed, pass, rfl,
            Or.inr ⟨rfl, clear, equate, other, least.1, least.2⟩⟩

def nowhereSource : List SourceLine :=
  SourceLine.ofText "nowhere.asm" " org $80\n lda later\n lda nowhere\nlater: nop\n".toList

theorem unknown_symbol_blamed_nowhere : ∃ failure b,
    (new { romSize := 16 } nowhereSource).run = (.failed failure, b) ∧
    failure.problem.kind = .unknownSymbol ∧
    ∃ p a a' name, 7 = p + 1 ∧ (new { romSize := 16 } nowhereSource).Reached p a ∧
      a.runPass (p + 1) = (none, a') ∧ b.work.pass = p + 1 ∧
      failure.problem = (Fault.unresolvedSymbol name).problem ∧
      (a.BlamesMissed nowhereSource (p + 1) name failure ∨
        a.BlamesWaiting nowhereSource (p + 1) name failure b.work.symbols) := by
  have ends : (match (new { romSize := 16 } nowhereSource).run.1 with
      | .failed failure => decide (failure.problem.kind = .unknownSymbol)
      | _ => false) = true := by decide +kernel
  rcases run : (new { romSize := 16 } nowhereSource).run with ⟨ending, b⟩
  rw [run] at ends
  cases ending with
  | failed failure =>
    have kind : failure.problem.kind = .unknownSymbol := by simpa using ends
    exact ⟨failure, b, rfl, kind, unknown_symbol_blamed run kind⟩
  | done => cases ends
  | crashed => cases ends

/-- Two equates that wait for each other: the lesser name is blamed, and no line. -/
example : (new { romSize := 16 } (SourceLine.ofText "ring.asm" "b equ a\na equ b\n".toList)).run.1 =
    .failed ⟨(Fault.unresolvedSymbol ['a']).problem, []⟩ := by
  decide +kernel

end Assembly

end Assembler65816
