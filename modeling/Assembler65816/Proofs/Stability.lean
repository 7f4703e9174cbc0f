import Assembler65816.Proofs.Layout

/-! # Stable values

When no name starts with a digit, a value that is known once stays. A known value is grounded: some
definition comes to it, read with values that are grounded in turn. A pass meets that definition
again, finds the values that it reads still in place, and binds the same value; another value of the
same name would contradict it and end the run.
-/
namespace Assembler65816

/-- A value with a reason. The environment holds the values that a definition was read with. -/
inductive Grounded (ds : List Definition) (t : SymbolTable) : Text → UInt32 → Prop where
  | intro {d : Definition} {word : UInt32} {env : Env} (mem : d ∈ ds)
      (read : Expression.eval env d.expression = .ok word) (address : env.address = d.pc)
      (present : ∀ m, env.lookup m ≠ none → t.lookup m ≠ none)
      (reasons : ∀ m v, env.lookup m = some (.known v) → Grounded ds t m v)
      (value : t.lookup d.name = some (.known word)) : Grounded ds t d.name word

theorem Grounded.known {ds : List Definition} {t : SymbolTable} {m : Text} {word : UInt32}
    (h : Grounded ds t m word) : t.lookup m = some (.known word) := by
  cases h with
  | intro _ _ _ _ _ value => exact value

theorem Grounded.mono {ds : List Definition} {t t' : SymbolTable} (names : ∀ m, t.lookup m ≠ none →
    t'.lookup m ≠ none) (kept : ∀ m v, t.lookup m = some (.known v) →
    t'.lookup m = some (.known v)) {m : Text} {word : UInt32} (h : Grounded ds t m word) :
    Grounded ds t' m word := by
  induction h with
  | intro mem read address present _ value ih =>
    exact .intro mem read address (fun m hm => names m (present m hm)) ih (kept _ _ value)

def Visits (firstPass : Bool) (ds : List Definition) (b₀ b₁ b : Bindings) : Prop :=
  ∃ pre post, ds = pre ++ post ∧ Bound firstPass pre b₀ b ∧ Bound firstPass post b b₁

section Visits

variable {firstPass : Bool} {ds : List Definition} {b₀ b₁ b : Bindings}

theorem Bound.visits_start (h : Bound firstPass ds b₀ b₁) : Visits firstPass ds b₀ b₁ b₀ :=
  ⟨[], ds, rfl, .nil _, h⟩

theorem Bound.visits_end (h : Bound firstPass ds b₀ b₁) : Visits firstPass ds b₀ b₁ b₁ :=
  ⟨ds, [], by simp, h, .nil _⟩

theorem Bound.visits_definition (h : Bound firstPass ds b₀ b₁) {d : Definition} (mem : d ∈ ds) :
    ∃ b rest, Visits firstPass ds b₀ b₁ b ∧ Bound firstPass (d :: rest) b b₁ := by
  obtain ⟨pre, post, split⟩ := List.append_of_mem mem
  rw [split] at h
  obtain ⟨b, left, right⟩ := h.append_inv
  exact ⟨b, post, ⟨pre, d :: post, split, left, right⟩, right⟩

/-- What holds at the start of a pass and is kept by each definition holds at its end. -/
theorem Bound.visits_induction {P : Bindings → Prop} (pass : Bound firstPass ds b₀ b₁)
    (start : P b₀)
    (step : ∀ d ∈ ds, ∀ b b', Visits firstPass ds b₀ b₁ b → Visits firstPass ds b₀ b₁ b' →
      b.Binds firstPass d b' → P b → P b') : P b₁ := by
  have onwards : ∀ {post : List Definition} {b b' : Bindings}, Bound firstPass post b b' →
      b' = b₁ → ∀ pre, ds = pre ++ post → Bound firstPass pre b₀ b → P b → P b₁ := by
    intro post b b' h last
    induction h with
    | nil =>
      subst last
      exact fun _ _ _ hb => hb
    | @cons d rest b b' b'' binds more ih =>
      intro pre split left hb
      have left' : Bound firstPass (pre ++ [d]) b₀ b' := left.append (.cons binds (.nil _))
      have visit : Visits firstPass ds b₀ b₁ b :=
        ⟨pre, d :: rest, split, left, last ▸ .cons binds more⟩
      have visit' : Visits firstPass ds b₀ b₁ b' :=
        ⟨pre ++ [d], rest, by simp [split], left', last ▸ more⟩
      refine ih last (pre ++ [d]) (by simp [split]) left' ?_
      exact step d (by simp [split]) b b' visit visit' binds hb
  exact onwards pass rfl [] rfl (.nil _) start

theorem Visits.present (h : Visits firstPass ds b₀ b₁ b) {m : Text}
    (hm : b₀.symbols.lookup m ≠ none) : b.symbols.lookup m ≠ none := by
  obtain ⟨pre, post, _, left, _⟩ := h
  exact (left.names m).mpr (Or.inl hm)

theorem Visits.present_end (h : Visits firstPass ds b₀ b₁ b) {m : Text}
    (hm : b.symbols.lookup m ≠ none) : b₁.symbols.lookup m ≠ none := by
  obtain ⟨pre, post, _, _, right⟩ := h
  exact (right.names m).mpr (Or.inl hm)

theorem Visits.named (h : Visits firstPass ds b₀ b₁ b) (hb : b₀.symbols.Named)
    (hd : ∀ d ∈ ds, isSymbolName d.name = true) : b.symbols.Named := by
  obtain ⟨pre, post, rfl, left, _⟩ := h
  exact left.named hb fun d mem => hd d (List.mem_append_left _ mem)

end Visits

structure SymbolTable.Sound (ds : List Definition) (t : SymbolTable) : Prop where
  origins : ∀ m s, t.find? m = some s → s.definition ∈ ds
  grounded : ∀ m word, t.lookup m = some (.known word) → Grounded ds t m word
  named : t.Named

section Pass

variable {firstPass : Bool} {ds : List Definition} {t : SymbolTable} {b₁ b : Bindings}

theorem Bound.grounded_kept (pass : Bound firstPass ds ⟨t, []⟩ b₁) (named : t.Named)
    (names : ∀ d ∈ ds, isSymbolName d.name = true) {m : Text} {word : UInt32}
    (h : Grounded ds t m word) :
    ∀ b, Visits firstPass ds ⟨t, []⟩ b₁ b → b.symbols.lookup m = some (.known word) := by
  induction h with
  | @intro d word env mem read address present reasons value ih =>
    -- Where the pass meets the definition, all that it reads is in place, so it binds the value.
    obtain ⟨here, rest, visit, bound⟩ := pass.visits_definition mem
    have env_extends : env.Extends (here.symbols.env d.pc) := by
      refine ⟨address.symm, fun m v hm => ih m v hm here visit, fun m hm => ?_, fun m _ => ?_⟩
      · exact visit.present (present m hm)
      · exact (visit.named named names).fresh m
    have again := bound.binds_read (Expression.eval_of_extends env_extends read)
    -- Any other value that the pass binds to the name would contradict this one.
    rintro b ⟨pre, post, _, left, right⟩
    refine left.known_kept value fun word' bound' => ?_
    exact known_inj (right.defined_kept bound') again

/-- What is known at some point of a pass that gets through is known at its end. -/
theorem Visits.known_end (visit : Visits firstPass ds ⟨t, []⟩ b₁ b)
    (pass : Bound firstPass ds ⟨t, []⟩ b₁) (sound : t.Sound ds)
    (names : ∀ d ∈ ds, isSymbolName d.name = true) {m : Text} {word : UInt32}
    (hm : b.symbols.lookup m = some (.known word)) : b₁.symbols.lookup m = some (.known word) := by
  obtain ⟨pre, post, _, left, right⟩ := visit
  rcases left.known_from hm with bound | before
  · exact pass.coherent_end m word (right.defined_kept bound)
  · exact pass.grounded_kept sound.named names (sound.grounded m word before) b₁ pass.visits_end

/-- The values that a pass binds are grounded, as they were read with grounded ones. -/
theorem Bound.grounded (pass : Bound firstPass ds ⟨t, []⟩ b₁) (sound : t.Sound ds)
    (names : ∀ d ∈ ds, isSymbolName d.name = true) {m : Text} {word : UInt32}
    (hm : b₁.symbols.lookup m = some (.known word)) : Grounded ds b₁.symbols m word := by
  refine pass.visits_induction (P := fun b => ∀ m word, b.symbols.lookup m = some (.known word) →
    Grounded ds b₁.symbols m word) ?_ ?_ m word hm
  · intro m word hm
    refine (sound.grounded m word hm).mono (fun m hm => pass.visits_start.present_end hm) ?_
    exact fun m v hm => pass.visits_start.known_end pass sound names hm
  · intro d mem b b' visit visit' binds grounded m word hm
    obtain ⟨value, reads, _, symbols, _⟩ := binds.lookups
    have known := visit'.known_end pass sound names hm
    rw [symbols m] at hm
    split at hm
    · next same =>
      subst same
      rcases Value.merge_known (Option.some.inj hm) with rfl | ⟨_, old⟩
      · have read := (reads word).mpr rfl
        exact .intro mem read rfl (fun m hm => visit.present_end hm) grounded known
      · exact grounded _ _ old
    · exact grounded m word hm

theorem Bound.sound (pass : Bound firstPass ds ⟨t, []⟩ b₁) (sound : t.Sound ds)
    (names : ∀ d ∈ ds, isSymbolName d.name = true) : b₁.symbols.Sound ds := by
  refine ⟨fun m s hs => ?_, fun m word hm => pass.grounded sound names hm,
    pass.named sound.named names⟩
  rcases pass.origins hs with before | later
  · exact sound.origins m s before
  · exact later

end Pass

/-- A sweep reads the definition of a symbol with the values of the table. -/
theorem SymbolTable.Swept.sound {ds : List Definition} {t t' : SymbolTable} (h : t.Swept t')
    (sound : t.Sound ds) : t'.Sound ds := by
  induction h with
  | refl => exact sound
  | @step t t' s word found waiting read more ih =>
    have swept : t.Swept (t.put { s with value := .known word }) :=
      .step found waiting read (.refl _)
    have mem : s.definition ∈ ds := sound.origins _ _ found
    refine ih ⟨fun m s' hs => ?_, fun m v hm => ?_, fun m hm => ?_⟩
    · rw [SymbolTable.find?_put] at hs
      split at hs
      · cases hs
        exact mem
      · exact sound.origins m s' hs
    · have kept : ∀ m v, t.lookup m = some (.known v) →
          Grounded ds (t.put { s with value := .known word }) m v := fun m v hm =>
        (sound.grounded m v hm).mono (fun m hm => (swept.names m).mpr hm)
          (fun _ _ hm => swept.known hm)
      have value := hm
      rw [SymbolTable.lookup_put] at hm
      split at hm
      · next same =>
        subst same
        cases hm
        exact .intro mem read rfl (fun m hm => (swept.names m).mpr hm) kept value
      · exact kept m v hm
    · exact sound.named m ((swept.names m).mp hm)

namespace Assembly

variable {config : Config} {lines : List SourceLine} {p q : Nat} {a a' b : Assembly}

theorem Reached.definitions_named (letters : LetterNames lines)
    (h : (new config lines).Reached (p + 1) a) :
    ∀ d ∈ definitions config lines, isSymbolName d.name = true := by
  intro d hd
  apply letters.isSymbolName
  rw [← map_name_definitions letters h]
  exact List.mem_map_of_mem hd

theorem Reached.sound (letters : LetterNames lines) (h : (new config lines).Reached p a) :
    a.work.symbols.Sound (definitions config lines) := by
  induction h with
  | start =>
    refine ⟨fun m s hs => ?_, fun m word hm => ?_, Reached.start.named letters⟩
    · cases hs
    · cases hm
  | pass before passed ih =>
    obtain ⟨w, bound, _, retried, _⟩ := before.bound letters passed
    have names := (Reached.pass before passed).definitions_named letters
    exact retried.swept.sound (bound.sound ih names)

/-- A pass keeps what was known before it, and what it came to know itself. -/
theorem Reached.known_step (letters : LetterNames lines) (h : (new config lines).Reached p a)
    (passed : a.runPass (p + 1) = (none, a')) {name : Text} {word : UInt32}
    (known : a.work.symbols.lookup name = some (.known word)) :
    a'.work.symbols.lookup name = some (.known word) := by
  obtain ⟨w, bound, _, retried, _⟩ := h.bound letters passed
  have names := (Reached.pass h passed).definitions_named letters
  exact retried.swept.known (bound.visits_start.known_end bound (h.sound letters) names known)

theorem Reached.unique (h : (new config lines).Reached p a)
    (h' : (new config lines).Reached p b) : a = b := by
  induction h generalizing b with
  | start =>
    cases h'
    rfl
  | pass before passed ih =>
    cases h' with
    | pass before' passed' =>
      obtain rfl := ih before'
      rw [passed] at passed'
      cases passed'
      rfl

theorem Reached.known_stays (letters : LetterNames lines) (h : (new config lines).Reached p a)
    (h' : (new config lines).Reached q b) (le : p ≤ q) {name : Text} {word : UInt32}
    (known : a.work.symbols.lookup name = some (.known word)) :
    b.work.symbols.lookup name = some (.known word) := by
  induction h' with
  | start =>
    obtain rfl : p = 0 := by omega
    cases h
    exact known
  | @pass q b b' before passed ih =>
    by_cases same : p = q + 1
    · subst same
      rw [← h.unique (Reached.pass before passed)]
      exact known
    · exact before.known_step letters passed (ih (by omega))

theorem Reached.next (h : (new config lines).Reached p a) (h' : (new config lines).Reached q b)
    (lt : p < q) : ∃ a', a.runPass (p + 1) = (none, a') := by
  induction h' with
  | start => omega
  | @pass q b b' before passed ih =>
    by_cases same : p = q
    · subst same
      obtain rfl := h.unique before
      exact ⟨b', passed⟩
    · exact ih (by omega)

def afterLines (a : Assembly) (pass : Nat) : Work :=
  (Work.runLines a.config a.records (a.work.startPass a.config pass)).2.2

theorem Reached.known_after_lines (letters : LetterNames lines)
    (h : (new config lines).Reached p a) (h' : (new config lines).Reached q b) (lt : p + 1 < q)
    {name : Text} {word : UInt32}
    (known : (a.afterLines (p + 1)).symbols.lookup name = some (.known word)) :
    b.work.symbols.lookup name = some (.known word) := by
  obtain ⟨a', passed⟩ := h.next h' (by omega)
  obtain ⟨w, done, retried, _⟩ := runPass_none passed
  have same : a.afterLines (p + 1) = w := by rw [afterLines, done.runLines]
  rw [same] at known
  exact (Reached.pass h passed).known_stays letters h' (by omega) (retried.swept.known known)

theorem Reached.counter_eq (letters : LetterNames lines) (h : (new config lines).Reached p a)
    {i : Nat} {c : Option UInt32} (hc : (a.counters (p + 1))[i]? = some c) :
    ((new config lines).counters 1)[i]? = some c := by
  obtain ⟨rest, split⟩ := h.counters_prefix letters
  obtain ⟨inside, _⟩ := List.getElem?_eq_some_iff.mp hc
  rw [← split, List.getElem?_append_left inside]
  exact hc

/-- Layout and values are stable. When every defined name starts with a letter or an underscore,
two passes have the same location counter in front of each line that both reach, and a value that is
known at the end of a pass, before or after the sweep, is known at the end of each later one. -/
theorem layout_and_values_stable (letters : LetterNames lines)
    (first : (new config lines).Reached p a) (second : (new config lines).Reached q b) :
    (∀ (i : Nat) (c c' : Option UInt32), (a.counters (p + 1))[i]? = some c →
      (b.counters (q + 1))[i]? = some c' → c = c') ∧
    (p < q → ∀ name word, a.work.symbols.lookup name = some (.known word) →
      b.work.symbols.lookup name = some (.known word)) ∧
    (p + 1 < q → ∀ name word, (a.afterLines (p + 1)).symbols.lookup name = some (.known word) →
      b.work.symbols.lookup name = some (.known word)) := by
  refine ⟨fun i c c' hc hc' => ?_, fun lt name word known => ?_, fun lt name word known => ?_⟩
  · have same := first.counter_eq letters hc
    rw [second.counter_eq letters hc'] at same
    exact (Option.some.inj same).symm
  · exact first.known_stays letters second (by omega) known
  · exact first.known_after_lines letters second lt known

/-- A chain of equates that waits for a label behind an operand of guessed width. -/
def chainSource : List SourceLine :=
  SourceLine.ofText "chain.asm" (" org $80\na equ b+1\nb equ tail\n lda tail\ntail: nop\n".toList)

theorem layout_and_values_stable_chain :
    ∃ a b, (new { romSize := 16 } chainSource).Reached 1 a ∧
      (new { romSize := 16 } chainSource).Reached 2 b ∧
      a.work.symbols.lookup ['a'] = some (.known 0x84) ∧
      b.work.symbols.lookup ['a'] = some (.known 0x84) ∧
      ∀ (i : Nat) (c c' : Option UInt32), (a.counters 2)[i]? = some c →
        (b.counters 3)[i]? = some c' → c = c' := by
  have letters : LetterNames chainSource := by
    unfold LetterNames
    decide +kernel
  have first : ((new { romSize := 16 } chainSource).runPass 1).1 = none := by decide +kernel
  have second : (((new { romSize := 16 } chainSource).runPass 1).2.runPass 2).1 = none := by
    decide +kernel
  have known : ((new { romSize := 16 } chainSource).runPass 1).2.work.symbols.lookup ['a'] =
      some (.known 0x84) := by decide +kernel
  rcases run : (new { romSize := 16 } chainSource).runPass 1 with ⟨ending, a⟩
  rw [run] at first second known
  obtain rfl : ending = none := first
  rcases run' : a.runPass 2 with ⟨ending', b⟩
  rw [run'] at second
  obtain rfl : ending' = none := second
  have reached : (new { romSize := 16 } chainSource).Reached 1 a := .pass .start run
  have reached' : (new { romSize := 16 } chainSource).Reached 2 b := .pass reached run'
  obtain ⟨counters, values, _⟩ := layout_and_values_stable letters reached reached'
  exact ⟨a, b, reached, reached', known, values (by omega) _ _ known, counters⟩

end Assembly

end Assembler65816
