import Assembler65816.Proofs.Table

/-! # Tables in two partitions

The symbols of a table can be kept in two maps, one for those with a value and one for those
without. A name that gets a value is taken out of the one and put into the other, and nothing but
the operations themselves keeps it from being in both. Whatever calls are made, the two maps hold
the partitions of one table, each symbol under its own name, and every observer sees that table.
-/
namespace Assembler65816

structure Partitions where
  resolved : Std.TreeMap Text Symbol := ∅
  unresolved : Std.TreeMap Text Symbol := ∅

namespace Partitions

def find? (p : Partitions) (name : Text) : Option Symbol := p.resolved[name]?.or p.unresolved[name]?

def lookup (p : Partitions) (name : Text) : Option Value := (p.find? name).map Symbol.value

def contains (p : Partitions) (name : Text) : Bool :=
  p.resolved.contains name || p.unresolved.contains name

def unresolvedNames (p : Partitions) : List Text := p.unresolved.keys

def resolvedCount (p : Partitions) : Nat := p.resolved.size

def unresolvedCount (p : Partitions) : Nat := p.unresolved.size

def symbols (p : Partitions) : List Symbol :=
  (p.resolved.toList.map Prod.snd ++ p.unresolved.toList.map Prod.snd).mergeSort
    fun e e' => ¬e'.name < e.name

def table (p : Partitions) : SymbolTable := ⟨p.symbols⟩

def define (p : Partitions) (s : Symbol) (firstPass : Bool) : SymbolTable.Answer × Partitions :=
  match p.resolved[s.name]?, s.value with
  | some _, .unresolved => (.bound, p)
  | some old, .known word =>
    if old.value = .known word then (.bound, p)
    else if firstPass then (.duplicate, p)
    else
      let new := { old with value := .known word, expression := s.expression, pc := s.pc }
      (.bound, { p with resolved := p.resolved.insert s.name new })
  | none, .known _ =>
    (.bound, ⟨p.resolved.insert s.name s, p.unresolved.erase s.name⟩)
  | none, .unresolved => (.bound, { p with unresolved := p.unresolved.insert s.name s })

/-- Evaluates the stored expression of a name without a value, and moves it if it has one now. -/
def attempt (read : Symbol → Partitions → Expression.Reading) (p : Partitions) (name : Text) :
    Attempt × Partitions :=
  if p.resolved.contains name then (.stable, p)
  else
    match p.unresolved[name]? with
    | none => (.waiting none, p)
    | some s =>
      match read s p with
      | .ok word =>
        (.advanced,
          ⟨p.resolved.insert name { s with value := .known word }, p.unresolved.erase name⟩)
      | .error (.missing on) => (.waiting (some on), p)
      | .error .pending => (.waiting none, p)
      | .error (.fault cause) => (.refused cause, p)

def run (p : Partitions) : SymbolTable.Call → SymbolTable.Answer × Partitions
  | .define s firstPass => p.define s firstPass
  | .resolve name read =>
    let (attempt, p') := p.attempt (fun s p => read s p.table) name
    (.tried attempt, p')

def after (p : Partitions) (calls : List SymbolTable.Call) : Partitions :=
  calls.foldl (fun p call => (p.run call).2) p

structure Holds (p : Partitions) (t : SymbolTable) : Prop where
  resolved : ∀ name, p.resolved[name]? = (t.find? name).filter fun s => s.value.isKnown
  unresolved : ∀ name, p.unresolved[name]? = (t.find? name).filter fun s => !s.value.isKnown

theorem lt_of_compare {a b : Text} (h : compare a b = .lt) : a < b := by
  induction a generalizing b with
  | nil =>
    cases b with
    | nil => cases h
    | cons d rest => exact List.Lex.nil
  | cons c front ih =>
    cases b with
    | nil => cases h
    | cons d rest =>
      rw [List.compare_eq_compareLex, List.compareLex_cons_cons, Ordering.then_eq_lt] at h
      rcases h with less | ⟨same, more⟩
      · exact List.Lex.rel (compareOfLessAndEq_eq_lt.mp less)
      · obtain rfl := Std.LawfulEqCmp.eq_of_compare same
        exact List.Lex.cons (ih more)

section Map

variable {m : Std.TreeMap Text Symbol} {t : SymbolTable}

theorem getElem?_insert (name key : Text) (s : Symbol) :
    (m.insert name s)[key]? = if name = key then some s else m[key]? := by
  simp [Std.TreeMap.getElem?_insert]

theorem getElem?_erase (name key : Text) :
    (m.erase name)[key]? = if name = key then none else m[key]? := by
  simp [Std.TreeMap.getElem?_erase]

/-- Where a map answers like a table, its entries are those of the table. -/
theorem values_eq (ordered : t.Ordered) (same : ∀ name, m[name]? = t.find? name) :
    m.toList.map Prod.snd = t.entries := by
  have own : ∀ e ∈ m.toList, e.2.name = e.1 := by
    intro e mem
    have found := Std.TreeMap.mem_toList_iff_getElem?_eq_some.mp mem
    rw [same] at found
    exact SymbolTable.find?_name found
  have ascending : SymbolTable.Ordered ⟨m.toList.map Prod.snd⟩ := by
    apply List.pairwise_map.mpr
    apply Std.TreeMap.ordered_keys_toList.imp_of_mem
    intro e e' mem mem' less
    rw [own e mem, own e' mem']
    exact lt_of_compare less
  have table : (⟨m.toList.map Prod.snd⟩ : SymbolTable) = t := by
    apply ascending.ext_mem ordered
    intro s
    rw [ordered.mem_iff, ← same, ← Std.TreeMap.mem_toList_iff_getElem?_eq_some, List.mem_map]
    constructor
    · rintro ⟨e, mem, rfl⟩
      rw [own e mem]
      exact mem
    · intro mem
      exact ⟨_, mem, rfl⟩
  exact congrArg SymbolTable.entries table

theorem keys_eq (ordered : t.Ordered) (same : ∀ name, m[name]? = t.find? name) :
    m.keys = t.entries.map Symbol.name := by
  rw [← values_eq ordered same, List.map_map, ← Std.TreeMap.map_fst_toList_eq_keys]
  apply List.map_congr_left
  intro e mem
  have found := Std.TreeMap.mem_toList_iff_getElem?_eq_some.mp mem
  rw [same] at found
  exact (SymbolTable.find?_name found).symm

theorem size_eq (ordered : t.Ordered) (same : ∀ name, m[name]? = t.find? name) :
    m.size = t.entries.length := by
  rw [← values_eq ordered same, List.length_map, Std.TreeMap.length_toList]

end Map

section Holds

variable {p : Partitions} {t : SymbolTable} (h : p.Holds t)

include h

theorem Holds.find?_eq (name : Text) : p.find? name = t.find? name := by
  rw [find?, h.resolved, h.unresolved]
  cases t.find? name with
  | none => rfl
  | some s => cases known : s.value.isKnown <;> simp [Option.filter, known]

theorem Holds.lookup_eq (name : Text) : p.lookup name = t.lookup name := by
  rw [Partitions.lookup, SymbolTable.lookup, h.find?_eq]

theorem Holds.contains_eq (name : Text) : p.contains name = t.contains name := by
  rw [contains, Std.TreeMap.contains_eq_isSome_getElem?, Std.TreeMap.contains_eq_isSome_getElem?,
    ← Option.isSome_or]
  exact congrArg Option.isSome (h.find?_eq name)

theorem Holds.resolved_iff {name : Text} {s : Symbol} : p.resolved[name]? = some s ↔
    t.find? name = some s ∧ ∃ word, s.value = .known word := by
  rw [h.resolved, Option.filter_eq_some_iff, SymbolTable.isKnown_iff]

theorem Holds.unresolved_iff {name : Text} {s : Symbol} : p.unresolved[name]? = some s ↔
    t.find? name = some s ∧ s.value = .unresolved := by
  rw [h.unresolved, Option.filter_eq_some_iff, Bool.not_eq_true', SymbolTable.isKnown_eq_false]

theorem Holds.mem_resolved {name : Text} :
    name ∈ p.resolved ↔ ∃ word, t.lookup name = some (.known word) := by
  rw [Std.TreeMap.mem_iff_isSome_getElem?, Option.isSome_iff_exists]
  constructor
  · rintro ⟨s, present⟩
    obtain ⟨found, word, known⟩ := h.resolved_iff.mp present
    exact ⟨word, Option.map_eq_some_iff.mpr ⟨s, found, known⟩⟩
  · rintro ⟨word, known⟩
    obtain ⟨s, found, value⟩ := Option.map_eq_some_iff.mp known
    exact ⟨s, h.resolved_iff.mpr ⟨found, word, value⟩⟩

theorem Holds.apart (name : Text) : ¬(name ∈ p.resolved ∧ name ∈ p.unresolved) := by
  rintro ⟨resolved, unresolved⟩
  obtain ⟨word, known⟩ := h.mem_resolved.mp resolved
  rw [Std.TreeMap.mem_iff_isSome_getElem?, Option.isSome_iff_exists] at unresolved
  obtain ⟨s, present⟩ := unresolved
  obtain ⟨found, waiting⟩ := h.unresolved_iff.mp present
  rw [SymbolTable.lookup, found, Option.map_some, waiting] at known
  cases known

variable (ordered : t.Ordered)

include ordered

theorem Holds.resolved_view (name : Text) : p.resolved[name]? = t.resolved.find? name := by
  rw [h.resolved]
  exact (ordered.find?_filter _ name).symm

theorem Holds.unresolved_view (name : Text) : p.unresolved[name]? = t.unresolved.find? name := by
  rw [h.unresolved]
  exact (ordered.find?_filter _ name).symm

theorem Holds.symbols_eq : p.symbols = t.entries := by
  have sorted : p.symbols.Pairwise fun e e' => ¬e'.name < e.name := by
    apply (List.pairwise_mergeSort _ _ _).imp (fun below => of_decide_eq_true below)
    · intro a b c ab bc
      have ab := List.not_lt.mp (of_decide_eq_true ab)
      have bc := List.not_lt.mp (of_decide_eq_true bc)
      exact decide_eq_true (List.not_lt.mpr (List.le_trans ab bc))
    · intro a b
      rw [Bool.or_eq_true, decide_eq_true_iff, decide_eq_true_iff, ← not_and_or]
      exact fun both => List.lt_asymm both.1 both.2
  have perm : p.symbols.Perm t.entries := by
    refine (List.mergeSort_perm _ _).trans ?_
    rw [values_eq (ordered.filter _) (h.resolved_view ordered),
      values_eq (ordered.filter _) (h.unresolved_view ordered)]
    exact List.filter_append_perm _ _
  apply perm.eq_of_pairwise _ sorted (ordered.imp List.lt_asymm)
  intro e e' mem mem' below above
  have same := List.le_antisymm (List.not_lt.mp below) (List.not_lt.mp above)
  have found := ordered.mem_iff.mp (perm.mem_iff.mp mem)
  rw [same, ordered.mem_iff.mp mem'] at found
  exact (Option.some.inj found).symm

end Holds

section Moves

variable {p : Partitions} {t : SymbolTable} {s : Symbol} (h : p.Holds t)

include h

/-- A symbol with a value goes into the one map and leaves the other. -/
theorem Holds.resolve (known : s.value.isKnown = true) :
    Holds ⟨p.resolved.insert s.name s, p.unresolved.erase s.name⟩ (t.put s) := by
  constructor
  · intro name
    rw [getElem?_insert, SymbolTable.find?_put, h.resolved]
    split
    · simp [Option.filter, known]
    · rfl
  · intro name
    rw [getElem?_erase, SymbolTable.find?_put, h.unresolved]
    split
    · simp [Option.filter, known]
    · rfl

/-- A symbol without a value leaves the other map alone, where its name is not. -/
theorem Holds.defer (waiting : s.value.isKnown = false) (absent : p.resolved[s.name]? = none) :
    Holds { p with unresolved := p.unresolved.insert s.name s } (t.put s) := by
  constructor
  · intro name
    rw [SymbolTable.find?_put]
    split
    · next same =>
      rw [← same, absent]
      simp [Option.filter, waiting]
    · exact h.resolved name
  · intro name
    rw [getElem?_insert, SymbolTable.find?_put, h.unresolved]
    split
    · simp [Option.filter, waiting]
    · rfl

theorem Holds.replace {old : Symbol} (known : s.value.isKnown = true)
    (present : p.resolved[s.name]? = some old) :
    Holds { p with resolved := p.resolved.insert s.name s } (t.put s) := by
  constructor
  · intro name
    rw [getElem?_insert, SymbolTable.find?_put, h.resolved]
    split
    · simp [Option.filter, known]
    · rfl
  · intro name
    rw [SymbolTable.find?_put]
    split
    · next same =>
      obtain ⟨found, was⟩ := h.resolved_iff.mp present
      rw [← same, h.unresolved, found]
      simp [Option.filter, known, SymbolTable.isKnown_iff.mpr was]
    · exact h.unresolved name

omit h in
theorem define_of_not_known {firstPass : Bool}
    (unknown : ∀ word, t.lookup s.name ≠ some (.known word)) :
    t.define s firstPass = some (t.put s) := by
  unfold SymbolTable.define
  split
  · next old known _ => exact absurd known (unknown old)
  · next old _ known _ => exact absurd known (unknown old)
  · rfl

theorem Holds.not_known {name : Text} (absent : p.resolved[name]? = none) (word : UInt32) :
    t.lookup name ≠ some (.known word) := by
  intro known
  have mem := h.mem_resolved.mpr ⟨word, known⟩
  rw [Std.TreeMap.mem_iff_isSome_getElem?, absent] at mem
  cases mem

theorem Holds.define (s : Symbol) (firstPass : Bool) :
    (p.define s firstPass).1 = (SymbolTable.Call.run t (.define s firstPass)).1 ∧
      (p.define s firstPass).2.Holds (SymbolTable.Call.run t (.define s firstPass)).2 := by
  unfold Partitions.define SymbolTable.Call.run
  dsimp only
  split
  · next old present value =>
    obtain ⟨found, word, known⟩ := h.resolved_iff.mp present
    simp [SymbolTable.define, SymbolTable.lookup, found, known, value, h]
  · next old word present value =>
    obtain ⟨found, word', known⟩ := h.resolved_iff.mp present
    simp only [SymbolTable.define, SymbolTable.lookup, found, known, value, Option.map_some]
    by_cases same : word' = word
    · simp [same, h]
    · cases firstPass with
      | true => simp [same, h]
      | false =>
        have new :
            { old with value := .known word, expression := s.expression, pc := s.pc } = s := by
          rw [← value, SymbolTable.find?_name found]
        have replaced := h.replace (by rw [value]; rfl) present
        simpa [same, new] using replaced
  · next word absent value =>
    rw [define_of_not_known (h.not_known absent)]
    exact ⟨rfl, h.resolve (by rw [value]; rfl)⟩
  · next absent value =>
    rw [define_of_not_known (h.not_known absent)]
    exact ⟨rfl, h.defer (by rw [value]; rfl) absent⟩

theorem Holds.attempt (ordered : t.Ordered) (name : Text)
    (read : Symbol → SymbolTable → Expression.Reading) :
    (p.attempt (fun s p => read s p.table) name).1 = (t.attempt read name).1 ∧
      (p.attempt (fun s p => read s p.table) name).2.Holds (t.attempt read name).2 := by
  have table : p.table = t := by rw [Partitions.table, h.symbols_eq ordered]
  unfold Partitions.attempt SymbolTable.attempt
  dsimp only
  rw [Std.TreeMap.contains_eq_isSome_getElem?, h.resolved, h.unresolved, table]
  cases found : t.find? name with
  | none => exact ⟨rfl, h⟩
  | some s =>
    obtain rfl := SymbolTable.find?_name found
    cases known : s.value.isKnown with
    | true => simp [Option.filter, known, h]
    | false =>
      simp only [Option.filter, known, Bool.not_false, if_true, Bool.false_eq_true, if_false,
        Option.isSome_none]
      cases read s t with
      | ok word => exact ⟨rfl, h.resolve (s := { s with value := .known word }) rfl⟩
      | error obstacle => cases obstacle <;> exact ⟨rfl, h⟩

/-- A call has the same answer and the same effect on the two maps as on the table. -/
theorem Holds.run (ordered : t.Ordered) (call : SymbolTable.Call) :
    (p.run call).1 = (call.run t).1 ∧ (p.run call).2.Holds (call.run t).2 := by
  cases call with
  | define s firstPass => exact h.define s firstPass
  | resolve name read =>
    obtain ⟨answer, holds⟩ := h.attempt ordered name read
    exact ⟨congrArg SymbolTable.Answer.tried answer, holds⟩

theorem Holds.after (ordered : t.Ordered) (calls : List SymbolTable.Call) :
    (p.after calls).Holds (t.after calls) := by
  induction calls generalizing p t with
  | nil => exact h
  | cons call rest ih =>
    exact ih (h.run ordered call).2 (SymbolTable.Call.run_ordered t call ordered)

end Moves

theorem holds_empty : Holds {} {} := by
  constructor <;> intro name <;> exact Std.TreeMap.getElem?_emptyc

theorem run_refused {p : Partitions} {call : SymbolTable.Call}
    (refuses : (p.run call).1.refuses = true) : (p.run call).2 = p := by
  cases call with
  | define s firstPass =>
    simp only [run, define] at refuses ⊢
    split at refuses
    · rfl
    · split at refuses
      · next same => rw [if_pos same]
      · next differ =>
        rw [if_neg differ]
        split at refuses
        · next first => rw [if_pos first]
        · cases refuses
    · cases refuses
    · cases refuses
  | resolve name read =>
    simp only [run, attempt] at refuses ⊢
    split at refuses
    · next known => rw [if_pos known]
    · next unknown =>
      rw [if_neg unknown]
      split at refuses
      · rfl
      · split at refuses
        · cases refuses
        · rfl
        · rfl
        · rfl

/-- The two maps hold the symbols of a table, no name is in both, and what is seen of the maps is
what is seen of the table. -/
structure Shows (p : Partitions) (t : SymbolTable) : Prop where
  resolved : ∀ name s, p.resolved[name]? = some s ↔
    t.find? name = some s ∧ ∃ word, s.value = .known word
  unresolved : ∀ name s, p.unresolved[name]? = some s ↔
    t.find? name = some s ∧ s.value = .unresolved
  apart : ∀ name, ¬(name ∈ p.resolved ∧ name ∈ p.unresolved)
  entry : ∀ name, p.find? name = t.find? name
  lookup : ∀ name, p.lookup name = t.lookup name
  contains : ∀ name, p.contains name = t.contains name
  unresolvedNames : p.unresolvedNames = t.unresolvedNames
  resolvedCount : p.resolvedCount = t.resolvedCount
  unresolvedCount : p.unresolvedCount = t.unresolvedCount
  symbols : p.symbols = t.entries

theorem Holds.shows {p : Partitions} {t : SymbolTable} (h : p.Holds t) (ordered : t.Ordered) :
    p.Shows t where
  resolved _ _ := h.resolved_iff
  unresolved _ _ := h.unresolved_iff
  apart := h.apart
  entry := h.find?_eq
  lookup := h.lookup_eq
  contains := h.contains_eq
  unresolvedNames := keys_eq (ordered.filter _) (h.unresolved_view ordered)
  resolvedCount := by
    rw [SymbolTable.resolvedCount, List.countP_eq_length_filter]
    exact size_eq (ordered.filter _) (h.resolved_view ordered)
  unresolvedCount := by
    rw [SymbolTable.unresolvedCount, List.countP_eq_length_filter]
    exact size_eq (ordered.filter _) (h.unresolved_view ordered)
  symbols := h.symbols_eq ordered

/-- After any history of calls the two maps show the table of the same history, and all observers
of it describe one map. Later calls lose no name and no name with a value; a call that refuses
changes nothing, and one that does not is seen by the look-ups of its name alone. -/
theorem observers_agree (calls later : List SymbolTable.Call) :
    (∃ map, (SymbolTable.after {} calls).Describes map) ∧
    (after {} calls).Shows (SymbolTable.after {} calls) ∧
    (∀ call, ((after {} calls).run call).1 = (call.run (SymbolTable.after {} calls)).1) ∧
    (∀ name, (after {} calls).contains name = true →
      ((after {} calls).after later).contains name = true) ∧
    (∀ name, name ∈ (after {} calls).resolved →
      name ∈ ((after {} calls).after later).resolved ∧
      name ∉ ((after {} calls).after later).unresolved) ∧
    (∀ call, ((after {} calls).run call).1.refuses = true →
      ((after {} calls).run call).2 = after {} calls ∧
      (call.run (SymbolTable.after {} calls)).2 = SymbolTable.after {} calls) ∧
    (∀ s firstPass, ((after {} calls).run (.define s firstPass)).1 = .bound →
      ∀ name, ((after {} calls).run (.define s firstPass)).2.lookup name =
        if s.name = name then some (Value.merge ((after {} calls).lookup s.name) s.value)
        else (after {} calls).lookup name) ∧
    ∀ name read s word, (after {} calls).find? name = some s → s.value = .unresolved →
      read s (SymbolTable.after {} calls) = .ok word → ∀ m,
        ((after {} calls).run (.resolve name read)).2.find? m =
          if name = m then some { s with value := .known word }
          else (after {} calls).find? m := by
  have ordered : (SymbolTable.after {} calls).Ordered := .after List.Pairwise.nil calls
  have holds : (after {} calls).Holds (SymbolTable.after {} calls) :=
    holds_empty.after List.Pairwise.nil calls
  have held := holds.after ordered later
  refine ⟨⟨_, ordered.describes⟩, holds.shows ordered, ?_, ?_, ?_, ?_, ?_, ?_⟩
  · intro call
    exact (holds.run ordered call).1
  · intro name present
    rw [holds.contains_eq] at present
    rw [held.contains_eq]
    exact SymbolTable.contains_after present later
  · intro name mem
    have known := SymbolTable.known_after (holds.mem_resolved.mp mem) later
    have resolved := held.mem_resolved.mpr known
    exact ⟨resolved, fun unresolved => held.apart name ⟨resolved, unresolved⟩⟩
  · intro call refuses
    refine ⟨run_refused refuses, ?_⟩
    rw [(holds.run ordered call).1] at refuses
    exact SymbolTable.Call.run_refused refuses
  · intro s firstPass bound name
    obtain ⟨answer, defined⟩ := holds.run ordered (.define s firstPass)
    rw [answer] at bound
    rw [defined.lookup_eq, holds.lookup_eq, holds.lookup_eq]
    exact SymbolTable.Call.lookup_bound bound name
  · intro name read s word found waiting known m
    rw [holds.find?_eq] at found
    obtain rfl := SymbolTable.find?_name found
    rw [(holds.run ordered _).2.find?_eq, holds.find?_eq,
      SymbolTable.Call.run_resolve found waiting known, SymbolTable.find?_put]

end Partitions

end Assembler65816
