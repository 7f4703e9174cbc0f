import Assembler65816.Proofs.Bytes
import Assembler65816.Proofs.Pass
import Mathlib.Data.Set.Card

/-! # Symbol tables and their observers

A table is built by definitions and retries from the empty one. Its entries then stand in strictly
increasing order of name, so that no entry hides another, and every way to look at the table
describes one map from names to symbols. The symbols with a value and those without one are the two
partitions of the table: a name may move from the second to the first, and never back.
-/
namespace Assembler65816

namespace SymbolTable

def Ordered (t : SymbolTable) : Prop := t.entries.Pairwise fun e e' => e.name < e'.name

theorem mem_place {s e : Symbol} {entries : List Symbol} (h : e ∈ place s entries) :
    e = s ∨ e ∈ entries := by
  fun_induction place s entries <;> grind

theorem pairwise_place (s : Symbol) {entries : List Symbol}
    (h : entries.Pairwise fun e e' => e.name < e'.name) :
    (place s entries).Pairwise fun e e' => e.name < e'.name := by
  fun_induction place s entries with
  | case1 => exact List.pairwise_singleton _ _
  | case2 e rest less =>
    refine List.pairwise_cons.mpr ⟨fun e' mem => ?_, h⟩
    rcases List.mem_cons.mp mem with rfl | later
    · exact less
    · exact List.lt_trans less (List.rel_of_pairwise_cons h later)
  | case3 e rest _ same =>
    refine List.pairwise_cons.mpr ⟨fun e' mem => ?_, h.of_cons⟩
    rw [same]
    exact List.rel_of_pairwise_cons h mem
  | case4 e rest notLess differ ih =>
    refine List.pairwise_cons.mpr ⟨fun e' mem => ?_, ih h.of_cons⟩
    rcases mem_place mem with rfl | later
    · rcases List.le_iff_lt_or_eq.mp (List.not_lt.mp notLess) with less | same
      · exact less
      · exact absurd same.symm differ
    · exact List.rel_of_pairwise_cons h later

theorem Ordered.define {t t' : SymbolTable} {s : Symbol} {firstPass : Bool} (ordered : t.Ordered)
    (h : t.define s firstPass = some t') : t'.Ordered := by
  unfold SymbolTable.define at h
  split at h
  · cases h
    exact ordered
  · split_ifs at h
    · cases h
      exact ordered
    · cases h
      exact pairwise_place s ordered
  · cases h
    exact pairwise_place s ordered

theorem Swept.ordered {t t' : SymbolTable} (h : t.Swept t') (ordered : t.Ordered) :
    t'.Ordered := by
  induction h with
  | refl => exact ordered
  | step _ _ _ _ ih => exact ih (pairwise_place _ ordered)

theorem find?_of_mem {s : Symbol} {entries : List Symbol}
    (ordered : entries.Pairwise fun e e' => e.name < e'.name) (mem : s ∈ entries) :
    entries.find? (fun e => e.name == s.name) = some s := by
  induction entries with
  | nil => cases mem
  | cons e rest ih =>
    rcases List.mem_cons.mp mem with rfl | later
    · simp
    · have differ : e.name ≠ s.name := by
        intro same
        have less := List.rel_of_pairwise_cons ordered later
        rw [same] at less
        exact List.lt_irrefl _ less
      rw [List.find?_cons_of_neg (by simpa using differ)]
      exact ih ordered.of_cons later

/-- In a table in order no entry hides another, so what can be looked up is all there is. -/
theorem Ordered.resolved {t : SymbolTable} (ordered : t.Ordered)
    (known : ∀ m, t.lookup m ≠ none → ∃ word, t.lookup m = some (.known word)) :
    t.unresolvedCount = 0 := by
  apply List.countP_eq_zero.mpr
  intro s mem
  have found : t.lookup s.name = some s.value := by
    simp only [SymbolTable.lookup, SymbolTable.find?, find?_of_mem ordered mem, Option.map_some]
  obtain ⟨word, value⟩ := known s.name (by simp [found])
  rw [found] at value
  simp [Option.some.inj value, Value.isKnown, Value.known?]

theorem Ordered.mem_iff {t : SymbolTable} (ordered : t.Ordered) {s : Symbol} :
    s ∈ t.entries ↔ t.find? s.name = some s :=
  ⟨find?_of_mem ordered, List.mem_of_find?_eq_some⟩

theorem Ordered.ext_mem {t t' : SymbolTable} (ordered : t.Ordered) (ordered' : t'.Ordered)
    (same : ∀ s, s ∈ t.entries ↔ s ∈ t'.entries) : t = t' := by
  have nodup {u : SymbolTable} (h : u.Ordered) : u.entries.Nodup := by
    apply h.imp
    rintro e e' less rfl
    exact List.lt_irrefl _ less
  have perm : t.entries.Perm t'.entries :=
    (List.perm_ext_iff_of_nodup (nodup ordered) (nodup ordered')).mpr same
  have entries : t.entries = t'.entries := by
    apply perm.eq_of_pairwise _ ordered ordered'
    intro e e' _ _ less more
    exact absurd more (List.lt_asymm less)
  cases t
  cases t'
  exact congrArg SymbolTable.mk entries

theorem Ordered.ext {t t' : SymbolTable} (ordered : t.Ordered) (ordered' : t'.Ordered)
    (same : ∀ name, t.find? name = t'.find? name) : t = t' := by
  apply ordered.ext_mem ordered'
  intro s
  rw [ordered.mem_iff, ordered'.mem_iff, same]

def resolved (t : SymbolTable) : SymbolTable := ⟨t.entries.filter fun s => s.value.isKnown⟩

def unresolved (t : SymbolTable) : SymbolTable := ⟨t.entries.filter fun s => !s.value.isKnown⟩

theorem Ordered.filter {t : SymbolTable} (ordered : t.Ordered) (keep : Symbol → Bool) :
    Ordered ⟨t.entries.filter keep⟩ :=
  List.Pairwise.filter keep ordered

/-- A partition has the entry of a name if the table has it and it belongs there. -/
theorem Ordered.find?_filter {t : SymbolTable} (ordered : t.Ordered) (keep : Symbol → Bool)
    (name : Text) : find? ⟨t.entries.filter keep⟩ name = (t.find? name).filter keep := by
  apply Option.ext
  intro s
  rw [Option.filter_eq_some_iff]
  constructor
  · intro found
    obtain rfl := find?_name found
    have mem := List.mem_filter.mp (List.mem_of_find?_eq_some found)
    exact ⟨ordered.mem_iff.mp mem.1, mem.2⟩
  · rintro ⟨found, kept⟩
    obtain rfl := find?_name found
    apply (ordered.filter keep).mem_iff.mp
    exact List.mem_filter.mpr ⟨ordered.mem_iff.mpr found, kept⟩

theorem isKnown_iff {value : Value} : value.isKnown = true ↔ ∃ word, value = .known word := by
  cases value <;> simp [Value.isKnown, Value.known?]

theorem isKnown_eq_false {value : Value} : value.isKnown = false ↔ value = .unresolved := by
  cases value <;> simp [Value.isKnown, Value.known?]

theorem lookup_ne_none_iff {t : SymbolTable} {name : Text} :
    t.lookup name ≠ none ↔ name ∈ t.entries.map Symbol.name := by
  unfold SymbolTable.lookup SymbolTable.find?
  rw [ne_eq, Option.map_eq_none_iff, List.find?_eq_none, List.mem_map]
  simp

theorem contains_iff {t : SymbolTable} {name : Text} :
    t.contains name = true ↔ t.lookup name ≠ none := by
  simp [contains, lookup, Option.isSome_iff_ne_none]

section Partitions

variable {t : SymbolTable} (ordered : t.Ordered)

include ordered

theorem Ordered.contains_resolved {name : Text} :
    t.resolved.contains name = true ↔ ∃ word, t.lookup name = some (.known word) := by
  unfold contains lookup SymbolTable.resolved
  rw [ordered.find?_filter]
  cases t.find? name with
  | none => simp
  | some s => simp [Option.filter, apply_ite Option.isSome, isKnown_iff]

theorem Ordered.contains_unresolved {name : Text} :
    t.unresolved.contains name = true ↔ t.lookup name = some .unresolved := by
  unfold contains lookup unresolved
  rw [ordered.find?_filter]
  cases t.find? name with
  | none => simp
  | some s => simp [Option.filter, apply_ite Option.isSome, isKnown_eq_false]

theorem Ordered.ncard_names : {name | t.contains name = true}.ncard = t.entries.length := by
  have nodup : (t.entries.map Symbol.name).Nodup := by
    apply (List.pairwise_map.mpr ordered).imp
    rintro name _ less rfl
    exact List.lt_irrefl _ less
  have names : {name | t.contains name = true} =
      ((t.entries.map Symbol.name).toFinset : Set Text) := by
    ext name
    rw [Set.mem_ofPred_eq, contains_iff, lookup_ne_none_iff, Finset.mem_coe, List.mem_toFinset]
  rw [names, Set.ncard_coe_finset, List.toFinset_card_of_nodup nodup, List.length_map]

end Partitions

end SymbolTable

namespace SymbolTable

/-- All that can be observed of a table agrees with one map from names to symbols. -/
structure Describes (t : SymbolTable) (map : Text → Option Symbol) : Prop where
  own_name : ∀ name s, map name = some s → s.name = name
  entry : ∀ name, t.find? name = map name
  lookup : ∀ name, t.lookup name = (map name).map Symbol.value
  contains : ∀ name, t.contains name = true ↔ map name ≠ none
  entries : ∀ s, s ∈ t.entries ↔ map s.name = some s
  ascending : (t.entries.map fun s => s.name.utf8).Pairwise (· < ·)
  resolvedCount : t.resolvedCount =
    {name | ∃ word, (map name).map Symbol.value = some (.known word)}.ncard
  unresolvedCount : t.unresolvedCount =
    {name | (map name).map Symbol.value = some .unresolved}.ncard
  unresolvedNames : ∀ name, name ∈ t.unresolvedNames ↔
    (map name).map Symbol.value = some .unresolved
  unresolvedNames_ascending : (t.unresolvedNames.map Text.utf8).Pairwise (· < ·)

section Observers

variable {t : SymbolTable} (ordered : t.Ordered)

include ordered

theorem Ordered.ascending : (t.entries.map fun s => s.name.utf8).Pairwise (· < ·) := by
  apply List.pairwise_map.mpr
  exact ordered.imp Text.utf8_lt

theorem Ordered.mem_unresolvedNames {name : Text} :
    name ∈ t.unresolvedNames ↔ t.lookup name = some .unresolved := by
  rw [← ordered.contains_unresolved, contains_iff, lookup_ne_none_iff]
  rfl

theorem Ordered.resolvedCount_eq : t.resolvedCount =
    {name | ∃ word, t.lookup name = some (.known word)}.ncard := by
  rw [resolvedCount, List.countP_eq_length_filter, ← (ordered.filter _).ncard_names]
  congr 1
  ext name
  exact ordered.contains_resolved

theorem Ordered.unresolvedCount_eq : t.unresolvedCount =
    {name | t.lookup name = some .unresolved}.ncard := by
  rw [unresolvedCount, List.countP_eq_length_filter, ← (ordered.filter _).ncard_names]
  congr 1
  ext name
  exact ordered.contains_unresolved

theorem Ordered.describes : t.Describes t.find? where
  own_name _ _ found := find?_name found
  entry _ := rfl
  lookup _ := rfl
  contains name := by rw [SymbolTable.contains, Option.isSome_iff_ne_none]
  entries _ := ordered.mem_iff
  ascending := ordered.ascending
  resolvedCount := ordered.resolvedCount_eq
  unresolvedCount := ordered.unresolvedCount_eq
  unresolvedNames _ := ordered.mem_unresolvedNames
  unresolvedNames_ascending := by
    rw [SymbolTable.unresolvedNames, List.map_map]
    exact (ordered.filter fun s => !s.value.isKnown).ascending

end Observers

/-- A call that changes a table. The reader of a retry may be any function. -/
inductive Call where
  | define (s : Symbol) (firstPass : Bool)
  | resolve (name : Text) (read : Symbol → SymbolTable → Expression.Reading)

inductive Answer where
  | bound
  | duplicate
  | tried (attempt : Attempt)
  deriving DecidableEq, Repr

def Answer.refuses : Answer → Bool
  | .duplicate | .tried (.refused _) => true
  | _ => false

def Call.run (t : SymbolTable) : Call → Answer × SymbolTable
  | .define s firstPass =>
    match t.define s firstPass with
    | some t' => (.bound, t')
    | none => (.duplicate, t)
  | .resolve name read =>
    let (attempt, t') := t.attempt read name
    (.tried attempt, t')

def after (t : SymbolTable) (calls : List Call) : SymbolTable :=
  calls.foldl (fun t call => (call.run t).2) t

/-- A call leaves the table alone, or it does not refuse and puts in one symbol, which has a value
if its name has one. -/
theorem Call.run_cases (t : SymbolTable) (call : Call) :
    (call.run t).2 = t ∨ (call.run t).1.refuses = false ∧ ∃ s, (call.run t).2 = t.put s ∧
      ∀ word, t.lookup s.name = some (.known word) → s.value ≠ .unresolved := by
  cases call with
  | define s firstPass =>
    unfold Call.run
    dsimp only
    cases defined : t.define s firstPass with
    | none => exact Or.inl rfl
    | some t' =>
      rcases define_cases defined with ⟨rfl, _⟩ | ⟨rfl, kept⟩
      · exact Or.inl rfl
      · exact Or.inr ⟨rfl, s, rfl, kept⟩
  | resolve name read =>
    unfold Call.run attempt
    dsimp only
    split
    · exact Or.inl rfl
    · split
      · exact Or.inl rfl
      · next s found waiting =>
        split
        · next word _ =>
          exact Or.inr ⟨rfl, { s with value := .known word }, rfl, fun _ _ => Value.noConfusion⟩
        · exact Or.inl rfl
        · exact Or.inl rfl
        · exact Or.inl rfl

theorem Call.run_refused {t : SymbolTable} {call : Call} (h : (call.run t).1.refuses = true) :
    (call.run t).2 = t := by
  rcases call.run_cases t with same | ⟨accepted, _⟩
  · exact same
  · rw [accepted] at h
    contradiction

theorem after_preserves {I : SymbolTable → Prop} (step : ∀ t call, I t → I (Call.run t call).2)
    {t : SymbolTable} (start : I t) (calls : List Call) : I (t.after calls) := by
  induction calls generalizing t with
  | nil => exact start
  | cons call rest ih => exact ih (step t call start)

theorem Call.run_ordered (t : SymbolTable) (call : Call) (ordered : t.Ordered) :
    (call.run t).2.Ordered := by
  rcases call.run_cases t with same | ⟨_, s, put, _⟩
  · rw [same]
    exact ordered
  · rw [put]
    exact pairwise_place s ordered

theorem Ordered.after {t : SymbolTable} (ordered : t.Ordered) (calls : List Call) :
    (t.after calls).Ordered :=
  after_preserves Call.run_ordered ordered calls

theorem contains_after {t : SymbolTable} {name : Text} (present : t.contains name = true)
    (calls : List Call) : (t.after calls).contains name = true := by
  apply after_preserves (I := fun t => t.contains name = true) _ present
  intro t call present
  rw [contains_iff] at present ⊢
  rcases call.run_cases t with same | ⟨_, s, put, _⟩
  · rw [same]
    exact present
  · rw [put, lookup_put]
    split
    · exact Option.some_ne_none _
    · exact present

theorem known_after {t : SymbolTable} {name : Text}
    (known : ∃ word, t.lookup name = some (.known word)) (calls : List Call) :
    ∃ word, (t.after calls).lookup name = some (.known word) := by
  apply after_preserves (I := fun t => ∃ word, t.lookup name = some (.known word)) _ known
  rintro t call ⟨word, known⟩
  rcases call.run_cases t with same | ⟨_, s, put, kept⟩
  · rw [same]
    exact ⟨word, known⟩
  · rw [put, lookup_put]
    split
    · next own =>
      subst own
      cases value : s.value with
      | known new => exact ⟨new, rfl⟩
      | unresolved => exact absurd value (kept word known)
    · exact ⟨word, known⟩

theorem Call.lookup_bound {t : SymbolTable} {s : Symbol} {firstPass : Bool}
    (h : (Call.run t (.define s firstPass)).1 = .bound) (name : Text) :
    (Call.run t (.define s firstPass)).2.lookup name =
      if s.name = name then some (Value.merge (t.lookup s.name) s.value) else t.lookup name := by
  simp only [Call.run] at h ⊢
  cases defined : t.define s firstPass with
  | none =>
    rw [defined] at h
    cases h
  | some t' => exact lookup_define defined name

theorem Call.run_resolve {t : SymbolTable} {name : Text} {s : Symbol} {word : UInt32}
    {read : Symbol → SymbolTable → Expression.Reading} (found : t.find? name = some s)
    (waiting : s.value = .unresolved) (known : read s t = .ok word) :
    Call.run t (.resolve name read) =
      (.tried .advanced, t.put { s with value := .known word }) := by
  simp only [Call.run, attempt, found, isKnown_eq_false.mpr waiting, Bool.false_eq_true, if_false,
    known]

end SymbolTable

theorem Passed.ordered {config : Config} {records records' : List Record} {w w' : Work}
    (h : Passed config records w records' w') (ordered : w.symbols.Ordered) :
    w'.symbols.Ordered := by
  apply h.preserves (I := fun v => v.symbols.Ordered) (fun _ _ hv => hv) _ _ ordered
  · intro v place trace hv
    rw [takeTrace_symbols]
    exact hv
  · intro v outcome v' hv performed
    cases performed with
    | binding _ bound => exact hv.define bound
    | nothing | firstOrigin | origin | bytes | widths => exact hv

theorem Assembly.Reached.ordered {config : Config} {lines : List SourceLine} {p : Nat}
    {a : Assembly} (h : (Assembly.new config lines).Reached p a) : a.work.symbols.Ordered := by
  induction h with
  | start => exact List.Pairwise.nil
  | pass before passed ih =>
    obtain ⟨w, done, retried, _⟩ := Assembly.runPass_none passed
    apply retried.swept.ordered
    apply done.ordered
    rw [startPass_symbols]
    exact ih

end Assembler65816
