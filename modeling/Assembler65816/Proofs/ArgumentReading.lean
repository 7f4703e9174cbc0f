import Assembler65816.CommandLine.Arguments
import Mathlib.Data.List.Nodup

/-! # Reading arguments

Arguments that are taken give every setting and flag at most once, their values have been checked,
and none of them exclude each other. All such arguments can be given: written out with their long
names, they are read as they stand.
-/
namespace Assembler65816.CommandLine

/-- What a computation answers, if it answers at all. -/
def Gives {α : Type} (x : Except Refusal α) (P : α → Prop) : Prop := ∀ a, x = .ok a → P a

section Gives

variable {α β : Type} {P : α → Prop} {Q : β → Prop} {x : Except Refusal α}

theorem gives_ok {a : α} (h : P a) : Gives (.ok a) P := by
  rintro _ ⟨⟩
  exact h

theorem gives_error (refusal : Refusal) : Gives (.error refusal : Except Refusal α) P := by
  rintro _ ⟨⟩

theorem Gives.bind {f : α → Except Refusal β} (hx : Gives x P) (hf : ∀ a, P a → Gives (f a) Q) :
    Gives (x >>= f) Q := by
  intro b h
  cases x with
  | error refusal => cases h
  | ok a => exact hf a (hx a rfl) b h

theorem Gives.map {f : α → β} (hx : Gives x P) (hf : ∀ a, P a → Q (f a)) :
    Gives (x.map f) Q := by
  intro b h
  cases x with
  | error refusal => cases h
  | ok a =>
    cases h
    exact hf a (hx a rfl)

theorem gives_foldlM {step : α → β → Except Refusal α} (keeps : ∀ a b, P a → Gives (step a b) P)
    (bs : List β) {a : α} (h : P a) : Gives (bs.foldlM step a) P := by
  induction bs generalizing a with
  | nil => exact gives_ok h
  | cons b bs ih => exact (keeps a b h).bind fun _ => ih

end Gives

namespace Arguments

structure Sound (a : Arguments) : Prop where
  settings_nodup : (a.values.map Prod.fst).Nodup
  flags_nodup : a.flags.Nodup
  checked : ∀ s value, (s, value) ∈ a.values → check s value = .ok ()

variable {a : Arguments}

theorem isSome_get? {s : Setting} : (a.get? s).isSome = true ↔ s ∈ a.values.map Prod.fst := by
  rw [get?, List.lookup_isSome_iff]
  simp

theorem has_eq_true {f : Flag} : a.has f = true ↔ f ∈ a.flags := by
  rw [has, List.contains_iff_mem]

theorem Sound.accept (sound : a.Sound) (s : Setting) (value : Option Text) :
    Gives (a.accept s value) Sound := by
  cases value with
  | none => exact gives_error _
  | some value =>
    rw [Arguments.accept]
    split
    · exact gives_error _
    · next fresh =>
      rw [isSome_get?] at fresh
      have checks : Gives (check s value) fun _ => check s value = .ok () := fun _ h => h
      refine checks.map fun _ passed =>
        ⟨List.nodup_cons.mpr ⟨fresh, sound.settings_nodup⟩, sound.flags_nodup, ?_⟩
      intro s' value' mem
      rcases List.mem_cons.mp mem with new | old
      · cases new
        exact passed
      · exact sound.checked s' value' old

theorem Sound.raise (sound : a.Sound) (f : Flag) : Gives (a.raise f) Sound := by
  rw [Arguments.raise]
  split
  · exact gives_error _
  · next fresh =>
    rw [has_eq_true] at fresh
    exact gives_ok ⟨sound.settings_nodup, List.nodup_cons.mpr ⟨fresh, sound.flags_nodup⟩,
      sound.checked⟩

/-- Nothing is given together that excludes each other. -/
def Compatible (a : Arguments) : Prop :=
  ¬((a.get? .input).isSome = true ∧ (a.get? .source).isSome = true) ∧
    ¬(a.has .addressed = true ∧ a.has .intelHex = true)

theorem checkConflicts_eq_ok_iff {b : Arguments} :
    a.checkConflicts = .ok b ↔ a.Compatible ∧ a = b := by
  unfold checkConflicts Compatible
  split
  · next files => simp_all
  · next files =>
    split
    · next formats => simp_all
    · next formats => simp_all

end Arguments

namespace Reader

variable {r : Reader}

theorem gives_settle (sound : r.arguments.Sound) : Gives r.settle fun r => r.arguments.Sound := by
  unfold settle
  split
  · exact gives_ok sound
  · exact (sound.accept _ _).map fun _ sound => sound

theorem gives_takeSwitch (sound : r.arguments.Sound) (switch : Switch) (attached : Option Text) :
    Gives (r.takeSwitch switch attached) fun r => r.arguments.Sound := by
  refine (gives_settle sound).bind fun r sound => ?_
  cases switch with
  | help => exact gives_error _
  | version => exact gives_error _
  | flag f => exact (sound.raise f).bind fun _ sound => gives_ok sound
  | setting s =>
    cases attached with
    | none => exact gives_ok sound
    | some value => exact (sound.accept s value).bind fun _ sound => gives_ok sound

theorem gives_takeLong (sound : r.arguments.Sound) (body : Text) :
    Gives (r.takeLong body) fun r => r.arguments.Sound := by
  unfold takeLong
  dsimp only
  split
  · exact gives_error _
  · exact gives_takeSwitch sound _ _
  · exact gives_error _
  · exact gives_takeSwitch sound _ _

theorem gives_takeLetters (sound : r.arguments.Sound) (letters : Text) :
    Gives (r.takeLetters letters) fun r => r.arguments.Sound := by
  induction letters generalizing r with
  | nil => exact gives_ok sound
  | cons c rest ih =>
    unfold takeLetters
    split
    · exact gives_error _
    · exact gives_takeSwitch sound _ _
    · exact (gives_takeSwitch sound _ _).bind fun _ sound => ih sound

theorem gives_takeName (sound : r.arguments.Sound) (name : Text) :
    Gives (r.takeName name) fun r => r.arguments.Sound := by
  unfold takeName
  split
  · exact gives_error _
  · exact (gives_settle sound).map fun _ sound => sound

theorem gives_step (sound : r.arguments.Sound) (argument : Text) :
    Gives (r.step argument) fun r => r.arguments.Sound := by
  unfold step
  split
  · exact gives_takeName sound argument
  · split
    · exact gives_ok sound
    · exact gives_takeLong sound _
    · exact gives_takeLetters sound _
    · split
      · exact gives_ok sound
      · exact gives_takeName sound argument

end Reader

/-- Arguments that are taken are sound and compatible. -/
theorem Arguments.read_sound {args : List Text} {a : Arguments} (h : Arguments.read args = .ok a) :
    a.Sound ∧ a.Compatible := by
  have reads : Gives (Arguments.read args) fun a => a.Sound ∧ a.Compatible := by
    have start : ({} : Reader).arguments.Sound := ⟨List.nodup_nil, List.nodup_nil, by simp⟩
    refine (gives_foldlM (P := fun r => r.arguments.Sound)
      (fun _ argument sound => Reader.gives_step sound argument) args start).bind fun r sound => ?_
    refine (Reader.gives_settle sound).bind fun r sound b conflicts => ?_
    obtain ⟨compatible, rfl⟩ := checkConflicts_eq_ok_iff.mp conflicts
    exact ⟨sound, compatible⟩
  exact reads a h

def Flag.name : Flag → String
  | .addressed => "o64"
  | .intelHex => "hex"
  | .quietInfo => "ignore-info"
  | .quietWarnings => "ignore-warn"

/-- The long name of a setting. The file name has none. -/
def Setting.name? : Setting → Option String
  | .input => none
  | .source => some "asm"
  | .output => some "out"
  | .romSize => some "rom"
  | .romBase => some "base"
  | .fill => some "fill"
  | .symbols => some "symbols"
  | .maxPasses => some "max-passes"

def Flag.written (f : Flag) : Text := '-' :: '-' :: f.name.toList

def Setting.written? (given : Setting × Text) : Option Text :=
  given.1.name?.map fun name => '-' :: '-' :: (name.toList ++ '=' :: given.2)

/-- Arguments that give the same flags and settings, the file name last and behind a bare `--`. -/
def Arguments.written (a : Arguments) : List Text :=
  a.flags.map Flag.written ++ a.values.filterMap Setting.written? ++
    (a.get? .input).elim [] fun name => [['-', '-'], name]

namespace Reader

theorem step_flag (a : Arguments) (f : Flag) :
    ({ arguments := a } : Reader).step f.written = (a.raise f).map fun a => { arguments := a } := by
  cases f <;> rfl

theorem takeLong_setting (r : Reader) {s : Setting} {name : String} (named : s.name? = some name)
    (value : Text) :
    r.takeLong (name.toList ++ '=' :: value) = r.takeSwitch (.setting s) (some value) := by
  have known : Switch.ofName? name = some (.setting s) := by
    cases s <;> cases named <;> rfl
  have plain : ∀ c ∈ name.toList, (c != '=') = true := by
    rw [← List.all_eq_true]
    cases s <;> cases named <;> rfl
  have front : (name.toList ++ '=' :: value).takeWhile (· != '=') = name.toList := by
    rw [List.takeWhile_append_of_pos plain]
    simp
  have back : (name.toList ++ '=' :: value).dropWhile (· != '=') = '=' :: value := by
    rw [List.dropWhile_append_of_pos plain]
    simp
  unfold takeLong
  dsimp only
  rw [front, back, String.ofList_toList, known]

theorem step_setting (a : Arguments) {s : Setting} {value argument : Text}
    (written : Setting.written? (s, value) = some argument) :
    ({ arguments := a } : Reader).step argument =
      (a.accept s (some value)).map fun a => { arguments := a } := by
  obtain ⟨name, named, rfl⟩ := Option.map_eq_some_iff.mp written
  have nonempty : name.toList ++ '=' :: value ≠ [] := by simp
  have long : ({ arguments := a } : Reader).step ('-' :: '-' :: (name.toList ++ '=' :: value)) =
      takeLong { arguments := a } (name.toList ++ '=' :: value) := by
    generalize name.toList ++ '=' :: value = body at nonempty
    cases body with
    | nil => exact absurd rfl nonempty
    | cons c rest => rfl
  rw [long, takeLong_setting _ named]
  change (a.accept s (some value) >>= fun b => .ok ({ arguments := b } : Reader)) = _
  cases a.accept s (some value) <;> rfl

theorem read_name (a : Arguments) (name : Text) :
    ([['-', '-'], name].foldlM step { arguments := a } >>= settle) =
      (a.accept .input (some name)).map fun a =>
        { arguments := a, hasInput := true, namesOnly := true } := rfl

end Reader

namespace Arguments

theorem foldlM_flags (flags : List Flag) {a : Arguments}
    (fresh : (flags.reverse ++ a.flags).Nodup) :
    (flags.map Flag.written).foldlM Reader.step { arguments := a } =
      .ok { arguments := { a with flags := flags.reverse ++ a.flags } } := by
  induction flags generalizing a with
  | nil => rfl
  | cons f flags ih =>
    rw [List.reverse_cons, List.append_assoc] at fresh
    have absent : a.has f = false := by
      rw [← Bool.not_eq_true, has_eq_true]
      exact (List.nodup_cons.mp (List.nodup_append.mp fresh).2.1).1
    rw [List.map_cons, List.foldlM_cons, Reader.step_flag, raise, absent]
    refine (ih fresh).trans ?_
    simp

/-- The settings that have a name of their own. -/
def options (values : List (Setting × Text)) : List (Setting × Text) :=
  values.filter fun given => given.1 ≠ .input

theorem foldlM_settings (values : List (Setting × Text)) {a : Arguments}
    (fresh : (((options values).reverse ++ a.values).map Prod.fst).Nodup)
    (checked : ∀ s value, (s, value) ∈ values → check s value = .ok ()) :
    (values.filterMap Setting.written?).foldlM Reader.step { arguments := a } =
      .ok { arguments := { a with values := (options values).reverse ++ a.values } } := by
  induction values generalizing a with
  | nil => rfl
  | cons given values ih =>
    obtain ⟨s, value⟩ := given
    have rest (s : Setting) (value : Text) (mem : (s, value) ∈ values) :=
      checked s value (List.mem_cons_of_mem _ mem)
    by_cases unnamed : s = .input
    · subst unnamed
      exact ih fresh rest
    · have kept : options ((s, value) :: values) = (s, value) :: options values :=
        List.filter_cons_of_pos (by simpa using unnamed)
      rw [kept, List.reverse_cons, List.append_assoc, List.singleton_append] at fresh ⊢
      have absent : (a.get? s).isSome = false := by
        rw [← Bool.not_eq_true, isSome_get?]
        rw [List.map_append, List.map_cons] at fresh
        exact (List.nodup_cons.mp (List.nodup_append.mp fresh).2.1).1
      obtain ⟨argument, written⟩ : ∃ argument, Setting.written? (s, value) = some argument := by
        cases s with
        | input => exact absurd rfl unnamed
        | _ => exact ⟨_, rfl⟩
      rw [List.filterMap_cons_some written, List.foldlM_cons, Reader.step_setting a written, accept,
        absent, checked s value List.mem_cons_self]
      exact ih fresh rest

theorem get?_eq_some_iff {a : Arguments} (nodup : (a.values.map Prod.fst).Nodup) {s : Setting}
    {value : Text} : a.get? s = some value ↔ (s, value) ∈ a.values := by
  rw [get?]
  generalize a.values = values at nodup
  induction values with
  | nil => simp
  | cons given values ih =>
    obtain ⟨s', value'⟩ := given
    rw [List.map_cons, List.nodup_cons] at nodup
    by_cases same : s = s'
    · subst same
      have absent : (s, value) ∉ values := fun mem =>
        nodup.1 (List.mem_map.mpr ⟨(s, value), mem, rfl⟩)
      simp [absent, eq_comm]
    · rw [List.lookup_cons, beq_eq_false_iff_ne.mpr same]
      simp [same, ih nodup.2]

/-- What the options among the written arguments are read as. -/
def rereadOptions (a : Arguments) : Arguments :=
  { values := (options a.values).reverse, flags := a.flags.reverse }

/-- What all the written arguments are read as. -/
def reread (a : Arguments) : Arguments :=
  { a.rereadOptions with
    values := ((a.get? .input).map (.input, ·)).toList ++ a.rereadOptions.values }

section Reread

variable {a : Arguments} (sound : a.Sound)

theorem get?_input_rereadOptions : (a.rereadOptions.get? .input).isSome = false := by
  rw [← Bool.not_eq_true, isSome_get?]
  simp [rereadOptions, options]

include sound

theorem Sound.nodup_options : ((options a.values).reverse.map Prod.fst).Nodup := by
  rw [List.map_reverse, List.nodup_reverse]
  exact sound.settings_nodup.sublist (List.filter_sublist.map Prod.fst)

theorem Sound.nodup_reread : (a.reread.values.map Prod.fst).Nodup := by
  cases given : a.get? .input with
  | none =>
    rw [show a.reread.values = (options a.values).reverse by simp [reread, rereadOptions, given]]
    exact sound.nodup_options
  | some name =>
    rw [show a.reread.values = (.input, name) :: a.rereadOptions.values by simp [reread, given],
      List.map_cons, List.nodup_cons, ← isSome_get?, get?_input_rereadOptions]
    exact ⟨Bool.false_ne_true, sound.nodup_options⟩

theorem Sound.get?_reread (s : Setting) : a.reread.get? s = a.get? s := by
  ext value
  have given : a.get? s = some value ↔ (s, value) ∈ a.values :=
    get?_eq_some_iff sound.settings_nodup
  rw [get?_eq_some_iff sound.nodup_reread, given]
  by_cases unnamed : s = .input
  · subst unnamed
    simp [reread, rereadOptions, options, ← given]
  · simp [reread, rereadOptions, options, unnamed, Ne.symm unnamed]

theorem Sound.read_options :
    (a.flags.map Flag.written ++ a.values.filterMap Setting.written?).foldlM Reader.step {} =
      .ok { arguments := a.rereadOptions } := by
  have first := foldlM_flags a.flags (a := {})
    (by rw [List.append_nil, List.nodup_reverse]; exact sound.flags_nodup)
  have second := foldlM_settings a.values (a := { flags := a.flags.reverse ++ [] })
    (by rw [List.append_nil]; exact sound.nodup_options) sound.checked
  rw [List.foldlM_append, show ({} : Reader) = { arguments := {} } from rfl, first]
  refine second.trans ?_
  simp [rereadOptions]

end Reread

theorem has_reread (a : Arguments) (f : Flag) : a.reread.has f = a.has f := by
  rw [Bool.eq_iff_iff, has_eq_true, has_eq_true]
  exact List.mem_reverse

/-- All arguments that are sound and compatible can be given. -/
theorem read_written {a : Arguments} (sound : a.Sound) (compatible : a.Compatible) :
    ∃ b, read a.written = .ok b ∧ (∀ s, b.get? s = a.get? s) ∧ ∀ f, b.has f = a.has f := by
  refine ⟨a.reread, ?_, sound.get?_reread, a.has_reread⟩
  have conflicts : a.reread.checkConflicts = .ok a.reread := by
    refine checkConflicts_eq_ok_iff.mpr ⟨?_, rfl⟩
    simpa only [Compatible, sound.get?_reread, has_reread] using compatible
  rw [read, written, List.foldlM_append, sound.read_options]
  cases given : a.get? .input with
  | none =>
    have same : a.reread = a.rereadOptions := by simp [reread, given]
    rw [same] at conflicts ⊢
    exact conflicts
  | some name =>
    have passed := sound.checked .input name ((get?_eq_some_iff sound.settings_nodup).mp given)
    have taken : a.rereadOptions.accept .input (some name) = .ok a.reread := by
      rw [accept, get?_input_rereadOptions, passed]
      simp [reread, given, Except.map]
    change ([['-', '-'], name].foldlM Reader.step { arguments := a.rereadOptions } >>= fun r =>
      r.settle >>= fun r => r.arguments.checkConflicts) = _
    rw [← bind_assoc, Reader.read_name, taken]
    exact conflicts

end Arguments

end Assembler65816.CommandLine
