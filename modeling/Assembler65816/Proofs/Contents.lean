import Assembler65816.Proofs.PassNumbers
import Assembler65816.Proofs.Replay
import Assembler65816.Proofs.Window

/-! # What the image holds

However a pass ends, the image then holds what the lines of the pass stored. Where several runs of
bytes meet, the last one counts, and where there is none, the fill byte.
-/
namespace Assembler65816

def written : List Run → Nat → Option UInt8
  | [], _ => none
  | run :: later, place => (written later place).or (byteAt run.address.toNat run.bytes place)

theorem written_append (runs later : List Run) (place : Nat) :
    written (runs ++ later) place = (written later place).or (written runs place) := by
  induction runs with
  | nil => rw [List.nil_append, written, Option.or_none]
  | cons run rest ih => rw [List.cons_append, written, written, ih, Option.or_assoc]

structure Cursor.Shows (config : Config) (runs : List Run) (p : Cursor) : Prop where
  window : p.Window config
  unset : p.counter = none → runs = []
  bytes : ∀ k < config.romSize.toNat, p.image.bytes[k]? =
    some ((written runs (p.image.base.toNat + k)).getD config.fill)

theorem Cursor.Window.shows_nil {config : Config} {p : Cursor} (window : p.Window config)
    (blank : p.image.bytes = Array.replicate config.romSize.toNat config.fill) :
    p.Shows config [] := by
  refine ⟨window, fun _ => rfl, ?_⟩
  intro k lt
  rw [blank, Array.getElem?_replicate, if_pos lt]
  rfl

theorem Moves.shows {config : Config} {p p' : Cursor} {outcome : Outcome} {runs : List Run}
    (h : Moves config p outcome p') (shows : p.Shows config runs) :
    p'.Shows config (runs ++ outcome.runs p.counter) := by
  have window := h.window shows.window
  have unchanged := h.image_eq shows.window
  cases h with
  | nothing | binding =>
    change p.Shows config (runs ++ [])
    rwa [List.append_nil]
  | widths =>
    change Cursor.Shows config (runs ++ []) _
    rw [List.append_nil]
    exact ⟨window, shows.unset, shows.bytes⟩
  | origin =>
    change Cursor.Shows config (runs ++ []) _
    rw [List.append_nil]
    exact ⟨window, fun set => (by cases set), shows.bytes⟩
  | firstOrigin address unset free =>
    -- Nothing has been stored yet, so nothing is lost where the window moves.
    change Cursor.Shows config (runs ++ []) _
    rw [List.append_nil, shows.unset unset]
    refine window.shows_nil ?_
    have same := unchanged (fun _ => Outcome.noConfusion) 0
    exact (Image.mk.inj same).2.2.trans (shows.window.blank unset)
  | bytes run pc start placed located =>
    refine ⟨window, fun set => (by cases set), ?_⟩
    intro k lt
    rw [Outcome.runs, placed]
    change (p.image.overwrite start run).bytes[k]? = some ((written (runs ++ [⟨pc, run⟩])
      (p.image.base.toNat + k)).getD config.fill)
    rw [Image.getElem?_overwrite located, shows.bytes k lt, written_append, written, written,
      Option.none_or]
    cases byteAt pc.toNat run (p.image.base.toNat + k) <;> rfl

/-- The runs that lines store, up to the first line that does not get done. -/
def Work.runs (config : Config) : List Record → Work → List Run
  | [], _ => []
  | r :: rest, w =>
    match (Step.runLine config r.source).run { w with hint := r.hint } with
    | (.error _, _) => []
    | (.ok (), w') =>
      (Work.outcome r.source { w with hint := r.hint }).runs w.counter ++ runs config rest w'

theorem Work.runLines_shows {config : Config} {w : Work} {runs : List Run}
    (shows : w.cursor.Shows config runs) (records : List Record) :
    (Work.runLines config records w).2.2.cursor.Shows config
      (runs ++ Work.runs config records w) := by
  induction records generalizing w runs with
  | nil =>
    rw [Work.runs, List.append_nil]
    exact shows
  | cons r rest ih =>
    rw [Work.runLines, Work.runs]
    rcases line : (Step.runLine config r.source).run { w with hint := r.hint } with ⟨halt | _, w₁⟩
    · have same : w₁.cursor = w.cursor := (Step.runLine_refused line).cursor
      dsimp only
      rw [List.append_nil, same]
      exact shows
    · dsimp only
      rw [← List.append_assoc]
      exact ih ((Step.runLine_moves line).shows shows)

namespace Assembly

def runs (a : Assembly) (p : Nat) : List Run :=
  Work.runs a.config a.records (a.work.startPass a.config p)

theorem runPass_shows {a b : Assembly} {p : Nat} {ending : Option Ending}
    (h : a.runPass p = (ending, b)) (window : a.work.cursor.Window a.config) :
    b.work.cursor.Shows a.config (a.runs p) := by
  have started : (a.work.startPass a.config p).cursor.Shows a.config [] := by
    refine (Work.startPass_window window p).shows_nil ?_
    simp only [Work.cursor, startPass_image]
    exact window.bytes_clear
  have lines := Work.runLines_shows started a.records
  rw [List.nil_append] at lines
  unfold runPass at h
  rcases run : (a.work.startPass a.config p).runLines a.config a.records with
    ⟨_ | stopped, records, w⟩
  · rw [run] at h lines
    dsimp only at h
    split at h
    · have retried := w.finishPass.sweep_retried a.config.resolveBudget.toNat 1
      split at h
      all_goals
        next swept =>
        rw [swept] at retried
        cases h
        rw [retried.cursor_eq]
        exact lines
    · cases h
      exact lines
  · rw [run] at h lines
    cases h
    exact lines

/-- A run under valid settings ends after a last pass, which leaves the work as it is at the end but
for symbols that are tried again. -/
theorem last_pass {config : Config} (valid : config.validate = .ok ()) {lines : List SourceLine}
    {ending : Ending} {b : Assembly} (h : (new config lines).run = (ending, b)) :
    ∃ q a ended c, (new config lines).Reached q a ∧ a.runPass (q + 1) = (ended, c) ∧
      c.work.Retried b.work := by
  have two := two_le_maxPasses valid
  rcases run_new_cases h with ⟨_, invalid, _⟩ |
    ⟨_, ⟨q, a', reached, _, _, log, rfl⟩ | ⟨q, a, reached, ran⟩ | ⟨a', reached, _, gave⟩⟩
  · rw [valid] at invalid
    cases invalid
  · cases reached with
    | pass before ran => exact ⟨q, _, none, a', before, ran, ⟨.refl _, rfl⟩⟩
  · exact ⟨q, a, some ending, b, reached, ran, ⟨.refl _, rfl⟩⟩
  · obtain ⟨q, last⟩ := Nat.exists_eq_add_of_le' (Nat.le_of_succ_le two)
    rw [last] at reached
    cases reached with
    | pass before ran =>
      refine ⟨q, _, none, a', before, ran, ?_⟩
      rcases giveUp_cases gave with ⟨_, rfl, _⟩ | ⟨_, retried⟩
      · exact ⟨.refl _, rfl⟩
      · exact retried

/-- At the end of a run the image holds what the last pass stored. -/
theorem run_shows {config : Config} (valid : config.validate = .ok ()) {lines : List SourceLine}
    {ending : Ending} {b : Assembly} (h : (new config lines).run = (ending, b)) :
    ∃ q a, (new config lines).Reached q a ∧ b.work.pass = q + 1 ∧
      b.work.cursor.Shows config (a.runs (q + 1)) := by
  obtain ⟨q, a, ended, c, reached, ran, retried⟩ := last_pass valid h
  have last : b.work.pass = q + 1 := by
    rw [retried.frame]
    exact runPass_pass ran
  have same : a.config = config := reached.config_eq
  have shows := runPass_shows ran (by rw [same]; exact reached.window)
  rw [same] at shows
  refine ⟨q, a, reached, last, ?_⟩
  rw [retried.cursor_eq]
  exact shows

end Assembly

end Assembler65816
