import Assembler65816.Proofs.Settled
import Mathlib.Algebra.Group.Nat.Defs

/-! # The location counter and the window

Within a pass the location counter is unset up to the first origin, and from then on it stays in the
window of the image or at its end. Bytes go to the location counter and move it past them, so none
is stored outside the window, and no origin after the first one moves the window. Sums are sums of
numbers here: as long as the window ends below the top of the address space, none of them wraps.
-/
namespace Assembler65816

def Outcome.origin? : Outcome → Option UInt32
  | .origin address => some address
  | _ => none

theorem Outcome.eq_of_origin? {outcome : Outcome} {address : UInt32}
    (h : outcome.origin? = some address) : outcome = .origin address := by
  cases outcome with
  | origin address' =>
    cases h
    rfl
  | nothing | binding | bytes | widths => cases h

def Outcome.stored : Outcome → List UInt8
  | .bytes run => run
  | _ => []

/-- What the statement of a line comes to with the labels bound, if it comes that far. -/
def Work.outcome (place : SourceLine) (w : Work) : Outcome :=
  match ((ParsedLine.ofText place.text).labels.forM (Step.defineLabel place)).run w with
  | (.error _, _) => .nothing
  | (.ok (), labelled) =>
    match ((ParsedLine.ofText place.text).statement.outcome labelled.env labelled.widths).run
      { hint := labelled.hint } with
    | (.error _, _) => .nothing
    | (.ok outcome, _) => outcome

/-- What the lines of a pass come to, up to the first that does not get done. -/
def Work.outcomes (config : Config) : List Record → Work → List Outcome
  | [], _ => []
  | r :: rest, w =>
    match (Step.runLine config r.source).run { w with hint := r.hint } with
    | (.error _, _) => []
    | (.ok (), w') => Work.outcome r.source { w with hint := r.hint } :: outcomes config rest w'

def Work.firstOrigin? (config : Config) (records : List Record) (w : Work) : Option UInt32 :=
  (Work.outcomes config records w).findSome? Outcome.origin?

theorem Passed.outcomes_append {config : Config} {records records' : List Record} {w w' : Work}
    (h : Passed config records w records' w') (more : List Record) :
    Work.outcomes config (records ++ more) w =
      Work.outcomes config records w ++ Work.outcomes config more w' := by
  induction h with
  | nil => rfl
  | cons line _ ih => simp only [List.cons_append, Work.outcomes, line, ih]

theorem Step.runLine_moves {config : Config} {place : SourceLine} {w w' : Work}
    (h : (Step.runLine config place).run w = (.ok (), w')) :
    Moves config w.cursor (w.outcome place) w'.cursor := by
  obtain ⟨_, labelled, labels, statement⟩ := run_bind_ok h
  obtain ⟨outcome, trace, read, performed⟩ := Step.runStatement_run_ok statement
  have same : w.outcome place = outcome := by simp only [Work.outcome, labels, read]
  have bound : Labelled config _ w labelled := Step.labels_run_ok labels
  have moves := performed.moves
  simp only [takeTrace_cursor] at moves
  simp only [Work.cursor, bound.frame.counter, bound.frame.widths, bound.frame.image] at moves
  rw [same]
  exact moves

/-- Where a line that does not get done stops: the cursor stays, and an overrun is one of the bytes
that go to the location counter. -/
structure Cursor.Refused (p : Cursor) (run : List UInt8) (halt : Halt) (p' : Cursor) : Prop where
  cursor : p' = p
  overrun : halt = .overrun → ∃ pc, p.counter = some pc ∧
    p.image.locate pc run = .error .overrun

namespace Step

/-- A step that leaves the cursor where it is, whether it gets done or not, and never overruns. -/
def Steady {α : Type} (x : Step α) : Prop :=
  ∀ w, (x.run w).2.cursor = w.cursor ∧ (x.run w).1 ≠ .error .overrun

theorem Steady.bind {α β : Type} {x : Step α} {f : α → Step β} (hx : x.Steady)
    (hf : ∀ a, (f a).Steady) : Steady (x >>= f) := by
  intro w
  have first := hx w
  rw [run_bind]
  rcases run : x.run w with ⟨halt | a, w₁⟩
  · rw [run] at first
    refine ⟨first.1, fun past => first.2 ?_⟩
    cases past
    rfl
  · rw [run] at first
    have second := hf a w₁
    exact ⟨second.1.trans first.1, second.2⟩

theorem Steady.refused {α : Type} {x : Step α} (hx : x.Steady) {w w' : Work} {halt : Halt}
    (h : x.run w = (.error halt, w')) (run : List UInt8) :
    w.cursor.Refused run halt w'.cursor := by
  have steady := hx w
  rw [h] at steady
  refine ⟨steady.1, ?_⟩
  rintro rfl
  exact absurd rfl steady.2

theorem define_steady (place : SourceLine) (name expression : Text) (value : Value) :
    Steady (define place name value expression) := by
  intro w
  rcases define_cases place name expression value w with refused | ⟨agrees, symbols, bound⟩
  · rw [refused]
    exact ⟨rfl, nofun⟩
  · obtain ⟨log, run⟩ := define_run place agrees bound
    rw [run]
    exact ⟨rfl, nofun⟩

theorem defineLabel_steady (place : SourceLine) (name : Text) :
    Steady (defineLabel place name) := by
  intro w
  cases placed : w.counter with
  | none =>
    rw [defineLabel_refused place placed]
    exact ⟨rfl, nofun⟩
  | some pc =>
    rw [defineLabel_run placed]
    exact define_steady place name ['$'] (.known pc) _

theorem labels_steady (place : SourceLine) (names : List Text) :
    Steady (names.forM (defineLabel place)) := by
  induction names with
  | nil =>
    intro w
    exact ⟨rfl, nofun⟩
  | cons name rest ih => exact (defineLabel_steady place name).bind fun _ => ih

theorem performOrigin_refused {config : Config} {address : UInt32} {w w' : Work} {halt : Halt}
    (h : (performOrigin config address).run w = (.error halt, w')) (run : List UInt8) :
    w.cursor.Refused run halt w'.cursor := by
  unfold performOrigin at h
  rw [run_bind_of_ok (get_run w)] at h
  split at h
  · split at h <;> cases h
  · split at h
    · cases h
      exact ⟨rfl, nofun⟩
    · cases h

theorem emit_refused {run : List UInt8} {w w' : Work} {halt : Halt}
    (h : (emit run).run w = (.error halt, w')) : w.cursor.Refused run halt w'.cursor := by
  unfold emit at h
  rw [run_bind_of_ok (get_run w)] at h
  split at h
  · cases h
    exact ⟨rfl, nofun⟩
  · next pc placed =>
    split at h
    · cases h
      exact ⟨rfl, nofun⟩
    · next past =>
      cases h
      exact ⟨rfl, fun _ => ⟨pc, placed, past⟩⟩
    · cases h

theorem perform_refused {config : Config} {place : SourceLine} {outcome : Outcome} {w w' : Work}
    {halt : Halt} (h : (perform config place outcome).run w = (.error halt, w')) :
    w.cursor.Refused outcome.stored halt w'.cursor := by
  cases outcome with
  | nothing => cases h
  | widths widths => cases h
  | origin address => exact performOrigin_refused h []
  | bytes run => exact emit_refused h
  | binding name expression value =>
    cases value with
    | known word =>
      exact (define_steady place name expression (.known word)).refused
        (w := w.report (.equate name word)) h []
    | unresolved =>
      exact (define_steady place name expression .unresolved).refused
        (w := w.report (.equateDeferred name expression)) h []

/-- A line that does not get done moves nothing, and overruns with its own bytes only. -/
theorem runLine_refused {config : Config} {place : SourceLine} {w w' : Work} {halt : Halt}
    (h : (runLine config place).run w = (.error halt, w')) :
    w.cursor.Refused (w.outcome place).stored halt w'.cursor := by
  unfold runLine at h
  rw [run_bind] at h
  have labels := labels_steady place (ParsedLine.ofText place.text).labels
  rcases run : ((ParsedLine.ofText place.text).labels.forM (defineLabel place)).run w with
    ⟨halt' | _, labelled⟩
  · rw [run] at h
    cases h
    exact labels.refused run _
  · rw [run] at h
    have same : labelled.cursor = w.cursor := by
      have steady := labels w
      rw [run] at steady
      exact steady.1
    dsimp only at h
    rw [runStatement_run] at h
    rcases read : ((ParsedLine.ofText place.text).statement.outcome labelled.env
      labelled.widths).run { hint := labelled.hint } with ⟨cause | outcome, trace⟩
    · rw [read] at h
      cases h
      exact ⟨(takeTrace_cursor config place trace labelled).trans same, nofun⟩
    · rw [read] at h
      have outcome_eq : w.outcome place = outcome := by simp only [Work.outcome, run, read]
      have refused := perform_refused h
      rw [takeTrace_cursor, same] at refused
      rw [outcome_eq]
      exact refused

end Step

/-- An address in the window lies between the base and the end of it. -/
theorem Image.bounds_of_contains {i : Image} {address : UInt32} (h : i.contains address = true) :
    i.base.toNat ≤ address.toNat ∧ address.toNat < i.base.toNat + i.bytes.size := by
  simp only [Image.contains, Bool.and_eq_true, decide_eq_true_eq] at h
  have base := UInt32.le_iff_toNat_le.mp h.1
  have size := UInt32.lt_iff_toNat_lt.mp h.2
  rw [UInt32.toNat_sub_of_le _ _ h.1, Image.size, UInt32.toNat_ofNat'] at size
  have := Nat.mod_le i.bytes.size (2 ^ 32)
  omega

/-- A run that finds its place lies between the base and the end of the window. -/
theorem Image.locate_ok {i : Image} {pc : UInt32} {run : List UInt8} {start : Nat}
    (h : i.locate pc run = .ok start) :
    run = [] ∨ i.base.toNat + start = pc.toNat ∧ start + run.length ≤ i.bytes.size := by
  unfold Image.locate at h
  dsimp only at h
  split_ifs at h with empty outside last past
  · exact Or.inl (List.isEmpty_iff.mp empty)
  · cases h
    right
    have bounds := Image.bounds_of_contains (show i.contains pc = true by simpa using outside)
    have inside : i.base ≤ pc := UInt32.le_iff_toNat_le.mpr bounds.1
    rw [UInt32.toNat_sub_of_le _ _ inside] at past ⊢
    omega

def byteAt (address : Nat) (run : List UInt8) (place : Nat) : Option UInt8 :=
  if address ≤ place then run[place - address]? else none

theorem byteAt_nil (address place : Nat) : byteAt address [] place = none := by
  simp [byteAt]

theorem Image.getElem?_overwrite {i : Image} {pc : UInt32} {run : List UInt8} {start : Nat}
    (h : i.locate pc run = .ok start) (k : Nat) :
    (i.overwrite start run).bytes[k]? =
      (byteAt pc.toNat run (i.base.toNat + k)).or i.bytes[k]? := by
  rcases Image.locate_ok h with rfl | ⟨base, fits⟩
  · rw [byteAt_nil]
    rfl
  · simp only [Image.overwrite, Image.getElem?_write fits, byteAt]
    by_cases within : start ≤ k ∧ k < start + run.length
    · rw [if_pos within, if_pos (by omega), show i.base.toNat + k - pc.toNat = k - start by omega,
        List.getElem?_eq_getElem (by omega)]
      rfl
    · rw [if_neg within]
      by_cases before : pc.toNat ≤ i.base.toNat + k
      · rw [if_pos before, List.getElem?_eq_none (by omega)]
        rfl
      · rw [if_neg before]
        rfl

/-- A run of bytes goes into the window at the location counter, which moves past it. Nothing else
in the image changes. -/
structure Cursor.Stores (p : Cursor) (run : List UInt8) (p' : Cursor) : Prop where
  base : p'.image.base = p.image.base
  counter : p'.counter.map UInt32.toNat = p.counter.map fun pc => pc.toNat + run.length
  inside : ∀ i < run.length, ∃ pc, p.counter = some pc ∧ p.image.base.toNat ≤ pc.toNat + i ∧
    pc.toNat + i < p.image.base.toNat + p.image.bytes.size
  bytes : ∀ k, p'.image.bytes[k]? =
    (p.counter.bind fun pc => byteAt pc.toNat run (p.image.base.toNat + k)).or p.image.bytes[k]?

theorem Cursor.Stores.nothing {p p' : Cursor} (image : p'.image = p.image)
    (counter : p'.counter = p.counter) : p.Stores [] p' := by
  constructor
  · rw [image]
  · rw [counter]
    rfl
  · intro i lt
    cases lt
  · intro k
    rw [image]
    cases p.counter <;> simp [byteAt_nil]

variable {config : Config} {p p' : Cursor} {outcome : Outcome} {outcomes : List Outcome}

theorem Moves.stored (h : Moves config p outcome p') (other : outcome.origin? = none)
    (room : p'.image.base.toNat + p.image.bytes.size < 2 ^ 32) :
    p.Stores outcome.stored p' := by
  cases h with
  | nothing | binding | widths => exact .nothing rfl rfl
  | firstOrigin | origin => cases other
  | bytes run pc start placed located =>
    have room : p.image.base.toNat + p.image.bytes.size < 2 ^ 32 := room
    rcases Image.locate_ok located with rfl | ⟨base, fits⟩
    · refine .nothing rfl ?_
      rw [placed]
      simp
    · have wraps : (pc + UInt32.ofNat run.length).toNat = pc.toNat + run.length := by
        rw [UInt32.toNat_add, UInt32.toNat_ofNat_of_lt' (by rw [UInt32.size]; omega)]
        exact Nat.mod_eq_of_lt (by omega)
      constructor
      · rfl
      · rw [placed]
        exact congrArg some wraps
      · intro i lt
        simp only [Outcome.stored] at lt
        exact ⟨pc, placed, by omega, by omega⟩
      · intro k
        rw [Image.getElem?_overwrite located, placed]
        rfl

theorem Moves.origin_sets {address : UInt32} (h : Moves config p (.origin address) p')
    (window : p.Window config) :
    p'.counter = some address ∧ p'.image.bytes = p.image.bytes := by
  have same := h.image_eq window (fun _ => Outcome.noConfusion) 0
  refine ⟨?_, (Image.mk.inj same).2.2⟩
  cases h <;> rfl

/-- Where a cursor can be after given outcomes: unset up to the first origin, and from then on in
the window that the settings or the first origin fix. -/
structure Cursor.Course (config : Config) (outcomes : List Outcome) (p : Cursor) : Prop
    extends p.Window config where
  unset : p.counter = none ↔ outcomes.findSome? Outcome.origin? = none
  first : config.romBase = none → ∀ address,
    outcomes.findSome? Outcome.origin? = some address → p.image.base = address
  inside : ∀ pc, p.counter = some pc →
    p.image.base.toNat + config.romSize.toNat < 2 ^ 32 →
    p.image.base.toNat ≤ pc.toNat ∧ pc.toNat ≤ p.image.base.toNat + config.romSize.toNat

theorem Image.toNat_limit {i : Image} (room : i.base.toNat + i.bytes.size < 2 ^ 32) :
    i.limit.toNat = i.base.toNat + i.bytes.size := by
  have size : i.size.toNat = i.bytes.size := by
    rw [Image.size, UInt32.toNat_ofNat']
    exact Nat.mod_eq_of_lt (by omega)
  have below : i.base.toNat + i.bytes.size < UInt32.size := room
  rw [Image.limit, saturatingAdd, size, if_pos below, UInt32.toNat_add, size]
  exact Nat.mod_eq_of_lt room

theorem findSome?_origin (outcomes : List Outcome) (outcome : Outcome) :
    (outcomes ++ [outcome]).findSome? Outcome.origin? =
      (outcomes.findSome? Outcome.origin?).or outcome.origin? := by
  rw [List.findSome?_append, List.findSome?_singleton]

theorem Image.base_rebased (i : Image) (address : UInt32) :
    (if i.base = address then i else i.rebase address).base = address := by
  split
  · next same => exact same
  · rfl

theorem Moves.course (h : Moves config p outcome p') (hp : p.Course config outcomes) :
    p'.Course config (outcomes ++ [outcome]) := by
  refine ⟨h.window hp.toWindow, ?_, ?_, ?_⟩
  · -- The counter is set by origins only, and only where it is set do bytes move it.
    rw [findSome?_origin, Option.or_eq_none_iff, ← hp.unset]
    cases h with
    | nothing | binding | widths => simp [Outcome.origin?]
    | firstOrigin | origin => simp [Outcome.origin?]
    | bytes run pc start placed => simp [placed]
  · intro free address found
    rw [findSome?_origin] at found
    cases h with
    | nothing | binding | widths | bytes =>
      simp only [Outcome.origin?, Option.or_none] at found
      exact hp.first free address found
    | firstOrigin address' unset =>
      rw [hp.unset.mp unset, Option.none_or] at found
      obtain rfl : address' = address := Option.some.inj found
      exact Image.base_rebased p.image address'
    | origin address' later =>
      have set : p.counter ≠ none := later.resolve_right fun fixed => fixed free
      obtain ⟨first, some⟩ := Option.ne_none_iff_exists'.mp fun none => set (hp.unset.mpr none)
      rw [some, Option.some_or] at found
      exact hp.first free address (some.trans found)
  · intro pc set room
    cases h with
    | nothing | binding | widths => exact hp.inside pc set room
    | firstOrigin address =>
      obtain rfl : address = pc := Option.some.inj set
      simp only [Image.base_rebased]
      omega
    | origin address _ inside =>
      obtain rfl : address = pc := Option.some.inj set
      rw [← hp.size] at room ⊢
      have base := UInt32.le_iff_toNat_le.mp inside.1
      have limit := UInt32.le_iff_toNat_le.mp inside.2
      rw [Image.toNat_limit room] at limit
      exact ⟨base, limit⟩
    | bytes run pc' start placed located =>
      have before := hp.inside pc' placed room
      obtain rfl : pc' + UInt32.ofNat run.length = pc := Option.some.inj set
      rw [← hp.size] at room before ⊢
      have moves : Moves config p (.bytes run) _ := .bytes run pc' start placed located
      have counter := (moves.stored rfl room).counter
      rw [placed] at counter
      have moved := Option.some.inj counter
      change p.image.base.toNat ≤ _ ∧ _ ≤ p.image.base.toNat + _
      rcases Image.locate_ok located with rfl | ⟨base, fits⟩
      · simp only [Outcome.stored, List.length_nil] at moved ⊢
        omega
      · simp only [Outcome.stored] at moved
        omega

theorem Passed.course {records records' : List Record} {w w' : Work}
    (h : Passed config records w records' w') (hw : w.cursor.Course config outcomes) :
    w'.cursor.Course config (outcomes ++ Work.outcomes config records w) := by
  induction h generalizing outcomes with
  | nil =>
    rw [Work.outcomes, List.append_nil]
    exact hw
  | @cons r rest _ w w₁ _ line _ ih =>
    have moved := (Step.runLine_moves line).course hw
    have rest := ih moved
    rw [List.append_assoc] at rest
    simp only [Work.outcomes, line]
    exact rest

/-- Every pass sets out with the counter unset and a blank window of the right size. -/
theorem Assembly.Reached.course {lines : List SourceLine} {q : Nat} {a : Assembly}
    (h : (Assembly.new config lines).Reached q a) :
    (a.work.startPass config (q + 1)).cursor.Course config [] := by
  refine ⟨Work.startPass_window h.window _, ?_, ?_, ?_⟩
  · simp [Work.cursor]
  · intro _ address found
    cases found
  · intro pc set
    simp [Work.cursor] at set

namespace Assembly

variable {lines : List SourceLine} {q : Nat} {a : Assembly} {before before' : List Record}
  {r : Record} {w w' : Work} {result : Except Halt Unit}

theorem Reached.course_after (reached : (new config lines).Reached q a)
    (passed : Passed config before (a.work.startPass config (q + 1)) before' w)
    (line : (Step.runLine config r.source).run { w with hint := r.hint } = (result, w')) :
    w'.cursor.Course config
      (Work.outcomes config (before ++ [r]) (a.work.startPass config (q + 1))) := by
  have here := passed.course reached.course
  rw [List.nil_append] at here
  rw [passed.outcomes_append]
  cases result with
  | ok =>
    simp only [Work.outcomes, line]
    exact (Step.runLine_moves line).course here
  | error halt =>
    simp only [Work.outcomes, line, List.append_nil]
    rw [(Step.runLine_refused line).cursor]
    exact here

/-- The location counter and the window after a line of a pass, where the window ends below the top
of the address space. The image has the size of the settings; its base is the one of the settings
or else the address of the first origin of the pass. The counter is unset up to that origin and in
the window or at its end from then on, and the window no longer moves. A line that is an origin sets
the counter and stores nothing; any other line stores its bytes at the counter, all of them in the
window, and moves the counter past them; a line that does not get done does neither. -/
theorem counter_in_window (reached : (new config lines).Reached q a)
    (passed : Passed config before (a.work.startPass config (q + 1)) before' w)
    (line : (Step.runLine config r.source).run { w with hint := r.hint } = (result, w'))
    (room : w'.image.base.toNat + config.romSize.toNat ≤ 2 ^ 32 - 1) :
    w'.image.bytes.size = config.romSize.toNat ∧
    (∀ base, config.romBase.or (Work.firstOrigin? config (before ++ [r])
      (a.work.startPass config (q + 1))) = some base → w'.image.base = base) ∧
    (w'.counter = none ↔ Work.firstOrigin? config (before ++ [r])
      (a.work.startPass config (q + 1)) = none) ∧
    (∀ pc, w'.counter = some pc → w'.image.base.toNat ≤ pc.toNat ∧
      pc.toNat ≤ w'.image.base.toNat + config.romSize.toNat) ∧
    (w.counter ≠ none → w'.image.base = w.image.base) ∧
    match result, Outcome.origin? (Work.outcome r.source { w with hint := r.hint }) with
    | .ok (), none =>
      w.cursor.Stores (Work.outcome r.source { w with hint := r.hint }).stored w'.cursor
    | .ok (), some address => w'.counter = some address ∧ w'.image.bytes = w.image.bytes
    | .error _, _ => w'.counter = w.counter ∧ w'.image = w.image := by
  have here := passed.course reached.course
  have course := reached.course_after passed line
  have room : w'.image.base.toNat + config.romSize.toNat < 2 ^ 32 := by omega
  refine ⟨course.size, ?_, course.unset, fun pc set => course.inside pc set room, ?_, ?_⟩
  · intro base found
    cases fixed : config.romBase with
    | some address =>
      rw [fixed, Option.some_or] at found
      exact course.fixed base (fixed.trans found)
    | none =>
      rw [fixed, Option.none_or] at found
      exact course.first fixed base found
  · intro set
    cases result with
    | ok => exact ((Step.runLine_moves line).base_eq set).2
    | error halt => exact congrArg (fun p => p.image.base) (Step.runLine_refused line).cursor
  · cases result with
    | error halt =>
      have same := (Step.runLine_refused line).cursor
      exact ⟨congrArg Cursor.counter same, congrArg Cursor.image same⟩
    | ok =>
      have moves := Step.runLine_moves line
      change Moves config w.cursor _ w'.cursor at moves
      cases origin : Outcome.origin? (Work.outcome r.source { w with hint := r.hint }) with
      | none =>
        refine moves.stored origin ?_
        rw [here.size]
        exact room
      | some address =>
        rw [Outcome.eq_of_origin? origin] at moves
        exact moves.origin_sets here.toWindow

def threeBytesSource : List SourceLine :=
  SourceLine.ofText "three.asm" " org $80\n db 1,2,3\n".toList

/-- Whether a first pass gets past the second line, with the location counter behind its bytes. -/
def threeBytesStored : Bool :=
  match Work.runLines { romSize := 16 } ((new { romSize := 16 } threeBytesSource).records.take 1)
      ((new { romSize := 16 } threeBytesSource).work.startPass { romSize := 16 } 1),
    (new { romSize := 16 } threeBytesSource).records[1]? with
  | (none, _, w), some r =>
    match (Step.runLine { romSize := 16 } r.source).run { w with hint := r.hint } with
    | (.ok (), w') => decide (w'.image.base.toNat + 16 ≤ 2 ^ 32 - 1 ∧ w'.counter = some 0x83)
    | _ => false
  | _, _ => false

theorem counter_in_window_three : ∃ before' w r w',
    Passed { romSize := 16 } ((new { romSize := 16 } threeBytesSource).records.take 1)
      ((new { romSize := 16 } threeBytesSource).work.startPass { romSize := 16 } 1) before' w ∧
    (new { romSize := 16 } threeBytesSource).records[1]? = some r ∧
    (Step.runLine { romSize := 16 } r.source).run { w with hint := r.hint } = (.ok (), w') ∧
    w'.image.base.toNat + 16 ≤ 2 ^ 32 - 1 ∧ w'.image.bytes.size = 16 ∧ w'.counter = some 0x83 ∧
    ∀ pc, w'.counter = some pc → w'.image.base.toNat ≤ pc.toNat ∧
      pc.toNat ≤ w'.image.base.toNat + 16 := by
  have runs : threeBytesStored = true := by decide +kernel
  rw [threeBytesStored] at runs
  split at runs
  · next before' w r ran line =>
    split at runs
    · next w' stored =>
      have facts := of_decide_eq_true runs
      have passed := passed_of_runLines ran
      obtain ⟨size, _, _, inside, _⟩ := counter_in_window .start passed stored facts.1
      exact ⟨before', w, r, w', passed, line, stored, facts.1, size, facts.2, inside⟩
    · cases runs
  · cases runs

end Assembly

end Assembler65816
