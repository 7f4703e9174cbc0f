import Assembler65816.Proofs.ByteStatements
import Assembler65816.Proofs.Window

/-! # Storing runs of bytes by offsets

The bytes that a line comes to are no more than twice the characters of the line, so their number
is a word for every source below 2 GiB. That makes every difference on the way into the image one
of numbers, and leaves the bounds of the buffer as the one check that can fail.
-/
namespace Assembler65816.Bytewise

open Text Instruction

theorem takeWord_sublist {t word rest : Text} (h : Text.takeWord t = some (word, rest)) :
    rest.Sublist t := by
  rw [← Text.takeWord_append h]
  exact List.sublist_append_right word rest

theorem equateExpression_sublist {rest expression : Text}
    (h : Statement.equateExpression? rest = some expression) : expression.Sublist rest := by
  rw [Statement.equateExpression?] at h
  split at h
  · cases h
  · next word after found =>
    split at h
    · cases h
      exact (trim_sublist after).trans ((takeWord_sublist found).trans (List.dropWhile_sublist _))
    · cases h

theorem argument_ofWord (word rest : Text) :
    (argument (Statement.ofWord word rest)).Sublist rest := by
  rw [Statement.ofWord]
  split
  · next expression found => exact equateExpression_sublist found
  · split
    case h_12 =>
      split
      · exact .refl rest
      · exact List.nil_sublist rest
    all_goals first | exact .refl rest | exact List.nil_sublist rest

theorem label_sublist {t name rest : Text} (h : ParsedLine.label? t = some (name, rest)) :
    rest.Sublist t := by
  rw [ParsedLine.label?] at h
  split at h
  · next found =>
    cases h
    have after := takeWord_sublist found
    exact ((List.sublist_cons_self ':' _).trans after).trans
      ((List.dropWhile_sublist _).trans (List.dropWhile_sublist _))
  · cases h

theorem peelLabels_sublist (limit : Nat) (t : Text) :
    (ParsedLine.peelLabels limit t).2.Sublist t := by
  induction limit generalizing t with
  | zero => exact .refl t
  | succ limit ih =>
    rw [ParsedLine.peelLabels]
    split
    · exact .refl t
    · next found => exact (ih _).trans (label_sublist found)

theorem argument_sublist (t : Text) : (argument (ParsedLine.ofText t).statement).Sublist t := by
  refine List.Sublist.trans ?_ (peelLabels_sublist t.length t)
  change (argument (Statement.ofText (ParsedLine.peelLabels t.length t).2)).Sublist _
  generalize (ParsedLine.peelLabels t.length t).2 = rest
  rw [Statement.ofText]
  split
  · next word after found =>
    exact (argument_ofWord word _).trans ((trim_sublist after).trans ((takeWord_sublist found).trans
      ((List.dropWhile_sublist _).trans (List.dropWhile_sublist _))))
  · split <;> exact List.nil_sublist rest

theorem cut_sublist (stop : Text → Bool) (q : Quote) (t : Text) :
    (Quote.cut stop q t).1.Sublist t := by
  conv_rhs => rw [← Quote.cut_append stop q t]
  exact List.sublist_append_left _ _

theorem code_sublist (line : Text) : (Comment.code line).Sublist line :=
  (trim_sublist _).trans ((cut_sublist _ _ _).trans (cut_sublist _ _ _))

theorem sublist_of_mem_lines {t line : Text} (h : line ∈ lines t) : line.Sublist t := by
  fun_induction lines t generalizing line with
  | case1 => cases h
  | case2 rest ih =>
    rcases List.mem_cons.mp h with rfl | later
    · exact List.nil_sublist _
    · exact (ih later).cons _
  | case3 rest ih =>
    rcases List.mem_cons.mp h with rfl | later
    · exact List.nil_sublist _
    · exact ((ih later).cons _).cons _
  | case4 c rest _ _ none ih =>
    obtain rfl := List.mem_singleton.mp h
    exact List.singleton_sublist.mpr List.mem_cons_self
  | case5 c rest _ _ first more found ih =>
    rcases List.mem_cons.mp h with rfl | later
    · exact (ih (by rw [found]; exact List.mem_cons_self)).cons_cons c
    · exact (ih (by rw [found]; exact List.mem_cons_of_mem _ later)).cons c

theorem code_of_mem_collect {file : String} {inBlock : Bool} {number : Nat} {raws : List Text}
    {place : SourceLine} (h : place ∈ SourceLine.collect file inBlock number raws) :
    ∃ raw ∈ raws, place.text = Comment.code raw := by
  fun_induction SourceLine.collect file inBlock number raws with
  | case1 => cases h
  | case2 number raw rest ih | case3 number raw rest _ ih =>
    obtain ⟨raw', mem, text⟩ := ih h
    exact ⟨raw', List.mem_cons_of_mem _ mem, text⟩
  | case4 number raw rest _ _ ih =>
    obtain ⟨raw', mem, text⟩ := ih h
    exact ⟨raw', List.mem_cons_of_mem _ mem, text⟩
  | case5 number raw rest _ _ ih =>
    rcases List.mem_cons.mp h with rfl | later
    · exact ⟨raw, List.mem_cons_self, rfl⟩
    · obtain ⟨raw', mem, text⟩ := ih later
      exact ⟨raw', List.mem_cons_of_mem _ mem, text⟩

/-- What a line has its expressions in is no larger than the source. -/
theorem size_argument_le {file : String} {text : Text} {place : SourceLine}
    (h : place ∈ SourceLine.ofText file text) :
    size (argument (ParsedLine.ofText place.text).statement) ≤ size text := by
  obtain ⟨raw, mem, code⟩ := code_of_mem_collect h
  rw [code]
  exact size_le_of_sublist ((argument_sublist _).trans
    ((code_sublist raw).trans (sublist_of_mem_lines mem)))

theorem length_decode_le (t : Text) : (Escape.decode t).length ≤ t.length := by
  fun_induction Escape.decode t with
  | case1 => exact Nat.le_refl 0
  | _ =>
    simp only [List.length_cons] at *
    omega

theorem itemSize_le {item : Text} (h : item ≠ []) : Step.itemSize item ≤ item.length := by
  have some := List.length_pos_iff.mpr h
  unfold Step.itemSize
  split
  · next rest =>
    have := length_decode_le rest.dropLast
    rw [List.length_dropLast] at this
    rw [List.length_cons]
    omega
  · omega

theorem length_fields_le (q : Quote) (t : Text) : (DataList.fields q t).flatten.length ≤ t.length := by
  induction t generalizing q with
  | nil => exact Nat.le_refl 0
  | cons c rest ih =>
    rw [DataList.fields]
    split
    · have := ih .outside
      simp only [List.flatten_cons, List.nil_append, List.length_cons]
      omega
    · have := ih (q.step c)
      split
      · simp
      · next found =>
        rw [found] at this
        simp only [List.flatten_cons, List.length_append, List.length_cons] at this ⊢
        omega

theorem itemSizes_le (list : Text) :
    (DataList.items list).foldr (fun item n => Step.itemSize item + n) 0 ≤ list.length := by
  refine Nat.le_trans ?_ (length_fields_le .outside list)
  rw [DataList.items]
  generalize DataList.fields .outside list = fields
  induction fields with
  | nil => exact Nat.le_refl 0
  | cons field more ih =>
    have shorter := (trim_sublist field).length_le
    rw [List.map_cons, List.flatten_cons, List.length_append]
    by_cases blank : trim field = []
    · rw [List.filter_cons_of_neg (by simp [blank])]
      omega
    · have := itemSize_le blank
      rw [List.filter_cons_of_pos (by simpa using blank), List.foldr_cons]
      omega

theorem encodeOperand_length {ctx : EncodeContext} {m : Mnemonic} {operand : Text} {form : Operand}
    {t t' : Trace} {run : List UInt8}
    (h : (encodeOperand ctx m operand form).run t = (.ok run, t')) : run.length ≤ 4 := by
  cases form with
  | empty | openIndirect | openIndirectLong => cases h
  | immediate expression =>
    have length := (encodeImmediate_yields ctx m expression operand t run t' h).1
    split at length <;> omega
  | address shape expression =>
    obtain ⟨_, width, _, _, _, length⟩ := encodeAddress_cases h
    cases width <;> simp only [Width.bytes] at length <;> omega
  | blockMove source destination =>
    have length := (encodeBlockMove_yields ctx m source destination operand t run t' h).1
    omega

theorem encodeExplicit_length {ctx : EncodeContext} {m : Mnemonic} {operand : Text} {t t' : Trace}
    {run : List UInt8} (h : (encodeExplicit ctx m operand).run t = (.ok run, t')) :
    run.length ≤ 4 := by
  rw [encodeExplicit] at h
  split at h
  · have length := (encodeBranch_yields ctx _ .relative operand t run t' h).1
    simp only [Mode.operandSize] at length
    omega
  · have length := (encodeBranch_yields ctx _ .relativeLong operand t run t' h).1
    simp only [Mode.operandSize] at length
    omega
  · split at h
    · obtain ⟨_, _, _, h⟩ := run_bind_ok h
      exact encodeOperand_length h
    · exact encodeOperand_length h

theorem encode_length {ctx : EncodeContext} {mnemonic operand : Text} {t t' : Trace}
    {run : List UInt8} (h : (encode ctx mnemonic operand).run t = (.ok run, t')) :
    run.length ≤ 4 := by
  rw [encode] at h
  split at h
  · cases h
  · rw [encodeMnemonic] at h
    split at h
    · split at h
      · cases h
        exact Nat.le_add_left 1 3
      · exact encodeExplicit_length h
    · split at h
      · cases h
      · exact encodeExplicit_length h

/-- The bytes that a statement comes to can be counted in a word. -/
theorem outcome_length {env : Env} {widths : RegisterWidths} {statement : Statement} {t t' : Trace}
    {outcome : Outcome} (short : size (argument statement) < 2 ^ 31)
    (h : (statement.outcome env widths).run t = (.ok outcome, t')) :
    outcome.stored.length < UInt32.size := by
  have none : 0 < UInt32.size := by decide
  cases statement with
  | nothing | rom | accumulatorWidth | indexWidth =>
    cases h
    exact none
  | faulty cause => cases h
  | equate name expression =>
    obtain ⟨_, _, _, h⟩ := run_bind_ok h
    cases h
    exact none
  | origin expression =>
    obtain ⟨value, _, _, h⟩ := run_bind_ok h
    cases value with
    | unresolved => cases h
    | known address =>
      cases h
      exact none
  | data size list =>
    simp only [Statement.outcome] at h
    split at h
    · cases h
    · obtain ⟨values, _, read, h⟩ := run_bind_ok h
      have count := (Step.dataValues_yields env size _ t values _ read).1
      have few := itemSizes_le list
      have least : list.length < 2 ^ 31 := Nat.lt_of_le_of_lt (length_le_size list) short
      have width : size.bytes ≤ 2 := by cases size <;> decide
      have total := Nat.mul_le_mul (count.trans_le few) width
      cases h
      simp only [Outcome.stored, List.length_flatMap, length_littleEndian, List.map_const',
        List.sum_replicate_nat]
      rw [UInt32.size]
      omega
  | instruction mnemonic operand =>
    obtain ⟨run, _, read, h⟩ := run_bind_ok h
    have length := encode_length read
    cases h
    rw [Outcome.stored, UInt32.size]
    omega

def contains? (i : Image) (address : UInt32) : Option Bool :=
  if i.base ≤ address then do return (← less? address.toNat i.base.toNat) < i.size.toNat
  else some false

theorem contains?_eq (i : Image) (address : UInt32) :
    contains? i address = some (i.contains address) := by
  rw [contains?, Image.contains]
  by_cases above : i.base ≤ address
  · have le := UInt32.le_iff_toNat_le.mp above
    have difference := UInt32.toNat_sub_of_le _ _ above
    simp [above, less?, le, UInt32.lt_iff_toNat_lt, difference]
  · simp [above]

/-- Where a run of bytes goes in the buffer. The number of its bytes is taken as a word. -/
def locate? (i : Image) (address : UInt32) (run : List UInt8) :
    Option (Except Image.StoreError Nat) :=
  match less? (run.length % UInt32.size) 1 with
  | none => some (.ok 0)
  | some more => do
    let last := saturatingAdd address (UInt32.ofNat more)
    if !(← contains? i address) then return .error (.outside address)
    else if !(← contains? i last) then return .error (.outside last)
    else
      let start ← less? address.toNat i.base.toNat
      return if i.bytes.size < start + run.length then .error .overrun else .ok start

theorem locate?_eq (i : Image) (address : UInt32) {run : List UInt8}
    (short : run.length < UInt32.size) : locate? i address run = some (i.locate address run) := by
  rw [locate?, Image.locate, Nat.mod_eq_of_lt short]
  cases run with
  | nil => rfl
  | cons byte rest =>
    have counted : less? (byte :: rest).length 1 = some ((byte :: rest).length - 1) :=
      if_pos (by simp)
    simp only [counted, contains?_eq, List.isEmpty_cons, Bool.false_eq_true, if_false]
    by_cases first : i.contains address = true
    · have above : i.base ≤ address :=
        UInt32.le_iff_toNat_le.mpr (Image.bounds_of_contains first).1
      have start : less? address.toNat i.base.toNat = some (address - i.base).toNat := by
        rw [UInt32.toNat_sub_of_le _ _ above]
        exact if_pos (UInt32.le_iff_toNat_le.mp above)
      rw [first]
      cases i.contains (saturatingAdd address (UInt32.ofNat ((byte :: rest).length - 1))) with
      | false => rfl
      | true =>
        simp only [start]
        rfl
    · simp [first]

def emit? (run : List UInt8) : OptionT Step Unit := do
  let w ← (get : Step Work)
  match w.counter with
  | none => (Step.fault .dataBeforeOrigin : Step Unit)
  | some pc =>
    match ← check (locate? w.image pc run) with
    | .error (.outside address) => (Step.fault (w.image.outsideFault address) : Step Unit)
    | .error .overrun => (throw .overrun : Step Unit)
    | .ok start =>
      (modify fun w =>
        { w with
          image := w.image.overwrite start run
          counter := some (pc + UInt32.ofNat run.length) } : Step Unit)

theorem emit?_eq {run : List UInt8} (short : run.length < UInt32.size) :
    emit? run = liftM (Step.emit run) := by
  simp only [emit?, Step.emit, locate?_eq _ _ short, check_some, pure_bind, liftM_bind]
  apply bind_congr
  intro w
  cases w.counter with
  | none => rfl
  | some pc =>
    simp only
    rcases w.image.locate pc run with (address | _) | start <;> rfl

def perform? (config : Config) (place : SourceLine) : Outcome → OptionT Step Unit
  | .bytes run => emit? run
  | outcome => Step.perform config place outcome

theorem perform?_eq (config : Config) (place : SourceLine) {outcome : Outcome}
    (short : outcome.stored.length < UInt32.size) :
    perform? config place outcome = liftM (Step.perform config place outcome) := by
  cases outcome with
  | nothing | binding | origin | widths => rfl
  | bytes run => exact emit?_eq short

def runLine? (config : Config) (place : SourceLine) : OptionT Step Unit := do
  let line ← check (line? place.text)
  (line.labels.forM (Step.defineLabel place) : Step Unit)
  let w ← (get : Step Work)
  let outcome ← traced? config place (outcome? w.env w.widths line.statement)
  perform? config place outcome

/-- What follows a step may differ on answers that the step does not give. -/
theorem lift_bind_congr {α β : Type} {x : Step α} {f g : α → OptionT Step β}
    (h : ∀ w a w', x.run w = (.ok a, w') → f a = g a) :
    (liftM x >>= f) = (liftM x >>= g) := by
  apply OptionT.ext
  apply ExceptT.ext
  funext w
  rw [OptionT.run_bind, OptionT.run_bind]
  change ((some <$> x) >>= _ : Step (Option β)).run w = ((some <$> x) >>= _ : Step (Option β)).run w
  rw [bind_map_left, bind_map_left, run_bind, run_bind]
  rcases ran : x.run w with ⟨halt | a, w'⟩
  · rfl
  · exact congrArg (fun y => y.run.run w') (h w a w' ran)

theorem runStatement_eq (config : Config) (place : SourceLine) (statement : Statement) :
    Step.runStatement config place statement = (do
      let w ← get
      let outcome ← Step.traced config place (statement.outcome w.env w.widths)
      Step.perform config place outcome) := by
  apply ExceptT.ext
  funext w
  rw [Step.runStatement_run, run_bind_of_ok (Step.get_run w), run_bind, Step.traced_run]
  rcases (statement.outcome w.env w.widths).run { hint := w.hint } with
    ⟨cause | outcome, trace⟩ <;> rfl

theorem runLine?_eq (config : Config) {place : SourceLine}
    (short : size (argument (ParsedLine.ofText place.text).statement) < 2 ^ 31) :
    runLine? config place = liftM (Step.runLine config place) := by
  rw [runLine?, line?_eq, Step.runLine, runStatement_eq, check_some, pure_bind]
  simp only [outcome?_eq _ _ short, traced?_lift, liftM_bind]
  apply bind_congr
  intro labelled
  apply bind_congr
  intro w
  apply lift_bind_congr
  intro v outcome v' ran
  rw [Step.traced_run] at ran
  rcases read : ((ParsedLine.ofText place.text).statement.outcome w.env w.widths).run
    { hint := v.hint } with ⟨cause | outcome', trace⟩
  · rw [read] at ran
    cases ran
  · rw [read] at ran
    cases ran
    exact perform?_eq config place (outcome_length short read)

end Assembler65816.Bytewise
