import Assembler65816.Proofs.Evaluation
import Mathlib.Logic.Relation

/-! # The places of a chain

The operators of a chain leave places between them. What stands in a place is an operand only
loosely: a place may be empty, the words of a text are put together, and of several groups the last
one counts. A chain has a value exactly if each of its places allows for one, and it is then well
formed unless it shows one of these three lapses. Text beside a group is refused.
-/
namespace Assembler65816.Expression

open Grammar (compute pick sign)

variable {env : Env}

theorem exists_of_bind_ok {α β ε : Type} {x : Except ε α} {f : α → Except ε β} {b : β}
    (h : (x >>= f) = .ok b) : ∃ a, x = .ok a ∧ f a = .ok b := by
  cases x with
  | error cause => cases h
  | ok a => exact ⟨a, rfl, h⟩

theorem error_of_map {α β ε : Type} {x : Except ε α} {f : α → β} {cause : ε}
    (h : x.map f = .error cause) : x = .error cause := by
  cases x with
  | error => cases h; rfl
  | ok a => cases h

theorem exists_step_of_foldlM {α β ε : Type} {step : β → α → Except ε β} {l : List α} {s last : β}
    (h : l.foldlM step s = .ok last) {x : α} (mem : x ∈ l) : ∃ a b, step a x = .ok b := by
  induction l generalizing s with
  | nil => cases mem
  | cons y l ih =>
    obtain ⟨next, step, rest⟩ := exists_of_bind_ok h
    rcases List.mem_cons.mp mem with rfl | mem
    · exact ⟨s, next, step⟩
    · exact ih rest mem

structure Level where
  form : Form
  text : Text
  deriving DecidableEq, Repr

namespace Level

def value (env : Env) (level : Level) : Reading := evalForm env level.form level.text

/-- The chain to which a level comes down, unless it is a name or a braced group. -/
def body? (env : Env) : Level → Option Text
  | ⟨.chain, t⟩ => if env.lookup (Text.trim t) = none then some (Text.trim t) else none
  | ⟨.enclosed, t⟩ => if env.lookup (Text.trim t) = none then enclosedBody? (Text.trim t) else none
  | ⟨.polish, _⟩ => none

/-- How a token of a braced group is evaluated if it is not an operator. -/
def ofToken (token : Text) : Level :=
  if token.head? = some '{' then ⟨.polish, inner token⟩
  else if token.head? = some '(' then ⟨.enclosed, token⟩
  else ⟨.chain, token⟩

theorem value_of_body? {level : Level} {body : Text} (h : level.body? env = some body) :
    level.value env = Chain.eval env (evalForm env) body := by
  obtain ⟨form, t⟩ := level
  cases form with
  | chain =>
    obtain ⟨absent, eq⟩ := Option.ite_none_right_eq_some.mp h
    cases eq
    change evalForm env .chain t = _
    rw [evalForm_chain, absent]
  | enclosed =>
    obtain ⟨absent, enclosed⟩ := Option.ite_none_right_eq_some.mp h
    change evalForm env .enclosed t = _
    rw [evalForm_enclosed, absent, enclosed]
  | polish => cases h

theorem operand_eq_value (token : Text) :
    Polish.operand (evalForm env) token = (ofToken token).value env := by
  unfold Polish.operand ofToken
  split
  · rfl
  · split <;> rfl

end Level

namespace Chain

def Item.group? : Item → Option (Except Fault Level)
  | .parens group => some (.ok ⟨.enclosed, group⟩)
  | .braces inside => some (.ok ⟨.polish, inside⟩)
  | .fault cause => some (.error cause)
  | .operator _ | .piece _ => none

def groupReading (env : Env) : Except Fault Level → Reading
  | .ok level => level.value env
  | .error cause => .error (.fault cause)

theorem State.step_group {body : Text} {s : State} {item : Item} {group : Except Fault Level}
    (h : item.group? = some group) : s.step env (evalForm env) body item =
      (groupReading env group >>= fun word => s.closeGroup body word) := by
  cases item with
  | operator | piece => cases h
  | parens | braces | fault =>
    cases h
    rfl

end Chain

inductive Level.Holds (env : Env) : Level → Level → Prop where
  | group {level inside : Level} {body : Text} {item : Chain.Item}
      (chain : level.body? env = some body) (mem : item ∈ Chain.items body 0 body)
      (opens : item.group? = some (.ok inside)) : Holds env level inside
  | token {whole token : Text} {tokens : List Text} (read : Polish.tokens whole = .ok tokens)
      (mem : token ∈ tokens) (operand : Operator.ofText? token = none) :
      Holds env ⟨.polish, whole⟩ (Level.ofToken token)

theorem Level.Holds.exists_value {outer inside : Level} (h : Level.Holds env outer inside)
    {word : UInt32} (value : outer.value env = .ok word) : ∃ word, inside.value env = .ok word := by
  cases h with
  | group chain mem opens =>
    rw [value_of_body? chain, Chain.eval_eq_fold] at value
    obtain ⟨last, run, -⟩ := exists_of_bind_ok value
    obtain ⟨a, b, step⟩ := exists_step_of_foldlM run mem
    rw [Chain.State.step_group opens] at step
    exact (exists_of_bind_ok step).imp fun _ => And.left
  | @token whole token tokens read mem operand =>
    change evalForm env .polish whole = _ at value
    rw [evalForm_polish, Polish.eval, read] at value
    obtain ⟨last, run, -⟩ := exists_of_bind_ok value
    obtain ⟨a, b, step⟩ := exists_step_of_foldlM run mem
    rw [Polish.step, operand, Level.operand_eq_value] at step
    cases found : (Level.ofToken token).value env with
    | error => rw [found] at step; cases step
    | ok word => exact ⟨word, rfl⟩

theorem Level.exists_value_of_reach {outer inside : Level}
    (h : Relation.ReflTransGen (Level.Holds env) outer inside) {word : UInt32}
    (value : outer.value env = .ok word) : ∃ word, inside.value env = .ok word := by
  induction h with
  | refl => exact ⟨word, value⟩
  | tail _ holds ih =>
    obtain ⟨_, value⟩ := ih
    exact holds.exists_value value

namespace Chain

/-- Characters that an item takes. Nothing comes after a fault. -/
def Item.width : Item → Nat
  | .operator op => (sign op).length
  | .piece text => text.length
  | .parens group => group.length
  | .braces inside => inside.length + 2
  | .fault _ => 0

structure Part where
  apart : Bool
  item : Item
  deriving DecidableEq, Repr

def partsOf : List Item → Text → List Part
  | [], _ => []
  | item :: later, t =>
    ⟨t.head?.any isAsciiBlank, item⟩ ::
      partsOf later ((t.dropWhile isAsciiBlank).drop item.width)

def parts (body : Text) : List Part := partsOf (items body 0 body) body

@[simp] theorem map_item_partsOf (l : List Item) (t : Text) : (partsOf l t).map Part.item = l := by
  induction l generalizing t with
  | nil => rfl
  | cons item later ih => rw [partsOf, List.map_cons, ih]

theorem ne_nil_of_mem_items {body t text : Text} {skip : Nat}
    (h : Item.piece text ∈ items body skip t) : text ≠ [] := by
  fun_induction items body skip t with
  | case1 => cases h
  | case2 _ _ _ ih | case3 _ _ _ ih => exact ih h
  | case4 _ _ _ _ _ ih | case5 _ _ _ _ _ _ ih | case8 _ _ _ _ _ _ _ _ _ ih
  | case10 _ _ _ _ _ _ _ _ _ _ ih =>
    cases h with
    | tail _ h => exact ih h
  | case6 _ _ _ _ _ _ _ _ ih | case13 _ _ _ _ _ _ _ _ _ ih =>
    cases h with
    | head => exact List.cons_ne_nil _ _
    | tail _ h => exact ih h
  | case7 | case9 | case11 | case12 => cases List.mem_singleton.mp h

abbrev Place := List Part

/-- The places of a chain, each with the operator before it; `place` is the part of the first one
that has been read. -/
def placesFrom (op : Option Operator) (place : Place) : List Part → List (Option Operator × Place)
  | [] => [(op, place)]
  | x :: rest =>
    match x.item with
    | .operator next => (op, place) :: placesFrom (some next) [] rest
    | _ => placesFrom op (place ++ [x]) rest

theorem placesFrom_operator {op : Option Operator} {place : Place} {x : Part} {next : Operator}
    (h : x.item = .operator next) (rest : List Part) :
    placesFrom op place (x :: rest) = (op, place) :: placesFrom (some next) [] rest := by
  rw [placesFrom, h]

theorem placesFrom_other {op : Option Operator} {place : Place} {x : Part}
    (h : ∀ next, x.item ≠ .operator next) (rest : List Part) :
    placesFrom op place (x :: rest) = placesFrom op (place ++ [x]) rest := by
  rw [placesFrom]
  split
  · next next found => exact absurd found (h next)
  · rfl

def places (body : Text) : List (Option Operator × Place) := placesFrom none [] (parts body)

def glue (p : Place) : Text :=
  p.flatMap fun x =>
    match x.item with
    | .piece text => text
    | _ => []

structure Cluster where
  lead : Place
  group : Except Fault Level

namespace Place

def Plain (p : Place) : Prop := ∀ x ∈ p, ∀ op, x.item ≠ .operator op

theorem plain_nil : Plain [] := by simp [Plain]

theorem Plain.concat {p : Place} (plain : p.Plain) {x : Part}
    (other : ∀ op, x.item ≠ .operator op) : Plain (p ++ [x]) := by
  intro y mem
  rcases List.mem_append.mp mem with mem | mem
  · exact plain y mem
  · cases List.mem_singleton.mp mem
    exact other

def clusters : Place → List Cluster × Place
  | [] => ([], [])
  | x :: rest =>
    match x.item.group?, clusters rest with
    | some group, (groups, after) => (⟨[], group⟩ :: groups, after)
    | none, ([], after) => ([], x :: after)
    | none, (c :: groups, after) => ({ c with lead := x :: c.lead } :: groups, after)

def groups (p : Place) : List Cluster := p.clusters.1

def after (p : Place) : Place := p.clusters.2

section Clusters

variable {x : Part} {p : Place}

theorem cons_of_group {group : Except Fault Level} (h : x.item.group? = some group) :
    groups (x :: p) = ⟨[], group⟩ :: p.groups ∧ after (x :: p) = p.after := by
  simp [groups, after, clusters, h]

theorem cons_of_text (h : x.item.group? = none) (last : p.groups = []) :
    groups (x :: p) = [] ∧ after (x :: p) = x :: p.after := by
  rw [groups] at last
  rw [groups, after, clusters, h, ← Prod.mk.eta (p := p.clusters), last]
  exact ⟨rfl, rfl⟩

theorem cons_of_lead (h : x.item.group? = none) {c : Cluster} {later : List Cluster}
    (next : p.groups = c :: later) :
    groups (x :: p) = { c with lead := x :: c.lead } :: later ∧ after (x :: p) = p.after := by
  rw [groups] at next
  rw [groups, after, clusters, h, ← Prod.mk.eta (p := p.clusters), next]
  exact ⟨rfl, rfl⟩

end Clusters

end Place

/-- The selector that a text before a group stands for, or that there is none. -/
def selector? : Text → Option (Option Selector)
  | [] => some none
  | [c] => (Selector.ofChar? c).map some
  | _ => none

def Cluster.value (env : Env) (body : Text) (c : Cluster) : Reading := do
  let word ← groupReading env c.group
  match selector? (glue c.lead) with
  | some selector => .ok (pick selector word)
  | none => .error (.fault (.badNumber body))

/-- The operand in a place, if there is one: groups are evaluated in order and the last one counts;
without groups the text is read as one atom. -/
def Place.operand (env : Env) (body : Text) (p : Place) : Except Obstacle (Option UInt32) := do
  let words ← p.groups.mapM (Cluster.value env body)
  match words.getLast?, glue p.after with
  | last, [] => .ok last
  | none, text => (Atom.read env text).map some
  | some _, text => .error (.fault (.textAfterGroup text))

/-- The total after one more place. An operator before an empty place is void. -/
def advance (env : Env) (body : Text) (total : UInt32) : Option Operator × Place → Reading
  | (op, place) => do
    match op, ← place.operand env body with
    | _, none => .ok total
    | none, some word => .ok word
    | some op, some word => compute op total word

def State.close (env : Env) (body : Text) (s : State) (c : Cluster) : Except Obstacle State :=
  groupReading env c.group >>= fun word =>
    State.closeGroup body word { s with term := s.term ++ glue c.lead }

theorem closeGroup_eq (body : Text) (word : UInt32) (s : State) :
    s.closeGroup body word =
      match selector? s.term with
      | some selector => .ok { s with term := [], group := some (pick selector word) }
      | none => .error (.fault (.badNumber body)) := by
  obtain ⟨total, op, term, group⟩ := s
  match term with
  | [] => rfl
  | [c] =>
    simp only [State.closeGroup, selector?]
    cases Selector.ofChar? c with
    | none => rfl
    | some selector => simp [Grammar.select_eq_pick]
  | _ :: _ :: _ => rfl

/-- Within a place the state changes group by group; the text after the last one stays pending. -/
theorem foldlM_place {body : Text} {p : Place} (plain : p.Plain) (s : State) :
    (p.map Part.item).foldlM (State.step env (evalForm env) body) s =
      (p.groups.foldlM (State.close env body) s >>= fun s =>
        .ok { s with term := s.term ++ glue p.after }) := by
  -- The term that has been read so far goes to the front of the first lead, or of what stands last.
  induction p generalizing s with
  | nil =>
    change (.ok s : Except Obstacle State) = .ok { s with term := s.term ++ [] }
    rw [List.append_nil]
  | cons x p ih =>
    have ih := ih fun y mem => plain y (by simp [mem])
    rw [List.map_cons, List.foldlM_cons]
    cases opens : x.item.group? with
    | some group =>
      obtain ⟨groups, after⟩ := Place.cons_of_group (p := p) opens
      have close : s.step env (evalForm env) body x.item = s.close env body ⟨[], group⟩ := by
        rw [State.step_group opens, State.close]
        simp [glue]
      rw [groups, after, close, List.foldlM_cons, bind_assoc]
      exact bind_congr ih
    | none =>
      obtain ⟨apart, item⟩ := x
      cases item with
      | parens | braces | fault => cases opens
      | operator op => exact absurd rfl (plain _ List.mem_cons_self op)
      | piece t =>
        change (p.map Part.item).foldlM _ { s with term := s.term ++ t } = _
        rw [ih]
        cases found : Place.groups p with
        | nil =>
          obtain ⟨groups, after⟩ := Place.cons_of_text opens found
          rw [groups, after]
          change Except.ok _ = Except.ok _
          simp [glue]
        | cons c later =>
          obtain ⟨groups, after⟩ := Place.cons_of_lead opens found
          rw [groups, after, List.foldlM_cons, List.foldlM_cons]
          simp [State.close, glue]

theorem foldlM_close (body : Text) (groups : List Cluster) (total : UInt32) (op : Option Operator)
    (last : Option UInt32) :
    groups.foldlM (State.close env body) { total, operator := op, group := last } =
      (groups.mapM (Cluster.value env body)).map fun words =>
        { total, operator := op, group := words.getLast?.or last } := by
  induction groups generalizing last with
  | nil => rfl
  | cons c groups ih =>
    have close : State.close env body { total, operator := op, group := last } c =
        (c.value env body).map fun word => { total, operator := op, group := some word } := by
      unfold State.close Cluster.value
      cases groupReading env c.group with
      | error => rfl
      | ok word =>
        change State.closeGroup _ _ _ = Except.map _ _
        rw [closeGroup_eq]
        change (match selector? (glue c.lead) with | some _ => _ | none => _) =
          Except.map _ (match selector? (glue c.lead) with | some _ => _ | none => _)
        cases selector? (glue c.lead) <;> rfl
    rw [List.foldlM_cons, close, List.mapM_cons]
    cases c.value env body with
    | error => rfl
    | ok word =>
      change groups.foldlM _ _ = _
      rw [ih]
      cases groups.mapM (Cluster.value env body) with
      | error => rfl
      | ok words =>
        change Except.ok _ = Except.ok _
        cases words <;> simp [List.getLast?_cons]

/-- What a place leaves behind is taken in by the next operator or at the end. -/
theorem flush_place {body : Text} {p : Place} (plain : p.Plain) (total : UInt32)
    (op next : Option Operator) :
    ((p.map Part.item).foldlM (State.step env (evalForm env) body) { total, operator := op } >>=
      State.flush env next) =
      (advance env body total (op, p)).map fun total => { total, operator := next <|> op } := by
  have flush (operand : Except Obstacle (Option UInt32)) :
      (operand >>= fun operand =>
        (State.combine { total, operator := op } operand).map fun total =>
          ({ total, operator := next <|> op } : State)) =
        (operand >>= fun operand =>
          match op, operand with
          | _, none => .ok total
          | none, some word => .ok word
          | some op, some word => compute op total word).map fun total =>
            { total, operator := next <|> op } := by
    match op, operand with
    | _, .error _ => rfl
    | _, .ok none => rfl
    | none, .ok (some _) => rfl
    | some op, .ok (some word) =>
      change (State.combine _ _).map _ = (compute op total word).map _
      rw [Grammar.combine_operator]
  rw [foldlM_place plain, foldlM_close, advance, ← flush, Place.operand]
  cases p.groups.mapM (Cluster.value env body) with
  | error => rfl
  | ok words =>
    change State.flush env next
      { total, operator := op, term := [] ++ glue p.after, group := words.getLast?.or none } =
      ((match words.getLast?, glue p.after with
        | last, [] => .ok last
        | none, text => (Atom.read env text).map some
        | some _, text => .error (.fault (.textAfterGroup text))) >>= _)
    rw [List.nil_append, Option.or_none]
    cases words.getLast? with
    | none => cases glue p.after <;> rfl
    | some last => cases glue p.after <;> rfl

/-- The fold over parts is the fold over places, from within a place on. -/
theorem flush_places (env : Env) (body : Text) (op : Option Operator) {place : Place}
    (plain : place.Plain) (rest : List Part) (total : UInt32) :
    (((place ++ rest).map Part.item).foldlM (State.step env (evalForm env) body)
      { total, operator := op } >>= fun last => (last.flush env none).map State.total) =
      (placesFrom op place rest).foldlM (advance env body) total := by
  induction rest generalizing op place total with
  | nil =>
    have ends (run : Except Obstacle State) :
        (run >>= fun last => (last.flush env none).map State.total) =
          (run >>= State.flush env none).map State.total := by
      cases run <;> rfl
    rw [List.append_nil, ends, flush_place plain, placesFrom, List.foldlM_cons]
    cases advance env body total (op, place) <;> rfl
  | cons x rest ih =>
    by_cases operator : ∃ next, x.item = .operator next
    · obtain ⟨next, found⟩ := operator
      have flush : (fun s : State => s.step env (evalForm env) body x.item >>= fun s =>
          (rest.map Part.item).foldlM (State.step env (evalForm env) body) s) =
          fun s => s.flush env (some next) >>= fun s =>
            (rest.map Part.item).foldlM (State.step env (evalForm env) body) s := by
        rw [found]
        rfl
      rw [placesFrom_operator found, List.map_append, List.foldlM_append, List.map_cons]
      simp only [List.foldlM_cons]
      rw [flush, ← bind_assoc, flush_place plain]
      cases advance env body total (op, place) with
      | error => rfl
      | ok total => exact ih (some next) Place.plain_nil total
    · have other := not_exists.mp operator
      rw [placesFrom_other other, ← ih op (plain.concat other), List.append_assoc]
      rfl

theorem eval_eq_foldlM_places (body : Text) :
    eval env (evalForm env) body = (places body).foldlM (advance env body) 0 := by
  have flushed := flush_places env body none Place.plain_nil (parts body) 0
  rw [List.nil_append, parts, map_item_partsOf] at flushed
  exact flushed

namespace Place

variable {p : Place}

theorem after_of_groups_nil (h : p.groups = []) : p.after = p := by
  induction p with
  | nil => rfl
  | cons x p ih =>
    cases opens : x.item.group? with
    | some group =>
      rw [(cons_of_group opens).1] at h
      cases h
    | none =>
      cases found : Place.groups p with
      | nil => rw [(cons_of_text opens found).2, ih found]
      | cons c later =>
        rw [(cons_of_lead opens found).1] at h
        cases h

theorem of_mem_after {x : Part} (h : x ∈ p.after) : x ∈ p ∧ x.item.group? = none := by
  induction p with
  | nil => cases h
  | cons y p ih =>
    have inside (mem : x ∈ Place.after p) : x ∈ y :: p ∧ x.item.group? = none :=
      (ih mem).imp_left (List.mem_cons_of_mem y)
    cases opens : y.item.group? with
    | some group =>
      rw [(cons_of_group opens).2] at h
      exact inside h
    | none =>
      cases found : Place.groups p with
      | nil =>
        rw [(cons_of_text opens found).2] at h
        rcases List.mem_cons.mp h with rfl | mem
        · exact ⟨List.mem_cons_self, opens⟩
        · exact inside mem
      | cons c later =>
        rw [(cons_of_lead opens found).2] at h
        exact inside h

end Place

theorem of_mem_placesFrom {op op' : Option Operator} {place p : Place} {rest : List Part}
    (h : (op', p) ∈ placesFrom op place rest) (plain : place.Plain) :
    p.Plain ∧ ∀ x ∈ p, x ∈ place ∨ x ∈ rest := by
  induction rest generalizing op place with
  | nil =>
    cases List.mem_singleton.mp h
    exact ⟨plain, fun x mem => .inl mem⟩
  | cons x rest ih =>
    by_cases operator : ∃ next, x.item = .operator next
    · obtain ⟨next, found⟩ := operator
      rw [placesFrom_operator found] at h
      rcases List.mem_cons.mp h with eq | h
      · cases eq
        exact ⟨plain, fun x mem => .inl mem⟩
      · refine (ih h Place.plain_nil).imp_right fun inside y mem => ?_
        rcases inside y mem with mem | mem
        · cases mem
        · exact .inr (List.mem_cons_of_mem x mem)
    · have other := not_exists.mp operator
      rw [placesFrom_other other] at h
      refine (ih h (plain.concat other)).imp_right fun inside y mem => ?_
      simpa [or_assoc] using inside y mem

section Mem

variable {body : Text} {op : Option Operator} {p : Place} (h : (op, p) ∈ places body)

include h

theorem item_mem_of_mem_places {x : Part} (mem : x ∈ p) : x.item ∈ items body 0 body := by
  rcases (of_mem_placesFrom h Place.plain_nil).2 x mem with mem | mem
  · cases mem
  · have item : x.item ∈ (parts body).map Part.item := List.mem_map_of_mem mem
    rwa [parts, map_item_partsOf] at item

theorem glue_after_ne_nil (more : p.after ≠ []) : glue p.after ≠ [] := by
  obtain ⟨x, later, after⟩ := List.exists_cons_of_ne_nil more
  obtain ⟨mem, text⟩ : x ∈ p ∧ x.item.group? = none := Place.of_mem_after (by simp [after])
  have found := item_mem_of_mem_places h mem
  have plain := (of_mem_placesFrom h Place.plain_nil).1 x mem
  rw [after]
  obtain ⟨apart, item⟩ := x
  cases item with
  | parens | braces | fault => cases text
  | operator op => exact absurd rfl (plain op)
  | piece t => exact List.append_ne_nil_of_left_ne_nil (ne_nil_of_mem_items found) _

end Mem

def Part.isSelector (x : Part) : Bool :=
  match x.item with
  | .piece [c] => (Selector.ofChar? c).isSome
  | _ => false

def Part.isQuoted (x : Part) : Bool :=
  match x.item with
  | .piece (c :: _) => isQuoteMark c
  | _ => false

/-- Two parts of one word: neither a blank nor a quotation mark parts them. -/
def Part.Joined (x y : Part) : Prop := y.apart = false ∧ x.isQuoted = false ∧ y.isQuoted = false

instance : DecidableRel Part.Joined := fun _ _ => inferInstanceAs (Decidable (_ ∧ _ ∧ _))

namespace Place

def word : Place → Place
  | [] => []
  | x :: rest => if x.isSelector then rest else x :: rest

/-- One operand: one word, or one group, each with at most a selector. -/
inductive Single (p : Place) : Prop where
  | word (text : p.groups = []) (some : p.word ≠ []) (joined : p.word.IsChain Part.Joined)
  | group {c : Cluster} (one : p.groups = [c]) (last : p.after = [])
      (lead : (selector? (glue c.lead)).isSome)

/-- Text stands directly beside a group, after it or as more than a selector before it. -/
def Crowded (p : Place) : Prop :=
  p.groups ≠ [] ∧ (p.after ≠ [] ∨ ∃ c ∈ p.groups, selector? (glue c.lead) = none)

end Place

def Signed (body : Text) : Prop :=
  ∃ op p rest, places body = (none, []) :: (some op, p) :: rest ∧ (op = .add ∨ op = .sub)

/-- Every place holds one operand; the first may be empty before a leading sign. -/
def WellFormed (body : Text) : Prop :=
  ∀ op p, (op, p) ∈ places body → p.Single ∨ (op = none ∧ p = [] ∧ Signed body)

/-- The ways in which a chain with a value can fail to be well formed. -/
inductive Lapse (body : Text) : Prop where
  | missing {op : Option Operator} (mem : (op, []) ∈ places body)
      (unsigned : op = none → ¬Signed body)
  | parted {op : Option Operator} {p : Place} (mem : (op, p) ∈ places body) (text : p.groups = [])
      (words : ¬p.word.IsChain Part.Joined)
  | doubled {op : Option Operator} {p : Place} (mem : (op, p) ∈ places body)
      (many : 2 ≤ p.groups.length)

theorem WellFormed.not_lapse {body : Text} (formed : WellFormed body) : ¬Lapse body := by
  rintro (⟨mem, unsigned⟩ | ⟨mem, text, words⟩ | ⟨mem, many⟩)
  · rcases formed _ _ mem with (⟨-, some, -⟩ | ⟨one, -, -⟩) | ⟨first, -, signed⟩
    · exact some rfl
    · cases one
    · exact unsigned first signed
  · rcases formed _ _ mem with (⟨-, -, joined⟩ | ⟨one, -, -⟩) | ⟨-, rfl, -⟩
    · exact words joined
    · rw [text] at one
      cases one
    · exact words .nil
  · rcases formed _ _ mem with (⟨text, -, -⟩ | ⟨one, -, -⟩) | ⟨-, rfl, -⟩
    · simp [text] at many
    · simp [one] at many
    · cases many

theorem of_mapM_ok {α β ε : Type} {f : α → Except ε β} {l : List α} {values : List β}
    (h : l.mapM f = .ok values) : values.length = l.length ∧ ∀ a ∈ l, ∃ b, f a = .ok b := by
  induction l generalizing values with
  | nil =>
    cases h
    simp
  | cons a l ih =>
    rw [List.mapM_cons] at h
    obtain ⟨b, here, h⟩ := exists_of_bind_ok h
    obtain ⟨later, there, h⟩ := exists_of_bind_ok h
    cases h
    obtain ⟨length, each⟩ := ih there
    refine ⟨by simp [length], fun x mem => ?_⟩
    rcases List.mem_cons.mp mem with rfl | mem
    · exact ⟨b, here⟩
    · exact each x mem

theorem of_mapM_error {α β ε : Type} {f : α → Except ε β} {l : List α} {cause : ε}
    (h : l.mapM f = .error cause) : ∃ a ∈ l, f a = .error cause := by
  induction l with
  | nil => cases h
  | cons a l ih =>
    rw [List.mapM_cons] at h
    cases here : f a with
    | error =>
      rw [here] at h
      cases h
      exact ⟨a, List.mem_cons_self, here⟩
    | ok b =>
      cases there : l.mapM f with
      | error =>
        rw [here, there] at h
        cases h
        exact (ih there).imp fun _ => .imp_left (List.mem_cons_of_mem a)
      | ok => rw [here, there] at h; cases h

theorem Cluster.selector_of_value {body : Text} {c : Cluster} {word : UInt32}
    (h : c.value env body = .ok word) : (selector? (glue c.lead)).isSome := by
  obtain ⟨_, -, h⟩ := exists_of_bind_ok h
  cases found : selector? (glue c.lead) with
  | none => rw [found] at h; cases h
  | some => rfl

theorem kind_of_body {text t : Text} {cause : Fault}
    (h : Atom.body env text t = .error (.fault cause)) : cause.kind = .malformed := by
  unfold Atom.body Atom.number Atom.counter Atom.literal Atom.symbol at h
  repeat' split at h
  all_goals cases h <;> rfl

theorem kind_of_read {t : Text} {cause : Fault} (h : Atom.read env t = .error (.fault cause)) :
    cause.kind = .malformed := by
  unfold Atom.read at h
  split at h
  · cases h
    rfl
  · split at h
    · exact kind_of_body (error_of_map h)
    · exact kind_of_body h

theorem read_selector {c : Char} (h : (Selector.ofChar? c).isSome) :
    Atom.read env [c] = .error (.fault (.missingOperand [c])) := by
  unfold Selector.ofChar? at h
  split at h
  · rfl
  · rfl
  · rfl
  · cases h

theorem word_ne_nil_of_read {p : Place} (more : p ≠ []) {word : UInt32}
    (h : Atom.read env (glue p) = .ok word) : p.word ≠ [] := by
  match p, more with
  | x :: rest, _ =>
    intro empty
    rw [Place.word] at empty
    split at empty
    · next selector =>
      subst empty
      obtain ⟨apart, item⟩ := x
      unfold Part.isSelector at selector
      split at selector
      · next c eq =>
        cases eq
        change Atom.read env [c] = _ at h
        rw [read_selector selector] at h
        cases h
      · cases selector
    · cases empty

section Mem

variable {body : Text} {op : Option Operator} {p : Place} (mem : (op, p) ∈ places body)

include mem

theorem operand_of_after (after : p.after ≠ []) {words : List UInt32}
    (run : p.groups.mapM (Cluster.value env body) = .ok words) :
    p.operand env body =
      if words = [] then (Atom.read env (glue p.after)).map some
      else .error (.fault (.textAfterGroup (glue p.after))) := by
  rw [Place.operand, run]
  obtain ⟨c, text, eq⟩ := List.exists_cons_of_ne_nil (glue_after_ne_nil mem after)
  rw [eq]
  cases words with
  | nil => rfl
  | cons word words => simp [bind, Except.bind, List.getLast?_cons]

/-- A place that does not refuse is empty, or its text is an atom, or it holds groups with at most
selectors before them. -/
theorem Place.cases_of_operand {operand : Option UInt32} (h : p.operand env body = .ok operand) :
    p = [] ∨ (p.groups = [] ∧ p.word ≠ []) ∨
      (p.groups ≠ [] ∧ p.after = [] ∧ ∀ c ∈ p.groups, (selector? (glue c.lead)).isSome) := by
  obtain ⟨words, run, -⟩ := exists_of_bind_ok h
  obtain ⟨length, each⟩ := of_mapM_ok run
  by_cases after : p.after = []
  · by_cases groups : p.groups = []
    · exact .inl (by rw [← after_of_groups_nil groups, after])
    · refine .inr (.inr ⟨groups, after, fun c mem => ?_⟩)
      obtain ⟨word, value⟩ := each c mem
      exact Cluster.selector_of_value value
  · rw [operand_of_after mem after run] at h
    obtain ⟨rfl, h⟩ : words = [] ∧ (Atom.read env (glue p.after)).map some = .ok operand := by
      split at h
      · next none => exact ⟨none, h⟩
      · cases h
    have groups : p.groups = [] := List.length_eq_zero_iff.mp length.symm
    rw [after_of_groups_nil groups] at h after
    cases read : Atom.read env (glue p) with
    | error => rw [read] at h; cases h
    | ok word => exact .inr (.inl ⟨groups, word_ne_nil_of_read after read⟩)

theorem operand_of_crowded (crowded : p.Crowded)
    (valued : ∀ c ∈ p.groups, ∃ word, groupReading env c.group = .ok word) :
    ∃ cause : Fault, cause.kind = .malformed ∧ p.operand env body = .error (.fault cause) := by
  obtain ⟨groups, beside⟩ := crowded
  cases run : p.groups.mapM (Cluster.value env body) with
  | error obstacle =>
    obtain ⟨c, inside, value⟩ := of_mapM_error run
    obtain ⟨word, reading⟩ := valued c inside
    rw [Cluster.value, reading] at value
    refine ⟨.badNumber body, rfl, ?_⟩
    rw [Place.operand, run]
    change (match selector? (glue c.lead) with | some _ => _ | none => _) = _ at value
    cases found : selector? (glue c.lead) with
    | some => rw [found] at value; cases value
    | none => rw [found] at value; cases value; rfl
  | ok words =>
    obtain ⟨length, each⟩ := of_mapM_ok run
    rcases beside with after | ⟨c, inside, none⟩
    · have more : words ≠ [] := by
        rintro rfl
        exact groups (List.length_eq_zero_iff.mp length.symm)
      exact ⟨.textAfterGroup (glue p.after), rfl,
        by rw [operand_of_after mem after run, if_neg more]⟩
    · obtain ⟨word, value⟩ := each c inside
      have selector := Cluster.selector_of_value value
      rw [none] at selector
      cases selector

end Mem

theorem wellFormed_of_operands {body : Text}
    (operands : ∀ op p, (op, p) ∈ places body → ∃ operand, p.operand env body = .ok operand)
    (strict : ¬Lapse body) : WellFormed body := by
  intro op p mem
  obtain ⟨operand, found⟩ := operands op p mem
  obtain rfl | ⟨text, word⟩ | ⟨groups, last, leads⟩ := Place.cases_of_operand mem found
  · refine .inr ?_
    by_contra unsigned
    exact strict (.missing mem fun first signed => unsigned ⟨first, rfl, signed⟩)
  · by_cases joined : p.word.IsChain Part.Joined
    · exact .inl (.word text word joined)
    · exact absurd (.parted mem text joined) strict
  · match eq : p.groups with
    | [] => exact absurd eq groups
    | [c] => exact .inl (.group eq last (leads c (by simp [eq])))
    | _ :: _ :: _ => exact absurd (.doubled mem (by simp [eq])) strict

theorem advance_nil (body : Text) (total : UInt32) (op : Option Operator) :
    advance env body total (op, []) = .ok total := by
  cases op <;> rfl

theorem exists_operand_of_value {body : Text} {word : UInt32}
    (h : eval env (evalForm env) body = .ok word) {op : Option Operator} {p : Place}
    (mem : (op, p) ∈ places body) : ∃ operand, p.operand env body = .ok operand := by
  rw [eval_eq_foldlM_places] at h
  obtain ⟨total, next, step⟩ := exists_step_of_foldlM h mem
  exact (exists_of_bind_ok step).imp fun _ => And.left

/-- A place that refuses where the fold gets to it decides the outcome. -/
theorem eval_of_refusal {body : Text} {front back : List (Option Operator × Place)}
    {op : Option Operator} {p : Place} {total : UInt32}
    (split : places body = front ++ (op, p) :: back)
    (before : front.foldlM (advance env body) 0 = .ok total) {obstacle : Obstacle}
    (refuses : p.operand env body = .error obstacle) :
    eval env (evalForm env) body = .error obstacle := by
  rw [eval_eq_foldlM_places, split, List.foldlM_append, before]
  change (advance env body total (op, p) >>= _) = _
  rw [advance, refuses]
  rfl

/-- At every level of an expression the places decide. An empty place is never refused, text beside
a group and text that is not an atom are malformed, and in an expression with a value a chain is
well formed unless it shows a lapse. -/
theorem value_by_places {text : Text} {level : Level} {body : Text}
    (inside : Relation.ReflTransGen (Level.Holds env) ⟨.chain, text⟩ level)
    (chain : level.body? env = some body) :
    level.value env = (places body).foldlM (advance env body) 0 ∧
    (∀ total op, advance env body total (op, []) = .ok total) ∧
    (∀ word, Expression.eval env text = .ok word → (WellFormed body ↔ ¬Lapse body)) ∧
    (∀ front op (p : Place) back total, places body = front ++ (op, p) :: back →
      front.foldlM (advance env body) 0 = .ok total →
      (p.Crowded → (∀ c ∈ p.groups, ∃ word, groupReading env c.group = .ok word) →
        ∃ cause : Fault, cause.kind = .malformed ∧ level.value env = .error (.fault cause)) ∧
      (p.groups = [] → p ≠ [] → ∀ cause, Atom.read env (glue p) = .error (.fault cause) →
        cause.kind = .malformed ∧ level.value env = .error (.fault cause))) := by
  have value := Level.value_of_body? chain
  refine ⟨by rw [value, eval_eq_foldlM_places], advance_nil body, fun word accepted => ?_,
    fun front op p back total split before => ?_⟩
  · obtain ⟨inner, found⟩ : ∃ word, level.value env = .ok word :=
      Level.exists_value_of_reach inside accepted
    rw [value] at found
    exact ⟨WellFormed.not_lapse,
      wellFormed_of_operands fun op p mem => exists_operand_of_value found mem⟩
  · have mem : (op, p) ∈ places body := by simp [split]
    rw [value]
    constructor
    · intro crowded valued
      obtain ⟨cause, kind, refuses⟩ := operand_of_crowded mem crowded valued
      exact ⟨cause, kind, eval_of_refusal split before refuses⟩
    · intro groups more cause read
      have after := Place.after_of_groups_nil groups
      have run : p.groups.mapM (Cluster.value env body) = .ok [] := by rw [groups]; rfl
      have refuses := operand_of_after mem (by rwa [after]) run
      rw [if_pos rfl, after, read] at refuses
      exact ⟨kind_of_read read, eval_of_refusal split before refuses⟩

/-- The inner chain of `"1+(2 +)"` has the value 2 with an operand missing. -/
theorem value_by_places_missing :
    Relation.ReflTransGen (Level.Holds ⟨fun _ => none, none⟩)
        ⟨.chain, ['1', '+', '(', '2', ' ', '+', ')']⟩ ⟨.enclosed, ['(', '2', ' ', '+', ')']⟩ ∧
      Level.body? ⟨fun _ => none, none⟩ ⟨.enclosed, ['(', '2', ' ', '+', ')']⟩ =
        some ['2', ' ', '+'] ∧
      Lapse ['2', ' ', '+'] := by
  let env : Env := ⟨fun _ => none, none⟩
  have inside : Relation.ReflTransGen (Level.Holds env)
      ⟨.chain, ['1', '+', '(', '2', ' ', '+', ')']⟩ ⟨.enclosed, ['(', '2', ' ', '+', ')']⟩ :=
    .single (.group rfl (List.mem_of_getElem? (i := 2) rfl) rfl)
  have chain : Level.body? env ⟨.enclosed, ['(', '2', ' ', '+', ')']⟩ = some ['2', ' ', '+'] := rfl
  obtain ⟨-, -, lapses, -⟩ := value_by_places inside chain
  refine ⟨inside, chain, ?_⟩
  by_contra strict
  have formed := (lapses 3 rfl).mpr strict
  rcases formed (some .add) [] (by decide) with (⟨-, more, -⟩ | ⟨one, -, -⟩) | ⟨first, -, -⟩
  · exact more rfl
  · cases one
  · cases first

/-- Chains with a missing operand, with two numbers in one place and with two groups in one place
have values. -/
theorem lapses_accepted :
    Expression.eval ⟨fun _ => none, none⟩ ['1', ' ', '+'] = .ok 1 ∧ ¬WellFormed ['1', ' ', '+'] ∧
    Expression.eval ⟨fun _ => none, none⟩ ['1', ' ', '2'] = .ok 12 ∧ ¬WellFormed ['1', ' ', '2'] ∧
    Expression.eval ⟨fun _ => none, none⟩ ['(', '1', ')', '(', '2', ')'] = .ok 2 ∧
      ¬WellFormed ['(', '1', ')', '(', '2', ')'] := by
  have void : (some .add, []) ∈ places ['1', ' ', '+'] := by decide
  have words : (none, [⟨false, .piece ['1']⟩, ⟨true, .piece ['2']⟩]) ∈ places ['1', ' ', '2'] := by
    decide
  have groups : (none, [⟨false, .parens ['(', '1', ')']⟩, ⟨false, .parens ['(', '2', ')']⟩]) ∈
      places ['(', '1', ')', '(', '2', ')'] := by decide
  refine ⟨rfl, fun formed => ?_, rfl, fun formed => ?_, rfl, fun formed => ?_⟩
  · exact formed.not_lapse (.missing void (by simp))
  · exact formed.not_lapse (.parted words rfl (by decide))
  · exact formed.not_lapse (.doubled groups (by decide))

end Chain

end Assembler65816.Expression
