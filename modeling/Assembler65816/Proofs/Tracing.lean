import Assembler65816.Assembly.Execute
import Assembler65816.Proofs.Readings

/-! # What a line's evaluations leave behind

Encoding an instruction and reading a data list evaluate expressions and leave a trace. As long as
the trace asks for no other pass, result and trace stay the same when more becomes known. A trace
that does ask for one blames a missing name or a symbol without a value.
-/
namespace Assembler65816

section Run

variable {ε σ α β : Type}

theorem run_bind (x : ExceptT ε (StateM σ) α) (f : α → ExceptT ε (StateM σ) β) (s : σ) :
    (x >>= f).run s = match x.run s with
      | (.ok a, s') => (f a).run s'
      | (.error e, s') => (.error e, s') := by
  change (match x.run s with | (r, s') => ExceptT.bindCont f r s') = _
  rcases x.run s with ⟨_ | _, _⟩ <;> rfl

theorem run_bind_of_ok {x : ExceptT ε (StateM σ) α} {f : α → ExceptT ε (StateM σ) β} {s s' : σ}
    {a : α} (h : x.run s = (.ok a, s')) : (x >>= f).run s = (f a).run s' := by
  rw [run_bind, h]

theorem run_bind_ok {x : ExceptT ε (StateM σ) α} {f : α → ExceptT ε (StateM σ) β} {s s'' : σ}
    {b : β} (h : (x >>= f).run s = (.ok b, s'')) :
    ∃ a s', x.run s = (.ok a, s') ∧ (f a).run s' = (.ok b, s'') := by
  rw [run_bind] at h
  rcases hx : x.run s with ⟨e | a, s'⟩
  · rw [hx] at h
    cases h
  · rw [hx] at h
    exact ⟨a, s', rfl, h⟩

end Run

namespace Tracing

variable {env more : Env} {α β : Type}

/-- `y` does what `x` does wherever `x` asks for no other pass, and `x` accounts for its faults, for
asking and for the names it notes. -/
structure Follows (env : Env) (x y : Tracing α) : Prop where
  same : ∀ t, (x.run t).2.deferred = false → t.deferred = false ∧ y.run t = x.run t
  faults : ∀ t cause, (x.run t).1 = .error cause → cause.beyondText = false
  blamed : ∀ t, (x.run t).2.deferred = true →
    t.deferred = true ∨ (x.run t).2.missed ≠ [] ∨ ∃ name, env.lookup name = some .unresolved
  kept : ∀ t, t.missed ≠ [] → (x.run t).2.missed ≠ []
  absent : ∀ t, ∀ name ∈ (x.run t).2.missed, name ∈ t.missed ∨ env.lookup name = none

theorem Follows.pure (a : α) : Follows env (Pure.pure a) (Pure.pure a) :=
  ⟨fun _ h => ⟨h, rfl⟩, fun _ _ h => (by cases h), fun _ h => Or.inl h, fun _ h => h,
    fun _ _ h => Or.inl h⟩

theorem Follows.throw {cause : Fault} (h : cause.beyondText = false) :
    Follows env (MonadExcept.throw cause : Tracing α) (MonadExcept.throw cause) :=
  ⟨fun _ h => ⟨h, rfl⟩, fun _ _ h' => (by cases h'; exact h), fun _ h => Or.inl h, fun _ h => h,
    fun _ _ h => Or.inl h⟩

theorem Follows.bind {x y : Tracing α} {f g : α → Tracing β} (hx : Follows env x y)
    (hf : ∀ a, Follows env (f a) (g a)) : Follows env (x >>= f) (y >>= g) := by
  constructor
  · intro t hd
    rw [run_bind] at hd
    rcases hr : x.run t with ⟨cause | a, t'⟩
    · rw [hr] at hd
      obtain ⟨ht, same⟩ := hx.same t (by rw [hr]; exact hd)
      exact ⟨ht, by rw [run_bind, run_bind, same, hr]⟩
    · rw [hr] at hd
      obtain ⟨hd', samef⟩ := (hf a).same t' hd
      obtain ⟨ht, same⟩ := hx.same t (by rw [hr]; exact hd')
      exact ⟨ht, by rw [run_bind_of_ok (same.trans hr), run_bind_of_ok hr, samef]⟩
  · intro t cause hc
    rw [run_bind] at hc
    have faults := hx.faults t cause
    rcases hr : x.run t with ⟨cause' | a, t'⟩
    · rw [hr] at hc faults
      cases hc
      exact faults rfl
    · rw [hr] at hc
      exact (hf a).faults t' cause hc
  · intro t hd
    rcases hr : x.run t with ⟨cause | a, t'⟩
    · rw [run_bind, hr] at hd ⊢
      have := hx.blamed t (by rw [hr]; exact hd)
      rwa [hr] at this
    · rw [run_bind_of_ok hr] at hd ⊢
      rcases (hf a).blamed t' hd with hd' | blamed
      · have := hx.blamed t (by rw [hr]; exact hd')
        rw [hr] at this
        exact this.imp_right (Or.imp_left ((hf a).kept t'))
      · exact Or.inr blamed
  · intro t ht
    have kept := hx.kept t ht
    rcases hr : x.run t with ⟨cause | a, t'⟩
    · rw [hr] at kept
      rw [run_bind, hr]
      exact kept
    · rw [hr] at kept
      rw [run_bind_of_ok hr]
      exact (hf a).kept t' kept
  · intro t name hn
    have absent := hx.absent t name
    rcases hr : x.run t with ⟨cause | a, t'⟩
    · rw [hr] at absent
      rw [run_bind, hr] at hn
      exact absent hn
    · rw [hr] at absent
      rw [run_bind_of_ok hr] at hn
      rcases (hf a).absent t' name hn with before | fresh
      · exact absent before
      · exact Or.inr fresh

theorem get_run (t : Trace) : (get : Tracing Trace).run t = (.ok t, t) := rfl

theorem Follows.get : Follows env (MonadState.get : Tracing Trace) MonadState.get :=
  ⟨fun _ h => ⟨h, rfl⟩, fun _ _ h => (by cases h), fun _ h => Or.inl h, fun _ h => h,
    fun _ _ h => Or.inl h⟩

theorem Follows.caution (about : Caution) : Follows env (caution about) (caution about) := by
  have missed (t : Trace) : (t.add (.caution about)).missed = t.missed := by
    simp [Trace.add, Trace.missed, List.filterMap_append]
  refine ⟨fun _ h => ⟨h, rfl⟩, fun _ _ h => (by cases h), fun _ h => Or.inl h, fun t h => ?_,
    fun t name h => Or.inl ?_⟩
  · exact (missed t).symm ▸ h
  · exact missed t ▸ h

theorem Follows.remember (width : Width) : Follows env (remember width) (remember width) :=
  ⟨fun _ h => ⟨h, rfl⟩, fun _ _ h => (by cases h), fun _ h => Or.inl h, fun _ h => h,
    fun _ _ h => Or.inl h⟩

theorem Follows.eval (h : env.Extends more) (text : Text) :
    Follows env (Tracing.eval env text) (Tracing.eval more text) := by
  rw [Tracing.eval_eq, Tracing.eval_eq]
  cases Expression.eval_advances env text with
  | ok word stays =>
    rw [stays env (.refl env), stays more h]
    exact .pure _
  | fault plain stays =>
    rw [stays env (.refl env), stays more h]
    exact .throw plain
  | @missing name _ absent stays =>
    rw [stays env (.refl env) absent]
    have missed (t : Trace) :
        ((ofReading (.error (.missing name))).run t).2.missed = t.missed ++ [name] := by
      change (t.add (.missed name)).missed = _
      simp [Trace.missed, Trace.add, List.filterMap_append]
    refine ⟨fun _ h => (by cases h), fun _ _ h => (by cases h),
      fun t _ => Or.inr (Or.inl ?_), fun t _ => ?_, fun t other h => ?_⟩
    · rw [missed]
      simp
    · rw [missed]
      simp
    · rw [missed, List.mem_append, List.mem_singleton] at h
      rcases h with before | rfl
      · exact Or.inl before
      · exact Or.inr absent
  | pending waits stays =>
    rw [stays env (.refl env) waits]
    exact ⟨fun _ h => (by cases h), fun _ _ h => (by cases h),
      fun _ _ => Or.inr (Or.inr ⟨_, waits⟩), fun _ ht => ht, fun _ _ h => Or.inl h⟩

theorem Follows.mapM {f g : α → Tracing β} (h : ∀ a, Follows env (f a) (g a)) (l : List α) :
    Follows env (l.mapM f) (l.mapM g) := by
  induction l with
  | nil => exact .pure _
  | cons a rest ih =>
    rw [List.mapM_cons, List.mapM_cons]
    exact (h a).bind fun _ => ih.bind fun _ => .pure _

theorem Follows.forM {f g : α → Tracing PUnit} (h : ∀ a, Follows env (f a) (g a)) (l : List α) :
    Follows env (l.forM f) (l.forM g) := by
  induction l with
  | nil => exact .pure _
  | cons a rest ih => exact (h a).bind fun _ => ih

theorem Follows.cautionIf (c : Prop) [Decidable c] (about : Caution) {f g : PUnit → Tracing α}
    (h : Follows env (f ()) (g ())) :
    Follows env (if c then Tracing.caution about >>= f else f ())
      (if c then Tracing.caution about >>= g else g ()) := by
  split
  · exact (Follows.caution about).bind fun _ => h
  · exact h

/-- Every result of `x` satisfies `P`, and `x` leaves the remembered width as it is. -/
def Yields (x : Tracing α) (P : α → Prop) : Prop :=
  ∀ t a t', x.run t = (.ok a, t') → P a ∧ t'.hint = t.hint

variable {P : α → Prop} {Q : β → Prop}

theorem Yields.pure {a : α} (h : P a) : Yields (Pure.pure a) P := by
  intro t b t' hr
  cases hr
  exact ⟨h, rfl⟩

theorem Yields.throw (cause : Fault) : Yields (MonadExcept.throw cause) P := by
  intro t a t' hr
  cases hr

theorem Yields.bind {x : Tracing α} {f : α → Tracing β} (hx : Yields x P)
    (hf : ∀ a, P a → Yields (f a) Q) : Yields (x >>= f) Q := by
  intro t b t'' hr
  obtain ⟨a, t', ha, hb⟩ := run_bind_ok hr
  obtain ⟨pa, hint⟩ := hx t a t' ha
  obtain ⟨qb, hint'⟩ := hf a pa t' b t'' hb
  exact ⟨qb, hint'.trans hint⟩

/-- An evaluation that answers keeps the remembered width; a known answer is the value found. -/
theorem eval_run_ok {text : Text} {t t' : Trace} {value : Value}
    (h : (Tracing.eval env text).run t = (.ok value, t')) :
    t'.hint = t.hint ∧ ∀ word, value = .known word → Expression.eval env text = .ok word := by
  rw [Tracing.eval_eq] at h
  generalize Expression.eval env text = reading at h ⊢
  rcases reading with (cause | name | _) | found
  · cases h
  · cases h
    exact ⟨rfl, fun word hv => by cases hv⟩
  · cases h
    exact ⟨rfl, fun word hv => by cases hv⟩
  · cases h
    exact ⟨rfl, fun word hv => by cases hv; rfl⟩

theorem eval_deferred {text : Text} {t t' : Trace}
    (h : (Tracing.eval env text).run t = (.ok .unresolved, t')) : t'.deferred = true := by
  rw [Tracing.eval_eq] at h
  generalize Expression.eval env text = reading at h
  rcases reading with (cause | name | _) | found
  · cases h
  · cases h
    rfl
  · cases h
    rfl
  · cases h

theorem Yields.eval (env : Env) (text : Text) : Yields (Tracing.eval env text) fun _ => True :=
  fun _ _ _ hr => ⟨trivial, (eval_run_ok hr).1⟩

theorem Yields.caution (about : Caution) : Yields (caution about) fun _ => True := by
  intro t a t' hr
  cases hr
  exact ⟨trivial, rfl⟩

theorem Yields.cautionIf (c : Prop) [Decidable c] (about : Caution) {f : PUnit → Tracing α}
    (h : Yields (f ()) P) : Yields (if c then Tracing.caution about >>= f else f ()) P := by
  split
  · exact (Yields.caution about).bind fun _ _ => h
  · exact h

theorem Yields.forM {f : α → Tracing PUnit} (h : ∀ a, Yields (f a) fun _ => True) (l : List α) :
    Yields (l.forM f) fun _ => True := by
  induction l with
  | nil => exact .pure trivial
  | cons a rest ih => exact (h a).bind fun _ _ => ih

/-- Items that each give a fixed number of values give a fixed number together. -/
theorem Yields.mapM_length {f : α → Tracing (List β)} {size : α → Nat}
    (h : ∀ a, Yields (f a) fun values => values.length = size a) (l : List α) :
    Yields (l.mapM f) fun lists => lists.flatten.length = l.foldr (fun a n => size a + n) 0 := by
  induction l with
  | nil => exact .pure rfl
  | cons a rest ih =>
    rw [List.mapM_cons]
    refine (h a).bind fun values hv => ih.bind fun lists hl => .pure ?_
    simp only [List.flatten_cons, List.length_append, List.foldr_cons, hv, hl]

theorem eval_known {text : Text} {t t' s s' : Trace} {word : UInt32} {value : Value}
    (h : env.Extends more) (first : (Tracing.eval env text).run t = (.ok (.known word), t'))
    (later : (Tracing.eval more text).run s = (.ok value, s')) : value = .known word := by
  have found := (eval_run_ok first).2 word rfl
  rw [Tracing.eval_eq, Expression.eval_of_extends h found] at later
  cases later
  rfl

end Tracing

namespace Instruction

open Tracing

variable {env more : Env}

theorem chooseWidth_follows (env : Env) (m : Mnemonic) (shape : Shape) (operand : Text)
    (force : Option Width) (value : Value) :
    Follows env (chooseWidth m shape operand force value)
      (chooseWidth m shape operand force value) := by
  refine Follows.get.bind fun t => ?_
  split
  · exact .pure _
  · exact .pure _
  · split
    · exact .throw rfl
    · exact (Follows.remember _).bind fun _ => (Follows.caution _).bind fun _ => .pure _
  · split
    · exact .throw rfl
    · split
      · exact .throw rfl
      · exact .pure _

theorem encodeAddress_follows (h : env.Extends more) (widths : RegisterWidths) (m : Mnemonic)
    (shape : Shape) (expression operand : Text) :
    Follows env (encodeAddress ⟨env, widths⟩ m shape expression operand)
      (encodeAddress ⟨more, widths⟩ m shape expression operand) := by
  refine (Follows.eval h _).bind fun value => (chooseWidth_follows env m shape operand _ value).bind
    fun width => ?_
  split
  · exact .throw rfl
  · exact .pure _

theorem encodeImmediate_follows (h : env.Extends more) (widths : RegisterWidths) (m : Mnemonic)
    (expression operand : Text) :
    Follows env (encodeImmediate ⟨env, widths⟩ m expression operand)
      (encodeImmediate ⟨more, widths⟩ m expression operand) := by
  unfold encodeImmediate
  split
  · exact .throw rfl
  · exact (Follows.eval h _).bind fun value => .cautionIf _ _ (.pure _)

theorem encodeBlockMove_follows (h : env.Extends more) (widths : RegisterWidths) (m : Mnemonic)
    (source destination operand : Text) :
    Follows env (encodeBlockMove ⟨env, widths⟩ m source destination operand)
      (encodeBlockMove ⟨more, widths⟩ m source destination operand) := by
  unfold encodeBlockMove
  split
  · exact .throw rfl
  · exact (Follows.eval h _).bind fun _ => (Follows.eval h _).bind fun _ =>
      .cautionIf _ _ (.cautionIf _ _ (.pure _))

theorem encodeBranch_follows (h : env.Extends more) (widths : RegisterWidths) (op : UInt8)
    (mode : Mode) (operand : Text) :
    Follows env (encodeBranch ⟨env, widths⟩ op mode operand)
      (encodeBranch ⟨more, widths⟩ op mode operand) := by
  unfold encodeBranch
  simp only [h.address]
  split
  · exact .throw rfl
  · refine (Follows.eval h _).bind fun _ => ?_
    split
    · exact .throw rfl
    · exact .pure _

theorem encodeOperand_follows (h : env.Extends more) (widths : RegisterWidths) (m : Mnemonic)
    (operand : Text) (form : Operand) :
    Follows env (encodeOperand ⟨env, widths⟩ m operand form)
      (encodeOperand ⟨more, widths⟩ m operand form) := by
  cases form with
  | immediate expression => exact encodeImmediate_follows h widths m expression operand
  | address shape expression => exact encodeAddress_follows h widths m shape expression operand
  | blockMove source destination =>
    exact encodeBlockMove_follows h widths m source destination operand
  | empty | openIndirect | openIndirectLong => exact .throw rfl

theorem encode_follows (h : env.Extends more) (widths : RegisterWidths)
    (mnemonic operand : Text) :
    Follows env (encode ⟨env, widths⟩ mnemonic operand)
      (encode ⟨more, widths⟩ mnemonic operand) := by
  have explicit (m : Mnemonic) (operand : Text) :
      Follows env (encodeExplicit ⟨env, widths⟩ m operand)
        (encodeExplicit ⟨more, widths⟩ m operand) := by
    unfold encodeExplicit
    split
    · exact encodeBranch_follows h widths _ _ operand
    · exact encodeBranch_follows h widths _ _ operand
    · split
      · exact (Follows.caution _).bind fun _ => encodeOperand_follows h widths m operand _
      · exact encodeOperand_follows h widths m operand _
  unfold encode
  split
  · exact .throw rfl
  · unfold encodeMnemonic
    split
    · split
      · exact .pure _
      · exact explicit _ _
    · split
      · exact .throw rfl
      · exact explicit _ _

/-- A first run and a later one, in which more is known and the width that the first one remembered
is in force, give as many bytes. -/
structure Resized (x y : Tracing (List UInt8)) : Prop where
  length : ∀ t bytes t' s bytes' s', x.run t = (.ok bytes, t') → y.run s = (.ok bytes', s') →
    s.hint = t'.hint → bytes'.length = bytes.length ∧ s'.hint = t'.hint
  quiet : ∀ t bytes t', x.run t = (.ok bytes, t') → t'.deferred = false → t'.hint = t.hint

theorem Resized.of_yields {x y : Tracing (List UInt8)} {n : Nat}
    (hx : Yields x fun bytes => bytes.length = n) (hy : Yields y fun bytes => bytes.length = n) :
    Resized x y := by
  constructor
  · intro t bytes t' s bytes' s' first later hint
    obtain ⟨hn, _⟩ := hx t bytes t' first
    obtain ⟨hn', hint'⟩ := hy s bytes' s' later
    exact ⟨hn'.trans hn.symm, hint'.trans hint⟩
  · intro t bytes t' first _
    exact (hx t bytes t' first).2

theorem Resized.throw (cause : Fault) (y : Tracing (List UInt8)) :
    Resized (MonadExcept.throw cause) y := by
  constructor
  · intro t bytes t' s bytes' s' first
    cases first
  · intro t bytes t' first
    cases first

theorem Resized.after_caution {x y : Tracing (List UInt8)} (about : Caution)
    (h : Resized x y) :
    Resized (Tracing.caution about >>= fun _ => x) (Tracing.caution about >>= fun _ => y) := by
  constructor
  · intro t bytes t' s bytes' s' first later hint
    obtain ⟨_, t₁, ht, hx⟩ := run_bind_ok first
    obtain ⟨_, s₁, hs, hy⟩ := run_bind_ok later
    have kept := (Yields.caution about s _ s₁ hs).2
    exact h.length t₁ bytes t' s₁ bytes' s' hx hy (kept.trans hint)
  · intro t bytes t' first settled
    obtain ⟨_, t₁, ht, hx⟩ := run_bind_ok first
    exact (h.quiet t₁ bytes t' hx settled).trans (Yields.caution about t _ t₁ ht).2

/-- How the width of an address comes about, and what is remembered of it. -/
theorem chooseWidth_cases {m : Mnemonic} {shape : Shape} {operand : Text} {force : Option Width}
    {value : Value} {t t' : Trace} {width : Width}
    (h : (chooseWidth m shape operand force value).run t = (.ok width, t')) :
    (force = some width ∧ t'.hint = t.hint) ∨
    (force = none ∧ t'.hint = some width ∧
      (t.hint = some width ∨ t.hint = none ∧ value = .unresolved)) ∨
    (force = none ∧ t.hint = none ∧ t'.hint = none ∧ ∃ word least, value = .known word ∧
      Width.ofValue? word = some least ∧ promoteWidth? m shape least = some width) := by
  obtain ⟨seen, t₁, hg, h⟩ := run_bind_ok h
  cases hg
  split at h
  · cases h
    exact Or.inl ⟨rfl, rfl⟩
  · next hint _ =>
    cases h
    exact Or.inr (Or.inl ⟨rfl, hint, Or.inl hint⟩)
  · next hint _ =>
    split at h
    · cases h
    · cases h
      exact Or.inr (Or.inl ⟨rfl, rfl, Or.inr ⟨hint, rfl⟩⟩)
  · next word hint _ =>
    split at h
    · cases h
    · next least hl =>
      split at h
      · cases h
      · next hp =>
        cases h
        exact Or.inr (Or.inr ⟨rfl, hint, hint, word, least, rfl, hl, hp⟩)

theorem encodeAddress_cases {ctx : EncodeContext} {m : Mnemonic} {shape : Shape}
    {expression operand : Text} {t t' : Trace} {bytes : List UInt8}
    (h : (encodeAddress ctx m shape expression operand).run t = (.ok bytes, t')) :
    ∃ value width t₁, (Tracing.eval ctx.env (splitForce expression).2).run t = (.ok value, t₁) ∧
      (chooseWidth m shape operand (splitForce expression).1 value).run t₁ = (.ok width, t') ∧
      bytes.length = 1 + width.bytes := by
  obtain ⟨value, t₁, hv, h⟩ := run_bind_ok h
  obtain ⟨width, t₂, hw, h⟩ := run_bind_ok h
  split at h
  · cases h
  · cases h
    exact ⟨value, width, t₁, hv, hw, by simp [Nat.add_comm]⟩

theorem encodeAddress_quiet {ctx : EncodeContext} {m : Mnemonic} {shape : Shape}
    {expression operand : Text} {t t' : Trace} {bytes : List UInt8}
    (h : (encodeAddress ctx m shape expression operand).run t = (.ok bytes, t'))
    (settled : t'.deferred = false) : t'.hint = t.hint := by
  obtain ⟨value, width, t₁, hv, hw, _⟩ := encodeAddress_cases h
  have ht : t₁.hint = t.hint := (Yields.eval ctx.env _ t value t₁ hv).2
  have known : value ≠ .unresolved := by
    rintro rfl
    have asked := eval_deferred hv
    have same := (chooseWidth_follows ctx.env m shape operand (splitForce expression).1
      .unresolved).same t₁
    rw [hw] at same
    rw [(same settled).1] at asked
    cases asked
  rcases chooseWidth_cases hw with ⟨_, hk⟩ | ⟨_, hk, hk' | ⟨_, hu⟩⟩ | ⟨_, hk, hk', _⟩
  · exact hk.trans ht
  · rw [hk, ← hk', ht]
  · exact absurd hu known
  · rw [hk', ← hk, ht]

theorem encodeAddress_resized (h : env.Extends more) (widths : RegisterWidths) (m : Mnemonic)
    (shape : Shape) (expression operand : Text) :
    Resized (encodeAddress ⟨env, widths⟩ m shape expression operand)
      (encodeAddress ⟨more, widths⟩ m shape expression operand) := by
  refine ⟨?_, fun t bytes t' => encodeAddress_quiet⟩
  intro t bytes t' s bytes' s' first later hint
  obtain ⟨value, width, t₁, hv, hw, hn⟩ := encodeAddress_cases first
  obtain ⟨value', width', s₁, hv', hw', hn'⟩ := encodeAddress_cases later
  have ht : t₁.hint = t.hint := (Yields.eval env _ t value t₁ hv).2
  have hs : s₁.hint = s.hint := (Yields.eval more _ s value' s₁ hv').2
  have same : width' = width ∧ s'.hint = t'.hint := by
    rcases chooseWidth_cases hw with
      ⟨hf, hk⟩ | ⟨hf, hk, _⟩ | ⟨hf, hk, hk', word, least, rfl, hl, hp⟩
    · rcases chooseWidth_cases hw' with ⟨hf', hk'⟩ | ⟨hf', _⟩ | ⟨hf', _⟩
      · exact ⟨Option.some.inj (hf'.symm.trans hf), by rw [hk', hs, hint]⟩
      · simp [hf] at hf'
      · simp [hf] at hf'
    · rcases chooseWidth_cases hw' with ⟨hf', _⟩ | ⟨_, hk', hcase'⟩ | ⟨_, hk', _⟩
      · simp [hf] at hf'
      · rw [hs, hint, hk] at hcase'
        obtain rfl : width = width' := by simpa using hcase'
        exact ⟨rfl, hk'.trans hk.symm⟩
      · rw [hs, hint, hk] at hk'
        cases hk'
    · obtain rfl := Tracing.eval_known h hv hv'
      rcases chooseWidth_cases hw' with ⟨hf', _⟩ | ⟨_, _, hcase'⟩ | ⟨_, _, hs', w, l, hw, hl', hp'⟩
      · simp [hf] at hf'
      · simp [hs, hint, hk'] at hcase'
      · cases hw
        obtain rfl : l = least := Option.some.inj (hl'.symm.trans hl)
        exact ⟨Option.some.inj (hp'.symm.trans hp), hs'.trans hk'.symm⟩
  rw [hn, hn', same.1]
  exact ⟨rfl, same.2⟩

theorem encodeImmediate_yields (ctx : EncodeContext) (m : Mnemonic) (expression operand : Text) :
    Yields (encodeImmediate ctx m expression operand) fun bytes =>
      bytes.length = if isWide ctx.widths m then 3 else 2 := by
  unfold encodeImmediate
  split
  · exact .throw _
  · refine (Yields.eval ctx.env _).bind fun value _ => .cautionIf _ _ (.pure ?_)
    cases isWide ctx.widths m <;> simp

theorem encodeBlockMove_yields (ctx : EncodeContext) (m : Mnemonic)
    (source destination operand : Text) :
    Yields (encodeBlockMove ctx m source destination operand) fun bytes => bytes.length = 3 := by
  unfold encodeBlockMove
  split
  · exact .throw _
  · exact (Yields.eval ctx.env _).bind fun _ _ => (Yields.eval ctx.env _).bind fun _ _ =>
      .cautionIf _ _ (.cautionIf _ _ (.pure rfl))

theorem encodeBranch_yields (ctx : EncodeContext) (op : UInt8) (mode : Mode) (operand : Text) :
    Yields (encodeBranch ctx op mode operand) fun bytes =>
      bytes.length = mode.operandSize + 1 := by
  unfold encodeBranch
  split
  · exact .throw _
  · refine (Yields.eval ctx.env _).bind fun value _ => ?_
    dsimp only
    split
    · exact .throw _
    · exact .pure (by simp)

theorem encodeOperand_resized (h : env.Extends more) (widths : RegisterWidths) (m : Mnemonic)
    (operand : Text) (form : Operand) :
    Resized (encodeOperand ⟨env, widths⟩ m operand form)
      (encodeOperand ⟨more, widths⟩ m operand form) := by
  cases form with
  | immediate expression =>
    exact .of_yields (encodeImmediate_yields _ m expression operand)
      (encodeImmediate_yields _ m expression operand)
  | address shape expression => exact encodeAddress_resized h widths m shape expression operand
  | blockMove source destination =>
    exact .of_yields (encodeBlockMove_yields _ m source destination operand)
      (encodeBlockMove_yields _ m source destination operand)
  | empty | openIndirect | openIndirectLong => exact .throw _ _

theorem encode_resized (h : env.Extends more) (widths : RegisterWidths)
    (mnemonic operand : Text) :
    Resized (encode ⟨env, widths⟩ mnemonic operand) (encode ⟨more, widths⟩ mnemonic operand) := by
  have explicit (m : Mnemonic) (operand : Text) :
      Resized (encodeExplicit ⟨env, widths⟩ m operand)
        (encodeExplicit ⟨more, widths⟩ m operand) := by
    unfold encodeExplicit
    split
    · exact .of_yields (encodeBranch_yields _ _ _ operand) (encodeBranch_yields _ _ _ operand)
    · exact .of_yields (encodeBranch_yields _ _ _ operand) (encodeBranch_yields _ _ _ operand)
    · split
      · exact .after_caution _ (encodeOperand_resized h widths m operand _)
      · exact encodeOperand_resized h widths m operand _
  unfold encode
  split
  · exact .throw _ _
  · unfold encodeMnemonic
    split
    · split
      · exact .of_yields (.pure rfl) (.pure rfl)
      · exact explicit _ _
    · split
      · exact .throw _ _
      · exact explicit _ _

end Instruction

open Tracing in
theorem Step.dataValues_follows {env more : Env} (h : env.Extends more) (size : DataSize)
    (items : List Text) :
    Follows env (Step.dataValues env size items) (Step.dataValues more size items) := by
  have item (text : Text) : Follows env (Step.dataItem env text) (Step.dataItem more text) := by
    unfold Step.dataItem
    split
    · split
      · exact .pure _
      · exact .throw rfl
    · exact (Follows.eval h _).bind fun _ => .pure _
  have caution (value : UInt32) :
      Follows env (if size.limit < value then Tracing.caution (.dataRange value size.limit)
          else Pure.pure ())
        (if size.limit < value then Tracing.caution (.dataRange value size.limit)
          else Pure.pure ()) := by
    split
    · exact .caution _
    · exact .pure _
  exact (Follows.mapM item items).bind fun values => (Follows.forM caution _).bind fun _ => .pure _

def Step.itemSize : Text → Nat
  | '"' :: rest => (Escape.decode rest.dropLast).length
  | _ => 1

theorem Step.itemSize_of_unquoted {text : Text} (h : ∀ rest, text = '"' :: rest → False) :
    Step.itemSize text = 1 := by
  unfold Step.itemSize
  split
  · exact (h _ rfl).elim
  · rfl

open Tracing in
theorem Step.dataValues_yields (env : Env) (size : DataSize) (items : List Text) :
    Yields (Step.dataValues env size items) fun values =>
      values.length = items.foldr (fun item n => Step.itemSize item + n) 0 := by
  have item (text : Text) :
      Yields (Step.dataItem env text) fun values => values.length = Step.itemSize text := by
    unfold Step.dataItem
    split
    · next rest =>
      split
      · next body hb =>
        have : body = rest.dropLast := by
          unfold Text.dropLast? at hb
          split at hb
          · exact (Option.some.inj hb).symm
          · cases hb
        exact .pure (by simp [this, Step.itemSize])
      · exact .throw _
    · next unquoted =>
      rw [Step.itemSize_of_unquoted unquoted]
      exact (Yields.eval env _).bind fun _ _ => .pure rfl
  refine (Yields.mapM_length item items).bind fun lists hl => ?_
  refine (Yields.forM (fun value => ?_) _).bind fun _ _ => .pure hl
  split
  · exact .caution _
  · exact .pure trivial

end Assembler65816
