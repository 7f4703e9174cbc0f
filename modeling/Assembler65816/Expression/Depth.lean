import Assembler65816.Expression.Eval

/-! # The depth bound

Evaluation is defined with a bound on the nesting. Every group inside a text is shorter than the
text, so the bound that `evalForm` takes from the length is never reached: `evalWithin` gives the
same answer at every depth from there on, and `evalForm` satisfies the equations without a bound.
-/

namespace Assembler65816

theorem Text.length_trim_le (t : Text) : (Text.trim t).length ≤ t.length := by
  have drop (s : Text) : (s.dropWhile isBlank).length ≤ s.length :=
    (List.dropWhile_sublist _).length_le
  have h := drop (t.dropWhile isBlank).reverse
  rw [List.length_reverse] at h
  simpa [Text.trim, Text.trimEnd, Text.trimStart] using Nat.le_trans h (drop t)

namespace Expression

theorem bounds_of_map_succ {o : Option Nat} {length n : Nat}
    (ih : ∀ {m}, o = some m → 1 ≤ m ∧ m ≤ length) (h : o.map (· + 1) = some n) :
    1 ≤ n ∧ n ≤ length + 1 := by
  obtain ⟨m, hm, rfl⟩ := Option.map_eq_some_iff.1 h
  have := ih hm
  omega

theorem Brackets.span_bounds (b : Brackets) {depth : Nat} {q : Quote} {t : Text} {n : Nat}
    (h : b.span depth q t = some n) : 1 ≤ n ∧ n ≤ t.length := by
  fun_induction Brackets.span b depth q t generalizing n with
  | case1 => contradiction
  | case4 =>
    cases h
    simp
  | case2 _ _ _ _ ih | case3 _ _ _ _ _ ih | case5 _ _ _ _ _ _ _ ih | case6 _ _ _ _ _ _ ih
  | case7 _ _ _ _ _ ih => exact bounds_of_map_succ ih h

theorem Brackets.groupLength_le (b : Brackets) {t : Text} {n : Nat}
    (h : b.groupLength t = some n) : n ≤ t.length := (b.span_bounds h).2

theorem length_inner (group : Text) : (inner group).length = group.length - 2 := by
  simp [inner, Nat.sub_sub]

theorem length_inner_take_add_two_le {t : Text} {n : Nat} (hn : n ≤ t.length) (ht : 2 ≤ n) :
    (inner (t.take n)).length + 2 ≤ t.length := by
  rw [length_inner, List.length_take, Nat.min_eq_left hn]
  omega

theorem Brackets.two_le_groupLength (b : Brackets) (hq : isQuoteMark b.opening = false)
    {rest : Text} {n : Nat} (h : b.groupLength (b.opening :: rest) = some n) : 2 ≤ n := by
  simp only [Brackets.groupLength, Brackets.span, hq, beq_self_eq_true, if_true] at h
  obtain ⟨m, hm, rfl⟩ := Option.map_eq_some_iff.1 h
  have := (b.span_bounds hm).1
  omega

def Chain.Item.Fits (length : Nat) : Chain.Item → Prop
  | .parens group => 0 < length ∧ group.length ≤ length
  | .braces inside => inside.length + 2 ≤ length
  | _ => True

theorem Chain.Item.Fits.mono {length more : Nat} {item : Chain.Item} (h : item.Fits length)
    (le : length ≤ more) : item.Fits more := by
  cases item <;> simp_all only [Fits] <;> omega

theorem Chain.fits_of_mem_items {body t : Text} {skip : Nat} {item : Chain.Item}
    (h : item ∈ Chain.items body skip t) : item.Fits t.length := by
  have later {rest : Text} {c : Char} (h : item.Fits rest.length) :
      item.Fits (c :: rest).length := h.mono (by simp)
  fun_induction Chain.items body skip t with
  | case1 => cases h
  | case2 _ _ _ ih => exact later (ih h)
  | case3 _ _ _ ih => exact later (ih h)
  | case4 _ _ _ _ _ ih | case5 _ _ _ _ _ _ ih | case6 _ _ _ _ _ _ _ _ ih =>
    rcases List.mem_cons.1 h with rfl | h
    · trivial
    · exact later (ih h)
  | case8 c rest _ _ _ _ _ n hn ih =>
    rcases List.mem_cons.1 h with rfl | h
    · exact ⟨by simp, List.length_take_le' ..⟩
    · exact later (ih h)
  | case10 c rest _ _ _ hc n hn _ _ ih =>
    rcases List.mem_cons.1 h with rfl | h
    · have hc : c = '{' := by simpa using hc
      subst hc
      exact length_inner_take_add_two_le (braces.groupLength_le hn)
        (braces.two_le_groupLength rfl hn)
    · exact later (ih h)
  | case7 | case9 | case11 | case12 =>
    cases List.mem_singleton.1 h
    trivial
  | case13 _ _ _ _ _ _ _ _ _ ih =>
    rcases List.mem_cons.1 h with rfl | h
    · trivial
    · exact later (ih h)

/-- The fold over a chain asks only for the values of its groups. -/
theorem Chain.foldlM_step_congr {env : Env} {read read' : Form → Text → Reading} {body : Text}
    (items : List Chain.Item)
    (parens : ∀ group, .parens group ∈ items → read .enclosed group = read' .enclosed group)
    (braces : ∀ inside, .braces inside ∈ items → read .polish inside = read' .polish inside)
    (s : Chain.State) :
    items.foldlM (Chain.State.step env read body) s =
      items.foldlM (Chain.State.step env read' body) s := by
  induction items generalizing s with
  | nil => rfl
  | cons item rest ih =>
    have here : Chain.State.step env read body s item = Chain.State.step env read' body s item := by
      cases item with
      | parens group => simp only [Chain.State.step, parens group (by simp)]
      | braces inside => simp only [Chain.State.step, braces inside (by simp)]
      | operator | piece | fault => rfl
    simp only [List.foldlM_cons, here]
    exact bind_congr fun s =>
      ih (fun g h => parens g (by simp [h])) (fun i h => braces i (by simp [h])) s

/-- The value of a chain depends only on the values of shorter groups. -/
theorem Chain.eval_congr {env : Env} {read read' : Form → Text → Reading} {body : Text}
    (parens : ∀ group, 0 < body.length → group.length ≤ body.length →
      read .enclosed group = read' .enclosed group)
    (braces : ∀ inside, inside.length + 2 ≤ body.length →
      read .polish inside = read' .polish inside) :
    Chain.eval env read body = Chain.eval env read' body := by
  unfold Chain.eval
  rw [Chain.foldlM_step_congr _
    (fun g h => parens g (Chain.fits_of_mem_items h).1 (Chain.fits_of_mem_items h).2)
    (fun i h => braces i (Chain.fits_of_mem_items h))]

def Polish.Place.taken : Polish.Place → Text
  | .skip _ => []
  | .word taken _ => taken

theorem length_le_of_map_cons {e : Except Fault (List Text)} {first token : Text}
    {tokens : List Text} {k : Nat} (h : e.map (first :: ·) = .ok tokens) (mem : token ∈ tokens)
    (here : first.length ≤ k) (there : ∀ {rest}, e = .ok rest → token ∈ rest → token.length ≤ k) :
    token.length ≤ k := by
  cases e with
  | error => contradiction
  | ok rest =>
    cases h
    rcases List.mem_cons.1 mem with rfl | mem
    · exact here
    · exact there rfl mem

theorem Polish.length_le_of_mem_tokensFrom {whole t token : Text} {place : Polish.Place}
    {tokens : List Text} (h : Polish.tokensFrom whole place t = .ok tokens)
    (mem : token ∈ tokens) : token.length ≤ place.taken.length + t.length := by
  fun_induction Polish.tokensFrom whole place t generalizing tokens with
  | case1 =>
    cases h
    cases mem
  | case2 _ _ _ ih | case3 _ _ _ ih | case9 _ _ _ _ _ _ ih =>
    have := ih h mem
    simp only [Place.taken, List.length_nil, List.length_cons] at this ⊢
    omega
  | case4 c rest _ _ n _ ih | case6 c rest _ _ _ n _ ih =>
    have there {rest'} (h : tokensFrom whole (.skip (n - 1)) rest = .ok rest')
        (mem : token ∈ rest') : token.length ≤ (c :: rest).length := by
      have := ih h mem
      simp only [Place.taken, List.length_nil, List.length_cons] at this ⊢
      omega
    simpa [Place.taken] using length_le_of_map_cons h mem (List.length_take_le' ..) there
  | case10 =>
    cases h
    cases List.mem_singleton.1 mem
    simp [Place.taken]
  | case12 taken _ c rest _ ih =>
    refine length_le_of_map_cons h mem (by simp [Place.taken]) fun h mem => ?_
    have := ih h mem
    simp only [Place.taken, List.length_nil, List.length_cons] at this ⊢
    omega
  | case14 taken _ c rest _ _ ih =>
    have := ih h mem
    simp only [Place.taken, List.length_append, List.length_cons, List.length_nil] at this ⊢
    omega
  | case5 | case7 | case8 | case11 | case13 => contradiction

/-- The value of a group depends only on the values of its tokens. -/
theorem Polish.eval_congr {read read' : Form → Text → Reading} {whole : Text}
    (chain : ∀ token, token.length ≤ whole.length → read .chain token = read' .chain token)
    (enclosed : ∀ token, token.head? = some '(' → token.length ≤ whole.length →
      read .enclosed token = read' .enclosed token)
    (polish : ∀ inside, inside.length + 1 ≤ whole.length →
      read .polish inside = read' .polish inside) :
    Polish.eval read whole = Polish.eval read' whole := by
  unfold Polish.eval
  cases hr : Polish.tokens whole with
  | error => rfl
  | ok tokens =>
    have operand (token : Text) (mem : token ∈ tokens) :
        Polish.operand read token = Polish.operand read' token := by
      have le : token.length ≤ whole.length := by
        simpa [Place.taken] using Polish.length_le_of_mem_tokensFrom hr mem
      have pos {c} (h : token.head? = some c) : 0 < token.length := by
        cases token <;> simp_all
      unfold Polish.operand
      split
      · next h => exact polish _ (by have := pos h; rw [length_inner]; omega)
      · split
        · next h => exact enclosed _ h le
        · exact chain _ le
    have fold (tokens : List Text)
        (operand : ∀ token ∈ tokens, Polish.operand read token = Polish.operand read' token)
        (stack : List UInt32) :
        tokens.foldlM (Polish.step read whole) stack =
          tokens.foldlM (Polish.step read' whole) stack := by
      induction tokens generalizing stack with
      | nil => rfl
      | cons token rest ih =>
        have here : Polish.step read whole stack token = Polish.step read' whole stack token := by
          simp only [Polish.step, operand token (by simp)]
        simp only [List.foldlM_cons, here]
        exact bind_congr fun stack => ih (fun t h => operand t (by simp [h])) stack
    simp only [fold tokens operand]

def Form.depth : Form → Text → Nat
  | .chain, t => t.length + 1
  | .enclosed, t => max 1 t.length
  | .polish, t => t.length + 2

theorem enclosedBody?_length {t body : Text} (h : enclosedBody? t = some body) :
    body.length + 2 ≤ t.length := by
  unfold enclosedBody? at h
  split at h
  · next hc =>
    cases h
    cases t with
    | nil => simp at hc
    | cons c rest =>
      simp only [List.head?_cons, Option.some.injEq, beq_iff_eq, Bool.and_eq_true,
        decide_eq_true_eq] at hc
      obtain ⟨rfl, hc⟩ := hc
      have := parentheses.two_le_groupLength rfl hc
      rw [length_inner]
      omega
  · contradiction

theorem evalWithin_succ (env : Env) {depth : Nat} {form : Form} {t : Text}
    (h : form.depth t ≤ depth) :
    evalWithin env (depth + 1) form t = evalWithin env depth form t := by
  induction depth generalizing form t with
  | zero => cases form <;> simp [Form.depth] at h
  | succ depth ih =>
    have trimmed := Text.length_trim_le t
    cases form with
    | polish =>
      simp only [Form.depth] at h
      exact Polish.eval_congr (fun token le => ih (by simp only [Form.depth]; omega))
        (fun token _ le => ih (by simp only [Form.depth]; omega))
        (fun inside le => ih (by simp only [Form.depth]; omega))
    | chain =>
      simp only [Form.depth] at h
      simp only [evalWithin]
      split
      · rfl
      · exact Chain.eval_congr (fun group pos le => ih (by simp only [Form.depth]; omega))
          (fun inside le => ih (by simp only [Form.depth]; omega))
    | enclosed =>
      simp only [Form.depth] at h
      simp only [evalWithin]
      split
      · rfl
      · split
        · next body hb =>
          have := enclosedBody?_length hb
          exact Chain.eval_congr (fun group pos le => ih (by simp only [Form.depth]; omega))
            (fun inside le => ih (by simp only [Form.depth]; omega))
        · rfl

theorem evalWithin_eq (env : Env) {depth more : Nat} {form : Form} {t : Text}
    (h : form.depth t ≤ depth) (le : depth ≤ more) :
    evalWithin env more form t = evalWithin env depth form t := by
  induction more with
  | zero => cases Nat.le_zero.1 le; rfl
  | succ more ih =>
    rcases Nat.lt_or_eq_of_le le with lt | rfl
    · rw [evalWithin_succ env (Nat.le_trans h (Nat.le_of_lt_succ lt)), ih (Nat.le_of_lt_succ lt)]
    · rfl

theorem Form.depth_le (form : Form) (t : Text) : form.depth t ≤ t.length + 2 := by
  cases form <;> simp only [Form.depth] <;> omega

theorem evalWithin_eq_evalForm (env : Env) {depth : Nat} {form : Form} {t : Text}
    (h : form.depth t ≤ depth) : evalWithin env depth form t = evalForm env form t := by
  unfold evalForm
  rcases Nat.le_total depth (t.length + 2) with le | le
  · exact (evalWithin_eq env h le).symm
  · exact evalWithin_eq env (form.depth_le t) le

/-- A chain is the symbol it names, or the fold of its items. -/
theorem evalForm_chain (env : Env) (t : Text) :
    evalForm env .chain t =
      match env.lookup (Text.trim t) with
      | some value => valueOf value
      | none => Chain.eval env (evalForm env) (Text.trim t) := by
  have trimmed := Text.length_trim_le t
  simp only [evalForm, evalWithin]
  cases env.lookup (Text.trim t) with
  | some => rfl
  | none =>
    exact Chain.eval_congr
      (fun group pos le => evalWithin_eq_evalForm env (by simp only [Form.depth]; omega))
      (fun inside le => evalWithin_eq_evalForm env (by simp only [Form.depth]; omega))

/-- A parenthesised chain is the symbol it names, or the chain between its parentheses. -/
theorem evalForm_enclosed (env : Env) (t : Text) :
    evalForm env .enclosed t =
      match env.lookup (Text.trim t) with
      | some value => valueOf value
      | none =>
        match enclosedBody? (Text.trim t) with
        | some body => Chain.eval env (evalForm env) body
        | none => .error (.fault (.unterminated (Text.trim t))) := by
  have trimmed := Text.length_trim_le t
  simp only [evalForm, evalWithin]
  cases env.lookup (Text.trim t) with
  | some => rfl
  | none =>
    cases hb : enclosedBody? (Text.trim t) with
    | none => rfl
    | some body =>
      have := enclosedBody?_length hb
      exact Chain.eval_congr
        (fun group pos le => evalWithin_eq_evalForm env (by simp only [Form.depth]; omega))
        (fun inside le => evalWithin_eq_evalForm env (by simp only [Form.depth]; omega))

theorem evalForm_polish (env : Env) (t : Text) :
    evalForm env .polish t = Polish.eval (evalForm env) t := by
  simp only [evalForm, evalWithin]
  exact Polish.eval_congr
    (fun token le => evalWithin_eq_evalForm env (by simp only [Form.depth]; omega))
    (fun token _ le => evalWithin_eq_evalForm env (by simp only [Form.depth]; omega))
    (fun inside le => evalWithin_eq_evalForm env (by simp only [Form.depth]; omega))

end Expression

end Assembler65816
