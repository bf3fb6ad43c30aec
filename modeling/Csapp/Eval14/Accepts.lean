import Csapp.Eval14.Parse

/-!
# Eval14.Accepts — the parser accepts the grammar

Every token list of the grammar is read to its end, whatever comes behind it, and the fuel of `Parse` lasts; with the
soundness of `Eval14.Parse`, `Parse` decides the grammar (`Parse_spec`), whose trees are therefore unique.
-/

namespace Csapp.Eval14

open Csapp.Lib

variable {α : Type} {conv : Conv α} {p q fuel : ℕ} {e lhs : Expr α} {es : List (Expr α)} {ts rest : List Token}

/-! ## What the grammar says is read -/

/-- No expression begins with `)`. -/
def Begins (ts : List Token) : Prop := ∃ t us, ts = t :: us ∧ t ≠ .rune ')'

theorem Begins.append (h : Begins ts) (us : List Token) : Begins (ts ++ us) := by
  obtain ⟨t, vs, rfl, ht⟩ := h
  exact ⟨t, vs ++ us, rfl, ht⟩

theorem Begins.accept (h : Begins ts) : accept ')' ts = none := by
  obtain ⟨t, us, rfl, ht⟩ := h
  cases t with
  | rune c => exact if_neg fun hc => ht (congrArg Token.rune hc)
  | ident | number => rfl

theorem Primary.begins (h : Primary conv e ts) : Begins ts := by
  cases h with
  | var => exact ⟨_, _, rfl, nofun⟩
  | literal => exact ⟨_, _, rfl, nofun⟩
  | paren => exact ⟨_, _, rfl, by decide⟩
  | call => exact ⟨_, _, rfl, nofun⟩
  | callNil => exact ⟨_, _, rfl, nofun⟩

theorem Unary.begins (h : Unary conv e ts) : Begins ts := by
  cases h with
  | op hop _ =>
    refine ⟨_, _, rfl, fun hc => ?_⟩
    rw [Token.rune.inj hc] at hop
    exact absurd hop (by decide)
  | primary h => exact h.begins

theorem Binary.begins : ∀ {p : ℕ} {e : Expr α} {ts : List Token}, Binary conv p e ts → Begins ts
  | _, _, _, .unary h => h.begins
  | _, _, _, .op _ _ hx _ => hx.begins.append _

theorem Args.begins (h : Args conv es ts) : Begins ts := by
  cases h with
  | one h => exact h.begins
  | cons h _ => exact h.begins.append _

/-- A run of the loops to the result `r`, with some fuel. -/
def LoopTo (conv : Conv α) (prec p : ℕ) (lhs : Expr α) (ts : List Token) (r : Expr α × List Token) : Prop :=
  ∃ fuel, binaryLoop conv fuel prec p lhs ts = .ok r

theorem LoopTo.stop {prec : ℕ} (h : prec < p) : LoopTo conv prec p lhs ts (lhs, ts) := by
  refine ⟨1, ?_⟩
  unfold binaryLoop
  exact if_neg (by omega)

theorem LoopTo.of_lt {prec : ℕ} {r : Expr α × List Token} (h : LoopTo conv prec p lhs ts r) (hlt : prec < p) :
    r = (lhs, ts) := by
  obtain ⟨fuel, h⟩ := h
  cases fuel with
  | zero =>
    rw [binaryLoop] at h
    cases h
  | succ fuel =>
    unfold binaryLoop at h
    rw [if_neg (by omega)] at h
    exact (Except.ok.inj h).symm

theorem LoopTo.op {op : Char} {rhs : Expr α} {ts' : List Token} {r : Expr α × List Token} (hp : p ≤ precedence op)
    (hrhs : ∃ fuel, parseBinary conv fuel (precedence op + 1) ts = .ok (rhs, ts'))
    (h : LoopTo conv (precedence op) p (.binary op lhs rhs) ts' r) :
    LoopTo conv (precedence op) p lhs (.rune op :: ts) r := by
  obtain ⟨f, hf⟩ := hrhs
  obtain ⟨g, hg⟩ := h
  refine ⟨max f g + 1, ?_⟩
  unfold binaryLoop
  dsimp only
  rw [if_pos hp, if_pos rfl, ((approximates_of_le conv (Nat.le_max_left f g)).binary _ _).eq_ok hf]
  exact ((approximates_of_le conv (Nat.le_max_right f g)).loop _ _ _ _).eq_ok hg

/-- The rounds down to the precedence of the lookahead read nothing. -/
theorem LoopTo.skip {r : Expr α × List Token} (h : LoopTo conv (tokenPrecedence ts) p lhs ts r) :
    ∀ {prec : ℕ}, tokenPrecedence ts ≤ prec → LoopTo conv prec p lhs ts r := by
  intro prec hle
  induction hle with
  | refl => exact h
  | @step prec hstep ih =>
    have hle : tokenPrecedence ts ≤ prec := hstep
    by_cases hp : p ≤ prec + 1
    · obtain ⟨f, hf⟩ := ih
      refine ⟨f + 1, ?_⟩
      unfold binaryLoop
      rw [if_pos hp]
      cases ts with
      | nil => exact hf
      | cons t ts =>
        cases t with
        | rune op =>
          have hne : precedence op ≠ prec + 1 := fun heq => by
            rw [show tokenPrecedence (.rune op :: ts) = precedence op from rfl] at hle
            omega
          exact (if_neg hne).trans hf
        | ident => exact hf
        | number => exact hf
    · rw [h.of_lt (by omega)]
      exact .stop (by omega)

mutual

/-- What comes behind decides how far the loops go on. -/
theorem Binary.complete : ∀ {p : ℕ} {e : Expr α} {ts : List Token}, Binary conv p e ts →
    ∀ {q : ℕ} (rest : List Token) {r : Expr α × List Token}, q ≤ p → tokenPrecedence rest ≤ p →
      accept '(' rest = none → LoopTo conv (tokenPrecedence rest) q e rest r →
      ∃ fuel, parseBinary conv fuel q (ts ++ rest) = .ok r
  | _, _, _, .unary h, q, rest, r, _, _, hparen, hloop => by
    obtain ⟨f, hf⟩ := h.complete rest hparen
    obtain ⟨g, hg⟩ := hloop
    refine ⟨max f g + 1, ?_⟩
    rw [parseBinary, ((approximates_of_le conv (Nat.le_max_left f g)).unary _).eq_ok hf]
    exact ((approximates_of_le conv (Nat.le_max_right f g)).loop _ _ _ _).eq_ok hg
  | _, _, _, @Binary.op _ _ _ op _ _ _ ys hp hop hx hy, q, rest, r, hq, hrest, hparen, hloop => by
    rw [List.append_assoc]
    refine hx.complete (.rune op :: (ys ++ rest)) (by omega) (Nat.le_refl _) (if_neg ?_) ?_
    · rintro rfl
      exact absurd hop (by decide)
    · have hright := hy.complete rest (Nat.le_refl _) (by omega) hparen (.stop (by omega))
      exact .op (by omega) hright (hloop.skip (by omega))

theorem Unary.complete : ∀ {e : Expr α} {ts : List Token}, Unary conv e ts → ∀ (rest : List Token),
    accept '(' rest = none → ∃ fuel, parseUnary conv fuel (ts ++ rest) = .ok (e, rest)
  | _, _, .op hop h, rest, hparen => by
    obtain ⟨f, hf⟩ := h.complete rest hparen
    refine ⟨f + 1, ?_⟩
    rw [List.cons_append]
    unfold parseUnary
    dsimp only
    rw [if_pos hop, hf]
    rfl
  | _, _, .primary h, rest, hparen => by
    obtain ⟨f, hf⟩ := h.complete rest hparen
    refine ⟨f + 1, ?_⟩
    unfold parseUnary
    cases h with
    | var => exact hf
    | literal => exact hf
    | paren => exact hf
    | call => exact hf
    | callNil => exact hf

theorem Primary.complete : ∀ {e : Expr α} {ts : List Token}, Primary conv e ts → ∀ (rest : List Token),
    accept '(' rest = none → ∃ fuel, parsePrimary conv fuel (ts ++ rest) = .ok (e, rest)
  | _, _, .var, rest, hparen => by
    refine ⟨1, ?_⟩
    unfold parsePrimary
    dsimp only [List.cons_append, List.nil_append]
    rw [hparen]
  | _, _, .literal hf, rest, _ => by
    refine ⟨1, ?_⟩
    unfold parsePrimary
    dsimp only [List.cons_append, List.nil_append]
    rw [hf]
  | _, _, .paren h, rest, _ => by
    obtain ⟨f, hf⟩ := h.complete (.rune ')' :: rest) (Nat.le_refl 1)
      (show precedence ')' ≤ 1 by decide) rfl (.stop (show precedence ')' < 1 by decide))
    refine ⟨f + 1, ?_⟩
    unfold parsePrimary
    dsimp only [List.cons_append]
    rw [if_pos rfl, List.append_assoc, List.singleton_append, hf]
    rfl
  | _, _, .call h, rest, _ => by
    obtain ⟨f, hf⟩ := h.complete rest
    refine ⟨f + 1, ?_⟩
    unfold parsePrimary
    rw [List.cons_append, List.cons_append, List.append_assoc, List.singleton_append]
    dsimp only
    rw [accept_rune]
    dsimp only
    rw [(h.begins.append _).accept, hf]
    rfl
  | _, _, .callNil, rest, _ => ⟨1, rfl⟩

theorem Args.complete : ∀ {es : List (Expr α)} {ts : List Token}, Args conv es ts → ∀ (rest : List Token),
    ∃ fuel, parseArgs conv fuel (ts ++ .rune ')' :: rest) = .ok (es, .rune ')' :: rest)
  | _, _, .one h, rest => by
    obtain ⟨f, hf⟩ := h.complete (.rune ')' :: rest) (Nat.le_refl 1)
      (show precedence ')' ≤ 1 by decide) rfl (.stop (show precedence ')' < 1 by decide))
    refine ⟨f + 1, ?_⟩
    rw [parseArgs, hf]
    rfl
  | _, _, @Args.cons _ _ _ _ _ us h h', rest => by
    obtain ⟨f, hf⟩ := h.complete (.rune ',' :: (us ++ .rune ')' :: rest)) (Nat.le_refl 1)
      (show precedence ',' ≤ 1 by decide) rfl (.stop (show precedence ',' < 1 by decide))
    obtain ⟨g, hg⟩ := h'.complete rest
    refine ⟨max f g + 1, ?_⟩
    rw [List.append_assoc, List.cons_append, parseArgs,
      ((approximates_of_le conv (Nat.le_max_left f g)).binary _ _).eq_ok hf]
    show ((parseArgs conv (max f g) (us ++ .rune ')' :: rest)) >>= fun x => _) = _
    rw [((approximates_of_le conv (Nat.le_max_right f g)).args _).eq_ok hg]
    rfl

end

/-! ## The fuel lasts -/

theorem Begins.length_lt (h : Begins ts) (rest : List Token) : rest.length < (ts ++ rest).length := by
  obtain ⟨t, us, rfl, -⟩ := h
  rw [List.length_append, List.length_cons]
  omega

theorem length_of_binary (hp : 0 < p) (h : parseBinary conv fuel p ts = .ok (e, rest)) :
    rest.length < ts.length := by
  obtain ⟨used, rfl, hused, -⟩ := (sound conv fuel).binary hp h
  exact hused.begins.length_lt rest

theorem length_of_unary (h : parseUnary conv fuel ts = .ok (e, rest)) : rest.length < ts.length := by
  obtain ⟨used, rfl, hused⟩ := (sound conv fuel).unary h
  exact hused.begins.length_lt rest

theorem length_of_accept {c : Char} (h : accept c ts = some rest) : ts.length = rest.length + 1 := by
  rw [of_accept h, List.length_cons]

theorem ok_ne_fuel {β : Type} (x : β) : (.ok x : Except Panic β) ≠ .error .fuel := by
  intro h
  cases h

theorem lexPanic_ne_fuel {β : Type} (msg : String) : (.error (.lexPanic msg) : Except Panic β) ≠ .error .fuel := by
  intro h
  cases h

theorem expectParen_ne_fuel : expectParen conv ts ≠ .error .fuel := by
  unfold expectParen
  split
  · exact ok_ne_fuel _
  · exact lexPanic_ne_fuel _

structure Enough (conv : Conv α) (fuel : ℕ) : Prop where
  binary : ∀ p ts, 0 < p → 4 * ts.length + 3 ≤ fuel → parseBinary conv fuel p ts ≠ .error .fuel
  loop : ∀ prec p lhs ts, 0 < p → prec ≤ 2 → 4 * ts.length + prec + 1 ≤ fuel →
    binaryLoop conv fuel prec p lhs ts ≠ .error .fuel
  unary : ∀ ts, 4 * ts.length + 2 ≤ fuel → parseUnary conv fuel ts ≠ .error .fuel
  primary : ∀ ts, 4 * ts.length + 1 ≤ fuel → parsePrimary conv fuel ts ≠ .error .fuel
  args : ∀ ts, 4 * ts.length + 4 ≤ fuel → parseArgs conv fuel ts ≠ .error .fuel

theorem Enough.binary_succ (ih : Enough conv fuel) (p : ℕ) (ts : List Token) (hp : 0 < p)
    (hf : 4 * ts.length + 3 ≤ fuel + 1) : parseBinary conv (fuel + 1) p ts ≠ .error .fuel := by
  rw [parseBinary]
  refine bind_ne_out (ih.unary ts (by omega)) fun x hx => ?_
  have hlen := length_of_unary hx
  have hprec := tokenPrecedence_le_two x.2
  exact ih.loop _ _ _ _ hp hprec (by omega)

theorem Enough.loop_succ (ih : Enough conv fuel) (prec p : ℕ) (lhs : Expr α) (ts : List Token) (hp : 0 < p)
    (hprec : prec ≤ 2) (hf : 4 * ts.length + prec + 1 ≤ fuel + 1) :
    binaryLoop conv (fuel + 1) prec p lhs ts ≠ .error .fuel := by
  unfold binaryLoop
  by_cases hle : p ≤ prec
  · rw [if_pos hle]
    have hdown := ih.loop (prec - 1) p lhs ts hp (by omega) (by omega)
    cases ts with
    | nil => exact hdown
    | cons t ts =>
      cases t with
      | ident => exact hdown
      | number => exact hdown
      | rune op =>
        dsimp only
        by_cases hop : precedence op = prec
        · rw [if_pos hop]
          rw [List.length_cons] at hf
          refine bind_ne_out (ih.binary _ _ (Nat.succ_pos prec) (by omega)) fun x hx => ?_
          have hlen := length_of_binary (Nat.succ_pos prec) hx
          exact ih.loop _ _ _ _ hp hprec (by omega)
        · rw [if_neg hop]
          exact hdown
  · rw [if_neg hle]
    exact ok_ne_fuel _

theorem Enough.unary_succ (ih : Enough conv fuel) (ts : List Token) (hf : 4 * ts.length + 2 ≤ fuel + 1) :
    parseUnary conv (fuel + 1) ts ≠ .error .fuel := by
  unfold parseUnary
  have hdown := ih.primary ts (by omega)
  cases ts with
  | nil => exact hdown
  | cons t ts =>
    cases t with
    | ident => exact hdown
    | number => exact hdown
    | rune op =>
      dsimp only
      by_cases hop : op = '+' ∨ op = '-'
      · rw [if_pos hop]
        rw [List.length_cons] at hf
        exact bind_ne_out (ih.unary _ (by omega)) fun x _ => ok_ne_fuel _
      · rw [if_neg hop]
        exact hdown

theorem Enough.primary_succ (ih : Enough conv fuel) (ts : List Token) (hf : 4 * ts.length + 1 ≤ fuel + 1) :
    parsePrimary conv (fuel + 1) ts ≠ .error .fuel := by
  unfold parsePrimary
  cases ts with
  | nil => exact lexPanic_ne_fuel _
  | cons t ts =>
    rw [List.length_cons] at hf
    cases t with
    | ident id =>
      dsimp only
      cases hparen : accept '(' ts with
      | none => exact ok_ne_fuel _
      | some us =>
        dsimp only
        have hlen := length_of_accept hparen
        cases accept ')' us with
        | some _ => exact ok_ne_fuel _
        | none =>
          exact bind_ne_out (ih.args _ (by omega)) fun x _ =>
            bind_ne_out expectParen_ne_fuel fun y _ => ok_ne_fuel _
    | number text =>
      dsimp only
      cases conv.parseFloat text with
      | ok f => exact ok_ne_fuel _
      | error err => exact lexPanic_ne_fuel _
    | rune c =>
      dsimp only
      by_cases hc : c = '('
      · rw [if_pos hc]
        exact bind_ne_out (ih.binary _ _ Nat.one_pos (by omega)) fun x _ =>
          bind_ne_out expectParen_ne_fuel fun y _ => ok_ne_fuel _
      · rw [if_neg hc]
        exact lexPanic_ne_fuel _

theorem Enough.args_succ (ih : Enough conv fuel) (ts : List Token) (hf : 4 * ts.length + 4 ≤ fuel + 1) :
    parseArgs conv (fuel + 1) ts ≠ .error .fuel := by
  rw [parseArgs]
  refine bind_ne_out (ih.binary _ _ Nat.one_pos (by omega)) fun x hx => ?_
  have hlen := length_of_binary Nat.one_pos hx
  dsimp only
  cases hcomma : accept ',' x.2 with
  | none => exact ok_ne_fuel _
  | some us =>
    have hlen' := length_of_accept hcomma
    exact bind_ne_out (ih.args _ (by omega)) fun y _ => ok_ne_fuel _

theorem enough (conv : Conv α) (fuel : ℕ) : Enough conv fuel := by
  induction fuel with
  | zero =>
    refine ⟨fun _ _ _ h => ?_, fun _ _ _ _ _ _ h => ?_, fun _ h => ?_, fun _ h => ?_, fun _ h => ?_⟩ <;> omega
  | succ fuel ih =>
    exact ⟨ih.binary_succ, ih.loop_succ, ih.unary_succ, ih.primary_succ, ih.args_succ⟩

theorem Parse_ne_fuel (conv : Conv α) (ts : List Token) : Parse conv ts ≠ .error .fuel := by
  unfold Parse
  refine bind_ne_out ((enough conv _).binary _ _ Nat.one_pos (by unfold parseFuel; omega)) fun x _ => ?_
  obtain ⟨e, rest⟩ := x
  cases rest with
  | nil => exact ok_ne_fuel _
  | cons => exact lexPanic_ne_fuel _

theorem Parse_eq_ok : Parse conv ts = .ok e ↔ Binary conv 1 e ts := by
  constructor
  · intro h
    obtain ⟨⟨e', rest⟩, hparse, h⟩ := bind_eq_ok.mp h
    cases rest with
    | nil =>
      obtain rfl := Except.ok.inj h
      obtain ⟨used, hts, hused, -⟩ := (sound conv _).binary Nat.one_pos hparse
      rw [List.append_nil] at hts
      rwa [hts]
    | cons => cases h
  · intro h
    obtain ⟨fuel, hf⟩ := h.complete [] (Nat.le_refl 1) (Nat.zero_le 1) rfl (.stop Nat.one_pos)
    rw [List.append_nil] at hf
    have hmore := ((approximates_of_le conv (Nat.le_max_left fuel (parseFuel ts))).binary 1 ts).eq_ok hf
    have henough := (enough conv (parseFuel ts)).binary 1 ts Nat.one_pos (by unfold parseFuel; omega)
    have hsame := ((approximates_of_le conv (Nat.le_max_right fuel (parseFuel ts))).binary 1 ts).eq_of_ne henough
    unfold Parse
    rw [← hsame, hmore]
    rfl

/-- **The parser and the grammar**: `Parse` gives the one tree that the grammar has for the tokens, and an error of
its own where there is none. -/
theorem Parse_spec (conv : Conv α) (ts : List Token) :
    (∃ e, Parse conv ts = .ok e ∧ ∀ e', Binary conv 1 e' ts ↔ e' = e) ∨
      ∃ msg, Parse conv ts = .error (.lexPanic msg) ∧ ∀ e, ¬Binary conv 1 e ts := by
  cases h : Parse conv ts with
  | ok e =>
    refine Or.inl ⟨e, rfl, fun e' => ⟨fun h' => ?_, ?_⟩⟩
    · exact Except.ok.inj ((Parse_eq_ok.mpr h').symm.trans h)
    · rintro rfl
      exact Parse_eq_ok.mp h
  | error err =>
    cases err with
    | fuel => exact absurd h (Parse_ne_fuel conv ts)
    | lexPanic msg =>
      refine Or.inr ⟨msg, rfl, fun e he => ?_⟩
      rw [Parse_eq_ok.mpr he] at h
      cases h

end Csapp.Eval14
