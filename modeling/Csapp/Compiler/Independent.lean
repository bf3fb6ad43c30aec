import Csapp.Compiler.Table
import Csapp.Lib.Run

/-!
# Compiler.Independent — one compilation after the other

The variable table outlives a call of `compile`.  `scanBlock` finds the names that a body gives addresses to in
a fresh process, and those that it reads too early.  Where the table that earlier calls have left agrees with
them (`Meets`), the call runs as in a fresh process: the two tables stay a list of names and a prefix of
it (`Sim`), so that every look-up gives the same address (`compile_independent`).
-/

namespace Csapp.Compiler

open Csapp.Lib

/-! ## The names of a body -/

/-- `none` where `e` is compiled; otherwise it is given up, for want of the name, if any, in the list. -/
def scanExpr (names : List Text) : Expr → Option (List Text)
  | .basicLit value =>
    match atoi value with
    | .ok _ => none
    | .error _ => some []
  | .ident z => if Known names z then none else some [z]
  | .binaryExpr x _ y =>
    match scanExpr names x with
    | some missing => some missing
    | none => scanExpr names y
  | .parenExpr x => scanExpr names x
  | .other => none
  | .nil => none

/-- The names with an address after a piece of source, the names that were missing, and whether the piece has
been compiled to its end. -/
structure Scan where
  names : List Text
  missing : List Text
  ok : Bool

def Scan.andThen (r : Scan) (next : List Text → Scan) : Scan :=
  if r.ok then ⟨(next r.names).names, r.missing ++ (next r.names).missing, (next r.names).ok⟩ else r

def scanRead (e : Expr) (names : List Text) : Scan :=
  match scanExpr names e with
  | none => ⟨names, [], true⟩
  | some missing => ⟨names, missing, false⟩

def scanStop (names : List Text) : Scan := ⟨names, [], false⟩

def scanSkip (names : List Text) : Scan := ⟨names, [], true⟩

def scanReturn : List Expr → List Text → Scan
  | [] => scanStop
  | e :: _ => scanRead e

def scanLhs : List Expr → List Text → Scan
  | .ident z :: _ => fun names => ⟨addName names z, [], true⟩
  | _ => scanStop

def scanAssign (lhs : List Expr) : List Expr → List Text → Scan
  | [] => scanStop
  | e :: _ => fun names => (scanRead e names).andThen (scanLhs lhs)

/-- A statement that is given up ends its block, and the block counts as compiled. -/
def scanRound (stmt rest : List Text → Scan) (names : List Text) : Scan :=
  if (stmt names).ok then (stmt names).andThen rest else { stmt names with ok := true }

mutual

def scanStmt : Stmt → List Text → Scan
  | .returnStmt results => scanReturn results
  | .assignStmt lhs _ rhs => scanAssign lhs rhs
  | .ifStmt _ cond body els => fun names =>
    (scanRead cond names).andThen fun names => (scanBlock body names).andThen (scanStmt els)
  | .forStmt _ cond _ body => fun names => (scanRead cond names).andThen (scanBlock body)
  | .blockStmt list => scanBlock list
  | .declStmt _ _ _ => scanSkip
  | .emptyStmt => scanSkip
  | .other => scanSkip
  | .nil => scanSkip

def scanBlock : List Stmt → List Text → Scan
  | [] => scanSkip
  | s :: rest => scanRound (scanStmt s) (scanBlock rest)

end

/-- **The condition of independence**, on the table before the call.  The body gives at most five names an
address; none of the names that it reads too early is in the table; and each of its names is in the table at
the address of a fresh process, where that address is taken already. -/
structure Meets (T : Table) (node : FuncDecl) : Prop where
  fits : (scanBlock node.body []).names.length ≤ 5
  missing : ∀ z ∈ (scanBlock node.body []).missing, T.varToMem z = none
  taken : ∀ i z, (scanBlock node.body []).names[i]? = some z → 3 + i < T.nextMemoryLocation →
    T.varToMem z = some (3 + i)

/-! ## Two tables -/

/-- The names `N` of a fresh process and those `N'` of a process that has started with `L`. -/
def Sim (L N N' : List Text) : Prop := (L <+: N ∧ N' = N) ∨ (N <+: L ∧ N' = L)

section Sim

variable {L M N N' : List Text} {z : Text}

theorem Sim.isPrefix (h : Sim L N N') : N <+: N' := by
  rcases h with ⟨-, rfl⟩ | ⟨h, rfl⟩
  · exact List.prefix_refl _
  · exact h

theorem Sim.known_iff (h : Sim L N N') (hz : Known N z ∨ z ∉ L) : Known N' z ↔ Known N z := by
  refine ⟨fun hk => ?_, fun hk => hk.mono h.isPrefix⟩
  rcases h with ⟨-, rfl⟩ | ⟨-, rfl⟩
  · exact hk
  · rcases hz with hz | hz
    · exact hz
    · rcases hk with hx | hy | hm
      · exact .inl hx
      · exact .inr (.inl hy)
      · exact absurd hm hz

/-- A name that is new to the fresh process gets the same address in both. -/
theorem Sim.addName (h : Sim L N N') (hM : addName N z <+: M) (hcmp : M <+: L ∨ L <+: M) :
    addr (addName N' z) z = addr (addName N z) z ∧ Sim L (addName N z) (addName N' z) := by
  by_cases hk : Known N z
  · have hk' := hk.mono h.isPrefix
    rw [addName_of_known hk, addName_of_known hk']
    exact ⟨addr_stable hk h.isPrefix, h⟩
  · rcases h with ⟨hL, rfl⟩ | ⟨hN, rfl⟩
    · exact ⟨rfl, .inl ⟨hL.trans (prefix_addName N' z), rfl⟩⟩
    · rw [addName_of_unknown hk] at hM ⊢
      -- either `N` is the whole of `L`, or `z` is the next name of `L`
      by_cases hlen : N.length = N'.length
      · rw [← hN.eq_of_length hlen, addName_of_unknown hk]
        exact ⟨rfl, .inl ⟨List.prefix_append N [z], rfl⟩⟩
      · have hle := hN.length_le
        have hpre : N ++ [z] <+: N' := by
          rcases hcmp with hML | hLM
          · exact hM.trans hML
          · exact List.prefix_of_prefix_length_le hM hLM (by simp; omega)
        have hz : Known (N ++ [z]) z := .inr (.inr (by simp))
        rw [addName_of_known (hz.mono hpre)]
        exact ⟨addr_stable hz hpre, .inr ⟨hpre, rfl⟩⟩

end Sim

/-! ## Two runs of the compiler -/

/-- `ev` does what `scan` says from the names of a fresh process, and has the same result in a process that has
started with `L`, where `M` are the names at the end of the body. -/
structure Tracks (L M : List Text) {α : Type} (ev : Eval α) (scan : List Text → Scan) : Prop where
  grows : ∀ N, N <+: (scan N).names
  same : ∀ N N', Sim L N N' → (scan N).names <+: M → (∀ z ∈ (scan N).missing, z ∉ L) →
    (ev (tableOf N) = none ∧ ev (tableOf N') = none) ∨
    ∃ r N₁, ev (tableOf N) = some (r, tableOf (scan N).names) ∧ ev (tableOf N') = some (r, tableOf N₁) ∧
      Sim L (scan N).names N₁ ∧ ((scan N).ok = true ↔ ∃ a, r = .ok a)

section Tracks

variable {L M : List Text} {α β : Type} {ev : Eval α} {scan next : List Text → Scan}

theorem tracks_pure (a : α) : Tracks L M (pure a : Eval α) scanSkip where
  grows _ := List.prefix_refl _
  same _ N' h _ _ := .inr ⟨.ok a, N', rfl, rfl, h, iff_of_true rfl ⟨a, rfl⟩⟩

theorem tracks_panic : Tracks L M (indexPanic : Eval α) scanStop where
  grows _ := List.prefix_refl _
  same _ _ _ _ _ := .inl ⟨rfl, rfl⟩

theorem tracks_throw (e : Error) : Tracks L M (throw e : Eval α) scanStop where
  grows _ := List.prefix_refl _
  same _ N' h _ _ := .inr ⟨.error e, N', rfl, rfl, h, iff_of_false nofun nofun⟩

theorem Scan.prefix_andThen {r : Scan} (h : ∀ N, N <+: (next N).names) : r.names <+: (r.andThen next).names := by
  unfold Scan.andThen
  split
  · exact h r.names
  · exact List.prefix_refl _

/-- One evaluation after the other. -/
theorem Tracks.bind {k : α → Eval β} (h : Tracks L M ev scan) (hk : ∀ a, Tracks L M (k a) next)
    (hgrow : ∀ N, N <+: (next N).names) :
    Tracks L M (ev >>= k) fun N => (scan N).andThen next where
  grows N := (h.grows N).trans (Scan.prefix_andThen hgrow)
  same N N' hsim hM hmiss := by
    have hmiss₁ : ∀ z ∈ (scan N).missing, z ∉ L := by
      intro z hz
      refine hmiss z ?_
      unfold Scan.andThen
      split
      · exact List.mem_append_left _ hz
      · exact hz
    rcases h.same N N' hsim ((Scan.prefix_andThen hgrow).trans hM) hmiss₁ with
      ⟨h₁, h₂⟩ | ⟨r, N₁, h₁, h₂, hsim₁, hok⟩
    · exact .inl ⟨Eval.bind_none h₁, Eval.bind_none h₂⟩
    · cases r with
      | error e =>
        have hno : ¬ (scan N).ok = true := fun ht => by
          obtain ⟨a, ha⟩ := hok.mp ht
          cases ha
        rw [Scan.andThen, if_neg hno] at hM ⊢
        exact .inr ⟨.error e, N₁, Eval.bind_error h₁, Eval.bind_error h₂, hsim₁, iff_of_false hno nofun⟩
      | ok a =>
        have hyes : (scan N).ok = true := hok.mpr ⟨a, rfl⟩
        rw [Scan.andThen, if_pos hyes] at hM hmiss ⊢
        rw [Eval.bind_ok h₁, Eval.bind_ok h₂]
        exact (hk a).same _ N₁ hsim₁ hM fun z hz => hmiss z (List.mem_append_right _ hz)

theorem Tracks.map (h : Tracks L M ev scan) (g : α → β) :
    Tracks L M (ev >>= fun a => pure (g a)) scan where
  grows := h.grows
  same N N' hsim hM hmiss := by
    rcases h.same N N' hsim hM hmiss with ⟨h₁, h₂⟩ | ⟨r, N₁, h₁, h₂, hsim₁, hok⟩
    · exact .inl ⟨Eval.bind_none h₁, Eval.bind_none h₂⟩
    · cases r with
      | error e =>
        refine .inr ⟨.error e, N₁, Eval.bind_error h₁, Eval.bind_error h₂, hsim₁, hok.trans ?_⟩
        exact iff_of_false nofun nofun
      | ok a =>
        refine .inr ⟨.ok (g a), N₁, Eval.bind_ok h₁, Eval.bind_ok h₂, hsim₁, hok.trans ?_⟩
        exact iff_of_true ⟨a, rfl⟩ ⟨g a, rfl⟩

theorem scanRound_ok {N : List Text} (h : (scan N).ok = true) :
    scanRound scan next N = (scan N).andThen next := if_pos h

theorem scanRound_stop {N : List Text} (h : ¬ (scan N).ok = true) :
    scanRound scan next N = { scan N with ok := true } := if_neg h

/-- A round of the loop over a block. -/
theorem Tracks.round {stmt rest : Eval Text} (h : Tracks L M stmt scan) (hr : Tracks L M rest next) :
    Tracks L M (evalRound stmt rest) (scanRound scan next) where
  grows N := by
    by_cases hok : (scan N).ok = true
    · rw [scanRound_ok hok]
      exact (h.grows N).trans (Scan.prefix_andThen hr.grows)
    · rw [scanRound_stop hok]
      exact h.grows N
  same N N' hsim hM hmiss := by
    by_cases hyes : (scan N).ok = true
    · rw [scanRound_ok hyes, Scan.andThen, if_pos hyes] at hM hmiss ⊢
      have hmiss₁ : ∀ z ∈ (scan N).missing, z ∉ L := fun z hz => hmiss z (List.mem_append_left _ hz)
      rcases h.same N N' hsim ((hr.grows _).trans hM) hmiss₁ with ⟨h₁, h₂⟩ | ⟨r, N₁, h₁, h₂, hsim₁, hok⟩
      · exact .inl ⟨by simp only [evalRound, h₁], by simp only [evalRound, h₂]⟩
      · obtain ⟨a, rfl⟩ := hok.mp hyes
        rcases hr.same _ N₁ hsim₁ hM fun z hz => hmiss z (List.mem_append_right _ hz) with
          ⟨h₃, h₄⟩ | ⟨r, N₂, h₃, h₄, hsim₂, hok₂⟩
        · exact .inl ⟨by simp only [evalRound, h₁, h₃], by simp only [evalRound, h₂, h₄]⟩
        · cases r with
          | error e =>
            refine .inr ⟨.error e, N₂, by simp only [evalRound, h₁, h₃], by simp only [evalRound, h₂, h₄],
              hsim₂, hok₂.trans ?_⟩
            exact iff_of_false nofun nofun
          | ok b =>
            refine .inr ⟨.ok (a ++ b), N₂, by simp only [evalRound, h₁, h₃],
              by simp only [evalRound, h₂, h₄], hsim₂, hok₂.trans ?_⟩
            exact iff_of_true ⟨b, rfl⟩ ⟨a ++ b, rfl⟩
    · rw [scanRound_stop hyes] at hM hmiss ⊢
      rcases h.same N N' hsim hM hmiss with ⟨h₁, h₂⟩ | ⟨r, N₁, h₁, h₂, hsim₁, hok⟩
      · exact .inl ⟨by simp only [evalRound, h₁], by simp only [evalRound, h₂]⟩
      · cases r with
        | error e =>
          exact .inr ⟨.ok [], N₁, by simp only [evalRound, h₁], by simp only [evalRound, h₂], hsim₁,
            iff_of_true rfl ⟨[], rfl⟩⟩
        | ok a => exact absurd (hok.mpr ⟨a, rfl⟩) hyes

/-- An expression finds the same names at the same addresses. -/
theorem evalExpr_sim {N N' : List Text} (hsim : Sim L N N') (e : Expr)
    (hmiss : ∀ ms, scanExpr N e = some ms → ∀ z ∈ ms, z ∉ L) :
    evalExpr (tableOf N') e = evalExpr (tableOf N) e ∧
      (scanExpr N e = none ↔ ∃ t, evalExpr (tableOf N) e = .ok t) := by
  induction e with
  | basicLit value =>
    simp only [evalExpr, scanExpr]
    cases atoi value with
    | error err => exact ⟨trivial, iff_of_false nofun nofun⟩
    | ok i => exact ⟨trivial, iff_of_true rfl ⟨_, rfl⟩⟩
  | ident z =>
    by_cases hk : Known N z
    · simp only [evalExpr, tableOf_known hk, tableOf_known (hk.mono hsim.isPrefix),
        addr_stable hk hsim.isPrefix, scanExpr, if_pos hk]
      exact ⟨trivial, iff_of_true trivial ⟨_, rfl⟩⟩
    · have hz : z ∉ L := hmiss [z] (if_neg hk) z List.mem_cons_self
      have hk' : ¬ Known N' z := fun h => hk ((hsim.known_iff (.inr hz)).mp h)
      simp only [evalExpr, tableOf_unknown hk, tableOf_unknown hk', scanExpr, if_neg hk]
      exact ⟨trivial, iff_of_false nofun nofun⟩
  | binaryExpr x op y ihx ihy =>
    simp only [scanExpr] at hmiss ⊢
    cases hx : scanExpr N x with
    | some ms =>
      rw [hx] at hmiss
      obtain ⟨h₁, h₂⟩ := ihx fun ms' hms => hmiss ms' (hx.symm.trans hms)
      cases he : evalExpr (tableOf N) x with
      | ok t => exact absurd (h₂.mpr ⟨t, he⟩) (by rw [hx]; nofun)
      | error e =>
        rw [he] at h₁
        simp only [evalExpr, h₁, he]
        exact ⟨rfl, iff_of_false nofun nofun⟩
    | none =>
      rw [hx] at hmiss
      obtain ⟨h₁, h₂⟩ := ihx fun ms' hms => absurd (hx.symm.trans hms) nofun
      obtain ⟨h₃, h₄⟩ := ihy hmiss
      obtain ⟨t, ht⟩ := h₂.mp hx
      rw [ht] at h₁
      cases he : evalExpr (tableOf N) y with
      | ok u =>
        rw [he] at h₃
        simp only [evalExpr, h₁, h₃, ht, he]
        exact ⟨trivial, iff_of_true (h₄.mpr ⟨u, he⟩) ⟨_, rfl⟩⟩
      | error e =>
        rw [he] at h₃
        simp only [evalExpr, h₁, h₃, ht, he]
        refine ⟨trivial, iff_of_false (fun hn => ?_) nofun⟩
        obtain ⟨u, hu⟩ := h₄.mp hn
        rw [he] at hu
        cases hu
  | parenExpr x ih => exact ih hmiss
  | other => exact ⟨rfl, iff_of_true rfl ⟨_, rfl⟩⟩
  | nil => exact ⟨rfl, iff_of_true rfl ⟨_, rfl⟩⟩

theorem tracks_expr (e : Expr) : Tracks L M (reading (evalExpr · e)) (scanRead e) where
  grows N := by
    unfold scanRead
    split <;> exact List.prefix_refl _
  same N N' hsim _ hmiss := by
    have hscan : ∀ ms, scanExpr N e = some ms → ∀ z ∈ ms, z ∉ L := by
      intro ms hms
      simpa only [scanRead, hms] using hmiss
    obtain ⟨h₁, h₂⟩ := evalExpr_sim hsim e hscan
    refine .inr ⟨evalExpr (tableOf N) e, N', ?_, ?_, ?_, ?_⟩
    · unfold scanRead
      split <;> rfl
    · rw [reading_apply, h₁]
    · unfold scanRead
      split <;> exact hsim
    · rw [← h₂]
      unfold scanRead
      split
      · next h => exact iff_of_true rfl h
      · next h => exact iff_of_false nofun (by rw [h]; nofun)

theorem tracks_locate (z : Text) (hcmp : M <+: L ∨ L <+: M) :
    Tracks L M (locate z) fun names => ⟨addName names z, [], true⟩ where
  grows N := prefix_addName N z
  same N N' hsim hM _ := by
    obtain ⟨haddr, hsim'⟩ := hsim.addName hM hcmp
    refine .inr ⟨.ok (addr (addName N z) z), addName N' z, locate_tableOf N z, ?_, hsim',
      iff_of_true rfl ⟨_, rfl⟩⟩
    rw [locate_tableOf, haddr]

theorem tracks_assign (lhs rhs : List Expr) (hcmp : M <+: L ∨ L <+: M) :
    Tracks L M (evalAssign lhs rhs) (scanAssign lhs rhs) := by
  cases rhs with
  | nil => exact tracks_panic
  | cons e es =>
    match lhs with
    | [] => exact (tracks_expr e).bind (fun _ => tracks_panic) fun _ => List.prefix_refl _
    | .ident z :: _ =>
      exact (tracks_expr e).bind (fun t => (tracks_locate z hcmp).map _) fun N => prefix_addName N z
    | .basicLit _ :: _ => exact (tracks_expr e).bind (fun _ => tracks_throw _) fun _ => List.prefix_refl _
    | .binaryExpr _ _ _ :: _ => exact (tracks_expr e).bind (fun _ => tracks_throw _) fun _ => List.prefix_refl _
    | .parenExpr _ :: _ => exact (tracks_expr e).bind (fun _ => tracks_throw _) fun _ => List.prefix_refl _
    | .other :: _ => exact (tracks_expr e).bind (fun _ => tracks_throw _) fun _ => List.prefix_refl _
    | .nil :: _ => exact (tracks_expr e).bind (fun _ => tracks_throw _) fun _ => List.prefix_refl _

theorem tracks_return (results : List Expr) : Tracks L M (evalReturn results) (scanReturn results) := by
  cases results with
  | nil => exact tracks_panic
  | cons e es => exact (tracks_expr e).map _

mutual

theorem tracks_stmt (hcmp : M <+: L ∨ L <+: M) : ∀ s : Stmt, Tracks L M (evalStmt s) (scanStmt s)
  | .returnStmt results => tracks_return results
  | .assignStmt lhs _ rhs => tracks_assign lhs rhs hcmp
  | .ifStmt _ cond body els => by
    have hels := tracks_stmt hcmp els
    have hbody := tracks_block hcmp body
    have hrest := fun sbcond : Text => hbody.bind
      (fun sbif => hels.map fun sbelse => sbcond ++ "jeqz l2\n".toList ++ "label l1\n".toList ++ sbif ++
        "label l2\n".toList ++ sbelse) hels.grows
    exact (tracks_expr cond).bind hrest (hrest []).grows
  | .forStmt _ cond _ body => by
    have hbody := tracks_block hcmp body
    exact (tracks_expr cond).bind (fun sbcond => hbody.map _) hbody.grows
  | .blockStmt list => tracks_block hcmp list
  | .declStmt _ _ _ => tracks_pure []
  | .emptyStmt => tracks_pure []
  | .other => tracks_pure []
  | .nil => tracks_pure []

theorem tracks_block (hcmp : M <+: L ∨ L <+: M) :
    ∀ list : List Stmt, Tracks L M (evalBlock list) (scanBlock list)
  | [] => tracks_pure []
  | s :: rest => (tracks_stmt hcmp s).round (tracks_block hcmp rest)

end

end Tracks

/-! ## Sequences of compilations -/

/-- A process that compiles one function after the other, under the condition of independence. -/
def compilations : System Table FuncDecl (Except Error Text) where
  init T := T = Table.initial
  legal := Meets
  exec T node := compile node T

theorem compile_initial (node : FuncDecl) :
    compile node Table.initial = evalBlock node.body (tableOf []) := by
  rw [← initial_set_params]
  rfl

theorem compile_tableOf (node : FuncDecl) (L : List Text) :
    compile node (tableOf L) = evalBlock node.body (tableOf L) := by
  conv_rhs => rw [← tableOf_set_params]
  rfl

theorem getElem?_of_varToMem {L : List Text} {z : Text} {i : ℕ}
    (h : (tableOf L).varToMem z = some (3 + i)) : L[i]? = some z := by
  have hk : Known L z := by
    by_contra hk
    rw [tableOf_unknown hk] at h
    cases h
  rw [tableOf_known hk, Option.some.injEq] at h
  unfold addr at h
  split at h
  · omega
  · next hx =>
    split at h
    · omega
    · next hy =>
      have hm : z ∈ L := (hk.resolve_left hx).resolve_left hy
      have hi : L.idxOf z = i := by omega
      rw [← hi]
      exact List.getElem?_idxOf hm

/-- The names of the body and those of the table are the same, as far as both go. -/
theorem Meets.comparable {L : List Text} {node : FuncDecl} (h : Meets (tableOf L) node) :
    (scanBlock node.body []).names <+: L ∨ L <+: (scanBlock node.body []).names := by
  have hagree : ∀ i z, (scanBlock node.body []).names[i]? = some z → i < L.length → L[i]? = some z :=
    fun i z hz hi => getElem?_of_varToMem (h.taken i z hz (show 3 + i < 3 + L.length by omega))
  rcases Nat.le_total (scanBlock node.body []).names.length L.length with hle | hle
  · left
    rw [List.prefix_iff_getElem?]
    exact fun i hi => hagree i _ (List.getElem?_eq_getElem hi) (by omega)
  · right
    rw [List.prefix_iff_getElem?]
    intro i hi
    have hi' : i < (scanBlock node.body []).names.length := by omega
    have heq := hagree i _ (List.getElem?_eq_getElem hi') hi
    rw [List.getElem?_eq_getElem hi, Option.some.injEq] at heq
    rw [List.getElem?_eq_getElem hi', heq]

/-- The tables of a process whose calls have all met the condition. -/
def FewNames (T : Table) : Prop := T = Table.initial ∨ ∃ L, T = tableOf L ∧ L.length ≤ 5

/-- One compilation: the result of a fresh process, and again at most five names. -/
theorem compile_step {T : Table} {node : FuncDecl} (hT : FewNames T) (hm : Meets T node) :
    (compile node T = none ∧ compile node Table.initial = none) ∨
      ∃ r N N₀, compile node T = some (r, tableOf N) ∧ compile node Table.initial = some (r, tableOf N₀) ∧
        N.length ≤ 5 := by
  have hfits := hm.fits
  obtain ⟨L, hL, hlen, hcmp, hmiss⟩ : ∃ L : List Text, compile node T = evalBlock node.body (tableOf L) ∧
      L.length ≤ 5 ∧ ((scanBlock node.body []).names <+: L ∨ L <+: (scanBlock node.body []).names) ∧
      ∀ z ∈ (scanBlock node.body []).missing, z ∉ L := by
    rcases hT with rfl | ⟨L, rfl, hlen⟩
    · exact ⟨[], compile_initial node, Nat.zero_le 5, .inr List.nil_prefix, fun _ _ => List.not_mem_nil⟩
    · refine ⟨L, compile_tableOf node L, hlen, hm.comparable, fun z hz hzL => ?_⟩
      have := hm.missing z hz
      rw [tableOf_known (.inr (.inr hzL))] at this
      cases this
  have hsim : Sim L [] L := .inr ⟨List.nil_prefix, rfl⟩
  rw [hL, compile_initial]
  rcases (tracks_block hcmp node.body).same [] L hsim (List.prefix_refl _) hmiss with
    ⟨h₁, h₂⟩ | ⟨r, N, h₁, h₂, hsimN, -⟩
  · exact .inl ⟨h₂, h₁⟩
  · refine .inr ⟨r, N, _, h₂, h₁, ?_⟩
    rcases hsimN with ⟨-, rfl⟩ | ⟨-, rfl⟩
    · exact hfits
    · exact hlen

theorem fewNames_of_reach {T : Table} (h : compilations.Reach T) : FewNames T := by
  refine System.Reach.induct (fun _ hi => .inl hi) ?_ h
  intro T node r T' hT hm he
  rcases compile_step hT hm with ⟨hnone, -⟩ | ⟨r', N, N₀, hsome, -, hlen⟩
  · cases he.symm.trans hnone
  · cases he.symm.trans hsome
    exact .inr ⟨N, rfl, hlen⟩

/-- **Compilations are independent**: in every run whose calls meet the condition, a call has the result of a
fresh process, and every variable is in the data area 1..7. -/
theorem compile_independent (T : Table) (node : FuncDecl) (hT : compilations.Reach T) (hm : Meets T node) :
    (compile node T).map Prod.fst = (compile node Table.initial).map Prod.fst ∧
      ∀ r T', compile node T = some (r, T') → ∀ z a, T'.varToMem z = some a → 1 ≤ a ∧ a ≤ 7 := by
  rcases compile_step (fewNames_of_reach hT) hm with ⟨h₁, h₂⟩ | ⟨r, N, N₀, h₁, h₂, hlen⟩
  · rw [h₁, h₂]
    exact ⟨rfl, nofun⟩
  · rw [h₁, h₂]
    refine ⟨rfl, ?_⟩
    rintro r' T' ⟨⟩ z a ha
    by_cases hk : Known N z
    · rw [tableOf_known hk, Option.some.injEq] at ha
      have := addr_pos N z
      have := addr_lt hk
      omega
    · rw [tableOf_unknown hk] at ha
      cases ha

/-- `v := 1; return v`. -/
def returnOne (v : Text) : FuncDecl :=
  ⟨[.assignStmt [.ident v] .define [.basicLit "1".toList], .returnStmt [.ident v]]⟩

/-- The second function has its variable at address 4, where a fresh process has it at 3. -/
theorem returnOne_dependent : ∃ r T, compile (returnOne "z".toList) Table.initial = some (r, T) ∧
    (compile (returnOne "w".toList) T).map Prod.fst ≠
      (compile (returnOne "w".toList) Table.initial).map Prod.fst := by
  refine ⟨_, _, rfl, fun h => ?_⟩
  have htexts : "pushi 1\npop 4\npush 4\npop 0\nhalt\n".toList = "pushi 1\npop 3\npush 3\npop 0\nhalt\n".toList :=
    Except.ok.inj (Option.some.inj h)
  exact absurd htexts (by decide)

/-- The same function twice. -/
theorem compile_independent_returnOne : ∃ r T,
    compile (returnOne "z".toList) Table.initial = some (r, T) ∧ Meets T (returnOne "z".toList) ∧
    (compile (returnOne "z".toList) T).map Prod.fst =
      (compile (returnOne "z".toList) Table.initial).map Prod.fst := by
  have hfirst : Meets Table.initial (returnOne "z".toList) :=
    ⟨by decide, nofun, fun i z _ hi => absurd hi (by simp [Table.initial])⟩
  obtain ⟨r, T, hT⟩ : ∃ r T, compile (returnOne "z".toList) Table.initial = some (r, T) := ⟨_, _, rfl⟩
  have hsecond : Meets T (returnOne "z".toList) := by
    cases hT
    refine ⟨by decide, nofun, fun i z hz _ => ?_⟩
    cases i with
    | zero =>
      cases hz
      rfl
    | succ i => cases hz
  exact ⟨r, T, hT, hsecond, (compile_independent T _ (.step (.init rfl) hfirst hT) hsecond).1⟩

end Csapp.Compiler
