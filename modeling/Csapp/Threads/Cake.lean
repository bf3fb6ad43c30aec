import Csapp.Lib.Channel
import Csapp.Lib.Count
import Csapp.Lib.Run
import Mathlib.Algebra.Order.Group.Multiset
import Mathlib.Tactic.Abel

/-!
# Threads.Cake — the cake shop

A baker, any number of icers and an inscriber work at the same time; the cakes go from one to the next through two
channels with a buffer of any size, none included.  A step is one operation on a channel: of one cook, or of two who
meet at a channel without a buffer.  `work` is the time between two steps.
-/

namespace Csapp.Threads

open Csapp.Lib

structure Shop where
  Cakes : ℕ
  BakeBuf : ℕ
  NumIcers : ℕ
  IceBuf : ℕ

/-- The baker is at cake `i` of the loop, or has closed `baked`. -/
inductive BakerPc
  | bake (i : ℕ)
  | done
  deriving DecidableEq

/-- An icer waits for a cake, has iced `c`, or has left as `baked` is closed. -/
inductive IcerPc
  | wait
  | iced (c : ℕ)
  | done
  deriving DecidableEq

def IcerPc.hand : IcerPc → Multiset ℕ
  | .iced c => {c}
  | _ => 0

/-- The cooks and the channels of one run of `Work`; `inscribed` are the cakes that are through. -/
structure Cooks (ι : Type*) where
  baker : BakerPc
  icer : ι → IcerPc
  baked : Chan ℕ
  iced : Chan ℕ
  inscribed : List ℕ
  panicked : Bool

inductive Cook (ι : Type*)
  | baker
  | bakerTo (j : ι)
  | icer (j : ι)
  | icerTo (j : ι)
  | inscriber

namespace Shop

variable {ι : Type*} [DecidableEq ι] (shop : Shop)

def opened : Cooks ι := ⟨.bake 0, fun _ => .wait, .make shop.BakeBuf, .make shop.IceBuf, [], false⟩

def baker (s : Cooks ι) : Option (Cooks ι) :=
  match s.baker with
  | .bake i =>
    if i < shop.Cakes then
      match s.baked.send i with
      | .done ch => some { s with baker := .bake (i + 1), baked := ch }
      | .waits => none
      | .panics => some { s with panicked := true }
    else some { s with baker := .done, baked := s.baked.close }
  | .done => none

def icer (s : Cooks ι) (j : ι) : Option (Cooks ι) :=
  match s.icer j with
  | .wait =>
    match s.baked.receive with
    | .value c ch => some { s with icer := Function.update s.icer j (.iced c), baked := ch }
    | .waits => none
    | .closed => some { s with icer := Function.update s.icer j .done }
  | .iced c =>
    match s.iced.send c with
    | .done ch => some { s with icer := Function.update s.icer j .wait, iced := ch }
    | .waits => none
    | .panics => some { s with panicked := true }
  | .done => none

def inscriber (s : Cooks ι) : Option (Cooks ι) :=
  if s.inscribed.length < shop.Cakes then
    match s.iced.receive with
    | .value c ch => some { s with iced := ch, inscribed := s.inscribed ++ [c] }
    | .waits => none
    -- a closed channel gives the zero value
    | .closed => some { s with inscribed := s.inscribed ++ [0] }
  else none

/-- `baked <- c` meets `range baked`. -/
def bakerTo (s : Cooks ι) (j : ι) : Option (Cooks ι) :=
  match s.baker, s.icer j with
  | .bake i, .wait =>
    if i < shop.Cakes ∧ s.baked.meets = true then
      some { s with baker := .bake (i + 1), icer := Function.update s.icer j (.iced i) }
    else none
  | _, _ => none

/-- `iced <- c` meets `<-iced`. -/
def icerTo (s : Cooks ι) (j : ι) : Option (Cooks ι) :=
  match s.icer j with
  | .iced c =>
    if s.inscribed.length < shop.Cakes ∧ s.iced.meets = true then
      some { s with icer := Function.update s.icer j .wait, inscribed := s.inscribed ++ [c] }
    else none
  | _ => none

def step (s : Cooks ι) : Cook ι → Option (Cooks ι)
  | .baker => shop.baker s
  | .bakerTo j => shop.bakerTo s j
  | .icer j => Shop.icer s j
  | .icerTo j => shop.icerTo s j
  | .inscriber => shop.inscriber s

/-- One run of `Work`. -/
def work : System (Cooks (Fin shop.NumIcers)) (Cook (Fin shop.NumIcers)) Unit where
  init s := s = shop.opened
  legal _ _ := True
  exec s a := (shop.step s a).map fun s' => ((), s')

end Shop

/-! ## What a step does -/

/-- The cakes that the baker has finished. -/
def Shop.finished (shop : Shop) : BakerPc → ℕ
  | .bake i => i
  | .done => shop.Cakes

section Safety

variable {ι : Type*} [DecidableEq ι] {shop : Shop} {s s' : Cooks ι}

/-- The steps where no cook panics and no cook takes from a closed channel what is not there. -/
inductive Cooks.Move (shop : Shop) (s : Cooks ι) : Cooks ι → Prop
  | bake (i : ℕ) : s.baker = .bake i → i < shop.Cakes → s.baked.buf.length < s.baked.cap →
      Move shop s { s with baker := .bake (i + 1), baked := { s.baked with buf := s.baked.buf ++ [i] } }
  | close (i : ℕ) : s.baker = .bake i → ¬i < shop.Cakes →
      Move shop s { s with baker := .done, baked := s.baked.close }
  | bakeTo (i : ℕ) (j : ι) : s.baker = .bake i → i < shop.Cakes → s.icer j = .wait →
      s.baked.cap = 0 → Move shop s { s with baker := .bake (i + 1), icer := Function.update s.icer j (.iced i) }
  | take (j : ι) (c : ℕ) (q : List ℕ) : s.icer j = .wait → s.baked.buf = c :: q →
      Move shop s { s with icer := Function.update s.icer j (.iced c), baked := { s.baked with buf := q } }
  | leave (j : ι) : s.icer j = .wait → s.baked.buf = [] → s.baked.closed = true →
      Move shop s { s with icer := Function.update s.icer j .done }
  | put (j : ι) (c : ℕ) : s.icer j = .iced c → s.iced.buf.length < s.iced.cap →
      Move shop s { s with icer := Function.update s.icer j .wait, iced := { s.iced with buf := s.iced.buf ++ [c] } }
  | hand (j : ι) (c : ℕ) : s.icer j = .iced c → s.iced.cap = 0 →
      Move shop s { s with icer := Function.update s.icer j .wait, inscribed := s.inscribed ++ [c] }
  | inscribe (c : ℕ) (q : List ℕ) : s.iced.buf = c :: q →
      Move shop s { s with iced := { s.iced with buf := q }, inscribed := s.inscribed ++ [c] }

def IcerPc.line : IcerPc → List ℕ
  | .iced c => [c]
  | .wait | .done => []

/-- The cakes in a row: those that are through first. -/
def Cooks.InLine (shop : Shop) (s : Cooks ι) : Prop :=
  ∀ j, s.inscribed ++ s.iced.buf ++ (s.icer j).line ++ s.baked.buf = List.range (shop.finished s.baker)

def BakerPc.steps : BakerPc → ℕ
  | .bake _ => 1
  | .done => 0

def IcerPc.steps : IcerPc → ℕ
  | .wait => 1
  | .iced _ => 3
  | .done => 0

/-- A bound for the steps to come: four for each cake that is not yet baked. -/
def Shop.remaining [Fintype ι] (shop : Shop) (s : Cooks ι) : ℕ :=
  4 * (shop.Cakes - shop.finished s.baker) + s.baker.steps + 3 * s.baked.buf.length + ∑ j, (s.icer j).steps +
    s.iced.buf.length

/-- What holds at each moment of a run; each cake that the baker has finished is at one place. -/
structure CooksInv [Fintype ι] (shop : Shop) (s : Cooks ι) : Prop where
  calm : s.panicked = false
  bakedCap : s.baked.cap = shop.BakeBuf
  icedCap : s.iced.cap = shop.IceBuf
  baked_le : s.baked.buf.length ≤ shop.BakeBuf
  iced_le : s.iced.buf.length ≤ shop.IceBuf
  closed : s.baked.closed = decide (s.baker = .done)
  icedOpen : s.iced.closed = false
  finished_le : shop.finished s.baker ≤ shop.Cakes
  left : ∀ j, s.icer j = .done → s.baker = .done ∧ s.baked.buf = []
  cakes : (s.inscribed : Multiset ℕ) + s.iced.buf + ∑ j, (s.icer j).hand + s.baked.buf =
    Multiset.range (shop.finished s.baker)
  idle : IsEmpty ι → s.iced.buf = [] ∧ s.inscribed = []

namespace CooksInv

variable [Fintype ι]

theorem move_of_step (h : CooksInv shop s) {a : Cook ι} (hs : shop.step s a = some s') : s.Move shop s' := by
  cases a with
  | baker =>
    rw [Shop.step, Shop.baker] at hs
    split at hs
    · rename_i i hi
      split at hs
      · rename_i hlt
        split at hs
        · rename_i ch hch
          obtain ⟨hcap, rfl⟩ := Chan.of_send hch
          obtain rfl := Option.some.inj hs
          exact .bake i hi hlt hcap
        · cases hs
        · rename_i hch
          have hclosed := h.closed
          rw [hi] at hclosed
          exact absurd hch (Chan.send_ne_panics hclosed)
      · obtain rfl := Option.some.inj hs
        exact .close i hi ‹_›
    · cases hs
  | bakerTo j =>
    rw [Shop.step, Shop.bakerTo] at hs
    split at hs
    · obtain ⟨hlt, hs⟩ := Option.ite_none_right_eq_some.mp hs
      obtain rfl := Option.some.inj hs
      exact .bakeTo _ j ‹_› hlt.1 ‹_› (Chan.of_meets hlt.2).1
    · cases hs
  | icer j =>
    rw [Shop.step, Shop.icer] at hs
    split at hs
    · rename_i hj
      split at hs
      · rename_i c ch hch
        obtain ⟨hbuf, hch'⟩ := Chan.of_receive hch
        obtain rfl := Option.some.inj hs
        rw [hch']
        exact .take j c ch.buf hj hbuf
      · cases hs
      · rename_i hch
        obtain ⟨hbuf, hclosed⟩ := Chan.of_receive_closed hch
        obtain rfl := Option.some.inj hs
        exact .leave j hj hbuf hclosed
    · rename_i c hj
      split at hs
      · rename_i ch hch
        obtain ⟨hcap, rfl⟩ := Chan.of_send hch
        obtain rfl := Option.some.inj hs
        exact .put j c hj hcap
      · cases hs
      · rename_i hch
        exact absurd hch (Chan.send_ne_panics h.icedOpen)
    · cases hs
  | icerTo j =>
    rw [Shop.step, Shop.icerTo] at hs
    split at hs
    · obtain ⟨hlt, hs⟩ := Option.ite_none_right_eq_some.mp hs
      obtain rfl := Option.some.inj hs
      exact .hand j _ ‹_› (Chan.of_meets hlt.2).1
    · cases hs
  | inscriber =>
    rw [Shop.step, Shop.inscriber] at hs
    obtain ⟨-, hs⟩ := Option.ite_none_right_eq_some.mp hs
    split at hs
    · rename_i c ch hch
      obtain ⟨hbuf, hch'⟩ := Chan.of_receive hch
      obtain rfl := Option.some.inj hs
      rw [hch']
      exact .inscribe c ch.buf hbuf
    · cases hs
    · rename_i hch
      have hclosed := (Chan.of_receive_closed hch).2
      rw [h.icedOpen] at hclosed
      cases hclosed

omit [DecidableEq ι] in
theorem init (shop : Shop) : CooksInv shop (shop.opened (ι := ι)) where
  calm := rfl
  bakedCap := rfl
  icedCap := rfl
  baked_le := Nat.zero_le _
  iced_le := Nat.zero_le _
  closed := rfl
  icedOpen := rfl
  finished_le := Nat.zero_le _
  left _ hj := nomatch hj
  cakes := by
    have hhands : ∑ j : ι, ((shop.opened (ι := ι)).icer j).hand = 0 := Finset.sum_eq_zero fun _ _ => rfl
    rw [hhands]
    rfl
  idle _ := ⟨rfl, rfl⟩

/-- Where icer `j` goes from `p` to `p'`. -/
theorem hands (s : Cooks ι) {j : ι} {p : IcerPc} (hj : s.icer j = p) (p' : IcerPc) :
    (∑ k, (Function.update s.icer j p' k).hand) + p.hand = (∑ k, (s.icer k).hand) + p'.hand := by
  rw [← hj]
  exact sum_update IcerPc.hand s.icer j p'

omit [Fintype ι] in
/-- An icer that has not left is not among those that have. -/
theorem left_of_update {j k : ι} {p : IcerPc} (hp : p ≠ .done) (hk : Function.update s.icer j p k = .done) :
    s.icer k = .done := by
  by_cases hkj : k = j
  · rw [hkj, Function.update_self] at hk
    exact absurd hk hp
  · rwa [Function.update_of_ne hkj] at hk

theorem move (h : CooksInv shop s) (hm : s.Move shop s') : CooksInv shop s' := by
  have hcakes := h.cakes
  cases hm with
  | bake i hi hlt hcap =>
    rw [hi] at hcakes
    refine { h with baked_le := ?_, closed := ?_, finished_le := hlt, left := fun j hj => ?_, cakes := ?_ }
    · rw [List.length_append, List.length_singleton, ← h.bakedCap]
      exact hcap
    · rw [h.closed, hi]
      rfl
    · rw [(h.left j hj).1] at hi
      cases hi
    · rw [← Multiset.coe_add, ← add_assoc, hcakes]
      exact (add_comm _ _).trans (Multiset.range_succ i).symm
  | close i hi hnlt =>
    rw [hi] at hcakes
    have hle := h.finished_le
    rw [hi] at hle
    obtain rfl : i = shop.Cakes := le_antisymm hle (not_lt.mp hnlt)
    refine { h with closed := rfl, finished_le := le_refl _, left := fun j hj => ?_, cakes := hcakes }
    rw [(h.left j hj).1] at hi
    cases hi
  | bakeTo i j hi hlt hj _ =>
    rw [hi] at hcakes
    have hhands := hands s hj (.iced i)
    rw [show IcerPc.wait.hand = 0 from rfl, add_zero] at hhands
    refine { h with closed := ?_, finished_le := hlt, left := fun k hk => ?_, cakes := ?_ }
    · rw [h.closed, hi]
      rfl
    · rw [(h.left k (left_of_update (p := .iced i) nofun hk)).1] at hi
      cases hi
    · rw [hhands, show shop.finished (.bake (i + 1)) = i + 1 from rfl, Multiset.range_succ, ← Multiset.singleton_add,
        show Multiset.range i = _ from hcakes.symm, show (IcerPc.iced i).hand = {i} from rfl]
      abel
  | take j c q hj hbuf =>
    have hhands := hands s hj (.iced c)
    rw [show IcerPc.wait.hand = 0 from rfl, add_zero] at hhands
    have hle := h.baked_le
    rw [hbuf, List.length_cons] at hle
    refine { h with baked_le := Nat.le_of_succ_le hle, left := fun k hk => ?_, cakes := ?_ }
    · have hempty := (h.left k (left_of_update (p := .iced c) nofun hk)).2
      rw [hbuf] at hempty
      cases hempty
    · rw [hhands, ← hcakes, hbuf, ← Multiset.cons_coe, ← Multiset.singleton_add,
        show (IcerPc.iced c).hand = {c} from rfl]
      abel
  | leave j hj hbuf hclosed =>
    have hhands := hands s hj .done
    rw [show IcerPc.wait.hand = 0 from rfl, show IcerPc.done.hand = 0 from rfl, add_zero, add_zero] at hhands
    have hdone : s.baker = .done := by
      rw [h.closed] at hclosed
      exact of_decide_eq_true hclosed
    refine { h with left := fun k hk => ⟨hdone, hbuf⟩, cakes := ?_ }
    rw [hhands]
    exact hcakes
  | put j c hj hcap =>
    have hhands := hands s hj .wait
    rw [show IcerPc.wait.hand = 0 from rfl, add_zero, show (IcerPc.iced c).hand = {c} from rfl] at hhands
    refine { h with
      iced_le := ?_
      left := fun k hk => h.left k (left_of_update (p := .wait) nofun hk)
      cakes := ?_
      idle := fun hempty => hempty.elim j }
    · rw [List.length_append, List.length_singleton, ← h.icedCap]
      exact hcap
    · rw [← hcakes, ← hhands, ← Multiset.coe_add, Multiset.coe_singleton]
      abel
  | hand j c hj _ =>
    have hhands := hands s hj .wait
    rw [show IcerPc.wait.hand = 0 from rfl, add_zero, show (IcerPc.iced c).hand = {c} from rfl] at hhands
    refine { h with
      left := fun k hk => h.left k (left_of_update (p := .wait) nofun hk)
      cakes := ?_
      idle := fun hempty => hempty.elim j }
    rw [← hcakes, ← hhands, ← Multiset.coe_add, Multiset.coe_singleton]
    abel
  | inscribe c q hbuf =>
    have hle := h.iced_le
    rw [hbuf, List.length_cons] at hle
    refine { h with iced_le := Nat.le_of_succ_le hle, cakes := ?_, idle := fun hempty => ?_ }
    · rw [← hcakes, hbuf, ← Multiset.cons_coe, ← Multiset.singleton_add, ← Multiset.coe_add, Multiset.coe_singleton]
      abel
    · have hnil := (h.idle hempty).1
      rw [hbuf] at hnil
      cases hnil

/-! ## Every run comes to its end -/

theorem remaining_lt (hm : s.Move shop s') : shop.remaining s' < shop.remaining s := by
  have hicer : ∀ {j p}, s.icer j = p → ∀ p', (∑ k, (Function.update s.icer j p' k).steps) + p.steps =
      (∑ k, (s.icer k).steps) + p'.steps := fun hj p' => by
    rw [← hj]
    exact sum_update IcerPc.steps s.icer _ p'
  rw [Shop.remaining, Shop.remaining]
  cases hm with
  | bake i hi hlt _ =>
    rw [hi, List.length_append, List.length_singleton]
    dsimp only [Shop.finished, BakerPc.steps]
    omega
  | close i hi hnlt =>
    rw [hi]
    dsimp only [Shop.finished, BakerPc.steps, Chan.close]
    omega
  | bakeTo i j hi hlt hj _ =>
    have hsum := hicer hj (.iced i)
    rw [hi]
    dsimp only [Shop.finished, BakerPc.steps, IcerPc.steps] at hsum ⊢
    omega
  | take j c q hj hbuf =>
    have hsum := hicer hj (.iced c)
    rw [hbuf, List.length_cons]
    dsimp only [IcerPc.steps] at hsum ⊢
    omega
  | leave j hj _ _ =>
    have hsum := hicer hj .done
    dsimp only [IcerPc.steps] at hsum ⊢
    omega
  | put j c hj _ =>
    have hsum := hicer hj .wait
    rw [List.length_append, List.length_singleton]
    dsimp only [IcerPc.steps] at hsum ⊢
    omega
  | hand j c hj _ =>
    have hsum := hicer hj .wait
    dsimp only [IcerPc.steps] at hsum ⊢
    omega
  | inscribe c q hbuf =>
    rw [hbuf, List.length_cons]
    dsimp only
    omega

omit [DecidableEq ι] in
theorem finished_eq (h : CooksInv shop s) :
    s.inscribed.length + s.iced.buf.length + ∑ j, (s.icer j).hand.card + s.baked.buf.length =
      shop.finished s.baker := by
  have hcard := congrArg Multiset.card h.cakes
  rwa [Multiset.card_add, Multiset.card_add, Multiset.card_add, Multiset.card_range, Multiset.coe_card,
    Multiset.coe_card, Multiset.coe_card, Multiset.card_sum] at hcard

section Stuck

variable (h : CooksInv shop s) (hstuck : ∀ a, shop.step s a = none)

include h hstuck

omit [Fintype ι] h in
theorem iced_of_stuck (hlt : s.inscribed.length < shop.Cakes) : s.iced.buf = [] := by
  have hnone := hstuck .inscriber
  rw [Shop.step, Shop.inscriber, if_pos hlt] at hnone
  cases hrecv : s.iced.receive with
  | value c ch =>
    rw [hrecv] at hnone
    cases hnone
  | waits => exact (Chan.of_receive_waits hrecv).1
  | closed =>
    rw [hrecv] at hnone
    cases hnone

/-- An icer with a cake meets the inscriber, or finds room. -/
theorem icer_of_stuck (hlt : s.inscribed.length < shop.Cakes) (j : ι) (c : ℕ) : s.icer j ≠ .iced c := by
  intro hj
  have hempty := iced_of_stuck hstuck hlt
  have hnone := hstuck (.icer j)
  rw [Shop.step, Shop.icer, hj] at hnone
  dsimp only at hnone
  cases hsend : s.iced.send c with
  | done ch =>
    rw [hsend] at hnone
    cases hnone
  | waits =>
    have hto := hstuck (.icerTo j)
    rw [Shop.step, Shop.icerTo, hj] at hto
    dsimp only at hto
    rw [if_pos ⟨hlt, Chan.meets_of_waits hempty hsend⟩] at hto
    cases hto
  | panics => exact Chan.send_ne_panics h.icedOpen hsend

theorem baked_of_stuck {j : ι} (hj : s.icer j = .wait) : s.baked.buf = [] ∧ s.baker ≠ .done := by
  have hnone := hstuck (.icer j)
  rw [Shop.step, Shop.icer, hj] at hnone
  cases hrecv : s.baked.receive with
  | value c ch =>
    rw [hrecv] at hnone
    cases hnone
  | waits =>
    obtain ⟨hbuf, hopen⟩ := Chan.of_receive_waits hrecv
    rw [h.closed] at hopen
    exact ⟨hbuf, of_decide_eq_false hopen⟩
  | closed =>
    rw [hrecv] at hnone
    cases hnone

/-- The baker closes `baked`, finds room, or meets an icer that waits. -/
theorem baker_of_stuck {i : ℕ} (hi : s.baker = .bake i) : i < shop.Cakes ∧ ∀ j, s.icer j ≠ .wait := by
  have hnone := hstuck .baker
  rw [Shop.step, Shop.baker, hi] at hnone
  have hlt : i < shop.Cakes := by
    by_contra hnlt
    dsimp only at hnone
    rw [if_neg hnlt] at hnone
    cases hnone
  refine ⟨hlt, fun j hj => ?_⟩
  dsimp only at hnone
  rw [if_pos hlt] at hnone
  cases hsend : s.baked.send i with
  | done ch =>
    rw [hsend] at hnone
    cases hnone
  | waits =>
    have hto := hstuck (.bakerTo j)
    rw [Shop.step, Shop.bakerTo, hi, hj] at hto
    dsimp only at hto
    rw [if_pos ⟨hlt, Chan.meets_of_waits (h.baked_of_stuck hstuck hj).1 hsend⟩] at hto
    cases hto
  | panics =>
    have hopen := h.closed
    rw [hi] at hopen
    exact Chan.send_ne_panics hopen hsend

theorem all_inscribed [Nonempty ι] : s.inscribed.length = shop.Cakes := by
  have hsum := h.finished_eq
  have hle := h.finished_le
  by_contra hne
  have hlt : s.inscribed.length < shop.Cakes := by omega
  have hnone := h.icer_of_stuck hstuck hlt
  obtain ⟨j⟩ := ‹Nonempty ι›
  have hhands : ∑ j, (s.icer j).hand.card = 0 := Finset.sum_eq_zero fun k _ => by
    cases hk : s.icer k with
    | iced c => exact absurd hk (hnone k c)
    | wait | done => rfl
  rw [iced_of_stuck hstuck hlt, hhands] at hsum
  cases hj : s.icer j with
  | wait =>
    obtain ⟨hbuf, hbaker⟩ := h.baked_of_stuck hstuck hj
    cases hi : s.baker with
    | bake i => exact (h.baker_of_stuck hstuck hi).2 j hj
    | done => exact hbaker hi
  | iced c => exact hnone j c hj
  | done =>
    obtain ⟨hdone, hbuf⟩ := h.left j hj
    rw [hdone, hbuf] at hsum
    exact hne hsum

/-- Once all cakes are inscribed, the others leave. -/
theorem all_done (hall : s.inscribed.length = shop.Cakes) :
    s.baker = .done ∧ (∀ j, s.icer j = .done) ∧ s.inscribed.Perm (List.range shop.Cakes) := by
  have hsum := h.finished_eq
  have hle := h.finished_le
  have hbaker : s.baker = .done := by
    cases hi : s.baker with
    | bake i =>
      have hlt := (h.baker_of_stuck hstuck hi).1
      rw [hi] at hsum
      have hsum : _ = i := hsum
      omega
    | done => rfl
  have hhands : ∑ j, (s.icer j).hand.card = 0 := by omega
  have hhand : ∀ j, (s.icer j).hand = 0 := fun j =>
    Multiset.card_eq_zero.mp (Finset.sum_eq_zero_iff.mp hhands j (Finset.mem_univ j))
  refine ⟨hbaker, fun j => ?_, ?_⟩
  · cases hj : s.icer j with
    | wait => exact absurd hbaker (h.baked_of_stuck hstuck hj).2
    | iced c =>
      have hc := hhand j
      rw [hj] at hc
      exact absurd hc (Multiset.singleton_ne_zero c)
    | done => rfl
  · have hcakes := h.cakes
    have hiced : s.iced.buf = [] := List.eq_nil_of_length_eq_zero (by omega)
    have hbaked : s.baked.buf = [] := List.eq_nil_of_length_eq_zero (by omega)
    rw [Finset.sum_eq_zero fun j _ => hhand j, hiced, hbaked, hbaker, Multiset.coe_nil, add_zero, add_zero,
      add_zero] at hcakes
    exact Multiset.coe_eq_coe.mp hcakes

end Stuck

end CooksInv

theorem Cooks.InLine.move [Fintype ι] [Subsingleton ι] (h : s.InLine shop) (hI : CooksInv shop s)
    (hm : s.Move shop s') : s'.InLine shop := by
  intro k
  have hk := h k
  have hbaked := hI.baked_le
  have hiced := hI.iced_le
  rw [← hI.bakedCap] at hbaked
  rw [← hI.icedCap] at hiced
  cases hm with
  | bake i hi hlt hcap =>
    rw [hi] at hk
    rw [show shop.finished (.bake (i + 1)) = i + 1 from rfl, List.range_succ, ← List.append_assoc]
    exact congrArg (· ++ [i]) hk
  | close i hi hnlt =>
    have hle := hI.finished_le
    rw [hi] at hk hle
    obtain rfl : i = shop.Cakes := le_antisymm hle (not_lt.mp hnlt)
    exact hk
  | bakeTo i j hi hlt hj hcap =>
    obtain rfl : j = k := Subsingleton.elim _ _
    have hempty : s.baked.buf = [] := List.eq_nil_of_length_eq_zero (by omega)
    rw [hi, hj, hempty, IcerPc.line, List.append_nil, List.append_nil] at hk
    dsimp only
    rw [show shop.finished (.bake (i + 1)) = i + 1 from rfl, List.range_succ, Function.update_self, hempty,
      List.append_nil]
    exact congrArg (· ++ [i]) hk
  | take j c q hj hbuf =>
    obtain rfl : j = k := Subsingleton.elim _ _
    rw [hj, hbuf, IcerPc.line, List.append_nil] at hk
    dsimp only
    rw [Function.update_self, IcerPc.line, List.append_assoc]
    exact hk
  | leave j hj hbuf hclosed =>
    obtain rfl : j = k := Subsingleton.elim _ _
    rw [hj] at hk
    dsimp only
    rw [Function.update_self]
    exact hk
  | put j c hj hcap =>
    obtain rfl : j = k := Subsingleton.elim _ _
    rw [hj, IcerPc.line, List.append_assoc s.inscribed] at hk
    dsimp only
    rw [Function.update_self, IcerPc.line, List.append_nil]
    exact hk
  | hand j c hj hcap =>
    obtain rfl : j = k := Subsingleton.elim _ _
    have hempty : s.iced.buf = [] := List.eq_nil_of_length_eq_zero (by omega)
    rw [hj, hempty, IcerPc.line, List.append_nil] at hk
    dsimp only
    rw [Function.update_self, hempty, IcerPc.line, List.append_nil, List.append_nil]
    exact hk
  | inscribe c q hbuf =>
    rw [hbuf] at hk
    rw [List.append_assoc s.inscribed]
    exact hk

end Safety

section Runs

variable {shop : Shop} {s : Cooks (Fin shop.NumIcers)}

theorem cooksInv_reach (h : shop.work.Reach s) : CooksInv shop s := by
  refine System.Reach.induct (S := shop.work) (fun t ht => ?_) (fun t a r t' hI _ he => ?_) h
  · rw [show t = shop.opened from ht]
    exact CooksInv.init shop
  · obtain ⟨u, hu, he⟩ := Option.map_eq_some_iff.mp he
    obtain ⟨-, rfl⟩ := Prod.mk.inj he
    exact hI.move (hI.move_of_step hu)

/-- **Each cake is at one place**, in every state of every run: no cook panics, the buffers hold at most what they
are made for, and the cakes that the baker has finished are those that are inscribed, in a buffer or in a hand. -/
theorem cakes_conserved (h : shop.work.Reach s) :
    s.panicked = false ∧ s.baked.buf.length ≤ shop.BakeBuf ∧ s.iced.buf.length ≤ shop.IceBuf ∧
      (s.inscribed : Multiset ℕ) + s.iced.buf + ∑ j, (s.icer j).hand + s.baked.buf =
        Multiset.range (shop.finished s.baker) ∧
      s.inscribed.Nodup ∧ ∀ c ∈ s.inscribed, c < shop.Cakes := by
  have hI := cooksInv_reach h
  have hle : (s.inscribed : Multiset ℕ) ≤ Multiset.range (shop.finished s.baker) := by
    rw [← hI.cakes, add_assoc, add_assoc]
    exact Multiset.le_add_right _ _
  refine ⟨hI.calm, hI.baked_le, hI.iced_le, hI.cakes, ?_, fun c hc => ?_⟩
  · exact Multiset.coe_nodup.mp (Multiset.nodup_of_le hle (Multiset.nodup_range _))
  · have hmem := Multiset.mem_of_le hle (Multiset.mem_coe.mpr hc)
    exact (Multiset.mem_range.mp hmem).trans_le hI.finished_le

/-- **`Work` finishes**: a run has at most four steps a cake, one an icer and the closing; and where no cook has a
step, all cakes are inscribed just if there is an icer or no cake, and then all cooks have left. -/
theorem work_finishes {as : List (Cook (Fin shop.NumIcers))} (h : shop.work.after shop.opened as = some s) :
    as.length ≤ 4 * shop.Cakes + shop.NumIcers + 1 ∧ ((∀ a, shop.step s a = none) →
      (s.inscribed.length = shop.Cakes ↔ 0 < shop.NumIcers ∨ shop.Cakes = 0) ∧
      (s.inscribed.length = shop.Cakes →
        s.baker = .done ∧ (∀ j, s.icer j = .done) ∧ s.inscribed.Perm (List.range shop.Cakes))) := by
  have hI : CooksInv shop s := cooksInv_reach (System.Reach.after (fun _ _ _ => trivial) (.init rfl) h)
  refine ⟨?_, fun hstuck => ⟨⟨fun hall => ?_, fun hicers => ?_⟩, hI.all_done hstuck⟩⟩
  · have hlen := System.length_add_after_le (m := shop.remaining) (I := CooksInv shop)
      (fun t a r t' hI' _ he => by
        obtain ⟨u, hu, he⟩ := Option.map_eq_some_iff.mp he
        obtain ⟨-, rfl⟩ := Prod.mk.inj he
        have hm := hI'.move_of_step hu
        exact ⟨hI'.move hm, CooksInv.remaining_lt hm⟩)
      (fun _ _ _ => trivial) (CooksInv.init shop) h
    have hstart : shop.remaining (ι := Fin shop.NumIcers) shop.opened = 4 * shop.Cakes + shop.NumIcers + 1 := by
      have hicers : ∑ j, ((shop.opened (ι := Fin shop.NumIcers)).icer j).steps = shop.NumIcers :=
        (Finset.sum_const 1).trans (by rw [Finset.card_univ, Fintype.card_fin, Nat.nsmul_eq_mul, mul_one])
      rw [Shop.remaining, hicers]
      dsimp only [Shop.opened, Shop.finished, BakerPc.steps, Chan.make, List.length_nil]
      omega
    omega
  · rcases Nat.eq_zero_or_pos shop.NumIcers with hzero | hpos
    · have hempty : IsEmpty (Fin shop.NumIcers) := by
        rw [hzero]
        infer_instance
      rw [(hI.idle hempty).2] at hall
      exact Or.inr hall.symm
    · exact Or.inl hpos
  · rcases hicers with hpos | hzero
    · have : Nonempty (Fin shop.NumIcers) := ⟨⟨0, hpos⟩⟩
      exact hI.all_inscribed hstuck
    · have hsum := hI.finished_eq
      have hle := hI.finished_le
      omega

/-- **One icer keeps the order**: the cakes are inscribed as they are baked. -/
theorem inscribed_in_order (hone : shop.NumIcers = 1) (h : shop.work.Reach s) :
    s.inscribed = List.range s.inscribed.length := by
  have hsub : Subsingleton (Fin shop.NumIcers) := by
    rw [hone]
    infer_instance
  have hline := System.Reach.induct (S := shop.work) (I := fun t => CooksInv shop t ∧ t.InLine shop)
    (fun t ht => by
      rw [show t = shop.opened from ht]
      exact ⟨CooksInv.init shop, fun _ => rfl⟩)
    (fun t a r t' hI _ he => by
      obtain ⟨u, hu, he⟩ := Option.map_eq_some_iff.mp he
      obtain ⟨-, rfl⟩ := Prod.mk.inj he
      have hm := hI.1.move_of_step hu
      exact ⟨hI.1.move hm, hI.2.move hI.1 hm⟩) h
  have hall := hline.2 ⟨0, hone ▸ Nat.one_pos⟩
  have htake := congrArg (List.take s.inscribed.length) hall
  rw [List.append_assoc, List.append_assoc, List.take_left, List.take_range] at htake
  have hlen := congrArg List.length htake
  rw [List.length_range] at hlen
  rwa [← hlen] at htake

end Runs

/-- Two cakes, one icer and no buffers. -/
abbrev sampleShop : Shop := ⟨2, 0, 1, 0⟩

def onlyIcer : Fin 1 := ⟨0, Nat.one_pos⟩

def sampleWork : List (Cook (Fin 1)) :=
  [.bakerTo onlyIcer, .icerTo onlyIcer, .bakerTo onlyIcer, .icerTo onlyIcer, .baker, .icer onlyIcer]

theorem cakes_conserved_sample : ∃ s, sampleShop.work.after sampleShop.opened (sampleWork.take 3) = some s ∧
    s.inscribed = [0] ∧ s.inscribed.Nodup := by
  have hrun : (sampleShop.work.after sampleShop.opened (sampleWork.take 3)).any (fun s =>
      s.inscribed = [0]) = true := rfl
  obtain ⟨s, hs, hreach, hins⟩ := System.Reach.of_after (fun _ _ _ => trivial) rfl hrun
  exact ⟨s, hs, hins, (cakes_conserved hreach).2.2.2.2.1⟩

theorem work_finishes_sample : ∃ s, sampleShop.work.after sampleShop.opened sampleWork = some s ∧
    s.inscribed.Perm (List.range 2) := by
  have hrun : (sampleShop.work.after sampleShop.opened sampleWork).any (fun s =>
      s.inscribed = [0, 1] ∧ s.baker = .done ∧ s.icer (0 : Fin 1) = .done) = true := rfl
  obtain ⟨s, hs, -, hins, hbaker, hicer⟩ := System.Reach.of_after (fun _ _ _ => trivial) rfl hrun
  obtain ⟨-, hend⟩ := work_finishes hs
  have hstuck : ∀ a, sampleShop.step s a = none := fun a => by
    cases a with
    | baker => rw [Shop.step, Shop.baker, hbaker]
    | bakerTo j => rw [Shop.step, Shop.bakerTo, hbaker]
    | icer j =>
      obtain rfl : j = 0 := Subsingleton.elim _ _
      rw [Shop.step, Shop.icer, hicer]
    | icerTo j =>
      obtain rfl : j = 0 := Subsingleton.elim _ _
      rw [Shop.step, Shop.icerTo, hicer]
    | inscriber =>
      rw [Shop.step, Shop.inscriber, hins]
      rfl
  exact ⟨s, hs, ((hend hstuck).2 (by rw [hins]; rfl)).2.2⟩

theorem inscribed_in_order_sample : ∃ s, sampleShop.work.after sampleShop.opened (sampleWork.take 4) = some s ∧
    s.inscribed.length = 2 ∧ s.inscribed = List.range 2 := by
  have hrun : (sampleShop.work.after sampleShop.opened (sampleWork.take 4)).any (fun s =>
      s.inscribed.length = 2) = true := rfl
  obtain ⟨s, hs, hreach, hlen⟩ := System.Reach.of_after (fun _ _ _ => trivial) rfl hrun
  have horder : s.inscribed = List.range s.inscribed.length := inscribed_in_order rfl hreach
  rw [hlen] at horder
  exact ⟨s, hs, hlen, horder⟩

end Csapp.Threads
