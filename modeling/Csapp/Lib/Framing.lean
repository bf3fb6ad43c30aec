import Mathlib.Data.List.Infix

/-!
# Lib.Framing — reading back a sequence of encoded records

`readLoop next handle` reads records with `next` and hands each of them to `handle`, until the end of
the input or an error.  A `Framing` says that `next` reads one encoded record back, whatever follows it,
and that what it reads is determined by the input that it uses up.  Then a concatenation of encoded records is read
back (`Framing.readLoop_all`), and of a strict prefix the complete records are, with an error unless the
cut is between two records (`Framing.readLoop_cut`).  `Incremental` readers of single fields compose.
-/

namespace Csapp.Lib

universe u

variable {α ε ρ σ : Type*} {β γ : Type u}

/-! ## Readers of single fields -/

/-- What a reader returns is determined by the part of the input that it uses up. -/
def Incremental (read : List α → Except ε (β × List α)) : Prop :=
  ∀ p b rest, read p = .ok (b, rest) → ∃ used, p = used ++ rest ∧ ∀ t, read (used ++ t) = .ok (b, t)

theorem Incremental.pure (b : β) : Incremental fun p : List α => (.ok (b, p) : Except ε (β × List α)) := by
  intro p b' rest h
  obtain ⟨rfl, rfl⟩ := Prod.mk.inj (Except.ok.inj h)
  exact ⟨[], rfl, fun t => rfl⟩

theorem Incremental.bind {read : List α → Except ε (β × List α)} {cont : β → List α → Except ε (γ × List α)}
    (h : Incremental read) (hc : ∀ b, Incremental (cont b)) :
    Incremental fun p => read p >>= fun x => cont x.1 x.2 := by
  intro p c rest hp
  dsimp only at hp ⊢
  cases hr : read p with
  | error err =>
    rw [hr] at hp
    cases hp
  | ok x =>
    rw [hr] at hp
    obtain ⟨used, h1, h2⟩ := h p x.1 x.2 hr
    obtain ⟨used', h3, h4⟩ := hc x.1 x.2 c rest hp
    refine ⟨used ++ used', by rw [h1, h3, List.append_assoc], fun t => ?_⟩
    rw [List.append_assoc, h2]
    exact h4 t

/-! ## The loop -/

/-- One attempt to read a record: the end of the input, an error, or a record and what follows it. -/
inductive Fetched (α ε ρ : Type*)
  | stop
  | fail (err : ε)
  | record (r : ρ) (rest : List α)

/-- The error, if any, and the state that the handled records leave. -/
def readLoop (next : List α → Fetched α ε ρ) (handle : σ → ρ → Option σ) :
    ℕ → σ → List α → Option (Option ε × σ)
  | 0, _, _ => none
  | fuel + 1, s, input =>
    match next input with
    | .stop => some (none, s)
    | .fail err => some (some err, s)
    | .record r rest => (handle s r).bind fun s => readLoop next handle fuel s rest

/-- The records that `readLoop` hands over, and the error. -/
def fetchAll (next : List α → Fetched α ε ρ) : ℕ → List α → Option ε × List ρ
  | 0, _ => (none, [])
  | fuel + 1, input =>
    match next input with
    | .stop => (none, [])
    | .fail err => (some err, [])
    | .record r rest => ((fetchAll next fuel rest).1, r :: (fetchAll next fuel rest).2)

/-- `next` reads back what `encode` writes. -/
structure Framing (next : List α → Fetched α ε ρ) (encode : ρ → List α) (Ok : ρ → Prop) : Prop where
  stop : ∀ p, next p = .stop ↔ p = []
  record : ∀ r, Ok r → ∀ rest, next (encode r ++ rest) = .record r rest
  used : ∀ p r rest, next p = .record r rest →
    ∃ used, used ≠ [] ∧ p = used ++ rest ∧ ∀ t, next (used ++ t) = .record r t

section

variable {next : List α → Fetched α ε ρ} {encode : ρ → List α} {Ok : ρ → Prop} {handle : σ → ρ → Option σ}
  {r : ρ} {p : List α}

/-- The loop reads an encoded record and goes on. -/
theorem Framing.readLoop_record (h : Framing next encode Ok) (hr : Ok r) (fuel : ℕ) (s : σ) (rest : List α) :
    readLoop next handle (fuel + 1) s (encode r ++ rest) =
      (handle s r).bind fun s => readLoop next handle fuel s rest := by
  rw [readLoop, h.record r hr rest]

/-- **A concatenation is read back**, and then the loop stops. -/
theorem Framing.readLoop_all (h : Framing next encode Ok) : ∀ (rs : List ρ), (∀ r ∈ rs, Ok r) →
    ∀ (fuel : ℕ) (s : σ), rs.length < fuel → readLoop next handle fuel s (rs.flatMap encode) =
      (rs.foldlM handle s).map fun s => (none, s)
  | [], _, fuel + 1, s, _ => by
    rw [List.flatMap_nil, readLoop, (h.stop _).mpr rfl]
    rfl
  | r :: rs, hrs, fuel + 1, s, hf => by
    have hlen : rs.length < fuel := by
      rw [List.length_cons] at hf
      omega
    rw [List.flatMap_cons, h.readLoop_record (hrs r List.mem_cons_self), List.foldlM_cons]
    cases hs : handle s r with
    | none => rfl
    | some s' => exact h.readLoop_all rs (fun r' hr' => hrs r' (List.mem_cons_of_mem r hr')) fuel s' hlen

/-- A record that is cut gives an error: had it been read, the rest of it would be read as left over. -/
theorem Framing.cut (h : Framing next encode Ok) (hr : Ok r) (hp : p <+: encode r) (hnil : p ≠ [])
    (hne : p ≠ encode r) : ∃ err, next p = .fail err := by
  obtain ⟨t, ht⟩ := hp
  cases hnext : next p with
  | stop => exact absurd ((h.stop p).mp hnext) hnil
  | fail err => exact ⟨err, rfl⟩
  | record r' rest =>
    obtain ⟨used, -, h1, h2⟩ := h.used p r' rest hnext
    have hwhole := h.record r hr []
    rw [List.append_nil, ← ht, h1, List.append_assoc, h2] at hwhole
    obtain ⟨-, h3⟩ := Fetched.record.inj hwhole
    rw [(List.append_eq_nil_iff.mp h3).2, List.append_nil] at ht
    exact absurd ht hne

/-- A record that is cut ends the loop; an error says so unless nothing of it is left. -/
theorem Framing.readLoop_partial (h : Framing next encode Ok) (handle : σ → ρ → Option σ) (hr : Ok r)
    (hp : p <+: encode r) (hne : p ≠ encode r) : ∃ err, (err = none ↔ p = []) ∧
      ∀ fuel (s : σ), 0 < fuel → readLoop next handle fuel s p = some (err, s) := by
  by_cases hnil : p = []
  · refine ⟨none, iff_of_true rfl hnil, ?_⟩
    rintro (_ | fuel) s hf
    · exact absurd hf (lt_irrefl 0)
    · rw [hnil, readLoop, (h.stop _).mpr rfl]
  · obtain ⟨err, herr⟩ := h.cut hr hp hnil hne
    refine ⟨some err, iff_of_false (Option.some_ne_none err) hnil, ?_⟩
    rintro (_ | fuel) s hf
    · exact absurd hf (lt_irrefl 0)
    · rw [readLoop, herr]

/-- **A cut between or inside records**: the `k` complete ones are read, and then the loop stops, with an
error unless nothing follows them. -/
theorem Framing.readLoop_cut (h : Framing next encode Ok) : ∀ (rs : List ρ) (p : List α), (∀ r ∈ rs, Ok r) →
    p <+: rs.flatMap encode → p ≠ rs.flatMap encode → ∃ k err, k < rs.length ∧
      (rs.take k).flatMap encode <+: p ∧ ¬ (rs.take (k + 1)).flatMap encode <+: p ∧
      (err = none ↔ p = (rs.take k).flatMap encode) ∧ ∀ fuel (s : σ), k < fuel →
        readLoop next handle fuel s p = ((rs.take k).foldlM handle s).map fun s => (err, s)
  | [], p, _, hp, hne => absurd (List.prefix_nil.mp hp) hne
  | r :: rs, p, hrs, hp, hne => by
    have hr := hrs r List.mem_cons_self
    rw [List.flatMap_cons] at hp hne
    by_cases hfull : encode r <+: p
    · -- the first record is complete, and the cut is in the rest
      obtain ⟨q, rfl⟩ := hfull
      obtain ⟨k, err, h1, h2, h3, h4, h5⟩ := h.readLoop_cut rs q
        (fun r' hr' => hrs r' (List.mem_cons_of_mem r hr')) ((List.prefix_append_right_inj _).mp hp)
        (fun hq => hne (by rw [hq]))
      refine ⟨k + 1, err, by rw [List.length_cons]; omega, ?_, ?_, ?_, ?_⟩
      · rw [List.take_succ_cons, List.flatMap_cons]
        exact (List.prefix_append_right_inj _).mpr h2
      · rw [List.take_succ_cons, List.flatMap_cons]
        exact fun hpre => h3 ((List.prefix_append_right_inj _).mp hpre)
      · rw [List.take_succ_cons, List.flatMap_cons, List.append_cancel_left_eq]
        exact h4
      · rintro (_ | fuel) s hf
        · omega
        · rw [h.readLoop_record hr, List.take_succ_cons, List.foldlM_cons]
          cases hs : handle s r with
          | none => rfl
          | some s' => exact h5 fuel s' (by omega)
    · have hpr : p <+: encode r :=
        (List.prefix_or_prefix_of_prefix hp (List.prefix_append _ _)).resolve_right hfull
      obtain ⟨err, h1, h2⟩ := h.readLoop_partial handle hr hpr fun he => hfull (he ▸ List.prefix_rfl)
      refine ⟨0, err, by simp, List.nil_prefix, ?_, h1, fun fuel s hf => ?_⟩
      · simpa using hfull
      · rw [h2 fuel s hf]
        rfl

/-- The records do not depend on what is done with them, and every round uses up input. -/
theorem Framing.readLoop_eq (h : Framing next encode Ok) (handle : σ → ρ → Option σ) :
    ∀ fuel input (s : σ), input.length < fuel →
    readLoop next handle fuel s input = ((fetchAll next fuel input).2.foldlM handle s).map
      fun s => ((fetchAll next fuel input).1, s)
  | fuel + 1, input, s, hf => by
    rw [readLoop, fetchAll]
    cases hn : next input with
    | stop => rfl
    | fail err => rfl
    | record r rest =>
      obtain ⟨used, hne, rfl, -⟩ := h.used input r rest hn
      have hpos := List.length_pos_iff.mpr hne
      rw [List.length_append] at hf
      show (handle s r).bind _ = _
      rw [List.foldlM_cons]
      cases hs : handle s r with
      | none => rfl
      | some s' => exact h.readLoop_eq handle fuel rest s' (by omega)

/-- The boundaries between records, around a cut. -/
theorem boundary_iff {rs : List ρ} {k : ℕ} (h1 : (rs.take k).flatMap encode <+: p)
    (h2 : ¬ (rs.take (k + 1)).flatMap encode <+: p) :
    p = (rs.take k).flatMap encode ↔ ∃ j, p = (rs.take j).flatMap encode := by
  have hmono : ∀ {i j}, i ≤ j → (rs.take i).flatMap encode <+: (rs.take j).flatMap encode := fun hij => by
    obtain ⟨t, ht⟩ := List.take_prefix_take_left hij (l := rs)
    exact ⟨t.flatMap encode, by rw [← List.flatMap_append, ht]⟩
  refine ⟨fun hp => ⟨k, hp⟩, ?_⟩
  rintro ⟨j, hj⟩
  by_cases hjk : j ≤ k
  · have hle := hmono hjk
    rw [← hj] at hle
    exact hle.eq_of_length (le_antisymm hle.length_le h1.length_le)
  · exact absurd (hj ▸ hmono (Nat.succ_le_of_lt (not_le.mp hjk))) h2

end

end Csapp.Lib
