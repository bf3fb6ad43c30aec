import Csapp.Lib.Recency
import Csapp.Proxy.Cache
import Mathlib.Data.Fintype.EquivFin

/-!
# Proxy.Lru — the cache is a bounded LRU map

A history lists the calls with their answers.  The keys that it touches are those of the puts and of the
gets that succeed; the cache holds the `NUM_CACHE_OBJECTS` most recent ones, each with the value of its
latest put (`cache_lru`).  The slots in use, in the order of their times, have these keys (`Lru`).
-/

namespace Csapp.Proxy

open Csapp.Lib

/-! ## Histories -/

inductive Call
  | get (key : Key)
  | put (key : Key) (value : Value)

abbrev Trace : Type := List (Call × Option Value)

/-- The key that a call touches. -/
def touchedKey : Call × Option Value → Option Key
  | (.get _, none) => none
  | (.get key, some _) => some key
  | (.put key _, _) => some key

/-- The keys that have been touched, the latest one first. -/
def recentKeys (t : Trace) : List Key := recent (t.filterMap touchedKey)

def putValue (key : Key) : Call × Option Value → Option Value
  | (.put key' value, _) => if key' = key then some value else none
  | _ => none

/-- The value of the latest put. -/
def latestPut (t : Trace) (key : Key) : Option Value := (t.filterMap (putValue key)).getLast?

def Cache.call (c : Cache) (now : ℤ) : Call → Option Value × Cache
  | .get key => c.cache_get key now
  | .put key value => (none, c.cache_put key value now)

/-- The calls, each at its time: the history and the cache at the end. -/
def run : Cache → List (ℤ × Call) → Trace × Cache
  | c, [] => ([], c)
  | c, (now, call) :: calls =>
    let (answer, c) := c.call now call
    let (t, c) := run c calls
    ((call, answer) :: t, c)

/-- The cache after a history: it has at most one slot for a key, it has the most recent keys with their
latest values and no others, and a call that loses one finds all slots in use and takes the one that has not
been touched for longest. -/
structure IsLru (c : Cache) (t : Trace) : Prop where
  distinct : ∀ i j, (c.objs i).valid = true → (c.objs j).valid = true → (c.objs i).key = (c.objs j).key → i = j
  hit : ∀ key now, key ∈ (recentKeys t).take NUM_CACHE_OBJECTS →
    ∃ value, latestPut t key = some value ∧ (c.cache_get key now).1 = some value
  miss : ∀ key now, key ∉ (recentKeys t).take NUM_CACHE_OBJECTS → (c.cache_get key now).1 = none
  lost : ∀ key call now, (∀ i, (c.objs i).valid = true → (c.objs i).clk < now) → c.cache_find key ≠ none →
    (c.call now call).2.cache_find key = none →
    (∀ i, (c.objs i).valid = true) ∧ ((recentKeys t).take NUM_CACHE_OBJECTS).getLast? = some key

/-! ## The invariant -/

/-- `order` lists the slots in use, the latest one first. -/
structure Lru (c : Cache) (t : Trace) (order : List (Fin NUM_CACHE_OBJECTS)) : Prop where
  ranked : Ranked (fun i => (c.objs i).valid = true) (fun i => (c.objs i).clk) order
  keys : order.map (fun i => (c.objs i).key) = (recentKeys t).take NUM_CACHE_OBJECTS
  values : ∀ i, (c.objs i).valid = true → latestPut t (c.objs i).key = some (c.objs i).value

section Histories

variable {t : Trace} {key key' : Key} {value : Value}

theorem recentKeys_miss (t : Trace) (key : Key) : recentKeys (t ++ [(.get key, none)]) = recentKeys t := by
  rw [recentKeys, List.filterMap_append]
  exact congrArg recent (List.append_nil _)

theorem recentKeys_touch {e : Call × Option Value} (h : touchedKey e = some key) :
    recentKeys (t ++ [e]) = touch key (recentKeys t) := by
  rw [recentKeys, List.filterMap_append, List.filterMap_cons_some h, List.filterMap_nil]
  exact recent_concat _ key

theorem latestPut_get (t : Trace) (key key' : Key) (answer : Option Value) :
    latestPut (t ++ [(.get key', answer)]) key = latestPut t key := by
  rw [latestPut, List.filterMap_append]
  exact congrArg List.getLast? (List.append_nil _)

theorem latestPut_put (t : Trace) (key : Key) (value : Value) :
    latestPut (t ++ [(.put key value, none)]) key = some value := by
  have hput : putValue key (.put key value, none) = some value := if_pos rfl
  rw [latestPut, List.filterMap_append, List.filterMap_cons_some hput, List.filterMap_nil]
  exact List.getLast?_concat

theorem latestPut_put_of_ne (h : key' ≠ key) :
    latestPut (t ++ [(.put key' value, none)]) key = latestPut t key := by
  have hput : putValue key (.put key' value, none) = none := if_neg h
  rw [latestPut, List.filterMap_append, List.filterMap_cons_none hput, List.filterMap_nil]
  exact congrArg List.getLast? (List.append_nil _)

end Histories

/-! ## One call -/

namespace Lru

variable {c : Cache} {t : Trace} {order : List (Fin NUM_CACHE_OBJECTS)} {i : Fin NUM_CACHE_OBJECTS} {key : Key}

theorem mem_keys (h : Lru c t order) : key ∈ (recentKeys t).take NUM_CACHE_OBJECTS ↔
    ∃ i, (c.objs i).valid = true ∧ (c.objs i).key = key := by
  rw [← h.keys, List.mem_map]
  exact exists_congr fun i => and_congr_left fun _ => h.ranked.mem i

theorem nodup_keys (h : Lru c t order) : (order.map fun i => (c.objs i).key).Nodup := by
  rw [h.keys]
  exact (nodup_recent _).sublist (List.take_sublist _ _)

theorem distinct (h : Lru c t order) {j : Fin NUM_CACHE_OBJECTS} (hi : (c.objs i).valid = true)
    (hj : (c.objs j).valid = true) (hkey : (c.objs i).key = (c.objs j).key) : i = j :=
  List.inj_on_of_nodup_map h.nodup_keys ((h.ranked.mem i).mpr hi) ((h.ranked.mem j).mpr hj) hkey

theorem find_eq_none (h : Lru c t order) :
    c.cache_find key = none ↔ key ∉ (recentKeys t).take NUM_CACHE_OBJECTS := by
  rw [Cache.cache_find_eq_none, h.mem_keys]
  exact ⟨fun hno ⟨i, hv, hk⟩ => hno i hv hk, fun hno i hv hk => hno ⟨i, hv, hk⟩⟩

/-- A slot gets a new time. -/
theorem ranked_setObj (h : Lru c t order) {obj : CacheObject} (hv : obj.valid = true)
    (hnow : ∀ j, (c.objs j).valid = true → (c.objs j).clk < obj.clk) :
    Ranked (fun j => ((c.setObj i obj).objs j).valid = true) (fun j => ((c.setObj i obj).objs j).clk)
      (touch i order) := by
  have hvalid : (fun j => ((c.setObj i obj).objs j).valid = true) =
      fun j => j = i ∨ (c.objs j).valid = true := by
    funext j
    by_cases hj : j = i
    · rw [hj, Cache.setObj_same]
      exact propext (iff_of_true hv (Or.inl rfl))
    · rw [Cache.setObj_of_ne hj]
      exact propext (or_iff_right hj).symm
  have hclk : (fun j => ((c.setObj i obj).objs j).clk) =
      Function.update (fun j => (c.objs j).clk) i obj.clk := by
    funext j
    by_cases hj : j = i
    · rw [hj, Cache.setObj_same, Function.update_self]
    · rw [Cache.setObj_of_ne hj, Function.update_of_ne hj]
  rw [hvalid, hclk]
  exact h.ranked.touch hnow

/-- A slot gets a new time and the value of a key that no other slot has. -/
theorem setObj (h : Lru c t order) {obj : CacheObject} {e : Call × Option Value} (hv : obj.valid = true)
    (hnow : ∀ j, (c.objs j).valid = true → (c.objs j).clk < obj.clk)
    (huniq : ∀ j, j ≠ i → (c.objs j).valid = true → (c.objs j).key ≠ obj.key)
    (hkeys : (touch i order).map (fun j => ((c.setObj i obj).objs j).key) =
      (recentKeys (t ++ [e])).take NUM_CACHE_OBJECTS)
    (hlatest : latestPut (t ++ [e]) obj.key = some obj.value)
    (hother : ∀ key, key ≠ obj.key → latestPut (t ++ [e]) key = latestPut t key) :
    Lru (c.setObj i obj) (t ++ [e]) (touch i order) where
  ranked := h.ranked_setObj hv hnow
  keys := hkeys
  values j hj := by
    by_cases hji : j = i
    · rw [hji, Cache.setObj_same]
      exact hlatest
    · rw [Cache.setObj_of_ne hji] at hj ⊢
      rw [hother _ (huniq j hji hj), h.values j hj]

/-- The slot of the key is used again. -/
theorem hit (h : Lru c t order) {obj : CacheObject} {e : Call × Option Value} (hi : (c.objs i).valid = true)
    (hkey : obj.key = (c.objs i).key) (hv : obj.valid = true)
    (hnow : ∀ j, (c.objs j).valid = true → (c.objs j).clk < obj.clk) (he : touchedKey e = some obj.key)
    (hlatest : latestPut (t ++ [e]) obj.key = some obj.value)
    (hother : ∀ key, key ≠ obj.key → latestPut (t ++ [e]) key = latestPut t key) :
    Lru (c.setObj i obj) (t ++ [e]) (touch i order) := by
  refine h.setObj hv hnow (fun j hj hvj hk => hj (h.distinct hvj hi (hk.trans hkey))) ?_ hlatest hother
  have hsame : (fun j => ((c.setObj i obj).objs j).key) = fun j => (c.objs j).key := by
    funext j
    by_cases hj : j = i
    · rw [hj, Cache.setObj_same, hkey]
    · rw [Cache.setObj_of_ne hj]
  rw [hsame, map_touch h.nodup_keys ((h.ranked.mem i).mpr hi), h.keys, recentKeys_touch he, hkey]
  exact (take_touch_of_mem (h.mem_keys.mpr ⟨i, hi, rfl⟩)).symm

/-- A slot takes a new key; the other slots in use have the most recent keys but one. -/
theorem take (h : Lru c t order) (obj : CacheObject) {value : Value}
    (hnew : obj.key ∉ (recentKeys t).take NUM_CACHE_OBJECTS) (hv : obj.valid = true)
    (hnow : ∀ j, (c.objs j).valid = true → (c.objs j).clk < obj.clk) (hvalue : obj.value = value)
    (hfront : (order.erase i).map (fun j => (c.objs j).key) =
      (recentKeys t).take (NUM_CACHE_OBJECTS - 1)) :
    Lru (c.setObj i obj) (t ++ [(.put obj.key value, none)]) (touch i order) := by
  refine h.setObj hv hnow (fun j _ hvj hk => hnew (h.mem_keys.mpr ⟨j, hvj, hk⟩)) ?_ ?_ fun key hne =>
    latestPut_put_of_ne hne.symm
  · rw [recentKeys_touch rfl]
    refine Eq.trans ?_ (take_touch_of_not_mem (n := NUM_CACHE_OBJECTS - 1) hnew).symm
    rw [touch, List.map_cons, Cache.setObj_same, ← hfront]
    congr 1
    refine List.map_congr_left fun j hj => ?_
    rw [Cache.setObj_of_ne (h.ranked.nodup.mem_erase_iff.mp hj).1]
  · rw [latestPut_put, hvalue]

/-- With a slot that is not in use, the cache has all keys. -/
theorem front_of_free (h : Lru c t order) (hi : ¬ (c.objs i).valid = true) :
    (order.erase i).map (fun j => (c.objs j).key) = (recentKeys t).take (NUM_CACHE_OBJECTS - 1) := by
  have hmem : i ∉ order := fun hmem => hi ((h.ranked.mem i).mp hmem)
  have hlen : order.length < NUM_CACHE_OBJECTS := by
    have := (List.nodup_cons.mpr ⟨hmem, h.ranked.nodup⟩).length_le_card
    rwa [Fintype.card_fin, List.length_cons] at this
  have hkeys := congrArg List.length h.keys
  rw [List.length_map, List.length_take] at hkeys
  have hR : (recentKeys t).length ≤ NUM_CACHE_OBJECTS - 1 := by omega
  rw [List.erase_of_not_mem hmem, h.keys, List.take_of_length_le hR,
    List.take_of_length_le (hR.trans (Nat.sub_le _ _))]

theorem length_of_full (h : Lru c t order) (hfull : ∀ i, (c.objs i).valid = true) :
    order.length = NUM_CACHE_OBJECTS := by
  have hperm : order.Perm (List.finRange NUM_CACHE_OBJECTS) :=
    (List.perm_ext_iff_of_nodup h.ranked.nodup (List.nodup_finRange _)).mpr fun i =>
      iff_of_true ((h.ranked.mem i).mpr (hfull i)) (List.mem_finRange i)
  rw [hperm.length_eq, List.length_finRange]

/-- With all slots in use, the one with the smallest time has the last of the most recent keys. -/
theorem front_of_full (h : Lru c t order) (hfull : ∀ i, (c.objs i).valid = true)
    (hmin : ∀ j, (c.objs i).clk ≤ (c.objs j).clk) :
    (order.erase i).map (fun j => (c.objs j).key) = (recentKeys t).take (NUM_CACHE_OBJECTS - 1) ∧
      (recentKeys t).take NUM_CACHE_OBJECTS =
        (recentKeys t).take (NUM_CACHE_OBJECTS - 1) ++ [(c.objs i).key] := by
  have hlen := h.length_of_full hfull
  obtain ⟨front, rfl⟩ := h.ranked.eq_concat (hfull i) fun j _ => hmin j
  have hi : i ∉ front := fun hmem =>
    List.disjoint_of_nodup_append h.ranked.nodup hmem List.mem_cons_self
  have hkeys := h.keys
  rw [List.map_append, List.map_singleton] at hkeys
  have hfront : front.map (fun j => (c.objs j).key) = (recentKeys t).take (NUM_CACHE_OBJECTS - 1) := by
    have htake := congrArg (List.take (NUM_CACHE_OBJECTS - 1)) hkeys
    rw [List.length_append, List.length_singleton] at hlen
    rw [List.take_append_of_le_length (by rw [List.length_map]; omega),
      List.take_of_length_le (by rw [List.length_map]; omega), List.take_take] at htake
    exact htake
  rw [List.erase_append_right _ hi, List.erase_cons_head, List.append_nil]
  exact ⟨hfront, by rw [← hkeys, hfront]⟩

/-- **One call.** -/
theorem call (h : Lru c t order) {now : ℤ} (hnow : ∀ i, (c.objs i).valid = true → (c.objs i).clk < now)
    (call : Call) : ∃ order', Lru (c.call now call).2 (t ++ [(call, (c.call now call).1)]) order' := by
  cases call with
  | get key =>
    rw [Cache.call, Cache.cache_get]
    cases hf : c.cache_find key with
    | none => exact ⟨order, h.ranked, by rw [recentKeys_miss, h.keys], fun i hi => by
        rw [latestPut_get, h.values i hi]⟩
    | some i =>
      obtain ⟨hi, rfl⟩ := Cache.cache_find_some hf
      refine ⟨touch i order, h.hit hi rfl hi hnow rfl ?_ fun key _ => latestPut_get t key _ _⟩
      rw [latestPut_get, h.values i hi]
  | put key value =>
    rw [Cache.call, Cache.cache_put]
    cases hf : c.cache_find key with
    | some i =>
      obtain ⟨hi, rfl⟩ := Cache.cache_find_some hf
      exact ⟨touch i order, h.hit hi rfl hi hnow rfl (latestPut_put t _ value) fun key hne =>
        latestPut_put_of_ne hne.symm⟩
    | none =>
      have hnew := h.find_eq_none.mp hf
      dsimp only
      cases hfree : (List.finRange NUM_CACHE_OBJECTS).find? fun i => !(c.objs i).valid with
      | some i =>
        have hi : ¬ (c.objs i).valid = true := by
          simpa using List.find?_some hfree
        exact ⟨touch i order, h.take ⟨true, now, key, value⟩ hnew rfl hnow rfl (h.front_of_free hi)⟩
      | none =>
        have hfull : ∀ i, (c.objs i).valid = true := fun i => by
          simpa using List.find?_eq_none.mp hfree i (List.mem_finRange i)
        exact ⟨touch c.victim order,
          h.take { c.objs c.victim with clk := now, key := key, value := value } hnew (hfull _) hnow
            rfl (h.front_of_full hfull c.victim_min).1⟩

theorem full_of_length (h : Lru c t order) (hlen : order.length = NUM_CACHE_OBJECTS)
    (i : Fin NUM_CACHE_OBJECTS) : (c.objs i).valid = true := by
  have hsub : order.Subperm (List.finRange NUM_CACHE_OBJECTS) :=
    List.subperm_of_subset h.ranked.nodup fun j _ => List.mem_finRange j
  have hperm := hsub.perm_of_length_le (by rw [List.length_finRange, hlen])
  exact (h.ranked.mem i).mp (hperm.mem_iff.mpr (List.mem_finRange i))

/-- A call that loses a key. -/
theorem lost (h : Lru c t order) {now : ℤ} (hnow : ∀ i, (c.objs i).valid = true → (c.objs i).clk < now)
    {call : Call} (hkey : c.cache_find key ≠ none) (hlost : (c.call now call).2.cache_find key = none) :
    (∀ i, (c.objs i).valid = true) ∧ ((recentKeys t).take NUM_CACHE_OBJECTS).getLast? = some key := by
  obtain ⟨order', h'⟩ := h.call hnow call
  have hin : key ∈ (recentKeys t).take NUM_CACHE_OBJECTS := not_not.mp (mt h.find_eq_none.mpr hkey)
  have hout := h'.find_eq_none.mp hlost
  cases he : touchedKey (call, (c.call now call).1) with
  | none =>
    rw [recentKeys, List.filterMap_append, List.filterMap_cons_none he, List.filterMap_nil,
      List.append_nil] at hout
    exact absurd hin hout
  | some key' =>
    rw [recentKeys_touch he] at hout
    have hlast : (recentKeys t)[NUM_CACHE_OBJECTS - 1]? = some key :=
      getElem?_of_take_touch (n := NUM_CACHE_OBJECTS - 1) hin hout
    have hsplit : (recentKeys t).take (NUM_CACHE_OBJECTS - 1 + 1) =
        (recentKeys t).take (NUM_CACHE_OBJECTS - 1) ++ [key] := by
      rw [List.take_add_one, hlast, Option.toList_some]
    refine ⟨h.full_of_length ?_, (congrArg List.getLast? hsplit).trans List.getLast?_concat⟩
    have hlen := congrArg List.length h.keys
    have hlt := (List.getElem?_eq_some_iff.mp hlast).1
    rw [List.length_map, List.length_take] at hlen
    omega

theorem isLru (h : Lru c t order) : IsLru c t where
  distinct _ _ := h.distinct
  hit key now hkey := by
    obtain ⟨i, hi, rfl⟩ := h.mem_keys.mp hkey
    refine ⟨(c.objs i).value, h.values i hi, ?_⟩
    rw [Cache.cache_get, Cache.cache_find_eq_some hi rfl fun j hj hk => h.distinct hj hi hk]
  miss key now hkey := by rw [Cache.cache_get, h.find_eq_none.mpr hkey]
  lost _ _ _ hnow hkey hlost := h.lost hnow hkey hlost

end Lru

/-! ## Runs -/

/-- The times after a call. -/
theorem call_clk (c : Cache) (now : ℤ) (call : Call) (i : Fin NUM_CACHE_OBJECTS)
    (hi : ((c.call now call).2.objs i).valid = true) : ((c.call now call).2.objs i).clk = now ∨
      ((c.objs i).valid = true ∧ ((c.call now call).2.objs i).clk = (c.objs i).clk) := by
  have hset : ∀ {k obj}, obj.clk = now → ((c.setObj k obj).objs i).valid = true →
      ((c.setObj k obj).objs i).clk = now ∨
        ((c.objs i).valid = true ∧ ((c.setObj k obj).objs i).clk = (c.objs i).clk) := by
    intro k obj hobj hv
    by_cases hik : i = k
    · rw [hik, Cache.setObj_same]
      exact Or.inl hobj
    · rw [Cache.setObj_of_ne hik] at hv ⊢
      exact Or.inr ⟨hv, rfl⟩
  cases call with
  | get key =>
    rw [Cache.call, Cache.cache_get] at hi ⊢
    split at hi
    · exact Or.inr ⟨hi, rfl⟩
    · exact hset rfl hi
  | put key value =>
    rw [Cache.call, Cache.cache_put] at hi ⊢
    dsimp only at hi ⊢
    split at hi
    · exact hset rfl hi
    · split at hi
      · exact hset rfl hi
      · exact hset rfl hi

theorem run_lru (calls : List (ℤ × Call)) (c : Cache) (t : Trace) (order : List (Fin NUM_CACHE_OBJECTS))
    (h : Lru c t order) (hnow : ∀ now ∈ calls.map Prod.fst, ∀ i, (c.objs i).valid = true → (c.objs i).clk < now)
    (hsorted : (calls.map Prod.fst).Pairwise (· < ·)) :
    ∃ order', Lru (run c calls).2 (t ++ (run c calls).1) order' := by
  induction calls generalizing c t order with
  | nil => exact ⟨order, by rw [run, List.append_nil]; exact h⟩
  | cons head calls ih =>
    obtain ⟨now, call⟩ := head
    rw [List.map_cons] at hnow hsorted
    obtain ⟨hlt, hsorted⟩ := List.pairwise_cons.mp hsorted
    obtain ⟨order₁, h₁⟩ := h.call (hnow now List.mem_cons_self) call
    obtain ⟨order₂, h₂⟩ := ih _ _ order₁ h₁ (fun now' hmem i hi => by
      rcases call_clk c now call i hi with he | ⟨hv, he⟩
      · rw [he]
        exact hlt now' hmem
      · rw [he]
        exact hnow now' (List.mem_cons_of_mem now hmem) i hv) hsorted
    rw [List.append_assoc, List.singleton_append] at h₂
    exact ⟨order₂, h₂⟩

/-- **A bounded LRU map**: after any calls, each at a later time than the ones before, the cache holds the
values of the most recent keys. -/
theorem cache_lru (calls : List (ℤ × Call)) (h : (calls.map Prod.fst).Pairwise (· < ·)) :
    IsLru (run cache_init calls).2 (run cache_init calls).1 := by
  have hinit : Lru cache_init [] [] := by
    refine ⟨⟨fun i => ?_, List.Pairwise.nil⟩, rfl, fun i hi => ?_⟩
    · exact iff_of_false List.not_mem_nil fun hi => by cases hi
    · cases hi
  obtain ⟨order, hl⟩ := run_lru calls cache_init [] [] hinit (fun _ _ i hi => by cases hi) h
  exact hl.isLru

def sampleKey : Key := ⟨"http://localhost/home.html".toList, by decide +kernel⟩

/-- A put, a hit, and a put that overwrites the value. -/
def sampleCalls : List (ℤ × Call) :=
  [(1, .put sampleKey ⟨[60], by decide⟩), (2, .get sampleKey), (3, .put sampleKey ⟨[60, 62], by decide⟩)]

theorem cache_lru_sample :
    ((run cache_init sampleCalls).2.cache_get sampleKey 4).1 = some ⟨[60, 62], by decide⟩ := by
  obtain ⟨value, h1, h2⟩ := (cache_lru sampleCalls (by decide)).hit sampleKey 4 (by decide +kernel)
  have hvalue : latestPut (run cache_init sampleCalls).1 sampleKey = some ⟨[60, 62], by decide⟩ := by
    decide +kernel
  rw [h2, ← h1, hvalue]

end Csapp.Proxy
