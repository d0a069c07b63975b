import Besm.Lib.Rotation
import Besm.Util.AssotiativeCache

namespace Besm.Util.Cache

open Lib.Rotation

variable {Payload Tag : Type} [DecidableEq Tag] {F : CacheFunctions Payload Tag}

/-- The calls that change the entries of a cache. -/
inductive Call (Payload Tag : Type)
  | add (payload : Payload)
  | invalidate (tag : Tag)
  | invalidateAll

def call (c : Cache F) : Call Payload Tag → Cache F
  | .add payload => c.add payload
  | .invalidate tag => c.invalidate tag
  | .invalidateAll => c.invalidateAll

/-- What a cache is after calls, the newest of them first. -/
inductive History [Inhabited Payload] [OfNat Tag 0] (sizes : CacheSizes F) :
    List (Call Payload Tag) → Cache F → Prop
  | create : History sizes [] (create sizes)
  | call {calls : List (Call Payload Tag)} {c : Cache F} (h : History sizes calls c)
      (op : Call Payload Tag) : History sizes (op :: calls) (c.call op)

/-- What was added to a set, the newest first. What was invalidated since is no
longer valid. -/
def added (F : CacheFunctions Payload Tag) (set : Nat) :
    List (Call Payload Tag) → List (CacheEntry Payload Tag)
  | [] => []
  | .add payload :: calls =>
    let tag := F.tagFunc payload
    if F.hashFunc tag = set then .setPayload payload tag :: added F set calls else added F set calls
  | .invalidate tag :: calls =>
    (added F set calls).map fun e => if e.holds tag = true then e.invalidate else e
  | .invalidateAll :: calls => (added F set calls).map .invalidate

/-- No valid entry lies where the `int` of `invalidateAll` does not come. -/
def Countable (c : Cache F) : Prop :=
  ∀ i, 2 ^ 31 ≤ i → i < 2 ^ 64 - 2 ^ 31 → (c.cachedData i).valid = false

def Turns [Inhabited Payload] [OfNat Tag 0] (calls : List (Call Payload Tag)) (c : Cache F) :
    Prop :=
  ∀ set, Rotates c.ways (fun _ => .new) (fun i => c.cachedData (set * c.ways + i))
    (c.counters set) (added F set calls)

variable {c : Cache F} {calls : List (Call Payload Tag)} {tag : Tag} {i : Nat}

theorem invalidate_valid (hv : ((c.invalidate tag).cachedData i).valid = true) :
    (c.invalidate tag).cachedData i = c.cachedData i := by
  rw [cachedData_invalidate] at hv ⊢
  split_ifs at hv ⊢ with h
  · cases hv
  · rfl

omit [DecidableEq Tag] in
theorem invalidateAll_valid (hv : (c.invalidateAll.cachedData i).valid = true) :
    c.invalidateAll.cachedData i = c.cachedData i := by
  unfold invalidateAll at hv ⊢
  dsimp only at hv ⊢
  split_ifs at hv ⊢
  · cases hv
  · rfl

omit [DecidableEq Tag] in
theorem Countable.invalidateAll (hc : c.Countable) (hi : i < c.getSize) :
    c.invalidateAll.cachedData i = (c.cachedData i).invalidate := by
  change (if i < c.getSize ∧ (i < 2 ^ 31 ∨ 2 ^ 64 - 2 ^ 31 ≤ i) then _ else _) = _
  split_ifs with h
  · rfl
  · rw [CacheEntry.invalidate, ← hc i (by omega) (by omega)]

theorem call_sizes (c : Cache F) (op : Call Payload Tag) :
    (c.call op).toCacheSizes = c.toCacheSizes := by
  cases op <;> rfl

theorem call_counters_lt (h : ∀ set, c.counters set < c.ways) (op : Call Payload Tag)
    (set : Nat) : (c.call op).counters set < c.ways := by
  cases op with
  | add payload =>
    by_cases hset : set = F.hashFunc (F.tagFunc payload)
    · rw [hset, call, counters_add (h _)]
      exact Nat.mod_lt _ c.ways_pos
    · rw [call, counters_add_of_ne hset]
      exact h set
  | invalidate tag => exact h set
  | invalidateAll => exact h set

theorem added_home {set : Nat} : ∀ e ∈ added F set calls, F.hashFunc e.tag = set := by
  induction calls with
  | nil => simp [added]
  | cons op calls ih =>
    cases op with
    | add payload =>
      rw [added]
      split_ifs with h
      · exact List.forall_mem_cons.mpr ⟨h, ih⟩
      · exact ih
    | invalidate tag =>
      intro e he
      obtain ⟨e, hmem, rfl⟩ := List.mem_map.mp he
      split_ifs
      · exact ih e hmem
      · exact ih e hmem
    | invalidateAll =>
      intro e he
      obtain ⟨e, hmem, rfl⟩ := List.mem_map.mp he
      exact ih e hmem

section Histories

variable [Inhabited Payload] [OfNat Tag 0] {sizes : CacheSizes F}

theorem History.sizes_eq (h : History sizes calls c) : c.toCacheSizes = sizes := by
  induction h with
  | create => rfl
  | call _ op ih => exact (call_sizes _ op).trans ih

theorem History.counters_lt (h : History sizes calls c) (set : Nat) : c.counters set < c.ways := by
  induction h generalizing set with
  | create => exact sizes.ways_pos
  | call _ op ih =>
    rw [call_sizes]
    exact call_counters_lt ih op set

theorem History.home (h : History sizes calls c) (hv : (c.cachedData i).valid = true) :
    i / c.ways = F.hashFunc (c.cachedData i).tag := by
  induction h with
  | create => cases hv
  | @call calls c h op ih =>
    cases op with
    | add payload =>
      by_cases hi : i = c.counterPos (F.tagFunc payload)
      · subst hi
        rw [Cache.call, cachedData_add_counterPos]
        exact counterPos_div (h.counters_lt _)
      · rw [Cache.call, cachedData_add_of_ne hi] at hv ⊢
        exact ih hv
    | invalidate tag =>
      have he := invalidate_valid hv
      rw [Cache.call, he] at hv ⊢
      exact ih hv
    | invalidateAll =>
      have he := invalidateAll_valid hv
      rw [Cache.call, he] at hv ⊢
      exact ih hv

theorem History.countable (h : History sizes calls c) (hsize : sizes.ways * sizes.sets ≤ 2 ^ 31) :
    c.Countable := by
  intro i hi _
  by_contra hv
  have hset := h.home (Bool.not_eq_false _ ▸ hv)
  have hlt := (c.setPos_le_iff _ i).mpr hset
  have hle := c.setPos_add_le (c.cachedData i).tag
  have hsizes : c.getSize = sizes.ways * sizes.sets := by rw [getSize, h.sizes_eq]
  omega

omit [DecidableEq Tag] [Inhabited Payload] [OfNat Tag 0] in
theorem slot_div (c : Cache F) (set : Nat) {i : Nat} (hi : i < c.ways) :
    (set * c.ways + i) / c.ways = set := by
  rw [Nat.mul_comm, Nat.mul_add_div c.ways_pos, Nat.div_eq_of_lt hi, Nat.add_zero]

theorem Turns.counters_lt (h : Turns calls c) (set : Nat) : c.counters set < c.ways :=
  (h set).row ▸ Nat.mod_lt _ c.ways_pos

theorem Turns.home (h : Turns calls c) (i : Nat) :
    c.cachedData i = .new ∨ F.hashFunc (c.cachedData i).tag = i / c.ways := by
  have hslot := (h (i / c.ways)).slot_cases (Nat.mod_lt i c.ways_pos)
  simp only [Nat.div_add_mod'] at hslot
  obtain hnew | ⟨k, hk, -, -, he⟩ := hslot
  · exact .inl hnew
  · rw [he]
    exact .inr (added_home _ (List.getElem_mem hk))

theorem Turns.holds_home (h : Turns calls c) (hholds : (c.cachedData i).holds tag = true) :
    i / c.ways = F.hashFunc tag := by
  obtain ⟨hv, rfl⟩ := (CacheEntry.holds_iff _ _).mp hholds
  obtain hnew | hset := h.home i
  · rw [hnew] at hv
    cases hv
  · exact hset.symm

theorem turns_create (sizes : CacheSizes F) : Turns [] (create sizes) :=
  fun _ => .nil _ _

theorem Turns.add (h : Turns calls c) (payload : Payload) :
    Turns (.add payload :: calls) (c.add payload) := by
  intro set
  by_cases hset : F.hashFunc (F.tagFunc payload) = set
  · subst hset
    have hlt := h.counters_lt (F.hashFunc (F.tagFunc payload))
    have hslots : (fun i => (c.add payload).cachedData (c.setPos (F.tagFunc payload) + i)) =
        Function.update (fun i => c.cachedData (c.setPos (F.tagFunc payload) + i))
          (c.counters (F.hashFunc (F.tagFunc payload)))
          (.setPayload payload (F.tagFunc payload)) := by
      funext i
      by_cases hi : i = c.counters (F.hashFunc (F.tagFunc payload))
      · rw [hi, Function.update_self, ← counterPos_eq hlt, cachedData_add_counterPos]
      · rw [Function.update_of_ne hi, cachedData_add_of_ne]
        rw [counterPos_eq hlt]
        omega
    rw [added, if_pos rfl, counters_add hlt]
    exact hslots ▸ (h (F.hashFunc (F.tagFunc payload))).push _
  · rw [added, if_neg hset, counters_add_of_ne (Ne.symm hset)]
    refine (h set).congr fun i hi => cachedData_add_of_ne fun heq => hset ?_
    rw [← counterPos_div (h.counters_lt _), ← heq]
    exact slot_div c set hi

theorem Turns.invalidate (h : Turns calls c) (tag : Tag) :
    Turns (.invalidate tag :: calls) (c.invalidate tag) := by
  intro set
  refine ((h set).map (f := fun e => if e.holds tag = true then e.invalidate else e)
    fun _ => rfl).congr fun i hi => ?_
  rw [cachedData_invalidate]
  exact if_congr (and_iff_right_of_imp h.holds_home) rfl rfl

theorem Turns.invalidateAll (h : Turns calls c) (hc : c.Countable) :
    Turns (.invalidateAll :: calls) c.invalidateAll := by
  intro set
  refine ((h set).map (f := CacheEntry.invalidate) fun _ => rfl).congr fun i hi => ?_
  by_cases hin : set * c.ways + i < c.getSize
  · exact hc.invalidateAll hin
  · have hnew : c.cachedData (set * c.ways + i) = .new := by
      refine (h.home _).resolve_right fun hset => hin ?_
      have hlt : (set * c.ways + i) / c.ways < c.sets := hset ▸ c.hash_lt _
      rwa [Nat.div_lt_iff_lt_mul c.ways_pos, Nat.mul_comm c.sets] at hlt
    exact (if_neg fun hlt => hin hlt.1).trans
      (hnew.trans (congrArg CacheEntry.invalidate hnew).symm)

theorem exists_history (sizes : CacheSizes F) (calls : List (Call Payload Tag)) :
    ∃ c, History sizes calls c := by
  induction calls with
  | nil => exact ⟨_, .create⟩
  | cons op calls ih =>
    obtain ⟨c, h⟩ := ih
    exact ⟨_, h.call op⟩

theorem History.turns (h : History sizes calls c)
    (hall : ∀ calls' c', .invalidateAll :: calls' <:+ calls → History sizes calls' c' →
      c'.Countable) : Turns calls c := by
  induction h with
  | create => exact turns_create sizes
  | @call calls c h op ih =>
    have ht := ih fun calls' c' hsuffix => hall calls' c' (hsuffix.trans (List.suffix_cons _ _))
    cases op with
    | add payload => exact ht.add payload
    | invalidate tag => exact ht.invalidate tag
    | invalidateAll => exact ht.invalidateAll (hall calls c (List.suffix_refl _) h)

/-- The entries of a set are the last ones that were added to it, as far as they are valid. -/
theorem Turns.mem_iff (h : Turns calls c) {e : CacheEntry Payload Tag} (hv : e.valid = true)
    (set : Nat) :
    (∃ i, i / c.ways = set ∧ c.cachedData i = e) ↔ e ∈ (added F set calls).take c.ways := by
  have hne : (.new : CacheEntry Payload Tag) ≠ e := by
    rintro rfl
    cases hv
  have hiff := (h set).exists_iff (p := fun x => x = e) fun _ => hne
  rw [exists_eq_right] at hiff
  rw [← hiff]
  constructor
  · rintro ⟨i, rfl, he⟩
    exact ⟨i % c.ways, Nat.mod_lt i c.ways_pos, by rwa [Nat.div_add_mod']⟩
  · rintro ⟨i, hi, he⟩
    exact ⟨_, slot_div c set hi, he⟩

end Histories

end Besm.Util.Cache
