import Besm.RiscvTypes
import Besm.Util.Turns

namespace Besm.Util.Cache

variable {Payload Tag : Type} [DecidableEq Tag] {F : CacheFunctions Payload Tag}

def latest (F : CacheFunctions Payload Tag) (tag : Tag) :
    List (Call Payload Tag) → Option Payload
  | [] => none
  | .add payload :: calls => if F.tagFunc payload = tag then some payload else latest F tag calls
  | _ :: calls => latest F tag calls

/-- A payload is found once it is added, and whatever is found with a tag was
added last with it. -/
structure Latest (calls : List (Call Payload Tag)) (c : Cache F) : Prop where
  added : ∀ payload calls', calls = .add payload :: calls' →
    c.find (F.tagFunc payload) = .setPayload payload (F.tagFunc payload)
  hit : ∀ tag, (c.find tag).holds tag = true → latest F tag calls = some (c.find tag).payload
  unique : ∀ i j, i / c.ways = j / c.ways → (c.cachedData i).valid = true →
    (c.cachedData j).valid = true → (c.cachedData i).tag = (c.cachedData j).tag → i = j

/-- No entry has the tag of the payload, save the one that an add will replace. -/
def Replaces (c : Cache F) (payload : Payload) : Prop :=
  ∀ i, i / c.ways = F.hashFunc (F.tagFunc payload) →
    (c.cachedData i).holds (F.tagFunc payload) = true → i = c.counterPos (F.tagFunc payload)

/-- The entries of a cache are in their sets, one for a tag, and were added last. -/
structure Kept (calls : List (Call Payload Tag)) (c : Cache F) : Prop where
  home : ∀ i, (c.cachedData i).valid = true → i / c.ways = F.hashFunc (c.cachedData i).tag
  latest : ∀ i, (c.cachedData i).valid = true →
    latest F (c.cachedData i).tag calls = some (c.cachedData i).payload
  unique : ∀ i j, (c.cachedData i).valid = true → (c.cachedData j).valid = true →
    (c.cachedData i).tag = (c.cachedData j).tag → i = j

variable {c c' : Cache F} {calls calls' : List (Call Payload Tag)} {payload : Payload}

theorem kept_create [Inhabited Payload] [OfNat Tag 0] (sizes : CacheSizes F) :
    Kept [] (create sizes) where
  home _ hv := absurd hv Bool.false_ne_true
  latest _ hv := absurd hv Bool.false_ne_true
  unique _ _ hv := absurd hv Bool.false_ne_true

theorem Kept.fewer (hk : Kept calls c) (hways : c'.ways = c.ways)
    (hsub : ∀ i, (c'.cachedData i).valid = true → c'.cachedData i = c.cachedData i)
    (hlatest : ∀ tag, Cache.latest F tag calls' = Cache.latest F tag calls) : Kept calls' c' where
  home i hv := by
    have he := hsub i hv
    rw [he] at hv ⊢
    rw [hways]
    exact hk.home i hv
  latest i hv := by
    have he := hsub i hv
    rw [he] at hv ⊢
    rw [hlatest]
    exact hk.latest i hv
  unique i j hv hv' htag := by
    have he := hsub i hv
    have he' := hsub j hv'
    rw [he] at hv htag
    rw [he'] at hv' htag
    exact hk.unique i j hv hv' htag

/-- After an add, an entry is the one that was added, or an old one of another tag. -/
theorem Kept.add_cases (hk : Kept calls c) (hr : c.Replaces payload) {i : Nat}
    (hv : ((c.add payload).cachedData i).valid = true) :
    (i = c.counterPos (F.tagFunc payload) ∧
      (c.add payload).cachedData i = .setPayload payload (F.tagFunc payload)) ∨
    ((c.add payload).cachedData i = c.cachedData i ∧ (c.cachedData i).valid = true ∧
      F.tagFunc payload ≠ (c.cachedData i).tag) := by
  by_cases hi : i = c.counterPos (F.tagFunc payload)
  · subst hi
    exact .inl ⟨rfl, c.cachedData_add_counterPos payload⟩
  · have hsame := cachedData_add_of_ne hi
    rw [hsame] at hv
    refine .inr ⟨hsame, hv, fun htag => hi (hr i ?_ ?_)⟩
    · rw [htag]
      exact hk.home i hv
    · rw [CacheEntry.holds_iff]
      exact ⟨hv, htag.symm⟩

theorem Kept.add (hk : Kept calls c) (hr : c.Replaces payload)
    (hlt : ∀ set, c.counters set < c.ways) : Kept (.add payload :: calls) (c.add payload) where
  home i hv := by
    obtain ⟨rfl, he⟩ | ⟨he, hv', -⟩ := hk.add_cases hr hv
    · rw [he]
      exact counterPos_div (hlt _)
    · rw [he]
      exact hk.home i hv'
  latest i hv := by
    obtain ⟨rfl, he⟩ | ⟨he, hv', hne⟩ := hk.add_cases hr hv
    · rw [he]
      exact if_pos rfl
    · rw [he]
      exact (if_neg hne).trans (hk.latest i hv')
  unique i j hv hv' htag := by
    obtain ⟨hi, he⟩ | ⟨he, hi, hne⟩ := hk.add_cases hr hv
    · obtain ⟨hj, -⟩ | ⟨he', -, hne'⟩ := hk.add_cases hr hv'
      · rw [hi, hj]
      · rw [he, he'] at htag
        exact absurd htag hne'
    · obtain ⟨-, he'⟩ | ⟨he', hj, -⟩ := hk.add_cases hr hv'
      · rw [he, he'] at htag
        exact absurd htag.symm hne
      · rw [he, he'] at htag
        exact hk.unique i j hi hj htag

theorem Kept.hit (hk : Kept calls c) {tag : Tag} (h : (c.find tag).holds tag = true) :
    Cache.latest F tag calls = some (c.find tag).payload := by
  obtain ⟨hv, htag⟩ := (CacheEntry.holds_iff _ _).mp h
  have hl := hk.latest _ hv
  change Cache.latest F (c.find tag).tag calls = _ at hl
  rwa [htag] at hl

section Histories

variable [Inhabited Payload] [OfNat Tag 0] {sizes : CacheSizes F}

/-- Adds that replace the entry of their tag keep the entries apart. -/
theorem History.kept (h : History sizes calls c)
    (hall : ∀ payload calls' c', .add payload :: calls' <:+ calls → History sizes calls' c' →
      c'.Replaces payload) : Kept calls c := by
  induction h with
  | create => exact kept_create sizes
  | @call calls c h op ih =>
    have hk := ih fun payload calls' c' hsuffix =>
      hall payload calls' c' (hsuffix.trans (List.suffix_cons _ _))
    cases op with
    | add payload => exact hk.add (hall payload calls c (List.suffix_refl _) h) h.counters_lt
    | invalidate tag => exact hk.fewer rfl (fun i hv => invalidate_valid hv) fun _ => rfl
    | invalidateAll => exact hk.fewer rfl (fun i hv => invalidateAll_valid hv) fun _ => rfl

theorem History.latest (h : History sizes calls c) (hk : Kept calls c) : Latest calls c where
  added payload calls' hcalls := by
    subst hcalls
    obtain - | ⟨h', -⟩ := h
    have hfind := find_add (h'.counters_lt (F.hashFunc (F.tagFunc payload)))
    have hpayload := (if_pos rfl).symm.trans (hk.hit hfind)
    have hentry := CacheEntry.eq_setPayload hfind
    exact hentry.trans (congrArg (fun p => CacheEntry.setPayload p (F.tagFunc payload))
      (Option.some.inj hpayload).symm)
  hit _ hhit := hk.hit hhit
  unique i j _ := hk.unique i j

/-- After an add that does not replace the entry of its tag there are two of them. -/
theorem History.replaces (h : History sizes calls c)
    (hl : Latest (.add payload :: calls) (c.add payload)) : c.Replaces payload := by
  intro i hset hhit
  by_contra hi
  have hsame := cachedData_add_of_ne hi
  have hnew := c.cachedData_add_counterPos payload
  obtain ⟨hv, htag⟩ := (CacheEntry.holds_iff _ _).mp hhit
  refine hi (hl.unique _ _ ?_ ?_ ?_ ?_)
  · exact hset.trans (counterPos_div (h.counters_lt _)).symm
  · rw [hsame, hv]
  · rw [hnew]
    rfl
  · rw [hsame, hnew, htag]
    rfl

/-- The counter of a set is at the oldest of its last entries. -/
theorem Turns.replaces_iff (h : Turns calls c) (payload : Payload) :
    c.Replaces payload ↔
      ∀ e ∈ (added F (F.hashFunc (F.tagFunc payload)) calls).take (c.ways - 1),
        e.holds (F.tagFunc payload) = false := by
  have hpos := counterPos_eq (h.counters_lt (F.hashFunc (F.tagFunc payload)))
  have hiff := (h (F.hashFunc (F.tagFunc payload))).exists_ne_iff
    (p := fun e => e.holds (F.tagFunc payload) = true) fun _ => Bool.false_ne_true
  rw [← not_iff_not]
  simp only [Replaces, not_forall, Bool.not_eq_false, exists_prop]
  rw [← hiff, hpos]
  constructor
  · rintro ⟨i, hset, hholds, hne⟩
    have hi : F.hashFunc (F.tagFunc payload) * c.ways + i % c.ways = i := by
      rw [← hset, Nat.div_add_mod']
    refine ⟨i % c.ways, Nat.mod_lt _ c.ways_pos, fun hrow => hne ?_, hi.symm ▸ hholds⟩
    rw [setPos, ← hrow, hi]
  · rintro ⟨i, hi, hne, hholds⟩
    exact ⟨_, slot_div c _ hi, hholds, fun heq => hne (Nat.add_left_cancel heq)⟩

/-- The cache gives what was added last, in every state that calls come
through, exactly if every add replaces the entry of its tag: none of those that
were added to the set since its counter was last there has the tag. -/
theorem latest_iff (sizes : CacheSizes F) (calls : List (Call Payload Tag)) :
    ((∀ calls' c, calls' <:+ calls → History sizes calls' c → Latest calls' c) ↔
      ∀ payload calls' c, .add payload :: calls' <:+ calls → History sizes calls' c →
        c.Replaces payload) ∧
    (sizes.ways * sizes.sets ≤ 2 ^ 31 →
      ((∀ calls' c, calls' <:+ calls → History sizes calls' c → Latest calls' c) ↔
        ∀ payload calls', .add payload :: calls' <:+ calls →
          ∀ e ∈ (added F (F.hashFunc (F.tagFunc payload)) calls').take (sizes.ways - 1),
            e.holds (F.tagFunc payload) = false)) := by
  have hiff : (∀ calls' c, calls' <:+ calls → History sizes calls' c → Latest calls' c) ↔
      ∀ payload calls' c, .add payload :: calls' <:+ calls → History sizes calls' c →
        c.Replaces payload := by
    constructor
    · intro hall payload calls' c hsuffix h
      exact h.replaces (hall _ _ hsuffix (h.call _))
    · intro hall calls' c hsuffix h
      refine h.latest (h.kept fun payload calls'' c' hsuffix' => ?_)
      exact hall payload calls'' c' (hsuffix'.trans hsuffix)
  refine ⟨hiff, fun hsize => hiff.trans ⟨?_, ?_⟩⟩
  · intro hall payload calls' hsuffix
    obtain ⟨c, h⟩ := exists_history sizes calls'
    have ht := h.turns fun _ _ _ h' => h'.countable hsize
    rw [← h.sizes_eq]
    exact (ht.replaces_iff payload).mp (hall payload calls' c hsuffix h)
  · intro hall payload calls' c hsuffix h
    have ht := h.turns fun _ _ _ h' => h'.countable hsize
    refine (ht.replaces_iff payload).mpr ?_
    rw [h.sizes_eq]
    exact hall payload calls' hsuffix

end Histories

structure TLBEntry where
  virtualPageId : RV64Size
  physicalPageId : RV64Size
  deriving DecidableEq, Inhabited

def tlbFunctions : CacheFunctions TLBEntry RV64Ptr where
  tagFunc := TLBEntry.virtualPageId
  hashFunc tag := (tag &&& 63).toNat

def tlb : CacheSizes tlbFunctions where
  ways := 4
  sets := 64
  ways_pos := by decide
  hash_lt tag := by
    have hle : (tag &&& 63).toNat ≤ 63 := by
      rw [BitVec.toNat_and]
      exact Nat.and_le_right
    exact Nat.lt_succ_of_le hle
  size_lt := by decide

/-- A page is mapped, and mapped again to another one. -/
theorem stale_found : ∃ c, History tlb [.add ⟨0, 2⟩, .add ⟨0, 1⟩] c ∧
    c.find 0 = .setPayload ⟨0, 1⟩ 0 ∧ ¬Latest [.add ⟨0, 2⟩, .add ⟨0, 1⟩] c := by
  refine ⟨_, .call (.call .create _) _, by decide, fun h => ?_⟩
  exact absurd (h.added ⟨0, 2⟩ _ rfl) (by decide)

end Besm.Util.Cache
