import Besm.Lib.Transition
import Besm.Util.Replacement

namespace Besm.Util.Cache

open Lib.Transition

variable {Payload Tag : Type} [DecidableEq Tag] {F : CacheFunctions Payload Tag}

/-- The public operations. A search leaves the cache as it is. -/
inductive Operation (Payload Tag : Type)
  | call (op : Call Payload Tag)
  | find (tag : Tag)
  | incCounter (tag : Tag)

def operate (c : Cache F) : Operation Payload Tag → Cache F
  | .call op => c.call op
  | .find _ => c
  | .incCounter tag => c.incCounter tag

def Session [Inhabited Payload] [OfNat Tag 0] (sizes : CacheSizes F) :
    List (Operation Payload Tag) → Cache F → Prop :=
  Trace (fun c op c' => c.operate op = c') (create sizes)

def InSet (c : Cache F) (tag : Tag) (i : Nat) : Prop :=
  c.setPos tag ≤ i ∧ i < c.setPos tag + c.ways ∧ i < c.getSize

/-- What is written or found for a tag is in the set of the tag. -/
structure Inside (c : Cache F) : Prop where
  counter : ∀ set, c.counters set < c.ways
  written : ∀ payload, c.InSet (F.tagFunc payload) (c.counterPos (F.tagFunc payload))
  found : ∀ tag, c.InSet tag (c.findPos tag)
  others : ∀ payload i, i / c.ways ≠ F.hashFunc (F.tagFunc payload) →
    (c.add payload).cachedData i = c.cachedData i

variable {c c' : Cache F} {tag : Tag} {i : Nat}

omit [DecidableEq Tag] in
theorem inSet_iff : c.InSet tag i ↔ i / c.ways = F.hashFunc tag := by
  have hle := c.setPos_add_le tag
  rw [← setPos_le_iff, InSet]
  omega

theorem findPos_div (h : c.counters (F.hashFunc tag) < c.ways) :
    c.findPos tag / c.ways = F.hashFunc tag := by
  obtain ⟨hset, -⟩ | ⟨hpos, -⟩ := c.findPos_cases tag
  · exact hset
  · rw [hpos, counterPos_div h]

theorem inside_iff_counters : Inside c ↔ ∀ set, c.counters set < c.ways := by
  refine ⟨Inside.counter, fun h => ⟨h, fun payload => ?_, fun tag => ?_, fun payload i hi => ?_⟩⟩
  · exact inSet_iff.mpr (counterPos_div (h _))
  · exact inSet_iff.mpr (findPos_div (h _))
  · refine cachedData_add_of_ne fun heq => hi ?_
    rw [heq, counterPos_div (h _)]

omit [DecidableEq Tag] in
theorem incCounter_counters_lt_iff (h : ∀ set, c.counters set < c.ways) :
    (∀ set, (c.incCounter tag).counters set < c.ways) ↔
      c.counters (F.hashFunc tag) + 1 < c.ways := by
  have hnext : (c.incCounter tag).counters (F.hashFunc tag) = c.counters (F.hashFunc tag) + 1 := by
    refine (Function.update_self _ _ _).trans (Nat.mod_eq_of_lt ?_)
    exact Nat.lt_of_le_of_lt (h (F.hashFunc tag)) (c.ways_lt tag)
  constructor
  · intro hall
    rw [← hnext]
    exact hall (F.hashFunc tag)
  · intro hlt set
    by_cases hset : set = F.hashFunc tag
    · rw [hset, hnext]
      exact hlt
    · exact lt_of_eq_of_lt (Function.update_of_ne hset _ _) (h set)

/-- An operation keeps the counters below the number of ways, unless it counts
one of them up to that number. -/
theorem operate_inside_iff {op : Operation Payload Tag} (h : Inside c) :
    Inside (c.operate op) ↔
      ∀ tag, op = .incCounter tag → c.counters (F.hashFunc tag) + 1 < c.ways := by
  cases op with
  | call op =>
    have h' : Inside (c.call op) := by
      refine inside_iff_counters.mpr fun set => ?_
      rw [call_sizes]
      exact call_counters_lt h.counter op set
    exact iff_of_true h' fun tag heq => by cases heq
  | find tag => exact iff_of_true h fun tag heq => by cases heq
  | incCounter tag =>
    refine inside_iff_counters.trans
      ((incCounter_counters_lt_iff h.counter).trans ⟨?_, fun hall => hall tag rfl⟩)
    rintro hlt tag' heq
    cases heq
    exact hlt

def countersAfter (F : CacheFunctions Payload Tag) (ways : Nat) :
    List (Operation Payload Tag) → Nat → Nat
  | [] => fun _ => 0
  | .call (.add payload) :: ops =>
    let set := F.hashFunc (F.tagFunc payload)
    Function.update (countersAfter F ways ops) set
      ((countersAfter F ways ops set + 1) % 2 ^ 64 % ways)
  | .incCounter tag :: ops =>
    let set := F.hashFunc tag
    Function.update (countersAfter F ways ops) set ((countersAfter F ways ops set + 1) % 2 ^ 64)
  | _ :: ops => countersAfter F ways ops

section Sessions

variable [Inhabited Payload] [OfNat Tag 0]

theorem inside_create (sizes : CacheSizes F) : Inside (create sizes) :=
  inside_iff_counters.mpr fun _ => sizes.ways_pos

theorem session_counters {sizes : CacheSizes F} {ops : List (Operation Payload Tag)}
    (h : Session sizes ops c) :
    c.ways = sizes.ways ∧ c.counters = countersAfter F sizes.ways ops := by
  induction h with
  | start => exact ⟨rfl, rfl⟩
  | @step ops c c' op h hc ih =>
    obtain ⟨hways, hcount⟩ := ih
    subst hc
    cases op with
    | call op =>
      cases op with
      | add payload =>
        refine ⟨hways, ?_⟩
        rw [countersAfter, ← hcount, ← hways]
        rfl
      | _ => exact ⟨hways, hcount⟩
    | find tag => exact ⟨hways, hcount⟩
    | incCounter tag =>
      refine ⟨hways, ?_⟩
      rw [countersAfter, ← hcount]
      rfl

theorem exists_session (sizes : CacheSizes F) (ops : List (Operation Payload Tag)) :
    ∃ c, Session sizes ops c := by
  induction ops with
  | nil => exact ⟨_, .start⟩
  | cons op ops ih =>
    obtain ⟨c, h⟩ := ih
    exact ⟨_, .step h rfl⟩

/-- The counters stay in their sets, in every state that operations come
through, exactly if none of them is counted up at the last way, as can be told
from the operations alone. -/
theorem inside_iff (sizes : CacheSizes F) (ops : List (Operation Payload Tag)) :
    ((∀ ops' c, ops' <:+ ops → Session sizes ops' c → Inside c) ↔
      ∀ tag ops' c, .incCounter tag :: ops' <:+ ops → Session sizes ops' c →
        c.counters (F.hashFunc tag) + 1 < c.ways) ∧
    ((∀ ops' c, ops' <:+ ops → Session sizes ops' c → Inside c) ↔
      ∀ tag ops', .incCounter tag :: ops' <:+ ops →
        countersAfter F sizes.ways ops' (F.hashFunc tag) + 1 < sizes.ways) := by
  have hiff := Trace.suffix_iff (inside_create sizes)
    (fun c op c' h (hc : c.operate op = c') => hc ▸ operate_inside_iff h) ops
  have hstate : (∀ ops' c, ops' <:+ ops → Session sizes ops' c → Inside c) ↔
      ∀ tag ops' c, .incCounter tag :: ops' <:+ ops → Session sizes ops' c →
        c.counters (F.hashFunc tag) + 1 < c.ways := by
    refine hiff.trans ⟨?_, ?_⟩
    · intro hall tag ops' c hsuffix h
      exact hall _ ops' c _ hsuffix h rfl tag rfl
    · rintro hall op ops' c c' hsuffix h - tag rfl
      exact hall tag ops' c hsuffix h
  refine ⟨hstate, hstate.trans ⟨fun hall tag ops' hsuffix => ?_, ?_⟩⟩
  · obtain ⟨c, h⟩ := exists_session sizes ops'
    obtain ⟨hways, hcount⟩ := session_counters h
    rw [← hcount, ← hways]
    exact hall tag ops' c hsuffix h
  · intro hall tag ops' c hsuffix h
    obtain ⟨hways, hcount⟩ := session_counters h
    rw [hcount, hways]
    exact hall tag ops' hsuffix

end Sessions

/-- The counter of one set is counted past its ways, and an add to that set
replaces the entry of the next one. -/
theorem other_set_replaced : ∃ c c', Session tlb [.incCounter 0, .incCounter 0, .incCounter 0,
      .incCounter 0, .call (.add ⟨1, 5⟩)] c ∧ ¬Inside c ∧
    c.operate (.call (.add ⟨0, 7⟩)) = c' ∧
    (c.find 1).holds 1 = true ∧ (c'.find 1).holds 1 = false := by
  refine ⟨_, _, .step (.step (.step (.step (.step .start rfl) rfl) rfl) rfl) rfl, fun h => ?_, rfl,
    by decide, by decide⟩
  exact absurd (h.counter 0) (by decide)

end Besm.Util.Cache
