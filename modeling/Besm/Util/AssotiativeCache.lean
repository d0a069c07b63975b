import Mathlib.Algebra.Group.Nat.Defs
import Mathlib.Data.Nat.Basic
import Mathlib.Logic.Function.Basic

namespace Besm.Util

variable {Payload Tag : Type}

structure CacheEntry (Payload Tag : Type) where
  payload : Payload
  valid : Bool
  tag : Tag
  deriving DecidableEq, Repr

namespace CacheEntry

def new [Inhabited Payload] [OfNat Tag 0] : CacheEntry Payload Tag := ⟨default, false, 0⟩

def setPayload (payload : Payload) (tag : Tag) : CacheEntry Payload Tag := ⟨payload, true, tag⟩

def invalidate (e : CacheEntry Payload Tag) : CacheEntry Payload Tag := { e with valid := false }

variable [DecidableEq Tag]

def holds (e : CacheEntry Payload Tag) (tag : Tag) : Bool := e.valid && decide (e.tag = tag)

@[simp] theorem holds_iff (e : CacheEntry Payload Tag) (tag : Tag) :
    e.holds tag = true ↔ e.valid = true ∧ e.tag = tag := by
  simp [holds]

theorem eq_setPayload {e : CacheEntry Payload Tag} {tag : Tag} (h : e.holds tag = true) :
    e = .setPayload e.payload tag := by
  obtain ⟨hv, rfl⟩ := (holds_iff e tag).mp h
  rw [setPayload, ← hv]

end CacheEntry

structure CacheFunctions (Payload Tag : Type) where
  tagFunc : Payload → Tag
  hashFunc : Tag → Nat

/-- The sizes with which a cache can be used: the hash is that of a set, and
the number of the entries does not wrap around. -/
structure CacheSizes (F : CacheFunctions Payload Tag) where
  ways : Nat
  sets : Nat
  ways_pos : 0 < ways
  hash_lt : ∀ tag, F.hashFunc tag < sets
  size_lt : ways * sets < 2 ^ 64

/-- Entries, set after set, and for each set the way that is written next. -/
structure Cache (F : CacheFunctions Payload Tag) extends CacheSizes F where
  counters : Nat → Nat
  cachedData : Nat → CacheEntry Payload Tag

namespace Cache

variable {F : CacheFunctions Payload Tag}

def create [Inhabited Payload] [OfNat Tag 0] (sizes : CacheSizes F) : Cache F :=
  { sizes with
    counters := fun _ => 0
    cachedData := fun _ => .new }

def getSize (c : Cache F) : Nat := c.ways * c.sets

def setPos (c : Cache F) (tag : Tag) : Nat := F.hashFunc tag * c.ways

def counterPos (c : Cache F) (tag : Tag) : Nat :=
  (c.setPos tag + c.counters (F.hashFunc tag)) % 2 ^ 64

/-- The overload that moves the payload has the same effect. -/
def add (c : Cache F) (payload : Payload) : Cache F :=
  let tag := F.tagFunc payload
  let set := F.hashFunc tag
  { c with
    cachedData := Function.update c.cachedData (c.counterPos tag) (.setPayload payload tag)
    counters := Function.update c.counters set ((c.counters set + 1) % 2 ^ 64 % c.ways) }

def incCounter (c : Cache F) (tag : Tag) : Cache F :=
  let set := F.hashFunc tag
  { c with counters := Function.update c.counters set ((c.counters set + 1) % 2 ^ 64) }

/-- The loop counts with an `int`, which goes on at its negative numbers. They are
large indices once they are compared with the size. -/
def invalidateAll (c : Cache F) : Cache F :=
  { c with
    cachedData := fun i =>
      if i < c.getSize ∧ (i < 2 ^ 31 ∨ 2 ^ 64 - 2 ^ 31 ≤ i) then (c.cachedData i).invalidate
      else c.cachedData i }

variable {c : Cache F} {tag : Tag} {i : Nat}

theorem setPos_le_iff (c : Cache F) (tag : Tag) (i : Nat) :
    c.setPos tag ≤ i ∧ i < c.setPos tag + c.ways ↔ i / c.ways = F.hashFunc tag := by
  have hways := c.ways_pos
  rw [setPos, ← Nat.succ_mul, ← Nat.le_div_iff_mul_le hways, ← Nat.div_lt_iff_lt_mul hways]
  omega

theorem setPos_add_le (c : Cache F) (tag : Tag) : c.setPos tag + c.ways ≤ c.getSize := by
  rw [setPos, ← Nat.succ_mul, getSize, Nat.mul_comm c.ways]
  exact Nat.mul_le_mul_right _ (c.hash_lt tag)

theorem ways_lt (c : Cache F) (tag : Tag) : c.ways < 2 ^ 64 :=
  Nat.lt_of_le_of_lt (Nat.le_mul_of_pos_right c.ways (Nat.zero_lt_of_lt (c.hash_lt tag))) c.size_lt

theorem counterPos_eq (h : c.counters (F.hashFunc tag) < c.ways) :
    c.counterPos tag = c.setPos tag + c.counters (F.hashFunc tag) := by
  have hle := c.setPos_add_le tag
  have hlt := c.size_lt
  rw [counterPos, Nat.mod_eq_of_lt]
  exact Nat.lt_of_lt_of_le (Nat.add_lt_add_left h _) (Nat.le_trans hle (Nat.le_of_lt hlt))

theorem counterPos_div (h : c.counters (F.hashFunc tag) < c.ways) :
    c.counterPos tag / c.ways = F.hashFunc tag := by
  rw [← setPos_le_iff, counterPos_eq h]
  exact ⟨Nat.le_add_right _ _, Nat.add_lt_add_left h _⟩

theorem cachedData_add_counterPos (c : Cache F) (payload : Payload) :
    (c.add payload).cachedData (c.counterPos (F.tagFunc payload)) =
      .setPayload payload (F.tagFunc payload) :=
  Function.update_self _ _ _

theorem cachedData_add_of_ne {payload : Payload} (hi : i ≠ c.counterPos (F.tagFunc payload)) :
    (c.add payload).cachedData i = c.cachedData i :=
  Function.update_of_ne hi _ _

/-- The counter of the set moves on by one, to the first way after the last. -/
theorem counters_add {payload : Payload} (h : c.counters (F.hashFunc (F.tagFunc payload)) < c.ways) :
    (c.add payload).counters (F.hashFunc (F.tagFunc payload)) =
      (c.counters (F.hashFunc (F.tagFunc payload)) + 1) % c.ways := by
  refine (Function.update_self _ _ _).trans ?_
  rw [Nat.mod_eq_of_lt (Nat.lt_of_le_of_lt h (c.ways_lt (F.tagFunc payload)))]

theorem counters_add_of_ne {payload : Payload} {set : Nat}
    (hset : set ≠ F.hashFunc (F.tagFunc payload)) :
    (c.add payload).counters set = c.counters set :=
  Function.update_of_ne hset _ _

variable [DecidableEq Tag]

/-- The first way with the tag, or else the one that is written next. -/
def findPos (c : Cache F) (tag : Tag) : Nat :=
  ((List.range' (c.setPos tag) c.ways).find? fun i => (c.cachedData i).holds tag).getD
    (c.counterPos tag)

def find (c : Cache F) (tag : Tag) : CacheEntry Payload Tag := c.cachedData (c.findPos tag)

def invalidate (c : Cache F) (tag : Tag) : Cache F :=
  { c with
    cachedData := fun i =>
      if c.setPos tag ≤ i ∧ i < c.setPos tag + c.ways ∧ (c.cachedData i).holds tag = true then
        (c.cachedData i).invalidate
      else c.cachedData i }

theorem findPos_cases (c : Cache F) (tag : Tag) :
    (c.findPos tag / c.ways = F.hashFunc tag ∧ (c.find tag).holds tag = true) ∨
    (c.findPos tag = c.counterPos tag ∧
      ∀ i, i / c.ways = F.hashFunc tag → (c.cachedData i).holds tag = false) := by
  unfold find findPos
  cases h : (List.range' (c.setPos tag) c.ways).find? fun i => (c.cachedData i).holds tag with
  | none =>
    refine .inr ⟨rfl, fun i hi => ?_⟩
    have hno := List.find?_eq_none.mp h i
      (List.mem_range'_1.mpr ((c.setPos_le_iff tag i).mpr hi))
    exact Bool.eq_false_iff.mpr hno
  | some i =>
    have hmem := List.mem_range'_1.mp (List.mem_of_find?_eq_some h)
    have hholds : (c.cachedData i).holds tag = true := by simpa using List.find?_some h
    exact .inl ⟨(c.setPos_le_iff tag i).mp hmem, hholds⟩

theorem find_hit (hi : i / c.ways = F.hashFunc tag) (h : (c.cachedData i).holds tag = true) :
    c.findPos tag / c.ways = F.hashFunc tag ∧ (c.find tag).holds tag = true := by
  obtain hfound | ⟨-, hno⟩ := c.findPos_cases tag
  · exact hfound
  · exact absurd h (Bool.eq_false_iff.mp (hno i hi))

theorem find_add {payload : Payload} (h : c.counters (F.hashFunc (F.tagFunc payload)) < c.ways) :
    ((c.add payload).find (F.tagFunc payload)).holds (F.tagFunc payload) = true := by
  have hhit : ((c.add payload).cachedData (c.counterPos (F.tagFunc payload))).holds
      (F.tagFunc payload) = true := by
    rw [cachedData_add_counterPos]
    exact (CacheEntry.holds_iff _ _).mpr ⟨rfl, rfl⟩
  have hset : c.counterPos (F.tagFunc payload) / c.ways = F.hashFunc (F.tagFunc payload) :=
    counterPos_div h
  exact (find_hit (c := c.add payload) hset hhit).2

theorem cachedData_invalidate (c : Cache F) (tag : Tag) (i : Nat) :
    (c.invalidate tag).cachedData i =
      if i / c.ways = F.hashFunc tag ∧ (c.cachedData i).holds tag = true then
        (c.cachedData i).invalidate
      else c.cachedData i := by
  rw [invalidate]
  simp only [← and_assoc, setPos_le_iff]

end Cache

end Besm.Util
