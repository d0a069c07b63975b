import Besm.Lib.Rotation
import Besm.Util.Replacement

namespace Besm.Util.Cache

open Lib.Rotation

variable {Payload Tag : Type} [DecidableEq Tag] {F : CacheFunctions Payload Tag}

variable {c c' : Cache F} {calls : List (Call Payload Tag)} {tag tag' : Tag} {i : Nat}

section Histories

variable [Inhabited Payload] [OfNat Tag 0] {sizes : CacheSizes F}

/-- Of the last ones that were added to a set, each is found if no other has its tag. -/
theorem Turns.retained (h : Turns calls c) {set : Nat}
    (hd : ((((added F set calls).take c.ways).filter fun e => e.valid).map fun e => e.tag).Nodup)
    {e : CacheEntry Payload Tag} (he : e ∈ (added F set calls).take c.ways)
    (hv : e.valid = true) : c.find e.tag = e := by
  obtain ⟨i, rfl, hi⟩ := (h.mem_iff hv set).mpr he
  have hset := (added_home e (List.mem_of_mem_take he)).symm
  obtain ⟨hpos, hhit⟩ := find_hit hset ((CacheEntry.holds_iff _ _).mpr ⟨hi ▸ hv, hi ▸ rfl⟩)
  obtain ⟨hv', htag⟩ := (CacheEntry.holds_iff _ _).mp hhit
  have hfound := (h.mem_iff hv' (i / c.ways)).mp ⟨_, hpos.trans hset.symm, rfl⟩
  exact List.inj_on_of_nodup_map hd (List.mem_filter.mpr ⟨hfound, hv'⟩)
    (List.mem_filter.mpr ⟨he, hv⟩) htag

end Histories

def pages : List (Call TLBEntry RV64Ptr) :=
  [.invalidate 128, .add ⟨256, 5⟩, .add ⟨192, 4⟩, .add ⟨128, 3⟩, .add ⟨64, 2⟩, .add ⟨0, 1⟩]

def bytes : CacheFunctions RV64UChar RV64UChar where
  tagFunc := id
  hashFunc tag := tag.toNat % 2 * 2 ^ 31

end Besm.Util.Cache
