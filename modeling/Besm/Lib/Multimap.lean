import Mathlib.Data.List.Sort

namespace Besm.Lib

/-- Entries in the order of their keys, those of one key in the order they were inserted. -/
structure Multimap (κ ν : Type) [LinearOrder κ] where
  entries : List (κ × ν)
  sorted : entries.Pairwise fun e e' => e.1 ≤ e'.1

namespace Multimap

variable {κ ν : Type} [LinearOrder κ] {entries : List (κ × ν)} {k : κ}

def empty : Multimap κ ν := ⟨[], .nil⟩

/-- The place of a new entry is before the first that has a greater key. -/
def place (e : κ × ν) (entries : List (κ × ν)) : List (κ × ν) :=
  entries.orderedInsert (fun e e' => e.1 < e'.1) e

theorem sorted_place (h : entries.Pairwise fun e e' => e.1 ≤ e'.1) (e : κ × ν) :
    (place e entries).Pairwise fun e e' => e.1 ≤ e'.1 := by
  induction entries with
  | nil => exact List.pairwise_singleton _ _
  | cons e' entries ih =>
    obtain ⟨hle, hrest⟩ := List.pairwise_cons.mp h
    rw [place, List.orderedInsert_cons]
    split_ifs with hlt
    · refine List.pairwise_cons.mpr ⟨?_, h⟩
      rw [List.forall_mem_cons]
      exact ⟨hlt.le, fun d hd => hlt.le.trans (hle d hd)⟩
    · refine List.pairwise_cons.mpr ⟨fun d hd => ?_, ih hrest⟩
      obtain rfl | hd := (List.mem_orderedInsert _).mp hd
      · exact not_lt.mp hlt
      · exact hle d hd

def insert (m : Multimap κ ν) (e : κ × ν) : Multimap κ ν :=
  ⟨place e m.entries, sorted_place m.sorted e⟩

def equalRange (m : Multimap κ ν) (k : κ) : List ν :=
  ((m.entries.dropWhile fun e => e.1 < k).takeWhile fun e => e.1 ≤ k).map Prod.snd

theorem takeWhile_eq_filter (h : entries.Pairwise fun e e' => e.1 ≤ e'.1)
    (hk : ∀ e ∈ entries, k ≤ e.1) :
    entries.takeWhile (fun e => e.1 ≤ k) = entries.filter fun e => e.1 = k := by
  induction entries with
  | nil => rfl
  | cons e entries ih =>
    obtain ⟨hle, hrest⟩ := List.pairwise_cons.mp h
    obtain ⟨hek, hks⟩ := List.forall_mem_cons.mp hk
    by_cases heq : e.1 = k
    · rw [List.takeWhile_cons_of_pos (by simpa using heq.le),
        List.filter_cons_of_pos (by simpa using heq), ih hrest hks]
    · have hlt : k < e.1 := lt_of_le_of_ne hek (Ne.symm heq)
      rw [List.takeWhile_cons_of_neg (by simpa using hlt), List.filter_eq_nil_iff.mpr]
      rw [List.forall_mem_cons]
      refine ⟨by simpa using heq, fun d hd => ?_⟩
      simpa using (hlt.trans_le (hle d hd)).ne'

theorem equalRange_eq (m : Multimap κ ν) (k : κ) :
    m.equalRange k = (m.entries.filter fun e => e.1 = k).map Prod.snd := by
  obtain ⟨entries, h⟩ := m
  refine congrArg (List.map Prod.snd) ?_
  induction entries with
  | nil => rfl
  | cons e entries ih =>
    obtain ⟨hle, hrest⟩ := List.pairwise_cons.mp h
    by_cases hlt : e.1 < k
    · rw [List.dropWhile_cons_of_pos (by simpa using hlt), ih hrest,
        List.filter_cons_of_neg (by simpa using hlt.ne)]
    · rw [List.dropWhile_cons_of_neg (by simpa using hlt)]
      have hke := not_lt.mp hlt
      exact takeWhile_eq_filter h (List.forall_mem_cons.mpr ⟨hke, fun d hd => hke.trans (hle d hd)⟩)

theorem filter_place (h : entries.Pairwise fun e e' => e.1 ≤ e'.1) (e : κ × ν) (k : κ) :
    (place e entries).filter (fun d => d.1 = k) =
      entries.filter (fun d => d.1 = k) ++ [e].filter fun d => d.1 = k := by
  induction entries with
  | nil => rfl
  | cons e' entries ih =>
    obtain ⟨hle, hrest⟩ := List.pairwise_cons.mp h
    rw [place, List.orderedInsert_cons]
    split_ifs with hlt
    · by_cases hek : e.1 = k
      · have hnil : (e' :: entries).filter (fun d => d.1 = k) = [] := by
          rw [List.filter_eq_nil_iff, List.forall_mem_cons]
          refine ⟨by simpa using (hek ▸ hlt).ne', fun d hd => ?_⟩
          simpa using (hek ▸ hlt.trans_le (hle d hd)).ne'
        rw [List.filter_cons_of_pos (by simpa using hek), hnil,
          List.filter_cons_of_pos (by simpa using hek)]
        rfl
      · rw [List.filter_cons_of_neg (by simpa using hek),
          List.filter_cons_of_neg (l := []) (by simpa using hek)]
        simp
    · have ih' := ih hrest
      rw [place] at ih'
      rw [List.filter_cons, List.filter_cons (x := e'), ih']
      split_ifs <;> rfl

/-- A new value comes after those that its key has already. -/
theorem equalRange_insert (m : Multimap κ ν) (e : κ × ν) (k : κ) :
    (m.insert e).equalRange k = m.equalRange k ++ ([e].filter fun d => d.1 = k).map Prod.snd := by
  rw [equalRange_eq, equalRange_eq, ← List.map_append]
  exact congrArg (List.map Prod.snd) (filter_place m.sorted e k)

def insertAll (m : Multimap κ ν) (entries : List (κ × ν)) : Multimap κ ν := entries.foldl insert m

theorem equalRange_insertAll (m : Multimap κ ν) (entries : List (κ × ν)) (k : κ) :
    (m.insertAll entries).equalRange k =
      m.equalRange k ++ (entries.filter fun d => d.1 = k).map Prod.snd := by
  induction entries generalizing m with
  | nil => exact (List.append_nil _).symm
  | cons e entries ih =>
    have hcons : (e :: entries).filter (fun d => d.1 = k) =
        [e].filter (fun d => d.1 = k) ++ entries.filter fun d => d.1 = k := List.filter_append [e] _
    rw [hcons, List.map_append, ← List.append_assoc, ← equalRange_insert]
    exact ih (m.insert e)

end Multimap

end Besm.Lib
