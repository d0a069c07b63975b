import Mathlib.Data.List.Nodup
import Mathlib.Data.List.TakeWhile
import Mathlib.Logic.Function.Basic

namespace Besm.Lib.Rotation

variable {α β : Type} {n row : Nat} {init slots : Nat → α} {hist : List α}

/-- Slots that are written in turns, from the first one on; `hist` is what was
written, the newest first. -/
structure Rotates (n : Nat) (init slots : Nat → α) (row : Nat) (hist : List α) : Prop where
  row : row = hist.length % n
  recent : ∀ k (hk : k < hist.length), k < n → slots ((hist.length - 1 - k) % n) = hist[k]
  unfilled : ∀ i, hist.length ≤ i → i < n → slots i = init i

theorem Rotates.nil (n : Nat) (init : Nat → α) : Rotates n init init 0 [] where
  row := (Nat.zero_mod n).symm
  recent k hk := absurd hk (Nat.not_lt_zero k)
  unfilled _ _ _ := rfl

theorem Rotates.congr (h : Rotates n init slots row hist) {t : Nat → α}
    (ht : ∀ i < n, t i = slots i) : Rotates n init t row hist where
  row := h.row
  recent k hk hn := by rw [ht _ (Nat.mod_lt _ (by omega)), h.recent k hk hn]
  unfilled i hi hn := by rw [ht i hn, h.unfilled i hi hn]

theorem Rotates.map (h : Rotates n init slots row hist) {f : α → α} (hf : ∀ i, f (init i) = init i) :
    Rotates n init (fun i => f (slots i)) row (hist.map f) where
  row := by rw [h.row, List.length_map]
  recent k hk hn := by
    rw [List.length_map] at hk ⊢
    rw [h.recent k hk hn, List.getElem_map]
  unfilled i hi hn := by
    rw [List.length_map] at hi
    rw [h.unfilled i hi hn, hf]

theorem add_mod_ne {x d : Nat} (h0 : 0 < d) (hn : d < n) : (x + d) % n ≠ x % n := by
  intro he
  have hd : d % n = 0 := Nat.sub_mod_eq_zero_of_mod_eq he ▸ by rw [Nat.add_sub_cancel_left]
  rw [Nat.mod_eq_of_lt hn] at hd
  omega

/-- What is written next takes the place of the oldest. -/
theorem Rotates.push (h : Rotates n init slots row hist) (a : α) :
    Rotates n init (Function.update slots row a) ((row + 1) % n) (a :: hist) where
  row := by rw [h.row, Nat.mod_add_mod, List.length_cons]
  recent k hk hlt := by
    rw [List.length_cons] at hk ⊢
    rw [Nat.add_sub_cancel, h.row]
    cases k with
    | zero => exact Function.update_self _ _ _
    | succ k =>
      have hback : hist.length = hist.length - (k + 1) + (k + 1) := by omega
      have hne : (hist.length - (k + 1)) % n ≠ hist.length % n := by
        conv => rhs; rw [hback]
        exact (add_mod_ne (Nat.succ_pos k) hlt).symm
      rw [Function.update_of_ne hne, Nat.sub_add_eq, Nat.sub_right_comm, List.getElem_cons_succ]
      exact h.recent k (by omega) (by omega)
  unfilled i hi hlt := by
    rw [List.length_cons] at hi
    rw [h.row, Nat.mod_eq_of_lt (by omega), Function.update_of_ne (by omega)]
    exact h.unfilled i (by omega) hlt

/-- A slot was never written, or holds what was written to it last. -/
theorem Rotates.slot_cases (h : Rotates n init slots row hist) {i : Nat} (hi : i < n) :
    slots i = init i ∨
      ∃ k, ∃ hk : k < hist.length, k < n ∧ i = (hist.length - 1 - k) % n ∧ slots i = hist[k] := by
  by_cases hlen : hist.length ≤ i
  · exact .inl (h.unfilled i hlen hi)
  · right
    have hdiv := Nat.mod_add_div (hist.length - 1 - i) n
    have hmod := Nat.mod_lt (hist.length - 1 - i) (by omega : n > 0)
    have hslot : (hist.length - 1 - (hist.length - 1 - i) % n) % n = i := by
      have hsum : hist.length - 1 - (hist.length - 1 - i) % n =
          i + n * ((hist.length - 1 - i) / n) := by omega
      rw [hsum, Nat.add_mul_mod_self_left, Nat.mod_eq_of_lt hi]
    refine ⟨(hist.length - 1 - i) % n, by omega, hmod, hslot.symm, ?_⟩
    rw [← h.recent _ (by omega) hmod, hslot]

/-- A property that no unwritten slot has is had by a slot exactly if it is
among the last `n` that were written. -/
theorem Rotates.exists_iff (h : Rotates n init slots row hist) {p : α → Prop}
    (hinit : ∀ i, ¬p (init i)) : (∃ i < n, p (slots i)) ↔ ∃ a ∈ hist.take n, p a := by
  constructor
  · rintro ⟨i, hi, hp⟩
    obtain he | ⟨k, hk, hkn, -, he⟩ := h.slot_cases hi
    · exact absurd (he ▸ hp) (hinit i)
    · exact ⟨hist[k], List.mem_take_iff_getElem.mpr ⟨k, by omega, rfl⟩, he ▸ hp⟩
  · rintro ⟨a, ha, hp⟩
    obtain ⟨k, hk, rfl⟩ := List.mem_take_iff_getElem.mp ha
    refine ⟨(hist.length - 1 - k) % n, Nat.mod_lt _ (by omega), ?_⟩
    rwa [h.recent k (by omega) (by omega)]

/-- The slot that is written next holds the oldest, and the others what was
written after it. -/
theorem Rotates.exists_ne_iff (h : Rotates n init slots row hist) {p : α → Prop}
    (hinit : ∀ i, ¬p (init i)) :
    (∃ i < n, i ≠ row ∧ p (slots i)) ↔ ∃ a ∈ hist.take (n - 1), p a := by
  constructor
  · rintro ⟨i, hi, hne, hp⟩
    obtain he | ⟨k, hk, hkn, rfl, he⟩ := h.slot_cases hi
    · exact absurd (he ▸ hp) (hinit i)
    · have hlast : k ≠ n - 1 := by
        rintro rfl
        have hsub : hist.length - 1 - (n - 1) = hist.length - n := by omega
        exact hne (h.row ▸ hsub ▸ (Nat.mod_eq_sub_mod (by omega)).symm)
      exact ⟨hist[k], List.mem_take_iff_getElem.mpr ⟨k, by omega, rfl⟩, he ▸ hp⟩
  · rintro ⟨a, ha, hp⟩
    obtain ⟨k, hk, rfl⟩ := List.mem_take_iff_getElem.mp ha
    refine ⟨(hist.length - 1 - k) % n, Nat.mod_lt _ (by omega), ?_, ?_⟩
    · have hback : hist.length = hist.length - 1 - k + (k + 1) := by omega
      have hne := add_mod_ne (x := hist.length - 1 - k) (n := n) (Nat.succ_pos k) (by omega)
      rw [← hback] at hne
      exact h.row ▸ hne.symm
    · rwa [h.recent k (by omega) (by omega)]

variable {key : α → β} {x : β}

/-- No two of the last `n` that were written have the same key. -/
def Distinct (n : Nat) (key : α → β) (hist : List α) : Prop := ((hist.take n).map key).Nodup

theorem Distinct.push (h : Distinct n key hist) (hn : 0 < n) {a : α}
    (ha : ∀ b ∈ hist.take n, key b ≠ key a) : Distinct n key (a :: hist) := by
  obtain ⟨m, rfl⟩ : ∃ m, n = m + 1 := ⟨n - 1, by omega⟩
  have hsub : ((hist.take m).map key).Sublist ((hist.take (m + 1)).map key) :=
    ((List.take_prefix_take_left (Nat.le_succ m)).sublist).map key
  unfold Distinct
  rw [List.take_succ_cons, List.map_cons, List.nodup_cons]
  refine ⟨fun hmem => ?_, hsub.nodup h⟩
  obtain ⟨b, hb, he⟩ := List.mem_map.mp (hsub.subset hmem)
  exact ha b hb he

theorem Distinct.getElem_inj (h : Distinct n key hist) {k k' : Nat} (hk : k < hist.length)
    (hk' : k' < hist.length) (hn : k < n) (hn' : k' < n) (he : key hist[k] = key hist[k']) :
    k = k' := by
  have hlen : ∀ j, j < hist.length → j < n → j < ((hist.take n).map key).length := by
    intro j hj hjn
    rw [List.length_map, List.length_take]
    omega
  have hw := hlen k hk hn
  have hw' := hlen k' hk' hn'
  have hget : ((hist.take n).map key)[k] = ((hist.take n).map key)[k'] := by
    simpa using he
  exact (List.Nodup.getElem_inj_iff h).mp hget

theorem Rotates.slot_unique (h : Rotates n init slots row hist) (hd : Distinct n key hist)
    (hinit : ∀ i, key (init i) ≠ x) {i j : Nat} (hi : i < n) (hj : j < n)
    (hx : key (slots i) = x) (hy : key (slots j) = x) : i = j := by
  obtain he | ⟨k, hk, hkn, rfl, he⟩ := h.slot_cases hi
  · exact absurd (he ▸ hx) (hinit i)
  · obtain he' | ⟨k', hk', hkn', rfl, he'⟩ := h.slot_cases hj
    · exact absurd (he' ▸ hy) (hinit _)
    · rw [he] at hx
      rw [he'] at hy
      rw [hd.getElem_inj hk hk' hkn hkn' (hx.trans hy.symm)]

theorem Rotates.find_slot [DecidableEq β] (h : Rotates n init slots row hist) (hd : Distinct n key hist)
    (hinit : ∀ i, key (init i) ≠ x) {i : Nat} (hi : i < n) (hx : key (slots i) = x) :
    hist.find? (fun a => key a = x) = some (slots i) := by
  obtain he | ⟨k, hk, hkn, -, he⟩ := h.slot_cases hi
  · exact absurd (he ▸ hx) (hinit i)
  · rw [he] at hx ⊢
    rw [List.find?_eq_some_iff_getElem]
    refine ⟨decide_eq_true hx, k, hk, rfl, fun j hj => ?_⟩
    have hne : key hist[j] ≠ x := fun hj' => by
      have := hd.getElem_inj (by omega) hk (by omega) hkn (hj'.trans hx.symm)
      omega
    simp [hne]

/-- A key is among the last `n` exactly if it was written, and fewer than `n`
were written since. -/
theorem exists_take_iff [DecidableEq β] (hist : List α) (key : α → β) (x : β) :
    (∃ a ∈ hist.take n, key a = x) ↔
      (∃ a ∈ hist, key a = x) ∧ (hist.takeWhile fun a => key a ≠ x).length < n := by
  induction hist generalizing n with
  | nil => simp
  | cons a hist ih =>
    by_cases ha : key a = x
    · cases n with
      | zero => simp
      | succ n => simp [ha]
    · cases n with
      | zero => simp
      | succ n => simp [ha, ih]

end Besm.Lib.Rotation
