import Mathlib.Data.Nat.Basic

namespace Besm.Lib.LittleEndian

/-- The word whose bytes are `b 0`, `b 1`, and so on, least significant first. -/
def word : (n : Nat) → (Nat → BitVec 8) → BitVec (8 * n)
  | 0, _ => 0#0
  | n + 1, b => word n (fun i => b (i + 1)) ++ b 0

def byte {n : Nat} (v : BitVec (8 * n)) (i : Nat) : BitVec 8 := v.extractLsb' (8 * i) 8

theorem word_congr {n : Nat} {b c : Nat → BitVec 8} (h : ∀ i < n, b i = c i) :
    word n b = word n c := by
  induction n generalizing b c with
  | zero => rfl
  | succ n ih =>
    have hw : word n (fun i => b (i + 1)) = word n (fun i => c (i + 1)) :=
      ih fun i hi => h (i + 1) (by omega)
    simp only [word, hw, h 0 (by omega)]

theorem word_zero (n : Nat) : word n (fun _ => 0#8) = 0 := by
  induction n with
  | zero => rfl
  | succ n ih =>
    rw [word, ih]
    exact BitVec.zero_append_zero

theorem getLsbD_word (n : Nat) (b : Nat → BitVec 8) (i : Nat) :
    (word n b).getLsbD i = (decide (i < 8 * n) && (b (i / 8)).getLsbD (i % 8)) := by
  induction n generalizing b i with
  | zero => simp [word]
  | succ n ih =>
    change (word n (fun i => b (i + 1)) ++ b 0).getLsbD i = _
    rw [BitVec.getLsbD_append]
    by_cases hi : i < 8
    · have hd : i / 8 = 0 := by omega
      have hm : i % 8 = i := by omega
      have hn : i < 8 * (n + 1) := by omega
      simp [hi, hd, hm, hn]
    · have hd : (i - 8) / 8 + 1 = i / 8 := by omega
      have hm : (i - 8) % 8 = i % 8 := by omega
      have hn : i - 8 < 8 * n ↔ i < 8 * (n + 1) := by omega
      simp only [hi, if_false, ih, hd, hm, hn]

theorem getLsbD_byte {n : Nat} (v : BitVec (8 * n)) (i j : Nat) :
    (byte v i).getLsbD j = (decide (j < 8) && v.getLsbD (8 * i + j)) := by
  simp [byte, BitVec.getLsbD_extractLsb']

theorem byte_word {n : Nat} (b : Nat → BitVec 8) {i : Nat} (hi : i < n) :
    byte (word n b) i = b i := by
  apply BitVec.eq_of_getLsbD_eq
  intro j hj
  have hd : (8 * i + j) / 8 = i := by omega
  have hm : (8 * i + j) % 8 = j := by omega
  have hn : 8 * i + j < 8 * n := by omega
  simp only [getLsbD_byte, getLsbD_word, hd, hm, hn, hj, decide_true, Bool.true_and]

theorem word_byte {n : Nat} (v : BitVec (8 * n)) : word n (byte v) = v := by
  apply BitVec.eq_of_getLsbD_eq
  intro i hi
  have hj : i % 8 < 8 := Nat.mod_lt _ (by omega)
  simp only [getLsbD_byte, getLsbD_word, hi, hj, Nat.div_add_mod, decide_true, Bool.true_and]

theorem word_one (b : Nat → BitVec 8) : word 1 b = b 0 := by
  apply BitVec.eq_of_getLsbD_eq
  intro i hi
  have hd : i / 8 = 0 := Nat.div_eq_of_lt hi
  have hm : i % 8 = i := Nat.mod_eq_of_lt hi
  have hn : i < 8 * 1 := hi
  simp only [getLsbD_word, hd, hm, hn, decide_true, Bool.true_and]

/-- A byte array with `n` of its bytes, from `p` on, replaced by `f`. -/
def overlay (m : Nat → BitVec 8) (p n : Nat) (f : Nat → BitVec 8) : Nat → BitVec 8 :=
  fun q => if p ≤ q ∧ q < p + n then f (q - p) else m q

theorem overlay_inside (m : Nat → BitVec 8) (p : Nat) {n i : Nat} (f : Nat → BitVec 8)
    (hi : i < n) : overlay m p n f (p + i) = f i := by
  have hp : p ≤ p + i ∧ p + i < p + n := by omega
  simp [overlay, hp]

theorem overlay_outside (m : Nat → BitVec 8) {p n q : Nat} (f : Nat → BitVec 8)
    (hq : q < p ∨ p + n ≤ q) : overlay m p n f q = m q := by
  have hn : ¬(p ≤ q ∧ q < p + n) := by omega
  simp [overlay, hn]

end Besm.Lib.LittleEndian
