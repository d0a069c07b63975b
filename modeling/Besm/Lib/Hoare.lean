import Besm.Lib.Lockstep

namespace Besm.Lib.Hoare

open Besm.Lib.Transition

variable {σ α : Type} {step : σ → List α → σ → Prop} {P P' Q Q' R : σ → Prop}

/-- Total correctness: from every state of `P` some run comes to a state of `Q`. -/
def Leads (step : σ → List α → σ → Prop) (P Q : σ → Prop) : Prop :=
  ∀ s, P s → ∃ ls t, Run step s ls t ∧ Q t

theorem Leads.of_imp (h : ∀ s, P s → Q s) : Leads step P Q :=
  fun s hs => ⟨[], s, .refl s, h s hs⟩

theorem Leads.single (h : ∀ s, P s → ∃ ls t, step s ls t ∧ Q t) : Leads step P Q := by
  intro s hs
  obtain ⟨ls, t, hstep, ht⟩ := h s hs
  exact ⟨ls, t, .single hstep, ht⟩

theorem Leads.seq (h : Leads step P Q) (h' : Leads step Q R) : Leads step P R := by
  intro s hs
  obtain ⟨ls, t, hrun, ht⟩ := h s hs
  obtain ⟨ls', u, hrun', hu⟩ := h' t ht
  exact ⟨ls ++ ls', u, hrun.trans hrun', hu⟩

theorem Leads.consequence (h : Leads step P Q) (hP : ∀ s, P' s → P s) (hQ : ∀ s, Q s → Q' s) :
    Leads step P' Q' :=
  (Leads.of_imp hP).seq (h.seq (.of_imp hQ))

/-- A loop, of which every round either leaves it or makes the variant smaller. -/
theorem Leads.loop (v : σ → Nat)
    (h : ∀ n, Leads step (fun s => P s ∧ v s = n) fun s => Q s ∨ P s ∧ v s < n) :
    Leads step P Q := by
  have hall : ∀ n s, P s → v s = n → ∃ ls t, Run step s ls t ∧ Q t := by
    intro n
    induction n using Nat.strongRecOn with
    | _ n ih =>
      intro s hs hn
      obtain ⟨ls, t, hrun, ht | ⟨ht, hlt⟩⟩ := h n s ⟨hs, hn⟩
      · exact ⟨ls, t, hrun, ht⟩
      · obtain ⟨ls', u, hrun', hu⟩ := ih (v t) hlt t ht rfl
        exact ⟨ls ++ ls', u, hrun.trans hrun', hu⟩
  exact fun s hs => hall (v s) s hs rfl

/-- A machine that goes back and forth between two sets of states never stops. -/
theorem Leads.forever (hlabel : ∀ s ls t, step s ls t → ls ≠ []) (h : Leads step P Q)
    (h' : Leads step Q P) (hdisjoint : ∀ s, P s → ¬Q s) (n : Nat) {s : σ} (hs : P s) :
    ∃ ls t, n ≤ ls.length ∧ Run step s ls t ∧ P t := by
  induction n with
  | zero => exact ⟨[], s, Nat.le_refl 0, .refl s, hs⟩
  | succ n ih =>
    obtain ⟨ls, t, hn, hrun, ht⟩ := ih
    obtain ⟨ls₁, u, hrun₁, hu⟩ := h t ht
    obtain ⟨ls₂, v, hrun₂, hv⟩ := h' u hu
    have hpos : 0 < ls₁.length := List.length_pos_iff.mpr fun hnil =>
      hdisjoint t ht (hrun₁.eq_of_nil hlabel hnil ▸ hu)
    refine ⟨ls ++ (ls₁ ++ ls₂), v, ?_, hrun.trans (hrun₁.trans hrun₂), hv⟩
    rw [List.length_append, List.length_append]
    omega

/-- Total correctness says where every run ends, if there is but one. -/
theorem Leads.ends (hdet : ∀ s ls t ls' t', step s ls t → step s ls' t' → t = t')
    (h : Leads step P Q) (hQ : ∀ t, Q t → ∀ ls u, ¬step t ls u) {s t' : σ} {ls : List α} (hs : P s)
    (hrun : Run step s ls t') (hend : ∀ ls u, ¬step t' ls u) : Q t' := by
  obtain ⟨ls₀, t, hrun₀, ht⟩ := h s hs
  obtain ⟨ks, hrest⟩ := hrun₀.goes_on hdet hrun hend
  obtain rfl | ⟨l, u, -, hfirst, -⟩ := hrest.head_cases
  · exact ht
  · exact absurd hfirst (hQ t ht l u)

end Besm.Lib.Hoare
