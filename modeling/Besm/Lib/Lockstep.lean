import Besm.Lib.Transition
import Mathlib.Data.List.Forall2
import Mathlib.Logic.Relation

namespace Besm.Lib.Transition

variable {σ τ υ α β γ : Type}

theorem Run.mono {step step' : σ → List α → σ → Prop}
    (hsub : ∀ s ls t, step s ls t → step' s ls t) {s t : σ} {ls : List α} (h : Run step s ls t) :
    Run step' s ls t := by
  induction h with
  | refl => exact .refl _
  | tail _ h ih => exact .tail ih (hsub _ _ _ h)

theorem Run.eq_of_nil {step : σ → List α → σ → Prop}
    (hlabel : ∀ s ls t, step s ls t → ls ≠ []) {s t : σ} {ls : List α} (h : Run step s ls t)
    (hnil : ls = []) : t = s := by
  cases h with
  | refl => rfl
  | tail _ hstep => exact absurd (List.append_eq_nil_iff.mp hnil).2 (hlabel _ _ _ hstep)

theorem Run.head_cases {step : σ → List α → σ → Prop} {s t : σ} {ls : List α}
    (h : Run step s ls t) : s = t ∨ ∃ l u ks, step s l u ∧ Run step u ks t := by
  induction h with
  | refl => exact .inl rfl
  | tail _ hstep ih =>
    obtain rfl | ⟨l, u, ks, hfirst, hrest⟩ := ih
    · exact .inr ⟨_, _, _, hstep, .refl _⟩
    · exact .inr ⟨l, u, _, hfirst, hrest.tail hstep⟩

/-- A run that comes to an end goes through every state that another one comes to. -/
theorem Run.goes_on {step : σ → List α → σ → Prop}
    (hdet : ∀ s ls t ls' t', step s ls t → step s ls' t' → t = t') {s t t' : σ} {ls ls' : List α}
    (h : Run step s ls t) (h' : Run step s ls' t') (hend : ∀ ls u, ¬step t' ls u) :
    ∃ ks, Run step t ks t' := by
  induction h with
  | refl => exact ⟨ls', h'⟩
  | tail _ hstep ih =>
    obtain ⟨ks, hrun⟩ := ih
    obtain rfl | ⟨l, v, ks', hfirst, hrest⟩ := hrun.head_cases
    · exact absurd hstep (hend _ _)
    · obtain rfl := hdet _ _ _ _ _ hfirst hstep
      exact ⟨ks', hrest⟩

/-- Two machines that go step by step together: a step whose labels meet a
condition is matched by one step, with labels that belong to them one by one. -/
def Lockstep (step : σ → List α → σ → Prop) (step' : τ → List β → τ → Prop) (C : α → Prop)
    (L : α → β → Prop) (R : σ → τ → Prop) : Prop :=
  ∀ s t, R s t → ∀ ls s', (∀ l ∈ ls, C l) → step s ls s' →
    ∃ ls' t', step' t ls' t' ∧ List.Forall₂ L ls ls' ∧ R s' t'

theorem Lockstep.run {step : σ → List α → σ → Prop} {step' : τ → List β → τ → Prop}
    {C : α → Prop} {L : α → β → Prop} {R : σ → τ → Prop} (hl : Lockstep step step' C L R)
    {s s' : σ} {ls : List α} (h : Run step s ls s') (hc : ∀ l ∈ ls, C l) {t : τ} (hR : R s t) :
    ∃ ls' t', Run step' t ls' t' ∧ List.Forall₂ L ls ls' ∧ R s' t' := by
  induction h with
  | refl => exact ⟨[], t, .refl t, .nil, hR⟩
  | tail _ hstep ih =>
    rw [List.forall_mem_append] at hc
    obtain ⟨ks, u, hu, hks, hRu⟩ := ih hc.1
    obtain ⟨ks', t', ht', hks', hR'⟩ := hl _ _ hRu _ _ hc.2 hstep
    exact ⟨ks ++ ks', t', hu.tail ht', List.rel_append hks hks', hR'⟩

theorem forall₂_comp {L : α → β → Prop} {L' : β → γ → Prop} {as : List α} {bs : List β}
    {cs : List γ} (h : List.Forall₂ L as bs) (h' : List.Forall₂ L' bs cs) :
    List.Forall₂ (Relation.Comp L L') as cs := by
  induction h generalizing cs with
  | nil =>
    cases h'
    exact .nil
  | cons hab _ ih =>
    cases h' with
    | cons hbc hcs => exact .cons ⟨_, hab, hbc⟩ (ih hcs)

theorem forall_of_forall₂ {L : α → β → Prop} {C : α → Prop} {C' : β → Prop}
    (hC : ∀ a b, C a → L a b → C' b) {as : List α} {bs : List β} (h : List.Forall₂ L as bs)
    (has : ∀ a ∈ as, C a) : ∀ b ∈ bs, C' b := by
  induction h with
  | nil => exact fun b hb => absurd hb List.not_mem_nil
  | cons hab _ ih =>
    rw [List.forall_mem_cons] at has ⊢
    exact ⟨hC _ _ has.1 hab, ih has.2⟩

/-- Machines that go step by step together do so over one in between. -/
theorem Lockstep.comp {step : σ → List α → σ → Prop} {step' : τ → List β → τ → Prop}
    {step'' : υ → List γ → υ → Prop} {C C₁ : α → Prop} {C₂ : β → Prop} {L : α → β → Prop}
    {L' : β → γ → Prop} {R : σ → τ → Prop} {R' : τ → υ → Prop} (h : Lockstep step step' C₁ L R)
    (h' : Lockstep step' step'' C₂ L' R') (hC₁ : ∀ a, C a → C₁ a)
    (hC₂ : ∀ a b, C a → L a b → C₂ b) :
    Lockstep step step'' C (Relation.Comp L L') (Relation.Comp R R') := by
  rintro s u ⟨t, hst, htu⟩ as s' has hstep
  obtain ⟨bs, t', ht, hbs, hst'⟩ := h s t hst as s' (fun a ha => hC₁ a (has a ha)) hstep
  obtain ⟨cs, u', hu, hcs, htu'⟩ := h' t u htu bs t' (forall_of_forall₂ hC₂ hbs has) ht
  exact ⟨cs, u', hu, forall₂_comp hbs hcs, t', hst', htu'⟩

end Besm.Lib.Transition
