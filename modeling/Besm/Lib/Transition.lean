import Mathlib.Data.List.Infix
import Mathlib.Logic.Relation

namespace Besm.Lib.Transition

variable {σ τ α : Type}

inductive Reach (init : σ → Prop) (step : σ → σ → Prop) : σ → Prop
  | init {s : σ} (hs : init s) : Reach init step s
  | step {s t : σ} (hs : Reach init step s) (h : step s t) : Reach init step t

theorem Reach.invariant {init : σ → Prop} {step : σ → σ → Prop} {I : σ → Prop}
    (hinit : ∀ s, init s → I s) (hstep : ∀ s t, I s → step s t → I t)
    {s : σ} (h : Reach init step s) : I s := by
  induction h with
  | init hs => exact hinit _ hs
  | step _ h ih => exact hstep _ _ ih h

/-- A run of a labelled machine, with the labels of its steps in order. A
silent step carries the empty list. -/
inductive Run (step : σ → List α → σ → Prop) : σ → List α → σ → Prop
  | refl (s : σ) : Run step s [] s
  | tail {s t u : σ} {ls ls' : List α} (h : Run step s ls t) (hstep : step t ls' u) :
      Run step s (ls ++ ls') u

theorem Run.single {step : σ → List α → σ → Prop} {s t : σ} {ls : List α}
    (h : step s ls t) : Run step s ls t :=
  .tail (.refl s) h

theorem Run.trans {step : σ → List α → σ → Prop} {s t u : σ} {ls ls' : List α}
    (h : Run step s ls t) (h' : Run step t ls' u) : Run step s (ls ++ ls') u := by
  induction h' with
  | refl => simpa using h
  | tail _ hstep ih => simpa only [List.append_assoc] using Run.tail ih hstep

theorem Run.invariant {step : σ → List α → σ → Prop} {I : σ → Prop}
    (hstep : ∀ s ls t, I s → step s ls t → I t) {s t : σ} {ls : List α}
    (h : Run step s ls t) (hs : I s) : I t := by
  induction h with
  | refl => exact hs
  | tail _ h ih => exact hstep _ _ _ ih h

def iterate (f : σ → Option (List α × σ)) : (n : Nat) → σ → Option (List α × σ)
  | 0, s => some ([], s)
  | n + 1, s => (iterate f n s).bind fun p => (f p.2).map fun q => (p.1 ++ q.1, q.2)

theorem Run.of_iterate {step : σ → List α → σ → Prop} {f : σ → Option (List α × σ)}
    (hf : ∀ s ls t, f s = some (ls, t) → step s ls t) {n : Nat} {s t : σ} {ls : List α}
    (h : iterate f n s = some (ls, t)) : Run step s ls t := by
  induction n generalizing t ls with
  | zero =>
    cases h
    exact .refl s
  | succ n ih =>
    obtain ⟨⟨pre, u⟩, hu, hmap⟩ := Option.bind_eq_some_iff.mp h
    obtain ⟨⟨ls', v⟩, hv, heq⟩ := Option.map_eq_some_iff.mp hmap
    cases heq
    exact .tail (ih hu) (hf u ls' v hv)

theorem Run.labels {step : σ → List α → σ → Prop} {P : α → Prop}
    (hstep : ∀ s ls t, step s ls t → ∀ l ∈ ls, P l) {s t : σ} {ls : List α}
    (h : Run step s ls t) : ∀ l ∈ ls, P l := by
  induction h with
  | refl => simp
  | tail _ h ih =>
    intro l hl
    obtain hl | hl := List.mem_append.mp hl
    · exact ih l hl
    · exact hstep _ _ _ h l hl

theorem Run.and_labels {step : σ → List α → σ → Prop} {P : α → Prop} {s t : σ} {ls : List α}
    (h : Run step s ls t) (hp : ∀ l ∈ ls, P l) :
    Run (fun s ls t => step s ls t ∧ ∀ l ∈ ls, P l) s ls t := by
  induction h with
  | refl => exact .refl _
  | tail _ hstep ih =>
    rw [List.forall_mem_append] at hp
    exact .tail (ih hp.1) ⟨hstep, hp.2⟩

/-- What a step keeps of the labels so far and the state, if its own labels
meet a condition, a run keeps whose labels all meet it. -/
theorem Run.history {step : σ → List α → σ → Prop} {I : List α → σ → Prop} {C : α → Prop}
    (hstep : ∀ pre s ls t, I pre s → (∀ l ∈ ls, C l) → step s ls t → I (pre ++ ls) t) {s t : σ}
    {ls : List α} (h : Run step s ls t) (hc : ∀ l ∈ ls, C l) (hs : I [] s) : I ls t := by
  induction h with
  | refl => exact hs
  | tail _ h ih =>
    rw [List.forall_mem_append] at hc
    exact hstep _ _ _ _ (ih hc.1) hc.2 h

/-- When a step after a history in `I` stays in `I` exactly if its label meets a
condition, then a run and all its beginnings are in `I` exactly if its labels do. -/
theorem Run.prefix_iff {step : σ → List α → σ → Prop} {K : σ → Prop} {I : List α → σ → Prop}
    {C : α → Prop} (hone : ∀ s ls t, step s ls t → ∃ l, ls = [l])
    (hkeep : ∀ s ls t, K s → step s ls t → K t)
    (hstep : ∀ pre s l t, K s → I pre s → step s [l] t → (I (pre ++ [l]) t ↔ C l)) {s t : σ}
    {ls : List α} (h : Run step s ls t) (hs : K s) (hI : I [] s) :
    (∀ pre u, pre <+: ls → Run step s pre u → I pre u) ↔ ∀ l ∈ ls, C l := by
  constructor
  · intro hall
    induction h with
    | refl => simp
    | @tail t u ls ls' h ht ih =>
      obtain ⟨l, rfl⟩ := hone _ _ _ ht
      have hpre := hall ls t (List.prefix_append _ _) h
      have hend := hall _ u (List.prefix_refl _) (.tail h ht)
      have hl := (hstep ls t l u (h.invariant hkeep hs) hpre ht).mp hend
      rw [List.forall_mem_append, List.forall_mem_singleton]
      exact ⟨ih fun pre v hp => hall pre v (hp.trans (List.prefix_append _ _)), hl⟩
  · intro hall pre u hp hrun
    refine (Run.history (C := C) (I := fun ls v => K v ∧ I ls v) ?_ hrun
      (fun l hl => hall l (hp.subset hl)) ⟨hs, hI⟩).2
    rintro pre v ls w ⟨hv, hpre⟩ hc ht
    obtain ⟨l, rfl⟩ := hone _ _ _ ht
    exact ⟨hkeep _ _ _ hv ht,
      (hstep pre v l w hv hpre ht).mpr (hc l (List.mem_singleton.mpr rfl))⟩

/-- When every step from a state of `I` leads back into `I` exactly if it meets
a condition, then so does every run, for all the states it comes through. -/
theorem Run.pairs_iff {step : σ → List (σ × σ) → σ → Prop} {I : σ → Prop} {C : σ × σ → Prop}
    (hpair : ∀ s ls t, step s ls t → ls = [(s, t)])
    (hstep : ∀ s t, I s → step s [(s, t)] t → (I t ↔ C (s, t))) {s t : σ} {ls : List (σ × σ)}
    (h : Run step s ls t) (hs : I s) :
    ((∀ p ∈ ls, I p.2) ↔ ∀ p ∈ ls, C p) ∧ ((∀ p ∈ ls, I p.2) → I t) := by
  induction h with
  | refl => exact ⟨by simp, fun _ => hs⟩
  | @tail t u ls ls' _ ht ih =>
    obtain ⟨hiff, hlast⟩ := ih
    obtain rfl := hpair _ _ _ ht
    simp only [List.forall_mem_append, List.forall_mem_singleton]
    refine ⟨?_, fun h => h.2⟩
    rw [← hiff]
    exact and_congr_right fun hall => hstep t u (hlast hall) ht

inductive Trace (step : σ → α → σ → Prop) (start : σ) : List α → σ → Prop
  | start : Trace step start [] start
  | step {as : List α} {s t : σ} {a : α} (h : Trace step start as s) (hstep : step s a t) :
      Trace step start (a :: as) t

/-- When every action in a state of `I` leads back into `I` exactly if it meets
a condition there, then so does every trace, for all the states it comes through. -/
theorem Trace.suffix_iff {step : σ → α → σ → Prop} {start : σ} {I : σ → Prop} {C : σ → α → Prop}
    (hstart : I start) (hstep : ∀ s a t, I s → step s a t → (I t ↔ C s a)) (as : List α) :
    (∀ as' s, as' <:+ as → Trace step start as' s → I s) ↔
      ∀ a as' s t, a :: as' <:+ as → Trace step start as' s → step s a t → C s a := by
  constructor
  · intro hall a as' s t hsuffix h ht
    have hs := hall as' s ((List.suffix_cons a as').trans hsuffix) h
    exact (hstep s a t hs ht).mp (hall _ t hsuffix (.step h ht))
  · intro hall as' s hsuffix h
    induction h with
    | start => exact hstart
    | @step as' s t a h ht ih =>
      have hs := ih ((List.suffix_cons a as').trans hsuffix)
      exact (hstep s a t hs ht).mpr (hall a as' s t hsuffix h ht)

/-- A forward simulation matches each concrete step by an abstract run with
the same labels, so that silent steps may be matched by no step at all. -/
def Simulates (step : σ → List α → σ → Prop) (step' : τ → List α → τ → Prop)
    (R : σ → τ → Prop) : Prop :=
  ∀ s t, R s t → ∀ ls s', step s ls s' → ∃ t', Run step' t ls t' ∧ R s' t'

theorem Simulates.run {step : σ → List α → σ → Prop} {step' : τ → List α → τ → Prop}
    {R : σ → τ → Prop} (hsim : Simulates step step' R) {s s' : σ} {ls : List α}
    (h : Run step s ls s') {t : τ} (hR : R s t) : ∃ t', Run step' t ls t' ∧ R s' t' := by
  induction h with
  | refl => exact ⟨t, .refl t, hR⟩
  | tail _ hstep ih =>
    obtain ⟨u, hu, hRu⟩ := ih
    obtain ⟨t', ht', hR'⟩ := hsim _ _ hRu _ _ hstep
    exact ⟨t', hu.trans ht', hR'⟩

end Besm.Lib.Transition
