import Besm.Lib.Hoare
import Besm.Sim.Machine

namespace Besm.Sim

open Besm.Exec Besm.Mem Besm.Util Besm.Lib.Transition Besm.Lib.Hoare

variable {M N K : Type} [Memory M] [Memory N] [Memory K]

def Effect.Final {S : Type} : Effect S → Prop
  | .next _ | .raise _ _ _ => False
  | _ => True

inductive Ends : Effect (Arch M) → Outcome N → Prop
  | ret {s : Arch M} {h : Hart N} (hv : h.view = s.view) : Ends (.ret s) (.returned h)
  | throw (e : MemError) {s : Arch M} {h : Hart N} (hv : h.view = s.view) :
      Ends (.throw e s) (.thrown e h)
  | terminate : Ends .terminate .terminated

theorem Ends.alike {R : N → K → Prop} (hm : Memory.Alike R) {e : Effect (Arch M)} {o : Outcome N}
    {p : Outcome K} (he : Ends e o) (ho : o.Alike R p) : Ends e p := by
  cases he with
  | ret hv =>
    cases ho with
    | returned hh => exact .ret ((hh.view hm).symm.trans hv)
  | throw e hv =>
    cases ho with
    | thrown _ hh => exact .throw e ((hh.view hm).symm.trans hv)
  | terminate =>
    cases ho with
    | terminated => exact .terminate

theorem ends_apply (h : Hart M) {e e' : Effect (Arch M)} (he : e.Final)
    (hmap : e'.map Arch.view = e.map Arch.view) : Ends e (h.apply e') := by
  cases e with
  | next s => exact he.elim
  | raise id s r => exact he.elim
  | ret s =>
    cases e' with
    | ret t => exact .ret (Effect.ret.inj hmap)
    | _ => cases hmap
  | throw err s =>
    cases e' with
    | throw err' t =>
      obtain ⟨rfl, hv⟩ := Effect.throw.inj hmap
      exact .throw err' hv
    | _ => cases hmap
  | terminate =>
    cases e' with
    | terminate => exact .terminate
    | _ => cases hmap

inductive Handles : Outcome M → List (Call M) → Outcome M → Prop
  | step (h : Hart M) : Handles (.running h) [.step h] h.step

theorem handles_deterministic (o : Outcome M) (ls : List (Call M)) (p : Outcome M)
    (ls' : List (Call M)) (p' : Outcome M) (h : Handles o ls p) (h' : Handles o ls' p') : p = p' := by
  cases h with
  | step h =>
    cases h' with
    | step => rfl

theorem handles_lockstep {R : M → N → Prop} (hm : Memory.Alike R) :
    Lockstep Handles Handles Call.OnWord (Call.Alike R) (Outcome.Alike R) := by
  rintro o p ho ls o' hword hstep
  cases hstep with
  | step h =>
    cases ho with
    | @running _ k hh =>
      have hpc := hword _ (List.mem_singleton.mpr rfl)
      exact ⟨[.step k], _, .step k, .cons (.step hh) .nil, hh.step hm hpc⟩

theorem Hart.handles_of_steps {C : Set RV64Ptr} {h h' : Hart M} {ls : List Applied}
    (hrun : Run (Hart.StepAt C) h ls h') : ∃ calls,
      Run Handles (.running h) calls (.running h') ∧ ∀ c ∈ calls, c.before.pc ∈ C := by
  induction hrun with
  | refl => exact ⟨[], .refl _, nofun⟩
  | @tail t u _ _ _ hstep ih =>
    obtain ⟨calls, hcalls, hpc⟩ := ih
    obtain ⟨hin, hquiet⟩ := hstep
    have hnext : t.step = .running u := by
      cases hquiet with
      | bbEnd _ _ hrun => exact hrun
      | instr _ _ _ _ hrun => exact hrun
    refine ⟨calls ++ [.step t], hcalls.tail (hnext ▸ .step t), List.forall_mem_append.mpr ⟨hpc, ?_⟩⟩
    exact List.forall_mem_singleton.mpr hin

/-- Where the interpreter comes to an effect that ends the run, the hart does too. -/
theorem Runs.ends [LawfulMemory M] {C : Set RV64Ptr}
    {contents : (w : Width) → RV64Ptr → Except MemError (BitVec (8 * w.size))} {s : Arch M}
    {h : Hart M} (hpoison : (1 : RV64Ptr) ∉ C) (hr : Runs C contents s h)
    (hc : InCode C contents s.pc) {i : Instruction} {e : Effect (Arch M)}
    (hfetch : Interpreter.fetch s = some (i, e)) (he : e.Final) :
    ∃ h', Run (Hart.StepAt C) h [] h' ∧ h'.pc ∈ C ∧ Ends e h'.step := by
  obtain ⟨h', hrun, hr', j, hcur, hop⟩ := hr.enters hpoison hc
  obtain ⟨word, hw, rfl⟩ := hr'.primed.decoded hcur hop
  have hword : Memory.contents s.mem .word s.pc = .ok word := by
    rw [hr'.pc, ← hw]
    exact congrFun (congrFun (congrArg View.contents hr'.view) .word) _
  obtain ⟨rfl, hmap⟩ := Interpreter.fetch_of_contents hword hfetch
  rw [effect_congr _ hr'.view] at hmap
  refine ⟨h', hrun, hr'.pc ▸ hc.mem, ?_⟩
  rw [Hart.step_instr hcur hop]
  exact ends_apply h' he hmap

/-- The run of a machine ends where the plain interpreter does on the image of the
executable, and in the same way. -/
theorem Machine.run_ends {config : Config} {host : Host} (hs : config.Sound host)
    {load : String → Option Elfio} {reader : Elfio} (hr : config.Runnable load reader)
    (garbage : Register → RV64UDWord) {C : Set RV64Ptr} (hC : C ⊆ instrAddresses)
    (hstart : InCode C (Memory.contents (config.image reader)) 0) {ls : List Applied}
    {s : Arch MappedMemory}
    (hrun : Run (Interpreter.StepIn C (Memory.contents (config.image reader)))
      (Hart.create garbage (config.image reader)).toArch ls s)
    (hcode : InCode C (Memory.contents (config.image reader)) s.pc) {i : Instruction}
    {e : Effect (Arch MappedMemory)} (hfetch : Interpreter.fetch s = some (i, e)) (he : e.Final) :
    ∃ h calls o, Machine.create load host garbage config = some (.ok h) ∧
      Run Handles h.run calls o ∧ Ends e o := by
  obtain ⟨m, hcreate, hregular, hlaid, hflat⟩ := Machine.create_of_runnable hs hr
  rw [← hflat] at hstart hrun hcode
  have hm := (Prefetcher.alike hregular hlaid).swap
  obtain ⟨k₁, k, hk₁, hsteps, hruns⟩ :=
    run_beside_interpreter (Hart.create garbage m.flat) ⟨rfl, rfl⟩ (poison_not_mem hC) hstart hrun
  obtain ⟨k', hlast, hpc, hends⟩ := hruns.ends (poison_not_mem hC) hcode hfetch he
  obtain ⟨calls, hcalls, hin⟩ := Hart.handles_of_steps (hsteps.trans hlast)
  obtain ⟨h₁, hh₁, ha₁⟩ := (Hart.created_shows hregular garbage).swap.runs hm rfl hk₁
  have hword : ∀ c ∈ calls ++ [.step k'], c.OnWord := by
    refine List.forall_mem_append.mpr ⟨fun c hc => hC (hin c hc), ?_⟩
    exact List.forall_mem_singleton.mpr (hC hpc)
  obtain ⟨calls', o, hrun', -, ho⟩ :=
    (handles_lockstep hm).run (hcalls.tail (.step k')) hword (.running ha₁)
  exact ⟨_, calls', o, hcreate garbage, hh₁ ▸ hrun', hends.alike hm ho⟩

end Besm.Sim
