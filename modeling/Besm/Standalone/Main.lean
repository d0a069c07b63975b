import Besm.Sim.Halting
import Besm.Sim.Programs
import Besm.Standalone.Options

namespace Besm.Standalone

open Besm.Exec Besm.Mem Besm.Sim Besm.Util Besm.Lib.Transition Besm.Lib.Hoare

variable {M N : Type}

/-- `main` returns a status, or the process ends with an exception that nobody
catches. -/
inductive Exit
  | status (n : Nat)
  | aborted
  deriving DecidableEq, Repr

/-- With `--a0-validation` the program that ran is a test, which leaves 1 in a0 if it passes. -/
def Options.status (options : Options) (gprf : GPRF) : Nat :=
  if options.a0Validation then (if gprf.read 10 = 1 then 0 else 1) else 0

def Options.exit (options : Options) : Outcome M → Option Exit
  | .returned h => some (.status (options.status h.gprf))
  | .thrown _ _ | .terminated => some .aborted
  | .running _ | .undefined => none

def Options.verdict (options : Options) : Effect (Arch M) → Option Exit
  | .ret s => some (.status (options.status s.gprf))
  | .throw _ _ | .terminate => some .aborted
  | .next _ | .raise _ _ _ => none

theorem final_of_verdict {options : Options} {e : Effect (Arch M)} {exit : Exit}
    (h : options.verdict e = some exit) : e.Final := by
  cases e with
  | next s => cases h
  | raise id s r => cases h
  | _ => trivial

/-- The ELF library, the host, and what the storage held that the program does
not initialize. -/
structure Environment where
  load : String → Option Elfio
  host : Host
  registers : Register → RV64UDWord
  ramPageSize : RV64Size
  ramChunkSize : RV64Size

/-- The program after it has parsed its command line, without a listener. -/
inductive Main (env : Environment) (options : Options) : Exit → Prop
  | unconfigured {e : InvalidConfiguration}
      (hconfig : options.config env.ramPageSize env.ramChunkSize = .error e) :
      Main env options .aborted
  | unbuilt {config : Config} {e : MachineError}
      (hconfig : options.config env.ramPageSize env.ramChunkSize = .ok config)
      (hcreate : Machine.create env.load env.host env.registers config = some (.error e)) :
      Main env options .aborted
  | runs {config : Config} {h : Hart Prefetcher} {calls : List (Call Prefetcher)}
      {o : Outcome Prefetcher} {exit : Exit}
      (hconfig : options.config env.ramPageSize env.ramChunkSize = .ok config)
      (hcreate : Machine.create env.load env.host env.registers config = some (.ok h))
      (hrun : Run Handles h.run calls o) (hexit : options.exit o = some exit) :
      Main env options exit

variable [Memory M] [Memory N]

theorem exit_of_ends {options : Options} {e : Effect (Arch M)} {o : Outcome N} (h : Ends e o) :
    options.exit o = options.verdict e := by
  cases h with
  | ret hv => exact congrArg (fun v : View => some (Exit.status (options.status v.gprf))) hv
  | throw e hv => rfl
  | terminate => rfl

theorem exit_stays {options : Options} {o : Outcome M} {exit : Exit} (h : options.exit o = some exit)
    (ls : List (Call M)) (p : Outcome M) : ¬Handles o ls p := by
  intro hstep
  cases hstep with
  | step h => cases h

/-- The process ends the way the plain interpreter does on the image of the
executable, in which it runs up to an instruction that ends the run. -/
theorem main_exits_iff (env : Environment) {options : Options} {config : Config}
    (hconfig : options.config env.ramPageSize env.ramChunkSize = .ok config)
    (hs : config.Sound env.host) {reader : Elfio} (hr : config.Runnable env.load reader)
    {C : Set RV64Ptr} (hC : C ⊆ instrAddresses)
    (hstart : InCode C (Memory.contents (config.image reader)) 0) {ls : List Applied}
    {s : Arch MappedMemory}
    (hrun : Run (Interpreter.StepIn C (Memory.contents (config.image reader)))
      (Hart.create env.registers (config.image reader)).toArch ls s)
    (hcode : InCode C (Memory.contents (config.image reader)) s.pc) {i : Instruction}
    {e : Effect (Arch MappedMemory)} (hfetch : Interpreter.fetch s = some (i, e)) {verdict : Exit}
    (hverdict : options.verdict e = some verdict) (exit : Exit) :
    Main env options exit ↔ exit = verdict := by
  obtain ⟨h, calls, o, hcreate, hcalls, hends⟩ :=
    Machine.run_ends hs hr env.registers hC hstart hrun hcode hfetch (final_of_verdict hverdict)
  have hexit : options.exit o = some verdict := (exit_of_ends hends).trans hverdict
  constructor
  · intro hmain
    cases hmain with
    | unconfigured h => exact nomatch hconfig.symm.trans h
    | unbuilt hconfig' hcreate' =>
      obtain rfl := Except.ok.inj (hconfig.symm.trans hconfig')
      exact nomatch hcreate.symm.trans hcreate'
    | runs hconfig' hcreate' hrun' hexit' =>
      obtain rfl := Except.ok.inj (hconfig.symm.trans hconfig')
      obtain rfl := Except.ok.inj (Option.some.inj (hcreate.symm.trans hcreate'))
      have hend : options.exit _ = some verdict :=
        Leads.ends handles_deterministic (P := fun p => p = h.run)
          (Q := fun p => options.exit p = some verdict) (fun p hp => ⟨calls, o, hp ▸ hcalls, hexit⟩)
          (fun p hp => exit_stays hp) rfl hrun' (exit_stays hexit')
      exact Option.some.inj (hexit'.symm.trans hend)
  · rintro rfl
    exact .runs hconfig hcreate hcalls hexit

def passing : Environment where
  load _ := some (Machine.wordsFile [0x00100513, 0x00100073])
  host := .willing
  registers _ := 0
  ramPageSize := 0
  ramChunkSize := 0

theorem main_exits_iff_passing :
    Main passing { executable := "test", a0Validation := true } (.status 0) := by
  let image := (Machine.usual "test").image (Machine.wordsFile [0x00100513, 0x00100073])
  let s₀ := (Hart.create (fun _ => 0) image).toArch
  let s := (s₀.write 10 1).nextPC
  have hload : image.load .word 0 = .ok (0x00100513 : RV64UWord) := by decide +kernel
  have hload' : image.load .word 4 = .ok (0x00100073 : RV64UWord) := by decide +kernel
  have hfetch : Interpreter.fetch s₀ = some (Dec.parse 0x00100513, .next s) :=
    Interpreter.fetch_of_load (Prod.ext hload rfl)
  have hpc : s.pc = 4 := rfl
  have hfetch' : Interpreter.fetch s = some (Dec.parse 0x00100073, .ret s) := by
    refine Interpreter.fetch_of_load ?_
    rw [hpc]
    exact Prod.ext hload' rfl
  have hstart : InCode Machine.lowerHalf (Memory.contents image) 0 :=
    Machine.inCode_usual "test" _ rfl (by decide)
  have hcode : InCode Machine.lowerHalf (Memory.contents image) s.pc := by
    rw [hpc]
    exact Machine.inCode_usual "test" _ rfl (by decide)
  have hstep : Interpreter.StepIn Machine.lowerHalf (Memory.contents image) s₀
      [⟨s₀.pc, Dec.parse 0x00100513, s.view⟩] s := by
    refine ⟨.next hfetch, List.forall_mem_singleton.mpr ⟨hstart, fun w hw => nomatch hw⟩⟩
  refine (main_exits_iff passing (config_default (by decide) true 0 0)
    (Machine.sound_usual "test") (Machine.runnable_words "test" (by decide)) Machine.lowerHalf_subset hstart
    (.single hstep) hcode hfetch' rfl (.status 0)).mpr rfl

end Besm.Standalone
