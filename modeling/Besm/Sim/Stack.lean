import Besm.Memory.Stack
import Besm.Sim.Lockstep
import Besm.Sim.Progress

namespace Besm.Sim

open Besm.Exec Besm.Mem Besm.Lib.Transition

variable {M N : Type} {R S : M → N → Prop}

theorem Arch.Alike.mono (hRS : ∀ m n, R m n → S m n) {s : Arch M} {t : Arch N}
    (h : s.Alike R t) : s.Alike S t :=
  ⟨h.gprf, h.csrf, hRS _ _ h.mem⟩

theorem Hart.Alike.mono (hRS : ∀ m n, R m n → S m n) {h : Hart M} {k : Hart N}
    (hh : h.Alike R k) : h.Alike S k :=
  ⟨hh.toAlike.mono hRS, hh.bbCache, hh.currentInstr, hh.instrsExecuted, hh.hooks⟩

theorem Hart.Alike.swap {h : Hart M} {k : Hart N} (hh : h.Alike R k) :
    k.Alike (fun n m => R m n) h :=
  ⟨⟨hh.gprf.symm, hh.csrf.symm, hh.mem⟩, hh.bbCache.symm, hh.currentInstr.symm,
    hh.instrsExecuted.symm, hh.hooks.symm⟩

theorem Outcome.Alike.mono (hRS : ∀ m n, R m n → S m n) {o : Outcome M} {p : Outcome N}
    (h : o.Alike R p) : o.Alike S p := by
  cases h with
  | running hh => exact .running (hh.mono hRS)
  | returned hh => exact .returned (hh.mono hRS)
  | thrown e hh => exact .thrown e (hh.mono hRS)
  | terminated => exact .terminated
  | undefined => exact .undefined

theorem Call.Alike.mono (hRS : ∀ m n, R m n → S m n) {c : Call M} {d : Call N}
    (h : c.Alike R d) : c.Alike S d := by
  cases h with
  | step hh => exact .step (hh.mono hRS)
  | run hh => exact .run (hh.mono hRS)

theorem Hart.alike_create (garbage : Register → RV64UDWord) {m : M} {n : N} (hR : R m n) :
    (create garbage m).Alike R (create garbage n) :=
  ⟨⟨rfl, rfl, hR⟩, rfl, rfl, rfl, rfl⟩

theorem Hart.Alike.storesApart {h : Hart M} {k : Hart N} (hh : h.Alike R k) {i : Instruction}
    (ha : h.StoresApart i) : k.StoresApart i := by
  intro w hw a hf
  have haddr : k.address i = h.address i := by simp only [Arch.address, Arch.read, hh.gprf]
  rw [haddr]
  refine ha w hw a ?_
  unfold Hart.fetchedWords
  rw [hh.hooks]
  exact hf

variable [Memory M] [Memory N]

def SameContents (m : M) (n : N) : Prop := Memory.contents m = Memory.contents n

namespace Hart

theorem created_alike (hm : Memory.Alike R) (garbage : Register → RV64UDWord) {m : M} {n : N}
    (hR : R m n) {ls : List (Call M)} {o : Outcome M}
    (hrun : Run Calls (.returned (create garbage m)) ls o) (hword : ∀ l ∈ ls, l.OnWord) :
    ∃ ks p, Run Calls (.returned (create garbage n)) ks p ∧
      List.Forall₂ (Call.Alike SameContents) ls ks ∧ o.Alike SameContents p := by
  obtain ⟨ks, p, hrun', hls, ho⟩ := runs_alike hm (alike_create garbage hR) hrun hword
  have hsame : ∀ m n, R m n → SameContents m n := fun _ _ h => hm.contents h
  exact ⟨ks, p, hrun', hls.imp fun _ _ h => h.mono hsame, ho.mono hsame⟩

theorem created_shows {m : PhysMem} (hr : m.Regular) (garbage : Register → RV64UDWord) :
    (create garbage (Prefetcher.create ⟨m⟩)).Alike (Prefetcher.Shows m) (create garbage m.flat) :=
  alike_create garbage (Prefetcher.shows_create hr (PhysMem.shows_flat hr.disjoint))

/-- On the physical memory with its prefetcher a hart does what it does on the
byte array that the devices make up. -/
theorem stack_runs_flat {m : PhysMem} (hr : m.Regular) (hl : m.LaidOut)
    (garbage : Register → RV64UDWord) {ls : List (Call Prefetcher)} {o : Outcome Prefetcher}
    (hrun : Run Calls (.returned (create garbage (Prefetcher.create ⟨m⟩))) ls o)
    (hword : ∀ l ∈ ls, l.OnWord) :
    ∃ ks p, Run Calls (.returned (create garbage m.flat)) ks p ∧
      List.Forall₂ (Call.Alike SameContents) ls ks ∧ o.Alike SameContents p :=
  created_alike (Prefetcher.alike hr hl) garbage
    (Prefetcher.shows_create hr (PhysMem.shows_flat hr.disjoint)) hrun hword

def wordMem (word : BitVec 32) : PhysMem :=
  ((PhysMemBuilder.adjacentBuilder.build .willing).store .word 0 word).2

theorem regular_wordMem (word : BitVec 32) : (wordMem word).Regular :=
  PhysMem.regular_of_reach PhysMemBuilder.mapRAMs_adjacent PhysMem.grants_adjacent
    (PhysMemBuilder.disjoint_adjacent _) (by decide) (by decide)
    (.step (.init rfl) (.store _ .word 0 word))

theorem laidOut_wordMem (word : BitVec 32) : (wordMem word).LaidOut := by
  have hb := PhysMemBuilder.mapped_of_empty PhysMemBuilder.mapRAMs_adjacent
  have hev := PhysMem.reach_evolves PhysMemBuilder.mapRAMs_adjacent PhysMem.grants_adjacent
    (.step (.init rfl) (.store (PhysMemBuilder.adjacentBuilder.build .willing) .word 0 word))
  exact hev.laidOut (PhysMem.laidOut_build hb .willing (by decide) (by decide) (by decide))

theorem runs_of_runFor_one {h₀ h : Hart M} (hr : h₀.runFor 1 = some h) (hpc₀ : h₀.pc = 0)
    (hpc : (h₀.runFor 0).map (fun h => h.pc) = some 0) :
    ∃ h₁, h₀.runFor 0 = some h₁ ∧ Run Calls (.returned h₀) ([.run h₀] ++ [.step h₁]) (.running h) ∧
      ∀ l ∈ [Call.run h₀] ++ [.step h₁], l.OnWord := by
  obtain ⟨h₁, hr₁, hstep⟩ := Option.bind_eq_some_iff.mp hr
  have hpc₁ : h₁.pc = 0 := of_runFor hr₁ hpc
  refine ⟨h₁, hr₁, .tail (t := .running h₁) (.single ?_) ?_, ?_⟩
  · rw [← Outcome.running?_eq_some.mp hr₁]
    exact .run rfl
  · rw [← Outcome.running?_eq_some.mp hstep]
    exact .step h₁
  · refine List.forall_mem_cons.mpr ⟨?_, List.forall_mem_singleton.mpr ?_⟩ <;>
      rw [Call.OnWord, Call.before]
    · rw [hpc₀]
      rfl
    · rw [hpc₁]
      rfl

def addiMem : PhysMem := wordMem 0x00500093

theorem stack_runs_flat_addi : ∃ ks, ∃ k : Hart MappedMemory,
    Run Calls (.returned (create (fun _ => 0) addiMem.flat)) ks (.running k) ∧ k.read 1 = 5 := by
  let h₀ := create (fun _ => 0) (Prefetcher.create ⟨addiMem⟩)
  have hsome : (h₀.runFor 1).isSome = true := by decide +kernel
  obtain ⟨h, hr⟩ := Option.isSome_iff_exists.mp hsome
  have h5 : h.read 1 = 5 := of_runFor (f := fun h => h.read 1) hr (by decide +kernel)
  obtain ⟨h₁, -, hrun, hword⟩ := runs_of_runFor_one hr rfl (by decide +kernel)
  obtain ⟨ks, p, hrun', -, ho⟩ :=
    stack_runs_flat (regular_wordMem _) (laidOut_wordMem _) (fun _ => 0) hrun hword
  cases ho with
  | running hh =>
    refine ⟨ks, _, hrun', ?_⟩
    rw [Arch.read, ← hh.gprf]
    exact h5

/-- Two physical memories that map the same addresses and hold the same bytes
cannot be told apart by a program, whatever their devices, pages and chunks are. -/
theorem layout_unobservable {m m' : PhysMem} (hr : m.Regular) (hl : m.LaidOut) (hr' : m'.Regular)
    (hl' : m'.LaidOut) (hflat : Memory.contents m.flat = Memory.contents m'.flat)
    (garbage : Register → RV64UDWord) {ls : List (Call Prefetcher)} {o : Outcome Prefetcher}
    (hrun : Run Calls (.returned (create garbage (Prefetcher.create ⟨m⟩))) ls o)
    (hword : ∀ l ∈ ls, l.OnWord) :
    ∃ ks p, Run Calls (.returned (create garbage (Prefetcher.create ⟨m'⟩))) ks p ∧
      List.Forall₂ (Call.Alike SameContents) ls ks ∧ o.Alike SameContents p := by
  have hm := (Prefetcher.alike hr hl).comp (Memory.alike_contents (M := MappedMemory))
  refine created_alike (hm.comp (Prefetcher.alike hr' hl').swap) garbage ?_ hrun hword
  exact ⟨m'.flat, ⟨m.flat, Prefetcher.shows_create hr (PhysMem.shows_flat hr.disjoint), hflat⟩,
    Prefetcher.shows_create hr' (PhysMem.shows_flat hr'.disjoint)⟩

end Hart

section Quiet

variable {h h' : Hart M} {k : Hart N} {ls : List Applied}

theorem Hart.Alike.view (hm : Memory.Alike R) (hh : h.Alike R k) : h.view = k.view := by
  simp only [Hart.view, Arch.view, hh.gprf, hh.csrf, hm.contents hh.mem]

theorem Hart.Alike.quiet (hm : Memory.Alike R) (hh : h.Alike R k) {i : Instruction}
    (hquiet : ∀ id s r, effect i h.toArch ≠ .raise id s r) (id : ExceptionId) (t : Arch N)
    (r : Resume) : effect i k.toArch ≠ .raise id t r := by
  intro hraise
  have he := effect_alike hm i hh.toAlike
  rw [hraise] at he
  generalize hx : effect i h.toArch = x at he
  cases he with
  | raise id r ha => exact hquiet _ _ _ hx

theorem QuietStep.alike (hm : Memory.Alike R) (hh : h.Alike R k) (hpc : h.pc.toNat % 4 = 0)
    (hs : QuietStep h ls h') : ∃ k', QuietStep k ls k' ∧ h'.Alike R k' := by
  have ho := hh.step hm hpc
  have hstep : ∀ {h'}, h.step = .running h' → ∃ k', k.step = .running k' ∧ h'.Alike R k' := by
    intro h' hrun
    rw [hrun] at ho
    generalize k.step = o at ho
    cases ho with
    | running hh' => exact ⟨_, rfl, hh'⟩
  cases hs with
  | bbEnd hcur hop hrun =>
    obtain ⟨k', hk, hh'⟩ := hstep hrun
    exact ⟨k', .bbEnd (hh.current.symm.trans hcur) hop hk, hh'⟩
  | instr hcur hop hquiet hapart hrun =>
    obtain ⟨k', hk, hh'⟩ := hstep hrun
    refine ⟨k', ?_, hh'⟩
    rw [hh.pc, hh'.view hm]
    exact .instr (hh.current.symm.trans hcur) hop (hh.quiet hm hquiet) (hh.storesApart hapart) hk

def instrAddresses : Set RV64Ptr := {a | a.toNat % 4 = 0}

theorem poison_not_mem {C : Set RV64Ptr} (hC : C ⊆ instrAddresses) : (1 : RV64Ptr) ∉ C := by
  intro h1
  have hal : (1 : RV64Ptr).toNat % 4 = 0 := hC h1
  exact absurd hal (by decide)

theorem quiet_lockstep (hm : Memory.Alike R) {C : Set RV64Ptr} (hC : C ⊆ instrAddresses) :
    Lockstep (Hart.StepAt C) (Hart.StepAt C) (fun _ => True) Eq (Hart.Alike R) := by
  rintro h k hh ls h' - ⟨hpc, hs⟩
  obtain ⟨k', hs', hh'⟩ := hs.alike hm hh (hC hpc)
  exact ⟨ls, k', ⟨hh.pc ▸ hpc, hs'⟩, List.forall₂_refl ls, hh'⟩

theorem quiet_alike (hm : Memory.Alike R) {C : Set RV64Ptr} (hC : C ⊆ instrAddresses)
    (hh : h.Alike R k) (hrun : Run (Hart.StepAt C) h ls h') :
    ∃ k', Run (Hart.StepAt C) k ls k' ∧ h'.Alike R k' := by
  obtain ⟨ks, k', hrun', hls, hh'⟩ := (quiet_lockstep hm hC).run hrun (fun _ _ => trivial) hh
  rw [List.forall₂_eq_eq_eq] at hls
  exact ⟨k', hls ▸ hrun', hh'⟩

theorem Hart.Alike.runs (hm : Memory.Alike R) (hh : h.Alike R k) (hpc : h.pc.toNat % 4 = 0)
    (hrun : h.run = .running h') : ∃ k', k.run = .running k' ∧ h'.Alike R k' := by
  have ho := hh.execBBEND hm hpc
  change Outcome.Alike R h.run k.run at ho
  rw [hrun] at ho
  generalize k.run = o at ho
  cases ho with
  | running hh' => exact ⟨_, rfl, hh'⟩

end Quiet

/-- A quiet run on the physical memory, with prefetcher and block cache, is a run
of the plain interpreter on a byte array. -/
theorem stack_refines_interpreter {m : PhysMem} (hr : m.Regular) (hl : m.LaidOut)
    {garbage : Register → RV64UDWord} {h₁ h : Hart Prefetcher} {ls : List Applied}
    (hrun : (Hart.create garbage (Prefetcher.create ⟨m⟩)).run = .running h₁)
    (hsteps : Run (Hart.StepAt instrAddresses) h₁ ls h) :
    ∃ s, Run Interpreter.Step (Hart.create garbage m.flat).toArch ls s ∧ s.view = h.view := by
  have hm := Prefetcher.alike hr hl
  obtain ⟨k₁, hk₁, hh₁⟩ := (Hart.created_shows hr garbage).runs hm rfl hrun
  obtain ⟨k, hk, hh'⟩ := quiet_alike hm subset_rfl hh₁ hsteps
  obtain ⟨s, hs, hv, -⟩ := run_refines_interpreter ⟨rfl, rfl⟩ hk₁ (hk.mono fun _ _ _ h => h.2)
  exact ⟨s, hs, hv.trans (hh'.view hm).symm⟩

/-- And what the interpreter does there in code that it does not write, the hart
does on the physical memory. -/
theorem stack_matches_interpreter {m : PhysMem} (hr : m.Regular) (hl : m.LaidOut)
    {garbage : Register → RV64UDWord} {C : Set RV64Ptr} (hC : C ⊆ instrAddresses)
    (hstart : InCode C (Memory.contents m.flat) 0) {ls : List Applied} {s : Arch MappedMemory}
    (hrun : Run (Interpreter.StepIn C (Memory.contents m.flat))
      (Hart.create garbage m.flat).toArch ls s) :
    ∃ h₁ h, (Hart.create garbage (Prefetcher.create ⟨m⟩)).run = .running h₁ ∧
      Run (Hart.StepAt C) h₁ ls h ∧ h.view = s.view := by
  have hm := (Prefetcher.alike hr hl).swap
  obtain ⟨k₁, k, hk₁, hk, hv⟩ := run_matches_interpreter
    (Hart.create garbage m.flat) ⟨rfl, rfl⟩ (poison_not_mem hC) hstart hrun
  obtain ⟨h₁, hh₁, ha₁⟩ := (Hart.created_shows hr garbage).swap.runs hm rfl hk₁
  obtain ⟨h, hsteps, ha⟩ := quiet_alike hm hC ha₁ hk
  exact ⟨h₁, h, hh₁, hsteps, (ha.view hm).symm.trans hv⟩

/-- Without the prefetcher a hart is beside the interpreter on every regular memory,
also where its devices do not begin and end at words. -/
theorem mmu_matches_interpreter {devices : PhysMemDeviceMap} (m : Regulated devices)
    (garbage : Register → RV64UDWord) :
    (∀ h₁ h ls, (Hart.create garbage m).run = .running h₁ → Run QuietStep h₁ ls h →
      ∃ s, Run Interpreter.Step (Hart.create garbage m).toArch ls s ∧ s.view = h.view) ∧
    ∀ C ⊆ instrAddresses, InCode C (Memory.contents m) 0 → ∀ ls s,
      Run (Interpreter.StepIn C (Memory.contents m)) (Hart.create garbage m).toArch ls s →
      ∃ h₁ h, (Hart.create garbage m).run = .running h₁ ∧ Run (Hart.StepAt C) h₁ ls h ∧
        h.view = s.view := by
  refine ⟨fun h₁ h ls hrun hsteps => ?_, fun C hC hstart ls s hrun => ?_⟩
  · have hfresh : (Hart.create garbage m).Fresh := ⟨rfl, rfl⟩
    obtain ⟨s, hs, hv, -⟩ := run_refines_interpreter hfresh hrun hsteps
    exact ⟨s, hs, hv⟩
  · exact run_matches_interpreter (Hart.create garbage m) ⟨rfl, rfl⟩ (poison_not_mem hC) hstart
      hrun

end Besm.Sim
