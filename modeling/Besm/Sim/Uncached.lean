import Besm.Sim.Beside
import Besm.Sim.Halting

namespace Besm.Sim

open Besm.Exec Besm.Mem Besm.Util Besm.Lib.Transition

variable {M : Type}

namespace Hart

/-- The hart no longer knows which blocks it holds; it stays in the one it is in. -/
def forget (h : Hart M) : Hart M :=
  { h with bbCache.bbs := fun index => { h.bbCache.bbs index with pc := BasicBlock.create.pc } }

theorem Abreast.forget {h k : Hart M} {pos : Nat} (ha : h.Abreast k pos) :
    h.Abreast k.forget pos := by
  obtain ⟨index, index', n, hp, hq, hle, hl⟩ := ha
  exact ⟨index, index', n, hp, hq, hle, hl.instrs, hl.instr, hl.stop, hl.stop'⟩

end Hart

variable [Memory M]

/-- A hart without a block cache: whenever it comes to a new block it assembles
it from memory. -/
inductive Uncached : Outcome M → List (Call M) → Outcome M → Prop
  | step (h : Hart M) : Uncached (.running h) [.step h] h.forget.step

namespace Hart

theorem Slots.forget (h : Hart M) : h.forget.Slots := fun _ => .inl rfl

theorem Beside.forget {h k : Hart M} (hb : h.Beside k) : h.Beside k.forget :=
  ⟨hb.seen, hb.fetched, hb.slots, .forget k⟩

theorem beside_create (garbage : Register → RV64UDWord) (mem : M) :
    (create garbage mem).Beside (create garbage mem) :=
  ⟨rfl, rfl, fun _ => .inl rfl, fun _ => .inl rfl⟩

theorem reachable_handles {o o' : Outcome M} {ls : List (Call M)}
    (ho : ∀ t, o.hart? = some t → Reachable t) (hc : Handles o ls o') :
    ∀ t, o'.hart? = some t → Reachable t := by
  cases hc with
  | step h => exact reachable_call ho (.step h)

end Hart

structure Outcome.Runs (o p : Outcome M) : Prop where
  beside : o.Beside p
  reachable : ∀ t, o.hart? = some t → Hart.Reachable t

theorem Hart.runs_run [LawfulMemory M] (garbage : Register → RV64UDWord) (mem : M) :
    (create garbage mem).run.Runs (create garbage mem).run := by
  refine ⟨(beside_create garbage mem).execBBEND (BasicBlockCache.ne_poison rfl), fun t ht => ?_⟩
  exact .step (.init ⟨garbage, mem, rfl⟩) (.inr ht)

/-- The hart does what it would do if it assembled every block anew. -/
theorem cached_lockstep [LawfulMemory M] :
    Lockstep Handles Uncached Call.StoresApart Call.Like (Outcome.Runs (M := M)) := by
  rintro o p ⟨hbeside, hreach⟩ ls o' hapart hstep
  have hreach' := Hart.reachable_handles hreach hstep
  cases hstep with
  | step h =>
    cases hbeside with
    | @running _ k pos hb ha =>
      have hpc := BasicBlockCache.ne_poison (Hart.reachable_even (hreach h rfl)).1
      have hstep := hb.forget.step ha.forget hpc (hapart _ (List.mem_singleton.mpr rfl))
      exact ⟨_, _, .step k, .cons (.step hb.seen) .nil, hstep, hreach'⟩

theorem uncached_lockstep [LawfulMemory M] :
    Lockstep Uncached Handles Call.StoresApart Call.Like fun p o => Outcome.Runs (M := M) o p := by
  rintro p o ⟨hbeside, hreach⟩ ls p' hapart hstep
  cases hstep with
  | step k =>
    cases hbeside with
    | @running h _ pos hb ha =>
      have hpc := BasicBlockCache.ne_poison (Hart.reachable_even (hreach h rfl)).1
      have hstores := hb.storesApart ha (hapart _ (List.mem_singleton.mpr rfl))
      have hstep := hb.forget.step ha.forget hpc hstores
      exact ⟨_, _, .step h, .cons (.step hb.seen.symm) .nil, hstep,
        Hart.reachable_handles hreach (.step h)⟩

/-- The cache of basic blocks cannot be told, whatever traps and exceptions come
about in the run, as long as it stores into no word that was fetched before. -/
theorem Hart.cache_unobservable [LawfulMemory M] (garbage : Register → RV64UDWord) (mem : M) :
    (∀ ls o, Run Handles (create garbage mem).run ls o → (∀ c ∈ ls, c.StoresApart) →
      ∃ ks p, Run Uncached (create garbage mem).run ks p ∧ List.Forall₂ Call.Like ls ks ∧
        o.Like p) ∧
    ∀ ks p, Run Uncached (create garbage mem).run ks p → (∀ c ∈ ks, c.StoresApart) →
      ∃ ls o, Run Handles (create garbage mem).run ls o ∧ List.Forall₂ Call.Like ls ks ∧
        o.Like p := by
  have hstart := runs_run garbage mem
  refine ⟨fun ls o hrun hapart => ?_, fun ks p hrun hapart => ?_⟩
  · obtain ⟨ks, p, hrun', hls, hruns⟩ := cached_lockstep.run hrun hapart hstart
    exact ⟨ks, p, hrun', hls, hruns.beside.like⟩
  · obtain ⟨ls, o, hrun', hls, hruns⟩ := uncached_lockstep.run hrun hapart hstart
    exact ⟨ls, o, hrun', hls.flip.imp fun _ _ h => h.swap, hruns.beside.like⟩

theorem Hart.cache_unobservable_trap : ∃ ks p, ∃ u : Hart FlatMemory,
    Run Uncached (create (fun _ => 0) (FlatMemory.image [0x00500093])).run ks p ∧
      p.hart? = some u ∧ u.instrsExecuted = 1 ∧ u.view.csrf.mcause = 2 := by
  let h₀ := create (fun _ => 0) (FlatMemory.image [0x00500093])
  have hsome : (h₀.runFor 1).isSome = true := by decide +kernel
  obtain ⟨h, hr⟩ := Option.isSome_iff_exists.mp hsome
  obtain ⟨h₁, hr₁, hstep⟩ := Option.bind_eq_some_iff.mp hr
  have hapart : ∀ c ∈ [Call.step h₁] ++ [.step h], c.StoresApart := by
    refine List.forall_mem_cons.mpr ⟨?_, List.forall_mem_singleton.mpr ?_⟩
    · exact Call.storesApart_of_none (of_runFor
        (f := fun h => h.current.bind fun i => storeWidth i.operation) hr₁ (by decide +kernel))
    · exact Call.storesApart_of_none (of_runFor
        (f := fun h => h.current.bind fun i => storeWidth i.operation) hr (by decide +kernel))
  have hends : (h.step.hart?.map fun t => (t.instrsExecuted, t.csrf.mcause)) = some (1, 2) :=
    of_runFor (f := fun h => h.step.hart?.map fun t => (t.instrsExecuted, t.csrf.mcause)) hr
      (by decide +kernel)
  obtain ⟨t, ht, hshows⟩ := Option.map_eq_some_iff.mp hends
  obtain ⟨hexecuted, hmcause⟩ := Prod.mk.inj hshows
  have hrun : Run Handles h₀.run ([.step h₁] ++ [.step h]) h.step := by
    rw [Outcome.running?_eq_some.mp hr₁]
    refine .tail (t := .running h) (.single ?_) (.step h)
    rw [← Outcome.running?_eq_some.mp hstep]
    exact .step h₁
  obtain ⟨ks, p, hrun', -, ho⟩ := (cache_unobservable _ _).1 _ _ hrun hapart
  obtain ⟨u, hu, hseen⟩ := ho.hart ht
  obtain ⟨hview, hexecuted', -⟩ := seen_eq_iff.mp hseen
  exact ⟨ks, p, u, hrun', hu, hexecuted' ▸ hexecuted, hview ▸ hmcause⟩

/-- What a machine does with its blocks, its prefetcher and the pages of its RAM, in
any run to its end, a hart that keeps no block does on the image of the executable. -/
theorem Machine.runs_uncached {config : Config} {host : Host} (hs : config.Sound host)
    {load : String → Option Elfio} {reader : Elfio} (hr : config.Runnable load reader)
    (garbage : Register → RV64UDWord) :
    ∃ h, Machine.create load host garbage config = some (.ok h) ∧
      (∀ ls o, Run Handles h.run ls o → (∀ c ∈ ls, c.OnWord ∧ c.StoresApart) →
        ∃ ks p, Run Uncached (Hart.create garbage (config.image reader)).run ks p ∧
          List.Forall₂ Call.Like ls ks ∧ o.Like p) ∧
      ∀ ks p, Run Uncached (Hart.create garbage (config.image reader)).run ks p →
        (∀ c ∈ ks, c.OnWord ∧ c.StoresApart) →
        ∃ ls o, Run Handles h.run ls o ∧ List.Forall₂ Call.Like ls ks ∧ o.Like p := by
  obtain ⟨m, hcreate, hregular, hlaid, hflat⟩ := Machine.create_of_runnable hs hr
  rw [← hflat]
  have hm := Prefetcher.alike hregular hlaid
  have hstart := (Hart.created_shows hregular garbage).execBBEND hm rfl
  have hstart' := (Hart.created_shows hregular garbage).swap.execBBEND hm.swap rfl
  have hruns := Hart.runs_run garbage m.flat
  have hforth := (handles_lockstep hm).comp cached_lockstep
    (C := fun c => c.OnWord ∧ c.StoresApart) (fun c hc => hc.1) fun c d hc hd => hd.storesApart hc.2
  have hback := uncached_lockstep.comp (handles_lockstep hm.swap)
    (C := fun c => c.OnWord ∧ c.StoresApart) (fun c hc => hc.2) fun c d hc hd => hd.onWord hc.1
  refine ⟨_, hcreate garbage, fun ls o hrun hc => ?_, fun ks p hrun hc => ?_⟩
  · obtain ⟨ks, p, hrun', hls, q, ho, hp⟩ := hforth.run hrun hc ⟨_, hstart, hruns⟩
    refine ⟨ks, p, hrun', hls.imp ?_, (ho.like hm).trans hp.beside.like⟩
    rintro c e ⟨d, hcd, hde⟩
    exact hde.alike_left hm hcd
  · obtain ⟨ls, o, hrun', hls, q, hq, ho⟩ := hback.run hrun hc ⟨_, hruns, hstart'⟩
    refine ⟨ls, o, hrun', hls.flip.imp ?_, ((ho.like hm.swap).swap).trans hq.beside.like⟩
    rintro c e ⟨d, hed, hdc⟩
    exact (hed.alike_right hm.swap hdc).swap

theorem Machine.runs_uncached_addi : ∃ h : Hart Prefetcher, ∃ ls o t,
    Machine.create (fun _ => some addiFile) .willing (fun _ => 0) (usual "addi") = some (.ok h) ∧
      Run Handles h.run ls o ∧ o.hart? = some t ∧ t.view.gprf.read 1 = 5 := by
  let k₀ := Hart.create (fun _ => 0) ((usual "addi").image addiFile)
  have hsome : (k₀.runFor 0).isSome = true := by decide +kernel
  obtain ⟨k, hr⟩ := Option.isSome_iff_exists.mp hsome
  have hpc : k.pc = 0 := Hart.of_runFor (f := fun k => k.pc) hr (by decide +kernel)
  have hstore : (Call.step k).StoresApart := Call.storesApart_of_none (Hart.of_runFor
    (f := fun k => k.current.bind fun i => storeWidth i.operation) hr (by decide +kernel))
  have hends : (k.forget.step.hart?.map fun t => t.read 1) = some 5 :=
    Hart.of_runFor (f := fun k => k.forget.step.hart?.map fun t => t.read 1) hr (by decide +kernel)
  obtain ⟨t, ht, h5⟩ := Option.map_eq_some_iff.mp hends
  have hrun : Run Uncached k₀.run [.step k] k.forget.step := by
    rw [Outcome.running?_eq_some.mp hr]
    exact .single (.step k)
  obtain ⟨h, hcreate, -, hback⟩ :=
    runs_uncached (sound_usual "addi") (runnable_addi "addi") (fun _ => 0)
  have hword : (Call.step k).OnWord := by
    change k.pc.toNat % 4 = 0
    rw [hpc]
    rfl
  obtain ⟨ls, o, hrun', -, ho⟩ := hback _ _ hrun (List.forall_mem_singleton.mpr ⟨hword, hstore⟩)
  obtain ⟨u, hu, hseen⟩ := ho.swap.hart ht
  refine ⟨h, ls, o, u, hcreate, hrun', hu, ?_⟩
  rw [← (Hart.seen_eq_iff.mp hseen).1]
  exact h5

end Besm.Sim
