import Besm.Sim.Machine
import Besm.Sim.Programs
import Besm.Sim.Registers
import Besm.Sim.Retention

namespace Besm.E2eTest

open Besm.Exec Besm.Mem Besm.Sim Besm.Util Besm.Lib.Transition

/-- The word of `add`, with both sources zero. -/
def clear (k : Nat) : RV64UWord := 0x00000033 + BitVec.ofNat 32 (0x80 * (k + 1))

/-- The words that every test starts with: `add x1, x0, x0` and so on, to `add x31, x0, x0`. -/
def bootstrap : List RV64UWord := (List.range 31).map clear

def clears (k : Nat) : Register := BitVec.ofNat 8 (k + 1)

theorem parse_clear : ∀ k < 31, Dec.parse (clear k) =
    ⟨clears k, 0, 0, Instruction.immidiatePoison, .add⟩ := by
  decide +kernel

theorem bootstrap_get {k : Nat} (hk : k < 31) : bootstrap[k]? = some (clear k) := by
  rw [bootstrap, List.getElem?_map, List.getElem?_range hk]
  rfl

variable {M : Type} [Memory M] {h : Hart M} {j : Nat}
  {contents : (w : Width) → RV64Ptr → Except MemError (BitVec (8 * w.size))}

/-- The hart is about to clear a register, in memory that is as it was. -/
structure Booting (contents : (w : Width) → RV64Ptr → Except MemError (BitVec (8 * w.size)))
    (j : Nat) (h : Hart M) : Prop where
  primed : h.Primed
  mem : Memory.contents h.mem = contents
  pc : h.pc = 0 + BitVec.ofNat 64 (4 * j)
  fetched : h.fetchedWords ⊆ instrAddresses

/-- The word is carried out, or first the block that starts with it is entered. -/
theorem Booting.step [LawfulMemory M]
    (hcode : InCode instrAddresses contents (0 + BitVec.ofNat 64 (4 * j)))
    (hp : Placed contents 0 bootstrap) (hj : j < 31) (hb : Booting contents j h) :
    ∃ h', h.step = .running h' ∧ (Call.step h).reads ⊆ {GPRF.x0} ∧ (Booting contents j h' ∨
      Booting contents (j + 1) h' ∧ clears j ∈ (Call.step h).writes) := by
  obtain ⟨i, hcur⟩ := hb.primed.current
  have hreads : (∀ r ∈ sources i, r = GPRF.x0) → (Call.step h).reads ⊆ {GPRF.x0} := by
    rintro hall r ⟨i', hcur', hr⟩
    cases hcur.symm.trans hcur'
    exact hall r hr
  by_cases hop : i.operation = .bbEnd
  · have hcode' : InCode instrAddresses (Memory.contents h.mem) h.pc := by
      rw [hb.mem, hb.pc]
      exact hcode
    obtain ⟨h', hf, hv, hprimed, -, hsub⟩ :=
      Hart.fetchBB_inCode (poison_not_mem subset_rfl) hb.primed.slots hb.fetched hcode'
    have hstep : h.step = .running h' := by rw [Hart.step_bbEnd hcur hop, Hart.execBBEND, hf]
    refine ⟨h', hstep, hreads ?_, .inl ⟨hprimed, ?_, ?_, hsub⟩⟩
    · rw [sources, hop]
      exact fun r hr => absurd hr List.not_mem_nil
    · exact (congrArg View.contents hv).trans hb.mem
    · exact (congrArg (fun v : View => v.gprf.read GPRF.pc) hv).trans hb.pc
  · obtain ⟨word, hw, rfl⟩ := hb.primed.decoded hcur hop
    rw [hb.mem, hb.pc] at hw
    obtain rfl := Except.ok.inj (hw.symm.trans (hp j _ (bootstrap_get hj)))
    have he : effect (Dec.parse (clear j)) h.toArch = .next (h.write (clears j) 0).nextPC := by
      rw [parse_clear j hj]
      rfl
    obtain ⟨h', hstep, harch, hprimed, hsame⟩ := hb.primed.instr hcur hop
      (fun w hw => by rw [parse_clear j hj] at hw; cases hw) he
    refine ⟨h', hstep, hreads ?_, .inr ⟨⟨hprimed, ?_, ?_, hsame ▸ hb.fetched⟩, _, hcur, ?_, _, he⟩⟩
    · rw [parse_clear j hj]
      simp [sources, GPRF.x0]
    · rw [harch]
      exact hb.mem
    · have hlt : clears j < 32 := by
        have h := (Dec.parse_registers (clear j)).1
        rwa [parse_clear j hj] at h
      rw [harch, Arch.pc_nextPC, Arch.pc_write _ _ hlt, hb.pc]
      exact address_add 0 j 1
    · rw [parse_clear j hj]
      rfl

def Cleared (ls : List (Call M)) : Prop := ∀ k < 31, clears k ∈ written ls

inductive Boots (garbage : Register → RV64UDWord) (mem : M) : List (Call M) → Outcome M → Prop
  | start : Boots garbage mem [] (.returned (Hart.create garbage mem))
  | clearing {ls : List (Call M)} {h : Hart M} {j : Nat} (hj : j < 31)
      (hb : Booting (Memory.contents mem) j h)
      (hpc : ∀ c ∈ ls, c.before.pc ∈ codeAt 0 bootstrap) (hw : ∀ k < j, clears k ∈ written ls) :
      Boots garbage mem ls (.running h)
  | cleared {ls : List (Call M)} {o : Outcome M} (hw : Cleared ls) : Boots garbage mem ls o

theorem Cleared.mem {ls : List (Call M)} (hw : Cleared ls) {r : Register} (h0 : r ≠ 0)
    (hr : r < 32) : r ∈ written ls := by
  have hlt : r.toNat < 32 := BitVec.lt_def.mp hr
  have hpos : 0 < r.toNat := Nat.pos_of_ne_zero fun h => h0 (BitVec.eq_of_toNat_eq h)
  have heq : clears (r.toNat - 1) = r := by
    rw [clears, Nat.sub_add_cancel hpos, BitVec.ofNat_toNat, BitVec.setWidth_eq]
  rw [← heq]
  exact hw _ (by omega)

theorem Cleared.reads {ls : List (Call M)} (hw : Cleared ls) {c : Call M}
    (hr : Hart.Reachable c.before) : c.reads ⊆ insert GPRF.x0 (written ls) := by
  cases c with
  | run h => exact Set.empty_subset _
  | step h =>
    rintro r ⟨i, hcur, hsrc⟩
    have hlt : r < 32 := by
      obtain hop | hop | ⟨word, rfl⟩ := Hart.known_of_current hr hcur
      · rw [sources, hop] at hsrc
        cases hsrc
      · rw [sources, hop] at hsrc
        cases hsrc
      · obtain ⟨-, hrs1, hrs2⟩ := Dec.parse_registers word
        obtain rfl | hmem := List.mem_cons.mp (sources_subset _ hsrc)
        · exact hrs1
        · exact List.mem_singleton.mp hmem ▸ hrs2
    by_cases h0 : r = 0
    · exact .inl h0
    · exact .inr (hw.mem h0 hlt)

theorem Boots.call [LawfulMemory M] {garbage : Register → RV64UDWord} {mem : M}
    (hcode : ∀ j < 31, InCode instrAddresses (Memory.contents mem) (0 + BitVec.ofNat 64 (4 * j)))
    (hp : Placed (Memory.contents mem) 0 bootstrap) {ls : List (Call M)} {o o' : Outcome M}
    {ls' : List (Call M)} (hb : Boots garbage mem ls o) (hi : Initialised ls)
    (hr : ∀ t, o.hart? = some t → Hart.Reachable t) (hc : Calls o ls' o') :
    Boots garbage mem (ls ++ ls') o' ∧ Initialised (ls ++ ls') := by
  have hmono : ∀ c, written ls ⊆ written (ls ++ [c]) := fun c => by
    rw [written_append_singleton]
    exact Set.subset_union_left
  cases hb with
  | start =>
    cases hc with
    | @run _ h hcaller =>
      obtain rfl : Hart.create garbage mem = h := Option.some.inj hcaller
      have hnone : (Hart.create garbage mem).fetchedWords ⊆ instrAddresses := by
        rintro a ⟨bb, hbb, -⟩
        exact absurd hbb List.not_mem_nil
      obtain ⟨h', hf, hv, hprimed, -, hsub⟩ := Hart.fetchBB_inCode
        (h := Hart.create garbage mem) (poison_not_mem subset_rfl) (fun _ => .inl rfl) hnone
        (hcode 0 (by decide))
      refine ⟨?_, initialised_append_singleton.mpr ⟨hi, Set.empty_subset _⟩⟩
      rw [Hart.run, Hart.execBBEND, hf]
      refine .clearing (j := 0) (by decide) ⟨hprimed, congrArg View.contents hv,
        congrArg (fun v : View => v.gprf.read GPRF.pc) hv, hsub⟩ ?_
        fun k hk => absurd hk k.not_lt_zero
      exact List.forall_mem_singleton.mpr ⟨0, by decide, rfl⟩
  | @clearing _ h j hj hb hpc hw =>
    cases hc with
    | step =>
      obtain ⟨h', hstep, hreads, hnext⟩ := hb.step (hcode j hj) hp hj
      have hpc' : ∀ c ∈ ls ++ [.step h], c.before.pc ∈ codeAt 0 bootstrap :=
        List.forall_mem_append.mpr ⟨hpc, List.forall_mem_singleton.mpr ⟨j, hj, hb.pc⟩⟩
      refine ⟨?_, initialised_append_singleton.mpr ⟨hi, hreads.trans ?_⟩⟩
      · rw [hstep]
        obtain hb' | ⟨hb', hclear⟩ := hnext
        · exact .clearing hj hb' hpc' fun k hk => hmono _ (hw k hk)
        · have hw' : ∀ k < j + 1, clears k ∈ written (ls ++ [.step h]) := by
            intro k hk
            obtain hk | rfl := Nat.lt_succ_iff_lt_or_eq.mp hk
            · exact hmono _ (hw k hk)
            · rw [written_append_singleton]
              exact .inr hclear
          by_cases hlast : j + 1 < 31
          · exact .clearing hlast hb' hpc' hw'
          · exact .cleared fun k hk => hw' k (by omega)
      · exact Set.singleton_subset_iff.mpr (Set.mem_insert _ _)
    | run hcaller => cases hcaller
  | cleared hw =>
    cases hc with
    | step h =>
      refine ⟨.cleared fun k hk => hmono _ (hw k hk), ?_⟩
      exact initialised_append_singleton.mpr ⟨hi, hw.reads (c := .step h) (hr h rfl)⟩
    | run hcaller =>
      refine ⟨.cleared fun k hk => hmono _ (hw k hk), ?_⟩
      exact initialised_append_singleton.mpr ⟨hi, Set.empty_subset _⟩

/-- A run of a program that starts with these words reads no register that it has
not written. -/
theorem initialised_bootstrap [LawfulMemory M] {garbage : Register → RV64UDWord} {mem : M}
    (hcode : ∀ j < 31, InCode instrAddresses (Memory.contents mem) (0 + BitVec.ofNat 64 (4 * j)))
    (hp : Placed (Memory.contents mem) 0 bootstrap) {ls : List (Call M)} {o : Outcome M}
    (hrun : Run Calls (.returned (Hart.create garbage mem)) ls o) :
    Boots garbage mem ls o ∧ Initialised ls := by
  have hreach := hrun.invariant (fun _ _ _ => Hart.reachable_call)
    (Hart.reachable_initial ⟨garbage, mem, rfl⟩)
  induction hrun with
  | refl => exact ⟨.start, initialised_nil⟩
  | tail hrun hc ih =>
    have hr := hrun.invariant (fun _ _ _ => Hart.reachable_call)
      (Hart.reachable_initial ⟨garbage, mem, rfl⟩)
    obtain ⟨hb, hi⟩ := ih hr
    exact hb.call hcode hp hi hr hc

theorem Boots.cleared_of_past {garbage : Register → RV64UDWord} {mem : M} {ls : List (Call M)}
    {o : Outcome M} (hb : Boots garbage mem ls o)
    (hpast : ∃ c ∈ ls, c.before.pc ∉ codeAt 0 bootstrap) : Cleared ls := by
  obtain ⟨c, hc, hpc⟩ := hpast
  cases hb with
  | start => cases hc
  | clearing hj hb hall hw => exact absurd (hall c hc) hpc
  | cleared hw => exact hw

/-- A machine that runs a program with this start does the same, whatever its
registers held when it was constructed, and after the start they are the same too. -/
theorem machine_bootstrap {config : Config} {host : Host} (hs : config.Sound host)
    {load : String → Option Elfio} {reader : Elfio} (hr : config.Runnable load reader)
    (hcode : ∀ j < 31, InCode instrAddresses (Memory.contents (config.image reader))
      (0 + BitVec.ofNat 64 (4 * j)))
    (hp : Placed (Memory.contents (config.image reader)) 0 bootstrap)
    (garbage garbage' : Register → RV64UDWord) : ∃ m,
      Machine.create load host garbage config =
        some (.ok (Hart.create garbage (Prefetcher.create ⟨m⟩))) ∧
      Machine.create load host garbage' config =
        some (.ok (Hart.create garbage' (Prefetcher.create ⟨m⟩))) ∧
      ∀ ls o, Run Calls (.returned (Hart.create garbage (Prefetcher.create ⟨m⟩))) ls o →
        (∀ l ∈ ls, l.OnWord) →
        ∃ ks p, Run Calls (.returned (Hart.create garbage' (Prefetcher.create ⟨m⟩))) ks p ∧
          ks.map (Call.restrict ∅) = ls.map (Call.restrict ∅) ∧
          p.restrict (written ls) = o.restrict (written ls) ∧
          ((∃ c ∈ ls, c.before.pc ∉ codeAt 0 bootstrap) → ∀ r ≠ 0, r < 32 → r ∈ written ls) := by
  obtain ⟨m, hcreate, hregular, hlaid, hflat⟩ := Machine.create_of_runnable hs hr
  refine ⟨m, hcreate garbage, hcreate garbage', fun ls o hrun hword => ?_⟩
  rw [← hflat] at hcode hp
  have hm := Prefetcher.alike hregular hlaid
  obtain ⟨fs, q, hflatRun, hfs, -⟩ :=
    Hart.runs_alike hm (Hart.created_shows hregular garbage) hrun hword
  obtain ⟨hb, hi⟩ := initialised_bootstrap hcode hp hflatRun
  obtain ⟨ks, p, hrun', hmap, hp'⟩ :=
    Hart.registers_unobservable garbage garbage' _ hrun (initialised_alike hm hfs hi)
  refine ⟨ks, p, hrun', hmap, hp', ?_⟩
  rintro ⟨c, hc, hpc⟩ r h0 hlt
  have hin : c.before.pc ∈ ls.map fun c => c.before.pc := List.mem_map.mpr ⟨c, hc, rfl⟩
  rw [pcs_alike hfs] at hin
  obtain ⟨d, hd, heq⟩ := List.mem_map.mp hin
  rw [written_alike hm hfs]
  exact (hb.cleared_of_past ⟨d, hd, heq ▸ hpc⟩).mem h0 hlt

def startWords : List RV64UWord := bootstrap ++ [0x00700293, 0x00128313]

theorem placed_bootstrap : Placed
    (Memory.contents ((Machine.usual "start").image (Machine.wordsFile startWords))) 0 bootstrap :=
  placed_of_forall (by decide +kernel : ∀ k < 31,
    ((Machine.usual "start").image (Machine.wordsFile startWords)).load .word
      (0 + BitVec.ofNat 64 (4 * k)) = .ok (bootstrap.getD k 0))

theorem machine_bootstrap_usual : ∃ h h' : Hart Prefetcher, ∃ ks t,
    Machine.create (fun _ => some (Machine.wordsFile startWords)) .willing (fun _ => 0)
        (Machine.usual "start") = some (.ok h) ∧
      Machine.create (fun _ => some (Machine.wordsFile startWords)) .willing (fun _ => 0xBAD)
        (Machine.usual "start") = some (.ok h') ∧
      Run Calls (.returned h') ks (.running t) ∧ t.read 5 = 7 ∧ t.read 6 = 8 ∧ t.read 31 = 0 := by
  have hcode : ∀ j < 31, InCode instrAddresses
      (Memory.contents ((Machine.usual "start").image (Machine.wordsFile startWords)))
      (0 + BitVec.ofNat 64 (4 * j)) := by
    intro j hj
    refine (Machine.inCode_usual _ _ (@codeAt_aligned bootstrap _ ⟨j, hj, rfl⟩) ?_).mono
      Machine.lowerHalf_subset
    change (0#64 + BitVec.ofNat 64 (4 * j)).toNat < _
    rw [BitVec.zero_add, BitVec.toNat_ofNat]
    omega
  have hr := Machine.runnable_words "start" (by decide : startWords.length < 0x10000000)
  obtain ⟨m, hcreate, hcreate', hall⟩ := machine_bootstrap (Machine.sound_usual "start") hr hcode
    placed_bootstrap (fun _ => 0) (fun _ => 0xBAD)
  let k₀ := Hart.create (fun _ => 0) ((Machine.usual "start").image (Machine.wordsFile startWords))
  have hsome : (k₀.runFor 37).isSome = true := by decide +kernel
  obtain ⟨k, hk⟩ := Option.isSome_iff_exists.mp hsome
  have hread : (k.read 5, k.read 6, k.read 31) = (7, 8, 0) :=
    Hart.of_runFor (f := fun k => (k.read 5, k.read 6, k.read 31)) hk (by decide +kernel)
  have hword : ∀ c ∈ k₀.callsFor 37, c.before.pc.toNat % 4 = 0 := by decide +kernel
  have hpast : ∃ c ∈ k₀.callsFor 37, c.before.pc = 124 := by decide +kernel
  obtain ⟨ls, o, hrun, honword, hls, ho⟩ :=
    Machine.runs_image (Machine.sound_usual "start") hr hcreate (Hart.runs_callsFor hk) hword
  obtain ⟨ks, p, hrun', -, hp, hwritten⟩ := hall ls o hrun honword
  have hout : (124 : RV64Ptr) ∉ codeAt 0 bootstrap := by
    rintro ⟨j, hj, heq⟩
    exact (by decide : ∀ j < 31, (124 : RV64Ptr) ≠ 0 + BitVec.ofNat 64 (4 * j)) j hj heq
  have hin : ∀ r ≠ 0, r < 32 → r ∈ written ls := by
    have hmem := List.mem_map.mpr hpast
    rw [pcs_alike hls] at hmem
    obtain ⟨c, hc, hpc⟩ := List.mem_map.mp hmem
    exact hwritten ⟨c, hc, hpc ▸ hout⟩
  cases ho with
  | @running _ g ha =>
    cases p with
    | running t =>
      have hsame : ∀ r ≠ 0, r < 32 → t.read r = k.read r := fun r h0 hlt => by
        have hmem : r ∈ written ls := hin r h0 hlt
        have h := congrArg (fun h : Hart Prefetcher => h.gprf.read r) (Outcome.running.inj hp)
        rw [Arch.read, Arch.read, ha.gprf, ← GPRF.read_restrict t.gprf (.inr (.inr hmem))]
        exact h.trans (GPRF.read_restrict g.gprf (.inr (.inr hmem)))
      have h5 := hsame 5 (by decide) (by decide)
      have h6 := hsame 6 (by decide) (by decide)
      have h31 := hsame 31 (by decide) (by decide)
      obtain ⟨r5, r6, r31⟩ : k.read 5 = 7 ∧ k.read 6 = 8 ∧ k.read 31 = 0 := by
        simpa only [Prod.mk.injEq] using hread
      exact ⟨_, _, ks, t, hcreate, hcreate', hrun', h5.trans r5, h6.trans r6, h31.trans r31⟩
    | _ => cases hp

end Besm.E2eTest
