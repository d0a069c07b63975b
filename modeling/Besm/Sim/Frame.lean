import Besm.Sim.Jumps
import Besm.Sim.Refinement

namespace Besm.Exec

theorem GPRF.read_write_apart (g : GPRF) {regId r : Register} (value : RV64UDWord)
    (h : r ≠ regId ∨ regId = x0) : (g.write regId value).read r = g.read r := by
  obtain h | rfl := h
  · exact read_write_of_ne g value h
  · by_cases hr : r = x0
    · rw [hr, read_x0, read_x0]
    · exact read_write_of_ne g value hr

end Besm.Exec

namespace Besm.Sim

open Besm.Exec Besm.Mem Besm.Util Besm.Lib.Encoding

def writesRd : InstructionOp → Bool
  | .beq | .bne | .blt | .bge | .bltu | .bgeu | .sb | .sh | .sw | .sd => false
  | .fence | .fenceTso | .pause | .ecall | .ebreak | .sret | .mret | .invOp | .bbEnd => false
  | _ => true

def Trapped {M : Type} [Memory M] (i : Instruction) (s : Arch M) : Prop :=
  ∃ id t r, effect i s = .raise id t r

def storeAddress {M : Type} (w : Word) (s : Arch M) : RV64Ptr :=
  s.read ((rs1 w).setWidth 8) + (immS w).signExtend 64

/-- What an instruction may change of the state. -/
structure Frame (w : Word) (s s' : Arch FlatMemory) : Prop where
  x0 : s'.read GPRF.x0 = 0
  others : ∀ x : BitVec 5, x ≠ rd w → s'.read (x.setWidth 8) = s.read (x.setWidth 8)
  kept : writesRd (Dec.parse w).operation = false ∨ Trapped (Dec.parse w) s →
    ∀ x : BitVec 5, s'.read (x.setWidth 8) = s.read (x.setWidth 8)
  mem : storeWidth (Dec.parse w).operation = none → s'.mem = s.mem
  stored : ∀ width, storeWidth (Dec.parse w).operation = some width → s'.mem.mapped = s.mem.mapped ∧
    ∀ a, (∀ k < width.size, a ≠ storeAddress w s + BitVec.ofNat 64 k) →
      s'.mem.bytes a = s.mem.bytes a
  csrf : isCSR (Dec.parse w).operation = false → (Dec.parse w).operation ≠ .mret →
    ¬Trapped (Dec.parse w) s → s'.csrf = s.csrf
  pc : (Dec.parse w).operation ≠ .jal → (Dec.parse w).operation ≠ .jalr → ¬BranchHolds w s →
    (Dec.parse w).operation ≠ .mret → (Dec.parse w).operation ≠ .ebreak →
    ¬Trapped (Dec.parse w) s → s'.pc = s.pc + 4

section Effects

variable {M : Type} {i : Instruction} {s s' : Arch M}

theorem isCSR_of_csrWrite {f : RV64UDWord → RV64UDWord} (h : csrWrite i s = some f) :
    isCSR i.operation = true := by
  unfold csrWrite at h
  cases hop : i.operation <;> rw [hop] at h <;> first | rfl | cases h

variable [Memory M]

theorem read_of_advances (h : Advances i s s') {x : Register} (hx : x < 32)
    (hne : x ≠ i.rd ∨ i.rd = GPRF.x0) : s'.read x = s.read x := by
  have hwrite : ∀ (t : Arch M) value, (t.write i.rd value).read x = t.read x :=
    fun t value => GPRF.read_write_apart t.gprf value hne
  cases h with
  | retire value => rw [Arch.read_nextPC _ hx, hwrite]
  | fence => exact Arch.read_nextPC s hx
  | jal => rw [Arch.read_setPC _ _ hx, hwrite]
  | jalr => rw [Arch.read_setPC _ _ hx, hwrite]
  | taken => exact Arch.read_setPC s _ hx
  | notTaken => exact Arch.read_nextPC s hx
  | load w value =>
    rw [Arch.read_nextPC _ hx, hwrite]
    rfl
  | store w hop value => exact Arch.read_nextPC { s with mem := _ } hx
  | csrRead value => rw [Arch.read_nextPC _ hx, hwrite]
  | csrWrite f =>
    rw [Arch.read_nextPC _ hx, hwrite]
    rfl
  | mret => exact Arch.read_setPC { s with csrf := _ } _ hx

theorem read_of_branch (hop : isBranch i.operation = true) (he : effect i s = .next s')
    {x : Register} (hx : x < 32) : s'.read x = s.read x := by
  rw [effect_branch hop] at he
  obtain rfl := Effect.next.inj he
  cases branchTaken i s with
  | true => exact Arch.read_setPC s _ hx
  | false => exact Arch.read_nextPC s hx

theorem read_of_store {width : Width} (he : s.store i width = .next s') {x : Register}
    (hx : x < 32) : s'.read x = s.read x := by
  unfold Arch.store at he
  split at he
  · obtain rfl := Effect.next.inj he
    exact Arch.read_nextPC { s with mem := _ } hx
  · cases he

theorem read_of_effect (hop : writesRd i.operation = false) (hend : i.operation ≠ .bbEnd)
    (he : effect i s = .next s') {x : Register} (hx : x < 32) : s'.read x = s.read x := by
  by_cases hbr : isBranch i.operation = true
  · exact read_of_branch hbr he hx
  unfold effect at he
  cases hi : i.operation <;> rw [hi] at hop hbr he <;> dsimp only [handlerArr] at he
  case sb | sh | sw | sd => exact read_of_store he hx
  case fence | fenceTso =>
    obtain rfl := Effect.next.inj he
    exact Arch.read_nextPC s hx
  case invOp | pause | ebreak | sret => cases he
  case ecall =>
    unfold execECALL at he
    split_ifs at he
  case mret =>
    unfold execMRET at he
    split_ifs at he with hp
    · cases he
    obtain rfl := Effect.next.inj he
    exact Arch.read_setPC { s with csrf := _ } _ hx
  case bbEnd => exact absurd hi hend
  case beq | bne | blt | bge | bltu | bgeu => exact absurd rfl hbr
  all_goals cases hop

theorem csrf_of_advances_plain (h : Advances i s s') (hcsr : isCSR i.operation = false)
    (hmret : i.operation ≠ .mret) : s'.csrf = s.csrf := by
  cases h with
  | csrWrite f hf =>
    rw [isCSR_of_csrWrite hf] at hcsr
    cases hcsr
  | mret _ hop => exact absurd hop hmret
  | _ => rfl

theorem isJump_of_effect (he : effect i s = .next s') (hbr : isBranch i.operation = false)
    (hjal : i.operation ≠ .jal) (hjalr : i.operation ≠ .jalr) (hmret : i.operation ≠ .mret) :
    i.isJump = false := by
  unfold effect at he
  unfold Instruction.isJump
  cases hop : i.operation <;> rw [hop] at he hbr hjal hjalr hmret
  case sret => cases he
  case ecall =>
    change execECALL i s = _ at he
    unfold execECALL at he
    split_ifs at he
  case jal => exact absurd rfl hjal
  case jalr => exact absurd rfl hjalr
  case mret => exact absurd rfl hmret
  case beq | bne | blt | bge | bltu | bgeu => cases hbr
  all_goals rfl

end Effects

section Flat

variable {w : Word} {s s' : Arch FlatMemory}

theorem mem_of_advances_plain {i : Instruction} (h : Advances i s s')
    (hop : storeWidth i.operation = none) : s'.mem = s.mem := by
  cases h with
  | store w hw =>
    rw [hop] at hw
    cases hw
  | _ => rfl

theorem bytes_store (m : FlatMemory) (width : Width) (a x : RV64Ptr) (v : BitVec (8 * width.size)) :
    (m.store width a v).2.mapped = m.mapped ∧
      ((∀ k < width.size, x ≠ a + BitVec.ofNat 64 k) → (m.store width a v).2.bytes x = m.bytes x) := by
  unfold FlatMemory.store
  cases m.refuses width a with
  | some e => exact ⟨rfl, fun _ => rfl⟩
  | none =>
    exact ⟨rfl, fun hx => FlatMemory.write_bytes_apart m width v fun k hk he => hx k hk he.symm⟩

theorem address_of_store {width : Width} (hop : storeWidth (Dec.parse w).operation = some width)
    (s : Arch FlatMemory) : s.address (Dec.parse w) = storeAddress w s := by
  have hs : ∃ f3, Dec.form (Dec.parse w).operation = some (.s 0b0100011 f3) ∧
      Dec.loose (Dec.parse w).operation = false := by
    revert hop
    cases (Dec.parse w).operation <;> intro hop
    case sb | sh | sw | sd => exact ⟨_, rfl, rfl⟩
    all_goals cases hop
  obtain ⟨f3, hf, hl⟩ := hs
  rw [Arch.address, Dec.parse_s rfl hl hf, storeAddress, ← imm_signExtend]

theorem frame_of_next (he : effect (Dec.parse w) s = .next s') : Frame w s s' where
  x0 := GPRF.read_x0 _
  others x hx := by
    have hadv := advances_of_effect (Dec.parse_ne_bbEnd w) he
    refine read_of_advances hadv (register_lt x) ?_
    obtain hrd | hrd := Dec.parse_rd w
    · rw [hrd]
      exact .inl fun h => hx ((setWidth_eq_iff (by decide)).mp h)
    · exact .inr hrd
  kept h x := by
    obtain h | ⟨id, t, r, ht⟩ := h
    · exact read_of_effect h (Dec.parse_ne_bbEnd w) he (register_lt x)
    · rw [he] at ht
      cases ht
  mem h := mem_of_advances_plain (advances_of_effect (Dec.parse_ne_bbEnd w) he) h
  stored width hw := by
    have ha := address_of_store hw s
    cases advances_of_effect (Dec.parse_ne_bbEnd w) he with
    | store width' hw' value =>
      obtain rfl : width' = width := Option.some.inj (hw'.symm.trans hw)
      rw [← ha]
      exact ⟨(bytes_store s.mem width' _ 0 value).1,
        fun a h => (bytes_store s.mem width' _ a value).2 h⟩
    | _ => exact ⟨rfl, fun _ _ => rfl⟩
  csrf hcsr hmret _ :=
    csrf_of_advances_plain (advances_of_effect (Dec.parse_ne_bbEnd w) he) hcsr hmret
  pc hjal hjalr hbr hmret _ _ := by
    by_cases hbranch : isBranch (Dec.parse w).operation = true
    · rw [effect_parse_branch s hbranch, if_neg hbr] at he
      rw [← Effect.next.inj he, Arch.pc_setPC]
    · exact pc_of_advances (Dec.parse_registers w).1
        (isJump_of_effect he (by simpa using hbranch) hjal hjalr hmret)
        (advances_of_effect (Dec.parse_ne_bbEnd w) he)

theorem frame_of_kept (hx : ∀ x : BitVec 5, s'.read (x.setWidth 8) = s.read (x.setWidth 8))
    (hm : s'.mem = s.mem)
    (h : Trapped (Dec.parse w) s ∨ (Dec.parse w).operation = .ebreak ∧ s'.csrf = s.csrf) :
    Frame w s s' where
  x0 := GPRF.read_x0 _
  others x _ := hx x
  kept _ := hx
  mem _ := hm
  stored _ _ := by
    rw [hm]
    exact ⟨rfl, fun _ _ => rfl⟩
  csrf _ _ ht := (h.resolve_left ht).2
  pc _ _ _ _ hne ht := absurd (h.resolve_left ht).1 hne

namespace Hart

theorem assembleLoop_mem (fuel : Nat) (r : BasicBlockRebuilder) (pc : RV64Ptr) (m : FlatMemory) :
    (assembleLoop fuel r pc m).2.2 = m := by
  induction fuel generalizing r pc with
  | zero => rfl
  | succ fuel ih =>
    unfold assembleLoop
    rw [show Memory.fetchWord m pc = (m.load .word pc, m) from rfl]
    obtain e | word := m.load .word pc
    · rfl
    · dsimp only
      obtain ⟨_ | _, r'⟩ := r.append (Dec.parse word)
      · rfl
      · exact ih r' _

theorem mem_fetchBB (h : Hart FlatMemory) : h.fetchBB.2.mem = h.mem := by
  unfold fetchBB
  obtain ⟨_ | _, index, cache⟩ := h.bbCache.lookup h.pc
  · have hm := assembleLoop_mem (BasicBlock.kCapacity - 1)
      (BasicBlockRebuilder.create (cache.bbs index) h.pc) h.pc h.mem
    dsimp only [assembleBB]
    revert hm
    rcases assembleLoop (BasicBlock.kCapacity - 1)
      (BasicBlockRebuilder.create (cache.bbs index) h.pc) h.pc h.mem with ⟨_ | _, bb, mem⟩ <;>
      exact id
  · rfl

theorem kept_of_raise {h t h' : Hart FlatMemory} {id : ExceptionId} {r : Resume}
    (ht : h.raiseException id = (.ok (), t))
    (hstep : t.resume r = .running h' ∨ t.resume r = .returned h') :
    (∀ x : Register, x < 32 → h'.read x = h.read x) ∧ h'.mem = h.mem := by
  have hmem : t.mem = h.mem := by
    have hm := mem_fetchBB (h.withArch (h.toArch.raiseException id))
    rw [show (h.withArch (h.toArch.raiseException id)).fetchBB = (.ok (), t) from ht] at hm
    exact hm
  have hread : ∀ x : Register, x < 32 → t.read x = h.read x := by
    intro x hx
    have hg := gprf_raiseException h id
    rw [ht] at hg
    change t.gprf.read x = _
    rw [hg]
    exact GPRF.read_write_of_ne _ _ fun he => absurd (he ▸ hx) (by decide)
  obtain hr | hr := hstep
  · obtain ⟨-, -, hm, -, -, hx, -⟩ := resume_running hr
    exact ⟨fun x hlt => (hx x hlt).trans (hread x hlt), hm.trans hmem⟩
  · have hhart : (t.resume r).hart? = some h' := by
      rw [hr]
      rfl
    obtain ⟨-, rfl⟩ | hrun := resume_hart? hhart
    · exact ⟨hread, hmem⟩
    · rw [hr] at hrun
      cases hrun

/-- The frame of every instruction that completes without a memory exception. -/
theorem step_frame {h h' : Hart FlatMemory} {w : Word} (hcur : h.current = some (Dec.parse w))
    (hstep : h.step = .running h' ∨ h.step = .returned h') :
    Frame w h.toArch h'.toArch ∧ (Dec.parse w).rd ≠ GPRF.pc ∧ (Dec.parse w).rs1 ≠ GPRF.pc ∧
      (Dec.parse w).rs2 ≠ GPRF.pc := by
  have hpc : ∀ r : Register, r < 32 → r ≠ GPRF.pc := by
    rintro r hr rfl
    exact absurd hr (by decide)
  obtain ⟨hrd, hrs1, hrs2⟩ := Dec.parse_registers w
  refine ⟨?_, hpc _ hrd, hpc _ hrs1, hpc _ hrs2⟩
  have hcur' : ∀ i, h.current = some i → i = Dec.parse w :=
    fun i hi => Option.some.inj (hi.symm.trans hcur)
  have hc := h.comes_step
  generalize h.step = o at hc hstep
  have hno : ∀ e t, o ≠ .thrown e t := by
    rintro e t rfl
    obtain hr | hr := hstep <;> cases hr
  cases hc with
  | undefined => obtain hr | hr := hstep <;> cases hr
  | fetched hi hop => exact absurd (hcur' _ hi ▸ hop) (Dec.parse_ne_bbEnd w)
  | unfetched => exact absurd rfl (hno _ _)
  | next hi hop he ht =>
    obtain rfl := hcur' _ hi
    obtain hr | hr := hstep <;> cases hr
    obtain ⟨p, i, -, -, rfl⟩ := execNextInstr_running ht
    exact frame_of_next he
  | trapped hi hop he ht ho =>
    obtain rfl := hcur' _ hi
    rw [← ho] at hstep
    obtain ⟨hx, hm⟩ := kept_of_raise ht hstep
    exact frame_of_kept (fun x => hx _ (register_lt x)) hm (.inl ⟨_, _, _, he⟩)
  | untrapped => exact absurd rfl (hno _ _)
  | ret hi hop =>
    obtain rfl := hcur' _ hi
    obtain hr | hr := hstep <;> cases hr
    exact frame_of_kept (fun _ => rfl) rfl (.inr ⟨hop, rfl⟩)
  | throw => exact absurd rfl (hno _ _)
  | terminate => obtain hr | hr := hstep <;> cases hr

theorem step_frame_addi :
    ∃ h h' : Hart FlatMemory,
      (Hart.create (fun _ => 0) (FlatMemory.image [0x00500093])).runFor 0 = some h ∧
      h.step = .running h' ∧ Frame 0x00500093 h.toArch h'.toArch := by
  let h₀ := Hart.create (fun _ => 0) (FlatMemory.image [0x00500093])
  have hsome : (h₀.runFor 1).isSome = true := by decide +kernel
  obtain ⟨h', hr'⟩ := Option.isSome_iff_exists.mp hsome
  obtain ⟨h, hr, hstep⟩ := Option.bind_eq_some_iff.mp hr'
  rw [Outcome.running?_eq_some] at hstep
  have hcur : h.current = some (Dec.parse 0x00500093) :=
    of_runFor (f := fun h => h.current) hr (by decide +kernel)
  exact ⟨h, h', hr, hstep, (step_frame hcur (.inl hstep)).1⟩

end Hart

end Flat

end Besm.Sim
