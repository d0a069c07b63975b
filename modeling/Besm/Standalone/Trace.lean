import Besm.Sim.Accounting
import Besm.Sim.Hooks
import Besm.Sim.Machine

namespace Besm.Mem.MappedMemory

theorem load_store (m : MappedMemory) {w : Width} {a : RV64Ptr} {v : BitVec (8 * w.size)}
    (h : (m.store w a v).1 = .ok ()) : (m.store w a v).2.load w a = .ok v := by
  have hmapped := m.store_mapped w a v
  unfold load
  rw [hmapped]
  unfold store FlatMemory.store at h ⊢
  split_ifs at h ⊢ with hm
  cases hr : m.flat.refuses w a with
  | some e =>
    rw [hr] at h
    cases h
  | none =>
    change (m.flat.write w a v).load w a = _
    rw [FlatMemory.load, FlatMemory.refuses_congr (m.flat.write_mapped w a v), hr]
    exact congrArg Except.ok (m.flat.read_write w a v)

end Besm.Mem.MappedMemory

namespace Besm.Standalone

open Besm.Exec Besm.Mem Besm.Sim Besm.Util Besm.Lib.Transition

inductive TraceLine
  | instr (pc : RV64Ptr) (mnem : String)
  | reg (rd : Register) (value : RV64UDWord)
  | pc (value : RV64UDWord)
  | mem (addr : RV64UDWord) (val : RV64UDWord)
  deriving DecidableEq, Repr

abbrev Disassembler := RV64UWord → RV64Ptr → Option String

def strToupper (s : String) : String := s.map Char.toUpper

/-- The mnemonic in capital letters, with two of the pseudo instructions undone. -/
def mnemonic (disassembled : String) : String :=
  let mnem := strToupper disassembled
  let mnem := if mnem = "MV" then "ADDI" else mnem
  if mnem = "BNEZ" then "BNE" else mnem

/-- The listener of the standalone program. -/
structure Trace where
  currentPC : RV64Ptr
  traceFile : List TraceLine

def registerLines (pc : RV64Ptr) (disassembled : String) (instr : Instruction) (gprf : GPRF) :
    List TraceLine :=
  .instr pc (mnemonic disassembled) ::
    ((if instr.rd ≠ GPRF.x0 then [.reg instr.rd (gprf.read instr.rd)] else []) ++
      if instr.isJump then [.pc (gprf.read GPRF.pc)] else [])

namespace Trace

def create : Trace := ⟨0, []⟩

def onBBFetch (t : Trace) (bb : BasicBlock) : Trace := { t with currentPC := bb.pc }

/-- The callback sees the hart after the instruction. Its two loads may move the
caches of the memory, or throw. -/
def onInstrExecuted {M : Type} [Memory M] (disasm : Disassembler) (t : Trace) (hart : Arch M)
    (instr : Instruction) : Except MemError Unit × M × Trace :=
  match Memory.load hart.mem .word t.currentPC with
  | (.error e, mem) => (.error e, mem, t)
  | (.ok bytecode, mem) =>
    match disasm bytecode t.currentPC with
    | none => (.ok (), mem, { t with currentPC := t.currentPC + 4 })
    | some disassembled =>
      let file := t.traceFile ++ registerLines t.currentPC disassembled instr hart.gprf
      match storeWidth instr.operation with
      | none => (.ok (), mem, ⟨t.currentPC + 4, file⟩)
      | some w =>
        match Memory.load mem w (hart.address instr) with
        | (.error e, mem) => (.error e, mem, ⟨t.currentPC, file⟩)
        | (.ok val, mem) =>
          (.ok (), mem, ⟨t.currentPC + 4, file ++ [.mem (hart.address instr) (val.setWidth 64)]⟩)

def hear {M : Type} [Memory M] (disasm : Disassembler) (t : Trace) (hart : Arch M) :
    HookEvent → Except MemError Unit × M × Trace
  | .bbFetched bb => (.ok (), hart.mem, t.onBBFetch bb)
  | .instrExecuted instr => t.onInstrExecuted disasm hart instr

end Trace

section Listeners

variable {M : Type} [Memory M]

def listeners (disasm : Disassembler) : List (Callback (Hart M × Trace)) :=
  [.bbFetch fun bb (h, t) => .ok (h, t.onBBFetch bb),
   .instrExecuted fun instr (h, t) =>
      match t.onInstrExecuted disasm h.toArch instr with
      | (.error e, _, _) => .error (.thrown e)
      | (.ok (), mem, t) => .ok ({ h with mem := mem }, t)]

def initVerboseLogging (disasm : Disassembler) : HookManager (Hart M × Trace) :=
  (listeners disasm).foldl HookManager.register .create

/-- Each event is heard by the one callback that is meant for it. -/
theorem trigger_ok_iff {disasm : Disassembler} {e : HookEvent} {h g : Hart M} {t t' : Trace} :
    (initVerboseLogging disasm).doTriggerHooks e (h, t) = .ok (g, t') ↔
      ∃ mem, t.hear disasm h.toArch e = (.ok (), mem, t') ∧ g = { h with mem := mem } := by
  rw [initVerboseLogging, HookManager.doTriggerHooks_registered]
  cases e with
  | bbFetched bb =>
    simp only [listeners, List.filterMap, Callback.listens, List.foldlM_cons, List.foldlM_nil, bind_pure,
      Trace.hear]
    constructor
    · intro heq
      cases heq
      exact ⟨h.mem, rfl, rfl⟩
    · rintro ⟨mem, heq, rfl⟩
      cases heq
      rfl
  | instrExecuted instr =>
    simp only [listeners, List.filterMap, Callback.listens, List.foldlM_cons, List.foldlM_nil, bind_pure,
      Trace.hear]
    obtain ⟨_ | _, mem, t₁⟩ := t.onInstrExecuted disasm h.toArch instr
    · exact ⟨nofun, fun ⟨_, heq, _⟩ => nomatch heq⟩
    · constructor
      · intro heq
        cases heq
        exact ⟨mem, rfl, rfl⟩
      · rintro ⟨mem', heq, rfl⟩
        cases heq
        rfl

end Listeners

inductive TracedStep {M : Type} [Memory M] (disasm : Disassembler) :
    Hart M × Trace → List Applied → Hart M × Trace → Prop
  | hears {h h' g : Hart M} {t t' : Trace} {ls : List Applied} {e : HookEvent}
      (hstep : Hart.StepAt instrAddresses h ls h') (hhook : h'.hooks = h.hooks ++ [e])
      (hhear : (initVerboseLogging disasm).doTriggerHooks e (h', t) = .ok (g, t')) :
      TracedStep disasm (h, t) ls (g, t')

def lines (disasm : Disassembler) (l : Applied) : List TraceLine :=
  match l.after.contents .word l.pc with
  | .error _ => []
  | .ok bytecode =>
    match disasm bytecode l.pc with
    | none => []
    | some disassembled =>
      registerLines l.pc disassembled l.instr l.after.gprf ++
        match storeWidth l.instr.operation with
        | none => []
        | some w =>
          let addr := l.after.gprf.read l.instr.rs1 + signExtend 12 l.instr.immidiate
          match l.after.contents w addr with
          | .error _ => []
          | .ok val => [.mem addr (val.setWidth 64)]

def Trace.At {M : Type} (t : Trace) (h : Hart M) : Prop :=
  ∃ p, h.currentInstr = some p ∧ t.currentPC = (h.bbCache.bbs p.index).addr p.pos

section Heard

variable {N : Type} [Memory N] [LawfulMemory N] {k k' : Hart N} {t : Trace}

theorem heard_bbEnd (hc : k.Coherent) {i : Instruction} (hcur : k.current = some i)
    (hop : i.operation = .bbEnd) (hstep : k.step = .running k') :
    ∃ bb, k'.hooks = k.hooks ++ [.bbFetched bb] ∧ k'.Coherent ∧ (t.onBBFetch bb).At k' := by
  rw [Hart.step_bbEnd hcur hop] at hstep
  have hf := Hart.execBBEND_running hstep
  obtain ⟨-, hc', -⟩ := Hart.fetchBB_coherent hc.slots hf
  obtain ⟨-, ⟨⟨e, he⟩, -⟩ | ⟨index, hptr, hhooks⟩⟩ := Hart.accounts_fetchBB k
  · rw [hf] at he
    cases he
  · rw [hf] at hptr hhooks
    exact ⟨_, hhooks, hc', ⟨index, 0⟩, hptr, (BasicBlock.addr_zero _).symm⟩

/-- After an instruction memory still holds its word, and the listener follows
the cursor. -/
theorem heard_instr (hc : k.Coherent) {i : Instruction} (hcur : k.current = some i)
    (hop : i.operation ≠ .bbEnd) (hquiet : ∀ id s r, effect i k.toArch ≠ .raise id s r)
    (hapart : k.StoresApart i) (hstep : k.step = .running k') :
    k'.hooks = k.hooks ++ [.instrExecuted i] ∧ k'.Coherent ∧
      effect i k.toArch = .next k'.toArch ∧
      (∃ word : RV64UWord, Memory.contents k'.mem .word k.pc = .ok word ∧ i = Dec.parse word) ∧
      (t.At k → t.currentPC = k.pc ∧ ∀ file, (⟨k.pc + 4, file⟩ : Trace).At k') := by
  rw [Hart.step_instr hcur hop] at hstep
  obtain ⟨s, he, hnext⟩ := Hart.apply_running hquiet hstep
  obtain ⟨hc', hs⟩ := hc.instr hcur hop hquiet hapart he hnext
  obtain ⟨p, n, hp, hb, hlt, hpc, hi⟩ := hc.decoded hcur hop hquiet
  obtain ⟨p', j, hp', hcur', hk'⟩ := Hart.execNextInstr_running hnext
  obtain rfl : p = p' := Option.some.inj (hp.symm.trans hp')
  obtain rfl : i = j := Option.some.inj (hcur.symm.trans hcur')
  obtain ⟨word, hword, hi'⟩ := hb.built.decoded _ hlt
  have hmem : Memory.contents k'.mem .word k.pc = Memory.contents k.mem .word k.pc := by
    rw [hs]
    refine word_of_advances (advances_of_effect hop he) fun w hw => hapart w hw _ ?_
    rw [hpc]
    exact hb.fetched _ hlt
  refine ⟨hk' ▸ rfl, hc', hs ▸ he, ⟨word, ?_, Option.some.inj (hi.symm.trans hi')⟩, ?_⟩
  · rw [hmem, hpc, hword]
  · rintro ⟨q, hq, hat⟩
    obtain rfl : p = q := Option.some.inj (hp.symm.trans hq)
    refine ⟨hat.trans hpc.symm, fun file => ⟨{ p with pos := p.pos + 1 }, hk' ▸ rfl, ?_⟩⟩
    rw [hk', hpc]
    exact (BasicBlock.addr_succ _ _).symm

end Heard

section Callback

variable {M : Type} [Memory M] {R : M → MappedMemory → Prop} {disasm : Disassembler}

theorem stored_of_effect {i : Instruction} {s s' : Arch MappedMemory} (hrs1 : i.rs1 < 32)
    (he : effect i s = .next s') {w : Width} (hw : storeWidth i.operation = some w) :
    s'.address i = s.address i ∧ ∃ v, s'.mem = (s.mem.store w (s.address i) v).2 ∧
      s'.mem.load w (s.address i) = .ok v := by
  rw [effect_store s hw] at he
  have haddr : s'.address i = s.address i := by
    rw [Arch.address, Arch.address, read_of_store he hrs1]
  have hst : s.mem.store w (s.address i) ((s.read i.rs2).setWidth (8 * w.size)) =
      (.ok (), s'.mem) := by
    unfold Arch.store at he
    split at he
    case h_1 m hm =>
      obtain rfl := Effect.next.inj he
      exact hm
    case h_2 => cases he
  have hload := s.mem.load_store (congrArg Prod.fst hst)
  rw [hst] at hload
  exact ⟨haddr, _, (congrArg Prod.snd hst).symm, hload⟩

theorem onInstrExecuted_spec (disasm : Disassembler) (hm : Memory.Alike R) {s : Arch M}
    {k : Arch MappedMemory} (ha : s.Alike R k) {i : Instruction} {t : Trace} {word : RV64UWord}
    (hword : k.mem.load .word t.currentPC = .ok word)
    (hstored : ∀ w, storeWidth i.operation = some w → ∃ v, k.mem.load w (k.address i) = .ok v) :
    ∃ mem, t.onInstrExecuted disasm s i = (.ok (), mem,
        ⟨t.currentPC + 4, t.traceFile ++ lines disasm ⟨t.currentPC, i, k.view⟩⟩) ∧ R mem k.mem := by
  obtain ⟨hload, hR⟩ := hm.load s.mem k.mem ha.mem .word t.currentPC
  change _ = k.mem.load .word t.currentPC at hload
  change R _ k.mem at hR
  rw [hword] at hload
  have hcontents : k.view.contents .word t.currentPC = .ok word := hword
  have haddr : s.address i = k.address i := by rw [Arch.address, Arch.address, Arch.read, ha.gprf]; rfl
  unfold Trace.onInstrExecuted lines
  rw [hcontents]
  revert hload hR
  obtain ⟨r, mem⟩ := Memory.load s.mem .word t.currentPC
  rintro (rfl : r = .ok word) (hR : R mem k.mem)
  dsimp only
  cases disasm word t.currentPC with
  | none => exact ⟨mem, by rw [List.append_nil], hR⟩
  | some disassembled =>
    dsimp only
    cases hw : storeWidth i.operation with
    | none => exact ⟨mem, by rw [List.append_nil, ha.gprf]; rfl, hR⟩
    | some w =>
      obtain ⟨v, hv⟩ := hstored w hw
      obtain ⟨hload, hR'⟩ := hm.load mem k.mem hR w (k.address i)
      change _ = k.mem.load w (k.address i) at hload
      change R _ k.mem at hR'
      rw [hv] at hload
      have hcontents :
          k.view.contents w (k.view.gprf.read i.rs1 + signExtend 12 i.immidiate) = .ok v := hv
      dsimp only
      rw [hcontents, haddr]
      revert hload hR'
      obtain ⟨r, mem'⟩ := Memory.load mem w (k.address i)
      rintro (rfl : r = .ok v) (hR' : R mem' k.mem)
      dsimp only
      exact ⟨mem', by rw [List.append_assoc, ha.gprf]; rfl, hR'⟩

/-- A traced hart beside one on a byte array that nobody listens to. -/
structure Follows (R : M → MappedMemory → Prop) (k : Hart MappedMemory) (g : Hart M) (t : Trace) :
    Prop where
  alike : g.Alike R k
  coherent : k.Coherent
  cursor : t.At k

variable {k k' : Hart MappedMemory} {g g' : Hart M} {t : Trace} {ls : List Applied}

/-- The callbacks of a quiet step return, write its lines and leave the hart as it was. -/
theorem Follows.hears (disasm : Disassembler) (hm : Memory.Alike R) (hf : Follows R k g t)
    (hk : QuietStep k ls k') (hg : g'.Alike R k') : ∃ e mem t', g'.hooks = g.hooks ++ [e] ∧
      t.hear disasm g'.toArch e = (.ok (), mem, t') ∧ Follows R k' { g' with mem := mem } t' ∧
      t'.traceFile = t.traceFile ++ ls.flatMap (lines disasm) := by
  cases hk with
  | bbEnd hcur hop hstep =>
    obtain ⟨bb, hhooks, hc', hat⟩ := heard_bbEnd (t := t) hf.coherent hcur hop hstep
    refine ⟨.bbFetched bb, g'.mem, _, ?_, rfl, ⟨hg, hc', hat⟩, (List.append_nil _).symm⟩
    rw [hg.hooks, hf.alike.hooks, hhooks]
  | @instr _ i hcur hop hquiet hapart hstep =>
    obtain ⟨hhooks, hc', he, ⟨word, hword, hi⟩, hat⟩ :=
      heard_instr (t := t) hf.coherent hcur hop hquiet hapart hstep
    obtain ⟨hpc, hat'⟩ := hat hf.cursor
    have hrs1 : i.rs1 < 32 := hi ▸ (Dec.parse_registers word).2.1
    obtain ⟨mem, hhear, hR⟩ := onInstrExecuted_spec disasm hm hg.toAlike (t := t)
      (hpc ▸ hword) fun w hw => by
        obtain ⟨haddr, v, -, hv⟩ := stored_of_effect hrs1 he hw
        exact ⟨v, haddr ▸ hv⟩
    refine ⟨.instrExecuted i, mem, _, ?_, hhear, ⟨?_, hc', hpc ▸ hat' _⟩, ?_⟩
    · rw [hg.hooks, hf.alike.hooks, hhooks]
    · exact ⟨⟨hg.gprf, hg.csrf, hR⟩, hg.bbCache, hg.currentInstr, hg.instrsExecuted, hg.hooks⟩
    · rw [hpc, List.flatMap_singleton]
      rfl

theorem Follows.traced (hm : Memory.Alike R) (hf : Follows R k g t)
    (hk : Hart.StepAt instrAddresses k ls k') : ∃ g' t', TracedStep disasm (g, t) ls (g', t') ∧
      Follows R k' g' t' ∧ t'.traceFile = t.traceFile ++ ls.flatMap (lines disasm) := by
  obtain ⟨hpc, hs⟩ := hk
  obtain ⟨g', hs', hg⟩ := hs.alike hm.swap hf.alike.swap hpc
  obtain ⟨e, mem, t', hhook, hhear, hf', hfile⟩ := hf.hears disasm hm hs hg.swap
  have htrigger := trigger_ok_iff.mpr ⟨mem, hhear, rfl⟩
  exact ⟨_, t', .hears ⟨hf.alike.pc ▸ hpc, hs'⟩ hhook htrigger, hf', hfile⟩

end Callback

section Runs

variable {M : Type} [Memory M] {R : M → MappedMemory → Prop} {disasm : Disassembler}
  {garbage : Register → RV64UDWord} {m : M} {n : MappedMemory} {ls : List Applied}

end Runs

/-- What can be read off a trace file: the registers with the program counter,
the memory, and the mnemonic of the line before. -/
structure Replay where
  gprf : GPRF
  mem : MappedMemory
  mnem : String

def mnemonicWidth (mnem : String) : Option Width :=
  if mnem = "SB" then some .byte
  else if mnem = "SH" then some .hWord
  else if mnem = "SW" then some .word
  else if mnem = "SD" then some .dWord
  else none

/-- A reader that knows no instruction set: it does what the line says. -/
def Replay.read (r : Replay) : TraceLine → Replay
  | .instr pc mnem => { r with gprf := r.gprf.write GPRF.pc (pc + 4), mnem := mnem }
  | .reg rd value => { r with gprf := r.gprf.write rd value }
  | .pc value => { r with gprf := r.gprf.write GPRF.pc value }
  | .mem addr val =>
    match mnemonicWidth r.mnem with
    | some w => { r with mem := (r.mem.store w addr (val.setWidth (8 * w.size))).2 }
    | none => r

def replay (file : List TraceLine) (r : Replay) : Replay := file.foldl Replay.read r

/-- The disassembler knows the word that was executed, and tells stores by
their width. -/
def Named (disasm : Disassembler) (l : Applied) : Prop :=
  ∀ word, l.after.contents .word l.pc = .ok word → ∃ disassembled,
    disasm word l.pc = some disassembled ∧
      mnemonicWidth (mnemonic disassembled) = storeWidth l.instr.operation

/-- The reader has the registers and the memory that the program sees. -/
structure Replay.Shows (r : Replay) (v : View) : Prop where
  registers : ∀ x < 32, r.gprf.read x = v.gprf.read x
  pc : r.gprf.read GPRF.pc = v.gprf.read GPRF.pc
  contents : Memory.contents r.mem = v.contents

section Replay

variable {disasm : Disassembler} {r : Replay} {s s' : Arch MappedMemory} {i : Instruction}

theorem replay_append (file file' : List TraceLine) (r : Replay) :
    replay (file ++ file') r = replay file' (replay file r) := List.foldl_append

theorem ne_pc {x : Register} (hx : x < 32) : x ≠ GPRF.pc := fun h => absurd (h ▸ hx) (by decide)

theorem replay_reg {g : GPRF} (hrd : i.rd < 32)
    (hsame : ∀ x < 32, x ≠ i.rd ∨ i.rd = GPRF.x0 → r.gprf.read x = g.read x) : ∃ g',
      replay (if i.rd ≠ GPRF.x0 then [.reg i.rd (g.read i.rd)] else []) r = ⟨g', r.mem, r.mnem⟩ ∧
      (∀ x < 32, g'.read x = g.read x) ∧ g'.read GPRF.pc = r.gprf.read GPRF.pc := by
  split_ifs with h0
  · refine ⟨r.gprf.write i.rd (g.read i.rd), rfl, fun x hx => ?_, GPRF.read_pc_write _ _ hrd⟩
    by_cases hx' : x = i.rd
    · rw [GPRF.read_write, hx', if_neg h0, if_pos rfl]
    · rw [GPRF.read_write_of_ne _ _ hx']
      exact hsame x hx (.inl hx')
  · exact ⟨r.gprf, rfl, fun x hx => hsame x hx (.inr (not_not.mp h0)), rfl⟩

theorem replay_pc {g : GPRF} (hnext : i.isJump = false → r.gprf.read GPRF.pc = g.read GPRF.pc) :
    ∃ g', replay (if i.isJump then [.pc (g.read GPRF.pc)] else []) r = ⟨g', r.mem, r.mnem⟩ ∧
      (∀ x < 32, g'.read x = r.gprf.read x) ∧ g'.read GPRF.pc = g.read GPRF.pc := by
  split_ifs with hjump
  · exact ⟨_, rfl, fun x hx => GPRF.read_write_of_ne _ _ (ne_pc hx), GPRF.read_pc_write_pc _ _⟩
  · exact ⟨r.gprf, rfl, fun _ _ => rfl, hnext (Bool.eq_false_iff.mpr hjump)⟩

/-- What the lines about the registers say, where only `rd` and the program
counter may have changed. -/
theorem replay_registerLines (disassembled : String) (pc : RV64Ptr) (g : GPRF) (hrd : i.rd < 32)
    (hsame : ∀ x < 32, x ≠ i.rd ∨ i.rd = GPRF.x0 → r.gprf.read x = g.read x)
    (hnext : i.isJump = false → g.read GPRF.pc = pc + 4) : ∃ g',
      replay (registerLines pc disassembled i g) r = ⟨g', r.mem, mnemonic disassembled⟩ ∧
      (∀ x < 32, g'.read x = g.read x) ∧ g'.read GPRF.pc = g.read GPRF.pc := by
  let r₁ := r.read (.instr pc (mnemonic disassembled))
  obtain ⟨g₂, hg₂, hregs, hpc⟩ := replay_reg (r := r₁) (g := g) hrd fun x hx hne => by
    rw [← hsame x hx hne]
    exact GPRF.read_write_of_ne _ _ (ne_pc hx)
  obtain ⟨g₃, hg₃, hregs', hpc'⟩ := replay_pc (i := i) (r := ⟨g₂, r₁.mem, r₁.mnem⟩) (g := g)
    fun hjump => by rw [hpc, hnext hjump]; exact GPRF.read_pc_write_pc _ _
  refine ⟨g₃, ?_, fun x hx => (hregs' x hx).trans (hregs x hx), hpc'⟩
  change replay (_ ++ _) r₁ = _
  rw [replay_append, hg₂, hg₃]
  rfl

theorem contents_of_advances (h : Advances i s s') (hw : storeWidth i.operation = none) :
    Memory.contents s'.mem = Memory.contents s.mem := by
  cases h with
  | store w hop value => exact nomatch hop.symm.trans hw
  | _ => rfl

theorem Replay.Shows.instr (hr : r.Shows s.view) {word : RV64UWord} (hi : i = Dec.parse word)
    (hop : i.operation ≠ .bbEnd) (he : effect i s = .next s')
    (hword : s'.mem.load .word s.pc = .ok word) (hnamed : Named disasm ⟨s.pc, i, s'.view⟩) :
    (replay (lines disasm ⟨s.pc, i, s'.view⟩) r).Shows s'.view := by
  obtain ⟨hrd, hrs1, -⟩ := hi ▸ Dec.parse_registers word
  have hadv := advances_of_effect hop he
  have hcontents : s'.view.contents .word s.pc = .ok word := hword
  obtain ⟨disassembled, hdis, hwidth⟩ := hnamed word hcontents
  obtain ⟨g, hg, hregs, hpc⟩ := replay_registerLines disassembled s.pc s'.gprf hrd
    (fun x hx hne => (hr.registers x hx).trans (read_of_advances hadv hx hne).symm)
    fun hjump => pc_of_advances hrd hjump hadv
  unfold lines
  rw [hcontents]
  dsimp only at hdis hwidth ⊢
  rw [hdis]
  dsimp only
  rw [replay_append, show s'.view.gprf = s'.gprf from rfl, hg]
  cases hw : storeWidth i.operation with
  | none => exact ⟨hregs, hpc, hr.contents.trans (contents_of_advances hadv hw).symm⟩
  | some w =>
    obtain ⟨haddr, v, hmem, hv⟩ := stored_of_effect hrs1 he hw
    have hload : s'.view.contents w (s'.gprf.read i.rs1 + signExtend 12 i.immidiate) = .ok v := by
      rw [← hv, ← haddr]
      rfl
    have hval : (v.setWidth 64).setWidth (8 * w.size) = v := by
      rw [BitVec.setWidth_setWidth_of_le _ (by cases w <;> decide), BitVec.setWidth_eq]
    have hstore := (MappedMemory.store_contents_congr w (s.address i) v hr.contents).2
    dsimp only
    rw [hload]
    dsimp only [replay, List.foldl, Replay.read]
    rw [hwidth, hw]
    dsimp only
    rw [hval]
    refine ⟨hregs, hpc, ?_⟩
    change Memory.contents (r.mem.store w (s'.address i) v).2 = Memory.contents s'.mem
    rw [haddr, hstore, hmem]

end Replay

end Besm.Standalone
