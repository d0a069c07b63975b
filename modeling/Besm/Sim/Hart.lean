import Besm.Decoder.Decoder
import Besm.Exec.BasicBlock
import Besm.Lib.Transition
import Besm.Sim.Handlers

namespace Besm.Sim

open Besm.Exec Besm.Mem Besm.Lib.Transition

inductive HookEvent
  | bbFetched (bb : BasicBlock)
  | instrExecuted (instr : Instruction)

structure InstrPtr where
  index : Nat
  pos : Nat
  deriving DecidableEq, Repr

structure Hart (M : Type) extends Arch M where
  bbCache : BasicBlockCache
  currentInstr : Option InstrPtr
  instrsExecuted : BitVec 64
  hooks : List HookEvent

/-- What calling a handler comes to: the next handler is called, `run` returns,
a C++ exception leaves it, the process ends, or the behaviour is undefined. -/
inductive Outcome (M : Type)
  | running (h : Hart M)
  | returned (h : Hart M)
  | thrown (e : MemError) (h : Hart M)
  | terminated
  | undefined

namespace Hart

variable {M : Type}

def create (garbage : Register → RV64UDWord) (mem : M) : Hart M where
  gprf := GPRF.create garbage
  csrf := CSRF.create
  mem := mem
  bbCache := BasicBlockCache.create
  currentInstr := none
  instrsExecuted := 0
  hooks := []

def withArch (h : Hart M) (s : Arch M) : Hart M := { h with toArch := s }

def current (h : Hart M) : Option Instruction :=
  h.currentInstr.bind fun p => (h.bbCache.bbs p.index).instrs p.pos

theorem current_of_ptr {h : Hart M} {p : InstrPtr} (hp : h.currentInstr = some p) :
    h.current = (h.bbCache.bbs p.index).instrs p.pos := by
  rw [Hart.current, hp]
  rfl

section Fetch

variable [Memory M]

/-- The loop of `assembleBB`. The fuel is the number of instructions the block
still has room for, so it lasts until `append` declines. -/
def assembleLoop : (fuel : Nat) → BasicBlockRebuilder → RV64Ptr → M →
    Except MemError Unit × BasicBlock × M
  | 0, rebuilder, _, mem => (.ok (), rebuilder.bb, mem)
  | fuel + 1, rebuilder, pc, mem =>
    match Memory.fetchWord mem pc with
    | (.error e, mem) => (.error e, rebuilder.bb, mem)
    | (.ok word, mem) =>
      match rebuilder.append (Dec.parse word) with
      | (true, rebuilder) => assembleLoop fuel rebuilder (pc + ialign / 8) mem
      | (false, rebuilder) => (.ok (), rebuilder.bb, mem)

def assembleBB (bb : BasicBlock) (pc : RV64Ptr) (mem : M) : Except MemError Unit × BasicBlock × M :=
  assembleLoop (BasicBlock.kCapacity - 1) (BasicBlockRebuilder.create bb pc) pc mem

/-- The end of `fetchBB`, with the block in its slot. -/
def enterBB (h : Hart M) (index : Nat) : Hart M :=
  { h with
    hooks := h.hooks ++ [.bbFetched (h.bbCache.bbs index)]
    currentInstr := some ⟨index, 0⟩ }

def fetchBB (h : Hart M) : Except MemError Unit × Hart M :=
  match h.bbCache.lookup h.pc with
  | (true, index, cache) => (.ok (), { h with bbCache := cache }.enterBB index)
  | (false, index, cache) =>
    match assembleBB (cache.bbs index) h.pc h.mem with
    | (.ok (), bb, mem) =>
      (.ok (), { h with mem := mem, bbCache := cache.setBB index bb }.enterBB index)
    | (.error e, bb, mem) => (.error e, { h with mem := mem, bbCache := cache.setBB index bb })

end Fetch

/-- The end of every handler that goes on: the instruction is counted and
reported, and the next one is called. -/
def execNextInstr (h : Hart M) : Outcome M :=
  match h.currentInstr, h.current with
  | some p, some i =>
    .running { h with
      instrsExecuted := h.instrsExecuted + 1
      hooks := h.hooks ++ [.instrExecuted i]
      currentInstr := some { p with pos := p.pos + 1 } }
  | _, _ => .undefined

def resume (h : Hart M) : Resume → Outcome M
  | .ret => .returned h
  | .execNextInstr => h.execNextInstr
  | .jumpMepc => (h.withArch (h.setPC (MEPC.value.get h.csrf.mepc))).execNextInstr

theorem execNextInstr_running {h h' : Hart M} (hstep : h.execNextInstr = .running h') :
    ∃ p i, h.currentInstr = some p ∧ h.current = some i ∧
      h' = { h with
        instrsExecuted := h.instrsExecuted + 1
        hooks := h.hooks ++ [.instrExecuted i]
        currentInstr := some { p with pos := p.pos + 1 } } := by
  unfold execNextInstr at hstep
  split at hstep
  case h_1 p i hp hi => exact ⟨p, i, hp, hi, (Outcome.running.inj hstep).symm⟩
  case h_2 => cases hstep

section Run

variable [Memory M]

def raiseException (h : Hart M) (id : ExceptionId) : Except MemError Unit × Hart M :=
  (h.withArch (h.toArch.raiseException id)).fetchBB

def execBBEND (h : Hart M) : Outcome M :=
  match h.fetchBB with
  | (.ok (), h) => .running h
  | (.error e, h) => .thrown e h

def apply (h : Hart M) : Effect (Arch M) → Outcome M
  | .next s => (h.withArch s).execNextInstr
  | .raise id s r =>
    match (h.withArch s).raiseException id with
    | (.ok (), h) => h.resume r
    | (.error e, h) => .thrown e h
  | .ret s => .returned (h.withArch s)
  | .throw e s => .thrown e (h.withArch s)
  | .terminate => .terminated

def step (h : Hart M) : Outcome M :=
  match h.current with
  | none => .undefined
  | some i => if i.operation = .bbEnd then h.execBBEND else h.apply (effect i h.toArch)

/-- `Hart::run` calls the handler of a block's end. -/
def run (h : Hart M) : Outcome M := h.execBBEND

theorem step_instr {h : Hart M} {i : Instruction} (hcur : h.current = some i)
    (hop : i.operation ≠ .bbEnd) : h.step = h.apply (effect i h.toArch) := by
  unfold step
  rw [hcur]
  exact if_neg hop

theorem step_bbEnd {h : Hart M} {i : Instruction} (hcur : h.current = some i)
    (hop : i.operation = .bbEnd) : h.step = h.execBBEND := by
  unfold step
  rw [hcur]
  exact if_pos hop

theorem execBBEND_running {h h' : Hart M} (hstep : h.execBBEND = .running h') :
    h.fetchBB = (.ok (), h') := by
  unfold execBBEND at hstep
  split at hstep
  case h_1 h'' hf => rw [hf]; exact congrArg _ (Outcome.running.inj hstep)
  case h_2 => cases hstep

theorem execBBEND_cases (h : Hart M) :
    (∃ t, h.fetchBB = (.ok (), t) ∧ h.execBBEND = .running t) ∨
      ∃ e t, h.fetchBB = (.error e, t) ∧ h.execBBEND = .thrown e t := by
  unfold execBBEND
  obtain ⟨e | _, t⟩ := h.fetchBB
  · exact .inr ⟨e, t, rfl, rfl⟩
  · exact .inl ⟨t, rfl, rfl⟩

theorem apply_raise (h : Hart M) (id : ExceptionId) (r : Resume) :
    (∃ t, h.raiseException id = (.ok (), t) ∧ h.apply (.raise id h.toArch r) = t.resume r) ∨
      ∃ e t, h.raiseException id = (.error e, t) ∧
        h.apply (.raise id h.toArch r) = .thrown e t := by
  have happly : h.apply (.raise id h.toArch r) = match h.raiseException id with
      | (.ok (), t) => t.resume r
      | (.error e, t) => .thrown e t := rfl
  rw [happly]
  obtain ⟨e | _, t⟩ := h.raiseException id
  · exact .inr ⟨e, t, rfl, rfl⟩
  · exact .inl ⟨t, rfl, rfl⟩

theorem apply_running {h h' : Hart M} {e : Effect (Arch M)}
    (hquiet : ∀ id s r, e ≠ .raise id s r) (hstep : h.apply e = .running h') :
    ∃ s, e = .next s ∧ (h.withArch s).execNextInstr = .running h' := by
  cases e with
  | next s => exact ⟨s, rfl, hstep⟩
  | raise id s r => exact absurd rfl (hquiet id s r)
  | ret s => cases hstep
  | throw e s => cases hstep
  | terminate => cases hstep

end Run

end Hart

namespace Outcome

variable {M : Type}

def hart? : Outcome M → Option (Hart M)
  | running h => some h
  | returned h => some h
  | thrown _ h => some h
  | terminated => none
  | undefined => none

def caller? : Outcome M → Option (Hart M)
  | returned h => some h
  | thrown _ h => some h
  | _ => none

theorem hart?_of_caller? {o : Outcome M} {h : Hart M} (ho : o.caller? = some h) :
    o.hart? = some h := by
  cases o <;> first | exact ho | cases ho

def running? : Outcome M → Option (Hart M)
  | running h => some h
  | _ => none

theorem running?_eq_some {o : Outcome M} {h : Hart M} : o.running? = some h ↔ o = .running h := by
  cases o <;> simp [running?]

end Outcome

namespace Hart

variable {M : Type} [Memory M]

def Initial (h : Hart M) : Prop := ∃ garbage mem, h = Hart.create garbage mem

/-- One handler call, or a call of `run` from outside, also after an earlier
run has returned or thrown. -/
def Next (h h' : Hart M) : Prop := h.step.hart? = some h' ∨ h.run.hart? = some h'

def Reachable (h : Hart M) : Prop := Reach Initial Next h

inductive Joins : Hart M → List (Hart M × Hart M) → Hart M → Prop
  | next {h h' : Hart M} (hn : Next h h') : Joins h [(h, h')] h'

end Hart

inductive Call (M : Type)
  | step (h : Hart M)
  | run (h : Hart M)

def Call.before {M : Type} : Call M → Hart M
  | step h => h
  | run h => h

variable {M : Type} [Memory M]

def Call.after : Call M → Outcome M
  | step h => h.step
  | run h => h.run

/-- The calls that follow one another: a handler is called while the run goes
on, and `run` once it has returned or thrown. -/
inductive Calls : Outcome M → List (Call M) → Outcome M → Prop
  | step (h : Hart M) : Calls (.running h) [.step h] h.step
  | run {o : Outcome M} {h : Hart M} (ho : o.caller? = some h) : Calls o [.run h] h.run

namespace Hart

theorem reachable_initial {h : Hart M} (hinit : Initial h) :
    ∀ t, (Outcome.returned h).hart? = some t → Reachable t :=
  fun _ ht => Option.some.inj ht ▸ .init hinit

theorem reachable_call {o o' : Outcome M} {ls : List (Call M)}
    (ho : ∀ t, o.hart? = some t → Reachable t) (hc : Calls o ls o') :
    ∀ t, o'.hart? = some t → Reachable t := by
  intro t ht
  cases hc with
  | step h => exact .step (ho h rfl) (.inl ht)
  | run hu => exact .step (ho _ (Outcome.hart?_of_caller? hu)) (.inr ht)

def runFor : (n : Nat) → Hart M → Option (Hart M)
  | 0, h => h.run.running?
  | n + 1, h => (h.runFor n).bind fun h' => h'.step.running?

theorem of_runFor {α : Type} {h h' : Hart M} {n : Nat} (hr : h.runFor n = some h')
    {f : Hart M → α} {v : α} (hf : (h.runFor n).map f = some v) : f h' = v := by
  rw [hr] at hf
  exact Option.some.inj hf

def callsFor : (n : Nat) → Hart M → List (Call M)
  | 0, h => [.run h]
  | n + 1, h => h.callsFor n ++ (h.runFor n).toList.map .step

theorem callsFor_succ {h h' : Hart M} {n : Nat} (hr : h.runFor n = some h') :
    h.callsFor (n + 1) = h.callsFor n ++ [.step h'] := by
  rw [callsFor, hr]
  rfl

theorem runs_callsFor {h h' : Hart M} {n : Nat} (hr : h.runFor n = some h') :
    Run Calls (.returned h) (h.callsFor n) (.running h') := by
  induction n generalizing h' with
  | zero => exact Outcome.running?_eq_some.mp hr ▸ .single (.run rfl)
  | succ n ih =>
    obtain ⟨u, hu, hs⟩ := Option.bind_eq_some_iff.mp hr
    rw [callsFor_succ hu, ← Outcome.running?_eq_some.mp hs]
    exact .tail (ih hu) (.step u)

theorem runs_callsFor_step {h h' : Hart M} {n : Nat} (hr : h.runFor n = some h') :
    Run Calls (.returned h) (h.callsFor (n + 1)) h'.step := by
  rw [callsFor_succ hr]
  exact .tail (runs_callsFor hr) (.step h')

def joinsFor : (n : Nat) → Hart M → List (Hart M × Hart M)
  | 0, h => (h.runFor 0).toList.map (Prod.mk h)
  | n + 1, h => h.joinsFor n ++
      (h.runFor n).toList.flatMap fun g => (h.runFor (n + 1)).toList.map (Prod.mk g)

theorem runs_joinsFor {h h' : Hart M} {n : Nat} (hr : h.runFor n = some h') :
    Run Joins h (h.joinsFor n) h' := by
  induction n generalizing h' with
  | zero =>
    rw [joinsFor, hr]
    exact .single (.next (.inr (by rw [Outcome.running?_eq_some.mp hr]; rfl)))
  | succ n ih =>
    obtain ⟨u, hu, hs⟩ := Option.bind_eq_some_iff.mp hr
    rw [joinsFor, hu, hr]
    exact .tail (ih hu) (.next (.inl (by rw [Outcome.running?_eq_some.mp hs]; rfl)))

theorem reachable_runFor {h : Hart M} (hinit : Initial h) {n : Nat} {h' : Hart M}
    (hr : h.runFor n = some h') : Reachable h' := by
  induction n generalizing h' with
  | zero => exact .step (.init hinit) (.inr (by rw [Outcome.running?_eq_some.mp hr]; rfl))
  | succ n ih =>
    obtain ⟨h'', hr', hstep⟩ := Option.bind_eq_some_iff.mp hr
    exact .step (ih hr') (.inl (by rw [Outcome.running?_eq_some.mp hstep]; rfl))

end Hart

end Besm.Sim
