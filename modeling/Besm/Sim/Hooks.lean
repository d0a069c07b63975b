import Besm.Lib.Multimap
import Besm.Sim.Hart

namespace Besm.Sim

open Besm.Exec Besm.Mem Besm.Lib

inductive Event
  | bbFetched
  | instrExecuted
  deriving Repr

instance : LinearOrder Event :=
  LinearOrder.lift' (fun | .bbFetched => (0 : Nat) | .instrExecuted => 1) fun e e' h => by
    cases e <;> cases e' <;> first | rfl | cases h

inductive HookError
  | thrown (e : MemError)
  | undefined

/-- A callback works on the state of its program. The type that it is registered
with is lost in the table. -/
inductive Callback (σ : Type)
  | bbFetch (f : BasicBlock → σ → Except HookError σ)
  | instrExecuted (f : Instruction → σ → Except HookError σ)

structure HookManager (σ : Type) where
  hooks : Multimap Event (Callback σ)

def HookEvent.event : HookEvent → Event
  | .bbFetched _ => .bbFetched
  | .instrExecuted _ => .instrExecuted

namespace HookManager

variable {σ : Type}

def create : HookManager σ := ⟨.empty⟩

def doRegisterHook (m : HookManager σ) (event : Event) (callback : Callback σ) : HookManager σ :=
  ⟨m.hooks.insert (event, callback)⟩

def registerBBFetchHook (m : HookManager σ) (f : BasicBlock → σ → Except HookError σ) :
    HookManager σ := m.doRegisterHook .bbFetched (.bbFetch f)

def registerInstrExecHook (m : HookManager σ) (f : Instruction → σ → Except HookError σ) :
    HookManager σ := m.doRegisterHook .instrExecuted (.instrExecuted f)

def call : HookEvent → Callback σ → σ → Except HookError σ
  | .bbFetched bb, .bbFetch f, s => f bb s
  | .instrExecuted instr, .instrExecuted f, s => f instr s
  | _, _, _ => .error .undefined

def doTriggerHooks (m : HookManager σ) (e : HookEvent) (s : σ) : Except HookError σ :=
  (m.hooks.equalRange e.event).foldlM (fun s callback => call e callback s) s

def register (m : HookManager σ) : Callback σ → HookManager σ
  | .bbFetch f => m.registerBBFetchHook f
  | .instrExecuted f => m.registerInstrExecHook f

end HookManager

namespace Callback

variable {σ : Type}

def listens : HookEvent → Callback σ → Option (σ → Except HookError σ)
  | .bbFetched bb, .bbFetch f => some (f bb)
  | .instrExecuted instr, .instrExecuted f => some (f instr)
  | _, _ => none

def event : Callback σ → Event
  | .bbFetch _ => .bbFetched
  | .instrExecuted _ => .instrExecuted

theorem listens_eq_some {c : Callback σ} {e : HookEvent} (h : c.event = e.event) :
    ∃ f, listens e c = some f ∧ HookManager.call e c = f := by
  cases c <;> cases e <;> first | exact ⟨_, rfl, rfl⟩ | cases h

theorem listens_eq_none {c : Callback σ} {e : HookEvent} (h : c.event ≠ e.event) :
    listens e c = none := by
  cases c <;> cases e <;> first | rfl | exact absurd rfl h

end Callback

namespace HookManager

variable {σ : Type}

theorem hooks_register (m : HookManager σ) (callbacks : List (Callback σ)) :
    (callbacks.foldl register m).hooks =
      m.hooks.insertAll (callbacks.map fun c => (c.event, c)) := by
  induction callbacks generalizing m with
  | nil => rfl
  | cons c callbacks ih =>
    rw [List.foldl_cons, ih]
    cases c <;> rfl

theorem equalRange_register (callbacks : List (Callback σ)) (event : Event) :
    (callbacks.foldl register create).hooks.equalRange event =
      callbacks.filter fun c => c.event = event := by
  have hid : (Prod.snd ∘ fun c : Callback σ => (c.event, c)) = id := rfl
  rw [hooks_register, Multimap.equalRange_insertAll, List.filter_map, List.map_map, hid, List.map_id]
  exact List.nil_append _

/-- An event has every callback called that was registered for such events, once
for each registration and in their order, and no other. -/
theorem doTriggerHooks_registered (callbacks : List (Callback σ)) (e : HookEvent) (s : σ) :
    (callbacks.foldl register create).doTriggerHooks e s =
      (callbacks.filterMap (Callback.listens e)).foldlM (fun s f => f s) s := by
  rw [doTriggerHooks, equalRange_register]
  induction callbacks generalizing s with
  | nil => rfl
  | cons c callbacks ih =>
    by_cases h : c.event = e.event
    · obtain ⟨f, hf, hcall⟩ := Callback.listens_eq_some h
      rw [List.filter_cons_of_pos (by simpa using h),
        List.filterMap_cons_some hf, List.foldlM_cons, List.foldlM_cons, hcall]
      exact bind_congr ih
    · rw [List.filter_cons_of_neg (by simpa using h),
        List.filterMap_cons_none (Callback.listens_eq_none h)]
      exact ih s

end HookManager

end Besm.Sim
