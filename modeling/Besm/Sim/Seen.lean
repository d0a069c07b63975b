import Besm.Sim.Stack

namespace Besm.Exec

open Besm.Mem

namespace BasicBlock

def body (bb : BasicBlock) : List Instruction :=
  ((List.range kCapacity).filterMap bb.instrs).takeWhile fun i => i.operation ≠ .bbEnd

/-- Two blocks with the same instructions and then the end mark. What lies behind
it, and the old fields of the mark itself, may differ. -/
structure Level (bb bb' : BasicBlock) (n : Nat) : Prop where
  instrs : ∀ k < n, bb.instrs k = bb'.instrs k
  instr : ∀ k < n, ∃ i, bb.instrs k = some i ∧ i.operation ≠ .bbEnd
  stop : ∃ i, bb.instrs n = some i ∧ i.operation = .bbEnd
  stop' : ∃ i, bb'.instrs n = some i ∧ i.operation = .bbEnd

variable {bb bb' : BasicBlock} {n n' : Nat}
  {contents : (w : Width) → RV64Ptr → Except MemError (BitVec (8 * w.size))}

theorem body_of_stop (hn : n < kCapacity)
    (hinstr : ∀ k < n, ∃ i, bb.instrs k = some i ∧ i.operation ≠ .bbEnd)
    (hstop : ∃ i, bb.instrs n = some i ∧ i.operation = .bbEnd) :
    bb.body = (List.range n).filterMap bb.instrs := by
  obtain ⟨m, hm⟩ : ∃ m, kCapacity = n + (m + 1) := ⟨kCapacity - n - 1, by omega⟩
  obtain ⟨i, hi, hend⟩ := hstop
  have hall : ∀ j ∈ (List.range n).filterMap bb.instrs, decide (j.operation ≠ .bbEnd) = true := by
    intro j hj
    obtain ⟨k, hk, hkj⟩ := List.mem_filterMap.mp hj
    obtain ⟨i', hi', hop⟩ := hinstr k (List.mem_range.mp hk)
    obtain rfl := Option.some.inj (hkj.symm.trans hi')
    exact decide_eq_true hop
  unfold body
  rw [hm, List.range_add, List.filterMap_append, List.takeWhile_append_of_pos hall,
    List.range_succ_eq_map, List.map_cons, List.filterMap_cons_some (b := i) (by simpa using hi),
    List.takeWhile_cons_of_neg (by simp [hend]), List.append_nil]

theorem Built.instrs (hb : bb.Built contents n) (hb' : bb'.Built contents n') (hpc : bb.pc = bb'.pc)
    {k : Nat} (hk : k < n) (hk' : k < n') : bb.instrs k = bb'.instrs k := by
  obtain ⟨word, hw, hi⟩ := hb.decoded k hk
  obtain ⟨word', hw', hi'⟩ := hb'.decoded k hk'
  rw [addr, hpc] at hw
  rw [hi, hi', Except.ok.inj (hw.symm.trans hw')]

theorem Built.le (hb : bb.Built contents n) (hb' : bb'.Built contents n') (hpc : bb.pc = bb'.pc) :
    n' ≤ n := by
  by_contra hlt
  have hpos := hb.pos
  have hcap := hb'.lt
  obtain hfull | ⟨i, hi, hjump⟩ := hb.last
  · omega
  · rw [hb.instrs hb' hpc (k := n - 1) (by omega) (by omega)] at hi
    exact absurd hjump (by simp [hb'.straight (n - 1) (by omega) i hi])

/-- The memory determines the block at an address. -/
theorem Built.level (hb : bb.Built contents n) (hb' : bb'.Built contents n')
    (hpc : bb.pc = bb'.pc) : n = n' ∧ bb.Level bb' n := by
  obtain rfl := Nat.le_antisymm (hb'.le hb hpc.symm) (hb.le hb' hpc)
  exact ⟨rfl, fun _ hk => hb.instrs hb' hpc hk hk, fun _ hk => hb.instr hk, hb.stop, hb'.stop⟩

theorem Level.body (hl : bb.Level bb' n) (hn : n < kCapacity) : bb.body = bb'.body := by
  have hinstr : ∀ k < n, ∃ i, bb'.instrs k = some i ∧ i.operation ≠ .bbEnd :=
    fun k hk => hl.instrs k hk ▸ hl.instr k hk
  rw [body_of_stop hn hl.instr hl.stop, body_of_stop hn hinstr hl.stop']
  exact List.filterMap_congr fun k hk => hl.instrs k (List.mem_range.mp hk)

theorem Built.words (hb : bb.Built contents n) : bb.words = {a | ∃ k < n, a = bb.addr k} := by
  refine Set.Subset.antisymm (hb.words_subset fun k hk => ⟨k, hk, rfl⟩) ?_
  rintro a ⟨k, hk, rfl⟩
  exact hb.addr_mem_words hk

theorem Built.words_eq (hb : bb.Built contents n) (hb' : bb'.Built contents n')
    (hpc : bb.pc = bb'.pc) : bb.words = bb'.words := by
  obtain ⟨rfl, -⟩ := hb.level hb' hpc
  rw [hb.words, hb'.words]
  simp only [addr, hpc]

theorem Built.inCode (hb : bb.Built contents n) : InCode Set.univ contents bb.pc := by
  rintro k ⟨hk, hgo⟩
  have hlt : k < n := by
    by_contra hnk
    have hpos := hb.pos
    obtain hfull | ⟨i, hi, hjump⟩ := hb.last
    · omega
    · obtain ⟨word, hw, hi'⟩ := hb.decoded (n - 1) (by omega)
      obtain ⟨word', hw', hstraight⟩ := hgo (n - 1) (by omega)
      obtain rfl := Except.ok.inj (hw.symm.trans hw')
      obtain rfl := Option.some.inj (hi.symm.trans hi')
      exact absurd hjump (by simp [hstraight])
  obtain ⟨word, hw, -⟩ := hb.decoded k hlt
  exact ⟨Set.mem_univ _, word, hw⟩

end BasicBlock

theorem BasicBlockRebuilder.append_congr {r r' : BasicBlockRebuilder} (instr : Instruction)
    (h : r.count = r'.count) : (r.append instr).1 = (r'.append instr).1 ∧
      (r.append instr).2.count = (r'.append instr).2.count := by
  unfold append
  rw [h]
  dsimp only
  split_ifs <;> exact ⟨rfl, rfl⟩

end Besm.Exec

namespace Besm.Sim

open Besm.Exec Besm.Mem

/-- What a callback can read of an event. -/
inductive Heard
  | fetched (pc : RV64Ptr) (body : List Instruction)
  | executed (instr : Instruction)

def HookEvent.heard : HookEvent → Heard
  | .bbFetched bb => .fetched bb.pc bb.body
  | .instrExecuted instr => .executed instr

theorem heard_append {l l' : List HookEvent} {e e' : HookEvent}
    (hl : l.map HookEvent.heard = l'.map HookEvent.heard) (he : e.heard = e'.heard) :
    (l ++ [e]).map HookEvent.heard = (l' ++ [e']).map HookEvent.heard := by
  rw [List.map_append, List.map_append, hl, List.map_singleton, List.map_singleton, he]

/-- What can be seen of a hart that does not show its blocks. -/
structure Observed where
  view : View
  instrsExecuted : BitVec 64
  heard : List Heard

variable {M N K : Type}

def Call.StoresApart (c : Call M) : Prop :=
  ∀ i, c.before.current = some i → c.before.StoresApart i

theorem Call.storesApart_of_none {c : Call M}
    (h : (c.before.current.bind fun i => storeWidth i.operation) = none) : c.StoresApart := by
  intro i hi w hw
  rw [hi, Option.bind_some, hw] at h
  cases h

theorem Call.Alike.storesApart {R : M → N → Prop} {c : Call M} {d : Call N} (h : c.Alike R d)
    (hc : c.StoresApart) : d.StoresApart := by
  cases h with
  | step hh => exact fun i hcur => hh.storesApart (hc i (hh.current.trans hcur))
  | run hh => exact fun i hcur => hh.storesApart (hc i (hh.current.trans hcur))

variable [Memory M] [Memory N] [Memory K]

def Hart.seen (h : Hart M) : Observed := ⟨h.view, h.instrsExecuted, h.hooks.map HookEvent.heard⟩

inductive Outcome.Like : Outcome M → Outcome N → Prop
  | running {h : Hart M} {k : Hart N} (hs : h.seen = k.seen) : Like (.running h) (.running k)
  | returned {h : Hart M} {k : Hart N} (hs : h.seen = k.seen) : Like (.returned h) (.returned k)
  | thrown (e : MemError) {h : Hart M} {k : Hart N} (hs : h.seen = k.seen) :
      Like (.thrown e h) (.thrown e k)
  | terminated : Like .terminated .terminated
  | undefined : Like .undefined .undefined

inductive Call.Like : Call M → Call N → Prop
  | step {h : Hart M} {k : Hart N} (hs : h.seen = k.seen) : Like (.step h) (.step k)

theorem Outcome.Like.hart {o : Outcome M} {p : Outcome N} (h : o.Like p) {t : Hart M}
    (ht : o.hart? = some t) : ∃ u, p.hart? = some u ∧ t.seen = u.seen := by
  cases h with
  | running hs => exact ⟨_, rfl, Option.some.inj ht ▸ hs⟩
  | returned hs => exact ⟨_, rfl, Option.some.inj ht ▸ hs⟩
  | thrown e hs => exact ⟨_, rfl, Option.some.inj ht ▸ hs⟩
  | terminated => cases ht
  | undefined => cases ht

theorem Call.Like.swap {c : Call M} {d : Call N} (h : c.Like d) : d.Like c := by
  cases h with
  | step hs => exact .step hs.symm

namespace Hart

variable {h : Hart M} {k : Hart N}

theorem seen_eq_iff : h.seen = k.seen ↔ h.view = k.view ∧
    h.instrsExecuted = k.instrsExecuted ∧
    h.hooks.map HookEvent.heard = k.hooks.map HookEvent.heard := by
  rw [seen, seen, Observed.mk.injEq]

theorem view_of_seen (hs : h.seen = k.seen) : h.view = k.view := congrArg Observed.view hs

theorem pc_of_seen (hs : h.seen = k.seen) : h.pc = k.pc :=
  congrArg (fun v : View => v.gprf.read GPRF.pc) (view_of_seen hs)

theorem contents_of_seen (hs : h.seen = k.seen) : Memory.contents h.mem = Memory.contents k.mem :=
  congrArg View.contents (view_of_seen hs)

end Hart

variable {R : M → N → Prop}

theorem Hart.Alike.seen (hm : Memory.Alike R) {h : Hart M} {k : Hart N} (hh : h.Alike R k) :
    h.seen = k.seen :=
  seen_eq_iff.mpr ⟨hh.view hm, hh.instrsExecuted, congrArg (List.map HookEvent.heard) hh.hooks⟩

theorem Outcome.Like.trans {o : Outcome M} {p : Outcome N} {q : Outcome K} (h : o.Like p)
    (h' : p.Like q) : o.Like q := by
  cases h with
  | running hs => cases h' with | running hs' => exact .running (hs.trans hs')
  | returned hs => cases h' with | returned hs' => exact .returned (hs.trans hs')
  | thrown e hs => cases h' with | thrown _ hs' => exact .thrown e (hs.trans hs')
  | terminated => cases h' with | terminated => exact .terminated
  | undefined => cases h' with | undefined => exact .undefined

theorem Outcome.Like.swap {o : Outcome M} {p : Outcome N} (h : o.Like p) : p.Like o := by
  cases h with
  | running hs => exact .running hs.symm
  | returned hs => exact .returned hs.symm
  | thrown e hs => exact .thrown e hs.symm
  | terminated => exact .terminated
  | undefined => exact .undefined

theorem Outcome.Alike.like (hm : Memory.Alike R) {o : Outcome M} {p : Outcome N}
    (h : o.Alike R p) : o.Like p := by
  cases h with
  | running hh => exact .running (hh.seen hm)
  | returned hh => exact .returned (hh.seen hm)
  | thrown e hh => exact .thrown e (hh.seen hm)
  | terminated => exact .terminated
  | undefined => exact .undefined

theorem Call.Like.alike_left (hm : Memory.Alike R) {c : Call M} {d : Call N} {e : Call K}
    (h : c.Alike R d) (h' : d.Like e) : c.Like e := by
  cases h' with
  | step hs => cases h with | step hh => exact .step ((hh.seen hm).trans hs)

theorem Call.Like.alike_right (hm : Memory.Alike R) {c : Call K} {d : Call M} {e : Call N}
    (h : c.Like d) (h' : d.Alike R e) : c.Like e := by
  cases h with
  | step hs => cases h' with | step hh => exact .step (hs.trans (hh.seen hm))

theorem Call.Like.onWord {c : Call M} {d : Call N} (h : c.Like d) (hc : c.OnWord) : d.OnWord := by
  cases h with
  | step hs =>
    have hpc := congrArg (fun v : View => v.gprf.read GPRF.pc) (congrArg Observed.view hs)
    exact (congrArg (fun a : RV64Ptr => a.toNat % 4 = 0) hpc).mp hc

end Besm.Sim
