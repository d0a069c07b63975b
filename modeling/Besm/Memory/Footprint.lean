import Besm.Memory.Stack

namespace Besm.Mem

/-- What an observer of a memory sees of its pages: fetches and loads take none,
and an accepted store takes the page of its address. -/
structure Memory.Footprint {M P : Type} [Memory M] (I : M → Prop) (pages : M → Set P)
    (page : RV64Ptr → Set P) : Prop where
  fetchWord : ∀ m, I m → ∀ a : RV64Ptr, a.toNat % 4 = 0 →
    I (Memory.fetchWord m a).2 ∧ pages (Memory.fetchWord m a).2 = pages m
  load : ∀ m, I m → ∀ w a, I (Memory.load m w a).2 ∧ pages (Memory.load m w a).2 = pages m
  accepted : ∀ m, I m → ∀ w a v, (Memory.store m w a v).1 = .ok () →
    I (Memory.store m w a v).2 ∧ pages (Memory.store m w a v).2 = pages m ∪ page a
  refused : ∀ m, I m → ∀ w a v, (Memory.store m w a v).1 ≠ .ok () →
    I (Memory.store m w a v).2 ∧ pages (Memory.store m w a v).2 = pages m

theorem Memory.Footprint.fetches {M P : Type} [Memory M] {I : M → Prop} {pages : M → Set P}
    {page : RV64Ptr → Set P} (hF : Memory.Footprint I pages page) (m : M) (m' : M)
    (hm : I m' ∧ pages m' = pages m) (a : RV64Ptr) (ha : a.toNat % 4 = 0) :
    I (Memory.fetchWord m' a).2 ∧ pages (Memory.fetchWord m' a).2 = pages m := by
  obtain ⟨hI, hpages⟩ := hF.fetchWord m' hm.1 a ha
  exact ⟨hI, hpages.trans hm.2⟩

namespace PhysMem

variable {m m' : PhysMem}

def pages (m : PhysMem) : Set (DeviceId × PageId) := {x | (m.rams x.1).pagemap x.2 ≠ none}

def pageOf (m : PhysMem) (a : RV64Ptr) : Set (DeviceId × PageId) :=
  {x | ∃ e ∈ m.devices, e.1.contains a = true ∧ x = (e.2, (m.rams e.2).getPageId (a - e.1.leftBorder))}

theorem pages_congr (h : m'.rams = m.rams) : m'.pages = m.pages := by
  unfold pages
  rw [h]

theorem Evolves.pageOf (h : m.Evolves m') (a : RV64Ptr) : m'.pageOf a = m.pageOf a := by
  unfold PhysMem.pageOf
  simp only [h.devices, RAM.getPageId_congr (h.sizes _)]

theorem pageOf_eq (hd : m.Disjoint) {e : Mapping} (he : e ∈ m.devices) {a : RV64Ptr}
    (ha : e.1.contains a = true) :
    m.pageOf a = {(e.2, (m.rams e.2).getPageId (a - e.1.leftBorder))} := by
  refine Set.ext fun x => ⟨?_, fun hx => ⟨e, he, ha, hx⟩⟩
  rintro ⟨e', he', ha', rfl⟩
  rw [hd e he e' he' a ha ha']
  rfl

theorem pages_touch {d : DeviceId} {r' : RAM} {host' : Host} {id : PageId} {p : HostPtr}
    (ht : (m.rams d).Touches m.host id p r' host') (h : m'.rams = Function.update m.rams d r') :
    m'.pages = m.pages ∪ {(d, id)} := by
  refine Set.ext fun ⟨d', id'⟩ => ?_
  change (m'.rams d').pagemap id' ≠ none ↔ (m.rams d').pagemap id' ≠ none ∨ (d', id') = (d, id)
  rw [h]
  by_cases hd : d' = d
  · subst hd
    rw [Function.update_self, ht.pagemap]
    by_cases hid : id' = id
    · rw [hid, Function.update_self]
      exact ⟨fun _ => .inr rfl, fun _ => Option.some_ne_none _⟩
    · rw [Function.update_of_ne hid]
      exact ⟨.inl, fun h => h.resolve_right fun heq => hid (Prod.mk.inj heq).2⟩
  · rw [Function.update_of_ne hd]
    exact ⟨.inl, fun h => h.resolve_right fun heq => hd (Prod.mk.inj heq).1⟩

theorem pages_store (hr : m.Regular) {w : Width} {a : RV64Ptr} {v : BitVec (8 * w.size)}
    (hok : (m.store w a v).1 = .ok ()) : (m.store w a v).2.pages = m.pages ∪ m.pageOf a := by
  obtain ⟨e, he, ha, hs⟩ | ⟨-, hs⟩ := store_cases hr.cached w a v
  · obtain ⟨-, hrefused⟩ | ⟨-, p, r', host', htouch, haccepted⟩ :=
      RAM.store_cases (hr.wired e he) (hr.granted e he) w (a - e.1.leftBorder) v
    · rw [hs _ _ _ hrefused] at hok
      cases hok
    · rw [hs _ _ _ haccepted, pageOf_eq hr.disjoint he ha]
      exact pages_touch htouch rfl
  · rw [hs] at hok
    cases hok

theorem pages_refused (hr : m.Regular) {w : Width} {a : RV64Ptr} {v : BitVec (8 * w.size)}
    (hno : (m.store w a v).1 ≠ .ok ()) : (m.store w a v).2.pages = m.pages := by
  obtain ⟨hok, -⟩ | ⟨-, ⟨hrams, -⟩, -⟩ := store_outcome hr.toWired hr.granted w a v
  · exact absurd hok hno
  · exact pages_congr hrams

end PhysMem

namespace Prefetcher

open PhysMem

theorem footprint {m : PhysMem} (hr : m.Regular) :
    Memory.Footprint (fun f : Prefetcher => Sound m f ∧ f.mmu.pMem.Regular)
      (fun f => f.mmu.pMem.pages) m.pageOf where
  fetchWord f h a ha := by
    obtain ⟨hev, hrams, hhost⟩ := h.1.loadWord_keeps (v := a)
    exact ⟨⟨h.1.loadWord ha, h.2.congr hev hrams hhost⟩, pages_congr hrams⟩
  load f h w a := by
    obtain ⟨hrams, -⟩ := load_keeps h.1.evolves.wired w a
    exact ⟨⟨(Step.load f w a).sound hr.granted h.1, h.2.load w a⟩, pages_congr hrams⟩
  accepted f h w a v hok := by
    refine ⟨⟨(Step.store f w a v).sound hr.granted h.1, h.2.store w a v⟩, ?_⟩
    rw [← h.1.evolves.pageOf]
    exact pages_store h.2 hok
  refused f h w a v hno :=
    ⟨⟨(Step.store f w a v).sound hr.granted h.1, h.2.store w a v⟩, pages_refused h.2 hno⟩

end Prefetcher

end Besm.Mem
