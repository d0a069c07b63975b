import Besm.Exec.Fields

namespace Besm.Exec

open Besm.Util Besm.Lib.Masks

namespace CSRStructure

variable {fields : CSRStructure} {value raw raw' : RV64UDWord}

/-- A register after a write that was accepted: each field has its part of the
value, or what it had before. -/
structure Updates (fields : CSRStructure) (value raw raw' : RV64UDWord) : Prop where
  taken : ∀ f ∈ fields,
    f.spec = .unchecked ∨ f.spec = .wlrl ∨
      f.spec = .warl ∧ f.val (extractMasked f.mask value) = true →
    f.get raw' = extractMasked f.mask value
  kept : ∀ f ∈ fields, f.spec = .warl → f.val (extractMasked f.mask value) = false →
    f.get raw' = f.get raw ∧ ∀ i, f.mask.getLsbD i = true → raw'.getLsbD i = raw.getLsbD i
  reserved : ∀ f ∈ fields, f.spec = .wpri →
    f.get raw' = 0 ∧ ∀ i, f.mask.getLsbD i = true → raw'.getLsbD i = raw.getLsbD i
  outside : ∀ i, (∀ f ∈ fields, f.spec ≠ .wpri → f.mask.getLsbD i = false) →
    raw'.getLsbD i = raw.getLsbD i

theorem Apart.getLsbD_filtered (h : fields.Apart) {f : CSRField} (hf : f ∈ fields) {i : Nat}
    (hi : f.mask.getLsbD i = true) : (fields.filtered value raw).getLsbD i =
      if f.accepts value then value.getLsbD i else raw.getLsbD i := by
  rw [CSRStructure.getLsbD_filtered, h.accepted_eq hf hi]

theorem updates_filtered (h : fields.Apart) (ha : ∀ f ∈ fields, f.refuses value = false) :
    fields.Updates value raw (fields.filtered value raw) where
  taken f hf hspec := by
    have hacc : f.accepts value = true := by
      have hr := ha f hf
      unfold CSRField.refuses at hr
      unfold CSRField.accepts
      obtain hs | hs | ⟨hs, hv⟩ := hspec
      · rw [hs]
      · rw [hs] at hr ⊢
        simpa using hr
      · rw [hs]
        exact hv
    rw [get_filtered h hf, if_pos hacc]
    unfold CSRField.get
    obtain hs | hs | ⟨hs, -⟩ := hspec <;> rw [hs]
  kept f hf hspec hv := by
    have hacc : ¬f.accepts value = true := by
      unfold CSRField.accepts
      simp [hspec, hv]
    refine ⟨?_, fun i hi => ?_⟩
    · rw [get_filtered h hf, if_neg hacc]
    · rw [h.getLsbD_filtered hf hi, if_neg hacc]
  reserved f hf hspec := by
    have hacc : ¬f.accepts value = true := by
      unfold CSRField.accepts
      simp [hspec]
    refine ⟨?_, fun i hi => ?_⟩
    · unfold CSRField.get
      rw [hspec]
    · rw [h.getLsbD_filtered hf hi, if_neg hacc]
  outside i hi := by
    have hacc : ¬(accepted fields value).getLsbD i = true := by
      rw [accepted_iff]
      rintro ⟨f, hf, hacc, hm⟩
      refine absurd (hi f hf fun hs => ?_) (by simp [hm])
      unfold CSRField.accepts at hacc
      simp [hs] at hacc
    rw [CSRStructure.getLsbD_filtered, if_neg hacc]

theorem write_accepts_iff :
    (fields.write value raw).1 = true ↔ ∀ f ∈ fields, f.refuses value = false := by
  rw [write_eq, List.all_eq_true]
  simp

/-- An accepted write updates exactly the fields that take their part of the
value; to write back what a register of legal values holds changes nothing. -/
theorem write_updates (h : fields.Apart) (value raw : RV64UDWord) :
    (∀ raw', fields.write value raw = (true, raw') → fields.Updates value raw raw') ∧
      ((∀ f ∈ fields, f.spec = .warl ∨ f.spec = .wlrl → f.val (f.get raw) = true) →
        fields.write raw raw = (true, raw)) := by
  constructor
  · intro raw' hw
    have haccepted := write_accepts_iff.mp (congrArg Prod.fst hw)
    rw [write_accepted haccepted] at hw
    obtain ⟨-, rfl⟩ := Prod.mk.inj hw
    exact updates_filtered h haccepted
  · intro hlegal
    have haccepted : ∀ f ∈ fields, f.refuses raw = false := by
      intro f hf
      unfold CSRField.refuses
      split
      case h_1 hs =>
        have hv := hlegal f hf (.inr hs)
        unfold CSRField.get at hv
        rw [hs] at hv
        simp [hv]
      · rfl
    rw [write_accepted haccepted, filtered_self]

theorem write_updates_each :
    Updates [csrUncheckedField 0b10001 0, ⟨0b00010, .wpri, fun _ => false, 0⟩,
        csrWARLField 0b00100 (fun value => value = 0) 0,
        ⟨0b101000, .wlrl, fun value => value ≠ 0, 0⟩] 0b110111 0b101010 0b110011 ∧
      write [csrUncheckedField 0b10001 0, ⟨0b00010, .wpri, fun _ => false, 0⟩,
        csrWARLField 0b00100 (fun value => value = 0) 0,
        ⟨0b101000, .wlrl, fun value => value ≠ 0, 0⟩] 0b101010 0b101010 = (true, 0b101010) :=
  ⟨(write_updates (by decide) _ _).1 _ (by decide +kernel),
    (write_updates (by decide) 0 _).2 (by decide +kernel)⟩

def Atomic (fields : CSRStructure) (value raw : RV64UDWord) : Prop :=
  (fields.write value raw).1 = false → (fields.write value raw).2 = raw

theorem filtered_eq_self_iff : fields.filtered value raw = raw ↔
    ∀ f ∈ fields, f.accepts value = true → f.get value = f.get raw := by
  constructor
  · intro he f hf ha
    refine f.get_congr fun i hi => ?_
    have hacc := (accepted_iff value i).mpr ⟨f, hf, ha, hi⟩
    rw [← he, getLsbD_filtered, if_pos hacc]
  · intro hget
    apply BitVec.eq_of_getLsbD_eq
    intro i hi
    rw [getLsbD_filtered]
    split_ifs with hacc
    · obtain ⟨f, hf, ha, hm⟩ := (accepted_iff value i).mp hacc
      refine (CSRField.get_eq_iff fun hs => ?_).mp (hget f hf ha) i hm
      unfold CSRField.accepts at ha
      simp [hs] at ha
    · rfl

/-- A refused write is atomic exactly if the fields that were committed before
the refusal had their part of the value already; the register file has no register
that refuses a value, and its own refusals come before any write. -/
theorem write_atomic (fields : CSRStructure) (value raw : RV64UDWord) :
    (fields.Atomic value raw ↔ ((∃ f ∈ fields, f.refuses value = true) →
      ∀ f ∈ fields.committed value, f.accepts value = true → f.get value = f.get raw)) ∧
    ∀ (c : CSRF) (rawId : RV64UDWord) (f : RV64UDWord → RV64UDWord),
      (c.update rawId f).1 = none → (c.update rawId f).2 = c := by
  refine ⟨?_, fun c rawId f => c.update_refused rawId f⟩
  have hrefused : (fields.write value raw).1 = false ↔ ∃ f ∈ fields, f.refuses value = true := by
    rw [← Bool.not_eq_true, write_accepts_iff]
    simp
  unfold Atomic
  rw [hrefused, ← filtered_eq_self_iff, write_eq]

/-- The field before the one that refuses has its new value. -/
theorem write_not_atomic : ¬Atomic [csrUncheckedField 0b01 0, ⟨0b10, .wlrl, fun _ => false, 0⟩]
    0b11 0 := by
  unfold Atomic
  decide +kernel

def ResetEstablishes (fields : CSRStructure) : Prop :=
  ∀ raw, (∀ f ∈ fields, f.spec ≠ .wpri → f.get (fields.reset raw) = f.resetValue) ∧
    fields.Clear (fields.reset raw)

theorem reset_append (init : CSRStructure) (last : CSRField) (raw : RV64UDWord) :
    reset (init ++ [last]) raw = extractMasked last.mask last.resetValue := by
  induction init generalizing raw with
  | nil => rfl
  | cons f init ih => exact ih (f.reset raw)

theorem get_eq_zero {f : CSRField} (h : ∀ i, f.mask.getLsbD i = true → raw.getLsbD i = false) :
    f.get raw = 0 := by
  have hzero : extractMasked f.mask raw = 0 :=
    (gathers_extractMasked f.mask raw).unique fun k => by
      refine (gathers_zero f.mask k).trans (exists_congr fun i => and_congr_right fun hi => ?_)
      simp [h i hi]
  unfold CSRField.get
  split
  · rfl
  · exact hzero

/-- Each field overwrites what the fields before it were reset to, with its
reset value packed a second time: that works for a last field over the low bits,
and for fields that reset to zero. -/
theorem reset_establishes_iff (init : CSRStructure) (last : CSRField)
    (h : Apart (init ++ [last])) (hwpri : ∀ f ∈ init ++ [last], f.spec = .wpri → f.resetValue = 0) :
    ResetEstablishes (init ++ [last]) ↔ Fills last.mask last.resetValue ∧
      ∀ f ∈ init, f.spec ≠ .wpri → f.resetValue = 0 := by
  have hlast : last ∈ init ++ [last] := by simp
  have hpack := gathers_extractMasked last.mask last.resetValue
  have hinit : Fills last.mask last.resetValue → ∀ f ∈ init, f.get last.resetValue = 0 := by
    intro hfills f hf
    refine get_eq_zero fun i hi => Bool.eq_false_iff.mpr fun hv => ?_
    have happart := (List.pairwise_append.mp h).2.2 f hf last (by simp)
    have hbit : (f.mask &&& last.mask).getLsbD i = true := by
      rw [BitVec.getLsbD_and, hi, hfills i hv i le_rfl]
      rfl
    rw [happart] at hbit
    simp at hbit
  unfold ResetEstablishes
  simp only [reset_append]
  constructor
  · intro hr
    have hfills : Fills last.mask last.resetValue := by
      by_cases hs : last.spec = .wpri
      · rw [hwpri last hlast hs]
        intro i hi
        simp at hi
      · have hget := (hr 0).1 last hlast hs
        unfold CSRField.get at hget
        split at hget
        · contradiction
        · have hback := gathers_extractMasked last.mask (extractMasked last.mask last.resetValue)
          rw [hget] at hback
          exact fills_of_gathers hpack hback
    refine ⟨hfills, fun f hf hs => ?_⟩
    rw [← (hr 0).1 f (List.mem_append_left _ hf) hs, hpack.unique hfills.gathers, hinit hfills f hf]
  · rintro ⟨hfills, hzero⟩ raw
    have heq := hpack.unique hfills.gathers
    rw [heq]
    refine ⟨fun f hf hs => ?_, fun i hi => Bool.eq_false_iff.mpr fun hv => ?_⟩
    · obtain hf | hf := List.mem_append.mp hf
      · rw [hinit hfills f hf, hzero f hf hs]
      · obtain rfl := List.mem_singleton.mp hf
        unfold CSRField.get
        split
        · contradiction
        · exact heq
    · exact absurd (hfills i hv i le_rfl) (by simp [hi last hlast])

/-- A field of the low bits, listed last, after one that resets to zero. -/
theorem reset_establishes_low :
    ResetEstablishes [csrUncheckedField 0b100 0, csrUncheckedField 0b011 2] := by
  refine (reset_establishes_iff [csrUncheckedField 0b100 0] (csrUncheckedField 0b011 2) (by decide)
    (by decide)).mpr ⟨fun i hi j hj => ?_, by decide⟩
  have hbits : ∀ i < 64, (2 : RV64UDWord).getLsbD i = true → ∀ j ≤ i,
      (0b011 : RV64UDWord).getLsbD j = true := by decide
  exact hbits i (BitVec.lt_of_getLsbD hi) hi j hj

/-- One field, its bit above the lowest, that resets to one. -/
theorem reset_not_established : ¬ResetEstablishes [csrUncheckedField 0b10 1] := by
  intro h
  have hget := (h 0).1 _ (List.mem_singleton.mpr rfl) (by decide)
  revert hget
  decide +kernel

end CSRStructure

end Besm.Exec
