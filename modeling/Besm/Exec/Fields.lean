import Besm.Exec.Csrf
import Mathlib.Data.List.Pairwise
import Mathlib.Data.List.TakeWhile

namespace Besm.Exec

open Besm.Util

namespace CSRField

def accepts (f : CSRField) (value : RV64UDWord) : Bool :=
  match f.spec with
  | .wpri => false
  | .unchecked => true
  | _ => f.val (extractMasked f.mask value)

def refuses (f : CSRField) (value : RV64UDWord) : Bool :=
  match f.spec with
  | .wlrl => !f.val (extractMasked f.mask value)
  | _ => false

/-- A field of neighbouring bits that does not stop a write. -/
structure Plain (f : CSRField) : Prop where
  spec : f.spec ≠ .wlrl
  mask : ∃ bits offset, f.mask = bitMask 64 bits offset ∧ offset + bits ≤ 64 ∧ 0 < bits

variable {f : CSRField}

theorem Plain.refuses (h : f.Plain) (value : RV64UDWord) : f.refuses value = false := by
  have hspec := h.spec
  unfold CSRField.refuses
  cases hs : f.spec with
  | wlrl => exact absurd hs hspec
  | _ => rfl

theorem extract_eq (f : CSRField) (value raw : RV64UDWord) : f.extract value raw =
    (!f.refuses value,
      if f.accepts value then (value &&& f.mask) ||| (raw &&& ~~~f.mask) else raw) := by
  have hinsert := insertMasked_extractMasked f.mask value raw
  unfold extract set refuses accepts
  cases f.spec with
  | wpri => rfl
  | unchecked => exact Prod.ext rfl hinsert
  | _ =>
    dsimp only
    split_ifs with hv
    · simp [hinsert, hv]
    · simp [hv]

theorem set_outside (f : CSRField) (value raw : RV64UDWord) {i : Nat}
    (hi : f.mask.getLsbD i = false) : (f.set value raw).2.getLsbD i = raw.getLsbD i := by
  have hinsert := getLsbD_insertMasked_outside value raw hi
  unfold set
  cases f.spec with
  | wpri => rfl
  | unchecked => exact hinsert
  | _ =>
    dsimp only
    split_ifs
    · exact hinsert
    · rfl

theorem get_congr (f : CSRField) {raw raw' : RV64UDWord}
    (h : ∀ i, f.mask.getLsbD i = true → raw.getLsbD i = raw'.getLsbD i) :
    f.get raw = f.get raw' := by
  unfold get
  rw [extractMasked_eq_iff.mpr h]

theorem get_eq_iff (hspec : f.spec ≠ .wpri) {raw raw' : RV64UDWord} :
    f.get raw = f.get raw' ↔ ∀ i, f.mask.getLsbD i = true → raw.getLsbD i = raw'.getLsbD i := by
  rw [← extractMasked_eq_iff]
  unfold get
  split
  · contradiction
  · rfl

end CSRField

namespace CSRStructure

def accepted : CSRStructure → (value : RV64UDWord) → RV64UDWord
  | [], _ => 0
  | f :: fields, value =>
    if f.accepts value then f.mask ||| accepted fields value else accepted fields value

def filtered (fields : CSRStructure) (value raw : RV64UDWord) : RV64UDWord :=
  (value &&& accepted fields value) ||| (raw &&& ~~~accepted fields value)

variable {fields : CSRStructure}

theorem accepted_iff (value : RV64UDWord) (i : Nat) : (accepted fields value).getLsbD i = true ↔
    ∃ f ∈ fields, f.accepts value = true ∧ f.mask.getLsbD i = true := by
  induction fields with
  | nil => simp [accepted]
  | cons f fields ih =>
    unfold accepted
    by_cases ha : f.accepts value = true
    · simp [ha, ih]
    · simp [ha, ih]

theorem getLsbD_filtered (value raw : RV64UDWord) (i : Nat) :
    (filtered fields value raw).getLsbD i =
      if (accepted fields value).getLsbD i then value.getLsbD i else raw.getLsbD i := by
  rw [filtered, BitVec.getLsbD_or, BitVec.getLsbD_and, BitVec.getLsbD_and, BitVec.getLsbD_not]
  by_cases hi : i < 64
  · cases (accepted fields value).getLsbD i <;> simp [hi]
  · simp [BitVec.getLsbD_of_ge _ _ (Nat.not_lt.mp hi)]

theorem filtered_nil (value raw : RV64UDWord) : filtered [] value raw = raw := by
  apply BitVec.eq_of_getLsbD_eq
  intro i hi
  rw [getLsbD_filtered, if_neg (by simp [accepted])]

theorem filtered_cons (f : CSRField) (value raw : RV64UDWord) :
    filtered (f :: fields) value raw = filtered fields value
      (if f.accepts value then (value &&& f.mask) ||| (raw &&& ~~~f.mask) else raw) := by
  apply BitVec.eq_of_getLsbD_eq
  intro i hi
  have hcons : accepted (f :: fields) value =
    if f.accepts value then f.mask ||| accepted fields value else accepted fields value := rfl
  rw [getLsbD_filtered, getLsbD_filtered, hcons]
  by_cases ha : f.accepts value = true
  · rw [if_pos ha, if_pos ha, BitVec.getLsbD_or, BitVec.getLsbD_or, BitVec.getLsbD_and,
      BitVec.getLsbD_and, BitVec.getLsbD_not, decide_eq_true hi]
    cases f.mask.getLsbD i <;> cases (accepted fields value).getLsbD i <;> simp
  · rw [if_neg ha, if_neg ha]

/-- The fields before the one that stops the write. -/
def committed (fields : CSRStructure) (value : RV64UDWord) : CSRStructure :=
  fields.takeWhile fun f => !f.refuses value

theorem write_eq (value raw : RV64UDWord) : fields.write value raw =
    (fields.all (fun f => !f.refuses value), (committed fields value).filtered value raw) := by
  induction fields generalizing raw with
  | nil => exact Prod.ext rfl (filtered_nil value raw).symm
  | cons f fields ih =>
    rw [write, f.extract_eq, committed, List.all_cons]
    cases hr : f.refuses value with
    | true =>
      have ha : f.accepts value = false := by
        unfold CSRField.refuses at hr
        unfold CSRField.accepts
        split at hr
        · simp_all
        · cases hr
      simp [hr, ha, filtered_nil]
    | false =>
      rw [List.takeWhile_cons_of_pos (by simp [hr]), filtered_cons]
      exact ih _

theorem write_accepted {value : RV64UDWord} (h : ∀ f ∈ fields, f.refuses value = false)
    (raw : RV64UDWord) : fields.write value raw = (true, fields.filtered value raw) := by
  have hcommitted : committed fields value = fields :=
    List.takeWhile_eq_self_iff.mpr fun f hf => by simp [h f hf]
  have hall : fields.all (fun f => !f.refuses value) = true :=
    List.all_eq_true.mpr fun f hf => by simp [h f hf]
  rw [write_eq, hcommitted, hall]

theorem filtered_self (raw : RV64UDWord) : fields.filtered raw raw = raw := by
  apply BitVec.eq_of_getLsbD_eq
  intro i hi
  rw [getLsbD_filtered, ite_self]

def Apart (fields : CSRStructure) : Prop :=
  fields.Pairwise fun f g => f.mask &&& g.mask = 0

instance (fields : CSRStructure) : Decidable fields.Apart :=
  inferInstanceAs (Decidable (List.Pairwise _ _))

theorem Apart.field_eq (h : fields.Apart) {f g : CSRField} (hf : f ∈ fields) (hg : g ∈ fields)
    {i : Nat} (hi : f.mask.getLsbD i = true) (hi' : g.mask.getLsbD i = true) : f = g := by
  by_contra hne
  have : Std.Symm fun f g : CSRField => f.mask &&& g.mask = 0 :=
    ⟨fun _ _ hand => (BitVec.and_comm _ _).trans hand⟩
  have hbit : (f.mask &&& g.mask).getLsbD i = true := by
    rw [BitVec.getLsbD_and, hi, hi']
    rfl
  rw [List.Pairwise.forall h hf hg hne] at hbit
  simp at hbit

theorem Apart.accepted_eq (h : fields.Apart) {f : CSRField} (hf : f ∈ fields) {i : Nat}
    (hi : f.mask.getLsbD i = true) (value : RV64UDWord) :
    (accepted fields value).getLsbD i = f.accepts value := by
  rw [Bool.eq_iff_iff, accepted_iff]
  constructor
  · rintro ⟨g, hg, ha, hi'⟩
    rwa [h.field_eq hf hg hi hi']
  · exact fun ha => ⟨f, hf, ha, hi⟩

theorem get_filtered (h : fields.Apart) {f : CSRField} (hf : f ∈ fields)
    (value raw : RV64UDWord) : f.get (fields.filtered value raw) =
      if f.accepts value then f.get value else f.get raw := by
  split_ifs with ha
  · refine f.get_congr fun i hi => ?_
    rw [getLsbD_filtered, h.accepted_eq hf hi, if_pos ha]
  · refine f.get_congr fun i hi => ?_
    rw [getLsbD_filtered, h.accepted_eq hf hi, if_neg ha]

theorem filtered_outside (value raw : RV64UDWord) {i : Nat}
    (hi : ∀ f ∈ fields, f.mask.getLsbD i = false) :
    (fields.filtered value raw).getLsbD i = raw.getLsbD i := by
  have hacc : ¬(accepted fields value).getLsbD i = true := by
    rw [accepted_iff]
    rintro ⟨f, hf, -, hm⟩
    rw [hi f hf] at hm
    cases hm
  rw [getLsbD_filtered, if_neg hacc]

def Clear (fields : CSRStructure) (raw : RV64UDWord) : Prop :=
  ∀ i, (∀ f ∈ fields, f.mask.getLsbD i = false) → raw.getLsbD i = false

theorem Clear.filtered {raw : RV64UDWord} (h : fields.Clear raw) (value : RV64UDWord) :
    fields.Clear (fields.filtered value raw) := fun i hi => by
  rw [filtered_outside value raw hi]
  exact h i hi

theorem Clear.set {raw : RV64UDWord} (h : fields.Clear raw) {f : CSRField} (hf : f ∈ fields)
    (value : RV64UDWord) : fields.Clear (f.set value raw).2 :=
  fun i hi => by
  rw [f.set_outside value raw (hi f hf)]
  exact h i hi

def Valid (fields : CSRStructure) (raw : RV64UDWord) : Prop :=
  ∀ f ∈ fields, f.spec = .warl → f.val (f.get raw) = true

theorem Valid.filtered (h : fields.Apart) {raw : RV64UDWord}
    (hv : fields.Valid raw) (value : RV64UDWord) : fields.Valid (fields.filtered value raw) := by
  intro f hf hspec
  rw [get_filtered h hf]
  split_ifs with ha
  · unfold CSRField.accepts at ha
    unfold CSRField.get
    rw [hspec] at ha ⊢
    exact ha
  · exact hv f hf hspec

end CSRStructure

theorem CSRField.Plain.of {f : CSRField} (bits offset : Nat)
    (h : f.spec ≠ .wlrl ∧ f.mask = bitMask 64 bits offset ∧ offset + bits ≤ 64 ∧ 0 < bits) :
    f.Plain :=
  ⟨h.1, bits, offset, h.2⟩

theorem ICSR.fields_plain (reg : ICSR) : ∀ f ∈ reg.fields, f.Plain := by
  intro f hf
  cases reg
  case mhartid =>
    obtain rfl := List.mem_singleton.mp hf
    exact .of 2 0 (by decide)
  case mstatus =>
    simp only [fields, MStatus.fields, List.mem_cons, List.not_mem_nil, or_false] at hf
    obtain rfl | rfl | rfl | rfl | rfl | rfl := hf
    · exact .of 1 1 (by decide)
    · exact .of 1 3 (by decide)
    · exact .of 1 5 (by decide)
    · exact .of 1 7 (by decide)
    · exact .of 1 8 (by decide)
    · exact .of 2 11 (by decide)
  case mepc =>
    obtain rfl := List.mem_singleton.mp hf
    exact .of 64 0 (by decide)
  case mtvec =>
    simp only [fields, MTVec.fields, List.mem_cons, List.not_mem_nil, or_false] at hf
    obtain rfl | rfl := hf
    · exact .of 2 0 (by decide)
    · exact .of 62 2 (by decide)
  case mcause =>
    simp only [fields, MCause.fields, List.mem_cons, List.not_mem_nil, or_false] at hf
    obtain rfl | rfl := hf
    · exact .of 1 63 (by decide)
    · exact .of 63 0 (by decide)

theorem ICSR.fields_apart (reg : ICSR) : reg.fields.Apart := by
  cases reg <;> decide

namespace CSRF

variable {c : CSRF} {id : RV64UDWord} {reg : ICSR}

theorem update_granted (hreg : registers id = some reg) (hfit : c.fitPrivillege id = true)
    (hro : registerReadOnly id = false) (f : RV64UDWord → RV64UDWord) :
    c.update id f = (some (c.raw reg),
      c.setRaw reg (reg.fields.filtered (f (c.raw reg)) (c.raw reg))) := by
  unfold update
  rw [hfit, hro, hreg]
  dsimp only
  rw [CSRStructure.write_accepted fun g hg => (ICSR.fields_plain reg g hg).refuses _]
  rfl

theorem update_denied
    (h : c.fitPrivillege id = false ∨ registerReadOnly id = true ∨ registers id = none)
    (f : RV64UDWord → RV64UDWord) : c.update id f = (none, c) := by
  unfold update
  split_ifs with hno
  · rfl
  · obtain hfit | hro | hreg := h
    · simp [hfit] at hno
    · simp [hro] at hno
    · rw [hreg]

theorem read_granted (hreg : registers id = some reg) (hfit : c.fitPrivillege id = true) :
    c.read id = some (c.raw reg) := by
  simp [read, hfit, hreg]

theorem read_denied (h : c.fitPrivillege id = false ∨ registers id = none) : c.read id = none := by
  unfold read
  obtain hfit | hreg := h
  · simp [hfit]
  · simp [hreg]

theorem setRaw_raw (c : CSRF) (reg : ICSR) : c.setRaw reg (c.raw reg) = c := by
  cases reg <;> rfl

theorem raw_setRaw (c : CSRF) (reg reg' : ICSR) (value : RV64UDWord) :
    (c.setRaw reg value).raw reg' = if reg' = reg then value else c.raw reg' := by
  cases reg <;> cases reg' <;> rfl

@[simp] theorem setRaw_privillege (c : CSRF) (reg : ICSR) (value : RV64UDWord) :
    (c.setRaw reg value).privillege = c.privillege := by
  cases reg <;> rfl

/-- An access either is refused and changes nothing, or writes one register. -/
theorem update_cases (c : CSRF) (rawId : RV64UDWord) (f : RV64UDWord → RV64UDWord) :
    c.update rawId f = (none, c) ∨
      ∃ reg, c.fitPrivillege rawId = true ∧ registers rawId = some reg ∧
        c.update rawId f =
          (some (c.raw reg), c.setRaw reg (reg.fields.write (f (c.raw reg)) (c.raw reg)).2) := by
  unfold update
  by_cases hfit : c.fitPrivillege rawId = true ∧ registerReadOnly rawId = false
  · obtain ⟨hfit, hro⟩ := hfit
    rw [hfit, hro]
    cases hreg : registers rawId with
    | none => exact .inl rfl
    | some reg =>
      have hw := CSRStructure.write_accepted
        (fun g hg => (ICSR.fields_plain reg g hg).refuses (f (c.raw reg))) (c.raw reg)
      refine .inr ⟨reg, rfl, rfl, ?_⟩
      simp only [Bool.not_true, Bool.or_self, Bool.false_eq_true, if_false]
      split
      · simp_all
      · simp_all
  · left
    rw [if_pos]
    simpa [or_iff_not_imp_left] using hfit

theorem update_privillege (c : CSRF) (rawId : RV64UDWord) (f : RV64UDWord → RV64UDWord) :
    (c.update rawId f).2.privillege = c.privillege := by
  obtain h | ⟨reg, -, -, h⟩ := c.update_cases rawId f <;> rw [h]
  exact setRaw_privillege c reg _

theorem update_refused (c : CSRF) (rawId : RV64UDWord) (f : RV64UDWord → RV64UDWord)
    (h : (c.update rawId f).1 = none) : (c.update rawId f).2 = c := by
  obtain hu | ⟨reg, -, -, hu⟩ := c.update_cases rawId f
  · rw [hu]
  · rw [hu] at h
    cases h

end CSRF

end Besm.Exec
