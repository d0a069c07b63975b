import Besm.RiscvTypes

namespace Besm.Util

/-- A segment as the ELF library hands it out, with the bytes its data pointer
leads to. -/
structure ElfSegment where
  type : RV64UWord
  virtualAddress : RV64Ptr
  data : Nat → BitVec 8
  fileSize : RV64Size

structure Elfio where
  fileClass : RV64UChar
  encoding : RV64UChar
  machine : RV64UHWord
  segments : List ElfSegment

inductive ElfError
  | invalidELFFormat (message : String)
  | unavailableELFRequirements (message : String)
  deriving DecidableEq, Repr

structure LoadableSegment where
  address : RV64Ptr
  data : Nat → BitVec 8
  size : RV64Size

/-- The parser keeps the segments that it has collected once. -/
structure ElfParser where
  reader : Elfio
  loadableSegments : List LoadableSegment

namespace ElfParser

def fileClass : RV64UChar := 2
def encoding : RV64UChar := 1
def arch : RV64UHWord := 243
def ptLoad : RV64UWord := 1

def checkRequirements (reader : Elfio) : Except ElfError Unit :=
  if reader.fileClass ≠ fileClass then .error (.unavailableELFRequirements "Wrong ELF file class.")
  else if reader.encoding ≠ encoding then
    .error (.unavailableELFRequirements "Wrong ELF encoding.")
  else if reader.machine ≠ arch then
    .error (.unavailableELFRequirements "Wrong ELF target architecture.")
  else .ok ()

/-- The constructor. `load` is the ELF library's. -/
def createParser (load : String → Option Elfio) (elfPath : String) : Except ElfError ElfParser :=
  match load elfPath with
  | none => .error (.invalidELFFormat ("Invalid ELF file: " ++ elfPath))
  | some reader =>
    match checkRequirements reader with
    | .error e => .error e
    | .ok () => .ok ⟨reader, []⟩

def loadable (segment : ElfSegment) : Option LoadableSegment :=
  if segment.type = ptLoad then
    some ⟨segment.virtualAddress, segment.data, segment.fileSize⟩
  else none

def getLoadableSegments (p : ElfParser) : List LoadableSegment × ElfParser :=
  if p.loadableSegments.isEmpty then
    let segments := p.reader.segments.filterMap loadable
    (segments, { p with loadableSegments := segments })
  else (p.loadableSegments, p)

structure Suits (reader : Elfio) : Prop where
  fileClass : reader.fileClass = ElfParser.fileClass
  encoding : reader.encoding = ElfParser.encoding
  arch : reader.machine = ElfParser.arch

theorem checkRequirements_ok {reader : Elfio} : checkRequirements reader = .ok () ↔ Suits reader := by
  unfold checkRequirements
  split_ifs with hc he hm
  · exact iff_of_false nofun fun h => hc h.fileClass
  · exact iff_of_false nofun fun h => he h.encoding
  · exact iff_of_false nofun fun h => hm h.arch
  · exact iff_of_true rfl ⟨not_not.mp hc, not_not.mp he, not_not.mp hm⟩

theorem createParser_ok {load : String → Option Elfio} {elfPath : String} {p : ElfParser} :
    createParser load elfPath = .ok p ↔
      ∃ reader, load elfPath = some reader ∧ Suits reader ∧ p = ⟨reader, []⟩ := by
  unfold createParser
  cases load elfPath with
  | none => exact iff_of_false nofun fun ⟨_, h, _⟩ => nomatch h
  | some reader =>
    dsimp only
    cases hr : checkRequirements reader with
    | error e =>
      refine iff_of_false nofun ?_
      rintro ⟨_, h, hs, -⟩
      obtain rfl := Option.some.inj h
      exact nomatch hr.symm.trans (checkRequirements_ok.mpr hs)
    | ok _ =>
      constructor
      · intro h
        exact ⟨reader, rfl, checkRequirements_ok.mp hr, (Except.ok.inj h).symm⟩
      · rintro ⟨_, h, -, rfl⟩
        rw [Option.some.inj h]

def Collected (p : ElfParser) : Prop :=
  p.loadableSegments = [] ∨ p.loadableSegments = p.reader.segments.filterMap loadable

theorem Collected.getLoadableSegments {p : ElfParser} (h : p.Collected) :
    p.getLoadableSegments.1 = p.reader.segments.filterMap loadable ∧
      p.getLoadableSegments.2.reader = p.reader ∧ p.getLoadableSegments.2.Collected := by
  unfold ElfParser.getLoadableSegments
  split_ifs with hempty
  · exact ⟨rfl, rfl, .inr rfl⟩
  · obtain hnone | hall := h
    · rw [hnone] at hempty
      exact absurd rfl hempty
    · exact ⟨hall, rfl, .inr hall⟩

end ElfParser

end Besm.Util
