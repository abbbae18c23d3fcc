import Sloader.MapFile

namespace Sloader

open Data

/-! The map file as a table of the segments: what the script reads from a file
that a run has written. -/

namespace AddrToOffset

/-- The lines of a map file, each as the script takes it apart. -/
def readTable (decodes : CString → Bool) (contents : CString) : Except PythonError (List MapEntry) :=
  if decodes contents then (Text.readlines false contents).mapM parseLine else .error .unicodeDecodeError

theorem readTable_eq_ok {decodes : CString → Bool} {contents : CString} {table : List MapEntry} :
    readTable decodes contents = .ok table ↔
      decodes contents = true ∧ (Text.readlines false contents).mapM parseLine = .ok table := by
  unfold readTable
  split
  · rename_i accepted
    simp [accepted]
  · rename_i refused
    simp [refused]

/-- What the script can read starts with a name that a line can hold. -/
theorem parsed_plain {contents : CString} {table : List MapEntry} {entry : MapEntry}
    (read : (Text.readlines false contents).mapM parseLine = .ok table) (member : entry ∈ table) :
    Text.Plain entry.filename := by
  obtain ⟨line, inFile, parsed⟩ := exists_of_mapM read member
  obtain ⟨next, others, fields⟩ := parseLine_filename parsed
  exact Text.plain_of_readlines inFile fields

end AddrToOffset

namespace DynLoader

variable {host : Host} {mainPath : Path} {loader : DynLoader}

/-- The columns of a segment's line that the script looks at. -/
def segmentEntry (segment : ELFBinary × Elf64Phdr) : AddrToOffset.MapEntry where
  filename := segment.1.path
  fileStart := segment.2.pOffset.toNat
  fileEnd := (segment.2.pOffset + segment.2.pFilesz).toNat
  memStart := (ELFBinary.mmapStart segment.1.baseAddr segment.2).toNat
  memEnd := (ELFBinary.mmapEnd segment.1.baseAddr segment.2).toNat

theorem Run.readlines_mapText (run : Run host mainPath loader) :
    Text.readlines false loader.mapText = loader.loadedSegments.flatMap segmentLines := by
  rw [mapText, Text.readlines_flatMap, run.mapFile, List.flatMap_map]
  rfl

/-- The script reads the file of a run back as the table of its segments, in the
order in which they were mapped, exactly if the codec takes the file and no path has
a separator in it. -/
theorem Run.readTable_iff (run : Run host mainPath loader) (decodes : CString → Bool) :
    AddrToOffset.readTable decodes loader.mapText = .ok (loader.loadedSegments.map segmentEntry) ↔
      decodes loader.mapText = true ∧ ∀ segment ∈ loader.loadedSegments, Text.Plain segment.1.path := by
  rw [AddrToOffset.readTable_eq_ok]
  apply and_congr_right
  intro _
  constructor
  · intro read segment member
    exact AddrToOffset.parsed_plain read (List.mem_map_of_mem (f := segmentEntry) member)
  · intro plain
    rw [run.readlines_mapText, mapM_eq_ok]
    generalize loader.loadedSegments = segments at plain
    induction segments with
    | nil => exact .nil
    | cons segment rest ih =>
        have own := plain segment List.mem_cons_self
        have line : segmentLines segment = [segmentLine segment ++ [Text.newline]] := ELFBinary.readlines_mapLine own
        rw [List.flatMap_cons, line, List.map_cons]
        exact .cons (ELFBinary.parseLine_mapLine own)
          (ih fun other member => plain other (List.mem_cons_of_mem segment member))

theorem Run.readTable_tlsHost :
    ∃ loader, Run Sample.tlsHost (ascii "/bin/m") loader ∧ loader.loadedSegments.length = 2 ∧
      AddrToOffset.readTable asciiCodec loader.mapText = .ok (loader.loadedSegments.map segmentEntry) := by
  obtain ⟨loader, run, checked⟩ := exists_startup tlsHost_mapFile
  obtain ⟨accepted, segments⟩ := of_decide_eq_true checked
  have two : loader.loadedSegments.length = 2 := by simpa using congrArg List.length segments
  refine ⟨loader, run, two, (run.readTable_iff asciiCodec).mpr ⟨accepted, ?_⟩⟩
  intro segment member
  have known := List.mem_map_of_mem (f := fun segment : ELFBinary × Elf64Phdr =>
    (segment.1.path, segment.1.baseAddr, segment.2.pVaddr, segment.2.pFilesz, segment.2.pMemsz)) member
  rw [segments, List.mem_cons, List.mem_singleton] at known
  have path : segment.1.path = ascii "/bin/m" ∨ segment.1.path = ascii "/lib/a" :=
    known.imp (congrArg Prod.fst) (congrArg Prod.fst)
  cases path with
  | inl path =>
      rw [path]
      decide
  | inr path =>
      rw [path]
      decide

end DynLoader

end Sloader
