import Sloader.Data.Text
import Sloader.Data.Traced
import Sloader.Run.Layout

namespace Sloader

open Data

/-! The map file, to which `Load` writes a line for every segment, and
`addr_to_offset.py`, which looks an address up in it. -/

namespace AddrToOffset

inductive PythonError where
  | unicodeDecodeError
  | indexError
  | valueError
deriving Repr, DecidableEq

/-- What the script prints about an address. -/
structure Location where
  filename : CString
  offset : Int
deriving Repr, DecidableEq

structure MapEntry where
  filename : CString
  fileStart : Int
  fileEnd : Int
  memStart : Int
  memEnd : Int

def field (fields : List CString) (index : Nat) : Except PythonError CString :=
  match fields[index]? with
  | some text => .ok text
  | none => .error .indexError

def int (text : CString) : Except PythonError Int :=
  match Text.int text with
  | some value => .ok value
  | none => .error .valueError

/-- A line as the script takes it apart, of which the columns of numbers are ASCII, as
`Load` writes them.  Elsewhere the script's slices count characters and not bytes. -/
def parseLine (line : CString) : Except PythonError MapEntry := do
  let fields := line.splitOn Text.blank
  let filename ← field fields 0
  let fileStart ← int ((← field fields 1).take 18)
  let fileEnd ← int (((← field fields 1).drop 19).take 18)
  let memStart ← int ((← field fields 5).take 18)
  let memEnd ← int (((← field fields 5).drop 19).take 18)
  return { filename, fileStart, fileEnd, memStart, memEnd }

def lookUp (address : Int) (line : CString) : Traced PythonError Location PUnit := do
  let entry ← Traced.lift (parseLine line)
  if entry.memStart ≤ address ∧ address ≤ entry.memEnd then
    Traced.report { filename := entry.filename, offset := address - entry.memStart + entry.fileStart }

/-- The loop over `f.readlines()`.  The codec of the locale may refuse the file. -/
def addrToOffset (decodes : CString → Bool) (contents : CString) (address : Int) :
    Traced PythonError Location PUnit :=
  if decodes contents then forM (Text.readlines false contents) (lookUp address)
  else Traced.lift (.error .unicodeDecodeError)

/-- The line is read, and its range does not hold the address. -/
def Skips (address : Int) (line : CString) : Prop :=
  ∃ entry, parseLine line = .ok entry ∧ ¬ (entry.memStart ≤ address ∧ address ≤ entry.memEnd)

variable {address : Int} {line : CString} {entry : MapEntry}

theorem lookUp_eq (parsed : parseLine line = .ok entry) :
    lookUp address line =
      if entry.memStart ≤ address ∧ address ≤ entry.memEnd then
        Traced.report { filename := entry.filename, offset := address - entry.memStart + entry.fileStart }
      else pure () := by
  rw [lookUp, parsed]
  exact Traced.lift_bind _ _

theorem lookUp_quiet : (lookUp address line).Quiet ↔ Skips address line := by
  cases parsed : parseLine line with
  | error reason =>
      have stopped : (lookUp address line).outcome = .error reason := by
        rw [lookUp, parsed]
        rfl
      simp [Traced.Quiet, Skips, stopped, parsed]
  | ok entry =>
      rw [lookUp_eq parsed]
      split
      · rename_i inside
        simp [Traced.Quiet, Skips, parsed, inside]
      · rename_i outside
        simp only [Traced.Quiet, Traced.outcome_pure, Traced.events_pure, and_self, true_iff]
        exact ⟨entry, parsed, outside⟩

theorem parseLine_filename (parsed : parseLine line = .ok entry) :
    ∃ next others, line.splitOn Text.blank = entry.filename :: next :: others := by
  simp only [parseLine, bind_eq_ok, pure_eq_ok] at parsed
  obtain ⟨filename, first, range, second, numbers⟩ := parsed
  obtain ⟨_, _, _, _, _, _, _, _, _, _, _, _, _, _, rfl⟩ := numbers
  cases fields : line.splitOn Text.blank with
  | nil => simp [field, fields] at first
  | cons name rest =>
      cases rest with
      | nil => simp [field, fields] at second
      | cons next others =>
          have same : name = filename := by simpa [field, fields] using first
          exact ⟨next, others, by rw [same]⟩

end AddrToOffset

namespace ELFBinary

variable {path : Path} {base : Elf64Addr} {ph : Elf64Phdr}

theorem hexString_eq (number : BitVec 64) :
    hexString number = 48 :: 120 :: (Text.lastDigits 16 number.toNat).map Text.hexDigit := by
  rw [Text.lastDigits, List.map_map]
  rfl

theorem length_hexString (number : BitVec 64) : (hexString number).length = 18 := by
  simp [hexString_eq, Text.lastDigits]

theorem hexString_plain (number : BitVec 64) : Text.Plain (hexString number) := by
  rw [hexString_eq]
  exact Text.plain_of_no_space Text.numeral_no_space

theorem int_hexString (number : BitVec 64) : AddrToOffset.int (hexString number) = .ok (number.toNat : Int) := by
  have fits : number.toNat < 16 ^ (15 + 1) := number.isLt
  rw [AddrToOffset.int, hexString_eq, Text.int_lastDigits fits]

/-- Two numbers and the columns that the script finds them in. -/
theorem int_hexRange (low high : BitVec 64) (rest : CString) :
    AddrToOffset.int ((hexString low ++ ascii "-" ++ hexString high ++ rest).take 18) = .ok (low.toNat : Int) ∧
      AddrToOffset.int (((hexString low ++ ascii "-" ++ hexString high ++ rest).drop 19).take 18) =
        .ok (high.toNat : Int) := by
  have dash : ascii "-" = [45] := by decide
  constructor
  · rw [List.append_assoc, List.append_assoc, List.take_left' (length_hexString low)]
    exact int_hexString low
  · rw [List.append_assoc, List.drop_left' (by simp [length_hexString, dash]),
      List.take_left' (length_hexString high)]
    exact int_hexString high

theorem flagsStr_plain (ph : Elf64Phdr) : Text.Plain (flagsStr ph) := by
  unfold flagsStr
  split <;> split <;> decide

theorem splitOn_mapLine (noBlank : Text.blank ∉ path) :
    (mapLine path base ph ++ [Text.newline]).splitOn Text.blank =
      [path, hexString ph.pOffset ++ ascii "-" ++ hexString (ph.pOffset + ph.pFilesz), flagsStr ph,
        hexString ph.pFilesz, ascii "=>",
        hexString (mmapStart base ph) ++ ascii "-" ++ hexString (mmapEnd base ph) ++ [Text.newline]] := by
  have blanks : ascii " " = [Text.blank] ∧ ascii " => " = Text.blank :: ascii "=>" ++ [Text.blank] ∧
      Text.blank ∉ ascii "-" ∧ Text.blank ∉ ascii "=>" ∧ Text.blank ∉ [Text.newline] := by
    decide
  obtain ⟨one, arrow, noDash, noArrow, noNewline⟩ := blanks
  have noRange (low high : BitVec 64) : Text.blank ∉ hexString low ++ ascii "-" ++ hexString high := by
    simp [(hexString_plain _).1, noDash]
  have joined : mapLine path base ph ++ [Text.newline] = [Text.blank].intercalate
      [path, hexString ph.pOffset ++ ascii "-" ++ hexString (ph.pOffset + ph.pFilesz), flagsStr ph,
        hexString ph.pFilesz, ascii "=>",
        hexString (mmapStart base ph) ++ ascii "-" ++ hexString (mmapEnd base ph) ++ [Text.newline]] := by
    simp [mapLine, one, arrow, List.intercalate_cons_cons]
  rw [joined]
  apply List.splitOn_intercalate
  · intro text member
    simp only [List.mem_cons, List.not_mem_nil, or_false] at member
    rcases member with rfl | rfl | rfl | rfl | rfl | rfl
    · exact noBlank
    · exact noRange _ _
    · exact (flagsStr_plain ph).1
    · exact (hexString_plain _).1
    · exact noArrow
    · exact fun bad => (List.mem_append.mp bad).elim (noRange _ _) noNewline
  · exact List.cons_ne_nil _ _

/-- A plain path makes its line one line of the file. -/
theorem readlines_mapLine (plain : Text.Plain path) :
    Text.readlines false (mapLine path base ph ++ [Text.newline]) = [mapLine path base ph ++ [Text.newline]] := by
  have spaces : Text.newline ∉ ascii " " ++ ascii "-" ++ ascii " => " ∧
      Text.carriageReturn ∉ ascii " " ++ ascii "-" ++ ascii " => " := by
    decide
  have noEnd {byte : UInt8} (others : byte ∉ ascii " " ++ ascii "-" ++ ascii " => ")
      (hex : ∀ number, byte ∉ hexString number) (flags : byte ∉ flagsStr ph) (name : byte ∉ path) :
      byte ∉ mapLine path base ph := by
    simp only [List.mem_append, not_or] at others
    simp [mapLine, hex, flags, name, others]
  exact Text.readlines_single
    (noEnd spaces.1 (fun number => (hexString_plain number).2.1) (flagsStr_plain ph).2.1 plain.2.1)
    (noEnd spaces.2 (fun number => (hexString_plain number).2.2) (flagsStr_plain ph).2.2 plain.2.2)

theorem parseLine_mapLine (plain : Text.Plain path) :
    AddrToOffset.parseLine (mapLine path base ph ++ [Text.newline]) = .ok
      { filename := path, fileStart := ph.pOffset.toNat, fileEnd := (ph.pOffset + ph.pFilesz).toNat
        memStart := (mmapStart base ph).toNat, memEnd := (mmapEnd base ph).toNat } := by
  obtain ⟨fileStart, fileEnd⟩ := int_hexRange ph.pOffset (ph.pOffset + ph.pFilesz) []
  obtain ⟨memStart, memEnd⟩ := int_hexRange (mmapStart base ph) (mmapEnd base ph) [Text.newline]
  rw [List.append_nil] at fileStart fileEnd
  simp only [AddrToOffset.parseLine, splitOn_mapLine plain.1, bind_eq_ok]
  exact ⟨_, rfl, _, rfl, _, fileStart, _, rfl, _, fileEnd, _, rfl, _, memStart, _, rfl, _, memEnd, rfl⟩

theorem loadSegments_mapFile {host : Host} {binary : ELFBinary} {phdrs : List Elf64Phdr} {mapping last : Mapping}
    (ran : phdrs.foldlM (binary.loadSegment host) mapping = .ok last) :
    last.mapFile = mapping.mapFile ++
      (phdrs.filter (·.pType = .load)).map (mapLine binary.path binary.baseAddr) := by
  induction phdrs generalizing mapping with
  | nil =>
      cases ran
      simp
  | cons ph rest ih =>
      rw [List.foldlM_cons, bind_eq_ok] at ran
      obtain ⟨next, first, remaining⟩ := ran
      rw [ih remaining]
      rcases loadSegment_cases first with ⟨skipped, rfl⟩ | ⟨wanted, _, _, _, written⟩
      · simp [skipped]
      · simp [wanted, written]

end ELFBinary

namespace DynLoader

variable {host : Host} {mainPath path : Path} {loader next : DynLoader} {binary : ELFBinary} {ph : Elf64Phdr}

/-- All that has been loaded, in order: each segment has written one line. -/
def loadedSegments (loader : DynLoader) : List (ELFBinary × Elf64Phdr) :=
  loader.binaries.flatMap fun binary => binary.segments.map fun ph => (binary, ph)

def segmentLine (segment : ELFBinary × Elf64Phdr) : CString :=
  ELFBinary.mapLine segment.1.path segment.1.baseAddr segment.2

def mapText (loader : DynLoader) : CString :=
  loader.mapFile.flatMap (· ++ [Text.newline])

theorem emplace_mapFile (ran : loader.emplace host path = .ok (binary, next)) :
    next.mapFile = loader.mapFile ++ binary.segments.map fun ph => segmentLine (binary, ph) := by
  obtain ⟨mapping, segments, _, rfl⟩ := emplace_mapping ran
  exact congrArg (loader.mapFile ++ ·) (ELFBinary.loadSegments_mapFile segments)

theorem Run.mapFile (run : Run host mainPath loader) :
    loader.mapFile = loader.loadedSegments.map segmentLine := by
  refine run.invariant_of_loads (fun loader => loader.mapFile = loader.loadedSegments.map segmentLine) ?_ ?_ ?_ ?_ ?_
  · intro memory
    rfl
  · intro loader name written
    exact written
  · intro loader path binary next written ran
    rw [emplace_mapFile ran, written, loadedSegments, loadedSegments, emplace_binaries ran]
    simp
  · intro loader next written ran
    rw [relocate_mapFile ran, written, loadedSegments, loadedSegments, relocate_binaries ran]
  · intro loader next written same
    rw [same.mapFile, written, loadedSegments, loadedSegments, same.binaries]

/-- The lines that a reader finds in what one segment wrote. -/
def segmentLines (segment : ELFBinary × Elf64Phdr) : List CString :=
  Text.readlines false (segmentLine segment ++ [Text.newline])

/-- The segment's pages and the address after them. -/
def InRange (address : Address) (segment : ELFBinary × Elf64Phdr) : Prop :=
  ELFBinary.mmapStart segment.1.baseAddr segment.2 ≤ address ∧
    address ≤ ELFBinary.mmapEnd segment.1.baseAddr segment.2

/-- The script goes past what the segment wrote.  A path that is not plain breaks
up its line, and the pieces may still be read as lines. -/
def Silent (address : Address) (segment : ELFBinary × Elf64Phdr) : Prop :=
  if Text.Plain segment.1.path then ¬ InRange address segment
  else ∀ line ∈ segmentLines segment, AddrToOffset.Skips address.toNat line

theorem silent_iff {address : Address} {segment : ELFBinary × Elf64Phdr} :
    Silent address segment ↔
      (forM (segmentLines segment) (AddrToOffset.lookUp address.toNat)).Quiet := by
  have skips : (∀ line ∈ segmentLines segment, AddrToOffset.Skips address.toNat line) ↔
      (forM (segmentLines segment) (AddrToOffset.lookUp address.toNat)).Quiet := by
    simp only [Traced.quiet_forM, AddrToOffset.lookUp_quiet]
  unfold Silent
  split
  · rename_i plain
    rw [← skips, segmentLines, segmentLine, ELFBinary.readlines_mapLine plain]
    simp only [List.mem_singleton, forall_eq, AddrToOffset.Skips, ELFBinary.parseLine_mapLine plain, Except.ok.injEq,
      exists_eq_left', InRange, BitVec.le_def, Int.ofNat_le]
  · exact skips

/-- What the script prints for a segment whose path is plain. -/
theorem segmentLines_reports {address : Address} {segment : ELFBinary × Elf64Phdr}
    (plain : Text.Plain segment.1.path) (inRange : InRange address segment) :
    (forM (segmentLines segment) (AddrToOffset.lookUp address.toNat)).ReportsOnly
      { filename := segment.1.path
        offset := address.toNat - (ELFBinary.mmapStart segment.1.baseAddr segment.2).toNat + segment.2.pOffset.toNat } := by
  have inside := inRange
  simp only [InRange, BitVec.le_def] at inside
  rw [segmentLines, segmentLine, ELFBinary.readlines_mapLine plain]
  refine Traced.reportsOnly_forM.mpr ⟨[], _, [], rfl, ?_, by simp⟩
  rw [AddrToOffset.lookUp_eq (ELFBinary.parseLine_mapLine plain),
    if_pos ⟨Int.ofNat_le.mpr inside.1, Int.ofNat_le.mpr inside.2⟩]
  exact ⟨rfl, rfl⟩

theorem plain_of_reports {address : Int} {segment : ELFBinary × Elf64Phdr} {location : AddrToOffset.Location}
    (reports : (forM (segmentLines segment) (AddrToOffset.lookUp address)).ReportsOnly location) :
    Text.Plain location.filename := by
  obtain ⟨before, line, after, lines, only, _⟩ := Traced.reportsOnly_forM.mp reports
  have member : line ∈ segmentLines segment := by simp [lines]
  cases parsed : AddrToOffset.parseLine line with
  | error reason =>
      rw [AddrToOffset.lookUp, parsed] at only
      exact nomatch only.1
  | ok entry =>
      obtain ⟨next, others, fields⟩ := AddrToOffset.parseLine_filename parsed
      rw [AddrToOffset.lookUp_eq parsed] at only
      split at only
      · rw [← (List.cons.inj only.2).1]
        exact Text.plain_of_readlines member fields
      · exact nomatch only.2

theorem Run.addrToOffset_segments (run : Run host mainPath loader) {decodes : CString → Bool} {address : Int}
    {location : AddrToOffset.Location} :
    (AddrToOffset.addrToOffset decodes loader.mapText address).ReportsOnly location ↔
      decodes loader.mapText = true ∧
        (forM loader.loadedSegments fun segment =>
          forM (segmentLines segment) (AddrToOffset.lookUp address)).ReportsOnly location := by
  have lines : Text.readlines false loader.mapText = loader.loadedSegments.flatMap segmentLines := by
    rw [mapText, Text.readlines_flatMap, run.mapFile, List.flatMap_map]
    rfl
  unfold AddrToOffset.addrToOffset
  split
  · rename_i accepted
    rw [lines, Traced.reportsOnly_forM_flatMap]
    exact ⟨fun reports => ⟨accepted, reports⟩, And.right⟩
  · rename_i refused
    exact ⟨fun reports => (nomatch reports.1), fun accepted => absurd accepted.1 refused⟩

/-- One line, of whichever segment, gives the location, and the others are passed by. -/
def SomeLineTells (loader : DynLoader) (address : Address) (location : AddrToOffset.Location) : Prop :=
  ∃ earlier finder later, loader.loadedSegments = earlier ++ finder :: later ∧
    (forM (segmentLines finder) (AddrToOffset.lookUp address.toNat)).ReportsOnly location ∧
    ∀ other ∈ earlier ++ later, Silent address other

/-- Where the byte that `Load` copies to the address is in its file. -/
def source (binary : ELFBinary) (ph : Elf64Phdr) (address : Address) : AddrToOffset.Location where
  filename := binary.path
  offset := ph.pOffset.toNat + (address.toNat - (binary.baseAddr + ph.pVaddr).toNat)

theorem mmapStart_eq (base : Elf64Addr) (ph : Elf64Phdr) :
    (ELFBinary.mmapStart base ph).toNat = (base + ph.pVaddr).toNat / 4096 * 4096 := by
  rw [ELFBinary.mmapStart, ELFBinary.and_pageMask_toNat, BitVec.add_comm]

theorem source_reported {address : Address} :
    ({ filename := binary.path
       offset := address.toNat - (ELFBinary.mmapStart binary.baseAddr ph).toNat + ph.pOffset.toNat } :
      AddrToOffset.Location) = source binary ph address ↔ 4096 ∣ (binary.baseAddr + ph.pVaddr).toNat := by
  simp only [mmapStart_eq, source, AddrToOffset.Location.mk.injEq, true_and]
  omega

theorem le_mmapEnd {address : Address} (fits : ELFBinary.CopyFits binary.baseAddr ph)
    (high : address.toNat < (binary.baseAddr + ph.pVaddr).toNat + ph.pFilesz.toNat) :
    address ≤ ELFBinary.mmapEnd binary.baseAddr ph := by
  have finish := ELFBinary.mmapEnd_toNat fits.pages
  have sizes := fits.sizes
  have pages := fits.pages
  unfold ELFBinary.PageFits at pages
  generalize ELFBinary.mmapEnd binary.baseAddr ph = finish at *
  bv_omega

/-- For every byte that `Load` copies: the script finds its file and offset, and
nothing else, exactly if the codec takes the file, the path holds no separator,
the segment starts on a page, and no other line takes the address for its own.
(A segment larger in the file than in memory reaches past its pages, where only
the line of another one can be found.) -/
theorem Run.addrToOffset_iff (run : Run host mainPath loader) (decodes : CString → Bool)
    {before after : List (ELFBinary × Elf64Phdr)}
    (loaded : loader.loadedSegments = before ++ (binary, ph) :: after) {address : Address}
    (low : (binary.baseAddr + ph.pVaddr).toNat ≤ address.toNat)
    (high : address.toNat < (binary.baseAddr + ph.pVaddr).toNat + ph.pFilesz.toNat) :
    ((AddrToOffset.addrToOffset decodes loader.mapText address.toNat).ReportsOnly (source binary ph address) ↔
      decodes loader.mapText = true ∧ Text.Plain binary.path ∧
        (address ≤ ELFBinary.mmapEnd binary.baseAddr ph ∧ 4096 ∣ (binary.baseAddr + ph.pVaddr).toNat ∧
            (∀ other ∈ before ++ after, Silent address other) ∨
          ELFBinary.mmapEnd binary.baseAddr ph < address ∧
            loader.SomeLineTells address (source binary ph address))) ∧
    (ELFBinary.CopyFits binary.baseAddr ph → address ≤ ELFBinary.mmapEnd binary.baseAddr ph) := by
  refine ⟨?_, fun fits => le_mmapEnd fits high⟩
  have start : ELFBinary.mmapStart binary.baseAddr ph ≤ address := by
    rw [BitVec.le_def, mmapStart_eq]
    omega
  rw [run.addrToOffset_segments]
  apply and_congr_right
  intro _
  constructor
  · intro reports
    obtain ⟨earlier, finder, later, found, told, quiet⟩ := Traced.reportsOnly_forM.mp reports
    have plain : Text.Plain binary.path := plain_of_reports told
    refine ⟨plain, ?_⟩
    by_cases inPages : address ≤ ELFBinary.mmapEnd binary.baseAddr ph
    · have own := @segmentLines_reports address (binary, ph) plain ⟨start, inPages⟩
      rw [loaded, Traced.reportsOnly_forM_at (by simp [own.2])] at reports
      obtain ⟨only, others⟩ := reports
      have same := (List.cons.inj (own.2.symm.trans only.2)).1
      exact .inl ⟨inPages, source_reported.mp same, fun other member => silent_iff.mpr (others other member)⟩
    · exact .inr ⟨BitVec.not_le.mp inPages, earlier, finder, later, found, told,
        fun other member => silent_iff.mpr (quiet other member)⟩
  · rintro ⟨plain, ⟨inPages, aligned, others⟩ | ⟨_, earlier, finder, later, found, told, others⟩⟩
    · have own := @segmentLines_reports address (binary, ph) plain ⟨start, inPages⟩
      rw [source_reported.mpr aligned] at own
      rw [loaded, Traced.reportsOnly_forM_at (by simp [own.2])]
      exact ⟨own, fun other member => silent_iff.mp (others other member)⟩
    · exact Traced.reportsOnly_forM.mpr ⟨earlier, finder, later, found, told,
        fun other member => silent_iff.mp (others other member)⟩

/-- The strict codec, which takes nothing but ASCII. -/
def asciiCodec (contents : CString) : Bool :=
  contents.all (· < 128)

theorem tlsHost_mapFile :
    (Sample.startup Sample.tlsHost (ascii "/bin/m")).toOption.map (fun loader => decide (
      asciiCodec loader.mapText = true ∧
      loader.loadedSegments.map (fun segment =>
        (segment.1.path, segment.1.baseAddr, segment.2.pVaddr, segment.2.pFilesz, segment.2.pMemsz)) =
        [(ascii "/bin/m", 0x1400000, 0, 0x200, 0x200), (ascii "/lib/a", 0x1800000, 0, 0x180, 0x180)])) =
      some true := by
  decide +kernel

theorem Run.addrToOffset_tlsHost :
    ∃ loader binary ph, Run Sample.tlsHost (ascii "/bin/m") loader ∧ (binary, ph) ∈ loader.loadedSegments ∧
      (AddrToOffset.addrToOffset asciiCodec loader.mapText (0x1400010 : Address).toNat).ReportsOnly
        (source binary ph 0x1400010) := by
  obtain ⟨loader, run, checked⟩ := exists_startup tlsHost_mapFile
  obtain ⟨accepted, segments⟩ := of_decide_eq_true checked
  obtain ⟨⟨binary, ph⟩, rest, list, own, others⟩ := List.map_eq_cons_iff.mp segments
  obtain ⟨⟨library, other⟩, none, rfl, second, last⟩ := List.map_eq_cons_iff.mp others
  cases List.map_eq_nil_iff.mp last
  simp only [Prod.mk.injEq] at own second
  obtain ⟨path, base, vaddr, filesz, memsz⟩ := own
  obtain ⟨libraryPath, libraryBase, libraryVaddr, _, libraryMemsz⟩ := second
  refine ⟨loader, binary, ph, run, by simp [list], ?_⟩
  have low : (binary.baseAddr + ph.pVaddr).toNat ≤ (0x1400010 : Address).toNat := by
    rw [base, vaddr]
    decide
  have high : (0x1400010 : Address).toNat < (binary.baseAddr + ph.pVaddr).toNat + ph.pFilesz.toNat := by
    rw [base, vaddr, filesz]
    decide
  have agrees := (Run.addrToOffset_iff run asciiCodec (show loader.loadedSegments = [] ++ (binary, ph) :: _ from list)
    low high).1
  refine agrees.mpr ⟨accepted, by rw [path]; decide, .inl ⟨?_, by rw [base, vaddr]; decide, ?_⟩⟩
  · rw [ELFBinary.mmapEnd, vaddr, memsz, base]
    decide
  · intro segment member
    rw [List.nil_append, List.mem_singleton] at member
    rw [member, Silent, if_pos (by rw [libraryPath]; decide), InRange, ELFBinary.mmapStart, ELFBinary.mmapEnd,
      libraryVaddr, libraryMemsz, libraryBase]
    decide

end DynLoader

/-- An executable with a second segment, in the middle of a page: eight bytes at
`232` in the file, which go `0x10e8` above its base. -/
def Sample.dataHost : Host :=
  let executable : Object :=
    { header := [0x600000001, 232, 0x10e8, 0, 8, 8, 0x1000], data := [0x1111111111111111], strings := [0] }
  host [(ascii "m", executable.file)] fun _ => none

namespace DynLoader

theorem dataHost_mapFile :
    (Sample.startup Sample.dataHost (ascii "/bin/m")).toOption.map (fun loader => decide (
      loader.loadedSegments.map (fun segment =>
        (segment.1.path, segment.1.baseAddr, segment.2.pVaddr, segment.2.pOffset, segment.2.pFilesz, segment.2.pMemsz)) =
        [(ascii "/bin/m", 0x1400000, 0, 0, 0x130, 0x130), (ascii "/bin/m", 0x1400000, 0x10e8, 232, 8, 8)] ∧
      (AddrToOffset.addrToOffset asciiCodec loader.mapText (0x14010e8 : Address).toNat).events =
        [{ filename := ascii "/bin/m", offset := 464 }])) = some true := by
  decide +kernel

/-- The script takes the start of the page for the start of the segment. -/
theorem addrToOffset_dataHost :
    ∃ loader binary ph, Run Sample.dataHost (ascii "/bin/m") loader ∧ (binary, ph) ∈ loader.loadedSegments ∧
      ELFBinary.CopyFits binary.baseAddr ph ∧
      (binary.baseAddr + ph.pVaddr).toNat ≤ (0x14010e8 : Address).toNat ∧
      (0x14010e8 : Address).toNat < (binary.baseAddr + ph.pVaddr).toNat + ph.pFilesz.toNat ∧
      source binary ph 0x14010e8 = { filename := ascii "/bin/m", offset := 232 } ∧
      (AddrToOffset.addrToOffset asciiCodec loader.mapText (0x14010e8 : Address).toNat).events =
        [{ filename := ascii "/bin/m", offset := 464 }] ∧
      ¬ (AddrToOffset.addrToOffset asciiCodec loader.mapText (0x14010e8 : Address).toNat).ReportsOnly
        (source binary ph 0x14010e8) := by
  obtain ⟨loader, run, checked⟩ := exists_startup dataHost_mapFile
  obtain ⟨segments, printed⟩ := of_decide_eq_true checked
  obtain ⟨first, rest, list, _, others⟩ := List.map_eq_cons_iff.mp segments
  obtain ⟨⟨binary, ph⟩, none, rfl, own, _⟩ := List.map_eq_cons_iff.mp others
  simp only [Prod.mk.injEq] at own
  obtain ⟨path, base, vaddr, offset, filesz, memsz⟩ := own
  have location : source binary ph 0x14010e8 = { filename := ascii "/bin/m", offset := 232 } := by
    rw [source, path, base, vaddr, offset]
    decide
  refine ⟨loader, binary, ph, run, by simp [list], ⟨?_, ?_⟩, ?_, ?_, location, printed, ?_⟩
  · rw [filesz, memsz]
  · rw [ELFBinary.PageFits, vaddr, memsz, base]
    decide
  · rw [base, vaddr]
    decide
  · rw [base, vaddr, filesz]
    decide
  · rw [location]
    intro reports
    have same := printed.symm.trans reports.2
    exact absurd same (by decide)

end DynLoader

end Sloader
