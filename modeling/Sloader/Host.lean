import Sloader.Elf

namespace Sloader

open Data

/-! What surrounds the loader: strings and paths, the ways the process can stop,
process memory, and the operating system the loader asks for files and pages. -/

abbrev CString := List UInt8

abbrev Path := CString

def ascii (text : String) : CString :=
  text.toList.map fun character => UInt8.ofNat character.toNat

def slash : UInt8 := 47

def contains (text pattern : CString) : Bool :=
  text.tails.any fun suffix => pattern.isPrefixOf suffix

def isAbsolute (path : Path) : Bool :=
  path.head? == some slash

def filename (path : Path) : CString :=
  (path.reverse.takeWhile (· != slash)).reverse

def appendPath (directory : Path) (name : CString) : Path :=
  if directory = [] || directory.getLast? == some slash then directory ++ name
  else directory ++ slash :: name

/-- The elements that comparisons of paths look at.  Adjacent slashes count
once, and a slash after the last name adds an empty element. -/
structure PathKey where
  absolute : Bool
  elements : List CString
deriving Repr, DecidableEq

def pathKey (path : Path) : PathKey where
  absolute := isAbsolute path
  elements :=
    let names := (path.splitOn slash).filter (· ≠ [])
    if names ≠ [] && path.getLast? == some slash then names ++ [[]] else names

/-- Why the process stopped before a function returned.  A failed `CHECK` prints
its condition and exits, `LOG(FATAL)` prints nothing and is followed by
`std::abort()`, nothing catches the exceptions of `std::filesystem`, and a read that
never meets its terminator leaves what is mapped.
`outOfFuel` is not an outcome of the program: the model was given too few steps. -/
inductive Stop where
  | check (condition : String)
  | abort
  | filesystemError
  | divisionByZero
  | segmentationFault
  | stackOverflow
  | outOfFuel
deriving Repr, DecidableEq

def check (condition : Bool) (text : String) : Except Stop Unit :=
  if condition then .ok () else .error (.check text)

theorem check_eq_ok {condition : Bool} {text : String} {result : Unit} :
    check condition text = .ok result ↔ condition = true := by
  cases condition <;> simp [check]

/-- The address space of the process and the ranges of it that are mapped, without
the private mappings of whole files through which constructors read them.  A
load from a page that is not mapped would end the process; here it yields
whatever `bytes` holds, so that a theorem about a run that completes covers
every run of the program that completes. -/
structure Memory where
  bytes : Bytes
  ranges : List (Address × Nat)

def Memory.mapped (memory : Memory) (address : Address) : Bool :=
  memory.ranges.any fun range => decide (Inside range.1 range.2 address)

def Memory.mapZero (memory : Memory) (start : Address) (size : Elf64Xword) : Memory where
  bytes := memory.bytes.patch start size.toNat fun _ => 0
  ranges := (start, size.toNat) :: memory.ranges

theorem Memory.mapped_mapZero {memory : Memory} {start : Address} {size : Elf64Xword} {address : Address} :
    (memory.mapZero start size).mapped address = true ↔
      Inside start size.toNat address ∨ memory.mapped address = true := by
  simp [Memory.mapped, Memory.mapZero]

def Memory.store64 (memory : Memory) (start : Address) (word : BitVec 64) : Memory :=
  { memory with bytes := memory.bytes.store64 start word }

def Memory.memcpy (memory : Memory) (destination source : Address) (size : Elf64Xword) : Memory :=
  { memory with
    bytes := memory.bytes.patch destination size.toNat fun index =>
      memory.bytes (source + BitVec.ofNat 64 index) }

def Memory.memset (memory : Memory) (destination : Address) (value : UInt8) (size : Elf64Xword) : Memory :=
  { memory with bytes := memory.bytes.patch destination size.toNat fun _ => value }

def Memory.string (memory : Memory) (start : Address) : Except Stop CString :=
  match memory.bytes.cstring start with
  | some text => .ok text
  | none => .error .segmentationFault

/-- A question about a file: the true answer, and whether `std::filesystem` throws
an exception in place of it.  It does where `stat` fails, be it that a directory of
the path may not be searched, that its links lead in a circle or that it is too long;
a file that is not there is no failure. -/
structure Lookup where
  answer : Bool
  throws : Bool := false
deriving Repr, DecidableEq

def Lookup.ask (lookup : Lookup) : Except Stop Bool :=
  if lookup.throws then .error .filesystemError else .ok lookup.answer

theorem Lookup.ask_eq_ok {lookup : Lookup} {answer : Bool} :
    lookup.ask = .ok answer ↔ lookup.throws = false ∧ lookup.answer = answer := by
  unfold Lookup.ask
  cases lookup.throws with
  | false => simp
  | true => simp

/-- The entries of a directory in the order in which `directory_iterator` comes to
them.  If reading or opening the directory fails, the iterator throws an exception
before the entries `unread`. -/
structure Enumeration where
  entries : List CString
  unread : Option (List CString) := none
deriving Repr, DecidableEq

def Enumeration.all (enumeration : Enumeration) : List CString :=
  enumeration.entries ++ enumeration.unread.getD []

/-- The machine, the kernel and the C library that the loader runs on.  A file
has contents when `open` and `lseek` succeed on it, and a text when `ifstream` can
open it; `mapFile` tells whether the private mapping of the whole file succeeds.
`mmap` is the address that an anonymous mapping with this hint and size gets.
For `read_ldsoconf`, `stackDepth` is how many nested calls the stack has room for, and
`freeDescriptors` how many descriptors are free.  `libcMap` and `libcTlsVariables` are
`sloader_libc_map` and `sloader_libc_tls_variables`, `tlsBlock` is the address of
`sloader_dummy_to_secure_tls_space`, and `indeterminateTls` is what `file_tls_`
holds in a binary without a `PT_TLS` header. -/
structure Host where
  readFile : Path → Option CString
  glob : CString → List Path
  sloaderLibraryPath : Option CString
  fileExists : Path → Lookup
  isDirectory : Path → Lookup
  directoryIterator : Path → Enumeration
  openFile : Path → Option (List UInt8)
  mapFile : Path → Bool
  mmap : Memory → Address → Elf64Xword → Address
  stackDepth : Nat
  freeDescriptors : Nat
  libcMap : CString → Option Elf64Addr
  libcTlsVariables : CString → Option Elf64Addr
  tlsBlock : Address
  indeterminateTls : Elf64Phdr

/-- What the loader relies on `mmap` for: it returns the address it was given
only for a non-empty range of pages none of which is in use. -/
structure Host.MmapSound (host : Host) : Prop where
  nonempty : ∀ {memory start size}, host.mmap memory start size = start → size ≠ 0
  unused : ∀ {memory start size}, host.mmap memory start size = start →
    ∀ address, Inside start size.toNat address → memory.mapped address = false

inductive Directive where
  | directory (path : Path)
  | include (pattern : CString)
deriving Repr, DecidableEq

def isSpace (byte : UInt8) : Bool :=
  byte == 32 || (9 ≤ byte && byte ≤ 13)

def nextWord (text : CString) : Option (CString × CString) :=
  let text := text.dropWhile isSpace
  if text = [] then none
  else some (text.takeWhile (! isSpace ·), text.dropWhile (! isSpace ·))

/-- The directives of a configuration file.  Each turn of the source's loop
consumes at least one byte, so the length of the text bounds their number. -/
def directivesFrom : Nat → CString → List Directive
  | 0, _ => []
  | fuel + 1, text =>
      match nextWord text with
      | none => []
      | some (head, rest) =>
          if head.take 1 = ascii "#" then
            directivesFrom fuel ((rest.dropWhile (· ≠ 10)).drop 1)
          else if head = ascii "include" then
            match nextWord rest with
            | none => [.include []]
            | some (descendants, rest) => .include descendants :: directivesFrom fuel rest
          else .directory head :: directivesFrom fuel rest

def directives (text : CString) : List Directive :=
  directivesFrom text.length text

/-- Every call keeps its stream open while it calls itself.  Where no descriptor is
left, the stream does not open, and the call returns what it was given. -/
def readLdsoconfDfs (host : Host) : Nat → Nat → List Path → Path → Except Stop (List Path)
  | 0, _, _, _ => .error .stackOverflow
  | _ + 1, 0, res, _ => .ok res
  | depth + 1, files + 1, res, filename =>
      match host.readFile filename with
      | none => .ok res
      | some text =>
          if contains filename (ascii "i386") || contains filename (ascii "lib32") then .ok res
          else
            (directives text).foldlM (fun res directive =>
              match directive with
              | .directory path => .ok (res ++ [path])
              | .include pattern => (host.glob pattern).foldlM (readLdsoconfDfs host depth files) res) res

def readLdsoconf (host : Host) : Except Stop (List Path) :=
  readLdsoconfDfs host host.stackDepth host.freeDescriptors [] (ascii "/etc/ld.so.conf")

def libraryDirectory (host : Host) (runpath rpath : Option Path) : Except Stop (List Path) := do
  let sloaderLibraryPath := host.sloaderLibraryPath.getD []
  let ldsoconfs ← readLdsoconf host
  return (if sloaderLibraryPath = [] then [] else [sloaderLibraryPath]) ++ runpath.toList ++
    rpath.toList ++ ldsoconfs ++
    [ascii "/lib", ascii "/usr/lib", ascii "/usr/lib64", ascii "/usr/lib/x86_64-linux-gnu", ascii "."]

/-- One turn of the loop of `FindLibrary`, which goes on if it comes to no file. -/
def searchDirectory (host : Host) (searchingFilename : CString) (d : Path) : Except Stop (Option Path) := do
  if ← (host.isDirectory d).ask then
    match (host.directoryIterator d).entries.find? searchingFilename.isPrefixOf with
    | some entry => return some (appendPath d entry)
    | none => if (host.directoryIterator d).unread.isSome then .error .filesystemError else return none
  else return none

def searchDirectories (host : Host) (searchingFilename : CString) : List Path → Except Stop Path
  | [] => .error .abort
  | d :: rest => do
      match ← searchDirectory host searchingFilename d with
      | some path => return path
      | none => searchDirectories host searchingFilename rest

/-- Whether `FindLibrary` takes the name for the path of the library. -/
def isLibraryPath (host : Host) (libraryPath : Path) : Except Stop Bool :=
  if isAbsolute libraryPath then (host.fileExists libraryPath).ask else .ok false

def findLibrary (host : Host) (libraryName : CString) (runpath rpath : Option Path) :
    Except Stop Path := do
  if ← isLibraryPath host libraryName then return libraryName
  let directories ← libraryDirectory host runpath rpath
  searchDirectories host (filename libraryName) directories

end Sloader
