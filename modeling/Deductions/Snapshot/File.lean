import Deductions.Digest
import Deductions.Json.Printer
import Deductions.Json.Reader
import Deductions.Snapshot.Json

namespace Deductions

/-- A version of the file format. -/
structure FormatVersion where
  major : UInt8
  minor : UInt8
  patch : UInt8
deriving DecidableEq

namespace FormatVersion

def current : FormatVersion := ⟨0, 1, 0⟩

/-- Whether files of the version can be read: all of its major version up to the current minor
one. -/
def isReadable (v : FormatVersion) : Bool :=
  v.major == current.major && v.minor ≤ current.minor

def text (v : FormatVersion) : String := s!"{v.major.toNat}.{v.minor.toNat}.{v.patch.toNat}"

end FormatVersion

/-- Why some bytes are no snapshot file. -/
inductive FileError where
  | tooSmall
  | wrongMark
  | unreadableVersion (version : FormatVersion)
  | wrongDigest
  | malformedPayload
  | wrongCounts (nodes edges : Nat)
  /-- The sum that tells where the digest ends takes more than 64 bits, which stops the program. -/
  | overflow
deriving DecidableEq

def FileError.message : FileError → String
  | .tooSmall => "file too small to be a valid snapshot"
  | .wrongMark => "invalid magic bytes: expected LMS\\0"
  | .unreadableVersion version => "unsupported snapshot format version " ++ version.text
  | .wrongDigest => "content hash mismatch: snapshot is corrupted"
  | .malformedPayload => "serialization error: <json>"
  | .wrongCounts nodes edges =>
    s!"header counts ({nodes} nodes, {edges} edges) do not match payload"
  | .overflow => "attempt to add with overflow"

structure SnapshotFile where
  format : FormatVersion
  flags : UInt8
  snapshot : Snapshot
deriving DecidableEq

namespace SnapshotFile

/-- The first bytes of every file. -/
def mark : List UInt8 := [0x4c, 0x4d, 0x53, 0x00]

def headerSize : Nat := 32

def digestSize : Nat := 32

/-- The flag of files with resolved narrations. -/
def narrationsFlag : UInt8 := 1

/-- The flag of files with references to other libraries. -/
def externalFlag : UInt8 := 2

def has (f : SnapshotFile) (flag : UInt8) : Bool := f.flags &&& flag != 0

/-- The file of a snapshot in the current format. -/
def ofSnapshot (s : Snapshot) : SnapshotFile where
  format := .current
  flags := (if s.narrations.isEmpty then 0 else narrationsFlag) |||
    (if s.external.isEmpty then 0 else externalFlag)
  snapshot := s

/-- The lowest `n` bytes of a number, the lowest first. -/
def littleEndian : Nat → Nat → List UInt8
  | 0, _ => []
  | n + 1, value => UInt8.ofNat value :: littleEndian n (value / 256)

/-- The number whose bytes are given, the lowest first. -/
def number : List UInt8 → Nat
  | [] => 0
  | byte :: rest => byte.toNat + 256 * number rest

def payload (f : SnapshotFile) : List UInt8 := f.snapshot.json.compactText.toUTF8.data.toList

def header (f : SnapshotFile) : List UInt8 :=
  mark ++ [f.format.major, f.format.minor, f.format.patch, f.flags] ++
    littleEndian 8 f.snapshot.nodes.size ++ littleEndian 8 f.snapshot.edges.length ++
    littleEndian 8 f.payload.length

/-- The digest over header and payload. -/
def digest (f : SnapshotFile) : Digest := .ofBytes (f.header ++ f.payload)

def bytes (f : SnapshotFile) : List UInt8 := f.header ++ f.payload ++ f.digest.bytes

/-- The snapshot of a payload. -/
def snapshot? (payload : List UInt8) : Option Snapshot :=
  (Json.parse (.ofBytes payload)).bind Snapshot.ofJson?

/-- The `i`-th of the three numbers in the header. -/
def headerNumber (bytes : List UInt8) (i : Nat) : Nat := number ((bytes.drop (8 + 8 * i)).take 8)

def formatOf (bytes : List UInt8) : FormatVersion :=
  ⟨bytes.getD 4 0, bytes.getD 5 0, bytes.getD 6 0⟩

/-- Reads a file. What follows the digest does not count. -/
def ofBytes (bytes : List UInt8) : Except FileError SnapshotFile := do
  if bytes.length < headerSize + digestSize then throw .tooSmall
  if bytes.take 4 ≠ mark then throw .wrongMark
  let format := formatOf bytes
  if !format.isReadable then throw (.unreadableVersion format)
  let stop := headerSize + headerNumber bytes 2
  if UInt64.size ≤ stop then throw .tooSmall
  if UInt64.size ≤ stop + digestSize then throw .overflow
  if bytes.length < stop + digestSize then throw .tooSmall
  if (Digest.ofBytes (bytes.take stop)).bytes ≠ (bytes.drop stop).take digestSize then
    throw .wrongDigest
  match snapshot? ((bytes.take stop).drop headerSize) with
  | none => throw .malformedPayload
  | some snapshot =>
    let nodes := headerNumber bytes 0
    let edges := headerNumber bytes 1
    if snapshot.nodes.size = nodes ∧ snapshot.edges.length = edges then
      return ⟨format, bytes.getD 7 0, snapshot⟩
    else throw (.wrongCounts nodes edges)

end SnapshotFile

end Deductions
