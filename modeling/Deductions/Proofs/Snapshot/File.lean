import Deductions.Proofs.Graph.Json
import Deductions.Snapshot.File
import Mathlib.Algebra.Group.Nat.Defs

namespace Deductions

open Json

namespace Snapshot

/-- All paths consist of identifiers, and all indices fit into a word. -/
structure IsStorable (s : Snapshot) : Prop where
  modules : ∀ e ∈ s.modules.entries, e.1.HasIdentifiers ∧ ∀ p ∈ e.2, p.HasIdentifiers
  nodes : ∀ e ∈ s.nodes.entries, e.1.HasIdentifiers ∧ e.2.IsStorable
  edges : ∀ e ∈ s.edges, e.IsStorable
  narrations : ∀ e ∈ s.narrations.entries, e.1.HasIdentifiers ∧ ∀ step ∈ e.2, step.IsStorable
  external : ∀ r ∈ SortedSet.toList s.external, r.path.HasIdentifiers

theorem standsFor {s : Snapshot} (storable : s.IsStorable) : StandsFor Snapshot.ofJson? s.json s := by
  have version := s.version.standsFor
  have modules : StandsFor (pathMap? (list? Path.ofJson?)) (ofPathMap (ofList Path.json) s.modules)
      s.modules :=
    standsFor_ofPathMap fun e member =>
      ⟨(storable.modules e member).1,
        standsFor_ofList fun p inside => Path.standsFor ((storable.modules e member).2 p inside)⟩
  have nodes : StandsFor (pathMap? Node.ofJson?) (ofPathMap Node.json s.nodes) s.nodes :=
    standsFor_ofPathMap fun e member =>
      ⟨(storable.nodes e member).1, Node.standsFor (storable.nodes e member).2⟩
  have edges := standsFor_ofList fun e member => Edge.standsFor (storable.edges e member)
  have narrations : StandsFor narrations? (ofPathMap (ofList ResolvedStep.json) s.narrations) s.narrations :=
    standsFor_ofPathMap fun e member =>
      ⟨(storable.narrations e member).1, standsFor_ofList fun step inside =>
        ResolvedStep.standsFor ((storable.narrations e member).2 step inside)⟩
  have references := standsFor_ofList fun r member => NodeRef.standsFor (storable.external r member)
  have external : external? (ofList NodeRef.json (SortedSet.toList s.external)) = some s.external := by
    rw [external?, references.read, Option.map_some, SortedSet.ofList_toList]
  constructor
  case plain =>
    exact .member (.string _) (.member version.plain (.member modules.plain (.member nodes.plain
      (.member edges.plain (.member narrations.plain (.member references.plain .noMembers))))))
  case read =>
    rw [ofJson?, json, record?_object rfl (by decide)]
    simp only [List.map_cons, List.map_nil, Option.bind_eq_bind, Option.bind_some, Option.map_some,
      Option.getD_some, version.read, modules.read, nodes.read, edges.read, narrations.read, external,
      string?]
    rfl

end Snapshot

namespace SnapshotFile

/-- A number is read back from as many low bytes as it has. -/
theorem number_littleEndian {n value : Nat} (small : value < 256 ^ n) :
    number (littleEndian n value) = value := by
  induction n generalizing value with
  | zero => exact (Nat.lt_one_iff.mp small).symm
  | succ n ih =>
    have higher : value / 256 < 256 ^ n := Nat.div_lt_of_lt_mul (Nat.pow_succ' ▸ small)
    rw [littleEndian, number, ih higher, UInt8.toNat_ofNat']
    exact Nat.mod_add_div value 256

theorem headerNumber_of_slice {bytes : List UInt8} {i n : Nat} (small : n < UInt64.size)
    (slice : (bytes.drop (8 + 8 * i)).take 8 = littleEndian 8 n) : headerNumber bytes i = n := by
  rw [headerNumber, slice]
  exact number_littleEndian (small.trans_eq (by decide))

theorem length_header (f : SnapshotFile) : f.header.length = headerSize := rfl

theorem length_bytes (f : SnapshotFile) :
    f.bytes.length = headerSize + f.payload.length + digestSize := by
  rw [bytes, List.length_append, List.length_append, length_header, Digest.length_bytes, digestSize]

theorem length_compact_le_payload {f : SnapshotFile} {m : String × Json} {members : List (String × Json)}
    (form : f.snapshot.json = .object members) (member : m ∈ members) :
    m.2.compact.length ≤ f.payload.length := by
  have text : f.snapshot.json.compact.length ≤ f.payload.length := length_le_bytes_ofList _
  rw [form] at text
  exact (length_compact_le_object member).trans text

theorem size_nodes_le_payload (f : SnapshotFile) : f.snapshot.nodes.size ≤ f.payload.length := by
  have entries := length_le_compact_object (f.snapshot.nodes.entries.map fun e => (e.1.text, e.2.json))
  rw [List.length_map] at entries
  have part : (ofPathMap Node.json f.snapshot.nodes).compact.length ≤ f.payload.length :=
    length_compact_le_payload (m := ("nodes", ofPathMap Node.json f.snapshot.nodes)) rfl (by simp)
  exact entries.trans part

theorem length_edges_le_payload (f : SnapshotFile) : f.snapshot.edges.length ≤ f.payload.length := by
  have elems := length_le_compact_array (f.snapshot.edges.map Edge.json)
  rw [List.length_map] at elems
  have part : (ofList Edge.json f.snapshot.edges).compact.length ≤ f.payload.length :=
    length_compact_le_payload (m := ("edges", ofList Edge.json f.snapshot.edges)) rfl (by simp)
  exact elems.trans part

theorem snapshot?_payload {f : SnapshotFile} (storable : f.snapshot.IsStorable) :
    snapshot? f.payload = some f.snapshot := by
  have form := Snapshot.standsFor storable
  rw [snapshot?, payload, parse_compactText form.plain, Option.bind_some, form.read]

section

variable {f : SnapshotFile}

/-- A header with fewer bytes behind it than payload and digest take. -/
theorem ofBytes_header_append (readable : f.format.isReadable = true)
    (small : headerSize + f.payload.length + digestSize < UInt64.size) {rest : List UInt8}
    (short : rest.length < f.payload.length + digestSize) :
    ofBytes (f.header ++ rest) = .error .tooSmall := by
  have missing : (f.header ++ rest).length < headerSize + f.payload.length + digestSize := by
    rw [List.length_append, length_header]
    omega
  have mark : (f.header ++ rest).take 4 = SnapshotFile.mark := rfl
  have format : formatOf (f.header ++ rest) = f.format := rfl
  have length : headerNumber (f.header ++ rest) 2 = f.payload.length := headerNumber_of_slice (by omega) rfl
  have fits : ¬ UInt64.size ≤ headerSize + f.payload.length := by omega
  rw [ofBytes]
  simp only [mark, format, length, readable, fits, Nat.not_le.mpr small, missing, ne_eq, not_true_eq_false, if_true, if_false,
    Bool.not_true, Bool.false_eq_true]
  split <;> rfl

theorem ofBytes_of_short {bytes : List UInt8} (short : bytes.length < headerSize + digestSize) :
    ofBytes bytes = .error .tooSmall := by
  rw [ofBytes, if_pos short]
  rfl

/-- Where some of the last bytes are missing, what is left is too small. -/
theorem ofBytes_proper_beginning (readable : f.format.isReadable = true)
    (small : headerSize + f.payload.length + digestSize < UInt64.size) {front rest : List UInt8} (parts : front ++ rest = f.bytes)
    (some : rest ≠ []) : ofBytes front = .error .tooSmall := by
  have missing : front.length < headerSize + f.payload.length + digestSize := by
    rw [← length_bytes, ← parts, List.length_append]
    exact Nat.lt_add_of_pos_right (List.length_pos_iff.mpr some)
  by_cases short : front.length < headerSize
  · exact ofBytes_of_short (by omega)
  · -- The header is there as a whole, and with it the length of the payload.
    have start : f.header <+: front := by
      have whole : f.header <+: f.bytes := ⟨f.payload ++ f.digest.bytes, (List.append_assoc ..).symm⟩
      exact List.prefix_of_prefix_length_le whole ⟨rest, parts⟩ (Nat.le_of_not_lt short)
    obtain ⟨after, rfl⟩ := start
    rw [List.length_append, length_header] at missing
    exact ofBytes_header_append readable small (by omega)

theorem ofBytes_bytes (readable : f.format.isReadable = true)
    (small : headerSize + f.payload.length + digestSize < UInt64.size) (storable : f.snapshot.IsStorable) :
    ofBytes f.bytes = .ok f := by
  have fits : ¬ UInt64.size ≤ headerSize + f.payload.length := by omega
  have payload : f.payload.length < UInt64.size := by omega
  have nodes := Nat.lt_of_le_of_lt f.size_nodes_le_payload payload
  have edges := Nat.lt_of_le_of_lt f.length_edges_le_payload payload
  have long : ¬ f.bytes.length < headerSize + f.payload.length + digestSize := by
    rw [length_bytes]
    exact Nat.lt_irrefl _
  have notShort : ¬ f.bytes.length < headerSize + digestSize := by omega
  have stop : (f.header ++ f.payload).length = headerSize + f.payload.length := by
    rw [List.length_append, length_header]
  have signed : f.bytes.take (headerSize + f.payload.length) = f.header ++ f.payload :=
    List.take_left' stop
  have signature : (f.bytes.drop (headerSize + f.payload.length)).take digestSize = f.digest.bytes := by
    have whole : f.digest.bytes.length ≤ digestSize := Nat.le_of_eq f.digest.length_bytes
    rw [bytes, List.drop_left' stop, List.take_of_length_le whole]
  have content : (f.header ++ f.payload).drop headerSize = f.payload := List.drop_left' f.length_header
  have mark : f.bytes.take 4 = SnapshotFile.mark := rfl
  have format : formatOf f.bytes = f.format := rfl
  have flags : f.bytes.getD 7 0 = f.flags := rfl
  have count : headerNumber f.bytes 0 = f.snapshot.nodes.size := headerNumber_of_slice nodes rfl
  have count' : headerNumber f.bytes 1 = f.snapshot.edges.length := headerNumber_of_slice edges rfl
  have length : headerNumber f.bytes 2 = f.payload.length := headerNumber_of_slice payload rfl
  have digest : Digest.ofBytes (f.header ++ f.payload) = f.digest := rfl
  rw [ofBytes]
  simp only [notShort, mark, format, flags, count, count', length, readable, fits, Nat.not_le.mpr small, long, signed, signature,
    content, digest, snapshot?_payload storable, ne_eq, not_true_eq_false, if_false, and_self, if_true,
    Bool.not_true, Bool.false_eq_true]
  rfl

end

/-- The file of a snapshot is read back from its bytes, with its format and its flags, and every
proper beginning of these bytes is too small. -/
theorem ofBytes_ofSnapshot {s : Snapshot} (storable : s.IsStorable)
    (small : (ofSnapshot s).bytes.length < UInt64.size) :
    ofBytes (ofSnapshot s).bytes = .ok (ofSnapshot s) ∧
      ∀ front rest, front ++ rest = (ofSnapshot s).bytes → rest ≠ [] → ofBytes front = .error .tooSmall := by
  have readable : (ofSnapshot s).format.isReadable = true := rfl
  rw [length_bytes] at small
  exact ⟨ofBytes_bytes readable small storable, fun front rest => ofBytes_proper_beginning readable small⟩

/-- A deduction that expands an assertion of another library, and infers it in one sentence. -/
def narratedSnapshot : Snapshot :=
  let version := Version.plain 1 0 0
  let owner := (Path.single "m").child "D"
  let source : NodeRef := ⟨owner, version⟩
  let target : NodeRef := ⟨((Path.single "l").child "T").child "C", version⟩
  { library := "examples"
    version
    modules := .ofList [(.single "m", [owner])]
    nodes := .ofList [(owner, {
      path := owner
      version
      kind := .deduction
      fields := .ofList [("en", "a \"c\"")]
      narration := some [⟨0, "Therefore C.", .therefore, [], ["l.T.C"]⟩] })]
    edges := [.expansion source [target] .narrated, .inference source target owner 0]
    narrations := .ofList [(owner, [⟨0, .therefore, [], [target]⟩])]
    external := .ofList [target] }

theorem narratedSnapshot_isStorable : narratedSnapshot.IsStorable where
  modules := by decide
  nodes := by
    refine List.forall_mem_singleton.mpr ⟨by decide, by decide, nofun, fun steps narrated => ?_⟩
    obtain rfl := Option.some.inj narrated
    decide
  edges := by
    refine List.forall_mem_cons.mpr ⟨⟨by decide, nofun⟩, List.forall_mem_singleton.mpr ⟨by decide, ?_⟩⟩
    rintro source target owner step ⟨⟩
    decide
  narrations := by
    refine List.forall_mem_singleton.mpr ⟨by decide, List.forall_mem_singleton.mpr ?_⟩
    exact ⟨by decide, nofun, by decide⟩
  external := by decide

theorem ofBytes_ofSnapshot_narratedSnapshot :
    ofBytes (ofSnapshot narratedSnapshot).bytes = .ok (ofSnapshot narratedSnapshot) ∧
      (ofSnapshot narratedSnapshot).flags = narrationsFlag ||| externalFlag ∧
      ∀ n < (ofSnapshot narratedSnapshot).bytes.length,
        ofBytes ((ofSnapshot narratedSnapshot).bytes.take n) = .error .tooSmall := by
  have small : (ofSnapshot narratedSnapshot).bytes.length < UInt64.size := by
    rw [length_bytes, payload, compactText, bytes_ofList]
    decide +kernel
  obtain ⟨whole, beginnings⟩ := ofBytes_ofSnapshot narratedSnapshot_isStorable small
  refine ⟨whole, by decide, fun n less => beginnings _ _ (List.take_append_drop n _) fun none => ?_⟩
  exact absurd less (Nat.not_lt_of_le (List.drop_eq_nil_iff.mp none))

end SnapshotFile

end Deductions
