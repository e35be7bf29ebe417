import Deductions.Proofs.Graph.WellFormed
import Deductions.Proofs.Record
import Deductions.Proofs.Snapshot.Assembly

namespace Deductions

open Batch Resolution

section

variable (sources : List ModuleSource) (library : ModuleLibrary) (imports : ImportTable)
  (previous : Option Snapshot)

/-- What a module of a batch is resolved against, with the graphs of those that compiled before it. -/
def surroundingsAfter (before : List ModuleId) : Surroundings :=
  ⟨libraryWith library (compileBatch sources library imports previous).outcomes before, imports, previous⟩

/-- The module of the batch has compiled, as the candidate of the source, after some others. -/
structure IsCompilation (m : ResolvedModule) (s : ModuleSource) (c : Candidate) (before : List ModuleId) :
    Prop where
  compiled : (compileBatch sources library imports previous).outcomes.find? s.id = some (.ok m)
  source : s ∈ sources
  built : s.build = .ok c
  awaited : ∀ d ∈ dependencies c imports (idsOf sources), d ∈ before
  resolved : c.resolve (surroundingsAfter sources library imports previous before) = .ok m
  graph : m.graph =
    { c.graph with edges := (findings c (surroundingsAfter sources library imports previous before)).edges }
  external : m.external = (findings c (surroundingsAfter sources library imports previous before)).external

end

variable {sources : List ModuleSource} {library : ModuleLibrary} {imports : ImportTable}
  {previous : Option Snapshot}

theorem IsCompilation.mem_compiled {m : ResolvedModule} {s : ModuleSource} {c : Candidate}
    {before : List ModuleId} (compilation : IsCompilation sources library imports previous m s c before) :
    m ∈ (compileBatch sources library imports previous).compiled :=
  BatchResult.mem_compiled.mpr ⟨s.id, compilation.compiled⟩

theorem exists_isCompilation {id : ModuleId} {m : ResolvedModule}
    (found : (compileBatch sources library imports previous).outcomes.find? id = some (.ok m)) :
    ∃ s c before, s.id = id ∧ IsCompilation sources library imports previous m s c before := by
  obtain ⟨s, member, rfl, c, built, before, awaited, resolved⟩ := compileBatch_recorded found
  obtain ⟨_, _, build⟩ := s.build_eq_ok built
  obtain ⟨graph, external, _⟩ := Candidate.resolve_eq_ok_of_build build _ resolved
  exact ⟨s, c, before, rfl, found, member, built, awaited, resolved, graph, external⟩

theorem isCompiledAt_of_compiled {id : ModuleId} {m : ResolvedModule}
    (found : (compileBatch sources library imports previous).outcomes.find? id = some (.ok m)) :
    m.graph.IsCompiledAt id.version := by
  obtain ⟨s, _, rfl, c, built, before, _, resolved⟩ := compileBatch_recorded found
  exact ⟨s, rfl, _, m, ModuleSource.compile_eq_ok.mpr ⟨c, built, resolved⟩, rfl⟩

theorem isForest_of_compiled {m : ResolvedModule}
    (member : m ∈ (compileBatch sources library imports previous).compiled) : m.graph.IsForest := by
  obtain ⟨id, found⟩ := BatchResult.mem_compiled.mp member
  exact (isCompiledAt_of_compiled found).isForest

/-- What is added with the modules that compiled are forests. -/
theorem isForest_of_mem_additions : ∀ a ∈ (compileBatch sources library imports previous).compiled.map
    ResolvedModule.addition, a.graph.IsForest := by
  intro a member
  obtain ⟨m, inside, rfl⟩ := List.mem_map.mp member
  exact isForest_of_compiled inside

section

variable {name : String} {version : Version} {S : Snapshot}
  (assembled : assemble name version (compileBatch sources library imports previous).compiled = .ok S)
include assembled

theorem isMadeOf_of_assemble : S.IsMadeOf
    ((compileBatch sources library imports previous).compiled.map ResolvedModule.addition) := by
  rw [assemble_eq] at assembled
  exact (Snapshot.isMadeOf_addAll (fun a member => (isForest_of_mem_additions a member).keyed) assembled).1

theorem version_of_assemble : S.version = version := by
  rw [assemble_eq] at assembled
  exact (Snapshot.isMadeOf_addAll (fun a member => (isForest_of_mem_additions a member).keyed) assembled).2

theorem node?_of_assemble {path : Path} {n : Node} : S.node? path = some n ↔
    ∃ m ∈ (compileBatch sources library imports previous).compiled, m.graph.node? path = some n := by
  rw [(isMadeOf_of_assemble assembled).nodes]
  simp only [List.mem_map, exists_exists_and_eq_and, ResolvedModule.addition]

/-- Every stored node lies in one of the modules. -/
theorem owns_of_assemble {path : Path} (stored : S.contains path = true) : S.owns path = true := by
  have madeOf := isMadeOf_of_assemble assembled
  obtain ⟨a, member, inside⟩ := madeOf.contains_iff.mp stored
  have isModule : a.graph.module ∈ S.modules.keys := madeOf.mem_keys_iff.mpr (List.mem_map_of_mem member)
  obtain ⟨m, compiled, rfl⟩ := List.mem_map.mp member
  have around := (isForest_of_compiled compiled).within path inside
  exact List.any_eq_true.mpr ⟨_, isModule, (Path.isSome_strip?_iff.mp around).1⟩

theorem external_of_assemble {m : ResolvedModule} {r : NodeRef}
    (compiled : m ∈ (compileBatch sources library imports previous).compiled)
    (recorded : r ∈ SortedSet.toList m.external) : S.external.contains r = true := by
  refine SortedMap.contains_iff.mpr (((isMadeOf_of_assemble assembled).external r).mpr ?_)
  exact ⟨m.addition, List.mem_map_of_mem compiled, recorded⟩

/-- Every stored edge was made for the names of a node of a module that compiled. -/
theorem exists_link_of_assemble {e : Edge} (member : e ∈ S.edges) : ∃ m s c before,
    IsCompilation sources library imports previous m s c before ∧ ∃ n ∈ c.graph.walk.getD [],
      IsLink c.graph (surroundingsAfter sources library imports previous before)
        (c.imports.mergedWith imports) c.references n
        (findings c (surroundingsAfter sources library imports previous before)) e := by
  rw [(isMadeOf_of_assemble assembled).edges] at member
  obtain ⟨a, inside, member⟩ := List.mem_flatMap.mp member
  obtain ⟨m, compiled, rfl⟩ := List.mem_map.mp inside
  obtain ⟨id, found⟩ := BatchResult.mem_compiled.mp compiled
  obtain ⟨s, c, before, _, compilation⟩ := exists_isCompilation found
  have member : e ∈ m.graph.edges := member
  rw [compilation.graph] at member
  exact ⟨m, s, c, before, compilation, Candidate.isLink_of_mem_findings member⟩

end

end Deductions
