import Deductions.ChangeLog.Json
import Deductions.Disk.FileTree
import Deductions.Import.Json
import Deductions.Main
import Deductions.Proofs.Dangling
import Deductions.Proofs.Ghosts
import Deductions.Proofs.SingleExpansion
import Deductions.Proofs.Snapshot.File
import Deductions.Proofs.Snapshot.Restoration
import Deductions.Proofs.Source.RoundTrip
import Deductions.Source.Json
import Deductions.Proofs.Snapshot.Integrity
import Deductions.Proofs.Source.Language
import Deductions.Proofs.Retag
import Deductions.Proofs.Snapshot.Alike
import Deductions.Proofs.Faithful
import Deductions.Proofs.Snapshot.Faithful
import Deductions.Proofs.Snapshot.Unchanged
import Deductions.Proofs.Retag.Build
import Deductions.Proofs.Retag.Lookup
import Deductions.Proofs.Retag.Resolution
import Deductions.Proofs.Retag.Batch
import Deductions.Proofs.Retag.Snapshot
import Deductions.Proofs.Snapshot.Republication
import Deductions.Proofs.BatchOrder
import Deductions.Proofs.Graph.Outline
import Deductions.Proofs.Complete
import Deductions.Proofs.Acknowledgement
import Deductions.Proofs.ChangeLog
import Deductions.Proofs.Graph.Edit
import Deductions.Proofs.ImportCycle
import Deductions.Proofs.CycleListing
import Deductions.Proofs.MissingNames
import Deductions.Proofs.DistinctTargets
import Deductions.Proofs.OwnNames
import Deductions.Proofs.Components
import Deductions.Proofs.CaseGroups
import Deductions.Proofs.Narration.Forms
import Deductions.Proofs.Narration.Blanks
import Deductions.Proofs.Source.Layout
import Deductions.Proofs.FoundVersion
import Deductions.Proofs.UnusedAssertions
import Deductions.Proofs.Source.Spans
import Deductions.Proofs.Import.Globs
import Deductions.Proofs.Snapshot.Edit
import Deductions.Proofs.Version.Bump
