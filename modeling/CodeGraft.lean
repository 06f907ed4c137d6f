import CodeGraft.Apply.Batch
import CodeGraft.Apply.Event
import CodeGraft.Apply.Rehearsal
import CodeGraft.Command.Run
import CodeGraft.Desktop.Platform
import CodeGraft.Json.Reader
import CodeGraft.Json.Writer
import CodeGraft.Machine.World
import CodeGraft.Main
import CodeGraft.Workspace.Session
import CodeGraft.Proofs.Spans
import CodeGraft.Proofs.Matching
import CodeGraft.Proofs.Placement
import CodeGraft.Proofs.NameMatches
import CodeGraft.Proofs.Unrelated
import CodeGraft.Proofs.Truth
import CodeGraft.Proofs.Backups
import CodeGraft.Proofs.Documents
import CodeGraft.Proofs.SelfContained
import CodeGraft.Proofs.Blockwise
import CodeGraft.Proofs.Consent
import CodeGraft.Proofs.Entries
import CodeGraft.Proofs.Encoding
import CodeGraft.Proofs.OnMachine
import CodeGraft.Proofs.Places
import CodeGraft.Proofs.Newlines
import CodeGraft.Proofs.JsonRoundTrip
import CodeGraft.Proofs.Touches
import CodeGraft.Proofs.Listings
import CodeGraft.Proofs.StoredBackups
import CodeGraft.Proofs.Ledgers
import CodeGraft.Proofs.Commands
import CodeGraft.Proofs.Undo
import CodeGraft.Proofs.NormalPaths
import CodeGraft.Proofs.Confinement
import CodeGraft.Proofs.Indexes
import CodeGraft.Proofs.Sections
import CodeGraft.Proofs.Reapplying
import CodeGraft.Proofs.Continuations
import CodeGraft.Proofs.LineEndings
import CodeGraft.Proofs.KeptChanges
import CodeGraft.Proofs.FenceRuns
import CodeGraft.Proofs.LongFences
import CodeGraft.Proofs.Forecasts
import CodeGraft.Proofs.DryRuns
import CodeGraft.Proofs.IgnoredFolders
import CodeGraft.Proofs.RefusedEdits
import CodeGraft.Proofs.Statuses
import CodeGraft.Proofs.ReloadedLedgers
import CodeGraft.Proofs.BackupSeries
import CodeGraft.Proofs.StableOrder
import CodeGraft.Proofs.Insertions
import CodeGraft.Proofs.CarriedSpans
import CodeGraft.Proofs.SectionPlans
import CodeGraft.Proofs.Balance
import CodeGraft.Proofs.BalancedSections
import CodeGraft.Proofs.IndentedHeads
import CodeGraft.Proofs.IndentedBlocks
import CodeGraft.Proofs.LiveCode
import CodeGraft.Proofs.BoundBodies
import CodeGraft.Proofs.NeededChars
import CodeGraft.Proofs.Verdicts
import CodeGraft.Proofs.ClosersInPlace
import CodeGraft.Proofs.LivePlaces
import CodeGraft.Proofs.LiveClosers
import CodeGraft.Proofs.BelowFeed
import CodeGraft.Proofs.AboveFeed
import CodeGraft.Proofs.SpansAboveFeed
import CodeGraft.Proofs.FramedTexts
import CodeGraft.Proofs.SharedStretches
import CodeGraft.Proofs.HunkTexts
import CodeGraft.Proofs.AppliedHunks
import CodeGraft.Proofs.UnsavedLedgers
import CodeGraft.Proofs.DamagedLedgers
import CodeGraft.Proofs.CappedStores
import CodeGraft.Proofs.BackupNames
import CodeGraft.Proofs.SaveFolders
import CodeGraft.Proofs.OpenedFiles
import CodeGraft.Proofs.Reindentation
