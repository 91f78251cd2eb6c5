import SchemaFragments.Main
import SchemaFragments.Pool.Schedule
import SchemaFragments.Proofs.Selection
import SchemaFragments.Proofs.Loading
import SchemaFragments.Proofs.Spreads
import SchemaFragments.Proofs.Discovery
import SchemaFragments.Proofs.SchemaTypes
import SchemaFragments.Proofs.FragmentBodies
import SchemaFragments.Proofs.Reprinting
import SchemaFragments.Proofs.SingleFiles
import SchemaFragments.Proofs.RootTypes
import SchemaFragments.Proofs.SavedSettings
import SchemaFragments.Proofs.Schedules
import SchemaFragments.Proofs.Executions
import SchemaFragments.Proofs.Segments
import SchemaFragments.Proofs.LinkErrors
import SchemaFragments.Proofs.Runs
import SchemaFragments.Proofs.Reordering
import SchemaFragments.Proofs.Dialects
import SchemaFragments.Proofs.Regrouping
import SchemaFragments.Proofs.RootDefinitions
import SchemaFragments.Proofs.KeyOrder
import SchemaFragments.Proofs.CommentDirectives
import SchemaFragments.Proofs.EmptyTexts
import SchemaFragments.Proofs.KeywordLines
import SchemaFragments.Proofs.ByteOffsets
import SchemaFragments.Proofs.LoadEvents
import SchemaFragments.Proofs.Reports
import SchemaFragments.Proofs.Worklists
import SchemaFragments.Proofs.NormalPaths
import SchemaFragments.Proofs.Reloading
