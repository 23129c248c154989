import KeyedColumns.Log.Logger
import KeyedColumns.Log.Severity.Reading
import KeyedColumns.Proofs.Batches
import KeyedColumns.Proofs.Causes
import KeyedColumns.Proofs.Counterparts
import KeyedColumns.Proofs.Cursors
import KeyedColumns.Proofs.History
import KeyedColumns.Proofs.Inertness
import KeyedColumns.Proofs.Modes
import KeyedColumns.Proofs.Reindexing
import KeyedColumns.Proofs.Removing
import KeyedColumns.Proofs.Stamps
import KeyedColumns.Proofs.Streams
import KeyedColumns.Proofs.TakingOut
import KeyedColumns.Proofs.Tokens
import KeyedColumns.Proofs.Verbosity
import KeyedColumns.Proofs.Warnings
import KeyedColumns.Registry.Run
import KeyedColumns.Text.Fields
