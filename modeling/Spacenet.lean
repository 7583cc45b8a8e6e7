import Spacenet.WalkRefinement
import Spacenet.Effect.Callback
import Spacenet.Effect.Paths
import Spacenet.Effect.Records
import Spacenet.Effect.Visits
import Spacenet.Effect.Run
import Spacenet.Effect.Reindex
import Spacenet.Effect.Outcome
import Spacenet.Effect.Completed
import Spacenet.Effect.Accessible
import Spacenet.Effect.History
import Spacenet.Effect.Interrupted
import Spacenet.Correctness.Atomicity
import Spacenet.Correctness.BlockRows
import Spacenet.Correctness.Mirror
import Spacenet.Correctness.FirstRun
import Spacenet.Correctness.Trust
import Spacenet.Correctness.Recovery
import Spacenet.Correctness.Skipping
import Spacenet.Correctness.Interruption
import Spacenet.Correctness.Vanishing
import Spacenet.Correctness.Noticing
import Spacenet.Cdc512.Groups
import Spacenet.Correctness.Chunking
import Spacenet.Correctness.Collisions
import Spacenet.Correctness.Mixing
import Spacenet.Correctness.Splitting
import Spacenet.Correctness.Naming
import Spacenet.Correctness.Inaccessible
import Spacenet.Correctness.Integrity
import Spacenet.Effect.Again
import Spacenet.Sqlite.Numbering
import Spacenet.Correctness.Unchanged
import Spacenet.Observation
import Spacenet.Preorder
import Spacenet.Correctness.Termination
import Spacenet.Correctness.ShortText
import Spacenet.Cdc512.DigestText
import Spacenet.Correctness.LongText
import Spacenet.Correctness.Timestamps
import Spacenet.Correctness.Directories
import Spacenet.Correctness.Seeding
import Spacenet.Correctness.Seeds
import Spacenet.Correctness.Batches
import Spacenet.Library.Occurrences
import Spacenet.StdExt
import Spacenet.Correctness.Replacing
import Spacenet.Path2rel
import Spacenet.Correctness.Normalising
import Spacenet.Correctness.Copying
import Spacenet.Correctness.Conversions
import Spacenet.Correctness.Preparing
import Spacenet.Correctness.Scripts
import Spacenet.Correctness.Lives
import Spacenet.Correctness.Refreshing
import Spacenet.Correctness.Tracking
import Spacenet.Correctness.Streams
import Spacenet.Correctness.Running
import Spacenet.Correctness.TempNames
import Spacenet.Correctness.Reusing
