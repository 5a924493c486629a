import Redbase.Lib.Decimal
import Redbase.Index.File
import Redbase.Index.Theorems
import Redbase.Files.Lemmas.Manager
import Redbase.Lib.SortedMap
import Redbase.Record.Theorems
import Redbase.Record.Lemmas.Overflow
import Redbase.Table.Theorems
import Redbase.Page.Theorems
import Redbase.Page.Occupancy
import Redbase.Page.Lemmas.Recycled
import Redbase.Page.Lemmas.Links
import Redbase.Buffer.Lemmas.Run
import Redbase.Buffer.Theorems
import Redbase.Buffer.Lemmas.Rejected
import Redbase.Buffer.WorkingSet
import Redbase.Page.Lemmas.Threaded
import Redbase.Query.Engine
import Redbase.Query.Refinement
import Redbase.Query.RejectedWrites
import Redbase.Query.Interrupted
import Redbase.Record.Rejected
import Redbase.Record.PartialMap
import Redbase.Record.Pool
import Redbase.Query.Rejected
import Redbase.Database.Theorems
import Redbase.Database.Reading
import Redbase.Query.Progress
