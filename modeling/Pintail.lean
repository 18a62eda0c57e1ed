import Pintail.Api.AbandonedSlot
import Pintail.Backup.Restorable
import Pintail.Binder.PreAggregated
import Pintail.Blocks.Column
import Pintail.Blocks.Unpackers
import Pintail.Cdc.AlterShortcut
import Pintail.Cdc.ColumnChange
import Pintail.Cdc.GtidSources
import Pintail.Cdc.RowKeys
import Pintail.Cdc.Stream
import Pintail.Cdc.TypeEmbedding
import Pintail.Exec.FilterReads
import Pintail.Exec.GatheredFacts
import Pintail.Exec.SetOperation
import Pintail.Exec.SortValues
import Pintail.Probe.Judged
import Pintail.Spill.Records
import Pintail.Spill.Runs
import Pintail.Sql.Determined
import Pintail.Store.Reopened
import Pintail.Store.ValuePruning
import Pintail.Write.Exponent
import Pintail.Write.Terms
