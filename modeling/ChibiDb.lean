import ChibiDb.Theory.SnapshotOrder
import ChibiDb.Theory.FlushDurable
import ChibiDb.Theory.RollbackExact
import ChibiDb.Theory.TruncationRace
import ChibiDb.Theory.ReplayOrder
import ChibiDb.Theory.CommitErrors
import ChibiDb.Theory.CatalogAtomic
import ChibiDb.Theory.PinRace
import ChibiDb.Index.Build
import ChibiDb.Theory.DeadlockCheck
import ChibiDb.Theory.LobIds
import ChibiDb.Sql.StringLiterals
import ChibiDb.Lsm.Crashes
import ChibiDb.Net.Access
import ChibiDb.Net.TrxHome
import ChibiDb.Theory.ClogCalls
import ChibiDb.Theory.ConflictGraph
import ChibiDb.Theory.PlanSpec
import ChibiDb.Net.Wire
import ChibiDb.Net.Registry
import ChibiDb.Core.CatalogFile
import ChibiDb.Theory.Replacement
import ChibiDb.Theory.EvictionFaults
import ChibiDb.Theory.StageFaults
import ChibiDb.Sql.InLists
import ChibiDb.Sql.PredicateMask
import ChibiDb.Net.Execute
import ChibiDb.Net.Framing
import ChibiDb.Theory.FreshPages
import ChibiDb.Theory.SharedManager
