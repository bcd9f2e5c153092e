import Wacs.OrderBytes
import Wacs.OrderedCursor
import Wacs.OrderedTxn
import Wacs.DblogScan
import Wacs.DblogEngine
import Wacs.DblogQuiet
import Wacs.StoreRecords
import Wacs.StoreScans
import Wacs.StoreRuns
import Wacs.LogTables
import Wacs.LogExact
import Wacs.LogPadding
import Wacs.FaultPutLog
import Wacs.FaultImport
import Wacs.ProbeListing
import Wacs.NoteTable
import Wacs.LastProbe
import Wacs.NoteFirst
import Wacs.TextNumeral
import Wacs.TextScan
import Wacs.DumpDate
import Wacs.DumpMac
import Wacs.DumpLine
import Wacs.DumpLoad
import Wacs.FaultHandles
import Wacs.CommandRemove
import Wacs.PgEngine
import Wacs.PgLog
import Wacs.PgReadLog
import Wacs.PgWriter
import Wacs.OrderedPages
import Wacs.PagedListing
import Wacs.PgImport
import Wacs.LogRanges
import Wacs.OrderedChecked
import Wacs.ScanBounds
import Wacs.SendLogEntry
import Wacs.NoteRemoval
import Wacs.ScanStatus
import Wacs.CopyLengths
import Wacs.NotePut
import Wacs.LoadLines
import Wacs.Histogram
import Wacs.HistogramTotal
import Wacs.TextJson
import Wacs.JsonAnswers
import Wacs.HttpCounts
import Wacs.LogKeyOrder
import Wacs.DateReadBack
import Wacs.MacContract
import Wacs.SendFaults
import Wacs.SendTest
import Wacs.LmdbWriter
import Wacs.OrderedPrefix
import Wacs.VendorLookup
import Wacs.HttpFiles
import Wacs.HttpRequest
import Wacs.CollectorRuns
import Wacs.ScanFaults
import Wacs.LossyBus
import Wacs.AccessPoints
import Wacs.LocalActions
import Wacs.AddressIsolation
import Wacs.HttpScans
import Wacs.HttpPages
import Wacs.WacscMain
import Wacs.WacscSession
import Wacs.WacscPrints
import Wacs.BackEnds
import Wacs.FrontEnds
import Wacs.HttpConnections
import Wacs.SocketSession
import Wacs.OracleKills
import Wacs.KilledCalls
import Wacs.CollectorLives
import Wacs.OrderedInterrupts
import Wacs.InterruptedCommands
