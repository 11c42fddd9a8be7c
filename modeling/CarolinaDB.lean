import CarolinaDB.RaftLogs
import CarolinaDB.RaftVotes
import CarolinaDB.RaftCompaction
import CarolinaDB.RaftFiles
import CarolinaDB.BTreeReclaim
import CarolinaDB.BufferPoolRuns
import CarolinaDB.SlottedPage
import CarolinaDB.JournalReclaim
import CarolinaDB.ManifestSlots
import CarolinaDB.StoreScans
import CarolinaDB.StoreAdmission
import CarolinaDB.CatalogImage
import CarolinaDB.CatalogUpdates
import CarolinaDB.KeyOrder
import CarolinaDB.KeyRanges
import CarolinaDB.ValueStrict
import CarolinaDB.StateCanon
import CarolinaDB.DecimalText
import CarolinaDB.Negotiation
import CarolinaDB.FrameReader
import CarolinaDB.ArtifactCheck
import CarolinaDB.HistoryCompleteness
import CarolinaDB.Minimize
import CarolinaDB.Fm2
import CarolinaDB.Fm3
