import Nightfrost.ByteOrder
import Nightfrost.Tables
import Nightfrost.Partitions
import Nightfrost.ExceptFold
import Nightfrost.Domain
import Nightfrost.Schema
import Nightfrost.WriteBlock
import Nightfrost.Staging
import Nightfrost.EntityLog
import Nightfrost.BlockStep
import Nightfrost.BlockRun
import Nightfrost.DenseIds
import Nightfrost.CoinHistory
import Nightfrost.UtxoSet
import Nightfrost.BalanceRange
import Nightfrost.Registrations
import Nightfrost.Mappings
import Nightfrost.ContractLog
import Nightfrost.MovingStore
import Nightfrost.Api
import Nightfrost.Pages
import Nightfrost.PagedWalks
import Nightfrost.Timeline
import Nightfrost.ShieldedSync
import Nightfrost.ServedStore
import Nightfrost.Tiling
import Nightfrost.SyncTiles
import Nightfrost.SyncAnswer
import Nightfrost.SyncDelivery
import Nightfrost.DustSync
import Nightfrost.Base64
import Nightfrost.Cursors
import Nightfrost.Listings
import Nightfrost.PrefixRanges
import Nightfrost.Endpoints
import Nightfrost.CursorTokens
import Nightfrost.Lookups
import Nightfrost.TxLookups
import Nightfrost.HexText
import Nightfrost.BlockLookups
import Nightfrost.Scripts
import Nightfrost.Journal
import Nightfrost.Offline
import Nightfrost.EventBackfill
import Nightfrost.LiveCorrelation
import Nightfrost.SidecarBackfill
import Nightfrost.RoundRobin
import Nightfrost.DustBackfill
import Nightfrost.DustEvents
import Nightfrost.DtimeUpdates
import Nightfrost.IndexBlock
import Nightfrost.ContractStates
import Nightfrost.ContractMigration
import Nightfrost.ContractLookups
import Nightfrost.WalletEvents
import Nightfrost.WalletFeed
import Nightfrost.Interleaving
import Nightfrost.RelevanceScan
import Nightfrost.ScanCalls
import Nightfrost.FinalizedBlocks
import Nightfrost.BlockAuthors
import Nightfrost.BlockStream
import Nightfrost.FileTrees
import Nightfrost.Snapshot
import Nightfrost.KeyedListings
import Nightfrost.CurrentState
import Nightfrost.Bech32
import Nightfrost.HexForms
import Nightfrost.LatestEntry
import Nightfrost.DustStatus
import Nightfrost.LedgerDb
import Nightfrost.Worklist
import Nightfrost.RootRepair
import Nightfrost.LedgerArena
import Nightfrost.Pipeline
import Nightfrost.Restart
import Nightfrost.PrefixCodes
import Nightfrost.JournalFormat
import Nightfrost.JournalReader
import Nightfrost.Versions
import Nightfrost.FjallKeyspace
import Nightfrost.CrashSafety
import Nightfrost.LedgerEvents
import Nightfrost.LedgerFacade
import Nightfrost.CoinLedger
import Nightfrost.LedgerUtxos
import Nightfrost.ValidationTime
import Nightfrost.JournalEviction
import Nightfrost.AddressBalances
import Nightfrost.TxUtxos
import Nightfrost.ServingProcess
import Nightfrost.LedgerParameters
import Nightfrost.StateMeasure
