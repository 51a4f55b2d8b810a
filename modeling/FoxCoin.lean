import FoxCoin.Lib.Checked
import FoxCoin.Lib.Overlay
import FoxCoin.DataModel
import FoxCoin.BigNum
import FoxCoin.Script
import FoxCoin.Transaction
import FoxCoin.Block
import FoxCoin.BlockFiles
import FoxCoin.TxIndex
import FoxCoin.Checkpoints
import FoxCoin.ConnectInputs
import FoxCoin.ConnectBlock
import FoxCoin.IndexStep
import FoxCoin.ConnectSpec
import FoxCoin.Disconnect
import FoxCoin.Lib.Ledger
import FoxCoin.CoinLedger
import FoxCoin.Chain
import FoxCoin.SpendOrder
import FoxCoin.Supply
import FoxCoin.Mempool
import FoxCoin.Wallet
import FoxCoin.Difficulty
import FoxCoin.DifficultyBounds
import FoxCoin.NodeState
import FoxCoin.SetBestChain
import FoxCoin.ProcessBlock
import FoxCoin.Lib.Runs
import FoxCoin.Lib.Wire
import FoxCoin.Lib.Reader
import FoxCoin.Serialize
import FoxCoin.SignatureHash
import FoxCoin.Lib.Counted
import FoxCoin.StackOps
import FoxCoin.EvalScript
import FoxCoin.EvalBounds
import FoxCoin.SigOpBound
import FoxCoin.P2SHSigOps
import FoxCoin.Solver
import FoxCoin.EvalRuns
import FoxCoin.KeyStore
import FoxCoin.SpendMine
import FoxCoin.BlockTree
import FoxCoin.SwitchSpec
import FoxCoin.TipInvariant
import FoxCoin.NodeRuns
import FoxCoin.WalletRollback
import FoxCoin.PoolAccept
import FoxCoin.Lib.BackIndex
import FoxCoin.PoolIndex
import FoxCoin.OrphanTx
import FoxCoin.OrphanIndex
import FoxCoin.OrphanResolution
import FoxCoin.SpentMarks
import FoxCoin.MainChain
import FoxCoin.PoolChain
import FoxCoin.Locator
import FoxCoin.KeyPool
import FoxCoin.KeyPoolInvariant
import FoxCoin.KeyPoolRuns
import FoxCoin.AddrMan
import FoxCoin.Lib.Buckets
import FoxCoin.AddrIndex
import FoxCoin.AddrTables
import FoxCoin.AddrTried
import FoxCoin.AddrRuns
import FoxCoin.AddrFile
import FoxCoin.AddrRestore
import FoxCoin.AddrRoundTrip
import FoxCoin.Lib.Incremental
import FoxCoin.NetMessage
import FoxCoin.NetFraming
import FoxCoin.Lib.PairTree
import FoxCoin.MerkleTree
import FoxCoin.Unserialize
import FoxCoin.BlockBytes
import FoxCoin.BlockImport
import FoxCoin.Key
import FoxCoin.CryptoKeyStore
import FoxCoin.KeyForms
import FoxCoin.CombineSignatures
import FoxCoin.SignRaw
import FoxCoin.SignRawCalls
import FoxCoin.LoadIndex
import FoxCoin.IndexRecords
import FoxCoin.RelayMemory
import FoxCoin.LocalHost
import FoxCoin.Alerts
import FoxCoin.SignatureCache
import FoxCoin.AskFor
import FoxCoin.GetWork
import FoxCoin.GetWorkCache
import FoxCoin.GetWorkHeader
import FoxCoin.WalletEncryption
import FoxCoin.ListSinceBlock
import FoxCoin.Accounts
import FoxCoin.Balance
import FoxCoin.MinWork
import FoxCoin.WalletCaches
import FoxCoin.BestChainCheck
import FoxCoin.MinFee
import FoxCoin.MinerTime
import FoxCoin.AddrEvict
import FoxCoin.CoinSelection
import FoxCoin.SupportingTransactions
import FoxCoin.AddressTable
import FoxCoin.ValueIn
import FoxCoin.CreateTransaction
import FoxCoin.Reaccept
import FoxCoin.Base58
import FoxCoin.Secret
import FoxCoin.Base64
import FoxCoin.Decimal
import FoxCoin.NetAddr
import FoxCoin.NetNames
import FoxCoin.HostPort
import FoxCoin.Money
import FoxCoin.TimeData
import FoxCoin.Units
import FoxCoin.Volume
import FoxCoin.UnlockWallet
import FoxCoin.Hex
import FoxCoin.TxFees
import FoxCoin.Acres
import FoxCoin.Decompose
import FoxCoin.Received
import FoxCoin.AccountingEntries
import FoxCoin.ListTransactions
import FoxCoin.WalletTxFile
import FoxCoin.CompactSignature
import FoxCoin.CombineMultisig
import FoxCoin.WildcardMatch
import FoxCoin.MruSet
import FoxCoin.PeerBlockCounts
import FoxCoin.FindAndDelete
import FoxCoin.SolverForms
import FoxCoin.ForkSearch
import FoxCoin.BigNumMpi
import FoxCoin.CompactMpi
import FoxCoin.UintWords
import FoxCoin.DataStream
import FoxCoin.Lib.Dependencies
import FoxCoin.BlockAssembly
import FoxCoin.AssemblyLedger
import FoxCoin.InvRelay
import FoxCoin.BlockSync
import FoxCoin.Lib.Phrase
import FoxCoin.JsonReader
import FoxCoin.JsonWriter
import FoxCoin.Lib.KeyDerivation
import FoxCoin.Lib.MemoryHard
import FoxCoin.Scrypt
import FoxCoin.Lib.InStep
import FoxCoin.Handshake
