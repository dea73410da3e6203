import Glaciem.Pool.Credits
import Glaciem.Pool.Atomicity
import Glaciem.Pool.PayoutLaws
import Glaciem.Pool.Dataset
import Glaciem.Chain.Operations
import Glaciem.Chain.Emission
import Glaciem.Chain.Finality
import Glaciem.Chain.Consensus
import Glaciem.Chain.ForkTable
import Glaciem.Chain.LonghashTable
import Glaciem.Chain.FeeEstimate
import Glaciem.Protocol.BlockQueue
import Glaciem.Wallet.Unlock
import Glaciem.Block.Format
import Glaciem.Wallet.Reorg
import Glaciem.Multisig.Threshold
import Glaciem.Mempool.PoolInfo
import Glaciem.Mempool.BlockTxs
import Glaciem.Faucet.Queue
import Glaciem.Rpc.Worker
import Glaciem.Db.Pruning
import Glaciem.Rpc.DistributionCache
import Glaciem.Wallet.Recovery
import Glaciem.Address.Parse
import Glaciem.Chain.CheckHash
import Glaciem.Chain.SyncSplit
import Glaciem.Pool.Rounds
import Glaciem.Pool.Arrivals
import Glaciem.Pool.Tallies
import Glaciem.Pow.Lattice
import Glaciem.Common.Combinatorics
