import Qogecoin.Script.SighashBinding
import Qogecoin.Validation.PolicyChecks
import Qogecoin.Validation.TimeLocks
import Qogecoin.Index.CoinStatsRestart
import Qogecoin.Net.TrackerRuns
import Qogecoin.Index.GCSFilter
import Qogecoin.Net.MerkleProofs
import Qogecoin.Wallet.Notifications
import Qogecoin.Net.AddrManRuns
import Qogecoin.Consensus.MerkleUnique
import Qogecoin.Validation.SpendCoin
import Qogecoin.Script.FailureErrors
import Qogecoin.Script.SignatureEncoding
import Qogecoin.Script.MultiSig
import Qogecoin.Node.BlockTree
import Qogecoin.Validation.Ancestors
import Qogecoin.Pow.Targets
import Qogecoin.Script.Pushes
import Qogecoin.Wallet.Knapsack
import Qogecoin.Net.NetAddress
import Qogecoin.Wallet.AddressGroupings
import Qogecoin.Script.Conditions
import Qogecoin.Node.BlockFiles
