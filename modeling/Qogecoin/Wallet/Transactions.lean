import Qogecoin.Coins.Program
import Qogecoin.Library.Worklist
import Qogecoin.Primitives.Block

/-! The transactions of a `CWallet` and the states they take as blocks and mempool notifications
arrive. Heights are unbounded integers. -/
namespace Qogecoin.Wallet

open Coins

inductive TxState where
  | confirmed (blockHash : Uint256) (height : Int) (index : Int)
  | inMempool
  | conflicted (blockHash : Uint256) (height : Int)
  | inactive (abandoned : Bool)
  | unrecognized (blockHash : Uint256) (index : Int)
deriving DecidableEq, Repr

namespace TxState

def index : TxState → Nat
  | confirmed .. => 0
  | inMempool => 1
  | conflicted .. => 2
  | inactive .. => 3
  | unrecognized .. => 4

def serializedBlockHash : TxState → Uint256
  | inactive abandoned => if abandoned then .uint256S 1 else .null
  | inMempool => .null
  | confirmed blockHash _ _ => blockHash
  | conflicted blockHash _ => blockHash
  | unrecognized blockHash _ => blockHash

def serializedIndex : TxState → Int
  | inactive abandoned => if abandoned then -1 else 0
  | inMempool => 0
  | confirmed _ _ index => index
  | conflicted .. => -1
  | unrecognized _ index => index

end TxState

structure CWalletTx where
  tx : CTransaction
  state : TxState
deriving DecidableEq, Repr

/-- The change `AddToWallet` makes to a transaction it finds: its state, and the witness when only
a stripped version was stored. -/
def CWalletTx.sync (wtx : CWalletTx) (tx : CTransaction) (state : TxState) : CWalletTx where
  tx := if tx.hasWitness && !wtx.tx.hasWitness then tx else wtx.tx
  state := if state.index ≠ wtx.state.index then state else wtx.state

inductive MemPoolRemovalReason where
  | expiry
  | sizelimit
  | reorg
  | block
  | conflict
  | replaced
deriving DecidableEq, Repr

/-- `mapWallet` is a map keyed by transaction hash and `mapTxSpends` a multimap from outpoints to
the hashes of the wallet transactions that spend them. -/
structure CWallet where
  mapWallet : List CWalletTx
  mapTxSpends : List (COutPoint × Uint256)
  lastBlockProcessedHeight : Int
deriving DecidableEq, Repr

/-- What the wallet asks its chain and its keys at the time of a notification: whether a hash is
in the mempool, and whether a transaction is its own (`IsMine(tx) || IsFromMe(tx)`). -/
structure Surroundings where
  isInMempool : Uint256 → Bool
  involvesMe : CWallet → CTransaction → Bool

def spends (tx : CTransaction) : List COutPoint :=
  if tx.isCoinBase then [] else tx.vin.map CTxIn.prevout

namespace CWallet

def getTxDepthInMainChain (wallet : CWallet) (wtx : CWalletTx) : Int :=
  match wtx.state with
  | .confirmed _ height _ => wallet.lastBlockProcessedHeight - height + 1
  | .conflicted _ height => -1 * (wallet.lastBlockProcessedHeight - height + 1)
  | _ => 0

variable [Crypto] (wallet : CWallet)

def find (wallet : CWallet) (hash : Uint256) : Option CWalletTx :=
  wallet.mapWallet.find? fun wtx => wtx.tx.getHash == hash

def update (hash : Uint256) (change : CWalletTx → CWalletTx) : CWallet :=
  { wallet with
    mapWallet := wallet.mapWallet.map fun wtx => if wtx.tx.getHash = hash then change wtx else wtx }

def setState (hash : Uint256) (state : TxState) : CWallet :=
  wallet.update hash fun wtx => { wtx with state }

def spenders (now : Uint256) : List Uint256 :=
  (wallet.mapTxSpends.filter fun entry => entry.1.hash == now).map Prod.snd

def markOne (hashBlock : Uint256) (conflictingHeight conflictconfirms : Int) (wallet : CWallet)
    (now : Uint256) : Except Crash (CWallet × List Uint256) :=
  match wallet.find now with
  | none => .error .assertion
  | some wtx =>
    if conflictconfirms < wallet.getTxDepthInMainChain wtx then
      .ok (wallet.setState now (.conflicted hashBlock conflictingHeight), wallet.spenders now)
    else .ok (wallet, [])

def markConflicted (hashBlock : Uint256) (conflictingHeight : Int)
    (hashTx : Uint256) : Except Crash CWallet :=
  let conflictconfirms := (wallet.lastBlockProcessedHeight - conflictingHeight + 1) * -1
  if conflictconfirms ≥ 0 then .ok wallet
  else
    -- no transaction is taken from `todo` twice
    Worklist.loop (markOne hashBlock conflictingHeight conflictconfirms) wallet.mapWallet.length
      [hashTx] [] wallet

variable (tx : CTransaction)

def addToSpends : CWallet :=
  { wallet with
    mapTxSpends := wallet.mapTxSpends ++ (spends tx).map fun outpoint => (outpoint, tx.getHash) }

def addToWallet (state : TxState) : Except Crash CWallet :=
  match wallet.find tx.getHash with
  | none => .ok (CWallet.addToSpends { wallet with mapWallet := wallet.mapWallet ++ [⟨tx, state⟩] } tx)
  | some wtx =>
    if state.index = wtx.state.index ∧ ¬ (wtx.state.serializedIndex = state.serializedIndex ∧
        wtx.state.serializedBlockHash = state.serializedBlockHash) then .error .assertion
    else
      .ok (wallet.update tx.getHash fun wtx => wtx.sync tx state)

def markSpentBy (hashBlock : Uint256) (height : Int) : Except Crash CWallet :=
  (tx.vin.flatMap fun txin =>
    ((wallet.mapTxSpends.filter fun entry => entry.1 == txin.prevout).map Prod.snd).filter
      (· ≠ tx.getHash)).foldlM (fun wallet hashTx => wallet.markConflicted hashBlock height hashTx)
    wallet

variable (around : Surroundings) (tx : CTransaction)

def syncTransaction (state : TxState) : Except Crash CWallet := do
  let wallet ← match state with
    | .confirmed hashBlock height _ => wallet.markSpentBy tx hashBlock height
    | _ => .ok wallet
  if (wallet.find tx.getHash).isSome || around.involvesMe wallet tx then
    wallet.addToWallet tx state
  else .ok wallet

def refreshMempoolStatus (hash : Uint256) : CWallet :=
  wallet.update hash fun wtx =>
    if around.isInMempool hash then { wtx with state := .inMempool }
    else if wtx.state = .inMempool then { wtx with state := .inactive false } else wtx

def transactionAddedToMempool : Except Crash CWallet := do
  let wallet ← wallet.syncTransaction around tx .inMempool
  .ok (wallet.refreshMempoolStatus around tx.getHash)

def transactionRemovedFromMempool (reason : MemPoolRemovalReason) : Except Crash CWallet :=
  let wallet := wallet.refreshMempoolStatus around tx.getHash
  if reason = .conflict then wallet.syncTransaction around tx (.inactive false) else .ok wallet

def connectTransactions (around : Surroundings) (hashBlock : Uint256) (height : Int) :
    Nat → List CTransaction → CWallet → Except Crash CWallet
  | _, [], wallet => .ok wallet
  | index, tx :: vtx, wallet => do
    let wallet ← wallet.syncTransaction around tx (.confirmed hashBlock height index)
    let wallet ← wallet.transactionRemovedFromMempool around tx .block
    connectTransactions around hashBlock height (index + 1) vtx wallet

def blockConnected (block : CBlock) (height : Int) : Except Crash CWallet :=
  connectTransactions around block.getHash height 0 block.vtx
    { wallet with lastBlockProcessedHeight := height }

def blockDisconnected (block : CBlock) (height : Int) : Except Crash CWallet :=
  block.vtx.foldlM (fun wallet tx => wallet.syncTransaction around tx (.inactive false))
    { wallet with lastBlockProcessedHeight := height - 1 }

def commitTransaction : Except Crash CWallet :=
  wallet.addToWallet tx (.inactive false)

end CWallet

end Qogecoin.Wallet
