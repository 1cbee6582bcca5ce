import Qogecoin.Consensus.Chain
import Qogecoin.Script.Script

/-! `Consensus::Params`, the parameters of the shipped networks, and which rules are in force at a
block: buried deployments go by height, the others by the versionbits state machine, here without
its cache. -/
namespace Qogecoin.Consensus

open Script Uint256

inductive BuriedDeployment where
  | heightInCb
  | cltv
  | derSig
  | csv
  | segwit
deriving DecidableEq, Repr

inductive DeploymentPos where
  | testDummy
  | taproot
  | p2qpk
deriving DecidableEq, Repr

structure BIP9Deployment where
  bit : Nat
  nStartTime : Int
  nTimeout : Int
  minActivationHeight : Int
deriving DecidableEq, Repr

def BIP9Deployment.noTimeout : Int := 2 ^ 63 - 1
def BIP9Deployment.alwaysActive : Int := -1
def BIP9Deployment.neverActive : Int := -2

structure Params where
  hashGenesisBlock : Uint256
  nSubsidyHalvingInterval : Nat
  scriptFlagExceptions : List (Uint256 × Flags)
  bip34Height : Int
  bip34Hash : Uint256
  bip65Height : Int
  bip66Height : Int
  csvHeight : Int
  segwitHeight : Int
  nRuleChangeActivationThreshold : Nat
  nMinerConfirmationWindow : Nat
  vDeployments : DeploymentPos → BIP9Deployment
  powLimit : Uint256
  fPowNoRetargeting : Bool
  nPowTargetSpacing : Int
  signetBlocks : Bool

variable (params : Params)

def Params.deploymentHeight : BuriedDeployment → Int
  | .heightInCb => params.bip34Height
  | .cltv => params.bip65Height
  | .derSig => params.bip66Height
  | .csv => params.csvHeight
  | .segwit => params.segwitHeight

def BIP9Deployment.never (bit : Nat) (nTimeout : Int) : BIP9Deployment :=
  ⟨bit, neverActive, nTimeout, 0⟩

def BIP9Deployment.always (bit : Nat) : BIP9Deployment := ⟨bit, alwaysActive, noTimeout, 0⟩

def mainParams : Params where
  hashGenesisBlock :=
    uint256S 0x78cf9e38dad7e61400f3a3e4e987efa7c90c09f69d9be7ce95e504bfa447aadc
  nSubsidyHalvingInterval := 500000
  -- the second `emplace` finds the key taken and keeps the first value
  scriptFlagExceptions := [(uint256S 0x00, ∅)]
  bip34Height := 0
  bip34Hash := uint256S 0x00
  bip65Height := 0
  bip66Height := 0
  csvHeight := 0
  segwitHeight := 400000
  nRuleChangeActivationThreshold := 6048
  nMinerConfirmationWindow := 8064
  vDeployments
    | .testDummy => .never 28 BIP9Deployment.noTimeout
    | .taproot => .always 2
    | .p2qpk => ⟨3, 1786284720, 1794060720, 0⟩
  powLimit := uint256S 0x000fffffffffffffffffffffffffffffffffffffffffffffffffffffffffffff
  fPowNoRetargeting := false
  nPowTargetSpacing := 1 * 60
  signetBlocks := false

def testNetParams : Params where
  hashGenesisBlock :=
    uint256S 0x8e7f8c6096865a08773b52fd776a0e283d9037ff2b50b20a04f6a0feb01c68d9
  nSubsidyHalvingInterval := 500000
  scriptFlagExceptions :=
    [(uint256S 0x00000000dd30457c001f4095d208cc1296b0eed002427aa599874af7a432b105, ∅)]
  bip34Height := 0
  bip34Hash := uint256S 0x0000000023b3a96d3484e5abb3755c413e7d41500f8e2a5c3f0dd01299cd8ef8
  bip65Height := 0
  bip66Height := 0
  csvHeight := 0
  segwitHeight := 0
  nRuleChangeActivationThreshold := 1512
  nMinerConfirmationWindow := 2016
  vDeployments
    | .testDummy => .never 28 BIP9Deployment.noTimeout
    -- never assigned on this network: the member initialisers stay
    | .taproot => .never 28 BIP9Deployment.neverActive
    | .p2qpk => .always 3
  powLimit := uint256S 0x000fffffffffffffffffffffffffffffffffffffffffffffffffffffffffffff
  fPowNoRetargeting := false
  nPowTargetSpacing := 1 * 60
  signetBlocks := false

/-- Signet's genesis hash is computed and nowhere asserted, so it stays a parameter. -/
def sigNetParams (hashGenesisBlock : Uint256) : Params where
  hashGenesisBlock
  nSubsidyHalvingInterval := 500000
  scriptFlagExceptions := []
  bip34Height := 1
  bip34Hash := null
  bip65Height := 1
  bip66Height := 1
  csvHeight := 1
  segwitHeight := 1
  nRuleChangeActivationThreshold := 1815
  nMinerConfirmationWindow := 2016
  vDeployments
    | .testDummy => .never 28 BIP9Deployment.noTimeout
    | .taproot => .always 2
    | .p2qpk => .never 3 BIP9Deployment.noTimeout
  powLimit := uint256S 0x00000377ae000000000000000000000000000000000000000000000000000000
  fPowNoRetargeting := false
  nPowTargetSpacing := 1 * 60
  signetBlocks := true

/-- Regtest before its command-line overrides. -/
def regTestParams : Params where
  hashGenesisBlock :=
    uint256S 0x7a69b7bb0c8f5ced03c9e64b770c30b52582d072cbe506339b8d5331b014d727
  nSubsidyHalvingInterval := 150
  scriptFlagExceptions := []
  bip34Height := 1
  bip34Hash := null
  bip65Height := 1
  bip66Height := 1
  csvHeight := 1
  segwitHeight := 0
  nRuleChangeActivationThreshold := 108
  nMinerConfirmationWindow := 144
  vDeployments
    | .testDummy => ⟨28, 0, BIP9Deployment.noTimeout, 0⟩
    | .taproot => .always 2
    | .p2qpk => .always 3
  powLimit := uint256S 0x7fffffffffffffffffffffffffffffffffffffffffffffffffffffffffffffff
  fPowNoRetargeting := true
  nPowTargetSpacing := 1 * 60
  signetBlocks := false

inductive ThresholdState where
  | defined
  | started
  | lockedIn
  | active
  | failed
deriving DecidableEq, Repr

def versionBitsTopBits : UInt32 := 0x20000000
def versionBitsTopMask : UInt32 := 0xe0000000

variable (deployment : BIP9Deployment)

def condition (pindex : CBlockIndex) : Bool :=
  let nVersion := pindex.nVersion.toUInt32
  nVersion &&& versionBitsTopMask == versionBitsTopBits
    && nVersion &&& (1 <<< UInt32.ofNat deployment.bit) != 0

def nextState (pindexPrev : Chain) : ThresholdState → ThresholdState
  | .defined =>
    if pindexPrev.getMedianTimePast ≥ deployment.nStartTime then .started else .defined
  | .started =>
    let count := (pindexPrev.take params.nMinerConfirmationWindow).countP (condition deployment)
    if count ≥ params.nRuleChangeActivationThreshold then .lockedIn
    else if pindexPrev.getMedianTimePast ≥ deployment.nTimeout then .failed
    else .started
  | .lockedIn =>
    if pindexPrev.nHeight + 1 ≥ deployment.minActivationHeight then .active else .lockedIn
  | .failed => .failed
  | .active => .active

/-- The walk over the last blocks of the periods: back until the state is known, then forward.
A period of zero has no state. -/
def stateAtPeriod (params : Params) (deployment : BIP9Deployment) (pindexPrev : Chain) :
    ThresholdState :=
  if _walk : pindexPrev = [] ∨ params.nMinerConfirmationWindow = 0 then .defined
  else if pindexPrev.getMedianTimePast < deployment.nStartTime then .defined
  else nextState params deployment pindexPrev
    (stateAtPeriod params deployment (pindexPrev.drop params.nMinerConfirmationWindow))
termination_by pindexPrev.length
decreasing_by
  rw [not_or] at _walk
  have longer := List.length_pos_of_ne_nil _walk.1
  rw [List.length_drop]
  omega

def getStateFor (pindexPrev : Chain) : ThresholdState :=
  if deployment.nStartTime = BIP9Deployment.alwaysActive then .active
  else if deployment.nStartTime = BIP9Deployment.neverActive then .failed
  else
    let nPeriod : Int := params.nMinerConfirmationWindow
    stateAtPeriod params deployment
      (pindexPrev.getAncestor (pindexPrev.nHeight - (pindexPrev.nHeight + 1) % nPeriod))

/-- `DeploymentActiveAfter` for a buried deployment. The block after no block is the genesis
block, at the height after -1. -/
def Params.buriedActiveAfter (pindexPrev : Chain) (dep : BuriedDeployment) : Bool :=
  pindexPrev.nHeight + 1 ≥ params.deploymentHeight dep

def Params.buriedActiveAt (index : Chain) (dep : BuriedDeployment) : Bool :=
  index.nHeight ≥ params.deploymentHeight dep

def Params.activeAfter (pindexPrev : Chain) (dep : DeploymentPos) : Bool :=
  getStateFor params (params.vDeployments dep) pindexPrev == .active

def Params.activeAt (index : Chain) (dep : DeploymentPos) : Bool :=
  params.activeAfter index.pprev dep

def flagIf (active : Bool) (flag : Flag) : Flags := if active then { flag } else ∅

def getBlockScriptFlags (hash : Uint256) (blockIndex : Chain) : Flags :=
  let flags : Flags := (params.scriptFlagExceptions.lookup hash).getD { .p2sh, .witness, .taproot }
  flags
    ∪ flagIf (params.buriedActiveAt blockIndex .derSig) .derSig
    ∪ flagIf (params.buriedActiveAt blockIndex .cltv) .checkLockTimeVerify
    ∪ flagIf (params.buriedActiveAt blockIndex .csv) .checkSequenceVerify
    ∪ flagIf (params.buriedActiveAt blockIndex .segwit) .nullDummy
    ∪ flagIf (params.activeAt blockIndex .p2qpk) .p2qpk

end Qogecoin.Consensus
