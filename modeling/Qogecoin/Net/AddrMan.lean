import Qogecoin.Coins.Program
import Qogecoin.Library.Worklist
import Qogecoin.Primitives.Hash
import Qogecoin.Primitives.Serialize

/-! `AddrManImpl`: addresses of peers in the buckets of a new and a tried table. Times are unbounded
integers; of the counters, the one that gives out ids and those of attempts can overflow. -/
namespace Qogecoin

open Codec List

inductive Network where
  | ipv4
  | ipv6
  | onion
  | i2p
  | cjdns
  | internal
deriving DecidableEq, Repr

namespace Network

def addrSize : Network → Nat
  | ipv4 => 4
  | ipv6 => 16
  | onion => 32
  | i2p => 32
  | cjdns => 16
  | internal => 10

end Network

def ipv4InIpv6Prefix : Bytes := [0, 0, 0, 0, 0, 0, 0, 0, 0, 0, 0xff, 0xff]

def torv2InIpv6Prefix : Bytes := [0xfd, 0x87, 0xd8, 0x7e, 0xeb, 0x43]

def internalInIpv6Prefix : Bytes := [0xfd, 0x6b, 0x88, 0xc0, 0x87, 0x24]

def hasPrefix (obj pre : Bytes) : Bool := pre.isPrefixOf obj

def embedded (addr : Bytes) : Bool :=
  hasPrefix addr ipv4InIpv6Prefix || hasPrefix addr torv2InIpv6Prefix ||
    hasPrefix addr internalInIpv6Prefix

/-- The scope id is left out: it is neither compared nor serialized. -/
structure CNetAddr where
  net : Network
  addr : Bytes
  size : addr.length = net.addrSize
  proper : net = .ipv6 → embedded addr = false
deriving DecidableEq

structure CService where
  ip : CNetAddr
  port : UInt16
deriving DecidableEq

structure CAddress where
  service : CService
  nTime : UInt32
  nServices : UInt64
deriving DecidableEq

namespace CNetAddr

def none : CNetAddr := ⟨.ipv6, replicate 16 0, rfl, by decide⟩

variable (a : CNetAddr)

def isIPv4 : Bool := a.net = .ipv4
def isIPv6 : Bool := a.net = .ipv6
def isCJDNS : Bool := a.net = .cjdns
def isInternal : Bool := a.net = .internal

def byte (i : Nat) : UInt8 := a.addr.getD i 0

def isRFC1918 : Bool :=
  a.isIPv4 && (a.byte 0 == 10 || (a.byte 0 == 192 && a.byte 1 == 168) ||
    (a.byte 0 == 172 && a.byte 1 ≥ 16 && a.byte 1 ≤ 31))

def isRFC2544 : Bool :=
  a.isIPv4 && a.byte 0 == 198 && (a.byte 1 == 18 || a.byte 1 == 19)

def isRFC3927 : Bool := a.isIPv4 && hasPrefix a.addr [169, 254]

def isRFC6598 : Bool :=
  a.isIPv4 && a.byte 0 == 100 && a.byte 1 ≥ 64 && a.byte 1 ≤ 127

def isRFC5737 : Bool :=
  a.isIPv4 && (hasPrefix a.addr [192, 0, 2] || hasPrefix a.addr [198, 51, 100] ||
    hasPrefix a.addr [203, 0, 113])

def isRFC3849 : Bool := a.isIPv6 && hasPrefix a.addr [0x20, 0x01, 0x0d, 0xb8]

def isRFC4862 : Bool := a.isIPv6 && hasPrefix a.addr [0xfe, 0x80, 0, 0, 0, 0, 0, 0]

def isRFC4193 : Bool := a.isIPv6 && (a.byte 0 &&& 0xfe) == 0xfc

def isRFC4843 : Bool :=
  a.isIPv6 && hasPrefix a.addr [0x20, 0x01, 0x00] && (a.byte 3 &&& 0xf0) == 0x10

def isRFC7343 : Bool :=
  a.isIPv6 && hasPrefix a.addr [0x20, 0x01, 0x00] && (a.byte 3 &&& 0xf0) == 0x20

def isLocal : Bool :=
  (a.isIPv4 && (a.byte 0 == 127 || a.byte 0 == 0)) ||
    (a.isIPv6 && a.addr == replicate 15 0 ++ [1])

def isValid : Bool :=
  !(a.isIPv6 && a.addr == replicate 16 0) && !(a.isCJDNS && a.byte 0 != 0xfc) &&
    !a.isRFC3849 && !a.isInternal &&
    !(a.isIPv4 && (a.addr == [0, 0, 0, 0] || a.addr == [0xff, 0xff, 0xff, 0xff]))

def isRoutable : Bool :=
  a.isValid && !(a.isRFC1918 || a.isRFC2544 || a.isRFC3927 || a.isRFC4862 || a.isRFC6598 ||
    a.isRFC5737 || a.isRFC4193 || a.isRFC4843 || a.isRFC7343 || a.isLocal || a.isInternal)

def serializeV1 : Bytes :=
  match a.net with
  | .ipv6 => a.addr
  | .ipv4 => ipv4InIpv6Prefix ++ a.addr
  | .internal => internalInIpv6Prefix ++ a.addr
  | _ => replicate 16 0

def isAddrV1Compatible : Bool :=
  match a.net with
  | .ipv4 | .ipv6 | .internal => true
  | _ => false

def getAddrBytes : Bytes := if a.isAddrV1Compatible then a.serializeV1 else a.addr

end CNetAddr

def CService.getKey (s : CService) : Bytes :=
  s.ip.getAddrBytes ++ [.ofNat (s.port.toNat / 256), .ofNat (s.port.toNat % 256)]

open Coins Crypto

structure NetGroupManager where
  getGroup : CNetAddr → Bytes

structure AddrInfo where
  address : CAddress
  source : CNetAddr
  nLastTry : Int
  nLastCountAttempt : Int
  nLastSuccess : Int
  nAttempts : Nat
  nRefCount : Int
  fInTried : Bool
  nRandomPos : Int
deriving DecidableEq

namespace AddrInfo

def of (address : CAddress) (source : CNetAddr) : AddrInfo :=
  ⟨address, source, 0, 0, 0, 0, 0, false, -1⟩

def default : AddrInfo := of ⟨⟨.none, 0⟩, 100000000, 0⟩ .none

def service (info : AddrInfo) : CService := info.address.service

def isTerrible (info : AddrInfo) (nNow : Int) : Bool :=
  if info.nLastTry ≠ 0 ∧ info.nLastTry ≥ nNow - 60 then false
  else if (info.address.nTime.toNat : Int) > nNow + 10 * 60 then true
  else if info.address.nTime = 0 ∨ nNow - info.address.nTime.toNat > 30 * 24 * 60 * 60 then true
  else if info.nLastSuccess = 0 ∧ info.nAttempts ≥ 3 then true
  else nNow - info.nLastSuccess > 7 * 24 * 60 * 60 ∧ info.nAttempts ≥ 10

variable [Crypto]

def cheapHash (data : Bytes) : Nat := leNat ((hash256 data).bytes.take 8)

def getTriedBucket (groups : NetGroupManager) (nKey : Uint256) (s : CService) : Nat :=
  let hash1 := cheapHash (nKey.bytes ++ serializeBytes s.getKey)
  let hash2 := cheapHash (nKey.bytes ++ serializeBytes (groups.getGroup s.ip) ++
    leBytes 8 (hash1 % 8))
  hash2 % 256

def getNewBucket (groups : NetGroupManager) (nKey : Uint256) (s : CService) (src : CNetAddr) :
    Nat :=
  let hash1 := cheapHash (nKey.bytes ++ serializeBytes (groups.getGroup s.ip) ++
    serializeBytes (groups.getGroup src))
  let hash2 := cheapHash (nKey.bytes ++ serializeBytes (groups.getGroup src) ++
    leBytes 8 (hash1 % 64))
  hash2 % 1024

def getBucketPosition (nKey : Uint256) (fNew : Bool) (nBucket : Nat) (s : CService) : Nat :=
  cheapHash (nKey.bytes ++ [if fNew then 0x4e else 0x4b] ++ leBytes 4 nBucket ++
    serializeBytes s.getKey) % 64

end AddrInfo

/-- An empty slot of `vvTried` and `vvNew` holds -1, and so do all slots outside the tables. -/
structure AddrManImpl where
  nKey : Uint256
  nIdCount : Int
  mapInfo : AList fun _ : Int => AddrInfo
  mapAddr : CService → Option Int
  vRandom : List Int
  nTried : Int
  vvTried : Nat → Nat → Int
  nNew : Int
  vvNew : Nat → Nat → Int
  nLastGood : Int
  triedCollisions : List Int

/-- What `GetAdjustedTime` and `insecure_rand` answer, call by call. -/
structure Draws where
  clock : Nat → Int
  rand : Nat

namespace AddrManImpl

def fresh (nKey : Uint256) : AddrManImpl where
  nKey := nKey
  nIdCount := 0
  mapInfo := ∅
  mapAddr := fun _ => none
  vRandom := []
  nTried := 0
  vvTried := fun _ _ => -1
  nNew := 0
  vvNew := fun _ _ => -1
  nLastGood := 1
  triedCollisions := []

def setSlot (table : Nat → Nat → Int) (bucket pos : Nat) (id : Int) : Nat → Nat → Int :=
  fun b p => if b = bucket ∧ p = pos then id else table b p

variable (s : AddrManImpl)

def access (id : Int) : AddrInfo × AddrManImpl :=
  match s.mapInfo.lookup id with
  | some info => (info, s)
  | none => (.default, { s with mapInfo := s.mapInfo.insert id .default })

def updateInfo (id : Int) (change : AddrInfo → AddrInfo) : AddrManImpl :=
  match s.mapInfo.lookup id with
  | some info => { s with mapInfo := s.mapInfo.insert id (change info) }
  | none => s

def find (addr : CService) : Option (Int × AddrInfo) :=
  match s.mapAddr addr with
  | none => none
  | some nId => (s.mapInfo.lookup nId).map fun info => (nId, info)

def create (addr : CAddress) (addrSource : CNetAddr) : Except Crash (Int × AddrManImpl) :=
  let nId := s.nIdCount
  if nId = 2 ^ 31 - 1 then .error .signedOverflow
  else
    .ok (nId, { s with
      nIdCount := nId + 1
      mapInfo := s.mapInfo.insert nId
        { AddrInfo.of addr addrSource with nRandomPos := s.vRandom.length }
      mapAddr := Function.update s.mapAddr addr.service (some nId)
      vRandom := s.vRandom ++ [nId] })

def swapRandom (nRndPos1 nRndPos2 : Nat) : Except Crash AddrManImpl :=
  if nRndPos1 = nRndPos2 then .ok s
  else
    match s.vRandom[nRndPos1]?, s.vRandom[nRndPos2]? with
    | some nId1, some nId2 =>
      if (s.mapInfo.lookup nId1).isSome && (s.mapInfo.lookup nId2).isSome then
        let moved := (s.updateInfo nId1 fun info => { info with nRandomPos := nRndPos2 }).updateInfo
          nId2 fun info => { info with nRandomPos := nRndPos1 }
        .ok { moved with vRandom := (s.vRandom.set nRndPos1 nId2).set nRndPos2 nId1 }
      else .error .assertion
    | _, _ => .error .assertion

def toUnsigned (n : Int) : Nat := (n % 2 ^ 32).toNat

def delete (nId : Int) : Except Crash AddrManImpl :=
  match s.mapInfo.lookup nId with
  | none => .error .assertion
  | some info =>
    if info.fInTried then .error .assertion
    else if info.nRefCount ≠ 0 then .error .assertion
    else do
      let s ← s.swapRandom (toUnsigned info.nRandomPos) (toUnsigned (s.vRandom.length - 1))
      .ok { s with
        vRandom := s.vRandom.dropLast
        mapAddr := Function.update s.mapAddr info.service none
        mapInfo := s.mapInfo.erase nId
        nNew := s.nNew - 1 }

def clearNew (nUBucket nUBucketPos : Nat) : Except Crash AddrManImpl :=
  if s.vvNew nUBucket nUBucketPos ≠ -1 then
    let nIdDelete := s.vvNew nUBucket nUBucketPos
    let (infoDelete, s) := s.access nIdDelete
    if ¬ infoDelete.nRefCount > 0 then .error .assertion
    else
      let s := s.updateInfo nIdDelete fun info => { info with nRefCount := info.nRefCount - 1 }
      let s := { s with vvNew := setSlot s.vvNew nUBucket nUBucketPos (-1) }
      if infoDelete.nRefCount - 1 = 0 then s.delete nIdDelete else .ok s
  else .ok s

section Tables

variable [Crypto]

def unlinkNew (nId : Int) : Nat → Nat → AddrManImpl → AddrManImpl
  | 0, _, s => s
  | left + 1, bucket, s =>
    match s.mapInfo.lookup nId with
    | none => s
    | some info =>
      let pos := AddrInfo.getBucketPosition s.nKey true (bucket % 1024) info.service
      if s.vvNew (bucket % 1024) pos = nId then
        let s := { s with vvNew := setSlot s.vvNew (bucket % 1024) pos (-1) }
        let s := s.updateInfo nId fun info => { info with nRefCount := info.nRefCount - 1 }
        if info.nRefCount - 1 = 0 then s else unlinkNew nId left (bucket + 1) s
      else unlinkNew nId left (bucket + 1) s

variable (groups : NetGroupManager) (s : AddrManImpl)

def evict (nKBucket nKBucketPos : Nat) : Except Crash AddrManImpl :=
  let nIdEvict := s.vvTried nKBucket nKBucketPos
  match s.mapInfo.lookup nIdEvict with
  | none => .error .assertion
  | some infoOld => do
    let s := s.updateInfo nIdEvict fun info => { info with fInTried := false }
    let s := { s with
      vvTried := setSlot s.vvTried nKBucket nKBucketPos (-1)
      nTried := s.nTried - 1 }
    let nUBucket := AddrInfo.getNewBucket groups s.nKey infoOld.service infoOld.source
    let nUBucketPos := AddrInfo.getBucketPosition s.nKey true nUBucket infoOld.service
    let s ← s.clearNew nUBucket nUBucketPos
    if s.vvNew nUBucket nUBucketPos ≠ -1 then .error .assertion
    else
      let s := s.updateInfo nIdEvict fun info => { info with nRefCount := 1 }
      .ok { s with
        vvNew := setSlot s.vvNew nUBucket nUBucketPos nIdEvict
        nNew := s.nNew + 1 }

def makeTried (info : AddrInfo) (nId : Int) : Except Crash AddrManImpl := do
  let s := s.unlinkNew nId 1024 (AddrInfo.getNewBucket groups s.nKey info.service info.source)
  let s := { s with nNew := s.nNew - 1 }
  if (s.mapInfo.lookup nId).map AddrInfo.nRefCount ≠ some 0 then .error .assertion
  else
    let nKBucket := AddrInfo.getTriedBucket groups s.nKey info.service
    let nKBucketPos := AddrInfo.getBucketPosition s.nKey false nKBucket info.service
    let s ← if s.vvTried nKBucket nKBucketPos ≠ -1 then s.evict groups nKBucket nKBucketPos
      else .ok s
    if s.vvTried nKBucket nKBucketPos ≠ -1 then .error .assertion
    else
      let s := { s with
        vvTried := setSlot s.vvTried nKBucket nKBucketPos nId
        nTried := s.nTried + 1 }
      .ok (s.updateInfo nId fun info => { info with fInTried := true })

def enterNew (draws : Draws) (s : AddrManImpl) (nId : Int)
    (info : AddrInfo) (source : CNetAddr) : Except Crash (Bool × AddrManImpl) :=
  let nUBucket := AddrInfo.getNewBucket groups s.nKey info.service source
  let nUBucketPos := AddrInfo.getBucketPosition s.nKey true nUBucket info.service
  let existing := s.vvNew nUBucket nUBucketPos
  if existing = nId then .ok (false, s)
  else
    let (fInsert, s) :=
      if existing = -1 then (true, s)
      else
        let (infoExisting, s) := s.access existing
        (infoExisting.isTerrible (draws.clock 1) ||
          decide (infoExisting.nRefCount > 1 ∧ info.nRefCount = 0), s)
    if fInsert then do
      let s ← s.clearNew nUBucket nUBucketPos
      let s := s.updateInfo nId fun info => { info with nRefCount := info.nRefCount + 1 }
      .ok (true, { s with vvNew := setSlot s.vvNew nUBucket nUBucketPos nId })
    else if info.nRefCount = 0 then do
      let s ← s.delete nId
      .ok (false, s)
    else .ok (false, s)

def truncateTime (nTime : Int) : UInt32 := UInt32.ofNat (max 0 nTime).toNat

def refreshed (draws : Draws) (info : AddrInfo) (addr : CAddress) (nTimePenalty : Int) :
    AddrInfo :=
  let fCurrentlyOnline := draws.clock 0 - addr.nTime.toNat < 24 * 60 * 60
  let nUpdateInterval : Int := if fCurrentlyOnline then 60 * 60 else 24 * 60 * 60
  let nTime := if addr.nTime ≠ 0 ∧ (info.address.nTime = 0 ∨
      (info.address.nTime.toNat : Int) < addr.nTime.toNat - nUpdateInterval - nTimePenalty) then
    truncateTime (addr.nTime.toNat - nTimePenalty) else info.address.nTime
  { info with address := { info.address with
      nTime, nServices := info.address.nServices ||| addr.nServices } }

def addSingle (draws : Draws) (s : AddrManImpl) (addr : CAddress)
    (source : CNetAddr) (nTimePenalty : Int) : Except Crash (Bool × AddrManImpl) :=
  if ¬ addr.service.ip.isRoutable then .ok (false, s)
  else
    let nTimePenalty := if addr.service.ip = source then 0 else nTimePenalty
    match s.find addr.service with
    | some (nId, old) =>
      let info := refreshed draws old addr nTimePenalty
      let s := s.updateInfo nId fun info => refreshed draws info addr nTimePenalty
      if addr.nTime = 0 ∨ (info.address.nTime ≠ 0 ∧ addr.nTime ≤ info.address.nTime) then
        .ok (false, s)
      else if info.fInTried then .ok (false, s)
      else if info.nRefCount = 8 then .ok (false, s)
      else if 2 ^ info.nRefCount.toNat > 1 ∧ draws.rand % 2 ^ info.nRefCount.toNat ≠ 0 then
        .ok (false, s)
      else s.enterNew groups draws nId info source
    | none => do
      let (nId, s) ← s.create addr source
      let settle := fun info : AddrInfo => { info with address := { info.address with
        nTime := truncateTime (info.address.nTime.toNat - nTimePenalty) } }
      let s := s.updateInfo nId settle
      let s := { s with nNew := s.nNew + 1 }
      s.enterNew groups draws nId (settle (AddrInfo.of addr source)) source

variable (addr : CService)

/-- `Good_`. A failed `Assume` is an assertion that fails. -/
def good_ (testBeforeEvict : Bool) (nTime : Int) : Except Crash (Bool × AddrManImpl) :=
  let s := { s with nLastGood := nTime }
  match s.find addr with
  | none => .ok (false, s)
  | some (nId, info) =>
    let s := s.updateInfo nId fun info =>
      { info with nLastSuccess := nTime, nLastTry := nTime, nAttempts := 0 }
    if info.fInTried then .ok (false, s)
    else if ¬ info.nRefCount > 0 then .error .assertion
    else
      let triedBucket := AddrInfo.getTriedBucket groups s.nKey info.service
      let triedBucketPos := AddrInfo.getBucketPosition s.nKey false triedBucket info.service
      if testBeforeEvict && s.vvTried triedBucket triedBucketPos ≠ -1 then
        if s.triedCollisions.length < 10 then
          .ok (false, { s with triedCollisions := Worklist.insert nId s.triedCollisions })
        else .ok (false, s)
      else do
        let s ← s.makeTried groups info nId
        .ok (true, s)

def add_ (vAddr : List (CAddress × Draws))
    (source : CNetAddr) (nTimePenalty : Int) : Except Crash AddrManImpl :=
  vAddr.foldlM (fun s (addr, draws) => do
    let (_, s) ← s.addSingle groups draws addr source nTimePenalty
    .ok s) s

def attempt_ (fCountFailure : Bool) (nTime : Int) : Except Crash AddrManImpl :=
  match s.find addr with
  | none => .ok s
  | some (nId, info) =>
    if fCountFailure && info.nLastCountAttempt < s.nLastGood then
      if info.nAttempts = 2 ^ 31 - 1 then .error .signedOverflow
      else .ok (s.updateInfo nId fun info => { info with
        nLastTry := nTime, nLastCountAttempt := nTime, nAttempts := info.nAttempts + 1 })
    else .ok (s.updateInfo nId fun info => { info with nLastTry := nTime })

def connected_ (nTime : Int) : AddrManImpl :=
  match s.find addr with
  | none => s
  | some (nId, _) =>
    s.updateInfo nId fun info =>
      if nTime - info.address.nTime.toNat > 20 * 60 then
        { info with address := { info.address with nTime := UInt32.ofInt nTime } }
      else info

def setServices_ (nServices : UInt64) : AddrManImpl :=
  match s.find addr with
  | none => s
  | some (nId, _) =>
    s.updateInfo nId fun info => { info with address := { info.address with nServices } }

def resolveCollision (clock : Nat → Int) (s : AddrManImpl)
    (idNew : Int) : Except Crash (Bool × AddrManImpl) :=
  match s.mapInfo.lookup idNew with
  | none => .ok (true, s)
  | some infoNew =>
    let triedBucket := AddrInfo.getTriedBucket groups s.nKey infoNew.service
    let triedBucketPos := AddrInfo.getBucketPosition s.nKey false triedBucket infoNew.service
    if ¬ infoNew.service.ip.isValid then .ok (true, s)
    else if s.vvTried triedBucket triedBucketPos ≠ -1 then
      let (infoOld, s) := s.access (s.vvTried triedBucket triedBucketPos)
      if clock 0 - infoOld.nLastSuccess < 4 * (60 * 60) then .ok (true, s)
      else if clock 1 - infoOld.nLastTry < 4 * (60 * 60) then
        if clock 2 - infoOld.nLastTry > 60 then do
          let (_, s) ← s.good_ groups infoNew.service false (clock 3)
          .ok (true, s)
        else .ok (false, s)
      else if clock 4 - infoNew.nLastSuccess > 40 * 60 then do
        let (_, s) ← s.good_ groups infoNew.service false (clock 5)
        .ok (true, s)
      else .ok (false, s)
    else do
      let (_, s) ← s.good_ groups infoNew.service false (clock 6)
      .ok (true, s)

def resolveCollisions_ (clock : Int → Nat → Int) (s : AddrManImpl) : Except Crash AddrManImpl :=
  s.triedCollisions.foldlM (fun s idNew => do
    let (settled, s) ← s.resolveCollision groups (clock idNew) idNew
    .ok (if settled then { s with triedCollisions := s.triedCollisions.erase idNew } else s)) s

def selectTriedCollision_ (rand : Nat) (s : AddrManImpl) : Option (CAddress × Int) × AddrManImpl :=
  match s.triedCollisions[rand % s.triedCollisions.length]? with
  | none => (none, s)
  | some idNew =>
    match s.mapInfo.lookup idNew with
    | none => (none, { s with triedCollisions := s.triedCollisions.erase idNew })
    | some newInfo =>
      let triedBucket := AddrInfo.getTriedBucket groups s.nKey newInfo.service
      let triedBucketPos := AddrInfo.getBucketPosition s.nKey false triedBucket newInfo.service
      let (infoOld, s) := s.access (s.vvTried triedBucket triedBucketPos)
      (some (infoOld.address, infoOld.nLastTry), s)

def checkInfo (sets : List Int × AList fun _ : Int => Int) (n : Int)
    (info : AddrInfo) : Except Int (List Int × AList fun _ : Int => Int) := do
  let sets ←
    if info.fInTried then
      if info.nLastSuccess = 0 then .error (-1)
      else if info.nRefCount ≠ 0 then .error (-2)
      else .ok (n :: sets.1, sets.2)
    else if info.nRefCount < 0 ∨ info.nRefCount > 8 then .error (-3)
    else if info.nRefCount = 0 then .error (-4)
    else .ok (sets.1, sets.2.insert n info.nRefCount)
  if s.mapAddr info.service ≠ some n then .error (-5)
  else if info.nRandomPos < 0 ∨ s.vRandom[info.nRandomPos.toNat]? ≠ some n then .error (-14)
  else if info.nLastTry < 0 then .error (-6)
  else if info.nLastSuccess < 0 then .error (-8)
  else .ok sets

def slots (buckets : Nat) : List (Nat × Nat) :=
  (range buckets).flatMap fun n => (range 64).map fun i => (n, i)

def checkTriedSlot (setTried : List Int) (slot : Nat × Nat) : Except Int (List Int) :=
  let id := s.vvTried slot.1 slot.2
  if id = -1 then .ok setTried
  else if id ∉ setTried then .error (-11)
  else
    match s.mapInfo.lookup id with
    | none => .error (-17)
    | some info =>
      if AddrInfo.getTriedBucket groups s.nKey info.service ≠ slot.1 then .error (-17)
      else if AddrInfo.getBucketPosition s.nKey false slot.1 info.service ≠ slot.2 then .error (-18)
      else .ok (setTried.erase id)

def checkNewSlot (mapNew : AList fun _ : Int => Int) (slot : Nat × Nat) :
    Except Int (AList fun _ : Int => Int) :=
  let id := s.vvNew slot.1 slot.2
  if id = -1 then .ok mapNew
  else
    match mapNew.lookup id with
    | none => .error (-12)
    | some left =>
      match s.mapInfo.lookup id with
      | none => .error (-19)
      | some info =>
        if AddrInfo.getBucketPosition s.nKey true slot.1 info.service ≠ slot.2 then .error (-19)
        else if left - 1 = 0 then .ok (mapNew.erase id)
        else .ok (mapNew.insert id (left - 1))

def checkTables : Except Int Unit := do
  if (s.vRandom.length : Int) ≠ s.nTried + s.nNew then .error (-7)
  else
    let (setTried, mapNew) ← s.mapInfo.entries.foldlM (fun sets entry =>
      s.checkInfo sets entry.1 entry.2) ([], ∅)
    if (setTried.length : Int) ≠ s.nTried then .error (-9)
    else if (mapNew.keys.length : Int) ≠ s.nNew then .error (-10)
    else
      let setTried ← (slots 256).foldlM (s.checkTriedSlot groups) setTried
      let mapNew ← (slots 1024).foldlM s.checkNewSlot mapNew
      if setTried.length ≠ 0 then .error (-13)
      else if mapNew.keys.length ≠ 0 then .error (-15)
      else if s.nKey.isNull then .error (-16)
      else .ok ()

def checkAddrman : Int :=
  match s.checkTables groups with
  | .error code => code
  | .ok () => 0

end Tables

end AddrManImpl

end Qogecoin
