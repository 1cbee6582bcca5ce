import Qogecoin.Net.AddrMan
import Qogecoin.Util.StrEncodings

/-! The wire formats of `CNetAddr`: the legacy one, which embeds other networks in IPv6 addresses,
and that of BIP155. Every setter and decoder owes the size of the address and that an IPv6 address
embeds nothing, as its result is a `CNetAddr`. -/
namespace Qogecoin.CNetAddr

open Codec List Crypto

def setLegacyIPv6 (ipv6 : Bytes) (size : ipv6.length = 16) : CNetAddr :=
  if ipv4 : hasPrefix ipv6 ipv4InIpv6Prefix then
    ⟨.ipv4, ipv6.drop 12, by rw [length_drop, size]; rfl, nofun⟩
  else if tor : hasPrefix ipv6 torv2InIpv6Prefix then none
  else if internal : hasPrefix ipv6 internalInIpv6Prefix then
    ⟨.internal, ipv6.drop 6, by rw [length_drop, size]; rfl, nofun⟩
  else ⟨.ipv6, ipv6, size, fun _ => by simp [embedded, ipv4, tor, internal]⟩

def ofInAddr (ipv4Addr : Bytes) (size : ipv4Addr.length = 4) : CNetAddr :=
  ⟨.ipv4, ipv4Addr, size, nofun⟩

def setInternal [Crypto] (name : Bytes) : Option CNetAddr :=
  if name = [] then .none
  else
    let hash := sha256 name
    some ⟨.internal, hash.bytes.take 10, by rw [length_take, hash.size]; rfl, nofun⟩

/-- `sha3` is `SHA3_256`. -/
def setTor (sha3 : Bytes → Bytes) (addr : Bytes) : Option CNetAddr :=
  let name := addr.length - 6
  if addr.length ≤ 6 ∨ addr.drop name ≠ tagBytes ".onion" then .none
  else do
    let input ← StrEncodings.decodeBase32 (addr.take name)
    let pubkey := input.take 32
    let checksum := (sha3 (tagBytes ".onion checksum" ++ pubkey ++ [3])).take 2
    if sized : input.length = 35 ∧ input.drop 34 = [3] ∧ (input.drop 32).take 2 = checksum then
      some ⟨.onion, pubkey, by rw [length_take, sized.1]; rfl, nofun⟩
    else .none

def setI2P (addr : Bytes) : Option CNetAddr :=
  if addr.length ≠ 60 ∨ (addr.drop 52).map StrEncodings.toLower ≠ tagBytes ".b32.i2p" then
    .none
  else do
    let addressBytes ← StrEncodings.decodeBase32 (addr.take 52 ++ replicate 4 StrEncodings.equals)
    if size : addressBytes.length = 32 then some ⟨.i2p, addressBytes, size, nofun⟩ else .none

def setSpecial (sha3 : Bytes → Bytes) (addr : Bytes) : Option CNetAddr :=
  if 0 ∈ addr then .none else (setTor sha3 addr).or (setI2P addr)

/-- `none` is the assertion. -/
def getBIP155Network : Network → Option UInt8
  | .ipv4 => some 1
  | .ipv6 => some 2
  | .onion => some 4
  | .i2p => some 5
  | .cjdns => some 6
  | .internal => .none

def serializeV2 (a : CNetAddr) : Option Bytes :=
  if a.isInternal then some (2 :: (writeCompactSize 16 ++ a.serializeV1))
  else (getBIP155Network a.net).map (· :: serializeBytes a.addr)

/-- A known network with an address of a wrong size is a failure. -/
def setNetFromBIP155Network (bip155Net : UInt8) (addressSize : Nat) :
    Option (Option {net : Network // addressSize = net.addrSize}) :=
  let known (net : Network) :=
    if size : addressSize = net.addrSize then some (some ⟨net, size⟩) else .none
  match bip155Net with
  | 1 => known .ipv4
  | 2 => known .ipv6
  | 4 => known .onion
  | 5 => known .i2p
  | 6 => known .cjdns
  | _ => some .none

def readSized (n : Nat) : Reader {b : Bytes // b.length = n} := fun bs =>
  if enough : n ≤ bs.length then some (⟨bs.take n, by simp [enough]⟩, bs.drop n) else .none

def unserializeV1 : Reader CNetAddr := fun bs => do
  let (serialized, bs) ← readSized 16 bs
  some (setLegacyIPv6 serialized.1 serialized.2, bs)

/-- The checks on an address that was read; one of an unknown network is ignored. -/
def checked {n : Nat} :
    Option {net : Network // n = net.addrSize} → {addr : Bytes // addr.length = n} → CNetAddr
  | .none, _ => none
  | some ⟨net, size⟩, ⟨addr, length⟩ =>
    if ipv6 : net = .ipv6 then
      if internal : hasPrefix addr internalInIpv6Prefix then
        ⟨.internal, addr.drop 6, by rw [length_drop, length, size, ipv6]; rfl, nofun⟩
      else if other : !hasPrefix addr ipv4InIpv6Prefix && !hasPrefix addr torv2InIpv6Prefix then
        ⟨.ipv6, addr, ipv6 ▸ length.trans size, fun _ => by simp_all [embedded]⟩
      else none
    else ⟨net, addr, length.trans size, fun same => absurd same ipv6⟩

def unserializeV2 : Reader CNetAddr
  | [] => .none
  | bip155Net :: bs => do
    let (addressSize, bs) ← readCompactSize true bs
    if addressSize > 512 then .none
    else
      let net ← setNetFromBIP155Network bip155Net addressSize
      let (addr, bs) ← readSized addressSize bs
      some (checked net addr, bs)

theorem readSized_append {b : Bytes} {n : Nat} (length : b.length = n) (rest : Bytes) :
    readSized n (b ++ rest) = some (⟨b, length⟩, rest) := by
  subst length
  simp [readSized]

variable (c : CNetAddr)

theorem not_prefixes (ipv6 : c.net = .ipv6) :
    hasPrefix c.addr ipv4InIpv6Prefix = false ∧ hasPrefix c.addr torv2InIpv6Prefix = false ∧
      hasPrefix c.addr internalInIpv6Prefix = false := by
  have proper := c.proper ipv6
  simpa [embedded, and_assoc] using proper

theorem length_serializeV1 : c.serializeV1.length = 16 := by
  have size := c.size
  rw [serializeV1]
  cases net : c.net <;> rw [net] at size <;>
    simp [size, Network.addrSize, ipv4InIpv6Prefix, internalInIpv6Prefix]

theorem setLegacyIPv6_serializeV1 : setLegacyIPv6 c.serializeV1 c.length_serializeV1 =
      if c.isAddrV1Compatible then c else none := by
  obtain ⟨net, addr, size, proper⟩ := c
  cases net with
  | ipv6 =>
    obtain ⟨ipv4, tor, internal⟩ := not_prefixes ⟨.ipv6, addr, size, proper⟩ rfl
    simp [setLegacyIPv6, serializeV1, isAddrV1Compatible, ipv4, tor, internal]
  | ipv4 | internal | onion | i2p | cjdns => rfl

theorem unserializeV2_append {bip155Net : UInt8} {net : Network} {addr : Bytes}
    (size : addr.length = net.addrSize) (known : getBIP155Network net = some bip155Net)
    (rest : Bytes) : unserializeV2 (bip155Net :: serializeBytes addr ++ rest) =
      some (checked (some ⟨net, size⟩) ⟨addr, rfl⟩, rest) := by
  have short : addr.length ≤ 512 := by
    rw [size]
    cases net <;> decide
  have set : setNetFromBIP155Network bip155Net addr.length = some (some ⟨net, size⟩) := by
    cases net <;> cases known <;> exact dif_pos size
  have read := reads_compactSize true addr.length (addr ++ rest)
    ⟨by omega, fun _ => by rw [maxSize]; omega⟩
  rw [serializeBytes, cons_append, append_assoc, unserializeV2, read]
  show (if addr.length > 512 then _ else _) = _
  rw [if_neg (not_lt.mpr short), set]
  rw [readSized_append rfl]
  rfl

theorem unserializeV2_serializeV2 : ∃ bytes, c.serializeV2 = some bytes ∧
      ∀ rest, unserializeV2 (bytes ++ rest) = some (c, rest) := by
  obtain ⟨net, addr, size, proper⟩ := c
  cases net with
  | internal =>
    refine ⟨_, rfl, fun rest => ?_⟩
    have length : (internalInIpv6Prefix ++ addr).length = Network.ipv6.addrSize := by
      rw [length_append, size]
      rfl
    have read := unserializeV2_append length rfl rest
    rw [serializeBytes] at read
    nth_rewrite 1 [length] at read
    exact read
  | ipv6 =>
    obtain ⟨ipv4, tor, internal⟩ := not_prefixes ⟨.ipv6, addr, size, proper⟩ rfl
    refine ⟨_, rfl, fun rest => (unserializeV2_append size rfl rest).trans ?_⟩
    simp [checked, ipv4, tor, internal]
  | ipv4 | onion | i2p | cjdns => exact ⟨_, rfl, unserializeV2_append size rfl⟩

theorem wire_formats :
    (∀ c : CNetAddr,
      (∃ bytes, c.serializeV2 = some bytes ∧
        ∀ rest, unserializeV2 (bytes ++ rest) = some (c, rest)) ∧
      ∃ d, (∀ rest, unserializeV1 (c.serializeV1 ++ rest) = some (d, rest)) ∧
        (d = c ↔ c.isAddrV1Compatible) ∧ (c.isAddrV1Compatible = false → d.isValid = false)) ∧
    ∀ bs a rest, unserializeV1 bs = some (a, rest) ∨ unserializeV2 bs = some (a, rest) →
      a.addr.length = a.net.addrSize ∧ (a.net = .ipv6 → embedded a.addr = false) := by
  refine ⟨fun c => ⟨c.unserializeV2_serializeV2, ?_⟩, fun _ a _ _ => ⟨a.size, a.proper⟩⟩
  refine ⟨if c.isAddrV1Compatible then c else none, fun rest => ?_, ?_, ?_⟩
  · rw [unserializeV1, readSized_append c.length_serializeV1, ← setLegacyIPv6_serializeV1]
    rfl
  · constructor
    · intro same
      by_contra other
      rw [if_neg other] at same
      exact other (same ▸ rfl)
    · exact fun compatible => if_pos compatible
  · intro other
    rw [other]
    rfl

end Qogecoin.CNetAddr
