/-
Lando/Netmap.lean

What a netmap says about the peers (`control.rs`, `peers`).

The two lists of a netmap, `Peers` and `PeersChanged`, are read the same way and
one after the other (`peersIn`).  An entry that is not an object or has no key
that parses is skipped; what else is missing has a default.
-/
import Lando.Json
import Lando.Keys

namespace Lando.Netmap

open Json

/-- What a netmap tells us about one peer. -/
structure PeerInfo where
  nodeKey : NodePublic
  discoKey : Option DiscoPublic
  /-- Relay the peer is reachable through, or 0 if unknown. -/
  homeDerp : UInt32
  online : Bool
  /-- Raw JSON array of CIDRs. -/
  allowedIps : List UInt8
  deriving DecidableEq

/-- `str::parse::<u32>`: digits, with an optional plus in front. -/
def parseU32 (s : List UInt8) : Option UInt32 :=
  let digits := if s.head? = some 0x2b then s.tail else s
  if digits = [] ∨ ¬ digits.all fun d => 0x30 ≤ d && d ≤ 0x39 then none
  else
    let n := digits.foldl (fun n d => n * 10 + (d - 0x30).toNat) 0
    if n < 2 ^ 32 then some (.ofNat n) else none

/-- The region of a placeholder address `127.3.3.40:<region>`. -/
def derpRegion (s : List UInt8) : Option UInt32 :=
  ("127.3.3.40:".toUTF8.toList.isPrefixOf? s).bind parseU32

/-- A field that may be missing or unreadable. -/
def get (node : List UInt8) (k : String) : Option Value :=
  match field node k.toUTF8.toList with
  | .ok v => v
  | .error _ => none

/-- A nested value as its raw slice. -/
def asRaw : Value → Option (List UInt8)
  | .raw r => some r
  | _ => none

/-- A number in the range of a `u32`. -/
def asU32 : Value → Option UInt32
  | .number n => parseU32 n
  | _ => none

/-- The peer that an entry describes. -/
def peer (entry : Value) : Option PeerInfo := do
  let node ← asRaw entry
  let nodeKey ← (NodePublic.parse (← (← get node "Key").asStr)).toOption
  return {
    nodeKey := nodeKey
    discoKey := do (DiscoPublic.parse (← (← get node "DiscoKey").asStr)).toOption
    homeDerp :=
      (((get node "HomeDERP").bind asU32).or
        (do derpRegion (← (← get node "DERP").asStr))).getD 0
    online := ((get node "Online").bind Value.asBool).getD false
    allowedIps := (((get node "AllowedIPs").or (get node "Addresses")).bind asRaw).getD [] }

/-- A list of the netmap, empty if it is missing. -/
def list (netmap : List UInt8) (k : String) : List UInt8 := ((get netmap k).bind asRaw).getD []

/-- The peers in a list of the netmap. -/
def peersIn (netmap : List UInt8) (k : String) : List PeerInfo :=
  (elements (list netmap k)).filterMap peer

/-- The peers in a netmap. -/
def peers (netmap : List UInt8) : List PeerInfo :=
  (elements (list netmap "Peers") ++ elements (list netmap "PeersChanged")).filterMap peer

theorem peers_eq (netmap : List UInt8) :
    peers netmap = peersIn netmap "Peers" ++ peersIn netmap "PeersChanged" :=
  List.filterMap_append

end Lando.Netmap
