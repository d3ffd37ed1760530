import PeerShare.Table
import PeerShare.Text.Numeral

/-
  Where a peer is reached: an address and a port.

  Addresses have four bytes or eight groups of sixteen bits.
  All addresses of the first kind come before those of the
  second; within a kind the numbers decide, and for equal
  addresses the port.

  The text of an address of eight groups leaves out the
  longest row of zero groups, the first of them if several
  are longest, when there is more than one group in it.

  Key definitions include:
    * `IpAddress`
    * `IpAddress.parse?`
    * `IpAddress.render`
    * `Endpoint`
    * `Endpoint.parse?`
    * `Endpoint.render`
-/

------------------------------------------------------------
-- Addresses and Endpoints
------------------------------------------------------------

namespace PeerShare

/- A numeric network address. -/
inductive IpAddress where
  | v4 (octets : Vector UInt8 4)
  | v6 (groups : Vector UInt16 8)
  deriving DecidableEq

/- The address and port of a peer. -/
structure Endpoint where
  address : IpAddress
  port : UInt16
  deriving DecidableEq

namespace IpAddress

/- The address by which a machine reaches itself. -/
def loopback : IpAddress :=
  .v4 #v[127, 0, 0, 1]

/- The kind of an address, and its numbers. -/
def code : IpAddress → List Nat
  | .v4 octets => 4 :: octets.toList.map UInt8.toNat
  | .v6 groups => 6 :: groups.toList.map UInt16.toNat

theorem code_injective
    {a b : IpAddress}
    (h : a.code = b.code) :
    a = b := by
  cases a with
  | v4 as =>
      cases b with
      | v4 bs =>
          simp only [code, List.cons.injEq, true_and] at h
          have hLists : as.toList = bs.toList :=
            (List.map_inj_right
              fun _ _ => UInt8.toNat_inj.mp).mp h
          rw [Vector.toList_inj.mp hLists]
      | v6 bs => simp [code] at h
  | v6 as =>
      cases b with
      | v4 bs => simp [code] at h
      | v6 bs =>
          simp only [code, List.cons.injEq, true_and] at h
          have hLists : as.toList = bs.toList :=
            (List.map_inj_right
              fun _ _ => UInt16.toNat_inj.mp).mp h
          rw [Vector.toList_inj.mp hLists]

end IpAddress

/- Endpoints are ordered by address, then by port. -/
instance : Keyed Endpoint where
  code e := e.address.code ++ [e.port.toNat]
  code_injective {a b} h := by
    have hSplit := List.append_inj' h rfl
    have hAddress := IpAddress.code_injective hSplit.1
    have hPort : a.port = b.port :=
      UInt16.toNat_inj.mp (by simpa using hSplit.2)
    cases a
    cases b
    cases hAddress
    cases hPort
    rfl

end PeerShare

------------------------------------------------------------
-- Reading
------------------------------------------------------------

namespace PeerShare

namespace IpAddress

/-
  A byte in decimal: at most three digits, none of them a
  leading zero.
-/
def parseOctet?
    (cs : List Char) : Option UInt8 :=
  if cs.length > 3 ∨ (cs.length > 1 ∧ cs.head? = some '0')
  then none
  else
    match Text.readNumeral? 10 cs with
    | none => none
    | some n => if n < 256 then some (UInt8.ofNat n) else none

/- Four bytes between dots. -/
def parseV4?
    (cs : List Char) : Option (Vector UInt8 4) :=
  match (Text.splitOn '.' cs).map parseOctet? with
  | [some a, some b, some c, some d] => some #v[a, b, c, d]
  | _ => none

/- A group in hexadecimal: at most four digits. -/
def parseGroup?
    (cs : List Char) : Option UInt16 :=
  if cs.length > 4 then none
  else (Text.readNumeral? 16 cs).map UInt16.ofNat

/- The group of two bytes, the higher one first. -/
def groupOfBytes
    (high low : UInt8) : UInt16 :=
  high.toUInt16 * 256 + low.toUInt16

/- Two groups written as an address of four bytes. -/
def groupsOfOctets
    (v : Vector UInt8 4) : List UInt16 :=
  [groupOfBytes v[0] v[1], groupOfBytes v[2] v[3]]

/-
  The groups of some items.  When `mixed`, the last item may
  be an address of four bytes instead.
-/
def parseItems?
    (mixed : Bool) :
    List (List Char) →
    Option (List UInt16)
  | [] => some []
  | item :: items =>
      match parseGroup? item with
      | some group =>
          (parseItems? mixed items).map (group :: ·)
      | none =>
          if mixed && items.isEmpty then
            (parseV4? item).map groupsOfOctets
          else none

/- The groups between colons; no groups in an empty text. -/
def parseGroups?
    (mixed : Bool)
    (cs : List Char) : Option (List UInt16) :=
  if cs.isEmpty then some []
  else parseItems? mixed (Text.splitOn ':' cs)

/- The texts before and after the first double colon. -/
def splitDoubleColon? :
    List Char → Option (List Char × List Char)
  | ':' :: ':' :: rest => some ([], rest)
  | [] => none
  | c :: rest =>
      (splitDoubleColon? rest).map fun (front, back) =>
        (c :: front, back)

/- Eight groups, if there are eight. -/
def ofGroups?
    (groups : List UInt16) : Option (Vector UInt16 8) :=
  if h : groups.length = 8 then
    some ⟨groups.toArray, by simpa using h⟩
  else none

/-
  Eight groups between colons, where a double colon stands
  for one or more groups of zero.
-/
def parseV6?
    (cs : List Char) : Option (Vector UInt16 8) :=
  match splitDoubleColon? cs with
  | none => (parseGroups? true cs).bind ofGroups?
  | some (front, back) =>
      match parseGroups? false front, parseGroups? true back with
      | some head, some tail =>
          if head.length + tail.length ≤ 7 then
            ofGroups?
              (head ++
                List.replicate
                  (8 - head.length - tail.length) 0 ++ tail)
          else none
      | _, _ => none

/- The address written in a text. -/
def parse?
    (text : String) : Option IpAddress :=
  match parseV4? text.toList with
  | some octets => some (.v4 octets)
  | none => (parseV6? text.toList).map .v6

end IpAddress

namespace Endpoint

/- The number of a port, in decimal. -/
def parsePort?
    (cs : List Char) : Option UInt16 :=
  match Text.readNumeral? 10 cs with
  | none => none
  | some n =>
      if n < 65536 then some (UInt16.ofNat n) else none

/-
  The address and port of a text.  An address of groups
  stands in square brackets.
-/
def parse?
    (text : String) : Option Endpoint :=
  match text.toList with
  | '[' :: rest =>
      match Text.splitOn ']' rest with
      | [address, ':' :: port] =>
          match IpAddress.parseV6? address, parsePort? port with
          | some groups, some port => some ⟨.v6 groups, port⟩
          | _, _ => none
      | _ => none
  | cs =>
      match Text.splitOn ':' cs with
      | [address, port] =>
          match IpAddress.parseV4? address, parsePort? port with
          | some octets, some port => some ⟨.v4 octets, port⟩
          | _, _ => none
      | _ => none

end Endpoint

end PeerShare

------------------------------------------------------------
-- Writing
------------------------------------------------------------

namespace PeerShare

namespace IpAddress

/- The four bytes in decimal between dots. -/
def renderOctets
    (octets : List UInt8) : String :=
  ".".intercalate (octets.map fun b => toString b.toNat)

/- The groups in hexadecimal between colons. -/
def renderGroups
    (groups : List UInt16) : String :=
  ":".intercalate
    (groups.map fun g => Text.writeNumeral 16 g.toNat)

/- The number of zero groups at the front. -/
def leadingZeros
    (groups : List UInt16) : Nat :=
  (groups.takeWhile (· == 0)).length

/-
  The start and length of the first longest row of zero
  groups.
-/
def longestZeros
    (groups : List UInt16) : Nat × Nat :=
  (List.range groups.length).foldl
    (fun best start =>
      let length := leadingZeros (groups.drop start)
      if best.2 < length then (start, length) else best)
    (0, 0)

/- Eight groups, with the longest row of zeros left out. -/
def renderV6
    (groups : List UInt16) : String :=
  match groups with
  | [0, 0, 0, 0, 0, 0xFFFF, g, h] =>
      "::ffff:" ++
        renderOctets
          [(g / 256).toUInt8, g.toUInt8,
            (h / 256).toUInt8, h.toUInt8]
  | _ =>
      let (start, length) := longestZeros groups
      if length > 1 then
        renderGroups (groups.take start) ++ "::" ++
          renderGroups (groups.drop (start + length))
      else renderGroups groups

/- The text of an address. -/
def render : IpAddress → String
  | .v4 octets => renderOctets octets.toList
  | .v6 groups => renderV6 groups.toList

end IpAddress

namespace Endpoint

/- The text of an endpoint. -/
def render
    (e : Endpoint) : String :=
  match e.address with
  | .v4 _ =>
      e.address.render ++ ":" ++ toString e.port.toNat
  | .v6 _ =>
      "[" ++ e.address.render ++ "]:" ++ toString e.port.toNat

end Endpoint

end PeerShare
