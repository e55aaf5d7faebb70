import Lilsync.Identity
import Lilsync.Sync.Download

/-!
# Addresses of peers

`endpoints.rs`: the address book says for each peer at which endpoints it may be
reached.  The endpoints of a peer come from its own announcements, each of which
replaces what was known before, and from join tickets.
-/

namespace Lilsync

open Lilsync.Lib

/-! ## Endpoints as text -/

/-- `IpAddr`: four bytes, or eight groups of sixteen bits. -/
inductive IpAddr where
  | v4 (octets : Vector UInt8 4)
  | v6 (segments : Vector UInt16 8)
deriving DecidableEq

/-- `Ipv4Addr::to_string`. -/
def formatIpv4 (octets : List UInt8) : Str :=
  (lit ".").intercalate (octets.map fun b ↦ decimal b.toNat)

/-- A number in hexadecimal, without leading zeros. -/
def hexadecimal (n : Nat) : Str :=
  if n = 0 then lit "0"
  else (Nat.digits 16 n).reverse.map fun d ↦ toHex.digit d.toUInt8

/-- How many of the segments from the given place on are zero. -/
def zerosFrom (segments : List UInt16) (start : Nat) : Nat :=
  ((segments.drop start).takeWhile (· == 0)).length

/-- The start and the length of the longest run of zeros, the first one of equals. -/
def longestZeros (segments : List UInt16) : Nat × Nat :=
  (List.range segments.length).foldl (fun best start ↦
    if best.2 < zerosFrom segments start then (start, zerosFrom segments start) else best) (0, 0)

/-- `Ipv6Addr::to_string`: an address that stands for one of the other kind ends in that, and a
run of more than one zero segment is left out. -/
def formatIpv6 (segments : List UInt16) : Str :=
  let groups (segments : List UInt16) : Str :=
    (lit ":").intercalate (segments.map fun s ↦ hexadecimal s.toNat)
  if segments.take 6 = [0, 0, 0, 0, 0, 0xffff] then
    lit "::ffff:" ++ formatIpv4 ((segments.drop 6).flatMap fun s : UInt16 ↦
      [(s >>> 8).toUInt8, s.toUInt8])
  else
    let (start, length) := longestZeros segments
    if 1 < length then
      groups (segments.take start) ++ lit "::" ++ groups (segments.drop (start + length))
    else groups segments

/-- `format_endpoint`. -/
def formatEndpoint (ip : IpAddr) (port : UInt16) : Str :=
  match ip with
  | .v4 octets => formatIpv4 octets.toList ++ lit ":" ++ decimal port.toNat
  | .v6 segments => lit "[" ++ formatIpv6 segments.toList ++ lit "]:" ++ decimal port.toNat

/-! ## The address book -/

/-- `MAX_ENDPOINTS_PER_PEER`. -/
def maxEndpointsPerPeer : Nat := 8

structure PeerInfo where
  endpoints : List Str
  name : Option Str
deriving DecidableEq

/-- `AddressBook`, by node id. -/
abbrev AddressBook := NodeId → Option PeerInfo

/-- The body of the loop of `merge_peer_endpoints`. -/
def mergeEndpoint (merged : List Str) (endpoint : Str) : List Str :=
  if ¬ merged.contains endpoint ∧ merged.length < maxEndpointsPerPeer then merged ++ [endpoint]
  else merged

/-- The endpoints that `merge_peer_endpoints` collects. -/
def mergedEndpoints (observed : Option Str) (advertised : List Str) : List Str :=
  (observed.toList ++ advertised).foldl mergeEndpoint []

/-- `merge_peer_endpoints`: whether the entry changed, and the book. -/
def mergePeerEndpoints (book : AddressBook) (peer : NodeId) (observed : Option Str)
    (advertised : List Str) (name : Option Str) : Bool × AddressBook :=
  let endpoints := mergedEndpoints observed advertised
  if endpoints = [] then (false, book)
  else if book peer = some ⟨endpoints, name⟩ then (false, book)
  else (true, Function.update book peer (some ⟨endpoints, name⟩))

/-! ## What is collected -/

variable {observed : Option Str} {advertised merged l : List Str} {endpoint : Str}

/-- The loop keeps what it has, takes new endpoints only, and stops at the cap. -/
theorem foldl_mergeEndpoint (h : merged.Nodup ∧ merged.length ≤ maxEndpointsPerPeer) :
    merged <+: l.foldl mergeEndpoint merged ∧ (l.foldl mergeEndpoint merged).Nodup ∧
      (l.foldl mergeEndpoint merged).length ≤ maxEndpointsPerPeer ∧
      ∀ e ∈ l.foldl mergeEndpoint merged, e ∈ merged ∨ e ∈ l := by
  induction l generalizing merged with
  | nil => exact ⟨List.prefix_rfl, h.1, h.2, fun e he ↦ .inl he⟩
  | cons endpoint l ih =>
    rw [List.foldl_cons, mergeEndpoint]
    split
    · next hnew =>
      rw [List.contains_iff_mem] at hnew
      have hgrown : (merged ++ [endpoint]).Nodup ∧
          (merged ++ [endpoint]).length ≤ maxEndpointsPerPeer := by
        refine ⟨?_, ?_⟩
        · rw [← List.concat_eq_append]
          exact h.1.concat hnew.1
        · rw [List.length_append, List.length_singleton]
          exact hnew.2
      obtain ⟨hpre, hnodup, hlen, hmem⟩ := ih hgrown
      refine ⟨(List.prefix_append _ _).trans hpre, hnodup, hlen, fun e he ↦ ?_⟩
      rcases hmem e he with he | he
      · rcases List.mem_append.mp he with he | he
        · exact .inl he
        · exact .inr (List.mem_cons.mpr (.inl (List.mem_singleton.mp he)))
      · exact .inr (List.mem_cons_of_mem _ he)
    · obtain ⟨hpre, hnodup, hlen, hmem⟩ := ih h
      exact ⟨hpre, hnodup, hlen, fun e he ↦ (hmem e he).imp id (List.mem_cons_of_mem _)⟩

/-- The list is what its peer has been seen at, and then what it says itself. -/
theorem mergedEndpoints_spec (observed : Str) (advertised : List Str) :
    (mergedEndpoints (some observed) advertised).head? = some observed ∧
      (mergedEndpoints (some observed) advertised).Nodup ∧
      (mergedEndpoints (some observed) advertised).length ≤ maxEndpointsPerPeer ∧
      ∀ e ∈ mergedEndpoints (some observed) advertised, e = observed ∨ e ∈ advertised := by
  have hfirst : mergedEndpoints (some observed) advertised =
      advertised.foldl mergeEndpoint [observed] := rfl
  obtain ⟨⟨rest, hrest⟩, hnodup, hlen, hmem⟩ := @foldl_mergeEndpoint [observed]
    advertised ⟨List.nodup_singleton _, Nat.le_add_left 1 7⟩
  rw [hfirst]
  refine ⟨?_, hnodup, hlen, fun e he ↦ (hmem e he).imp List.mem_singleton.mp id⟩
  rw [← hrest]
  rfl

/-- With an observed address, the entry is what was collected. -/
theorem mergePeerEndpoints_snd (book : AddressBook) (peer : NodeId) (observed : Str)
    (advertised : List Str) (name : Option Str) :
    (mergePeerEndpoints book peer (some observed) advertised name).2 =
      Function.update book peer (some ⟨mergedEndpoints (some observed) advertised, name⟩) := by
  have hne : mergedEndpoints (some observed) advertised ≠ [] := by
    intro hnil
    have hhead := (mergedEndpoints_spec observed advertised).1
    rw [hnil] at hhead
    cases hhead
  rw [mergePeerEndpoints, if_neg hne]
  split
  · next hsame => rw [← hsame, Function.update_eq_self]
  · rfl

end Lilsync
