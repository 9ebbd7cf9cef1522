/-
# Engine.Datagrams -- memcache.cc: udp_server

A request comes in one datagram; the answer goes out in as many as it needs, each with the
number of the request, its own number and how many they are.  Datagrams may arrive in any
order, more than once and among others.  A client that collects them by their numbers has
the whole answer if and only if they are fewer than 2^16 (`udp_answered`).
-/
import Itaro.Engine.Protocol
import Mathlib.Algebra.Order.BigOperators.Group.Finset

namespace Itaro.Engine

set_option autoImplicit false

/-! ## Headers -/

/-- `udp_server::header` -/
structure UdpHeader where
  requestId : BitVec 16
  sequenceNumber : BitVec 16
  n : BitVec 16
  reserved : BitVec 16
  deriving DecidableEq, Repr

def bigEndian (x : BitVec 16) : Bytes := [x.extractLsb' 8 8, x.extractLsb' 0 8]

/-- The memory of a header after `hton`; `adjust_endianness` leaves `_reserved` as it is. -/
def UdpHeader.hton (h : UdpHeader) : Bytes :=
  bigEndian h.requestId ++ bigEndian h.sequenceNumber ++ bigEndian h.n ++ (bigEndian h.reserved).reverse

/-- `get_header`, `ntoh` and `trim_front` -/
def UdpHeader.ntoh : Bytes → Option (UdpHeader × Bytes)
  | a :: b :: c :: d :: e :: f :: g :: h :: text => some (⟨a ++ b, c ++ d, e ++ f, h ++ g⟩, text)
  | _ => none

@[simp] theorem UdpHeader.ntoh_hton (h : UdpHeader) (text : Bytes) : ntoh (h.hton ++ text) = some (h, text) := by
  have halves (x : BitVec 16) : x.extractLsb' 8 8 ++ x.extractLsb' 0 8 = x := BitVec.extractLsb'_append_extractLsb'
  simp [hton, bigEndian, ntoh, halves]

theorem UdpHeader.length_hton (h : UdpHeader) : h.hton.length = 8 := rfl

/-! ## The server -/

namespace UdpServer

/-- `connection::respond` -/
def respond (requestId : BitVec 16) (outBufs : List Bytes) : List Bytes :=
  outBufs.mapIdx fun i buf =>
    UdpHeader.hton ⟨requestId, BitVec.ofNat 16 i, BitVec.ofNat 16 outBufs.length, 0⟩ ++ buf

def msgSingleDatagram : Bytes := ascii "CLIENT_ERROR only single-datagram requests supported\r\n"

/-- What is sent for a datagram: `handle` is the protocol, `split` the output stream. -/
def receive (split : Bytes → List Bytes) (handle : Bytes → Bytes) (dgram : Bytes) : Option (List Bytes) :=
  (UdpHeader.ntoh dgram).map fun (hdr, text) =>
    respond hdr.requestId
      (split (if hdr.n ≠ 1 ∨ hdr.sequenceNumber ≠ 0 then msgSingleDatagram else handle text))

end UdpServer

/-! ## The client -/

/-- The datagram with this number in the answer, and how many there are. -/
def part (requestId : BitVec 16) (received : List Bytes) (i : Nat) : Option (BitVec 16 × Bytes) :=
  received.findSome? fun dgram => do
    let (hdr, buf) ← UdpHeader.ntoh dgram
    if hdr.requestId = requestId ∧ hdr.sequenceNumber = BitVec.ofNat 16 i then some (hdr.n, buf) else none

/-- The text, if all of it has arrived. -/
def reassemble (requestId : BitVec 16) (received : List Bytes) : Option Bytes := do
  let (n, _) ← part requestId received 0
  if ∀ i < n.toNat, (part requestId received i).isSome then
    some ((List.range n.toNat).flatMap fun i => ((part requestId received i).map Prod.snd).getD [])
  else none

section Answering

variable {requestId : BitVec 16} {outBufs received : List Bytes}

theorem mem_respond {dgram : Bytes} : dgram ∈ UdpServer.respond requestId outBufs ↔
    ∃ i, ∃ inside : i < outBufs.length, dgram =
      UdpHeader.hton ⟨requestId, BitVec.ofNat 16 i, BitVec.ofNat 16 outBufs.length, 0⟩ ++ outBufs[i] := by
  rw [UdpServer.respond, List.mem_mapIdx]
  simp only [eq_comm]

/-- What has arrived: all of the answer, and answers to other requests. -/
structure Arrived (requestId : BitVec 16) (sent received : List Bytes) : Prop where
  all : ∀ dgram ∈ sent, dgram ∈ received
  others : ∀ dgram ∈ received, dgram ∈ sent ∨ ∀ hdr buf, UdpHeader.ntoh dgram = some (hdr, buf) → hdr.requestId ≠ requestId

/-- What is found under a number belongs to the answer; its own number may be larger by 2^16. -/
theorem part_cases (arrived : Arrived requestId (UdpServer.respond requestId outBufs) received) {i : Nat} {n : BitVec 16}
    {buf : Bytes} (found : part requestId received i = some (n, buf)) :
    n = BitVec.ofNat 16 outBufs.length ∧ ∃ j < outBufs.length, j % 2 ^ 16 = i % 2 ^ 16 ∧ buf = outBufs[j]?.getD [] := by
  obtain ⟨dgram, member, hit⟩ := List.exists_of_findSome?_eq_some found
  obtain ⟨⟨hdr, text⟩, header, named⟩ := Option.bind_eq_some_iff.mp hit
  clear hit
  dsimp only at named
  rcases arrived.others dgram member with sent | other
  · obtain ⟨j, inside, rfl⟩ := mem_respond.mp sent
    rw [UdpHeader.ntoh_hton] at header
    cases header
    split at named
    case isTrue same =>
      cases named
      have numbers := congrArg BitVec.toNat same.2
      rw [BitVec.toNat_ofNat, BitVec.toNat_ofNat] at numbers
      exact ⟨rfl, j, inside, numbers, by rw [List.getElem?_eq_getElem inside]; rfl⟩
    case isFalse apart => cases named
  · split at named
    case isTrue same => exact absurd same.1 (other hdr text header)
    case isFalse apart => cases named

theorem part_isSome (arrived : Arrived requestId (UdpServer.respond requestId outBufs) received) {i : Nat}
    (inside : i < outBufs.length) : (part requestId received i).isSome := by
  rw [part, List.findSome?_isSome_iff]
  refine ⟨_, arrived.all _ (mem_respond.mpr ⟨i, inside, rfl⟩), ?_⟩
  simp

/-- The pieces that a client puts together, by their numbers. -/
theorem reassemble_eq (some : outBufs ≠ []) (arrived : Arrived requestId (UdpServer.respond requestId outBufs) received) :
    ∃ piece : Nat → Nat, (∀ i < outBufs.length % 2 ^ 16, piece i < outBufs.length ∧ piece i % 2 ^ 16 = i) ∧
      reassemble requestId received =
        .some ((List.range (outBufs.length % 2 ^ 16)).flatMap fun i => outBufs[piece i]?.getD []) := by
  have few : outBufs.length % 2 ^ 16 < 2 ^ 16 := Nat.mod_lt _ (by decide)
  have parts : ∀ i < outBufs.length % 2 ^ 16, (part requestId received i).isSome := fun i inside =>
    part_isSome arrived (Nat.lt_of_lt_of_le inside (Nat.mod_le _ _))
  have found : ∀ i, ∃ j, i < outBufs.length % 2 ^ 16 → j < outBufs.length ∧ j % 2 ^ 16 = i ∧
      ((part requestId received i).map Prod.snd).getD [] = outBufs[j]?.getD [] := by
    intro i
    by_cases inside : i < outBufs.length % 2 ^ 16
    · obtain ⟨⟨n, buf⟩, here⟩ := Option.isSome_iff_exists.mp (parts i inside)
      obtain ⟨-, j, inside', same, piece⟩ := part_cases arrived here
      rw [Nat.mod_eq_of_lt (Nat.lt_trans inside few)] at same
      exact ⟨j, fun _ => ⟨inside', same, by rw [here]; exact piece⟩⟩
    · exact ⟨0, fun inside' => absurd inside' inside⟩
  choose piece pieces using found
  refine ⟨piece, fun i inside => ⟨(pieces i inside).1, (pieces i inside).2.1⟩, ?_⟩
  obtain ⟨⟨n, buf⟩, first⟩ := Option.isSome_iff_exists.mp (part_isSome arrived (List.length_pos_iff.mpr some))
  have count : n.toNat = outBufs.length % 2 ^ 16 := by
    rw [(part_cases arrived first).1, BitVec.toNat_ofNat]
  rw [reassemble, first]
  simp only [Option.bind_eq_bind, Option.bind_some, count]
  rw [if_pos parts, List.flatMap_def, List.flatMap_def]
  congr 2
  exact List.map_congr_left fun i member => (pieces i (List.mem_range.mp member)).2.2

theorem flatMap_range_getElem (bufs : List Bytes) :
    ((List.range bufs.length).flatMap fun i => bufs[i]?.getD []) = bufs.flatten := by
  rw [List.flatMap_def]
  congr 1
  refine List.ext_getElem (by simp) fun i inside inside' => ?_
  rw [List.getElem_map, List.getElem_range, List.getElem?_eq_getElem inside']
  rfl

theorem length_flatMap_range (pieces : Nat → Bytes) (n : Nat) :
    ((List.range n).flatMap pieces).length = ∑ i ∈ Finset.range n, (pieces i).length := by
  rw [List.length_flatMap]
  rfl

/-- With numbers of 16 bits, 2^16 datagrams are too many. -/
theorem reassemble_respond (some : outBufs ≠ []) (filled : ∀ buf ∈ outBufs, buf ≠ [])
    (arrived : Arrived requestId (UdpServer.respond requestId outBufs) received) :
    reassemble requestId received = .some outBufs.flatten ↔ outBufs.length < 2 ^ 16 := by
  obtain ⟨piece, pieces, text⟩ := reassemble_eq some arrived
  rw [text, Option.some.injEq]
  constructor
  · intro whole
    by_contra many
    have fewer : outBufs.length % 2 ^ 16 < outBufs.length :=
      Nat.lt_of_lt_of_le (Nat.mod_lt _ (by decide)) (Nat.not_lt.mp many)
    -- The pieces are different ones, and not all of them.
    have apart : Set.InjOn piece (Finset.range (outBufs.length % 2 ^ 16)) := by
      intro i inside i' inside' same
      rw [← (pieces i (Finset.mem_range.mp inside)).2, same, (pieces i' (Finset.mem_range.mp inside')).2]
    have inside : (Finset.range (outBufs.length % 2 ^ 16)).image piece ⊆ Finset.range outBufs.length := by
      intro j member
      obtain ⟨i, below, rfl⟩ := Finset.mem_image.mp member
      exact Finset.mem_range.mpr (pieces i (Finset.mem_range.mp below)).1
    have left : ((Finset.range (outBufs.length % 2 ^ 16)).image piece).card < (Finset.range outBufs.length).card := by
      rw [Finset.card_image_of_injOn apart, Finset.card_range, Finset.card_range]
      exact fewer
    obtain ⟨j, below, missing⟩ := Finset.exists_mem_notMem_of_card_lt_card left
    have missed : 0 < (outBufs[j]?.getD []).length := by
      rw [List.getElem?_eq_getElem (Finset.mem_range.mp below)]
      exact List.length_pos_iff.mpr (filled _ (List.getElem_mem _))
    have shorter := Finset.sum_lt_sum_of_subset (f := fun j => (outBufs[j]?.getD []).length) inside below missing missed
      fun _ _ _ => Nat.zero_le _
    rw [Finset.sum_image apart] at shorter
    have length := congrArg List.length whole
    rw [← flatMap_range_getElem, length_flatMap_range, length_flatMap_range] at length
    exact absurd length (Nat.ne_of_lt shorter)
  · intro few
    rw [← flatMap_range_getElem, Nat.mod_eq_of_lt few, List.flatMap_def, List.flatMap_def]
    rw [Nat.mod_eq_of_lt few] at pieces
    congr 1
    refine List.map_congr_left fun i member => ?_
    obtain ⟨inside, same⟩ := pieces i (List.mem_range.mp member)
    have itself : piece i = i := (Nat.mod_eq_of_lt (Nat.lt_trans inside few)).symm.trans same
    rw [itself]

/-- **An answer comes through**, in datagrams of the size that is allowed, if and only if they are
fewer than 2^16. -/
theorem udp_answered {split : Bytes → List Bytes} {handle : Bytes → Bytes} {maxDatagramSize : Nat}
    {reserved : BitVec 16} {text : Bytes} (answer : handle text ≠ [])
    (pieces : (split (handle text)).flatten = handle text)
    (filled : ∀ buf ∈ split (handle text), buf ≠ [] ∧ buf.length + 8 ≤ maxDatagramSize) :
    ∃ sent, UdpServer.receive split handle (UdpHeader.hton ⟨requestId, 0, 1, reserved⟩ ++ text) = some sent ∧
      (∀ dgram ∈ sent, dgram.length ≤ maxDatagramSize) ∧
      ∀ received, Arrived requestId sent received →
        (reassemble requestId received = some (handle text) ↔ sent.length < 2 ^ 16) := by
  refine ⟨UdpServer.respond requestId (split (handle text)), ?_, ?_, ?_⟩
  · simp [UdpServer.receive]
  · intro dgram member
    obtain ⟨i, inside, rfl⟩ := mem_respond.mp member
    rw [List.length_append, UdpHeader.length_hton, Nat.add_comm]
    exact (filled _ (List.getElem_mem inside)).2
  · intro received arrived
    have nonempty : split (handle text) ≠ [] := by
      intro none
      rw [none] at pieces
      exact answer pieces.symm
    have whole := reassemble_respond nonempty (fun buf member => (filled buf member).1) arrived
    rw [pieces] at whole
    rw [whole, UdpServer.respond, List.length_mapIdx]

/-- Pieces of four bytes. -/
def inFours (s : Bytes) : List Bytes := [s.take 4, s.drop 4]

/-- Two datagrams say `STORED`. -/
theorem udp_answered_stored : ∃ sent,
    UdpServer.receive inFours (fun _ => msgStored) (UdpHeader.hton ⟨7, 0, 1, 0⟩ ++ ascii "set a 0 0 1\r\n5\r\n") = some sent ∧
      (∀ dgram ∈ sent, dgram.length ≤ 12) ∧
      ∀ received, Arrived 7 sent received → (reassemble 7 received = some msgStored ↔ sent.length < 2 ^ 16) :=
  udp_answered (by decide) (by decide) (by decide)

end Answering

end Itaro.Engine
