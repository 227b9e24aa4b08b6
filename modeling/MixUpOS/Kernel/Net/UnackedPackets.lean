import Mathlib.Algebra.Order.Ring.Int
import MixUpOS.Library.Lists

/-!
# Unacknowledged packets of a TCP socket

A packet that was sent stays queued until it is acknowledged.  Sequence numbers
have 32 bits and wrap around, but the code compares them as numbers.
-/

namespace MixUpOS.Kernel

open Library

/-- A queued packet with the sequence number behind it. -/
structure OutgoingPacket where
  ackNumber : UInt32
  payloadSize : Nat
deriving DecidableEq

structure TCPSocket where
  sequenceNumber : UInt32
  packets : List OutgoingPacket
  size : Nat
deriving DecidableEq

/-- What is sent, and whether there is memory to queue it. -/
structure Segment where
  syn : Bool
  payloadSize : Nat
  hasMemory : Bool

def Segment.length (segment : Segment) : Nat := if segment.syn then 1 else segment.payloadSize

namespace TCPSocket

variable (socket : TCPSocket)

def sendTcpPacket (segment : Segment) : TCPSocket :=
  let sequenceNumber := socket.sequenceNumber + .ofNat segment.length
  if (segment.syn || 0 < segment.payloadSize) && segment.hasMemory then
    ⟨sequenceNumber, socket.packets ++ [⟨sequenceNumber, segment.payloadSize⟩],
      socket.size + segment.payloadSize⟩
  else { socket with sequenceNumber := sequenceNumber }

/-- The loop over the queue. -/
def removeAcked (ackNumber : UInt32) : List OutgoingPacket → Nat → List OutgoingPacket × Nat
  | [], size => ([], size)
  | packet :: packets, size =>
    if packet.ackNumber ≤ ackNumber then
      removeAcked ackNumber packets (size - packet.payloadSize)
    else (packet :: packets, size)

def receiveTcpPacket : Option UInt32 → TCPSocket
  | none => socket
  | some ackNumber =>
    let (packets, size) := removeAcked ackNumber socket.packets socket.size
    { socket with packets := packets, size := size }

/-- Serial-number order. -/
def atOrBefore (first second : UInt32) : Bool := (second - first).toNat < 2 ^ 31

/-- The sequence numbers that were sent after the number. -/
def sentAfter (number : UInt32) : Nat := (socket.sequenceNumber - number).toNat

/-- Fewer than `2 ^ 31` sequence numbers are outstanding at any time. -/
inductive Run : TCPSocket → Prop where
  | start (sequenceNumber : UInt32) : Run ⟨sequenceNumber, [], 0⟩
  | send {socket : TCPSocket} (run : Run socket) (segment : Segment)
      (window : ∀ packet ∈ socket.packets,
        socket.sentAfter packet.ackNumber + segment.length < 2 ^ 31) :
      Run (socket.sendTcpPacket segment)
  | receive {socket : TCPSocket} (run : Run socket) (ackNumber : Option UInt32) :
      Run (socket.receiveTcpPacket ackNumber)

/-- The numbers do not wrap around from the end of the first packet up to the
acknowledgement, and from there up to the end of the next packet. -/
def Straight (ackNumber : UInt32) : Prop := (∀ packet, socket.packets.head? = some packet →
    atOrBefore packet.ackNumber ackNumber = true → packet.ackNumber ≤ ackNumber) ∧
  ∀ packet, (socket.packets.find? fun packet => !atOrBefore packet.ackNumber ackNumber) =
    some packet → ackNumber < packet.ackNumber

structure Sound : Prop where
  near : ∀ packet ∈ socket.packets, socket.sentAfter packet.ackNumber < 2 ^ 31
  ordered : socket.packets.Pairwise fun packet later =>
    socket.sentAfter later.ackNumber ≤ socket.sentAfter packet.ackNumber
  size : socket.size = (socket.packets.map OutgoingPacket.payloadSize).sum

variable {socket} {ackNumber : UInt32} {segment : Segment}

theorem sentAfter_send (window : socket.sentAfter number + segment.length < 2 ^ 31) :
    (socket.sendTcpPacket segment).sentAfter number = socket.sentAfter number + segment.length := by
  have sent : (socket.sendTcpPacket segment).sequenceNumber =
      socket.sequenceNumber + .ofNat segment.length := by
    rw [sendTcpPacket]
    split <;> rfl
  simp only [sentAfter, sent, UInt32.toNat_sub, UInt32.toNat_add, UInt32.toNat_ofNat'] at window ⊢
  omega

theorem removeAcked_eq (packets : List OutgoingPacket) :
    removeAcked ackNumber packets (packets.map OutgoingPacket.payloadSize).sum =
      let remaining := packets.dropWhile fun packet => packet.ackNumber ≤ ackNumber
      (remaining, (remaining.map OutgoingPacket.payloadSize).sum) := by
  induction packets with
  | nil => rfl
  | cons packet packets ih =>
    by_cases acked : packet.ackNumber ≤ ackNumber
    · simpa [removeAcked, acked] using ih
    · simp [removeAcked, acked]

theorem Sound.receive (sound : socket.Sound) (ackNumber : UInt32) :
    socket.receiveTcpPacket (some ackNumber) = { socket with
      packets := socket.packets.dropWhile fun packet => packet.ackNumber ≤ ackNumber
      size := ((socket.packets.dropWhile fun packet => packet.ackNumber ≤ ackNumber).map
        OutgoingPacket.payloadSize).sum } := by
  rw [receiveTcpPacket, sound.size, removeAcked_eq]

theorem Sound.send (sound : socket.Sound) (window : ∀ packet ∈ socket.packets,
      socket.sentAfter packet.ackNumber + segment.length < 2 ^ 31) :
    (socket.sendTcpPacket segment).Sound := by
  have moved := fun packet member => sentAfter_send (window packet member)
  obtain ⟨new, packets, zero, size⟩ : ∃ new,
      (socket.sendTcpPacket segment).packets = socket.packets ++ new ∧
      (∀ packet ∈ new, (socket.sendTcpPacket segment).sentAfter packet.ackNumber = 0) ∧
      (socket.sendTcpPacket segment).size =
        socket.size + (new.map OutgoingPacket.payloadSize).sum := by
    rw [sendTcpPacket]
    split
    · exact ⟨[_], rfl, by simp [sentAfter], by simp⟩
    · exact ⟨[], by simp⟩
  refine ⟨?_, ?_, ?_⟩
  · rw [packets]
    refine List.forall_mem_append.mpr ⟨fun packet member => ?_, fun packet member => ?_⟩
    · rw [moved packet member]
      exact window packet member
    · rw [zero packet member]
      decide
  · rw [packets]
    refine List.pairwise_append.mpr ⟨sound.ordered.imp_of_mem fun member laterMember order => ?_,
      List.pairwise_of_forall_mem_list fun _ _ _ laterMember => ?_, fun _ _ _ laterMember => ?_⟩
    · rw [moved _ member, moved _ laterMember]
      exact Nat.add_le_add_right order _
    all_goals
      rw [zero _ laterMember]
      exact Nat.zero_le _
  · rw [size, packets, sound.size, List.map_append, List.sum_append]

theorem Run.sound (run : Run socket) : socket.Sound := by
  induction run with
  | start => exact ⟨by simp, .nil, rfl⟩
  | send run segment window sound => exact sound.send window
  | @receive socket run ackNumber sound =>
    cases ackNumber with
    | none => exact sound
    | some ackNumber =>
      rw [sound.receive]
      exact ⟨fun packet member => sound.near packet ((List.dropWhile_sublist _).subset member),
        sound.ordered.sublist (List.dropWhile_sublist _), rfl⟩

theorem atOrBefore_iff (near : socket.sentAfter number < 2 ^ 31)
    (window : socket.sentAfter ackNumber < 2 ^ 31) :
    atOrBefore number ackNumber = true ↔ socket.sentAfter ackNumber ≤ socket.sentAfter number := by
  have ackSmall := ackNumber.toNat_lt
  simp only [atOrBefore, sentAfter, UInt32.toNat_sub, decide_eq_true_iff] at near window ⊢
  omega

/-- In every state of every run the size is that of the queued packets, and an
acknowledgement that is not newer than what was sent removes just the packets
that end at or before it, iff the numbers do not wrap around on the way. -/
theorem receiveTcpPacket_exact_iff (run : Run socket)
    (window : socket.sentAfter ackNumber < 2 ^ 31) :
    socket.size = (socket.packets.map OutgoingPacket.payloadSize).sum ∧
    ((socket.receiveTcpPacket (some ackNumber)).packets =
        (socket.packets.filter fun packet => !atOrBefore packet.ackNumber ackNumber) ↔
      socket.Straight ackNumber) := by
  refine ⟨run.sound.size, ?_⟩
  rw [run.sound.receive]
  have ordered := run.sound.ordered
  have near := run.sound.near
  refine (dropWhile_eq_filter_iff ?_).trans ?_
  · refine ordered.imp_of_mem fun {packet later} member laterMember order => ?_
    rw [Bool.not_eq_false', Bool.not_eq_false', atOrBefore_iff (near later laterMember) window,
      atOrBefore_iff (near packet member) window]
    intro isBefore
    have laterSmall := later.ackNumber.toNat_lt
    simp only [sentAfter, UInt32.toNat_sub, decide_eq_true_iff, UInt32.le_iff_toNat_le] at *
    omega
  · simp [Straight]

def twoSegments (sequenceNumber : UInt32) : TCPSocket :=
  ((⟨sequenceNumber, [], 0⟩ : TCPSocket).sendTcpPacket ⟨false, 16, true⟩).sendTcpPacket
    ⟨false, 16, true⟩

theorem run_twoSegments (sequenceNumber : UInt32) : Run (twoSegments sequenceNumber) := by
  refine .send (.send (.start sequenceNumber) _ (by simp)) _ ?_
  simp [sendTcpPacket, sentAfter, Segment.length]

theorem receiveTcpPacket_exact_first :
    ((twoSegments 100).receiveTcpPacket (some 116)).packets = [⟨132, 16⟩] ∧
      (twoSegments 100).Straight 116 :=
  ⟨by decide, (receiveTcpPacket_exact_iff (run_twoSegments 100) (by decide)).2.mp (by decide)⟩

/-- The second segment ends behind the wrap, and goes with the first one. -/
theorem not_receiveTcpPacket_exact_wrapped :
    Run (twoSegments 0xFFFFFFE8) ∧ (twoSegments 0xFFFFFFE8).sentAfter 0xFFFFFFF8 < 2 ^ 31 ∧
      ((twoSegments 0xFFFFFFE8).receiveTcpPacket (some 0xFFFFFFF8)).packets = [] ∧
      ((twoSegments 0xFFFFFFE8).packets.filter fun packet =>
        !atOrBefore packet.ackNumber 0xFFFFFFF8) = [⟨8, 16⟩] :=
  ⟨run_twoSegments _, by decide⟩

end TCPSocket

end MixUpOS.Kernel
