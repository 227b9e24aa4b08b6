import MixUpOS.Kernel.Net.UnackedPackets

/-!
# What a TCP socket sends again

A socket is compared with a sender that counts all that occupies sequence space
and keeps it until it is acknowledged.  The socket neither counts nor queues a
FIN, and takes any acknowledgement for that of its FIN.
-/

namespace MixUpOS.Kernel

/-- What was sent and not acknowledged, each with the number behind it and
whether it has a FIN. -/
structure Sender where
  nextNumber : UInt32
  outstanding : List (OutgoingPacket × Bool)

namespace Sender

variable (sender : Sender)

def send (segment : Segment) (fin : Bool) : Sender :=
  let length := segment.payloadSize + segment.syn.toNat + fin.toNat
  let next := sender.nextNumber + .ofNat length
  ⟨next, sender.outstanding ++ if length = 0 then [] else [(⟨next, segment.payloadSize⟩, fin)]⟩

def acknowledge (ackNumber : UInt32) : Sender :=
  { sender with outstanding := sender.outstanding.filter fun sent =>
      !TCPSocket.atOrBefore sent.1.ackNumber ackNumber }

end Sender

inductive TCPState where
  | closed | listen | synSent | synReceived | established | closeWait | lastAck
  | finWait1 | finWait2 | closing | timeWait
deriving DecidableEq

/-- A packet that arrives, whether it is the next one in order, whether the
socket has a direction and an originator, and whether there is memory to queue
an answer. -/
structure TCPPacket where
  flags : Nat
  ackNumber : UInt32
  inOrder : Bool
  accepted : Bool
  hasMemory : Bool

namespace TCPPacket

variable (packet : TCPPacket)

def hasFin : Bool := packet.flags.testBit 0
def hasRst : Bool := packet.flags.testBit 2
def hasAck : Bool := packet.flags.testBit 4

/-- The state after `handle_tcp`. -/
def nextState (state : TCPState) : TCPState :=
  -- FIN is 0x01, SYN is 0x02 and ACK is 0x10; other combinations close the socket.
  match state, packet.flags with
  | .listen, _ => .listen
  | .synSent, 0x02 | .synReceived, 0x02 => .synReceived
  | .synSent, 0x12 => .established
  | .synReceived, 0x10 => if packet.accepted then .established else .closed
  | .finWait1, 0x10 | .finWait2, 0x10 => .finWait2
  | .finWait1, 0x01 => .closing
  | .finWait1, 0x11 | .finWait2, 0x11 | .finWait2, 0x01 | .closing, 0x10 => .timeWait
  | .established, _ =>
    if packet.hasRst then .closed
    else if packet.inOrder && packet.hasFin then .closeWait else .established
  | _, _ => .closed

end TCPPacket

/-- A socket and the sender that it should be. -/
structure Connection where
  socket : TCPSocket
  state : TCPState
  retransmitAttempts : Nat
  sender : Sender

/-- The calls on a socket; `accept` is its creation for a SYN that arrived. -/
inductive TCPEvent where
  | connect (number : UInt32) (hasMemory : Bool)
  | accept (hasMemory : Bool)
  | protocolSend (payloadSize : Nat) (hasMemory : Bool)
  | shutDownForWriting
  | close
  | handleTcp (packet : TCPPacket)
  | retransmitPackets
  | timeWaitElapsed

namespace Connection

def maximumRetransmits : Nat := 5

variable (connection : Connection)

/-- A segment that cannot be queued is not sent. -/
def send (segment : Segment) (fin : Bool) : Connection :=
  { connection with
    socket := connection.socket.sendTcpPacket segment
    sender := if segment.hasMemory then connection.sender.send segment fin else connection.sender }

def sendFin (state : TCPState) : Connection :=
  { connection.send ⟨false, 0, true⟩ true with state := state }

def setSequenceNumber (number : UInt32) : Connection :=
  { connection with
    socket := { connection.socket with sequenceNumber := number }
    sender := { connection.sender with nextNumber := number } }

def receiveTcpPacket (packet : TCPPacket) : Connection :=
  if packet.hasAck then
    let socket := connection.socket.receiveTcpPacket (some packet.ackNumber)
    { connection with
      socket := socket
      retransmitAttempts := if socket.packets = [] then 0 else connection.retransmitAttempts
      sender := connection.sender.acknowledge packet.ackNumber }
  else connection

def handleTcp (packet : TCPPacket) : Connection :=
  let received := connection.receiveTcpPacket packet
  let answered :=
    if connection.state = .closed ∧ !packet.hasRst then
      received.setSequenceNumber (if packet.hasAck then packet.ackNumber else 0)
    else if connection.state = .synSent ∧ packet.flags = 0x02 then
      received.send ⟨true, 0, packet.hasMemory⟩ false
    else received
  { answered with state := packet.nextState connection.state }

def apply : TCPEvent → Connection
  | .connect number hasMemory =>
    { (connection.setSequenceNumber number).send ⟨true, 0, hasMemory⟩ false with
      state := if hasMemory then .synSent else connection.state }
  | .accept hasMemory =>
    { (connection.setSequenceNumber 1000).send ⟨true, 0, hasMemory⟩ false with
      state := .synReceived }
  | .protocolSend payloadSize hasMemory => connection.send ⟨false, payloadSize, hasMemory⟩ false
  | .shutDownForWriting =>
    if connection.state = .established then connection.sendFin .finWait1 else connection
  | .close => if connection.state = .closeWait then connection.sendFin .lastAck else connection
  | .handleTcp packet => connection.handleTcp packet
  | .retransmitPackets =>
    { connection with
      retransmitAttempts := connection.retransmitAttempts + 1
      state := if connection.retransmitAttempts < maximumRetransmits then connection.state
        else .closed }
  | .timeWaitElapsed =>
    { connection with state := if connection.state = .timeWait then .closed else connection.state }

/-- The sequence number counts all that was sent, and what is outstanding is
queued. -/
def Counts : Prop := connection.socket.sequenceNumber = connection.sender.nextNumber ∧
    ∀ sent ∈ connection.sender.outstanding, sent.1 ∈ connection.socket.packets

/-- No FIN is sent, there is memory for the queue, queued numbers up to an
acknowledgement also come before it in serial-number order, and the socket does
not give up. -/
def Sure : TCPEvent → Prop
  | .connect _ hasMemory | .accept hasMemory | .protocolSend _ hasMemory => hasMemory
  | .shutDownForWriting => connection.state ≠ .established
  | .close => connection.state ≠ .closeWait
  | .handleTcp packet => packet.hasMemory ∧ (packet.hasAck →
      ∀ queued ∈ connection.socket.packets, queued.ackNumber ≤ packet.ackNumber →
        TCPSocket.atOrBefore queued.ackNumber packet.ackNumber)
  | .retransmitPackets => connection.retransmitAttempts < maximumRetransmits
  | .timeWaitElapsed => True

/-- Runs of a new socket. -/
inductive Run (admits : Connection → TCPEvent → Prop) : Connection → Prop
  | start (listens : Bool) :
      Run admits ⟨⟨0, [], 0⟩, if listens then .listen else .closed, 0, ⟨0, []⟩⟩
  | step {connection : Connection} (run : Run admits connection) (event : TCPEvent)
      (admitted : admits connection event) : Run admits (connection.apply event)

/-- Nothing that is outstanding has a FIN. -/
def Plain : Prop := connection.Counts ∧ ∀ sent ∈ connection.sender.outstanding, sent.2 = false

variable {connection} {event : TCPEvent}

theorem Plain.setSequenceNumber (plain : connection.Plain) (number : UInt32) :
    (connection.setSequenceNumber number).Plain :=
  ⟨⟨rfl, plain.1.2⟩, plain.2⟩

theorem Plain.send (plain : connection.Plain) {segment : Segment} (memory : segment.hasMemory)
    (noPayload : segment.syn → segment.payloadSize = 0) :
    (connection.send segment false).Plain := by
  obtain ⟨syn, payloadSize, _⟩ := segment
  obtain ⟨⟨number, queued⟩, noFin⟩ := plain
  cases syn with
  | true =>
    obtain rfl : payloadSize = 0 := noPayload rfl
    simp [Plain, Counts, Connection.send, TCPSocket.sendTcpPacket, Sender.send, Segment.length]
    grind
  | false =>
    rcases payloadSize.eq_zero_or_pos with rfl | pos <;>
      simp [Plain, Counts, Connection.send, TCPSocket.sendTcpPacket, Sender.send, Segment.length,
        *] <;> grind

theorem mem_removeAcked (member : queued ∈ packets) (notAcked : ¬ queued.ackNumber ≤ ackNumber) :
    queued ∈ (TCPSocket.removeAcked ackNumber packets size).1 := by
  fun_induction TCPSocket.removeAcked with
  | case1 => cases member
  | case2 packet packets size acked ih =>
    refine ih ((List.mem_cons.mp member).resolve_left ?_)
    rintro rfl
    exact notAcked acked
  | case3 => exact member

theorem Plain.receiveTcpPacket (plain : connection.Plain)
    (sure : connection.Sure (.handleTcp packet)) : (connection.receiveTcpPacket packet).Plain := by
  obtain ⟨⟨number, queued⟩, noFin⟩ := plain
  rw [Connection.receiveTcpPacket]
  split_ifs with acks
  · refine ⟨⟨number, fun sent member => ?_⟩,
      fun sent member => noFin sent (List.mem_of_mem_filter member)⟩
    obtain ⟨before, notAcked⟩ := List.mem_filter.mp member
    refine mem_removeAcked (queued sent before) fun acked => ?_
    simp [sure.2 acks sent.1 (queued sent before) acked] at notAcked
  · exact ⟨⟨number, queued⟩, noFin⟩

theorem Plain.apply (plain : connection.Plain) (sure : connection.Sure event) :
    (connection.apply event).Plain := by
  cases event with
  | connect number => exact (plain.setSequenceNumber number).send sure fun _ => rfl
  | accept => exact (plain.setSequenceNumber 1000).send sure fun _ => rfl
  | protocolSend => exact plain.send sure nofun
  | shutDownForWriting | close => rwa [Connection.apply, if_neg sure]
  | retransmitPackets | timeWaitElapsed => exact plain
  | handleTcp packet =>
    have received := plain.receiveTcpPacket sure
    rw [Connection.apply, handleTcp]
    generalize (if packet.hasAck then packet.ackNumber else 0) = number
    split_ifs
    · exact received.setSequenceNumber number
    · exact received.send sure.1 fun _ => rfl
    · exact received

theorem Run.plain (run : Run Sure connection) : connection.Plain := by
  induction run with
  | start => exact ⟨⟨rfl, nofun⟩, nofun⟩
  | step _ event sure plain => exact plain.apply sure

end Connection

end MixUpOS.Kernel
