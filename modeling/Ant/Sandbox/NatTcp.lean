import Mathlib.Algebra.Group.Nat.Defs
import Mathlib.Data.List.Basic

/-! The TCP connections of the sandbox's network translation, from the guest to the host socket. Beside
the fields of a connection stand the bytes that the socket got, whether it was shut down, and the places
of the guest's stream that the numbers stand for. Of the other direction only the numbers are kept. -/
namespace Ant.Sandbox.NatTcp

abbrev Bytes := List Nat

inductive TcpState where
  | unused
  | connectingHost
  | connectingGuest
  | established
  | halfClosed
  deriving DecidableEq,Repr

/-- Whether the addresses are there by which a segment finds its connection is `known`. -/
structure Connection where
  state : TcpState
  known : Bool
  fd : Bool
  guestNext : Nat
  natNext : Nat
  guestAck : Nat
  guestWindow : Nat
  guestFinSeen : Bool
  hostEof : Bool
  hostFinSent : Bool
  pending : Bytes
  hostBase : Nat
  hostLen : Nat
  hostSent : Nat
  deriving DecidableEq,Repr

def Connection.zero : Connection := ⟨.unused,false,false,0,0,0,0,false,false,false,[],0,0,0⟩

/-- A connection with what is seen of it: the bytes written, the shutdown, the place of the stream that
`guestNext` stands for once it was taken from a segment, and the furthest place acknowledged. -/
structure World where
  c : Connection
  written : Bytes
  shut : Bool
  synced : Bool
  covered : Nat
  acknowledged : Nat
  deriving DecidableEq,Repr

def streamBufferLimit : Nat := 1024 * 1024

def mss : Nat := 1380

def defaultWindow : Nat := 32768

def sub32 (a b : Nat) : Nat := (a + 2^32 - b % 2^32) % 2^32

def ahead (a b : Nat) : Bool := 0 < sub32 a b && sub32 a b < 2^31

def sendAck (w : World) : World := if w.c.known then {w with acknowledged := max w.acknowledged w.covered} else w

def closeTcp (w : World) : World := {w with c := .zero}

def closeFd (w : World) : World := {w with c := {w.c with fd := false, state := .halfClosed, pending := []}}

def hostSentSeq (c : Connection) : Nat := (c.hostBase + c.hostSent) % 2^32

def dropGuestAcked (c : Connection) : Connection :=
  if c.hostLen = 0 then {c with hostBase := if ahead c.guestAck c.hostBase then c.guestAck else c.hostBase, hostSent := 0}
  else if ahead c.guestAck c.hostBase = false then c
  else
    let acked := min (sub32 c.guestAck c.hostBase) c.hostLen
    let dropped := {c with hostLen := c.hostLen - acked, hostBase := (c.hostBase + acked) % 2^32, hostSent := c.hostSent - acked}
    if dropped.hostLen = 0 then {dropped with hostBase := c.guestAck, hostSent := 0} else dropped

def windowOf (c : Connection) : Nat := if c.guestWindow = 0 then defaultWindow else c.guestWindow

/-- The packets that the guest's window takes; each carries an acknowledgement. The first argument
bounds their number. -/
def sendChunks : Nat → World → World
  | 0,w => w
  | fuel+1,w =>
    let inFlight := sub32 (hostSentSeq w.c) w.c.guestAck
    if w.c.hostSent < w.c.hostLen && inFlight < windowOf w.c then
      let chunk := min (min (w.c.hostLen - w.c.hostSent) mss) (windowOf w.c - inFlight)
      let next := {w.c with hostSent := w.c.hostSent + chunk, natNext := (hostSentSeq w.c + chunk) % 2^32}
      sendChunks fuel {sendAck w with c := next}
    else w

def sendHostBuffer (w : World) : World :=
  let dropped := {w with c := dropGuestAcked w.c}
  let sent := sendChunks dropped.c.hostLen dropped
  if sent.c.hostEof && !sent.c.hostFinSent && sent.c.hostSent = sent.c.hostLen then
    {sendAck sent with c := {sent.c with hostFinSent := true, natNext := (sent.c.hostBase + sent.c.hostLen + 1) % 2^32}}
  else sent

/-- What a write on the host socket does; one that writes takes at least a byte. -/
inductive Write where
  | wrote (more : Nat)
  | interrupted
  | wouldBlock
  | failed
  deriving DecidableEq,Repr

def writeSome (count : Nat) (w : World) : World :=
  {w with written := w.written ++ w.c.pending.take count, c := {w.c with pending := w.c.pending.drop count}}

/-- The socket blocks where the outcomes end. -/
def flushPending : List Write → World → World
  | [],w => w
  | outcome :: outcomes,w =>
    if w.c.fd && w.c.pending ≠ [] && w.c.state ≠ .connectingHost then
      match outcome with
      | .wrote more => flushPending outcomes (writeSome (more + 1) w)
      | .interrupted => flushPending outcomes w
      | .wouldBlock => w
      | .failed => closeTcp w
    else w

inductive Read where
  | data (more : Nat)
  | eof
  | interrupted
  | wouldBlock
  | failed
  deriving DecidableEq,Repr

def tcpFromHost : List Read → World → World
  | [],w => w
  | outcome :: outcomes,w =>
    if streamBufferLimit ≤ w.c.hostLen then w
    else match outcome with
      | .data more =>
        let based := if w.c.hostLen = 0 && w.c.hostSent = 0 then w.c.natNext else w.c.hostBase
        tcpFromHost outcomes (sendHostBuffer {w with c := {w.c with hostBase := based, hostLen := w.c.hostLen + more + 1}})
      | .eof => sendHostBuffer (closeFd {w with c := {w.c with hostEof := true}})
      | .interrupted => tcpFromHost outcomes w
      | .wouldBlock => w
      | .failed => closeTcp w

def checkConnect (connected : Bool) (outcomes : List Write) (w : World) : World :=
  if w.c.state ≠ .connectingHost then w
  else if connected then flushPending outcomes {w with c := {w.c with state := .established}}
  else closeTcp w

structure Segment (stream : Bytes) where
  offset : Nat
  length : Nat
  fin : Bool
  inside : offset + length ≤ stream.length
  last : fin = true → offset + length = stream.length

inductive Input (stream : Bytes) where
  | segment (s : Segment stream) (ack : Option Nat) (window : Nat) (memory : Bool) (outcomes : List Write)
  | synAck (ack window : Nat)
  | reset
  | writable (connected : Bool) (first second : List Write)
  | readable (outcomes : List Read)
  | error

section Steps
variable {stream : Bytes} (iss : Nat)

def seqOf (place : Nat) : Nat := (iss + 1 + place) % 2^32

def payload (s : Segment stream) : Bytes := (stream.drop s.offset).take s.length

def appendPending (c : Connection) (memory : Bool) (data : Bytes) : Option Connection :=
  if streamBufferLimit - c.pending.length < data.length || !memory then none else some {c with pending := c.pending ++ data}

def advance (number current : Nat) : Nat := if ahead number current then number else current

def takeAck (ack : Option Nat) (window : Nat) (w : World) : World :=
  let updated := {w with c := {w.c with guestWindow := window}}
  match ack with
  | none => updated
  | some number =>
    let noted := {updated with c := {updated.c with guestAck := advance number w.c.guestAck}}
    if advance number w.c.guestAck ≠ w.c.guestAck || window ≠ w.c.guestWindow then sendHostBuffer {noted with c := dropGuestAcked noted.c} else noted

def expect (next place : Nat) (w : World) : World := {w with c := {w.c with guestNext := next}, covered := place, synced := true}

/-- The end of a segment's data is expected next, whatever its number is. -/
def expectEnd (s : Segment stream) (w : World) : World :=
  expect ((seqOf iss s.offset + s.length) % 2^32) (s.offset + s.length) w

def takeData (s : Segment stream) (memory : Bool) (outcomes : List Write) (w : World) : Option World :=
  if s.length = 0 then some w
  else
    let expecting := expectEnd iss s w
    if w.c.fd && !w.c.guestFinSeen then
      (appendPending expecting.c memory (payload s)).map fun appended => flushPending outcomes (sendAck {expecting with c := appended})
    else some (flushPending outcomes (sendAck expecting))

/-- The number behind the end, unless it is below the present one as a plain number. -/
def expectFin (s : Segment stream) (w : World) : World :=
  let finNext := (seqOf iss s.offset + s.length + 1) % 2^32
  if w.c.guestNext < finNext then expect finNext (s.offset + s.length + 1) w else w

def takeFin (s : Segment stream) (w : World) : World :=
  if s.fin then
    let expecting := expectFin iss s w
    let ended := sendAck {expecting with c := {expecting.c with guestFinSeen := true, state := .halfClosed}, shut := w.shut || w.c.fd}
    if ended.c.hostFinSent && ended.c.natNext ≤ ended.c.guestAck then closeTcp ended else ended
  else if w.c.hostFinSent && w.c.guestFinSeen && w.c.natNext ≤ w.c.guestAck then closeTcp w
  else w

def handleTcp (s : Segment stream) (ack : Option Nat) (window : Nat) (memory : Bool) (outcomes : List Write) (w : World) : World :=
  let acked := takeAck ack window w
  match takeData iss s memory outcomes acked with
  | none => expectEnd iss s acked
  | some taken => takeFin iss s taken

def takeSyn (ack window : Nat) (w : World) : World :=
  if w.c.state = .connectingGuest then
    let expecting := expect (seqOf iss 0) 0 w
    sendAck {expecting with c := dropGuestAcked {expecting.c with state := .established, guestAck := ack, guestWindow := window}}
  else if w.c.hostFinSent && w.c.guestFinSeen && w.c.natNext ≤ w.c.guestAck then closeTcp w
  else w

def handleSynAck (ack window : Nat) (w : World) : World := takeSyn iss ack window (takeAck (some ack) window w)

def step (input : Input stream) (w : World) : World :=
  match input with
  | .segment s ack window memory outcomes => if w.c.known then handleTcp iss s ack window memory outcomes w else w
  | .synAck ack window => if w.c.known then handleSynAck iss ack window w else w
  | .reset => if w.c.known then closeTcp w else w
  | .writable connected first second =>
    if w.c.fd then
      let checked := checkConnect connected first w
      if checked.c.state = .unused then checked else flushPending second checked
    else w
  | .readable outcomes => if w.c.fd then tcpFromHost outcomes w else w
  | .error => if w.c.fd then closeTcp w else w

def openOutbound (natIss window : Nat) (connected : Bool) : World :=
  ⟨⟨if connected then .established else .connectingHost,true,true,seqOf iss 0,(natIss + 1) % 2^32,natIss,window,
    false,false,false,[],(natIss + 1) % 2^32,0,0⟩,[],false,true,0,0⟩

def openInbound (natIss : Nat) : World :=
  ⟨⟨.connectingGuest,true,true,0,(natIss + 1) % 2^32,natIss,65535,false,false,false,[],(natIss + 1) % 2^32,0,0⟩,[],false,false,0,0⟩

end Steps

end Ant.Sandbox.NatTcp
