import ByteKV.Networking
import Mathlib.Logic.Function.Basic

/-! The table of connections and the callbacks that see more than one slot of it:
`on_accept` and the timeout sweep of networking.c, dispatched as `el_run` does. -/
namespace ByteKV.EventLoop
open Config ServerState Networking

/-- The two descriptors that are not connections. -/
structure Sockets where
  serverFd : Nat
  pipeFd : Nat
  ne : serverFd ≠ pipeFd

/-- `server.clients` with the handler tables of the event loop; `lastTimeoutCheckMs` is
the static variable of `client_timeouts_cron`. -/
structure Net where
  host : Host
  clientsCount : Nat
  slots : Nat → Slot
  sockets : Sockets
  lastTimeoutCheckMs : Int

def initNet (h : Host) (sockets : Sockets) : Net where
  host := h
  clientsCount := 0
  slots := Function.update
    (Function.update (fun _ => {}) sockets.serverFd { readHandler := some .onAccept })
    sockets.pipeFd { readHandler := some .onShutdown }
  sockets := sockets
  lastTimeoutCheckMs := 0

def Net.conn (net : Net) (fd : Nat) : Conn :=
  { net.slots fd with host := net.host, clientsCount := net.clientsCount }

def Net.put (net : Net) (fd : Nat) (s : Conn) : Net :=
  { net with
    host := s.host
    clientsCount := s.clientsCount
    slots := Function.update net.slots fd s.toSlot }

structure AcceptIo where
  accepted : Option Nat
  nonBlocking : Bool := true
  registered : Bool := true

/-- The slot is initialized, and then registered or taken back. -/
def acceptClient (registered : Bool) (s : Conn) : Conn :=
  let s := { s with
    client := { active := true, lastActiveMs := s.host.nowMs }
    clientsCount := s.clientsCount + 1
    received := []
    sent := []
    queued := []
    handed := [] }
  if registered then { s with readHandler := some .onRead }
  else { s with client := {}, clientsCount := s.clientsCount - 1 }

def onAccept (io : AcceptIo) (net : Net) : Net :=
  match io.accepted with
  | none => net
  | some fd =>
      if maxFds ≤ fd then net
      else if io.nonBlocking = false then net
      else net.put fd (acceptClient io.registered (net.conn fd))

def timeoutLoop : (fds : List Nat) → (found : Nat) → Net → Net
  | [], _, net => net
  | i :: fds, found, net =>
      if found < net.clientsCount then
        if (net.slots i).client.active = false then timeoutLoop fds found net
        else
          let idleS := (net.host.nowMs - (net.slots i).client.lastActiveMs).tdiv 1000
          let net := if net.host.config.clientTimeoutS ≤ idleS then
            net.put i (removeClient (net.conn i)) else net
          timeoutLoop fds (found + 1) net
      else net

def checkClientTimeouts (net : Net) : Net := timeoutLoop (List.range maxFds) 0 net

def clientTimeoutsCron (net : Net) : Net :=
  let intervalMs := (net.host.config.clientTimeoutCheckHz * 1000).tdiv net.host.config.hz
  if net.host.nowMs - net.lastTimeoutCheckMs < intervalMs then net
  else checkClientTimeouts { net with lastTimeoutCheckMs := net.host.nowMs }

inductive Event
  | accept (io : AcceptIo)
  | readable (fd : Nat) (out : ReadOutcome) (ios : List FrameIo)
  | writable (fd : Nat) (out : SendOutcome) (ios : List FrameIo)
  | timeouts
  | elsewhere (h : Host)

/-- accept(2) does not return a descriptor that is open. -/
def Net.isOpen (net : Net) (fd : Nat) : Bool :=
  (net.slots fd).client.active || fd = net.sockets.serverFd || fd = net.sockets.pipeFd

def step (net : Net) : Event → Net
  | .accept io =>
      if (net.slots net.sockets.serverFd).readHandler ≠ some .onAccept then net
      else if io.accepted.any net.isOpen then net
      else onAccept io net
  | .readable fd out ios => net.put fd (Networking.step (net.conn fd) (.readable out ios))
  | .writable fd out ios => net.put fd (Networking.step (net.conn fd) (.writable out ios))
  | .timeouts => clientTimeoutsCron net
  | .elsewhere h => { net with host := h }

def run (net : Net) (events : List Event) : Net := Transition.run step net events

end ByteKV.EventLoop
