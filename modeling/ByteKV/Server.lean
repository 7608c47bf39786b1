import ByteKV.Accounting
import ByteKV.ConnectionTable
import ByteKV.Emission
import ByteKV.RequestSpec
import ByteKV.Shutdown

/-! The whole server: the table of connections and the persistent host behind it, as `el_run`
drives them. A pass of the loop starts with `before_sleep`, and the callbacks of the kevent
batch follow; the rewrite child and the signals come in between. -/
namespace ByteKV.Server
open Config ServerState AofAppend AofRewrite Command Accounting RequestSpec
open EventLoop hiding Event step run
open Networking (Slot Conn Call ReadOutcome SendOutcome FrameIo Handler)
open ServerRun (TickIo activeExpireCron)
open Transition Emission

/-- `before_sleep` in full, with the timeouts between the sweep and the log. -/
def beforeSleep (nowMs nowRealtimeMs : Int) (io : TickIo) (net : Net) : Net :=
  let net := { net with
    host := { net.host with
      nowMs := nowMs, nowRealtimeMs := nowRealtimeMs, cronloops := net.host.cronloops + 1 } }
  let net := { net with host := activeExpireCron io net.host }
  let net := clientTimeoutsCron net
  let net := { net with host := aofCron io.flushed net.host }
  { net with host := aofRewriteCron io.cron net.host }

/-- What happens to the process while the loop is anywhere. -/
inductive Outside
  | child (realtimeMs : Int) (io : ChildIo)
  | childKilled
  | childSignal
  | signal

def Outside.event : Outside → ServerRun.Event
  | .child realtimeMs io => .child realtimeMs io
  | .childKilled => .childKilled
  | .childSignal => .childSignal
  | .signal => .signal

inductive Event
  | tick (nowMs nowRealtimeMs : Int) (io : TickIo)
  | accept (io : AcceptIo)
  | readable (fd : Nat) (out : ReadOutcome) (ios : List FrameIo)
  | writable (fd : Nat) (out : SendOutcome) (ios : List FrameIo)
  | shutdown
  | outside (o : Outside)

/-- `el_run` looks at `stop` before each pass, and not between the callbacks of one. -/
def step (net : Net) : Event → Net
  | .tick nowMs nowRealtimeMs io =>
      if net.host.exited then net
      else if net.host.elStop then { net with host := { net.host with exited := true } }
      else beforeSleep nowMs nowRealtimeMs io net
  | .accept io => if net.host.exited then net else EventLoop.step net (.accept io)
  | .readable fd out ios =>
      if net.host.exited then net else EventLoop.step net (.readable fd out ios)
  | .writable fd out ios =>
      if net.host.exited then net else EventLoop.step net (.writable fd out ios)
  | .shutdown =>
      if (net.slots net.sockets.pipeFd).readHandler = some .onShutdown then
        { net with host := ServerRun.step net.host .shutdown }
      else net
  | .outside o => { net with host := ServerRun.step net.host o.event }

def run (net : Net) (events : List Event) : Net := Transition.run step net events

/-! What the events do to the host. -/

def newCalls (net net' : Net) (fd : Nat) : List Call :=
  (net'.slots fd).handed.drop (net.slots fd).handed.length

def requests : List FrameIo → List Call → List ServerRun.Event
  | _, [] => []
  | ios, call :: calls => .request call.payload (ios.headD {}).request :: requests ios.tail calls

def hostEvents (net : Net) (e : Event) : List ServerRun.Event :=
  match e with
  | .tick nowMs nowRealtimeMs io => [.tick nowMs nowRealtimeMs io]
  | .accept _ => []
  | .readable fd _ ios | .writable fd _ ios => requests ios (newCalls net (step net e) fd)
  | .shutdown =>
      if (net.slots net.sockets.pipeFd).readHandler = some .onShutdown then [.shutdown] else []
  | .outside o => [o.event]

theorem clientTimeoutsCron_host (net : Net) : (clientTimeoutsCron net).host = net.host := by
  simp only [clientTimeoutsCron]
  split
  · rfl
  · exact ConnectionTable.timeoutLoop_induct (I := fun g => g.host = net.host)
      (fun g fd _ same => same) _ _ rfl

theorem beforeSleep_host (nowMs nowRealtimeMs : Int) (io : TickIo) (net : Net) :
    (beforeSleep nowMs nowRealtimeMs io net).host =
      ServerRun.beforeSleep nowMs nowRealtimeMs io net.host := by
  simp only [beforeSleep, clientTimeoutsCron_host, ServerRun.beforeSleep]

theorem run_requests {h h' : Host} {ios : List FrameIo} {calls : List Call}
    (exec : Executes h ios calls h') (running : h.exited = false) :
    ServerRun.run h (requests ios calls) = h' := by
  induction exec with
  | nil h ios => rfl
  | @cons h h' ios call calls legal answer rest ih =>
    have stays := (commandExecute_frame (ios.headD {}).request h call.payload).2
    have here : ServerRun.step h (.request call.payload (ios.headD {}).request) =
        (commandExecute (ios.headD {}).request h call.payload msgMax).1 := by
      have clear : ¬ (h.exited = true ∨ msgMax < call.payload.length) := by
        rw [running]
        simp only [Bool.false_eq_true, false_or]
        omega
      rw [ServerRun.step, if_neg clear]
    rw [requests, ServerRun.run, Transition.run_cons, here]
    exact ih (stays.trans running)

theorem newCalls_eq {net net' : Net} {fd : Nat} {calls : List Call}
    (handed : (net'.slots fd).handed = (net.slots fd).handed ++ calls) :
    newCalls net net' fd = calls := by
  rw [newCalls, handed, List.drop_left]

/-- A callback of a connection hands over calls, which run in a row, and touches no other slot. -/
structure Called (net net' : Net) (fd : Nat) (ios : List FrameIo) : Prop where
  handed : (net'.slots fd).handed = (net.slots fd).handed ++ newCalls net net' fd
  executes : Executes net.host ios (newCalls net net' fd) net'.host
  others : ∀ i, i ≠ fd → net'.slots i = net.slots i

theorem put_called {net : Net} {fd : Nat} {ios : List FrameIo} {s : Conn} {calls : List Call}
    (handed : s.handed = (net.slots fd).handed ++ calls)
    (exec : Executes net.host ios calls s.host) : Called net (net.put fd s) fd ios := by
  have here : ((net.put fd s).slots fd).handed = (net.slots fd).handed ++ calls := by
    simp only [Net.put, Function.update_self, handed]
  have fresh := newCalls_eq here
  refine ⟨fresh.symm ▸ here, ?_, fun i other => ?_⟩
  · rw [fresh]
    exact exec
  · simp only [Net.put, Function.update_of_ne other]

theorem same_called (net : Net) (fd : Nat) (ios : List FrameIo) : Called net net fd ios := by
  have fresh : newCalls net net fd = [] := newCalls_eq (List.append_nil _).symm
  refine ⟨?_, ?_, fun _ _ => rfl⟩
  · rw [fresh, List.append_nil]
  · rw [fresh]
    exact .nil _ _

theorem readable_called (net : Net) (fd : Nat) (out : ReadOutcome) (ios : List FrameIo) :
    Called net (step net (.readable fd out ios)) fd ios := by
  simp only [step]
  split
  · exact same_called net fd ios
  · simp only [EventLoop.step, Networking.step]
    split
    · obtain ⟨calls, handed, exec, -⟩ := onRead_ran out ios (net.conn fd)
      exact put_called handed exec
    · rw [ConnectionTable.put_conn]
      exact same_called net fd ios

theorem writable_called (net : Net) (fd : Nat) (out : SendOutcome) (ios : List FrameIo) :
    Called net (step net (.writable fd out ios)) fd ios := by
  simp only [step]
  split
  · exact same_called net fd ios
  · simp only [EventLoop.step, Networking.step]
    split
    · obtain ⟨calls, handed, exec, -⟩ := onWrite_ran out ios (net.conn fd)
      exact put_called handed exec
    · rw [ConnectionTable.put_conn]
      exact same_called net fd ios

theorem onAccept_host (io : AcceptIo) (net : Net) : (onAccept io net).host = net.host := by
  unfold onAccept
  split
  · rfl
  · split
    · rfl
    · split
      · rfl
      · simp only [Net.put, acceptClient]
        split <;> rfl

theorem step_host (net : Net) (e : Event) :
    (step net e).host = ServerRun.run net.host (hostEvents net e) := by
  have called {fd : Nat} {ios : List FrameIo} {net' : Net} (called : Called net net' fd ios)
      (ended : net.host.exited = true → net' = net) :
      net'.host = ServerRun.run net.host (requests ios (newCalls net net' fd)) := by
    cases running : net.host.exited with
    | true =>
      obtain rfl := ended running
      rw [newCalls, List.drop_length]
      rfl
    | false => exact (run_requests called.executes running).symm
  cases e with
  | tick nowMs nowRealtimeMs io =>
    simp only [step, hostEvents, ServerRun.run, Transition.run_cons, Transition.run_nil,
      ServerRun.step]
    split
    · rfl
    · split
      · rfl
      · exact beforeSleep_host nowMs nowRealtimeMs io net
  | accept io =>
    simp only [step, hostEvents, ServerRun.run, Transition.run_nil]
    split
    · rfl
    · simp only [EventLoop.step]
      split
      · rfl
      · split
        · rfl
        · exact onAccept_host io net
  | readable fd out ios =>
    exact called (readable_called net fd out ios) fun ended => by simp only [step, if_pos ended]
  | writable fd out ios =>
    exact called (writable_called net fd out ios) fun ended => by simp only [step, if_pos ended]
  | shutdown =>
    simp only [step, hostEvents]
    split <;> rfl
  | outside o => rfl

/-- Behind the sockets the server is the machine of requests and ticks: the calls its
connections hand over are the requests, in the order in which they run. -/
theorem run_host (net : Net) (events : List Event) :
    (run net events).host = ServerRun.run net.host (emitted step hostEvents net events) :=
  run_emitted (f := fun net : Net => net.host) step_host net events

theorem beforeSleep_induct {I : Net → Prop}
    (rehost : ∀ net h lastTimeoutCheckMs, I net →
      I { net with host := h, lastTimeoutCheckMs := lastTimeoutCheckMs })
    (remove : ∀ net fd, I net → I (net.put fd (Networking.removeClient (net.conn fd))))
    (nowMs nowRealtimeMs : Int) (io : TickIo) {net : Net} (start : I net) :
    I (beforeSleep nowMs nowRealtimeMs io net) := by
  have timeouts (g : Net) (start : I g) : I (clientTimeoutsCron g) := by
    simp only [clientTimeoutsCron]
    split
    · exact start
    · exact ConnectionTable.timeoutLoop_induct (fun g fd _ kept => remove g fd kept) _ _
        (rehost g g.host g.host.nowMs start)
  simp only [beforeSleep]
  exact rehost _ _ _ (timeouts _ (rehost net _ net.lastTimeoutCheckMs start))

/-! The books of all connections. -/

def AllBooked (net : Net) : Prop := ∀ fd, Booked (net.conn fd)

theorem AllBooked.put {net : Net} (all : AllBooked net) {fd : Nat} {s : Conn} (booked : Booked s) :
    AllBooked (net.put fd s) := by
  intro i
  by_cases same : i = fd
  · subst same
    have here : (net.put i s).conn i = s := by simp only [Net.conn, Net.put, Function.update_self]
    rw [here]
    exact booked
  · have there : (net.put fd s).conn i =
        { net.conn i with host := s.host, clientsCount := s.clientsCount } := by
      simp only [Net.conn, Net.put, Function.update_of_ne same]
    rw [there]
    exact (all i).elsewhere _ _

theorem AllBooked.rehost {net : Net} (all : AllBooked net) (h : Host) (lastTimeoutCheckMs : Int) :
    AllBooked { net with host := h, lastTimeoutCheckMs := lastTimeoutCheckMs } :=
  fun fd => (all fd).elsewhere h net.clientsCount

theorem initNet_allBooked (h : Host) (sockets : Sockets) : AllBooked (initNet h sockets) := by
  have idle (fd : Nat) : ((initNet h sockets).slots fd).client = {} := by
    simp only [initNet, Function.update_apply]
    split
    · rfl
    · split <;> rfl
  intro fd
  refine ⟨?_, fun active => ?_⟩
  · change ((initNet h sockets).slots fd).client.woff ≤
      ((initNet h sockets).slots fd).client.wbuf.length
    rw [idle]
    exact Nat.le_refl 0
  · change ((initNet h sockets).slots fd).client.active = true at active
    rw [idle] at active
    cases active

theorem acceptClient_booked (registered : Bool) (s : Conn) :
    Booked (acceptClient registered s) := by
  cases registered with
  | false => exact ⟨Nat.le_refl 0, nofun⟩
  | true =>
    refine ⟨Nat.le_refl 0,
      fun _ => ⟨fun c member => ?_, rfl, rfl, List.isChain_nil, fun c last => ?_⟩⟩
    · exact absurd member List.not_mem_nil
    · exact absurd last (by simp [acceptClient])

theorem step_allBooked {net : Net} (all : AllBooked net) (e : Event) : AllBooked (step net e) := by
  have table {e : EventLoop.Event} (all : AllBooked net) : AllBooked (EventLoop.step net e) := by
    have out := ConnectionTable.stepped net e
    generalize EventLoop.step net e = net' at out ⊢
    cases out with
    | same => exact all
    | accepted io closed =>
      rcases ConnectionTable.onAccept_cases closed with eq | ⟨fd, -, -, -, -, eq⟩
      · rw [eq]
        exact all
      · rw [eq]
        exact all.put (acceptClient_booked io.registered _)
    | read fd out ios handler => exact all.put (onRead_booked out ios (all fd))
    | wrote fd out ios handler => exact all.put (onWrite_booked out ios (all fd))
    | swept =>
      exact ConnectionTable.timeoutLoop_induct (fun g fd _ all => all.put (removeClient_booked _)) _ _
        (all.rehost net.host net.host.nowMs)
    | elsewhere h => exact all.rehost h net.lastTimeoutCheckMs
  cases e with
  | tick nowMs nowRealtimeMs io =>
    simp only [step]
    split
    · exact all
    · split
      · exact all.rehost _ _
      · exact beforeSleep_induct (fun net h ms all => all.rehost h ms)
          (fun net fd all => all.put (removeClient_booked _)) nowMs nowRealtimeMs io all
  | accept io | readable fd out ios | writable fd out ios =>
    simp only [step]
    split
    · exact all
    · exact table all
  | shutdown =>
    simp only [step]
    split
    · exact all.rehost _ _
    · exact all
  | outside o => exact all.rehost _ _

theorem run_allBooked (h : Host) (sockets : Sockets) (events : List Event) :
    AllBooked (run (initNet h sockets) events) := by
  have keep (net : Net) (e : Event) (all : AllBooked net) : AllBooked (step net e) :=
    step_allBooked all e
  exact run_invariant_always keep (initNet_allBooked h sockets) events

/-- Whatever arrives and whatever fails, each connection has received the frames it was
answered for and what is still in its buffer, and is owed exactly the answers that found room;
a call that found none is repeated by the next one. -/
theorem run_ledger (h : Host) (sockets : Sockets) (events : List Event) {fd : Nat}
    (active : ((run (initNet h sockets) events).slots fd).client.active = true) :
    Ledger ((run (initNet h sockets) events).conn fd) :=
  (run_allBooked h sockets events fd).ledger active

def oneAndABit : List Event :=
  [.accept { accepted := some 5 },
    .readable 5 (.got (Framing.frame frameHdrSize (ascii "PING") ++ [0, 0])) []]

theorem run_ledger_oneAndABit :
    Ledger ((run (initNet (ServerRun.firstHost {}) ⟨3, 4, by decide⟩) oneAndABit).conn 5) :=
  run_ledger (ServerRun.firstHost {}) ⟨3, 4, by decide⟩ oneAndABit (by decide +kernel)

end ByteKV.Server
