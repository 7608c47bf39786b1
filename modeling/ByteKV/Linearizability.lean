import ByteKV.Server

/-! The server as one expiring store. Every run, with any number of connections and with the
ticks and the rewrites in between, is a history of the abstract store, in the order in which the
calls run; each connection is told what the store replies to it. -/
namespace ByteKV.Linearizability
open Config Database AofRecord ServerState AofAppend AofRewrite Command Accounting RequestSpec Server
open ExpiringLog ExpiringStore Emission LiveKeys
open EventLoop (Net initNet Sockets AcceptIo)
open Networking (Call FrameIo Conn)
open ServerRun (TickIo)

def store (net : Net) : Store Bytes Bytes Int := ⟨net.host.db.cells, net.host.nowRealtimeMs⟩

def callLabels (fd : Nat) : Host → List FrameIo → List Call → List (Label Nat Bytes Bytes Int)
  | _, _, [] => []
  | h, ios, call :: calls =>
      .called fd h.nowRealtimeMs (query h.nowRealtimeMs call.payload) (reply h call.payload).1 ::
        callLabels fd (commandExecute (ios.headD {}).request h call.payload msgMax).1 ios.tail calls

def opened (net : Net) (io : AcceptIo) : Option Nat :=
  if net.host.exited then none
  else if (net.slots net.sockets.serverFd).readHandler ≠ some .onAccept then none
  else if io.accepted.any net.isOpen then none
  else io.accepted.filter fun fd => fd < maxFds ∧ io.nonBlocking = true

def labels (net : Net) (e : Event) : List (Label Nat Bytes Bytes Int) :=
  match e with
  | .tick _ nowRealtimeMs _ =>
      if net.host.exited ∨ net.host.elStop then [] else [.ticked nowRealtimeMs]
  | .accept io => (opened net io).toList.map .opened
  | .readable fd _ ios | .writable fd _ ios =>
      callLabels fd net.host ios (newCalls net (step net e) fd)
  | .shutdown => []
  | .outside _ => []

def history (net : Net) (events : List Event) : List (Label Nat Bytes Bytes Int) :=
  emitted step labels net events

/-- The sweep of a tick, if there is one, finds the keys it has freed unchanged. -/
def Sound (net : Net) : Event → Prop
  | .tick _ nowRealtimeMs io => net.host.config.activeExpireEnabled = false ∨
      ∀ key, past nowRealtimeMs (net.host.db.cells.due key) → io.released key = key
  | _ => True

structure Heard (call : Call) (exchange : Exchange Bytes Bytes Int) : Prop where
  query : exchange.query = query exchange.time call.payload
  worded : Worded exchange.time call.payload exchange.reply call.response

/-! Calls. -/

theorem calls_path (fd : Nat) {h h' : Host} {ios : List FrameIo} {calls : List Call}
    (exec : Executes h ios calls h') :
    Path Step ⟨h.db.cells, h.nowRealtimeMs⟩ (callLabels fd h ios calls)
      ⟨h'.db.cells, h'.nowRealtimeMs⟩ := by
  induction exec with
  | nil h ios => exact .nil _
  | @cons h h' ios call calls legal answer rest ih =>
    have cells := (commandExecute_answered (ios.headD {}).request h call.payload).2
    have clock := (commandExecute_frame (ios.headD {}).request h call.payload).1
    have first : Step ⟨h.db.cells, h.nowRealtimeMs⟩ _ ⟨(reply h call.payload).2, h.nowRealtimeMs⟩ :=
      .called fd ⟨h.db.cells, h.nowRealtimeMs⟩ (query h.nowRealtimeMs call.payload) (keys h)
        (keys_lists h)
    rw [cells, clock] at ih
    exact .cons first ih

theorem calls_heard (fd : Nat) {h h' : Host} {ios : List FrameIo} {calls done : List Call}
    {talk : List (Exchange Bytes Bytes Int)} (exec : Executes h ios calls h')
    (told : List.Forall₂ Heard done talk) :
    List.Forall₂ Heard (done ++ calls) (conversation fd talk (callLabels fd h ios calls)) := by
  induction exec generalizing done talk with
  | nil h ios => rwa [List.append_nil]
  | @cons h h' ios call calls legal answer rest ih =>
    have worded := (commandExecute_answered (ios.headD {}).request h call.payload).1
    rw [← answer] at worded
    have heard : Heard call ⟨h.nowRealtimeMs, query h.nowRealtimeMs call.payload,
        (reply h call.payload).1⟩ := ⟨rfl, worded⟩
    have next := ih (List.rel_append told (.cons heard .nil))
    rw [List.append_assoc, List.singleton_append] at next
    simpa only [callLabels, conversation, List.foldl_cons, heard_called_self] using next

theorem calls_elsewhere {fd i : Nat} (other : fd ≠ i) (h : Host) (ios : List FrameIo)
    (calls : List Call) (talk : List (Exchange Bytes Bytes Int)) :
    conversation i talk (callLabels fd h ios calls) = talk := by
  induction calls generalizing h ios with
  | nil => rfl
  | cons call calls ih =>
    rw [callLabels, conversation, List.foldl_cons, heard_called_ne other]
    exact ih _ _

/-! Ticks. -/

theorem cronOutcome_clock {h h' : Host} (outcome : StepCases.CronOutcome h h') :
    h'.nowRealtimeMs = h.nowRealtimeMs := by
  cases outcome with
  | quiet q => exact q.clock
  | started idle eq => exact eq ▸ rfl
  | ended busy stopped => exact stopped.clock
  | installed c ino done => exact done.clock

theorem tick_swept (nowMs nowRealtimeMs : Int) (io : TickIo) (h : Host)
    (sound : h.config.activeExpireEnabled = false ∨
      ∀ key, past nowRealtimeMs (h.db.cells.due key) → io.released key = key) :
    Swept nowRealtimeMs h.db.cells (ServerRun.beforeSleep nowMs nowRealtimeMs io h).db.cells ∧
      (ServerRun.beforeSleep nowMs nowRealtimeMs io h).nowRealtimeMs = nowRealtimeMs := by
  let begun : Host :=
    { h with nowMs := nowMs, nowRealtimeMs := nowRealtimeMs, cronloops := h.cronloops + 1 }
  have start : Swept nowRealtimeMs h.db.cells begun.db.cells ∧
      begun.nowRealtimeMs = nowRealtimeMs := ⟨fun k => Or.inl ⟨rfl, rfl⟩, rfl⟩
  have expired : Swept nowRealtimeMs h.db.cells (ServerRun.activeExpireCron io begun).db.cells ∧
      (ServerRun.activeExpireCron io begun).nowRealtimeMs = nowRealtimeMs := by
    rcases sound with off | intact
    · rw [ServerRun.activeExpireCron,
        if_pos (show begun.config.activeExpireEnabled = false from off)]
      exact start
    · refine StepCases.activeExpireCron_induct (I := fun g =>
        Swept nowRealtimeMs h.db.cells g.db.cells ∧ g.nowRealtimeMs = nowRealtimeMs)
        (fun g key passed swept => ⟨?_, swept.2⟩) begun rfl start
      have early : past nowRealtimeMs (h.db.cells.due key) = true := by
        rcases swept.1 key with ⟨-, due⟩ | ⟨early, -⟩
        · exact due ▸ passed
        · exact early
      rw [intact key early, dbDelThrough_self_cells]
      exact swept.1.erase passed
  have logged := StepCases.aofCron_quiet io.flushed (ServerRun.activeExpireCron io begun)
  obtain ⟨g, quiet, outcome⟩ := StepCases.aofRewriteCron_cases io.cron
    (aofCron io.flushed (ServerRun.activeExpireCron io begun))
  have db := StepCases.beforeSleep_db nowMs nowRealtimeMs io h
  have clock := (cronOutcome_clock outcome).trans (quiet.clock.trans logged.clock)
  exact ⟨db ▸ expired.1, clock.trans expired.2⟩

/-! Connections. -/

theorem accept_opened (net : Net) (io : AcceptIo) :
    (opened net io = none ∧ step net (.accept io) = net) ∨ ∃ fd, opened net io = some fd ∧
      step net (.accept io) = net.put fd (EventLoop.acceptClient io.registered (net.conn fd)) := by
  simp only [opened, step, EventLoop.step, EventLoop.onAccept]
  split
  · exact Or.inl ⟨rfl, rfl⟩
  · split
    · exact Or.inl ⟨rfl, rfl⟩
    · split
      · exact Or.inl ⟨rfl, rfl⟩
      · cases io.accepted with
        | none => exact Or.inl ⟨rfl, rfl⟩
        | some fd =>
          by_cases high : maxFds ≤ fd
          · simp [high, not_lt.mpr high]
          · by_cases blocks : io.nonBlocking = false
            · simp [high, blocks]
            · exact Or.inr ⟨fd, by simp [Option.filter, not_le.mp high, blocks],
                by simp [high, blocks]⟩

theorem acceptClient_fresh (registered : Bool) (s : Conn) :
    (EventLoop.acceptClient registered s).handed = [] ∧
      (EventLoop.acceptClient registered s).host = s.host := by
  cases registered <;> exact ⟨rfl, rfl⟩

theorem beforeSleep_handed (nowMs nowRealtimeMs : Int) (io : TickIo) (net : Net) (fd : Nat) :
    ((beforeSleep nowMs nowRealtimeMs io net).slots fd).handed = (net.slots fd).handed := by
  refine beforeSleep_induct (I := fun g => (g.slots fd).handed = (net.slots fd).handed)
    (fun g h ms same => same) (fun g i same => ?_) nowMs nowRealtimeMs io rfl
  by_cases here : fd = i
  · subst here
    have gone : (Networking.removeClient (g.conn fd)).handed = (g.slots fd).handed := rfl
    simpa only [Net.put, Function.update_self, gone] using same
  · simpa only [Net.put, Function.update_of_ne here] using same

/-! One event. -/

theorem tick_cases (net : Net) (nowMs nowRealtimeMs : Int) (io : TickIo) :
    (labels net (.tick nowMs nowRealtimeMs io) = [] ∧
      (step net (.tick nowMs nowRealtimeMs io)).slots = net.slots ∧
      store (step net (.tick nowMs nowRealtimeMs io)) = store net) ∨
    (labels net (.tick nowMs nowRealtimeMs io) = [.ticked nowRealtimeMs] ∧
      step net (.tick nowMs nowRealtimeMs io) = beforeSleep nowMs nowRealtimeMs io net) := by
  simp only [labels, step]
  by_cases exited : net.host.exited = true
  · rw [if_pos (Or.inl exited), if_pos exited]
    exact Or.inl ⟨rfl, rfl, rfl⟩
  · by_cases stops : net.host.elStop = true
    · rw [if_pos (Or.inr stops), if_neg exited, if_pos stops]
      exact Or.inl ⟨rfl, rfl, rfl⟩
    · rw [if_neg (not_or.mpr ⟨exited, stops⟩), if_neg exited, if_neg stops]
      exact Or.inr ⟨rfl, rfl⟩

theorem step_path {net : Net} {e : Event} (sound : Sound net e) :
    Path Step (store net) (labels net e) (store (step net e)) := by
  cases e with
  | tick nowMs nowRealtimeMs io =>
    rcases tick_cases net nowMs nowRealtimeMs io with ⟨none, -, same⟩ | ⟨one, slept⟩
    · rw [none, same]
      exact .nil _
    · obtain ⟨swept, clock⟩ := tick_swept nowMs nowRealtimeMs io net.host sound
      have after : store (beforeSleep nowMs nowRealtimeMs io net) =
          ⟨(ServerRun.beforeSleep nowMs nowRealtimeMs io net.host).db.cells, nowRealtimeMs⟩ := by
        rw [store, beforeSleep_host, clock]
      rw [one, slept, after]
      exact .single (.ticked (store net) nowRealtimeMs _ swept)
  | accept io =>
    simp only [labels]
    rcases accept_opened net io with ⟨none, same⟩ | ⟨fd, some, filled⟩
    · rw [none, same]
      exact .nil _
    · rw [some, filled]
      have same : store (net.put fd (EventLoop.acceptClient io.registered (net.conn fd))) =
          store net := by
        simp only [store, Net.put, (acceptClient_fresh io.registered _).2, Net.conn]
      rw [same]
      exact .single (.opened fd _)
  | readable fd out ios => exact calls_path fd (readable_called net fd out ios).executes
  | writable fd out ios => exact calls_path fd (writable_called net fd out ios).executes
  | shutdown =>
    have same : store (step net .shutdown) = store net := by
      simp only [step, ServerRun.step]
      split
      · split <;> rfl
      · rfl
    rw [same]
    exact .nil _
  | outside o =>
    have same : store (step net (.outside o)) = store net := by
      cases o with
      | child realtimeMs io | childKilled | childSignal =>
        simp only [step, Outside.event, ServerRun.step, store]
        cases net.host.child with
        | none => rfl
        | some c => first | rfl | (simp only [ServerRun.signalChild]; split <;> rfl)
      | signal => rfl
    rw [same]
    exact .nil _

/-- The calls of each connection are the exchanges it has had with the store. -/
def Told (net : Net) (talk : Nat → List (Exchange Bytes Bytes Int)) : Prop :=
  ∀ fd, List.Forall₂ Heard (net.slots fd).handed (talk fd)

theorem called_told {net net' : Net} {fd : Nat} {ios : List FrameIo}
    {talk : Nat → List (Exchange Bytes Bytes Int)} (told : Told net talk)
    (called : Called net net' fd ios) :
    Told net' fun i => conversation i (talk i) (callLabels fd net.host ios (newCalls net net' fd)) := by
  intro i
  by_cases same : i = fd
  · subst same
    rw [called.handed]
    exact calls_heard i called.executes (told i)
  · simp only [called.others i same, calls_elsewhere (Ne.symm same)]
    exact told i

theorem step_told {net : Net} {talk : Nat → List (Exchange Bytes Bytes Int)} (told : Told net talk)
    (e : Event) : Told (step net e) fun fd => conversation fd (talk fd) (labels net e) := by
  cases e with
  | tick nowMs nowRealtimeMs io =>
    intro fd
    rcases tick_cases net nowMs nowRealtimeMs io with ⟨none, same, -⟩ | ⟨one, slept⟩
    · rw [none, same]
      exact told fd
    · rw [one, slept, beforeSleep_handed]
      exact told fd
  | accept io =>
    intro i
    simp only [labels]
    rcases accept_opened net io with ⟨none, same⟩ | ⟨fd, some, filled⟩
    · rw [none, same]
      exact told i
    · rw [some, filled]
      simp only [Option.toList_some, List.map_singleton, conversation, List.foldl_cons,
        List.foldl_nil, heard]
      by_cases here : fd = i
      · subst here
        simp only [Net.put, Function.update_self, (acceptClient_fresh io.registered _).1, if_true]
        exact .nil
      · simp only [Net.put, Function.update_of_ne (Ne.symm here), here, if_false]
        exact told i
  | readable fd out ios => exact called_told told (readable_called net fd out ios)
  | writable fd out ios => exact called_told told (writable_called net fd out ios)
  | shutdown =>
    have same : (step net .shutdown).slots = net.slots := by
      simp only [step]
      split <;> rfl
    intro fd
    rw [same]
    exact told fd
  | outside o => exact told

/-! Runs. -/

theorem run_path (net : Net) {events : List Event}
    (sound : Transition.Along step Sound net events) :
    Path Step (store net) (history net events) (store (run net events)) :=
  Emission.run_path (I := fun _ => True) (fun _ _ _ _ => trivial)
    (fun _ _ _ sound => step_path sound) trivial sound

theorem run_told {net : Net} {talk : Nat → List (Exchange Bytes Bytes Int)} (told : Told net talk)
    (events : List Event) :
    Told (run net events) fun fd => conversation fd (talk fd) (history net events) := by
  induction events generalizing net talk with
  | nil => exact told
  | cons e events ih =>
    have next := ih (step_told told e)
    simp only [← conversation_append] at next
    exact next

theorem initNet_told (h : Host) (sockets : Sockets) : Told (initNet h sockets) fun _ => [] := by
  intro fd
  have none : ((initNet h sockets).slots fd).handed = [] := by
    simp only [initNet, Function.update_apply]
    split
    · rfl
    · split <;> rfl
  rw [none]
  exact .nil

/-- Every run is a history of the expiring store. The calls of each connection since it was
accepted are the exchanges of that history with it, in the same order, and the stream it is sent
is the responses of those calls, where they found room. -/
theorem run_linearizable (h : Host) (sockets : Sockets) {events : List Event}
    (sound : Transition.Along step Sound (initNet h sockets) events) :
    Path Step (store (initNet h sockets)) (history (initNet h sockets) events)
        (store (run (initNet h sockets) events)) ∧
      ∀ fd, List.Forall₂ Heard ((run (initNet h sockets) events).slots fd).handed
          (conversation fd [] (history (initNet h sockets) events)) ∧
        (((run (initNet h sockets) events).slots fd).client.active = true →
          ((run (initNet h sockets) events).conn fd).output =
            Delivery.served ((run (initNet h sockets) events).slots fd).handed) :=
  ⟨run_path _ sound, fun fd => ⟨run_told (initNet_told h sockets) events fd, fun active =>
    ((run_allBooked h sockets events fd).ledger active).output⟩⟩

def twoClients : List Event :=
  [.accept { accepted := some 5 }, .accept { accepted := some 6 },
    .readable 5 (.got (Framing.frame frameHdrSize (ascii "SET k v"))) [],
    .tick 1 1 {},
    .readable 6 (.got (Framing.frame frameHdrSize (ascii "GET k"))) []]

theorem twoClients_sound :
    Transition.Along step Sound (initNet (ServerRun.firstHost {}) ⟨3, 4, by decide⟩) twoClients :=
  ⟨trivial, trivial, trivial, Or.inr fun _ _ => rfl, trivial, trivial⟩

theorem run_linearizable_twoClients :
    Path Step (store (initNet (ServerRun.firstHost {}) ⟨3, 4, by decide⟩))
        (history (initNet (ServerRun.firstHost {}) ⟨3, 4, by decide⟩) twoClients)
        (store (run (initNet (ServerRun.firstHost {}) ⟨3, 4, by decide⟩) twoClients)) ∧
      ((run (initNet (ServerRun.firstHost {}) ⟨3, 4, by decide⟩) twoClients).slots 6).handed.map
        Call.response = [ascii "+v\n"] :=
  ⟨(run_linearizable (ServerRun.firstHost {}) ⟨3, 4, by decide⟩ twoClients_sound).1,
    by decide +kernel⟩

/-! Reads. -/

theorem get_query {payload k : Bytes} (gets : Visibility.getKey payload = some k)
    (nowRealtimeMs : Int) : query nowRealtimeMs payload = .value k := by
  obtain ⟨comes, key⟩ := Visibility.getKey_iff.mp gets
  rw [query_of_proc comes rfl, requestKey, key]
  rfl

theorem get_worded {payload k out : Bytes} (gets : Visibility.getKey payload = some k)
    {nowRealtimeMs : Int} {told : Reply Bytes Bytes Int}
    (worded : Worded nowRealtimeMs payload told out) :
    ∃ r : Option Bytes, told = .value r ∧
      out = r.elim Visibility.notFound fun v => clip (ascii "+" ++ v ++ ascii "\n") := by
  obtain ⟨comes, -⟩ := Visibility.getKey_iff.mp gets
  have silent : requestRecord nowRealtimeMs payload = none := by
    rw [requestRecord_bind, comes]
    rfl
  cases worded with
  | found asks v => exact ⟨some v, rfl, rfl⟩
  | missing asks => exact ⟨none, rfl, rfl⟩
  | taken r asks | refused r asks => simp [silent] at asks
  | untimely asks => simp [comes] at asks
  | timed asks | untimed asks | absent asks | listed asks | counted asks | unread asks
  | rewrite asks => simp [comes] at asks

/-- The GET that is call number `n` of its connection stands in the history behind the `n` calls
that this connection made before it. It has read the value that was last written in front of
it, whoever wrote that, or nothing; and if no deadline of the key has passed by then, it has
read that value. -/
theorem run_reads (h : Host) (sockets : Sockets) {events : List Event}
    (sound : Transition.Along step Sound (initNet h sockets) events) {fd n : Nat} {call : Call}
    (answered : ((run (initNet h sockets) events).slots fd).handed[n]? = some call) {k : Bytes}
    (gets : Visibility.getKey call.payload = some k) :
    ∃ (before after : List (Label Nat Bytes Bytes Int)) (t : Int) (r : Option Bytes),
      history (initNet h sockets) events =
        before ++ .called fd t (.value k) (.value r) :: after ∧
      List.Forall₂ Heard (((run (initNet h sockets) events).slots fd).handed.take n)
        (conversation fd [] before) ∧
      .opened fd ∉ after ∧
      call.response = (r.elim Visibility.notFound fun v => clip (ascii "+" ++ v ++ ascii "\n")) ∧
      (r = written k (h.db.keyspace.get k) before ∨ r = none) ∧
      (Outlasts k (store (initNet h sockets)) before →
        r = written k (h.db.keyspace.get k) before) := by
  have told : List.Forall₂ Heard ((run (initNet h sockets) events).slots fd).handed
      (conversation fd [] (history (initNet h sockets) events)) :=
    run_told (initNet_told h sockets) events fd
  obtain ⟨lt, rfl⟩ := List.getElem?_eq_some_iff.mp answered
  obtain ⟨exchange, there⟩ : ∃ e, (conversation fd [] (history (initNet h sockets) events))[n]? =
      some e := ⟨_, List.getElem?_eq_getElem (lt.trans_eq told.length_eq)⟩
  have heard : Heard ((run (initNet h sockets) events).slots fd).handed[n] exchange := by
    obtain ⟨lt', rfl⟩ := List.getElem?_eq_some_iff.mp there
    exact told.get lt lt'
  obtain ⟨r, reply, response⟩ := get_worded gets heard.worded
  rcases conversation_get there with ⟨early, -⟩ | ⟨before, after, split, count, later⟩
  · rw [List.getElem?_nil] at early
    cases early
  · have behind : Label.opened fd ∉
        Label.called fd exchange.time exchange.query exchange.reply :: after := by
      simpa using later
    obtain ⟨rest, whole⟩ := conversation_goes_on (conversation fd [] before) behind
    rw [← conversation_append, ← split] at whole
    have taken : (conversation fd [] (history (initNet h sockets) events)).take n =
        conversation fd [] before := by
      rw [← whole, ← count, List.take_left]
    have front := List.forall₂_take n told
    rw [taken] at front
    rw [heard.query, get_query gets, reply] at split
    refine ⟨before, after, _, r, split, front, later, response, ?_⟩
    · have path := run_path _ sound
      rw [split] at path
      exact path_reads path

/-- Client 6 reads a key twice; between the two, client 5 sets it anew. -/
def rereads : List Event :=
  [.accept { accepted := some 5 }, .accept { accepted := some 6 },
    .readable 5 (.got (Framing.frame frameHdrSize (ascii "SET k v"))) [],
    .readable 6 (.got (Framing.frame frameHdrSize (ascii "GET k"))) [],
    .readable 5 (.got (Framing.frame frameHdrSize (ascii "SET k w"))) [],
    .tick 1 1 {},
    .readable 6 (.got (Framing.frame frameHdrSize (ascii "GET k"))) []]

theorem rereads_sound :
    Transition.Along step Sound (initNet (ServerRun.firstHost {}) ⟨3, 4, by decide⟩) rereads :=
  ⟨trivial, trivial, trivial, trivial, trivial, Or.inr fun _ _ => rfl, trivial, trivial⟩

theorem run_reads_rereads :
    ∃ (before after : List (Label Nat Bytes Bytes Int)) (t : Int) (r : Option Bytes),
      history (initNet (ServerRun.firstHost {}) ⟨3, 4, by decide⟩) rereads =
        before ++ .called 6 t (.value (ascii "k")) (.value r) :: after ∧
      (conversation 6 [] before).length = 1 ∧
      ascii "+w\n" = (r.elim Visibility.notFound fun v => clip (ascii "+" ++ v ++ ascii "\n")) ∧
      r = written (ascii "k") none before := by
  have answered : ((run (initNet (ServerRun.firstHost {}) ⟨3, 4, by decide⟩) rereads).slots 6).handed =
      [⟨ascii "GET k", ascii "+v\n", 0⟩, ⟨ascii "GET k", ascii "+w\n", 0⟩] := by
    decide +kernel
  have gets : Visibility.getKey (ascii "GET k") = some (ascii "k") := by decide +kernel
  obtain ⟨before, after, t, r, split, front, -, response, read, -⟩ :=
    run_reads (ServerRun.firstHost {}) ⟨3, 4, by decide⟩ rereads_sound
      (congrArg (fun calls => calls[1]?) answered) gets
  refine ⟨before, after, t, r, split, ?_, response, read.resolve_right fun none => ?_⟩
  · rw [← front.length_eq, answered]
    rfl
  · rw [none] at response
    exact absurd response (by decide)

end ByteKV.Linearizability
