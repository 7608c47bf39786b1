import ByteKV.ConfigFile
import ByteKV.ConnectionTable

/-! The timeout sweep of networking.c over any table of clients that the event loop comes
to. Its loop ends once it has seen as many clients as there are left, and it takes clients
out as it goes. -/
namespace ByteKV.TimeoutSweep
open Config ServerState Command EventLoop ConnectionTable ConfigFile
open Networking hiding Event step run
open ServerRun (firstHost)

/-! The table as a sweep needs it, also where registrations with kevent fail. -/

def Stays (s s' : Conn) : Prop :=
  (s'.client.active = s.client.active ∧ s'.clientsCount = s.clientsCount ∧ s'.Bounded) ∨ Removed s s'

theorem Stays.of_same {s t s' : Conn} (active : t.client.active = s.client.active)
    (count : t.clientsCount = s.clientsCount) (h : Stays t s') : Stays s s' := by
  rcases h with ⟨h1, h2, h3⟩ | removed
  · exact Or.inl ⟨h1.trans active, h2.trans count, h3⟩
  · exact Or.inr ⟨removed.client, removed.readHandler, removed.writeHandler,
      removed.clientsCount.trans (congrArg (· - 1) count)⟩

theorem Stays.of_moved {s s' : Conn} {calls : List Call} {sends : List (Bytes × Bool)}
    (moved : Moved s s' calls sends) : Stays s s' :=
  Or.inl ⟨moved.active, moved.clientsCount, moved.bounded⟩

theorem processLoop_stays (rounds : Nat) {ios : List FrameIo} {s : Conn} (bounded : s.Bounded) :
    Stays s (processLoop rounds ios s) := by
  induction rounds generalizing ios s with
  | zero => exact Or.inl ⟨rfl, rfl, bounded⟩
  | succ rounds ih =>
    simp only [processLoop]
    split
    · exact Or.inl ⟨rfl, rfl, bounded⟩
    · split
      · exact Or.inr (removeClient_removed s)
      · split
        · exact Or.inl ⟨rfl, rfl, bounded⟩
        · have turn := answerFrame_cases (ios.headD {}) bounded
            ((s.client.buf.drop frameHdrSize).take
              (BigEndian.decode (s.client.buf.take frameHdrSize)))
          generalize answerFrame _ s _ = out at turn ⊢
          cases turn with
          | answered s' call asked room moved =>
            change Stays s (processLoop rounds ios.tail (dropFrame _ s'))
            exact Stays.of_same (t := dropFrame _ s') moved.active moved.clientsCount
              (ih moved.bounded)
          | full s' call asked short moved => exact .of_moved moved
          | dropped s' call asked room failed moved =>
            exact Stays.of_same moved.active moved.clientsCount (Or.inr (removeClient_removed s'))

theorem onRead_stays (out : ReadOutcome) (ios : List FrameIo) {s : Conn} (bounded : s.Bounded) :
    Stays s (onRead out ios s) := by
  simp only [onRead]
  split
  · exact Or.inl ⟨rfl, rfl, bounded⟩
  · split
    · exact Or.inl ⟨rfl, rfl, bounded⟩
    · exact Or.inr (removeClient_removed s)
    · split
      · exact Or.inr (removeClient_removed s)
      · exact Stays.of_same (t := arrive _ s) rfl rfl (processLoop_stays _ bounded)

theorem onWrite_stays (out : SendOutcome) (ios : List FrameIo) {s : Conn} (bounded : s.Bounded) :
    Stays s (onWrite out ios s) := by
  simp only [onWrite]
  split
  · exact Or.inl ⟨rfl, rfl, bounded⟩
  · exact Or.inr (removeClient_removed s)
  · rename_i n
    have taken := advance_moved n bounded
    split
    · rename_i done
      have reset := taken.trans (resetWbuf_moved done)
      have drained := reset.trans (elRemoveWrite_moved reset.bounded)
      exact (processLoop_stays _ drained.bounded).of_same drained.active drained.clientsCount
    · exact .of_moved taken

structure Tallied (net : Net) : Prop where
  count : net.clientsCount = activeCount net
  below : ∀ fd, (net.slots fd).client.active = true → fd < maxFds
  bounded : ∀ fd, (net.conn fd).Bounded
  handled : ∀ fd, (net.slots fd).readHandler = some .onRead ∨
    (net.slots fd).writeHandler = some .onWrite → (net.slots fd).client.active = true

theorem initNet_tallied (h : Host) (sockets : Sockets) : Tallied (initNet h sockets) := by
  have inv := initNet_consistent h sockets
  refine ⟨inv.count, fun fd active => (inv.resting fd active).1, fun fd => ?_,
    fun fd handler => inv.active_of_handler handler⟩
  have zero : ((initNet h sockets).slots fd).client.woff = 0 := by
    simp only [initNet, Function.update_apply]
    split
    · rfl
    · split <;> rfl
  exact zero.trans_le (Nat.zero_le _)

theorem Tallied.elsewhere {net : Net} (inv : Tallied net) (h : Host) (lastTimeoutCheckMs : Int) :
    Tallied { net with host := h, lastTimeoutCheckMs := lastTimeoutCheckMs } :=
  ⟨inv.count, inv.below, inv.bounded, inv.handled⟩

theorem Tallied.put {net : Net} (inv : Tallied net) {fd : Nat} {s : Conn} (lt : fd < maxFds)
    (count : s.clientsCount + (net.slots fd).client.active.toNat =
      net.clientsCount + s.client.active.toNat)
    (bounded : s.Bounded)
    (handled : s.readHandler = some .onRead ∨ s.writeHandler = some .onWrite →
      s.client.active = true) : Tallied (net.put fd s) where
  count := by
    have counted := activeCount_put net lt s
    have before := inv.count
    change s.clientsCount = activeCount (net.put fd s)
    omega
  below i active := by
    by_cases same : i = fd
    · exact same ▸ lt
    · simp only [Net.put, Function.update_of_ne same] at active
      exact inv.below i active
  bounded i := by
    by_cases same : i = fd
    · subst same
      simpa only [Net.put, Net.conn, Function.update_self] using bounded
    · simp only [Net.put, Net.conn, Function.update_of_ne same]
      exact inv.bounded i
  handled i := by
    by_cases same : i = fd
    · subst same
      simpa only [Net.put, Function.update_self] using handled
    · simpa only [Net.put, Function.update_of_ne same] using inv.handled i

theorem Tallied.put_stays {net : Net} (inv : Tallied net) {fd : Nat} {s : Conn}
    (active : (net.slots fd).client.active = true) (stays : Stays (net.conn fd) s) :
    Tallied (net.put fd s) := by
  have lt := inv.below fd active
  have counted : 1 ≤ net.clientsCount := by
    rw [inv.count, activeCount]
    exact List.countP_pos_iff.mpr ⟨fd, List.mem_range.mpr lt, active⟩
  rcases stays with ⟨still, count, bounded⟩ | removed
  · have still : s.client.active = true := still.trans active
    refine inv.put lt ?_ bounded fun _ => still
    rw [count, still, active]
    rfl
  · refine inv.put lt ?_ ?_ ?_
    · have less : s.clientsCount = net.clientsCount - 1 := removed.clientsCount
      rw [removed.client, active, less]
      simp only [Bool.toNat_true, Bool.toNat_false]
      omega
    · rw [Conn.Bounded, removed.client]
      exact Nat.le_refl 0
    · simp [removed.readHandler, removed.writeHandler]

theorem onAccept_tallied {net : Net} (inv : Tallied net) {io : AcceptIo}
    (closed : io.accepted.any net.isOpen = false) : Tallied (onAccept io net) := by
  rcases onAccept_cases closed with eq | ⟨fd, lt, inactive, -, -, eq⟩
  · rw [eq]
    exact inv
  · rw [eq]
    cases io.registered with
    | true =>
      refine inv.put lt ?_ (Nat.le_refl 0) fun _ => rfl
      rw [inactive]
      rfl
    | false =>
      refine inv.put lt ?_ (Nat.le_refl 0) fun handler => ?_
      · rw [inactive]
        rfl
      · exact absurd (inv.handled fd handler) (by simp [inactive])

theorem step_tallied {net : Net} (inv : Tallied net) (e : Event) : Tallied (step net e) := by
  have out := stepped net e
  generalize step net e = net' at out ⊢
  cases out with
  | same => exact inv
  | accepted io closed => exact onAccept_tallied inv closed
  | read fd out ios handler =>
    exact inv.put_stays (inv.handled fd (Or.inl handler)) (onRead_stays out ios (inv.bounded fd))
  | wrote fd out ios handler =>
    exact inv.put_stays (inv.handled fd (Or.inr handler)) (onWrite_stays out ios (inv.bounded fd))
  | swept =>
    refine timeoutLoop_induct (fun _ _ active inv => ?_) _ _ (inv.elsewhere _ _)
    exact inv.put_stays active (Or.inr (removeClient_removed _))
  | elsewhere h => exact inv.elsewhere h _

theorem run_tallied (h : Host) (sockets : Sockets) (events : List Event) :
    Tallied (run (initNet h sockets) events) := by
  have keep (net : Net) (e : Event) (inv : Tallied net) : Tallied (step net e) := step_tallied inv e
  exact Transition.run_invariant_always keep (initNet_tallied h sockets) events

/-! Who goes. -/

def Active (net : Net) (fd : Nat) : Prop := (net.slots fd).client.active = true

instance (net : Net) : DecidablePred (Active net) := fun _ => inferInstanceAs (Decidable (_ = _))

/-- Whole seconds, rounded as the division of C rounds them. -/
def idleS (net : Net) (fd : Nat) : Int :=
  (net.host.nowMs - (net.slots fd).client.lastActiveMs).tdiv 1000

def Idle (net : Net) (fd : Nat) : Prop :=
  Active net fd ∧ net.host.config.clientTimeoutS ≤ idleS net fd

instance (net : Net) : DecidablePred (Idle net) := fun _ => inferInstanceAs (Decidable (_ ∧ _))

def cleared (net : Net) (fd : Nat) : Slot := (removeClient (net.conn fd)).toSlot

def activeBefore (net : Net) (fd : Nat) : Nat := (List.range fd).countP (Active net ·)

def idleBefore (net : Net) (fd : Nat) : Nat := (List.range fd).countP (Idle net ·)

def Reached (net : Net) (fd : Nat) : Prop :=
  activeBefore net fd + idleBefore net fd < net.clientsCount

instance (net : Net) : DecidablePred (Reached net) := fun _ => inferInstanceAs (Decidable (_ < _))

theorem activeBefore_succ (net : Net) (fd : Nat) :
    activeBefore net (fd + 1) = activeBefore net fd + if Active net fd then 1 else 0 := by
  simp [activeBefore, List.range_succ, List.countP_cons]

theorem idleBefore_succ (net : Net) (fd : Nat) :
    idleBefore net (fd + 1) = idleBefore net fd + if Idle net fd then 1 else 0 := by
  simp [idleBefore, List.range_succ, List.countP_cons]

theorem activeBefore_mono (net : Net) : Monotone (activeBefore net) :=
  monotone_nat_of_le_succ fun fd => by
    rw [activeBefore_succ]
    exact Nat.le_add_right _ _

theorem idleBefore_mono (net : Net) : Monotone (idleBefore net) :=
  monotone_nat_of_le_succ fun fd => by
    rw [idleBefore_succ]
    exact Nat.le_add_right _ _

theorem Reached.mono {net : Net} {fd fd' : Nat} (le : fd ≤ fd') (h : Reached net fd') :
    Reached net fd := by
  have active := activeBefore_mono net le
  have idle := idleBefore_mono net le
  unfold Reached at h ⊢
  omega

structure Sweeping (start : Net) (fd found : Nat) (net : Net) : Prop where
  found : found = activeBefore start fd
  count : net.clientsCount = start.clientsCount - idleBefore start fd
  enough : idleBefore start fd ≤ start.clientsCount
  host : net.host = start.host
  slots : ∀ i, net.slots i = if i < fd ∧ Idle start i then cleared start i else start.slots i
  reached : ∀ i < fd, Reached start i

theorem Sweeping.none (net : Net) : Sweeping net 0 0 net :=
  ⟨rfl, rfl, Nat.zero_le _, rfl, fun i => by simp, fun i lt => absurd lt (Nat.not_lt_zero i)⟩

section Sweep
variable {start net : Net} {fd found : Nat}

theorem Sweeping.goes_iff (h : Sweeping start fd found net) :
    found < net.clientsCount ↔ Reached start fd := by
  have found := h.found
  have count := h.count
  have enough := h.enough
  unfold Reached
  omega

theorem Sweeping.slot (h : Sweeping start fd found net) : net.slots fd = start.slots fd := by
  simp [h.slots]

theorem Sweeping.reached_succ (h : Sweeping start fd found net) (goes : found < net.clientsCount) :
    ∀ i < fd + 1, Reached start i := fun _ lt =>
  (h.goes_iff.mp goes).mono (Nat.le_of_lt_succ lt)

theorem Sweeping.pass (h : Sweeping start fd found net) (goes : found < net.clientsCount)
    (busy : ¬ Idle start fd) :
    Sweeping start (fd + 1) (found + if Active start fd then 1 else 0) net where
  found := by rw [activeBefore_succ, h.found]
  count := by rw [idleBefore_succ, if_neg busy, h.count, Nat.add_zero]
  enough := by
    rw [idleBefore_succ, if_neg busy]
    exact h.enough
  host := h.host
  slots i := by
    rw [h.slots]
    by_cases last : i = fd
    · subst last
      simp [busy]
    · simp only [Nat.lt_succ_iff_lt_or_eq, last, or_false]
  reached := h.reached_succ goes

theorem Sweeping.remove (h : Sweeping start fd found net) (goes : found < net.clientsCount)
    (idle : Idle start fd) :
    Sweeping start (fd + 1) (found + 1) (net.put fd (removeClient (net.conn fd))) where
  found := by rw [activeBefore_succ, if_pos idle.1, h.found]
  count := by
    change net.clientsCount - 1 = _
    rw [idleBefore_succ, if_pos idle, h.count]
    omega
  enough := by
    have reached := h.goes_iff.mp goes
    rw [idleBefore_succ, if_pos idle]
    unfold Reached at reached
    omega
  host := h.host
  slots i := by
    by_cases last : i = fd
    · subst last
      have same := h.slot
      simp only [Net.put, Function.update_self, Nat.lt_succ_self, idle, and_self, if_true, cleared,
        removeClient, elRemove, Net.conn, same]
    · simp only [Net.put, Function.update_of_ne last, Nat.lt_succ_iff_lt_or_eq, last, or_false]
      exact h.slots i
  reached := h.reached_succ goes

/-- The sweep clears the idle slots that the loop comes to. -/
theorem timeoutLoop_slots (n : Nat) (h : Sweeping start fd found net) (i : Nat) :
    (timeoutLoop (List.range' fd n) found net).slots i =
      if i < fd + n ∧ Idle start i ∧ Reached start i then cleared start i else start.slots i := by
  induction n generalizing fd found net with
  | zero =>
    rw [List.range'_zero, timeoutLoop, h.slots]
    by_cases lt : i < fd
    · simp [lt, h.reached i lt]
    · simp [lt]
  | succ n ih =>
    rw [List.range'_succ, timeoutLoop]
    have next : fd + (n + 1) = fd + 1 + n := by omega
    split
    · rename_i goes
      rw [next]
      by_cases active : Active start fd
      · have live : ¬ (net.slots fd).client.active = false := by
          rw [h.slot, Bool.not_eq_false]
          exact active
        have idle_iff : net.host.config.clientTimeoutS ≤
            (net.host.nowMs - (net.slots fd).client.lastActiveMs).tdiv 1000 ↔ Idle start fd := by
          rw [h.slot, h.host]
          exact (and_iff_right active).symm
        rw [if_neg live]
        by_cases idle : Idle start fd
        · simp only [idle_iff, if_pos idle]
          exact ih (h.remove goes idle)
        · simp only [idle_iff, if_neg idle]
          have passed := h.pass goes idle
          rw [if_pos active] at passed
          exact ih passed
      · have free : (net.slots fd).client.active = false := by
          rw [h.slot]
          exact (Bool.not_eq_true _).mp active
        rw [if_pos free]
        have passed := h.pass goes fun idle => active idle.1
        rw [if_neg active, Nat.add_zero] at passed
        exact ih passed
    · rename_i ended
      -- The slots from here on are out of reach.
      have out (le : fd ≤ i) : ¬ Reached start i := fun reached =>
        ended (h.goes_iff.mpr (reached.mono le))
      rw [h.slots]
      by_cases lt : i < fd
      · simp [lt, h.reached i lt, show i < fd + (n + 1) by omega]
      · simp [lt, out (not_lt.mp lt)]

theorem checkClientTimeouts_slots (net : Net) (i : Nat) : (checkClientTimeouts net).slots i =
    if i < maxFds ∧ Idle net i ∧ Reached net i then cleared net i else net.slots i := by
  rw [checkClientTimeouts, List.range_eq_range', timeoutLoop_slots maxFds (.none net), Nat.zero_add]

end Sweep

section Exact
variable (net : Net)

/-- A timeout above zero takes out the idle clients and no others; zero takes out none. -/
def DropsIdle : Prop :=
  ∀ fd, (checkClientTimeouts net).slots fd =
    if 0 < net.host.config.clientTimeoutS ∧ Idle net fd then cleared net fd else net.slots fd

def activeBehind (fd : Nat) : Nat :=
  (List.range' (fd + 1) (maxFds - (fd + 1))).countP (Active net ·)

/-- No idle client has more idle clients before it than clients behind it; without a
timeout, no client counts as idle. -/
def Orderly : Prop :=
  if 0 < net.host.config.clientTimeoutS then
    ∀ fd, Idle net fd → idleBefore net fd ≤ activeBehind net fd
  else ∀ fd, ¬ Idle net fd

variable {net}

theorem countP_range_split (p : Nat → Bool) {fd n : Nat} (lt : fd < n) :
    (List.range n).countP p =
      (List.range (fd + 1)).countP p + (List.range' (fd + 1) (n - (fd + 1))).countP p := by
  obtain ⟨k, rfl⟩ := Nat.exists_eq_add_of_le (Nat.succ_le_of_lt lt)
  rw [Nat.add_sub_cancel_left, List.range_eq_range', List.range_eq_range', ← List.countP_append]
  congr 1
  simpa using (List.range'_append_1 (s := 0) (m := fd + 1) (n := k)).symm

theorem activeCount_split {fd : Nat} (active : Active net fd) (lt : fd < maxFds) :
    activeCount net = activeBefore net fd + 1 + activeBehind net fd := by
  have counted : activeCount net = (List.range maxFds).countP (Active net ·) :=
    List.countP_congr fun fd _ => (decide_eq_true_iff (p := Active net fd)).symm
  have upTo := activeBefore_succ net fd
  rw [if_pos active] at upTo
  rw [← upTo, counted]
  exact countP_range_split _ lt

theorem Tallied.reached_iff (inv : Tallied net) {fd : Nat} (idle : Idle net fd) :
    Reached net fd ↔ idleBefore net fd ≤ activeBehind net fd := by
  have split := activeCount_split idle.1 (inv.below fd idle.1)
  rw [Reached, inv.count, split]
  omega

theorem cleared_ne {fd : Nat} (active : Active net fd) : cleared net fd ≠ net.slots fd := by
  intro same
  have alive : (cleared net fd).client.active = true := same ▸ active
  cases alive

theorem Tallied.first_reached (inv : Tallied net) (some : ∃ fd, Idle net fd) :
    ∃ fd, Idle net fd ∧ Reached net fd := by
  classical
  refine ⟨Nat.find some, Nat.find_spec some, (inv.reached_iff (Nat.find_spec some)).mpr ?_⟩
  have none : idleBefore net (Nat.find some) = 0 := by
    simpa [idleBefore, List.countP_eq_zero] using fun i lt => Nat.find_min some lt
  rw [none]
  exact Nat.zero_le _

theorem Tallied.swept (inv : Tallied net) (fd : Nat) : (checkClientTimeouts net).slots fd =
    if Idle net fd ∧ Reached net fd then cleared net fd else net.slots fd := by
  rw [checkClientTimeouts_slots]
  by_cases idle : Idle net fd
  · simp only [inv.below fd idle.1, true_and]
  · simp only [idle, false_and, and_false]

theorem Tallied.exact_iff (inv : Tallied net) : DropsIdle net ↔ Orderly net := by
  unfold DropsIdle Orderly
  by_cases on : 0 < net.host.config.clientTimeoutS
  · simp only [inv.swept, on, true_and, if_true]
    refine forall_congr' fun fd => ?_
    by_cases idle : Idle net fd
    · simp only [idle, true_and, if_true, forall_const, ← inv.reached_iff idle]
      by_cases reached : Reached net fd
      · simp [reached]
      · simp [reached, (cleared_ne idle.1).symm]
    · simp [idle]
  · simp only [inv.swept, on, false_and, if_false]
    constructor
    · intro none fd idle
      obtain ⟨first, idle, reached⟩ := inv.first_reached ⟨fd, idle⟩
      have same := none first
      rw [if_pos ⟨idle, reached⟩] at same
      exact cleared_ne idle.1 same
    · intro none fd
      simp [none fd]

end Exact

/-- The sweep drops exactly the idle clients if and only if none of them has more idle
clients before it than clients behind it, and there are none when the timeout is off. -/
theorem dropsIdle_iff (h : Host) (sockets : Sockets) (events : List Event) :
    DropsIdle (run (initNet h sockets) events) ↔ Orderly (run (initNet h sockets) events) :=
  (run_tallied h sockets events).exact_iff

def quietClients : List Event :=
  [.accept { accepted := some 5 }, .accept { accepted := some 6 },
    .elsewhere { firstHost {} with nowMs := 300000 }]

theorem sweep_leaves_idle :
    Accepted (run (initNet (firstHost {}) ⟨3, 4, by decide⟩) quietClients).host.config ∧
      Idle (run (initNet (firstHost {}) ⟨3, 4, by decide⟩) quietClients) 6 ∧
      Active (checkClientTimeouts (run (initNet (firstHost {}) ⟨3, 4, by decide⟩) quietClients)) 6 ∧
      ¬ DropsIdle (run (initNet (firstHost {}) ⟨3, 4, by decide⟩) quietClients) := by
  have idle : Idle (run (initNet (firstHost {}) ⟨3, 4, by decide⟩) quietClients) 6 := by
    decide +kernel
  have stays : Active
      (checkClientTimeouts (run (initNet (firstHost {}) ⟨3, 4, by decide⟩) quietClients)) 6 := by
    decide +kernel
  refine ⟨⟨none, rfl⟩, idle, stays, fun drops => ?_⟩
  have gone := drops 6
  rw [if_pos ⟨by decide +kernel, idle⟩] at gone
  unfold Active at stays
  rw [gone] at stays
  cases stays

end ByteKV.TimeoutSweep
