import ByteKV.Emission
import ByteKV.ExpiringLog

/-! An expiring map as a shared object: parties call it one at a time, and a clock ticks. A
tick may take any keys away whose deadline has passed, and an access takes away the key it
meets so. What a reader gets is then stated in terms of the history of calls alone. -/
namespace ByteKV.ExpiringStore
open ExpiringLog Emission

variable {I K V T : Type*}

structure Store (K V T : Type*) where
  cells : Cells K V T
  clock : T

inductive Query (K V T : Type*)
  | value (k : K)
  | due (k : K)
  | update (k : K) (op : Op V T)
  | keys
  | nothing

/-- `due none` is a key that is not there, and `due (some none)` one without a deadline. -/
inductive Reply (K V T : Type*)
  | value (v : Option V)
  | due (d : Option (Option T))
  | updated (ok : Bool)
  | keys (ks : List K)
  | nothing

inductive Label (I K V T : Type*)
  | opened (i : I)
  | called (i : I) (t : T) (query : Query K V T) (reply : Reply K V T)
  | ticked (t : T)

def Lists (stored : List K) (c : Cells K V T) : Prop :=
  stored.Nodup ∧ ∀ k, k ∈ stored ↔ (c.val k).isSome = true

section System
variable [DecidableEq K] [LinearOrder T]

def touch (t : T) (c : Cells K V T) (k : K) : Cells K V T :=
  if past t (c.due k) then c.erase k else c

def answer (t : T) (stored : List K) (c : Cells K V T) : Query K V T → Reply K V T × Cells K V T
  | .value k => (.value ((settle t c).val k), touch t c k)
  | .due k => (.due (((settle t c).val k).map fun _ => (settle t c).due k), touch t c k)
  | .update k op => (.updated (op.apply k c).2, (op.apply k c).1)
  | .keys => (.keys stored, c)
  | .nothing => (.nothing, c)

def Swept (t : T) (c c' : Cells K V T) : Prop :=
  ∀ k, (c'.val k = c.val k ∧ c'.due k = c.due k) ∨
    (past t (c.due k) = true ∧ c'.val k = none ∧ c'.due k = none)

inductive Step : Store K V T → Label I K V T → Store K V T → Prop
  | opened (i : I) (s : Store K V T) : Step s (.opened i) s
  | called (i : I) (s : Store K V T) (query : Query K V T) (stored : List K)
      (lists : Lists stored s.cells) :
      Step s (.called i s.clock query (answer s.clock stored s.cells query).1)
        ⟨(answer s.clock stored s.cells query).2, s.clock⟩
  | ticked (s : Store K V T) (t : T) (c : Cells K V T) (swept : Swept t s.cells c) :
      Step s (.ticked t) ⟨c, t⟩

theorem touch_eq (t : T) (c : Cells K V T) (k j : K) :
    ((touch t c k).val j = c.val j ∧ (touch t c k).due j = c.due j) ∨
      (past t (c.due j) = true ∧ (touch t c k).val j = none ∧ (touch t c k).due j = none) := by
  unfold touch
  split
  · rename_i passed
    by_cases same : j = k
    · subst same
      exact Or.inr ⟨passed, by simp [Cells.erase], by simp [Cells.erase]⟩
    · exact Or.inl ⟨by simp [Cells.erase, same], by simp [Cells.erase, same]⟩
  · exact Or.inl ⟨rfl, rfl⟩

theorem Swept.erase {t : T} {c c' : Cells K V T} {key : K} (swept : Swept t c c')
    (passed : past t (c'.due key) = true) : Swept t c (c'.erase key) := by
  intro k
  by_cases same : k = key
  · subst same
    refine Or.inr ⟨?_, by simp [Cells.erase], by simp [Cells.erase]⟩
    rcases swept k with ⟨-, due⟩ | ⟨early, -⟩
    · exact due ▸ passed
    · exact early
  · simpa [Cells.erase, same] using swept k

/-! What the history says of a key. -/

def leaves (v : Option V) : Op V T → Option V
  | .put w | .putTill w _ => some w
  | .drop => none
  | .till _ | .keep | .refuse => v

def stamp : Op V T → Option T
  | .putTill _ d | .till d => some d
  | _ => none

def Label.write (k : K) (v : Option V) : Label I K V T → Option V
  | .called _ _ (.update j op) (.updated true) => if j = k then leaves v op else v
  | _ => v

/-- The value of the key, by the updates of the history alone. -/
def written (k : K) (v : Option V) (labels : List (Label I K V T)) : Option V :=
  labels.foldl (Label.write k) v

inductive Stamps (k : K) (d : T) : Label I K V T → Prop
  | update (i : I) (t : T) (op : Op V T) (gives : stamp op = some d) :
      Stamps k d (.called i t (.update k op) (.updated true))

/-- No deadline the key has or is given passes on the clock of this history. -/
def Outlasts (k : K) (s : Store K V T) (labels : List (Label I K V T)) : Prop :=
  ∀ d, (s.cells.due k = some d ∨ ∃ l ∈ labels, Stamps k d l) →
    ∀ t, (t = s.clock ∨ .ticked t ∈ labels) → ¬ d < t

omit [LinearOrder T] in
theorem apply_val (op : Op V T) (k j : K) (c : Cells K V T) : (op.apply j c).1.val k =
    if (op.apply j c).2 = true ∧ j = k then leaves (c.val k) op else c.val k := by
  by_cases same : j = k
  · subst same
    cases op with
    | till d => by_cases held : (c.val j).isSome <;> simp [Op.apply, leaves, held]
    | drop => cases held : c.val j <;> simp [Op.apply, leaves, held]
    | _ => simp [Op.apply, leaves]
  · have other : k ≠ j := Ne.symm same
    rw [if_neg (fun both => same both.2)]
    exact (Entry.apply_of_ne ⟨j, op, none⟩ c other).1

omit [LinearOrder T] in
theorem apply_due {op : Op V T} {k j : K} {c : Cells K V T} {d : T}
    (due : (op.apply j c).1.due k = some d) :
    c.due k = some d ∨ (op.apply j c).2 = true ∧ j = k ∧ stamp op = some d := by
  by_cases same : j = k
  · subst same
    cases op with
    | till d' => by_cases held : (c.val j).isSome <;> simp_all [Op.apply, stamp]
    | _ => simp_all [Op.apply, stamp]
  · have other : k ≠ j := Ne.symm same
    exact Or.inl ((Entry.apply_of_ne ⟨j, op, none⟩ c other).2 ▸ due)

theorem Step.val {s s' : Store K V T} {l : Label I K V T} (step : Step s l s') (k : K) :
    s'.cells.val k = l.write k (s.cells.val k) ∨
      (past s'.clock (s.cells.due k) = true ∧ s'.cells.val k = none) := by
  cases step with
  | opened i => exact Or.inl rfl
  | called i s query stored lists =>
    cases query with
    | value j | due j =>
      rcases touch_eq s.clock s.cells j k with ⟨same, -⟩ | ⟨passed, none, -⟩
      · exact Or.inl same
      · exact Or.inr ⟨passed, none⟩
    | update j op =>
      refine Or.inl ((apply_val op k j s.cells).trans ?_)
      simp only [answer]
      cases (op.apply j s.cells).2 with
      | true => simp only [true_and, Label.write]
      | false => rfl
    | keys | nothing => exact Or.inl rfl
  | ticked s t c swept =>
    rcases swept k with ⟨same, -⟩ | ⟨passed, none, -⟩
    · exact Or.inl same
    · exact Or.inr ⟨passed, none⟩

theorem Step.due {s s' : Store K V T} {l : Label I K V T} (step : Step s l s') {k : K} {d : T}
    (due : s'.cells.due k = some d) : s.cells.due k = some d ∨ Stamps k d l := by
  cases step with
  | opened i => exact Or.inl due
  | called i s query stored lists =>
    cases query with
    | value j | due j =>
      rcases touch_eq s.clock s.cells j k with ⟨-, same⟩ | ⟨-, -, none⟩
      · exact Or.inl (same.symm.trans due)
      · exact absurd (none.symm.trans due) nofun
    | update j op =>
      rcases apply_due due with old | ⟨ok, rfl, gives⟩
      · exact Or.inl old
      · refine Or.inr ?_
        simp only [answer, ok]
        exact .update i s.clock op gives
    | keys | nothing => exact Or.inl due
  | ticked s t c swept =>
    rcases swept k with ⟨-, same⟩ | ⟨-, -, none⟩
    · exact Or.inl (same.symm.trans due)
    · exact absurd (none.symm.trans due) nofun

theorem Step.clock {s s' : Store K V T} {l : Label I K V T} (step : Step s l s')
    (labels : List (Label I K V T)) :
    s'.clock = s.clock ∨ Label.ticked s'.clock ∈ l :: labels := by
  cases step with
  | opened | called => exact Or.inl rfl
  | ticked s t c swept => exact Or.inr List.mem_cons_self

theorem path_written {s s' : Store K V T} {labels : List (Label I K V T)}
    (path : Path Step s labels s') (k : K) :
    s'.cells.val k = written k (s.cells.val k) labels ∨ s'.cells.val k = none := by
  suffices general : ∀ v, s.cells.val k = v ∨ s.cells.val k = none →
      s'.cells.val k = written k v labels ∨ s'.cells.val k = none from general _ (Or.inl rfl)
  induction path with
  | nil s => exact fun v start => start
  | @cons s l mid labels s' first rest ih =>
    intro v start
    refine ih (l.write k v) ?_
    rcases first.val k with same | ⟨-, none⟩
    · rcases start with start | start
      · exact Or.inl (start ▸ same)
      · -- Without a value, only a write that needs none makes one.
        rw [same, start]
        unfold Label.write
        split
        · split
          · rename_i op _
            cases op <;> simp [leaves]
          · exact Or.inr rfl
        · exact Or.inr rfl
    · exact Or.inr none

theorem Outlasts.rest {s s' : Store K V T} {l : Label I K V T} {labels : List (Label I K V T)}
    {k : K} (lasts : Outlasts k s (l :: labels)) (first : Step s l s') : Outlasts k s' labels := by
  intro d given t shown
  refine lasts d ?_ t ?_
  · rcases given with due | ⟨l', there, stamps⟩
    · rcases first.due due with old | stamps
      · exact Or.inl old
      · exact Or.inr ⟨l, List.mem_cons_self, stamps⟩
    · exact Or.inr ⟨l', List.mem_cons_of_mem _ there, stamps⟩
  · rcases shown with rfl | there
    · exact first.clock labels
    · exact Or.inr (List.mem_cons_of_mem _ there)

theorem path_kept {s s' : Store K V T} {labels : List (Label I K V T)}
    (path : Path Step s labels s') {k : K} (lasts : Outlasts k s labels) :
    s'.cells.val k = written k (s.cells.val k) labels ∧ past s'.clock (s'.cells.due k) = false := by
  have fresh {s : Store K V T} {labels : List (Label I K V T)} (lasts : Outlasts k s labels) {t : T}
      (shown : t = s.clock ∨ Label.ticked t ∈ labels) : past t (s.cells.due k) = false := by
    cases due : s.cells.due k with
    | none => rfl
    | some d => exact decide_eq_false (lasts d (Or.inl due) t shown)
  induction path with
  | nil s => exact ⟨rfl, fresh lasts (Or.inl rfl)⟩
  | @cons s l mid labels s' first rest ih =>
    obtain ⟨value, live⟩ := ih (lasts.rest first)
    refine ⟨value.trans ?_, live⟩
    rcases first.val k with same | ⟨passed, -⟩
    · rw [same, written, written, List.foldl_cons]
    · rw [fresh lasts (first.clock labels)] at passed
      cases passed

/-- The reads of a history: what is read was written last, and what was written last is read
unless a deadline has passed. -/
theorem path_reads {s s' : Store K V T} {before after : List (Label I K V T)} {i : I} {t : T}
    {k : K} {v : Option V}
    (path : Path Step s (before ++ .called i t (.value k) (.value v) :: after) s') :
    (v = written k (s.cells.val k) before ∨ v = none) ∧
      (Outlasts k s before → v = written k (s.cells.val k) before) := by
  obtain ⟨u, u', front, there, -⟩ := path.split
  obtain ⟨clock, read⟩ : t = u.clock ∧ v = (settle u.clock u.cells).val k := by
    generalize label : Label.called i t (.value k) (.value v) = l at there
    cases there with
    | opened | ticked => cases label
    | called i u query stored lists =>
      injection label with _ clock query reply
      subst query
      exact ⟨clock, Reply.value.inj reply⟩
  subst read
  constructor
  · simp only [settle]
    split
    · exact Or.inr rfl
    · exact path_written front k
  · intro lasts
    obtain ⟨value, live⟩ := path_kept front lasts
    simp only [settle, live, Bool.false_eq_true, if_false, value]

end System

/-! The calls of one party. -/

structure Exchange (K V T : Type*) where
  time : T
  query : Query K V T
  reply : Reply K V T

section Party
variable [DecidableEq I]

/-- What a label adds to the conversation with `i`, which starts anew when it is opened. -/
def heard (i : I) (talk : List (Exchange K V T)) : Label I K V T → List (Exchange K V T)
  | .opened j => if j = i then [] else talk
  | .called j t query reply => if j = i then talk ++ [⟨t, query, reply⟩] else talk
  | .ticked _ => talk

def conversation (i : I) (talk : List (Exchange K V T)) (labels : List (Label I K V T)) :
    List (Exchange K V T) :=
  labels.foldl (heard i) talk

theorem heard_called_self (i : I) (talk : List (Exchange K V T)) (t : T) (query : Query K V T)
    (reply : Reply K V T) :
    heard i talk (.called i t query reply) = talk ++ [⟨t, query, reply⟩] := if_pos rfl

theorem heard_called_ne {i j : I} (other : j ≠ i) (talk : List (Exchange K V T)) (t : T)
    (query : Query K V T) (reply : Reply K V T) :
    heard i talk (.called j t query reply) = talk := if_neg other

theorem conversation_append (i : I) (talk : List (Exchange K V T))
    (before after : List (Label I K V T)) : conversation i talk (before ++ after) =
      conversation i (conversation i talk before) after :=
  List.foldl_append

theorem conversation_goes_on {i : I} (talk : List (Exchange K V T))
    {labels : List (Label I K V T)} (on : .opened i ∉ labels) :
    talk <+: conversation i talk labels := by
  induction labels generalizing talk with
  | nil => exact List.prefix_rfl
  | cons l labels ih =>
    obtain ⟨first, later⟩ := not_or.mp (mt List.mem_cons.mpr on)
    have now : talk <+: heard i talk l := by
      cases l with
      | opened j =>
        have other : j ≠ i := fun same => first (congrArg Label.opened same.symm)
        exact ⟨[], by rw [List.append_nil, heard, if_neg other]⟩
      | called j t query reply =>
        rw [heard]
        split
        · exact List.prefix_append talk _
        · exact List.prefix_rfl
      | ticked t => exact List.prefix_rfl
    exact now.trans (ih _ later)

/-- The exchange with `n` others in front of it has its place in the history, and `i` is not
opened again behind that. -/
theorem conversation_get {i : I} {talk : List (Exchange K V T)} {labels : List (Label I K V T)}
    {n : Nat} {exchange : Exchange K V T} (told : (conversation i talk labels)[n]? = some exchange) :
    (talk[n]? = some exchange ∧ .opened i ∉ labels) ∨ ∃ before after,
      labels = before ++ .called i exchange.time exchange.query exchange.reply :: after ∧
        (conversation i talk before).length = n ∧ .opened i ∉ after := by
  induction labels generalizing talk with
  | nil => exact Or.inl ⟨told, List.not_mem_nil⟩
  | cons l labels ih =>
    rcases ih told with ⟨now, later⟩ | ⟨before, after, rfl, count, later⟩
    · cases l with
      | opened j =>
        simp only [heard] at now
        split at now
        · rw [List.getElem?_nil] at now
          cases now
        · rename_i other
          have fresh : Label.opened i ∉ Label.opened j :: labels := by
            simpa [Ne.symm other] using later
          exact Or.inl ⟨now, fresh⟩
      | called j t query reply =>
        simp only [heard] at now
        split at now
        · rename_i same
          by_cases old : n < talk.length
          · rw [List.getElem?_append_left old] at now
            exact Or.inl ⟨now, by simpa using later⟩
          · rw [List.getElem?_append_right (not_lt.mp old), List.getElem?_singleton] at now
            split at now
            · obtain rfl := Option.some.inj now
              have count : talk.length = n := by omega
              exact Or.inr ⟨[], labels, by rw [same, List.nil_append], count, later⟩
            · cases now
        · exact Or.inl ⟨now, by simpa using later⟩
      | ticked t => exact Or.inl ⟨now, by simpa using later⟩
    · exact Or.inr ⟨l :: before, after, rfl, count, later⟩

end Party

end ByteKV.ExpiringStore
