import Mathlib.Order.Lattice
import Mathlib.Logic.Function.Basic
import Mathlib.Data.List.Induction

/-! Logs of updates to a map whose keys may carry a deadline, over arbitrary keys,
values and time points. Replaying a log at time `t` skips every entry whose own
deadline has passed and stops at the first entry that is refused. Two questions
are answered in general: what a replayed log holds, by the position of its
entries alone, and which updates keep replay in step with the map they were
logged from. -/
namespace ByteKV.ExpiringLog

variable {K V T : Type*}

@[ext] structure Cells (K V T : Type*) where
  val : K → Option V
  due : K → Option T

def Cells.empty : Cells K V T := ⟨fun _ => none, fun _ => none⟩

inductive Op (V T : Type*)
  | put (v : V)
  | putTill (v : V) (d : T)
  | till (d : T)
  | keep
  | drop
  | refuse

structure Entry (K V T : Type*) where
  key : K
  op : Op V T
  deadline : Option T

def Entry.Stamped (e : Entry K V T) : Prop :=
  match e.op with
  | .putTill _ d | .till d => e.deadline = some d
  | _ => e.deadline = none

def Op.sets : Op V T → Prop
  | .put _ | .putTill _ _ => True
  | _ => False

def Op.clears : Op V T → Prop
  | .drop => True
  | _ => False

def Op.times : Op V T → Prop
  | .putTill _ _ | .till _ => True
  | _ => False

def Op.untimes : Op V T → Prop
  | .drop | .keep => True
  | _ => False

def Cells.Consistent (c : Cells K V T) : Prop := ∀ k, c.val k = none → c.due k = none

section Past
variable [LinearOrder T]

def past (t : T) : Option T → Bool
  | some d => d < t
  | none => false

@[simp] theorem past_none (t : T) : past t none = false := rfl

@[simp] theorem past_some (t d : T) : past t (some d) = decide (d < t) := rfl

theorem past_mono {t u : T} (h : t ≤ u) {d : Option T} (hd : past t d) : past u d := by
  cases d with
  | none => simp at hd
  | some d => simpa using (of_decide_eq_true hd).trans_le h

/-- What is left of a map once every key whose deadline has passed is gone. -/
def settle (t : T) (c : Cells K V T) : Cells K V T where
  val k := if past t (c.due k) then none else c.val k
  due k := if past t (c.due k) then none else c.due k

@[simp] theorem settle_empty (t : T) : settle t (Cells.empty : Cells K V T) = .empty := by
  ext <;> simp [settle, Cells.empty]

theorem settle_eq_self {t : T} {c : Cells K V T} (h : ∀ k, past t (c.due k) = false) :
    settle t c = c := by
  ext k <;> simp [settle, h k]

@[simp] theorem settle_settle (t : T) (c : Cells K V T) : settle t (settle t c) = settle t c := by
  refine settle_eq_self fun k => ?_
  by_cases passed : past t (c.due k)
  · simp [settle, passed]
  · simp [settle, passed]

end Past

section Apply
variable [DecidableEq K]

/-- One update of the key `k`; the flag is false when it is refused. -/
def Op.apply (k : K) (c : Cells K V T) : Op V T → Cells K V T × Bool
  | .put v => (⟨Function.update c.val k (some v), c.due⟩, true)
  | .putTill v d => (⟨Function.update c.val k (some v), Function.update c.due k (some d)⟩, true)
  | .till d =>
      if (c.val k).isSome then (⟨c.val, Function.update c.due k (some d)⟩, true) else (c, false)
  | .keep => (⟨c.val, Function.update c.due k none⟩, (c.due k).isSome)
  | .drop => (⟨Function.update c.val k none, Function.update c.due k none⟩, (c.val k).isSome)
  | .refuse => (c, false)

def Entry.apply (e : Entry K V T) (c : Cells K V T) : Cells K V T × Bool :=
  e.op.apply e.key c

def Cells.erase (c : Cells K V T) (k : K) : Cells K V T :=
  ⟨Function.update c.val k none, Function.update c.due k none⟩

theorem Entry.apply_of_ne (e : Entry K V T) (c : Cells K V T) {k : K} (h : k ≠ e.key) :
    (e.apply c).1.val k = c.val k ∧ (e.apply c).1.due k = c.due k := by
  unfold Entry.apply
  cases e.op with
  | till d => by_cases held : (c.val e.key).isSome <;> simp [Op.apply, held, h]
  | _ => simp [Op.apply, h]

theorem Entry.apply_val_self {e : Entry K V T} {c : Cells K V T} {v : V}
    (h : (e.apply c).1.val e.key = some v) :
    c.val e.key = some v ∨ e.op = .put v ∨ ∃ d, e.op = .putTill v d := by
  unfold Entry.apply at h
  cases hop : e.op with
  | till d =>
    by_cases held : (c.val e.key).isSome <;> simp [hop, Op.apply, held] at h <;> exact Or.inl h
  | _ => simp_all [Op.apply]

theorem Entry.apply_due_self {e : Entry K V T} {c : Cells K V T} {d : T}
    (h : (e.apply c).1.due e.key = some d) :
    c.due e.key = some d ∨ e.op = .till d ∨ ∃ v, e.op = .putTill v d := by
  unfold Entry.apply at h
  cases hop : e.op with
  | till d' => by_cases held : (c.val e.key).isSome <;> simp_all [Op.apply]
  | _ => simp_all [Op.apply]

theorem Entry.apply_consistent (e : Entry K V T) {c : Cells K V T} (h : c.Consistent) :
    (e.apply c).1.Consistent := by
  intro k
  by_cases hk : k = e.key
  · subst hk
    have hc := h e.key
    unfold Entry.apply
    cases e.op with
    | till d =>
      by_cases held : (c.val e.key).isSome
      · simp [Op.apply, held, Option.isSome_iff_ne_none.mp held]
      · simpa [Op.apply, held] using hc
    | keep | put _ | putTill _ _ | drop => simp [Op.apply]
    | refuse => exact hc
  · obtain ⟨hv, hd⟩ := e.apply_of_ne c hk
    rw [hv, hd]
    exact h k

theorem Cells.erase_consistent {c : Cells K V T} (h : c.Consistent) (k : K) :
    (c.erase k).Consistent := by
  intro j
  by_cases hj : j = k
  · simp [Cells.erase, hj]
  · simpa [Cells.erase, hj] using h j

variable [LinearOrder T]

def replay (t : T) : List (Entry K V T) → Cells K V T → Cells K V T × Bool
  | [], c => (c, true)
  | e :: es, c =>
      if past t e.deadline then replay t es c
      else if (e.apply c).2 then replay t es (e.apply c).1
      else ((e.apply c).1, false)

theorem replay_append (t : T) (es fs : List (Entry K V T)) (c : Cells K V T) :
    replay t (es ++ fs) c =
      if (replay t es c).2 then replay t fs (replay t es c).1 else replay t es c := by
  induction es generalizing c with
  | nil => simp [replay]
  | cons e es ih =>
    simp only [List.cons_append, replay]
    split
    · exact ih c
    · split
      · exact ih _
      · simp

def Entry.Timely (e : Entry K V T) : Prop :=
  ∀ d, (e.op = .till d ∨ ∃ v, e.op = .putTill v d) → e.deadline = some d

theorem replay_not_past {t : T} {es : List (Entry K V T)} (timely : ∀ e ∈ es, e.Timely)
    {c : Cells K V T} (h : ∀ k, past t (c.due k) = false) (k : K) :
    past t ((replay t es c).1.due k) = false := by
  induction es generalizing c with
  | nil => exact h k
  | cons e es ih =>
    have rest := fun f hf => timely f (List.mem_cons_of_mem _ hf)
    simp only [replay]
    split
    · exact ih rest h
    · rename_i live
      have next : ∀ k, past t ((e.apply c).1.due k) = false := by
        intro k
        by_cases hk : k = e.key
        · subst hk
          cases hd : (e.apply c).1.due e.key with
          | none => rfl
          | some d =>
            rcases Entry.apply_due_self hd with old | new
            · exact old ▸ h e.key
            · rw [← timely e List.mem_cons_self d new]
              exact Bool.not_eq_true _ |>.mp live
        · exact (e.apply_of_ne c hk).2 ▸ h k
      split
      · exact ih rest next
      · exact next k

end Apply

/-! What a replayed log holds, read off the positions of its entries. -/

section Position
variable [LinearOrder T]

/-- An unexpired entry of `k` has an update in `on`, and no unexpired entry of
`k` after it has one in `off`. -/
def Lasting (on off : Op V T → Prop) (t : T) (es : List (Entry K V T)) (k : K) : Prop :=
  ∃ before e after, es = before ++ e :: after ∧ e.key = k ∧ past t e.deadline = false ∧
    on e.op ∧ ∀ d ∈ after, d.key = k → past t d.deadline = false → ¬ off d.op

def Bears (t : T) (es : List (Entry K V T)) (k : K) : Prop :=
  Lasting Op.sets Op.clears t es k

def Timed (t : T) (es : List (Entry K V T)) (k : K) : Prop :=
  Lasting Op.times Op.untimes t es k

/-- An unexpired entry finds what it needs in the entries before it. -/
def Entry.Grounded (t : T) (before : List (Entry K V T)) (e : Entry K V T) : Prop :=
  past t e.deadline = false →
    match e.op with
    | .put _ | .putTill _ _ => True
    | .till _ | .drop => Bears t before e.key
    | .keep => Timed t before e.key
    | .refuse => False

def Intact (t : T) (es : List (Entry K V T)) : Prop :=
  ∀ before e after, es = before ++ e :: after → e.Grounded t before

theorem concat_eq_append_cons {α : Type*} {xs before after : List α} {x e : α} :
    xs ++ [x] = before ++ e :: after ↔
      (before = xs ∧ e = x ∧ after = []) ∨
        ∃ rest, after = rest ++ [x] ∧ xs = before ++ e :: rest := by
  constructor
  · intro h
    rcases List.eq_nil_or_concat after with rfl | ⟨rest, y, rfl⟩
    · obtain ⟨hb, he⟩ := List.append_inj' h rfl
      exact Or.inl ⟨hb.symm, (List.singleton_inj.mp he).symm, rfl⟩
    · rw [List.concat_eq_append, ← List.cons_append, ← List.append_assoc] at h
      obtain ⟨hb, he⟩ := List.append_inj' h rfl
      obtain rfl := List.singleton_inj.mp he
      exact Or.inr ⟨rest, by simp, hb⟩
  · rintro (⟨rfl, rfl, rfl⟩ | ⟨rest, rfl, rfl⟩) <;> simp

theorem intact_nil (t : T) : Intact t ([] : List (Entry K V T)) := by
  intro before e after split
  simp at split

theorem intact_concat {t : T} {es : List (Entry K V T)} {e : Entry K V T} :
    Intact t (es ++ [e]) ↔ Intact t es ∧ e.Grounded t es := by
  constructor
  · intro h
    refine ⟨fun before f after split => ?_, h es e [] rfl⟩
    exact h before f (after ++ [e]) (by simp [split])
  · rintro ⟨h, he⟩ before f after split
    rcases concat_eq_append_cons.mp split with ⟨rfl, rfl, rfl⟩ | ⟨rest, rfl, hes⟩
    · exact he
    · exact h before f rest hes

theorem lasting_nil (on off : Op V T → Prop) (t : T) (k : K) : ¬ Lasting on off t [] k := by
  rintro ⟨before, e, after, split, -⟩
  simp at split

theorem lasting_concat {on off : Op V T → Prop} {t : T} {es : List (Entry K V T)}
    {e : Entry K V T} {k : K} :
    Lasting on off t (es ++ [e]) k ↔
      (e.key = k ∧ past t e.deadline = false ∧ on e.op) ∨
        (Lasting on off t es k ∧ (e.key = k → past t e.deadline = false → ¬ off e.op)) := by
  constructor
  · rintro ⟨before, f, after, split, hk, hp, hon, hoff⟩
    rcases concat_eq_append_cons.mp split with ⟨rfl, rfl, rfl⟩ | ⟨rest, rfl, hes⟩
    · exact Or.inl ⟨hk, hp, hon⟩
    · exact Or.inr ⟨⟨before, f, rest, hes, hk, hp, hon, fun d hmem => hoff d (by simp [hmem])⟩,
        hoff e (by simp)⟩
  · rintro (⟨hk, hp, hon⟩ | ⟨⟨before, f, after, rfl, hk, hp, hon, hoff⟩, he⟩)
    · exact ⟨es, e, [], rfl, hk, hp, hon, by simp⟩
    · refine ⟨before, f, after ++ [e], by simp, hk, hp, hon, fun d hmem => ?_⟩
      rcases List.mem_append.mp hmem with hmem | hmem
      · exact hoff d hmem
      · obtain rfl := List.mem_singleton.mp hmem
        exact he

end Position

section Holds
variable [DecidableEq K]

theorem Entry.apply_accepted {e : Entry K V T} {c : Cells K V T} :
    (e.apply c).2 = true ↔
      match e.op with
      | .put _ | .putTill _ _ => True
      | .till _ | .drop => (c.val e.key).isSome
      | .keep => (c.due e.key).isSome
      | .refuse => False := by
  unfold Entry.apply
  cases e.op with
  | till d => by_cases held : (c.val e.key).isSome <;> simp [Op.apply, held]
  | _ => simp [Op.apply]

theorem Entry.apply_refused_eq {e : Entry K V T} {c : Cells K V T} (hc : c.Consistent)
    (h : (e.apply c).2 = false) : (e.apply c).1 = c := by
  unfold Entry.apply at h ⊢
  cases hop : e.op with
  | till d => by_cases held : (c.val e.key).isSome <;> simp_all [Op.apply]
  | keep =>
    have none : c.due e.key = none := by simpa [hop, Op.apply] using h
    simp [Op.apply, ← none]
  | drop =>
    have none : c.val e.key = none := by simpa [hop, Op.apply] using h
    have none' := hc e.key none
    ext1
    · simp [Op.apply, ← none]
    · simp [Op.apply, ← none']
  | refuse => rfl
  | _ => simp [hop, Op.apply] at h

theorem Entry.apply_refused_sub {e : Entry K V T} {c : Cells K V T} (h : (e.apply c).2 = false) :
    (∀ k v, (e.apply c).1.val k = some v → c.val k = some v) ∧
      ∀ k d, (e.apply c).1.due k = some d → c.due k = some d := by
  refine ⟨fun k v hv => ?_, fun k d hd => ?_⟩
  · by_cases hk : k = e.key
    · subst hk
      unfold Entry.apply at h hv
      cases hop : e.op with
      | till d => by_cases held : (c.val e.key).isSome <;> simp_all [Op.apply]
      | _ => simp_all [Op.apply]
    · exact (e.apply_of_ne c hk).1 ▸ hv
  · by_cases hk : k = e.key
    · subst hk
      unfold Entry.apply at h hd
      cases hop : e.op with
      | till d => by_cases held : (c.val e.key).isSome <;> simp_all [Op.apply]
      | _ => simp_all [Op.apply]
    · exact (e.apply_of_ne c hk).2 ▸ hd

theorem Entry.apply_val_isSome {e : Entry K V T} {c : Cells K V T} {k : K} :
    ((e.apply c).1.val k).isSome ↔
      (e.key = k ∧ e.op.sets) ∨ ((c.val k).isSome ∧ (e.key = k → ¬ e.op.clears)) := by
  by_cases hk : k = e.key
  · subst hk
    unfold Entry.apply
    cases e.op with
    | till d =>
      by_cases held : (c.val e.key).isSome <;> simp [Op.apply, Op.sets, Op.clears, held]
    | _ => simp [Op.apply, Op.sets, Op.clears]
  · simp [(e.apply_of_ne c hk).1, Ne.symm hk]

theorem Entry.apply_due_isSome {e : Entry K V T} {c : Cells K V T} {k : K}
    (h : (e.apply c).2 = true) :
    ((e.apply c).1.due k).isSome ↔
      (e.key = k ∧ e.op.times) ∨ ((c.due k).isSome ∧ (e.key = k → ¬ e.op.untimes)) := by
  by_cases hk : k = e.key
  · subst hk
    have accepted := Entry.apply_accepted.mp h
    unfold Entry.apply
    cases hop : e.op with
    | till d =>
      have held : (c.val e.key).isSome := by simpa [hop] using accepted
      simp [Op.apply, Op.times, held]
    | refuse => simp [hop] at accepted
    | _ => simp [Op.apply, Op.times, Op.untimes]
  · simp [(e.apply_of_ne c hk).2, Ne.symm hk]

variable [LinearOrder T]

theorem replay_concat (t : T) (es : List (Entry K V T)) (e : Entry K V T) (c : Cells K V T) :
    replay t (es ++ [e]) c =
      if (replay t es c).2 then
        if past t e.deadline then ((replay t es c).1, true) else e.apply (replay t es c).1
      else replay t es c := by
  rw [replay_append]
  split
  · simp only [replay]
    split
    · rfl
    · split
      · rename_i ok
        rw [← ok]
      · rename_i ok
        rw [← Bool.not_eq_true _ |>.mp ok]
  · rfl

/-- A log replays to the end exactly when it is intact, and then holds the keys
and deadlines that the positions of its entries say it does. -/
theorem replay_holds (t : T) (es : List (Entry K V T)) :
    ((replay t es .empty).2 = true ↔ Intact t es) ∧
      (Intact t es → ∀ k, (((replay t es .empty).1.val k).isSome ↔ Bears t es k) ∧
        (((replay t es .empty).1.due k).isSome ↔ Timed t es k)) := by
  induction es using List.reverseRecOn with
  | nil => simp [replay, intact_nil, Bears, Timed, lasting_nil, Cells.empty]
  | append_singleton es e ih =>
    obtain ⟨done, holds⟩ := ih
    rw [intact_concat, replay_concat]
    by_cases whole : Intact t es
    · have ok := done.mpr whole
      have hval := fun k => (holds whole k).1
      have hdue := fun k => (holds whole k).2
      simp only [ok, if_true, whole, true_and]
      by_cases skipped : past t e.deadline
      · simp [skipped, Entry.Grounded, Bears, Timed, lasting_concat, hval, hdue]
      · have live : past t e.deadline = false := by simpa using skipped
        have grounded : (e.apply (replay t es .empty).1).2 = true ↔ e.Grounded t es := by
          rw [Entry.apply_accepted]
          simp only [Entry.Grounded, live, true_imp_iff]
          cases e.op <;> simp [hval, hdue]
        simp only [live, Bool.false_eq_true, if_false]
        refine ⟨grounded, fun hg k => ⟨?_, ?_⟩⟩
        · rw [Entry.apply_val_isSome, Bears, lasting_concat, hval k]
          simp [live, Bears]
        · rw [Entry.apply_due_isSome (grounded.mpr hg), Timed, lasting_concat, hdue k]
          simp [live, Timed]
    · have stopped : (replay t es .empty).2 = false := by
        simpa using mt done.mp whole
      simp [stopped, whole]

/-- The part of a log that replay gets through before it stops. -/
def Reached (t : T) (es part : List (Entry K V T)) : Prop :=
  Intact t part ∧ (part = es ∨ ∃ e rest, es = part ++ e :: rest ∧ ¬ e.Grounded t part)

omit [DecidableEq K] in
theorem exists_reached (t : T) (es : List (Entry K V T)) : ∃ part, Reached t es part := by
  induction es using List.reverseRecOn with
  | nil => exact ⟨[], intact_nil t, Or.inl rfl⟩
  | append_singleton es e ih =>
    obtain ⟨part, whole, rfl | ⟨f, rest, rfl, stuck⟩⟩ := ih
    · by_cases grounded : e.Grounded t part
      · exact ⟨part ++ [e], intact_concat.mpr ⟨whole, grounded⟩, Or.inl rfl⟩
      · exact ⟨part, whole, Or.inr ⟨e, [], rfl, grounded⟩⟩
    · exact ⟨part, whole, Or.inr ⟨f, rest ++ [e], by simp, stuck⟩⟩

omit [LinearOrder T] in
theorem Entry.apply_refused {e : Entry K V T} {c : Cells K V T} (h : (e.apply c).2 = false)
    (k : K) : ((e.apply c).1.val k).isSome ↔ (c.val k).isSome := by
  have refused : ¬ (e.apply c).2 = true := by simp [h]
  rw [Entry.apply_accepted] at refused
  rw [Entry.apply_val_isSome]
  cases hop : e.op <;> simp_all [Op.sets, Op.clears]
  rintro held rfl
  simp [refused] at held

theorem replay_val_isSome {t : T} {es part : List (Entry K V T)} (h : Reached t es part) (k : K) :
    ((replay t es .empty).1.val k).isSome ↔ Bears t part k := by
  obtain ⟨whole, rfl | ⟨e, rest, rfl, stuck⟩⟩ := h
  · exact ((replay_holds t part).2 whole k).1
  · have ok := (replay_holds t part).1.mpr whole
    have next := mt (replay_holds t (part ++ [e])).1.mp
      (fun hi => stuck (intact_concat.mp hi).2)
    rw [replay_concat, if_pos ok] at next
    have live : ¬ past t e.deadline := fun hp => by simp [hp] at next
    rw [if_neg live, Bool.not_eq_true] at next
    rw [replay_append, if_pos ok]
    simp only [replay, live, next, Bool.false_eq_true, if_false]
    rw [Entry.apply_refused next]
    exact ((replay_holds t part).2 whole k).1

end Holds

/-! When replay stays in step with the map the log was written from. -/

section Track
variable [DecidableEq K] [LinearOrder T]

/-- The update means the same on the map as it stands and on what is left of
it at time `t`. -/
def Entry.Safe (t : T) (c : Cells K V T) (e : Entry K V T) : Prop :=
  match e.op with
  | .put _ | .keep | .drop => past t (c.due e.key) = false
  | .putTill _ d => d < t → (settle t c).val e.key = none
  | .till d => past t (c.due e.key) = decide (d < t)
  | .refuse => True

instance [DecidableEq V] (t : T) (c : Cells K V T) : (e : Entry K V T) → Decidable (e.Safe t c)
  | ⟨k, .put _, _⟩ | ⟨k, .keep, _⟩ | ⟨k, .drop, _⟩ =>
      inferInstanceAs (Decidable (past t (c.due k) = false))
  | ⟨k, .putTill _ d, _⟩ => inferInstanceAs (Decidable (d < t → (settle t c).val k = none))
  | ⟨k, .till d, _⟩ => inferInstanceAs (Decidable (past t (c.due k) = decide (d < t)))
  | ⟨_, .refuse, _⟩ => inferInstanceAs (Decidable True)

omit [DecidableEq K] in
theorem Entry.safe_of_late {t : T} {c : Cells K V T} {e : Entry K V T}
    (stamp : e.Stamped) (hc : past t (c.due e.key) = false) (he : past t e.deadline = false) :
    e.Safe t c := by
  unfold Entry.Safe
  cases hop : e.op with
  | putTill v d =>
    simp only [Entry.Stamped, hop] at stamp
    simp only [stamp, past_some, decide_eq_false_iff_not] at he
    exact fun hd => absurd hd he
  | till d =>
    simp only [Entry.Stamped, hop] at stamp
    simpa [hc, stamp] using he
  | refuse => trivial
  | _ => exact hc

theorem settle_erase {t : T} {c : Cells K V T} {k : K} (h : past t (c.due k)) :
    settle t (c.erase k) = settle t c := by
  ext j
  all_goals
    by_cases hj : j = k
    · subst hj
      simp [settle, Cells.erase, h]
    · simp [settle, Cells.erase, hj]

theorem settle_apply_of_ne {t : T} (c : Cells K V T) (e : Entry K V T) {k : K}
    (h : k ≠ e.key) : (settle t (e.apply c).1).val k = (settle t c).val k ∧
      (settle t (e.apply c).1).due k = (settle t c).due k := by
  simp [settle, e.apply_of_ne c h]

theorem replay_settle {t : T} {c : Cells K V T} {e : Entry K V T} (hc : c.Consistent)
    (stamp : e.Stamped) (safe : e.Safe t c) (ok : (e.apply c).2 = true) :
    replay t [e] (settle t c) = (settle t (e.apply c).1, true) := by
  have accepted := Entry.apply_accepted.mp ok
  have hk := hc e.key
  by_cases skipped : past t e.deadline
  · -- An update that replay skips leaves nothing of its key either way.
    have gone : (settle t c).val e.key = none ∧ (settle t c).due e.key = none := by
      unfold Entry.Safe at safe
      cases hop : e.op <;> simp_all [Entry.Stamped, settle]
    have gone' : (settle t (e.apply c).1).val e.key = none ∧
        (settle t (e.apply c).1).due e.key = none := by
      unfold Entry.apply
      cases hop : e.op <;> simp_all [Entry.Stamped, settle, Op.apply]
    simp only [replay, skipped, if_true, Prod.mk.injEq, and_true]
    ext1 <;> funext k <;> by_cases hke : k = e.key
    · rw [hke, gone.1, gone'.1]
    · rw [(settle_apply_of_ne c e hke).1]
    · rw [hke, gone.2, gone'.2]
    · rw [(settle_apply_of_ne c e hke).2]
  · -- Otherwise the key has not expired, and the update acts alike on both maps.
    have live : past t e.deadline = false := by simpa using skipped
    have here : (e.apply (settle t c)).2 = true ∧
        (e.apply (settle t c)).1.val e.key = (settle t (e.apply c).1).val e.key ∧
        (e.apply (settle t c)).1.due e.key = (settle t (e.apply c).1).due e.key := by
      unfold Entry.Safe at safe
      unfold Entry.apply
      cases hop : e.op with
      | till d =>
        simp only [Entry.Stamped, hop] at stamp
        have late : decide (d < t) = false := by simpa only [stamp, past_some] using live
        simp only [hop] at safe
        have unexpired : past t (c.due e.key) = false := safe.trans late
        have held : (c.val e.key).isSome := by simpa only [hop] using accepted
        have late' : ¬ d < t := of_decide_eq_false late
        simp [settle, Op.apply, unexpired, held, late']
      | _ => simp_all [Entry.Stamped, settle, Op.apply]
    have there := fun k (hne : k ≠ e.key) => e.apply_of_ne (settle t c) hne
    simp only [replay, live, Bool.false_eq_true, if_false, here.1, if_true, Prod.mk.injEq, and_true]
    ext1 <;> funext k <;> by_cases hke : k = e.key
    · rw [hke, here.2.1]
    · rw [(there k hke).1, (settle_apply_of_ne c e hke).1]
    · rw [hke, here.2.2]
    · rw [(there k hke).2, (settle_apply_of_ne c e hke).2]

def Cells.entryOf (c : Cells K V T) (k : K) (v : V) : Entry K V T :=
  match c.due k with
  | some d => ⟨k, .putTill v d, some d⟩
  | none => ⟨k, .put v, none⟩

/-- A snapshot of `c` lists its keys in some order, each with its value and
deadline, and may leave out keys whose deadline has passed by `t`. -/
inductive Snapshot (t : T) (c : Cells K V T) : List (K × V) → List (Entry K V T) → Prop
  | nil : Snapshot t c [] []
  | skip {k v kvs es} (dead : past t (c.due k)) (rest : Snapshot t c kvs es) :
      Snapshot t c ((k, v) :: kvs) es
  | take {k v kvs es} (rest : Snapshot t c kvs es) :
      Snapshot t c ((k, v) :: kvs) (c.entryOf k v :: es)

theorem replay_entryOf {t : T} {c base : Cells K V T} {k : K} {v : V}
    (held : c.val k = some v) (fresh : base.val k = none ∧ base.due k = none)
    (es : List (Entry K V T)) :
    ∃ next, replay t (c.entryOf k v :: es) base = replay t es next ∧
      (next.val k = (settle t c).val k ∧ next.due k = (settle t c).due k) ∧
      ∀ j, j ≠ k → next.val j = base.val j ∧ next.due j = base.due j := by
  cases hd : c.due k with
  | none =>
    refine ⟨((c.entryOf k v).apply base).1, ?_, ?_, fun j hj => ?_⟩
    · simp [Cells.entryOf, hd, replay, Entry.apply, Op.apply]
    · simp [Cells.entryOf, hd, Entry.apply, Op.apply, settle, held, fresh]
    · simp [Cells.entryOf, hd, Entry.apply, Op.apply, hj]
  | some d =>
    by_cases passed : d < t
    · refine ⟨base, ?_, ?_, fun j _ => ⟨rfl, rfl⟩⟩
      · simp [Cells.entryOf, hd, replay, passed]
      · simp [settle, hd, passed, fresh]
    · refine ⟨((c.entryOf k v).apply base).1, ?_, ?_, fun j hj => ?_⟩
      · simp [Cells.entryOf, hd, replay, Entry.apply, Op.apply, passed]
      · simp [Cells.entryOf, hd, Entry.apply, Op.apply, settle, held, passed]
      · simp [Cells.entryOf, hd, Entry.apply, Op.apply, hj]

theorem replay_snapshot_onto {t : T} {c : Cells K V T} {kvs : List (K × V)}
    {es : List (Entry K V T)} (h : Snapshot t c kvs es) (distinct : (kvs.map Prod.fst).Nodup)
    (held : ∀ kv ∈ kvs, c.val kv.1 = some kv.2) (base : Cells K V T)
    (fresh : ∀ kv ∈ kvs, base.val kv.1 = none ∧ base.due kv.1 = none) :
    ∃ c', replay t es base = (c', true) ∧ ∀ k,
      (k ∈ kvs.map Prod.fst → c'.val k = (settle t c).val k ∧ c'.due k = (settle t c).due k) ∧
      (k ∉ kvs.map Prod.fst → c'.val k = base.val k ∧ c'.due k = base.due k) := by
  induction h generalizing base with
  | nil => exact ⟨base, rfl, by simp⟩
  | @skip k v kvs es dead rest ih =>
    obtain ⟨new, distinct⟩ := List.nodup_cons.mp distinct
    obtain ⟨c', done, holds⟩ := ih distinct (fun kv h => held kv (List.mem_cons_of_mem _ h)) base
      (fun kv h => fresh kv (List.mem_cons_of_mem _ h))
    refine ⟨c', done, fun j => ⟨fun hj => ?_, fun hj => (holds j).2 (fun h => hj (by simp [h]))⟩⟩
    by_cases hjk : j = k
    · obtain ⟨hv, hd⟩ := (holds k).2 new
      simpa [hjk, hv, hd, settle, dead] using fresh (k, v) List.mem_cons_self
    · exact (holds j).1 ((List.mem_cons.mp hj).resolve_left hjk)
  | @take k v kvs es rest ih =>
    obtain ⟨new, distinct⟩ := List.nodup_cons.mp distinct
    obtain ⟨next, first, atKey, others⟩ := replay_entryOf (t := t)
      (held (k, v) List.mem_cons_self) (fresh (k, v) List.mem_cons_self) es
    have fresh' : ∀ kv ∈ kvs, next.val kv.1 = none ∧ next.due kv.1 = none := by
      intro kv h
      have ne : kv.1 ≠ k := fun heq => new (List.mem_map.mpr ⟨kv, h, heq⟩)
      rw [(others kv.1 ne).1, (others kv.1 ne).2]
      exact fresh kv (List.mem_cons_of_mem _ h)
    obtain ⟨c', done, holds⟩ := ih distinct (fun kv h => held kv (List.mem_cons_of_mem _ h))
      next fresh'
    refine ⟨c', first.trans done, fun j => ⟨fun hj => ?_, fun hj => ?_⟩⟩
    · by_cases hjk : j = k
      · obtain ⟨hv, hd⟩ := (holds k).2 new
        rw [hjk, hv, hd]
        exact atKey
      · exact (holds j).1 ((List.mem_cons.mp hj).resolve_left hjk)
    · rw [List.map_cons, List.mem_cons, not_or] at hj
      rw [((holds j).2 hj.2).1, ((holds j).2 hj.2).2]
      exact others j hj.1

/-- Replaying a snapshot gives back the map it was taken of, settled. -/
theorem replay_snapshot {t : T} {c : Cells K V T} {kvs : List (K × V)}
    {es : List (Entry K V T)} (h : Snapshot t c kvs es) (distinct : (kvs.map Prod.fst).Nodup)
    (complete : ∀ k v, (k, v) ∈ kvs ↔ c.val k = some v) (hc : c.Consistent) :
    replay t es .empty = (settle t c, true) := by
  obtain ⟨c', done, holds⟩ := replay_snapshot_onto h distinct
    (fun kv hkv => (complete kv.1 kv.2).mp hkv) .empty (fun _ _ => ⟨rfl, rfl⟩)
  rw [done]
  have absent : ∀ k, k ∉ kvs.map Prod.fst → c.val k = none := by
    intro k hk
    cases hv : c.val k with
    | none => rfl
    | some v => exact absurd (List.mem_map.mpr ⟨(k, v), (complete k v).mpr hv, rfl⟩) hk
  refine Prod.ext (Cells.ext (funext fun k => ?_) (funext fun k => ?_)) rfl <;>
    by_cases hk : k ∈ kvs.map Prod.fst
  · exact ((holds k).1 hk).1
  · simp [((holds k).2 hk).1, settle, Cells.empty, absent k hk]
  · exact ((holds k).1 hk).2
  · simp [((holds k).2 hk).2, settle, Cells.empty, hc k (absent k hk)]

end Track

end ByteKV.ExpiringLog
