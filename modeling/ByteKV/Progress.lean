import ByteKV.Transition

/-! Progress under justice, with a bound. As long as the goal is not reached some kind of event
is of use, and stays so until the rank has grown; so a round in which each kind has its turn
raises the rank, and there are no more rounds than the rank has room for. -/
namespace ByteKV.Progress
open Transition

variable {σ ε κ : Type*} {step : σ → ε → σ} {Live Goal : σ → Prop} {Calm : ε → Prop}
  {Useful : κ → σ → Prop} {Turn : κ → ε → Prop} {rank : σ → Nat}

def Reaches (step : σ → ε → σ) (Goal : σ → Prop) (s : σ) (events : List ε) : Prop :=
  ∃ front back, events = front ++ back ∧ Goal (run step s front)

theorem Reaches.append {s : σ} {events : List ε} (reaches : Reaches step Goal s events)
    (more : List ε) : Reaches step Goal s (events ++ more) := by
  obtain ⟨front, back, rfl, goal⟩ := reaches
  exact ⟨front, back ++ more, List.append_assoc _ _ _, goal⟩

theorem Reaches.after {s : σ} {before events : List ε}
    (reaches : Reaches step Goal (run step s before) events) :
    Reaches step Goal s (before ++ events) := by
  obtain ⟨front, back, rfl, goal⟩ := reaches
  exact ⟨before ++ front, back, (List.append_assoc _ _ _).symm, run_append step s before front ▸ goal⟩

/-- Nothing has been gained between `s` and `s'`, and nothing of use has been passed over. -/
def Level (Useful : κ → σ → Prop) (Turn : κ → ε → Prop) (rank : σ → Nat) (s : σ) (events : List ε)
    (s' : σ) : Prop :=
  rank s = rank s' ∧ ∀ k, Useful k s → Useful k s' ∧ ∀ e ∈ events, ¬ Turn k e

structure Justice (step : σ → ε → σ) (Live Goal : σ → Prop) (Calm : ε → Prop)
    (Useful : κ → σ → Prop) (Turn : κ → ε → Prop) (rank : σ → Nat) : Prop where
  useful : ∀ s, Live s → ∃ k, Useful k s
  step : ∀ s e, Live s → Calm e → Goal (step s e) ∨
    (Live (step s e) ∧
      (rank s < rank (step s e) ∨ Level Useful Turn rank s [e] (step s e)))

section Justice
variable (justice : Justice step Live Goal Calm Useful Turn rank)
include justice

theorem Justice.run {s : σ} (live : Live s) {events : List ε} (calm : ∀ e ∈ events, Calm e) :
    Reaches step Goal s events ∨ (Live (run step s events) ∧
      (rank s < rank (run step s events) ∨ Level Useful Turn rank s events (run step s events))) := by
  induction events generalizing s with
  | nil => exact Or.inr ⟨live, Or.inr ⟨rfl, fun k useful => ⟨useful, nofun⟩⟩⟩
  | cons e events ih =>
    rcases justice.step s e live (calm e List.mem_cons_self) with goal | ⟨next, first⟩
    · exact Or.inl ⟨[e], events, rfl, goal⟩
    · rcases ih next fun f hf => calm f (List.mem_cons_of_mem _ hf) with reaches | ⟨final, rest⟩
      · exact Or.inl (show Reaches step Goal s ([e] ++ events) from reaches.after)
      · refine Or.inr ⟨final, ?_⟩
        rw [run_cons]
        rcases first with more | ⟨same, useful⟩ <;> rcases rest with more' | ⟨same', useful'⟩
        · exact Or.inl (Nat.lt_trans more more')
        · exact Or.inl (Nat.lt_of_lt_of_eq more same')
        · exact Or.inl (same ▸ more')
        · refine Or.inr ⟨same.trans same', fun k h => ?_⟩
          obtain ⟨kept, first⟩ := useful k h
          obtain ⟨kept', rest⟩ := useful' k kept
          exact ⟨kept', List.forall_mem_cons.mpr ⟨first e (List.mem_singleton_self e), rest⟩⟩

theorem Justice.round {s : σ} (live : Live s) {round : List ε} (calm : ∀ e ∈ round, Calm e)
    (fair : ∀ k, ∃ e ∈ round, Turn k e) :
    Reaches step Goal s round ∨ (Live (Transition.run step s round) ∧
      rank s < rank (Transition.run step s round)) := by
  rcases justice.run live calm with reaches | ⟨final, more | ⟨-, level⟩⟩
  · exact Or.inl reaches
  · exact Or.inr ⟨final, more⟩
  · obtain ⟨k, useful⟩ := justice.useful s live
    obtain ⟨e, member, turn⟩ := fair k
    exact absurd turn ((level k useful).2 e member)

theorem Justice.rounds {s : σ} (live : Live s) {rounds : List (List ε)}
    (calm : ∀ round ∈ rounds, ∀ e ∈ round, Calm e)
    (fair : ∀ round ∈ rounds, ∀ k, ∃ e ∈ round, Turn k e) :
    Reaches step Goal s rounds.flatten ∨ (Live (Transition.run step s rounds.flatten) ∧
      rank s + rounds.length ≤ rank (Transition.run step s rounds.flatten)) := by
  induction rounds generalizing s with
  | nil => exact Or.inr ⟨live, Nat.le_refl _⟩
  | cons round rounds ih =>
    rw [List.flatten_cons]
    rcases justice.round live (calm round List.mem_cons_self) (fair round List.mem_cons_self) with
      reaches | ⟨next, more⟩
    · exact Or.inl (reaches.append _)
    · rcases ih next (fun r hr => calm r (List.mem_cons_of_mem _ hr))
        (fun r hr => fair r (List.mem_cons_of_mem _ hr)) with reaches | ⟨final, rest⟩
      · exact Or.inl reaches.after
      · rw [run_append, List.length_cons]
        exact Or.inr ⟨final, by omega⟩

/-- More rounds than the rank has room for reach the goal. -/
theorem Justice.reaches {bound : Nat} (room : ∀ s, Live s → rank s ≤ bound) {s : σ} (live : Live s)
    {rounds : List (List ε)} (calm : ∀ round ∈ rounds, ∀ e ∈ round, Calm e)
    (fair : ∀ round ∈ rounds, ∀ k, ∃ e ∈ round, Turn k e) (enough : bound < rank s + rounds.length) :
    Reaches step Goal s rounds.flatten := by
  rcases justice.rounds live calm fair with reaches | ⟨final, more⟩
  · exact reaches
  · exact absurd (Nat.lt_of_lt_of_le enough more) (Nat.not_lt.mpr (room _ final))

end Justice

end ByteKV.Progress
