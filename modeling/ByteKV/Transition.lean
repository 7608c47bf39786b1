import Mathlib.Data.List.Basic

/-! Runs of a deterministic machine. A run is a list of events consumed by a
total step function; an assumption on the events may depend on the state each of
them meets. Nothing here knows what the states are. -/
namespace ByteKV.Transition

variable {σ ε : Type*} (step : σ → ε → σ)

def run (s : σ) (events : List ε) : σ := events.foldl step s

@[simp] theorem run_nil (s : σ) : run step s [] = s := rfl

@[simp] theorem run_cons (s : σ) (e : ε) (events : List ε) :
    run step s (e :: events) = run step (step s e) events := rfl

theorem run_append (s : σ) (before after : List ε) :
    run step s (before ++ after) = run step (run step s before) after := by
  simp [run]

theorem run_concat (s : σ) (events : List ε) (e : ε) :
    run step s (events ++ [e]) = step (run step s events) e := by
  simp [run_append]

/-- `P` holds of every event of the run together with the state that event meets. -/
def Along (P : σ → ε → Prop) (s : σ) : List ε → Prop
  | [] => True
  | e :: events => P s e ∧ Along P (step s e) events

instance Along.decidable (P : σ → ε → Prop) [∀ s e, Decidable (P s e)] :
    (s : σ) → (events : List ε) → Decidable (Along step P s events)
  | _, [] => inferInstanceAs (Decidable True)
  | s, e :: events =>
      have := Along.decidable P (step s e) events
      inferInstanceAs (Decidable (P s e ∧ Along step P (step s e) events))

variable {step}

theorem along_append {P : σ → ε → Prop} {s : σ} {before after : List ε} :
    Along step P s (before ++ after) ↔
      Along step P s before ∧ Along step P (run step s before) after := by
  induction before generalizing s with
  | nil => simp [Along]
  | cons e before ih => simp [Along, ih, and_assoc]

theorem Along.mono {P Q : σ → ε → Prop} {s : σ} {events : List ε}
    (h : Along step P s events) (sub : ∀ s e, P s e → Q s e) : Along step Q s events := by
  induction events generalizing s with
  | nil => trivial
  | cons e events ih => exact ⟨sub _ _ h.1, ih h.2⟩

theorem along_iff_forall {P : σ → ε → Prop} {s : σ} {events : List ε} :
    Along step P s events ↔
      ∀ before e after, events = before ++ e :: after → P (run step s before) e := by
  constructor
  · rintro h before e after rfl
    exact (along_append.mp h).2.1
  · intro h
    induction events generalizing s with
    | nil => trivial
    | cons e events ih =>
      refine ⟨h [] e events rfl, ih fun before f after split => ?_⟩
      exact h (e :: before) f after (by rw [split, List.cons_append])

/-- An invariant kept by every step that meets the assumption holds at the end
of every run whose steps all meet it. -/
theorem run_invariant {I : σ → Prop} {P : σ → ε → Prop}
    (keep : ∀ s e, I s → P s e → I (step s e)) {s : σ} {events : List ε}
    (start : I s) (h : Along step P s events) : I (run step s events) := by
  induction events generalizing s with
  | nil => exact start
  | cons e events ih => exact ih (keep s e start h.1) h.2

theorem run_invariant_always {I : σ → Prop} (keep : ∀ s e, I s → I (step s e))
    {s : σ} (start : I s) (events : List ε) : I (run step s events) := by
  induction events generalizing s with
  | nil => exact start
  | cons e events ih => exact ih (keep s e start)

/-! Machines that answer every event, and what it takes for one to stand for another. -/

section Answers
variable {τ ω : Type*}

def answers (step : σ → ε → σ × ω) (s : σ) : List ε → List ω
  | [] => []
  | e :: events => (step s e).2 :: answers step (step s e).1 events

/-- Related states answer alike and stay related. -/
def Simulates (step : σ → ε → σ × ω) (step' : τ → ε → τ × ω) (R : σ → τ → Prop) : Prop :=
  ∀ s t e, R s t → (step s e).2 = (step' t e).2 ∧ R (step s e).1 (step' t e).1

theorem Simulates.run {step : σ → ε → σ × ω} {step' : τ → ε → τ × ω} {R : σ → τ → Prop}
    (sim : Simulates step step' R) {s : σ} {t : τ} (related : R s t) (events : List ε) :
    answers step s events = answers step' t events ∧
      R (run (fun s e => (step s e).1) s events) (run (fun t e => (step' t e).1) t events) := by
  induction events generalizing s t with
  | nil => exact ⟨rfl, related⟩
  | cons e events ih =>
    obtain ⟨answer, next⟩ := sim s t e related
    obtain ⟨rest, final⟩ := ih next
    refine ⟨?_, final⟩
    rw [answers, answers, answer, rest]

end Answers

end ByteKV.Transition
