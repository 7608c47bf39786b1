import ByteKV.Transition

/-! Machines that are watched: each step emits labels, and an abstract transition system
explains a run when it has a path with the same labels. Nothing here knows what the labels
are. -/
namespace ByteKV.Emission
open Transition

variable {σ τ ε ℓ : Type*}

inductive Path (tr : τ → ℓ → τ → Prop) : τ → List ℓ → τ → Prop
  | nil (t) : Path tr t [] t
  | cons {t l t' ls t''} (first : tr t l t') (rest : Path tr t' ls t'') : Path tr t (l :: ls) t''

section Path
variable {tr : τ → ℓ → τ → Prop} {t t' t'' : τ} {ls ls' : List ℓ}

theorem Path.single {l : ℓ} (first : tr t l t') : Path tr t [l] t' := .cons first (.nil t')

theorem Path.append (a : Path tr t ls t') (b : Path tr t' ls' t'') : Path tr t (ls ++ ls') t'' := by
  induction a with
  | nil t => exact b
  | cons first rest ih => exact .cons first (ih b)

theorem Path.split {l : ℓ} (path : Path tr t (ls ++ l :: ls') t'') :
    ∃ u u', Path tr t ls u ∧ tr u l u' ∧ Path tr u' ls' t'' := by
  induction ls generalizing t with
  | nil =>
    cases path with
    | cons first rest => exact ⟨t, _, .nil t, first, rest⟩
  | cons k ls ih =>
    cases path with
    | cons first rest =>
      obtain ⟨u, u', front, there, back⟩ := ih rest
      exact ⟨u, u', .cons first front, there, back⟩

end Path

variable (step : σ → ε → σ) (emit : σ → ε → List ℓ)

def emitted (s : σ) : List ε → List ℓ
  | [] => []
  | e :: events => emit s e ++ emitted (step s e) events

variable {step emit}

theorem run_path {tr : τ → ℓ → τ → Prop} {abs : σ → τ} {I : σ → Prop} {P : σ → ε → Prop}
    (keep : ∀ s e, I s → P s e → I (step s e))
    (explain : ∀ s e, I s → P s e → Path tr (abs s) (emit s e) (abs (step s e)))
    {s : σ} {events : List ε} (start : I s) (ok : Along step P s events) :
    Path tr (abs s) (emitted step emit s events) (abs (run step s events)) := by
  induction events generalizing s with
  | nil => exact .nil _
  | cons e events ih => exact (explain s e start ok.1).append (ih (keep s e start ok.1) ok.2)

/-- A machine that another one drives: the events it takes are what the other one emits. -/
theorem run_emitted {drive : τ → ℓ → τ} {f : σ → τ}
    (follow : ∀ s e, f (step s e) = run drive (f s) (emit s e)) (s : σ) (events : List ε) :
    f (run step s events) = run drive (f s) (emitted step emit s events) := by
  induction events generalizing s with
  | nil => rfl
  | cons e events ih => rw [run_cons, ih, follow, emitted, run_append]

end ByteKV.Emission
