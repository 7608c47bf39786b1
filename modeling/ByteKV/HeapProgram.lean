import ByteKV.Separation

/-! Programs over a heap, and what can be said of them part by part. A program that reads or
frees what is not there stops with a fault; one that goes on for ever has no outcome. -/
namespace ByteKV.HeapProgram
open Separation Assn

structure Memory (A V : Type) where
  heap : Heap A V
  asked : Nat

/-- Why a program stops: it reads, writes or frees an address where nothing stands, it takes a
block for one of another type, or it leaves an array or fails an assertion. -/
inductive Fault (A : Type)
  | read (a : A)
  | write (a : A)
  | free (a : A)
  | mistaken (a : A)
  | stopped
  deriving DecidableEq, Repr

abbrev Prog (A V : Type) := StateT (Memory A V) (ExceptT (Fault A) Option)

/-- A type of blocks among the contents. -/
class Layout (V W : Type) where
  put : W → V
  get : V → Option W
  get_put (w : W) : get (put w) = some w

structure Allocator (A V : Type) [Zero A] where
  pick : Memory A V → Option A
  fresh {m : Memory A V} {a : A} : pick m = some a → a ≠ 0 ∧ a ∉ m.heap

def Allocator.Ample {A V : Type} [Zero A] (malloc : Allocator A V) : Prop :=
  ∀ m, (malloc.pick m).isSome

variable {A V W : Type} [DecidableEq A] [Layout V W] {α β σ : Type}

def fault (why : Fault A) : Prog A V α := fun _ => some (.error why)

variable (W) in
/-- The block at `a`; `absent` is what it means that there is none. -/
def block (absent : Fault A) (a : A) : Prog A V W := fun m =>
  match m.heap.lookup a with
  | none => some (.error absent)
  | some v =>
      match Layout.get v with
      | none => some (.error (.mistaken a))
      | some w => some (.ok (w, m))

variable (W) in
def load (a : A) : Prog A V W := block W (.read a) a

def store (a : A) (w : W) : Prog A V Unit := do
  let _ ← block W (.write a) a
  modify fun m => { m with heap := m.heap.insert a (Layout.put w) }

/-- The null pointer when there is no memory. -/
def alloc [Zero A] (malloc : Allocator A V) (w : W) : Prog A V A := fun m =>
  match malloc.pick m with
  | some a => some (.ok (a, ⟨m.heap.insert a (Layout.put w), m.asked + 1⟩))
  | none => some (.ok (0, { m with asked := m.asked + 1 }))

/-- The null pointer may be freed. -/
def free [Zero A] (a : A) : Prog A V Unit := fun m =>
  if a ∈ m.heap then some (.ok ((), { m with heap := m.heap.erase a }))
  else if a = 0 then some (.ok ((), m))
  else some (.error (.free a))

/-- The body goes round again, or leaves with a result. -/
def Memory.loop (body : σ → Prog A V (σ ⊕ α)) (s : σ) (m : Memory A V) :
    Option (Except (Fault A) (α × Memory A V)) :=
  match body s m with
  | none => none
  | some (.error why) => some (.error why)
  | some (.ok (.inl s, m)) => m |>.loop body s
  | some (.ok (.inr a, m)) => some (.ok (a, m))
partial_fixpoint

def loop (body : σ → Prog A V (σ ⊕ α)) (s : σ) : Prog A V α := fun m => m.loop body s

/-! One program after another, from one state of the memory. -/

section Runs
variable {m m' : Memory A V} {a : A} {w : W} {why : Fault A}

omit [DecidableEq A] in
@[simp] theorem pure_run (x : α) : (pure x : Prog A V α) m = some (.ok (x, m)) := rfl

omit [DecidableEq A] in
theorem bind_run {c : Prog A V α} {f : α → Prog A V β} {x : α} (ran : c m = some (.ok (x, m'))) :
    (c >>= f) m = f x m' := by
  change Option.bind (c m) _ = _
  rw [ran]
  rfl

omit [DecidableEq A] in
theorem bind_faults {c : Prog A V α} {f : α → Prog A V β} (ran : c m = some (.error why)) :
    (c >>= f) m = some (.error why) := by
  change Option.bind (c m) _ = _
  rw [ran]
  rfl

omit [DecidableEq A] in
theorem bind_ok {c : Prog A V α} {f : α → Prog A V β} {y : β} {m'' : Memory A V}
    (ran : (c >>= f) m = some (.ok (y, m''))) :
    ∃ x m', c m = some (.ok (x, m')) ∧ f x m' = some (.ok (y, m'')) := by
  change Option.bind (c m) _ = _ at ran
  rcases first : c m with _ | why | ⟨x, m'⟩
  · rw [first] at ran
    cases ran
  · rw [first] at ran
    cases ran
  · rw [first] at ran
    exact ⟨x, m', rfl, ran⟩

omit [DecidableEq A] in
theorem loop_eq (body : σ → Prog A V (σ ⊕ α)) (s : σ) :
    loop body s = body s >>= Sum.elim (loop body) pure := by
  funext m
  change m.loop body s = Option.bind (body s m) _
  rw [Memory.loop]
  obtain _ | why | ⟨s | a, m⟩ := body s m
  · rfl
  · rfl
  · rfl
  · rfl

theorem block_run {absent : Fault A} (here : m.heap.lookup a = some (Layout.put w)) :
    block W absent a m = some (.ok (w, m)) := by
  rw [block, here]
  simp only [Layout.get_put]

theorem load_run (here : m.heap.lookup a = some (Layout.put w)) :
    load W a m = some (.ok (w, m)) := block_run here

variable (W) in
theorem load_faults (gone : a ∉ m.heap) : load W a m = some (.error (.read a)) := by
  rw [load, block, Finmap.lookup_eq_none.mpr gone]

theorem store_run {w' : W} (here : m.heap.lookup a = some (Layout.put w')) :
    store a w m = some (.ok ((), { m with heap := m.heap.insert a (Layout.put w) })) := by
  rw [store, bind_run (block_run here)]
  rfl

theorem free_run [Zero A] {v : V} (here : m.heap.lookup a = some v) :
    free a m = some (.ok ((), { m with heap := m.heap.erase a })) := by
  rw [free, if_pos (Finmap.mem_of_lookup_eq_some here)]

end Runs

/-- From a part of the heap that meets `P` the program comes to a result whose part meets
`Q`, and leaves the rest of the heap as it was. -/
def Triple (P : Assn A V) (c : Prog A V α) (Q : α → Assn A V) : Prop :=
  ∀ (h rest : Heap A V) (n : Nat), h.Disjoint rest → h ∈ P →
    ∃ a, ∃ h' : Heap A V, ∃ n', c ⟨h ∪ rest, n⟩ = some (.ok (a, ⟨h' ∪ rest, n'⟩)) ∧
      h'.Disjoint rest ∧ h' ∈ Q a

namespace Triple
variable {P P' F : Assn A V} {Q Q' : α → Assn A V} {R : β → Assn A V} {c : Prog A V α}
  {f : α → Prog A V β}

theorem from_nothing (triple : Triple 1 c Q) (rest : Heap A V) (n : Nat) :
    ∃ a, ∃ h : Heap A V, ∃ n', c ⟨rest, n⟩ = some (.ok (a, ⟨h ∪ rest, n'⟩)) ∧ h.Disjoint rest ∧
      h ∈ Q a := by
  have ran := triple ∅ rest n (Finmap.disjoint_empty rest) (mem_one.mpr rfl)
  rwa [Finmap.empty_union] at ran

theorem ret (a : α) : Triple (Q a) (pure a) Q :=
  fun h _ n apart held => ⟨a, h, n, rfl, apart, held⟩

theorem bind (first : Triple P c Q) (second : ∀ a, Triple (Q a) (f a) R) :
    Triple P (c >>= f) R := by
  intro h rest n apart held
  obtain ⟨a, h', n', ran, apart', held'⟩ := first h rest n apart held
  obtain ⟨b, h'', n'', ran', apart'', held''⟩ := second a h' rest n' apart' held'
  exact ⟨b, h'', n'', (bind_run ran).trans ran', apart'', held''⟩

theorem conseq (triple : Triple P c Q) (pre : P' ≤ P) (post : ∀ a, Q a ≤ Q' a) :
    Triple P' c Q' := by
  intro h rest n apart held
  obtain ⟨a, h', n', ran, apart', held'⟩ := triple h rest n apart (pre held)
  exact ⟨a, h', n', ran, apart', post a held'⟩

theorem frame (triple : Triple P c Q) (F : Assn A V) : Triple (P * F) c fun a => Q a * F := by
  rintro _ rest n apart ⟨h, g, inner, rfl, held, framed⟩
  obtain ⟨left, right⟩ := (Finmap.disjoint_union_left h g rest).mp apart
  obtain ⟨a, h', n', ran, apart', held'⟩ := triple h (g ∪ rest) n
    ((Finmap.disjoint_union_right h g rest).mpr ⟨inner, left⟩) held
  obtain ⟨inner', left'⟩ := (Finmap.disjoint_union_right h' g rest).mp apart'
  refine ⟨a, h' ∪ g, n', ?_, (Finmap.disjoint_union_left h' g rest).mpr ⟨left', right⟩,
    h', g, inner', rfl, held', framed⟩
  rw [Finmap.union_assoc, ran, Finmap.union_assoc]

theorem exists_ {ι : Sort*} {P : ι → Assn A V} (each : ∀ i, Triple (P i) c Q) :
    Triple (⨆ i, P i) c Q := by
  intro h rest n apart held
  obtain ⟨i, held⟩ := mem_iSup.mp held
  exact each i h rest n apart held

theorem of_fact {p : Prop} (given : p → Triple P c Q) : Triple (fact p * P) c Q := by
  intro h rest n apart held
  obtain ⟨holds, held⟩ := mem_fact_mul.mp held
  exact given holds h rest n apart held

theorem exists_mul {ι : Type*} {P : ι → Assn A V} (each : ∀ i, Triple (P i * F) c Q) :
    Triple ((⨆ i, P i) * F) c Q := by
  rw [Quantale.iSup_mul_distrib]
  exact exists_ each

theorem of_fact_mul {p : Prop} (given : p → Triple (P * F) c Q) :
    Triple (fact p * P * F) c Q := by
  rw [mul_assoc]
  exact of_fact given

theorem of_le (le : P' ≤ P) (triple : Triple P c Q) : Triple P' c Q :=
  triple.conseq le fun _ => le_rfl

theorem of_run {c' : Prog A V α} (same : ∀ m : Memory A V, m.heap ∈ within P → c m = c' m)
    (triple : Triple P c' Q) : Triple P c Q := by
  intro h rest n apart held
  rw [same ⟨h ∪ rest, n⟩ (mem_within.mpr ⟨h, rest, apart, rfl, held⟩)]
  exact triple h rest n apart held

theorem of_reads {φ : α → Prop} (reads : ∀ m : Memory A V, m.heap ∈ within P →
    ∃ a, c m = some (.ok (a, m)) ∧ φ a) : Triple P c fun a => fact (φ a) * P := by
  intro h rest n apart held
  obtain ⟨a, ran, met⟩ := reads ⟨h ∪ rest, n⟩ (mem_within.mpr ⟨h, rest, apart, rfl, held⟩)
  exact ⟨a, h, n, ran, apart, mem_fact_mul.mpr ⟨met, held⟩⟩

end Triple

abbrev cell [Zero A] (a : A) (w : W) : Assn A V := pts a (Layout.put w)

/-! The parts of an assertion, for whoever works on one of them. -/

/-- `P` has `v` at `a`, and `F` besides. -/
class Has [Zero A] (P : Assn A V) (a : A) (v : outParam V) (F : outParam (Assn A V)) : Prop where
  eq : P = pts a v * F

/-- `P` has `R`, and `F` besides. -/
class Splits (P R : Assn A V) (F : outParam (Assn A V)) : Prop where
  eq : P = R * F

section Parts
variable {P Q R S F G : Assn A V}

instance [Zero A] (a : A) (v : V) : Has (pts a v) a v 1 := ⟨(mul_one _).symm⟩

instance (priority := high) [Zero A] (a : A) (v : V) : Has (pts a v * F) a v F := ⟨rfl⟩

instance (priority := high) [Zero A] (a : A) (v : V) : Has (F * pts a v) a v F :=
  ⟨mul_comm _ _⟩

instance [Zero A] {a : A} {v : V} [Has P a v F] : Has (P * Q) a v (F * Q) :=
  ⟨by rw [Has.eq (P := P) (a := a), mul_assoc]⟩

instance [Zero A] {a : A} {v : V} [Has Q a v F] : Has (P * Q) a v (P * F) :=
  ⟨by rw [Has.eq (P := Q) (a := a), mul_left_comm]⟩

instance : Splits P P 1 := ⟨(mul_one P).symm⟩

instance : Splits P 1 P := ⟨(one_mul P).symm⟩

instance (priority := high) : Splits (R * F) R F := ⟨rfl⟩

instance (priority := high) : Splits (F * R) R F := ⟨mul_comm _ _⟩

instance [Splits P R F] : Splits (P * Q) R (F * Q) :=
  ⟨by rw [Splits.eq (P := P) (R := R), mul_assoc]⟩

instance [Splits Q R F] : Splits (P * Q) R (P * F) :=
  ⟨by rw [Splits.eq (P := Q) (R := R), mul_left_comm]⟩

instance [Splits P R F] [Splits F S G] : Splits P (R * S) G :=
  ⟨by rw [Splits.eq (P := P) (R := R), Splits.eq (P := F) (R := S), mul_assoc]⟩

theorem le_of_splits [splits : Splits P Q F] (nothing : F = 1) : P ≤ Q := by
  rw [splits.eq, nothing, mul_one]

end Parts

namespace Triple
variable [Zero A] {P P' F : Assn A V} {Q : α → Assn A V} {R : β → Assn A V} {c : Prog A V α}
  {f : α → Prog A V β} {a : A} {v : V} {w : W}

omit [Zero A] in
theorem done {Q : α → Assn A V} {x : α} (le : P ≤ Q x) : Triple P (pure x) Q :=
  .of_le le (.ret x)

omit [Zero A] in
theorem tail (known : Triple P' c Q) {Q' : α → Assn A V} [splits : Splits P P' F]
    (post : ∀ x, Q x * F ≤ Q' x) : Triple P c Q' := by
  rw [splits.eq]
  exact (known.frame F).conseq le_rfl post

theorem nonzero (a : A) [has : Has P a v F] (next : a ≠ 0 → Triple P c Q) : Triple P c Q := by
  intro h rest n apart held
  obtain ⟨h₁, h₂, -, -, ⟨some, -⟩, -⟩ := has.eq ▸ held
  exact next some h rest n apart held

omit [Zero A] in
theorem call (known : Triple P' c Q) [splits : Splits P P' F]
    (next : ∀ a, Triple (Q a * F) (f a) R) : Triple P (c >>= f) R := by
  rw [splits.eq]
  exact (known.frame F).bind next

theorem load {f : W → Prog A V β} [has : Has P a (Layout.put w) F] (next : Triple P (f w) R) :
    Triple P (load W a >>= f) R := by
  intro h rest n apart held
  have here : h ∈ within (pts a (Layout.put w)) := by
    have owned : pts a (Layout.put w) * F ≤ within (pts a (Layout.put w)) :=
      mul_le_mul_right le_top _
    exact owned (has.eq ▸ held)
  have found : (h ∪ rest).lookup a = some (Layout.put w) := by
    have seen := (within_pts here).2
    rw [Finmap.lookup_union_left (Finmap.mem_of_lookup_eq_some seen), seen]
  obtain ⟨b, h', n', ran, kept⟩ := next h rest n apart held
  exact ⟨b, h', n', (bind_run (load_run found)).trans ran, kept⟩

theorem store_pts (w w' : W) :
    Triple (pts a (Layout.put w)) (store a w') fun _ => pts a (Layout.put w' : V) := by
  rintro _ rest n apart ⟨nonzero, rfl⟩
  refine ⟨(), Finmap.singleton a (Layout.put w'), n, ?_, ?_, nonzero, rfl⟩
  · have here : (Finmap.singleton a (Layout.put w) ∪ rest).lookup a = some (Layout.put w) :=
      (Finmap.lookup_union_left ((Finmap.mem_singleton a a _).mpr rfl)).trans
        Finmap.lookup_singleton_eq
    rw [store_run here, Finmap.insert_union, Finmap.insert_singleton_eq]
  · intro b mem
    exact apart b ((Finmap.mem_singleton b a _).mpr ((Finmap.mem_singleton b a _).mp mem))

theorem free_pts : Triple (pts a v) (free a) fun _ => 1 := by
  rintro _ rest n apart ⟨nonzero, rfl⟩
  refine ⟨(), ∅, n, ?_, Finmap.disjoint_empty rest, mem_one.mpr rfl⟩
  have here : a ∈ (Finmap.singleton a v : Heap A V) := (Finmap.mem_singleton a a v).mpr rfl
  have same : (Finmap.singleton a v ∪ rest).erase a = ∅ ∪ rest := by
    rw [Finmap.empty_union]
    refine Finmap.ext_lookup fun b => ?_
    by_cases eq : b = a
    · subst eq
      rw [Finmap.lookup_erase, Finmap.lookup_eq_none.mpr (apart b here)]
    · rw [Finmap.lookup_erase_ne eq, Finmap.lookup_union_right]
      exact fun mem => eq ((Finmap.mem_singleton b a v).mp mem)
  rw [HeapProgram.free, if_pos (Finmap.mem_union.mpr (Or.inl here)), same]

theorem alloc_one {malloc : Allocator A V} (ample : malloc.Ample) (w : W) :
    Triple 1 (alloc malloc w) fun a => fact (a ≠ 0) * pts a (Layout.put w) := by
  intro h rest n apart held
  obtain rfl := mem_one.mp held
  obtain ⟨a, picked⟩ := Option.isSome_iff_exists.mp (ample ⟨∅ ∪ rest, n⟩)
  obtain ⟨nonzero, new⟩ := malloc.fresh picked
  refine ⟨a, Finmap.singleton a (Layout.put w), n + 1, ?_, ?_,
    mem_fact_mul.mpr ⟨nonzero, nonzero, rfl⟩⟩
  · simp only [HeapProgram.alloc, picked, Finmap.insert_union]
    rfl
  · intro b mem inRest
    obtain rfl := (Finmap.mem_singleton b a _).mp mem
    exact new (Finmap.mem_union.mpr (Or.inr inRest))

theorem store {f : Unit → Prog A V β} {w' : W} [has : Has P a (Layout.put w) F]
    (next : Triple (cell a w' * F) (f ()) R) : Triple P (store a w' >>= f) R := by
  rw [has.eq]
  exact ((store_pts w w').frame F).bind fun _ => next

theorem free {f : Unit → Prog A V β} [has : Has P a v F] (next : Triple F (f ()) R) :
    Triple P (free a >>= f) R := by
  rw [has.eq]
  exact (free_pts.frame F).bind fun _ => by rwa [one_mul]

theorem alloc {malloc : Allocator A V} (ample : malloc.Ample) {f : A → Prog A V β}
    (next : ∀ a, a ≠ 0 → Triple (cell a w * P) (f a) R) :
    Triple P (alloc malloc w >>= f) R := by
  rw [← one_mul P]
  refine ((alloc_one ample w).frame P).bind fun a => ?_
  rw [mul_assoc]
  exact .of_fact (next a)

end Triple

end ByteKV.HeapProgram
