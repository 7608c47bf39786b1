import Mathlib.Data.List.Basic

/-! The words of a line: what lies between its delimiters, however many of them there are
next to each other. -/
namespace ByteKV.Words

variable {α : Type} (delim : α → Bool)

def words (s : List α) : List (List α) := (s.splitOnP delim).filter fun w => !w.isEmpty

@[simp] theorem words_nil : words delim [] = [] := by simp [words]

variable {delim}

theorem words_append_delim {d : α} (hd : delim d = true) (s t : List α) :
    words delim (s ++ d :: t) = words delim s ++ words delim t := by
  rw [words, List.splitOnP_append_cons s t hd, List.filter_append]
  rfl

theorem words_cons_delim {d : α} (hd : delim d = true) (t : List α) :
    words delim (d :: t) = words delim t := by
  simpa using words_append_delim hd [] t

theorem words_of_none {s : List α} (ne : s ≠ []) (none : ∀ b ∈ s, delim b = false) :
    words delim s = [s] := by
  rw [words, List.splitOnP_eq_singleton none]
  simpa using ne

theorem words_split {s t : List α} {d : α} (hd : delim d = true)
    (none : ∀ b ∈ s, delim b = false) :
    words delim (s ++ d :: t) = if s = [] then words delim t else s :: words delim t := by
  split
  · rename_i empty
    rw [empty, List.nil_append, words_cons_delim hd]
  · rename_i ne
    rw [words_append_delim hd, words_of_none ne none, List.singleton_append]

theorem words_eq_nil {s : List α} : words delim s = [] ↔ ∀ b ∈ s, delim b = true := by
  induction s with
  | nil => simp
  | cons b s ih =>
    cases hb : delim b with
    | true => simp [words_cons_delim hb, ih, hb]
    | false =>
      have word : words delim (b :: s) ≠ [] := by
        obtain ⟨w, ws, hw⟩ := List.exists_cons_of_ne_nil (List.splitOnP_ne_nil delim s)
        simp [words, List.splitOnP_cons_eq_if_modifyHead, hb, hw]
      simp [word, hb]

theorem first_delim {s : List α} (some : ∃ b ∈ s, delim b = true) :
    ∃ w d t, s = w ++ d :: t ∧ delim d = true ∧ ∀ b ∈ w, delim b = false := by
  induction s with
  | nil => simp at some
  | cons b s ih =>
    cases hb : delim b with
    | true => exact ⟨[], b, s, rfl, hb, by simp⟩
    | false =>
      obtain ⟨w, d, t, rfl, hd, none⟩ := ih (by simpa [hb] using some)
      exact ⟨b :: w, d, t, rfl, hd, by simpa [hb] using none⟩

theorem line_induction (delim : α → Bool) {P : List α → Prop}
    (whole : ∀ s, (∀ b ∈ s, delim b = false) → P s)
    (cut : ∀ w d t, delim d = true → (∀ b ∈ w, delim b = false) → P t → P (w ++ d :: t))
    (s : List α) : P s := by
  induction len : s.length using Nat.strongRecOn generalizing s with
  | ind n ih =>
    by_cases some : ∃ b ∈ s, delim b = true
    · obtain ⟨w, d, t, rfl, hd, none⟩ := first_delim some
      refine cut w d t hd none (ih t.length ?_ t rfl)
      rw [← len, List.length_append, List.length_cons]
      omega
    · exact whole s fun b hb => by simpa using fun hd => some ⟨b, hb, hd⟩

theorem words_mem {s w : List α} (h : w ∈ words delim s) :
    w ≠ [] ∧ (∀ b ∈ w, delim b = false) ∧ w ⊆ s := by
  induction s using line_induction delim with
  | whole s none =>
    by_cases empty : s = []
    · simp [empty] at h
    · rw [words_of_none empty none, List.mem_singleton] at h
      subst h
      exact ⟨empty, none, List.Subset.refl _⟩
  | cut v d t hd none ih =>
    have behind (later : w ∈ words delim t) :
        w ≠ [] ∧ (∀ b ∈ w, delim b = false) ∧ w ⊆ v ++ d :: t := by
      obtain ⟨ne, free, sub⟩ := ih later
      exact ⟨ne, free, fun b hb => List.mem_append_right _ (List.mem_cons_of_mem _ (sub hb))⟩
    rw [words_split hd none] at h
    split at h
    · exact behind h
    · rename_i ne
      rcases List.mem_cons.mp h with rfl | later
      · exact ⟨ne, none, List.subset_append_left _ _⟩
      · exact behind later

theorem words_of_first {front w rest : List α} (blank : ∀ b ∈ front, delim b = true) (ne : w ≠ [])
    (none : ∀ b ∈ w, delim b = false) (stop : ∀ b ∈ rest.head?, delim b = true) :
    words delim (front ++ (w ++ rest)) = w :: words delim rest := by
  induction front with
  | nil =>
    rw [List.nil_append]
    cases rest with
    | nil => rw [List.append_nil, words_of_none ne none, words_nil]
    | cons d t => rw [words_split (stop d rfl) none, if_neg ne, words_cons_delim (stop d rfl)]
  | cons b front ih =>
    rw [List.cons_append, words_cons_delim (blank b List.mem_cons_self)]
    exact ih fun c hc => blank c (List.mem_cons_of_mem _ hc)

theorem words_cons {s w : List α} {ws : List (List α)} (h : words delim s = w :: ws) :
    ∃ front rest, s = front ++ (w ++ rest) ∧ (∀ b ∈ front, delim b = true) ∧ w ≠ [] ∧
      (∀ b ∈ w, delim b = false) ∧ (∀ b ∈ rest.head?, delim b = true) ∧ ws = words delim rest := by
  induction s using line_induction delim with
  | whole s none =>
    by_cases empty : s = []
    · simp [empty] at h
    · rw [words_of_none empty none, List.cons.injEq] at h
      obtain ⟨rfl, rfl⟩ := h
      exact ⟨[], [], by simp, by simp, empty, none, by simp, words_nil delim |>.symm⟩
  | cut v d t hd none ih =>
    rw [words_split hd none] at h
    split at h
    · rename_i empty
      obtain ⟨front, rest, rfl, blank, word⟩ := ih h
      refine ⟨d :: front, rest, by rw [empty]; rfl, fun b hb => ?_, word⟩
      rcases List.mem_cons.mp hb with rfl | hb
      · exact hd
      · exact blank b hb
    · rename_i ne
      obtain ⟨rfl, rfl⟩ := List.cons.inj h
      refine ⟨[], d :: t, rfl, by simp, ne, none, fun b hb => ?_, (words_cons_delim hd t).symm⟩
      obtain rfl := Option.some.inj hb
      exact hd

theorem words_intercalate {d : α} (hd : delim d = true) {ws : List (List α)}
    (all : ∀ w ∈ ws, w ≠ [] ∧ ∀ b ∈ w, delim b = false) : words delim ([d].intercalate ws) = ws := by
  induction ws with
  | nil => exact words_nil delim
  | cons w ws ih =>
    obtain ⟨ne, none⟩ := all w List.mem_cons_self
    have later := ih fun v hv => all v (List.mem_cons_of_mem _ hv)
    cases ws with
    | nil => rw [List.intercalate_singleton, words_of_none ne none]
    | cons v ws =>
      rw [List.intercalate_cons_cons, List.append_assoc, List.singleton_append, words_split hd none,
        if_neg ne, later]

theorem words_prefix {s t w w' : List α} {ws : List (List α)} (pre : s <+: t)
    (h : words delim s = w :: w' :: ws) : ∃ v vs, words delim t = w :: v :: vs ∧ w' <+: v := by
  obtain ⟨u, rfl⟩ := pre
  obtain ⟨front, rest, rfl, blank, ne, none, stop, later⟩ := words_cons h
  obtain ⟨front', rest', rfl, blank', ne', none', stop', -⟩ := words_cons later.symm
  have goesOn : front' ++ (w' ++ rest') ≠ [] := by simp [ne']
  have stop₁ : ∀ b ∈ (front' ++ (w' ++ rest') ++ u).head?, delim b = true := by
    rwa [List.head?_append_of_ne_nil _ goesOn]
  have outer := words_of_first blank ne none stop₁
  rw [List.append_assoc, List.append_assoc, outer]
  cases rest' with
  | cons d r =>
    have stop₂ : ∀ b ∈ (d :: r ++ u).head?, delim b = true := stop'
    have inner := words_of_first blank' ne' none' stop₂
    rw [List.append_assoc, List.append_assoc, inner]
    exact ⟨w', _, rfl, List.prefix_refl _⟩
  | nil =>
    -- The second word ends with the line: it goes on up to the first delimiter behind it.
    have free : ∀ b ∈ w' ++ u.takeWhile (!delim ·), delim b = false := fun b hb => by
      rcases List.mem_append.mp hb with old | new
      · exact none' b old
      · simpa using List.all_eq_true.mp List.all_takeWhile b new
    have stop₂ : ∀ b ∈ (u.dropWhile (!delim ·)).head?, delim b = true := fun b hb => by
      have first := List.head?_dropWhile_not (!delim ·) u
      rw [hb] at first
      simpa using first
    have inner := words_of_first blank' (by simp [ne']) free stop₂
    rw [List.append_assoc, List.takeWhile_append_dropWhile] at inner
    rw [List.append_nil, List.append_assoc, inner]
    exact ⟨_, _, rfl, List.prefix_append _ _⟩

theorem words_length (delim : α → Bool) (s : List α) :
    (words delim s).flatten.length + (words delim s).length ≤ s.length + 1 := by
  induction s using line_induction delim with
  | whole s none =>
    by_cases empty : s = []
    · simp [empty]
    · simp [words_of_none empty none]
  | cut v d t hd none ih =>
    rw [words_split hd none, List.length_append, List.length_cons]
    split
    · omega
    · rw [List.flatten_cons, List.length_append, List.length_cons]
      omega

theorem words_of_inner {s : List α} (first : ∀ b ∈ s.head?, delim b = false)
    (last : ∀ b ∈ s.getLast?, delim b = false) (inner : ∃ b ∈ s, delim b = true) :
    ∃ w w' ws, words delim s = w :: w' :: ws ∧ w.length < s.length := by
  obtain ⟨w, d, t, rfl, hd, none⟩ := first_delim inner
  have ne : w ≠ [] := by
    rintro rfl
    have none := first d rfl
    rw [hd] at none
    cases none
  have more : words delim t ≠ [] := by
    rw [Ne, words_eq_nil]
    intro all
    have ends := List.getLast?_eq_some_getLast
      (List.append_ne_nil_of_right_ne_nil w (List.cons_ne_nil d t))
    have none := last _ ends
    rw [List.getLast_append_of_right_ne_nil _ _ (List.cons_ne_nil d t)] at none
    rcases List.mem_cons.mp (List.getLast_mem (List.cons_ne_nil d t)) with eq | mem
    · rw [eq, hd] at none
      cases none
    · rw [all _ mem] at none
      cases none
  obtain ⟨w', ws, eq⟩ := List.exists_cons_of_ne_nil more
  refine ⟨w, w', ws, ?_, ?_⟩
  · rw [words_split hd none, if_neg ne, eq]
  · rw [List.length_append, List.length_cons]
    omega

/-! Where the words stand. -/

/-- A longest stretch of `s` without a delimiter, from `i` up to `j`. -/
structure IsRun (delim : α → Bool) (s : List α) (i j : Nat) : Prop where
  pos : i < j
  inside : j ≤ s.length
  free : ∀ k, i ≤ k → k < j → ∀ b ∈ s[k]?, delim b = false
  left : ∀ k, k + 1 = i → ∀ b ∈ s[k]?, delim b = true
  right : ∀ b ∈ s[j]?, delim b = true

structure Runs (delim : α → Bool) (s : List α) (rs : List (Nat × Nat)) : Prop where
  mem : ∀ i j, (i, j) ∈ rs ↔ IsRun delim s i j
  ordered : rs.Pairwise fun a b => a.2 < b.1

theorem isRun_of_none {s : List α} (none : ∀ b ∈ s, delim b = false) {i j : Nat} :
    IsRun delim s i j ↔ s ≠ [] ∧ i = 0 ∧ j = s.length := by
  constructor
  · intro run
    have pos := run.pos
    have inside := run.inside
    refine ⟨List.ne_nil_of_length_pos (by omega), ?_, ?_⟩
    · by_contra later
      obtain ⟨k, rfl⟩ := Nat.exists_eq_succ_of_ne_zero later
      have delims := run.left k rfl _ (List.getElem?_eq_getElem (by omega))
      rw [none _ (List.getElem_mem _)] at delims
      cases delims
    · by_contra early
      have delims := run.right _ (List.getElem?_eq_getElem (by omega))
      rw [none _ (List.getElem_mem _)] at delims
      cases delims
  · rintro ⟨ne, rfl, rfl⟩
    exact ⟨List.length_pos_iff.mpr ne, Nat.le_refl _,
      fun k _ _ b hb => none b (List.mem_of_getElem? hb),
      fun k hk => absurd hk (Nat.succ_ne_zero k), by simp⟩

theorem isRun_cut {w t : List α} {d : α} (hd : delim d = true) {i j : Nat} :
    IsRun delim (w ++ d :: t) i j ↔ IsRun delim w i j ∨
      ∃ i' j', i = w.length + 1 + i' ∧ j = w.length + 1 + j' ∧ IsRun delim t i' j' := by
  have before {k : Nat} (hk : k < w.length) : (w ++ d :: t)[k]? = w[k]? :=
    List.getElem?_append_left hk
  have at_d : (w ++ d :: t)[w.length]? = some d := by simp
  have behind (k : Nat) : (w ++ d :: t)[w.length + 1 + k]? = t[k]? := by
    rw [List.getElem?_append_right (by omega), Nat.add_assoc, Nat.add_sub_cancel_left, Nat.add_comm,
      List.getElem?_cons_succ]
  have size : (w ++ d :: t).length = w.length + 1 + t.length := by
    rw [List.length_append, List.length_cons]
    omega
  constructor
  · intro run
    have pos := run.pos
    have inside := run.inside
    rw [size] at inside
    by_cases front : i ≤ w.length
    · have stops : j ≤ w.length := by
        by_contra past
        have free := run.free w.length front (by omega) d at_d
        rw [hd] at free
        cases free
      refine Or.inl ⟨pos, stops, fun k hi hj => ?_, fun k hk => ?_, fun b hb => ?_⟩
      · rw [← before (by omega)]
        exact run.free k hi hj
      · rw [← before (by omega)]
        exact run.left k hk
      · obtain ⟨hj, -⟩ := List.getElem?_eq_some_iff.mp hb
        exact run.right b ((before hj).trans hb)
    · obtain ⟨i', rfl⟩ := Nat.exists_eq_add_of_le (show w.length + 1 ≤ i by omega)
      obtain ⟨j', rfl⟩ := Nat.exists_eq_add_of_le (show w.length + 1 ≤ j by omega)
      refine Or.inr ⟨i', j', rfl, rfl, by omega, by omega, fun k hi hj => ?_, fun k hk => ?_, ?_⟩
      · rw [← behind]
        exact run.free _ (by omega) (by omega)
      · rw [← behind]
        exact run.left _ (by omega)
      · rw [← behind]
        exact run.right
  · rintro (run | ⟨i', j', rfl, rfl, run⟩)
    · have pos := run.pos
      have inside := run.inside
      refine ⟨pos, by omega, fun k hi hj => ?_, fun k hk => ?_, ?_⟩
      · rw [before (by omega)]
        exact run.free k hi hj
      · rw [before (by omega)]
        exact run.left k hk
      · by_cases ends : j = w.length
        · rw [ends, at_d]
          exact fun b hb => Option.some.inj hb ▸ hd
        · rw [before (by omega)]
          exact run.right
    · have pos := run.pos
      have inside := run.inside
      refine ⟨by omega, by omega, fun k hi hj => ?_, fun k hk => ?_, ?_⟩
      · obtain ⟨m, rfl⟩ := Nat.exists_eq_add_of_le (show w.length + 1 ≤ k by omega)
        rw [behind]
        exact run.free m (by omega) (by omega)
      · by_cases first : k = w.length
        · rw [first, at_d]
          exact fun b hb => Option.some.inj hb ▸ hd
        · obtain ⟨m, rfl⟩ := Nat.exists_eq_add_of_le (show w.length + 1 ≤ k by omega)
          rw [behind]
          exact run.left m (by omega)
      · rw [behind]
        exact run.right

/-- The words of a line are its longest stretches without delimiters. -/
theorem exists_runs (delim : α → Bool) (s : List α) :
    ∃ rs, Runs delim s rs ∧ words delim s = rs.map fun r => s.extract r.1 r.2 := by
  induction s using line_induction delim with
  | whole s none =>
    by_cases empty : s = []
    · refine ⟨[], ⟨fun i j => ?_, List.Pairwise.nil⟩, by rw [empty, words_nil, List.map_nil]⟩
      rw [isRun_of_none none]
      simp [empty]
    · refine ⟨[(0, s.length)], ⟨fun i j => ?_, List.pairwise_singleton _ _⟩, ?_⟩
      · rw [isRun_of_none none]
        simp [empty]
      · rw [words_of_none empty none]
        simp
  | cut w d t hd none ih =>
    obtain ⟨rs, runs, eq⟩ := ih
    let shift (r : Nat × Nat) : Nat × Nat := (w.length + 1 + r.1, w.length + 1 + r.2)
    have moved (i j : Nat) : (i, j) ∈ rs.map shift ↔
        ∃ i' j', i = w.length + 1 + i' ∧ j = w.length + 1 + j' ∧ IsRun delim t i' j' := by
      simp only [List.mem_map, shift, Prod.exists, Prod.mk.injEq, runs.mem]
      exact ⟨fun ⟨i', j', run, hi, hj⟩ => ⟨i', j', hi.symm, hj.symm, run⟩,
        fun ⟨i', j', hi, hj, run⟩ => ⟨i', j', run, hi.symm, hj.symm⟩⟩
    have ordered : (rs.map shift).Pairwise fun a b => a.2 < b.1 :=
      List.pairwise_map.mpr (runs.ordered.imp fun less => Nat.add_lt_add_left less _)
    have text : (rs.map shift).map (fun r => (w ++ d :: t).extract r.1 r.2) = words delim t := by
      rw [eq, List.map_map]
      refine List.map_congr_left fun r _ => ?_
      have front : (w ++ [d]).length = w.length + 1 := by simp
      simp only [Function.comp_apply, shift, List.extract_eq_take_drop, Nat.add_sub_add_left]
      rw [List.append_cons, ← front, List.drop_length_add_append]
    by_cases empty : w = []
    · refine ⟨rs.map shift, ⟨fun i j => ?_, ordered⟩, ?_⟩
      · rw [isRun_cut hd, isRun_of_none none, moved]
        simp [empty]
      · rw [text, words_split hd none, if_pos empty]
    · refine ⟨(0, w.length) :: rs.map shift, ⟨fun i j => ?_, ?_⟩, ?_⟩
      · rw [isRun_cut hd, isRun_of_none none, List.mem_cons, moved, Prod.mk.injEq]
        simp [empty]
      · refine List.pairwise_cons.mpr ⟨fun r hr => ?_, ordered⟩
        obtain ⟨r', -, rfl⟩ := List.mem_map.mp hr
        simp only [shift]
        omega
      · rw [List.map_cons, text, words_split hd none, if_neg empty]
        simp

end ByteKV.Words
