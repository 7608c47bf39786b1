import ByteKV.AofLoad
import ByteKV.CommandLine

/-! The tokenizer in memory. `strsep` cuts the copy of the payload apart where it stands, and
the slots of `argv` point into it. A pointer into `cmd` is an index, and NULL is `none`. -/
namespace ByteKV.Tokenizer
open Config AofLoad CommandLine Words

/-- `strsep(&p, " \t")`: the token, and the array and `p` afterwards. A scan that meets no NUL
leaves the array. -/
def strsep (cmd : Bytes) : (p : Option Nat) → Option (Option Nat × Bytes × Option Nat)
  | none => some (none, cmd, none)
  | some i =>
      match (cmd.drop i).findIdx? fun b => b = 0 || isDelim b with
      | none => none
      | some n =>
          if cmd[i + n]? = some 0 then some (some i, cmd, none)
          else some (some i, cmd.set (i + n) 0, some (i + n + 1))

/-- The locals of `tokenize_command` and the two arrays. `argv` is all of the memory from the
array on, and `stores` are the slots of it that have been written so far. -/
structure Tokens where
  cmd : Bytes
  p : Option Nat
  argv : Nat → Option Nat
  ap : Nat
  argc : Nat
  stores : List Nat

/-- `*ap = strsep(&p, " \t")`. -/
def Tokens.assign (t : Tokens) (token : Option Nat) (cmd : Bytes) (p : Option Nat) : Tokens :=
  { t with
    cmd := cmd
    p := p
    argv := Function.update t.argv t.ap token
    stores := t.stores ++ [t.ap] }

/-- `argc++` and `++ap`. -/
def Tokens.advance (t : Tokens) : Tokens := { t with argc := t.argc + 1, ap := t.ap + 1 }

/-- The loop of `tokenize_command`, unless it leaves `cmd` or the rounds are used up. -/
def tokenizeLoop (max : Nat) : (rounds : Nat) → Tokens → Option Tokens
  | 0, _ => none
  | rounds + 1, t =>
      match strsep t.cmd t.p with
      | none => none
      | some (token, cmd, p) =>
          let t := t.assign token cmd p
          match token with
          | none => some t
          | some i =>
              match t.cmd[i]? with
              | none => none
              | some b =>
                  if b = 0 then tokenizeLoop max rounds t
                  else if t.advance.ap ≥ max then some t.advance
                  else tokenizeLoop max rounds t.advance

/-- Each round but the last ends at another byte of the array. -/
def tokenizeCommand (cmd : Bytes) (argv : Nat → Option Nat) (max : Nat) : Option Tokens :=
  tokenizeLoop max (cmd.length + 1) ⟨cmd, some 0, argv, 0, 0, []⟩

/-- The first lines of `command_execute`: the payload and a NUL are copied into `cmd`, if they
do not leave it, and cut into tokens. What the two arrays hold before is whatever is on the
stack. -/
def executeTokens (cmd : Bytes) (argv : Nat → Option Nat) (payload : Bytes) : Option Tokens :=
  if payload.length < cmd.length then
    tokenizeCommand (store (store cmd 0 payload) payload.length [0]) argv maxTokens
  else none

def Tokens.arg (t : Tokens) (k : Nat) : Option Bytes := (t.argv k).map fun i => cstr (t.cmd.drop i)

def Tokens.args (t : Tokens) : List (Option Bytes) := (List.range t.argc).map t.arg

theorem args_length (t : Tokens) : t.args.length = t.argc := by
  rw [Tokens.args, List.length_map, List.length_range]

/-! One call of `strsep`. -/

section Strsep
variable {front w junk : Bytes} (nul : NulFree w) (free : ∀ b ∈ w, isDelim b = false)
include nul free

theorem findIdx_stop {b : UInt8} (stop : b = 0 ∨ isDelim b = true) :
    (w ++ b :: junk).findIdx? (fun b => b = 0 || isDelim b) = some w.length := by
  have none : ∀ c ∈ w, (c = 0 || isDelim c : Bool) = false := fun c hc => by
    have ne : c ≠ 0 := fun zero => nul (zero ▸ hc)
    simp [ne, free c hc]
  rw [List.findIdx?_append, List.findIdx?_eq_none_iff.mpr (by simpa using none)]
  have here : (b = 0 || isDelim b : Bool) = true := by simpa using stop
  simp [List.findIdx?_cons, here]

theorem strsep_last : strsep (front ++ (w ++ 0 :: junk)) (some front.length) =
    some (some front.length, front ++ (w ++ 0 :: junk), none) := by
  have ends : (front ++ (w ++ 0 :: junk))[front.length + w.length]? = some 0 := by
    rw [List.getElem?_append_right (by omega), Nat.add_sub_cancel_left]
    simp
  simp only [strsep, List.drop_left, findIdx_stop nul free (Or.inl rfl), ends, if_true]

theorem strsep_cut {d : UInt8} (hd : isDelim d = true) :
    strsep (front ++ (w ++ d :: junk)) (some front.length) =
      some (some front.length, front ++ (w ++ 0 :: junk), some (front.length + w.length + 1)) := by
  have ends : (front ++ (w ++ d :: junk))[front.length + w.length]? = some d := by
    rw [List.getElem?_append_right (by omega), Nat.add_sub_cancel_left]
    simp
  have ne : d ≠ 0 := by
    rintro rfl
    exact absurd hd (by decide)
  have cut : (front ++ (w ++ d :: junk)).set (front.length + w.length) 0 =
      front ++ (w ++ 0 :: junk) := by
    rw [List.set_append_right _ _ (by omega), Nat.add_sub_cancel_left,
      List.set_append_right _ _ (by omega), Nat.sub_self, List.set_cons_zero]
  simp only [strsep, List.drop_left, findIdx_stop nul free (Or.inr hd), ends, Option.some.injEq, ne,
    if_false, cut]

end Strsep

/-! The loop. -/

theorem tokenizeLoop_null {max rounds : Nat} {t : Tokens} (p : t.p = none) :
    tokenizeLoop max (rounds + 1) t = some (t.assign none t.cmd none) := by
  simp only [tokenizeLoop, p, strsep]

theorem tokenizeLoop_token {max rounds i : Nat} {t : Tokens} {cmd : Bytes} {p : Option Nat}
    {b : UInt8} (call : strsep t.cmd t.p = some (some i, cmd, p)) (byte : cmd[i]? = some b) :
    tokenizeLoop max (rounds + 1) t =
      if b = 0 then tokenizeLoop max rounds (t.assign (some i) cmd p)
      else if t.ap + 1 ≥ max then some (t.assign (some i) cmd p).advance
      else tokenizeLoop max rounds (t.assign (some i) cmd p).advance := by
  have read : (t.assign (some i) cmd p).cmd[i]? = some b := byte
  simp only [tokenizeLoop, call, read]
  rfl

/-- What the loop makes of the words `ws`, which stand at `base` and behind: each gets the
next slot while there are slots. In front of `base` and in all other slots nothing changes. -/
structure Cuts (max : Nat) (ws : List Bytes) (base : Nat) (t t' : Tokens) : Prop where
  argc : t'.argc = t.argc + (ws.take (max - t.ap)).length
  args : ∀ k w, (ws.take (max - t.ap))[k]? = some w → t'.arg (t.ap + k) = some w
  front : t'.cmd.take base = t.cmd.take base
  frame : ∀ k, k < t.ap ∨ max ≤ k → t'.argv k = t.argv k
  stores : ∀ k ∈ t'.stores, k ∈ t.stores ∨ k < max

theorem Cuts.refl {max base : Nat} {ws : List Bytes} {t : Tokens} (full : max ≤ t.ap) :
    Cuts max ws base t t := by
  have room : max - t.ap = 0 := Nat.sub_eq_zero_of_le full
  refine ⟨by simp [room], by simp [room], rfl, fun _ _ => rfl, fun k hk => Or.inl hk⟩

theorem assign_frame {max k : Nat} {t : Tokens} (token : Option Nat) (cmd : Bytes) (p : Option Nat)
    (room : t.ap < max) (other : k < t.ap ∨ max ≤ k) :
    (t.assign token cmd p).argv k = t.argv k :=
  Function.update_of_ne (by omega) _ _

theorem assign_stores {max k : Nat} {t : Tokens} (token : Option Nat) (cmd : Bytes) (p : Option Nat)
    (room : t.ap < max) (stored : k ∈ (t.assign token cmd p).stores) : k ∈ t.stores ∨ k < max := by
  rcases List.mem_append.mp stored with old | new
  · exact Or.inl old
  · obtain rfl := List.mem_singleton.mp new
    exact Or.inr room

theorem Cuts.null {max base : Nat} {t : Tokens} (room : t.ap < max) :
    Cuts max [] base t (t.assign none t.cmd none) :=
  ⟨by simp [Tokens.assign], by simp, rfl, fun _ other => assign_frame none t.cmd none room other,
    fun _ stored => assign_stores none t.cmd none room stored⟩

section Round
variable {max : Nat} {ws : List Bytes} {t t' : Tokens} {front w junk : Bytes} {p : Option Nat}
  (room : t.ap < max) (same : t.cmd.take front.length = front)
include room same

theorem Cuts.empty (later : Cuts max ws (front.length + 1)
    (t.assign (some front.length) (front ++ 0 :: junk) p) t') : Cuts max ws front.length t t' := by
  refine ⟨later.argc, later.args, ?_, fun k other => ?_, fun k stored => ?_⟩
  · have kept := congrArg (List.take front.length) later.front
    rw [List.take_take, List.take_take, Nat.min_eq_left (Nat.le_succ _)] at kept
    rw [kept, same]
    exact List.take_left
  · exact (later.frame k other).trans (assign_frame _ _ _ room other)
  · rcases later.stores k stored with earlier | new
    · exact assign_stores _ _ _ room earlier
    · exact Or.inr new

theorem Cuts.word (nul : NulFree w) (later : Cuts max ws (front.length + w.length + 1)
    (t.assign (some front.length) (front ++ (w ++ 0 :: junk)) p).advance t') :
    Cuts max (w :: ws) front.length t t' := by
  obtain ⟨n, left⟩ := Nat.exists_eq_add_of_lt room
  have slots : max - t.ap = n + 1 := by omega
  have behind : max - (t.ap + 1) = n := by omega
  have text : t'.cmd.take (front.length + w.length + 1) = front ++ (w ++ [0]) := by
    rw [later.front]
    have size : (front ++ (w ++ [0])).length = front.length + w.length + 1 := by simp [Nat.add_assoc]
    have split : front ++ (w ++ 0 :: junk) = front ++ (w ++ [0]) ++ junk := by simp
    rw [← size]
    exact (congrArg (List.take _) split).trans List.take_left
  refine ⟨?_, fun k v hv => ?_, ?_, fun k other => ?_, fun k stored => ?_⟩
  · rw [later.argc, slots, List.take_succ_cons, List.length_cons]
    simp only [Tokens.advance, Tokens.assign, behind]
    omega
  · rw [slots, List.take_succ_cons] at hv
    cases k with
    | zero =>
      obtain rfl := Option.some.inj hv
      have slot : t'.argv t.ap = some front.length :=
        (later.frame t.ap (Or.inl (Nat.lt_succ_self _))).trans (Function.update_self ..)
      have whole := List.take_append_drop (front.length + w.length + 1) t'.cmd
      rw [text, List.append_assoc, List.append_assoc] at whole
      rw [Nat.add_zero, Tokens.arg, slot, Option.map_some, ← whole, List.drop_left]
      exact congrArg some (cstr_append_nul nul _)
    | succ k =>
      have arg := later.args k v
      simp only [Tokens.advance, Tokens.assign, behind] at arg
      rw [← Nat.add_assoc, Nat.add_right_comm]
      exact arg hv
  · have kept := congrArg (List.take front.length) text
    rw [List.take_take, Nat.min_eq_left (by omega), List.take_left] at kept
    rw [kept, same]
  · have lower : k < t.ap + 1 ∨ max ≤ k := by omega
    exact (later.frame k lower).trans
      (assign_frame (some front.length) (front ++ (w ++ 0 :: junk)) p room other)
  · rcases later.stores k stored with earlier | new
    · exact assign_stores (some front.length) (front ++ (w ++ 0 :: junk)) p room earlier
    · exact Or.inr new

theorem cuts_round {rounds : Nat} (nul : NulFree w)
    (call : strsep t.cmd t.p = some (some front.length, front ++ (w ++ 0 :: junk), p))
    (later : ∀ u : Tokens, u.ap < max → u.cmd = front ++ (w ++ 0 :: junk) → u.p = p →
      ∃ u', tokenizeLoop max rounds u = some u' ∧ Cuts max ws (front.length + w.length + 1) u u') :
    ∃ t', tokenizeLoop max (rounds + 1) t = some t' ∧
      Cuts max (if w = [] then ws else w :: ws) front.length t t' := by
  cases w with
  | nil =>
    have byte : (front ++ ([] ++ 0 :: junk))[front.length]? = some 0 := by simp
    rw [tokenizeLoop_token call byte, if_pos rfl, if_pos rfl]
    obtain ⟨t', run, cuts⟩ := later (t.assign (some front.length) _ p) room rfl rfl
    exact ⟨t', run, .empty room same cuts⟩
  | cons b w =>
    have byte : (front ++ (b :: w ++ 0 :: junk))[front.length]? = some b := by simp
    have ne : b ≠ 0 := fun zero => nul (zero ▸ List.mem_cons_self)
    rw [tokenizeLoop_token call byte, if_neg ne, if_neg (List.cons_ne_nil b w)]
    split
    · rename_i full
      exact ⟨_, rfl, .word room same nul (.refl full)⟩
    · rename_i more
      obtain ⟨t', run, cuts⟩ := later (t.assign (some front.length) _ p).advance
        (Nat.lt_of_not_ge more) rfl rfl
      exact ⟨t', run, .word room same nul cuts⟩

end Round

theorem tokenizeLoop_cuts (max : Nat) (s : Bytes) (nul : NulFree s) (junk : Bytes) {rounds : Nat}
    (enough : s.length + 2 ≤ rounds) {t : Tokens} {front : Bytes} (room : t.ap < max)
    (cmd : t.cmd = front ++ (s ++ 0 :: junk)) (p : t.p = some front.length) :
    ∃ t', tokenizeLoop max rounds t = some t' ∧ Cuts max (words isDelim s) front.length t t' := by
  have same : t.cmd.take front.length = front := by rw [cmd, List.take_left]
  induction s using line_induction isDelim generalizing rounds t front with
  | whole s free =>
    obtain ⟨rounds, rfl⟩ := Nat.exists_eq_add_of_le' enough
    have call : strsep t.cmd t.p = some (some front.length, front ++ (s ++ 0 :: junk), none) := by
      rw [cmd, p, strsep_last nul free]
    have last : words isDelim s = if s = [] then [] else [s] := by
      split
      · rename_i empty
        rw [empty, words_nil]
      · rename_i ne
        rw [words_of_none ne free]
    rw [last]
    exact cuts_round room same nul call fun u room _ p => ⟨_, tokenizeLoop_null p, .null room⟩
  | cut w d s hd free ih =>
    rw [List.length_append, List.length_cons] at enough
    obtain ⟨rounds, rfl⟩ := Nat.exists_eq_add_of_le' (show 1 ≤ rounds by omega)
    simp only [NulFree, List.mem_append, List.mem_cons, not_or] at nul
    have call : strsep t.cmd t.p = some (some front.length, front ++ (w ++ 0 :: (s ++ 0 :: junk)),
        some (front.length + w.length + 1)) := by
      have line : w ++ d :: s ++ 0 :: junk = w ++ d :: (s ++ 0 :: junk) := by simp
      rw [cmd, p, line, strsep_cut nul.1 free hd]
    rw [words_split hd free]
    refine cuts_round room same nul.1 call fun u room cmd p => ?_
    have base : (front ++ (w ++ [0])).length = front.length + w.length + 1 := by simp [Nat.add_assoc]
    have split :
        front ++ (w ++ 0 :: (s ++ 0 :: junk)) = front ++ (w ++ [0]) ++ (s ++ 0 :: junk) := by
      simp
    rw [split] at cmd
    rw [← base] at p ⊢
    exact ih nul.2.2 (by omega) room cmd p (by rw [cmd, List.take_left])

/-! The tokens of a request. -/

theorem copied_cstr (cmd payload : Bytes) : ∃ junk,
    store (store cmd 0 payload) payload.length [0] = cstr payload ++ 0 :: junk := by
  rw [store_zero, store_behind, List.singleton_append]
  exact exists_cstr_append payload _

section Execute
variable {cmd payload : Bytes} (array : cmd.length = msgMax + 1) (short : payload.length ≤ msgMax)
  (argv : Nat → Option Nat)
include array short

theorem executeTokens_cuts : ∃ copied t, executeTokens cmd argv payload = some t ∧
    Cuts maxTokens (words isDelim (cstr payload)) 0 ⟨copied, some 0, argv, 0, 0, []⟩ t := by
  obtain ⟨junk, eq⟩ := copied_cstr cmd payload
  have fits : payload.length < cmd.length := by omega
  rw [executeTokens, if_pos fits, tokenizeCommand, eq]
  have enough : (cstr payload).length + 2 ≤ (cstr payload ++ 0 :: junk).length + 1 := by
    rw [List.length_append, List.length_cons]
    omega
  have start : cstr payload ++ 0 :: junk = [] ++ (cstr payload ++ 0 :: junk) := rfl
  obtain ⟨t, run, cuts⟩ := tokenizeLoop_cuts maxTokens (cstr payload) (cstr_nulFree payload) junk
    enough (t := ⟨_, some 0, argv, 0, 0, []⟩) (show 0 < maxTokens by decide) start rfl
  exact ⟨_, t, run, cuts⟩

theorem executeTokens_args : ∃ t, executeTokens cmd argv payload = some t ∧
    t.args = (CommandLine.tokenizeCommand (cstr payload) maxTokens).map some := by
  obtain ⟨copied, t, run, cuts⟩ := executeTokens_cuts array short argv
  refine ⟨t, run, ?_⟩
  have argc := cuts.argc
  simp only [Nat.sub_zero, Nat.zero_add] at argc
  rw [tokenizeCommand_eq _ (by decide), Tokens.args, argc]
  refine List.ext_getElem (by simp) fun k hk hk' => ?_
  simp only [List.length_map, List.length_range] at hk
  have arg := cuts.args k _ (List.getElem?_eq_getElem hk)
  simpa using arg

/-- `argc` and `argv` are the first eight stretches of the payload without blanks and tabs, and
no slot behind the eighth is written. -/
theorem executeTokens_runs : ∃ t, executeTokens cmd argv payload = some t ∧
    (∃ runs, Runs isDelim (cstr payload) runs ∧ t.argc = min maxTokens runs.length ∧
      t.args = (runs.take maxTokens).map fun r => some ((cstr payload).extract r.1 r.2)) ∧
    (∀ k ∈ t.stores, k < maxTokens) ∧ ∀ k, maxTokens ≤ k → t.argv k = argv k := by
  obtain ⟨copied, t, run, cuts⟩ := executeTokens_cuts array short argv
  obtain ⟨u, same, args⟩ := executeTokens_args array short argv
  obtain rfl : t = u := Option.some.inj (run.symm.trans same)
  obtain ⟨runs, all, texts⟩ := exists_runs isDelim (cstr payload)
  rw [tokenizeCommand_eq _ (by decide), texts, ← List.map_take, List.map_map] at args
  have argc := congrArg List.length args
  rw [args_length, List.length_map, List.length_take] at argc
  refine ⟨t, run, ⟨runs, all, argc, args⟩, fun k stored => ?_, fun k outside => ?_⟩
  · exact (cuts.stores k stored).resolve_left List.not_mem_nil
  · exact cuts.frame k (Or.inr outside)

end Execute

def nineWords : Bytes := ascii "\tSET  k a b c d e f\tg "

theorem executeTokens_nineWords : ∃ t,
    executeTokens (List.replicate (msgMax + 1) 170) (fun _ => none) nineWords = some t ∧
      t.argc = 8 ∧ t.args = [ascii "SET", ascii "k", ascii "a", ascii "b", ascii "c", ascii "d",
        ascii "e", ascii "f"].map some ∧
      (∀ k ∈ t.stores, k < maxTokens) ∧ ∀ k, maxTokens ≤ k → t.argv k = none := by
  have array : (List.replicate (msgMax + 1) (170 : UInt8)).length = msgMax + 1 := List.length_replicate
  have short : nineWords.length ≤ msgMax := by decide
  obtain ⟨t, run, -, stores, frame⟩ := executeTokens_runs array short fun _ => none
  obtain ⟨u, same, args⟩ := executeTokens_args array short fun _ => none
  obtain rfl : t = u := Option.some.inj (run.symm.trans same)
  have tokens : CommandLine.tokenizeCommand (cstr nineWords) maxTokens = [ascii "SET", ascii "k",
      ascii "a", ascii "b", ascii "c", ascii "d", ascii "e", ascii "f"] := by decide
  rw [tokens] at args
  have argc := congrArg List.length args
  rw [args_length, List.length_map] at argc
  exact ⟨t, run, argc, args, stores, frame⟩

end ByteKV.Tokenizer
