import ByteKV.Visibility

/-! The value that a SET line stores: the words of the line are cut apart before SET sees
them, and it takes the third. -/
namespace ByteKV.StoredValue
open Config Database AofRecord ServerState AofAppend Command CommandLine StoreInvariant
open Visibility ExpiringLog Words ServerRun

def setPayload (k v : Bytes) : Bytes := ascii "SET" ++ 32 :: (k ++ 32 :: v)

def getPayload (k : Bytes) : Bytes := ascii "GET" ++ 32 :: k

/-- Once SET has answered `+OK`, GET answers all of the value, at any time. -/
def StoresWhole (h : Host) (k v : Bytes) : Prop :=
  ∀ io, (commandExecute io h (setPayload k v) msgMax).2 = ascii "+OK\n" → ∀ getIo nowRealtimeMs,
    (commandExecute getIo { (commandExecute io h (setPayload k v) msgMax).1 with
      nowRealtimeMs := nowRealtimeMs } (getPayload k) msgMax).2 = ascii "+" ++ v ++ ascii "\n"

theorem set_isWord : IsWord (ascii "SET") := by decide

theorem setPayload_tokens {k v : Bytes} (key : NulFree k) (value : NulFree v) :
    tokenizeCommand (cstr (setPayload k v)) maxTokens =
      ascii "SET" :: (words isDelim k ++ words isDelim v).take 7 := by
  have nul : NulFree (setPayload k v) := by
    simp only [NulFree, setPayload, List.mem_append, List.mem_cons, not_or]
    exact ⟨by decide, by decide, key, by decide, value⟩
  rw [cstr_of_nulFree nul, tokenizeCommand_eq _ (by decide), setPayload, words_blank set_isWord,
    words_append_delim (by decide)]
  rfl

theorem set_answer {io : RequestIo} {h : Host} {payload key value : Bytes}
    (asks : requestRecord h.nowRealtimeMs payload = some ⟨.set, key, value, 0⟩) :
    (commandExecute io h payload msgMax).2 = ascii "+OK\n" :=
  (mutation_response asks).mpr (by rw [accepted, asks]; rfl)

theorem too_few {payload name : Bytes} {argv : List Bytes} {entry : CommandEntry} (io : RequestIo)
    (h : Host) (tokens : tokenizeCommand (cstr payload) maxTokens = name :: argv)
    (found : lookupCommand name = some entry) (wrong : arityWrong entry (argv.length + 1) = true) :
    (commandExecute io h payload msgMax).2 = ascii "-ERR wrong number of arguments\n" := by
  have some : name :: argv ≠ [] := List.cons_ne_nil _ _
  simp only [commandExecute, tokens, some, if_false, arg, List.getD_cons_zero, found, wrong,
    if_true, List.length_cons]
  rfl

section Store
variable {h : Host} {k v : Bytes} (short : (setPayload k v).length ≤ msgMax)
  (untimed : h.db.expires.get k = none)
include short untimed

theorem get_stored {io : RequestIo} {w : Bytes} (word : IsWord k)
    (asks : requestRecord h.nowRealtimeMs (setPayload k v) = some ⟨.set, k, w, 0⟩)
    (fits : w.length ≤ v.length) (getIo : RequestIo) (nowRealtimeMs : Int) :
    (commandExecute getIo { (commandExecute io h (setPayload k v) msgMax).1 with
      nowRealtimeMs := nowRealtimeMs } (getPayload k) msgMax).2 = ascii "+" ++ w ++ ascii "\n" := by
  have stored : (commandExecute io h (setPayload k v) msgMax).1.db = (dbSet h.db k w).1 :=
    mutation_db asks
  refine (get_response (getKey_get word) getIo _).2 w ?_ ?_
  · simp only [settle, cells_val, cells_due, stored, dbSet, HashTable.Ht.get_set, untimed,
      past_none, if_true, Bool.false_eq_true, if_false]
  · simp only [setPayload, List.length_append, List.length_cons] at short
    have name : (ascii "SET").length = 3 := rfl
    omega

theorem storesWhole_of_word (word : IsWord k) (value : v ≠ [] ∧ NulFree v)
    (first : ∀ b ∈ v.head?, isDelim b = false) (last : ∀ b ∈ v.getLast?, isDelim b = false) :
    StoresWhole h k v ↔ ∀ b ∈ v, isDelim b = false := by
  have tokens := setPayload_tokens word.2.1 value.2
  rw [words_of_none word.1 word.2.2, List.singleton_append, List.take_succ_cons] at tokens
  constructor
  · intro whole
    by_contra inner
    obtain ⟨w, w', ws, cut, less⟩ := words_of_inner first last (by simpa using inner)
    rw [cut, List.take_succ_cons] at tokens
    have asks := set_asks h.nowRealtimeMs tokens
    have answer := whole {} (set_answer asks) {} 0
    rw [get_stored short untimed word asks less.le] at answer
    simp only [List.append_cancel_right_eq, List.append_cancel_left_eq] at answer
    rw [answer] at less
    exact Nat.lt_irrefl _ less
  · intro one io _ getIo nowRealtimeMs
    rw [words_of_none value.1 one, List.take_succ_cons] at tokens
    exact get_stored short untimed word (set_asks h.nowRealtimeMs tokens) (le_refl _) getIo _

omit short untimed in
theorem storesWhole_of_nil (value : v ≠ [] ∧ NulFree v) (first : ∀ b ∈ v.head?, isDelim b = false)
    (last : ∀ b ∈ v.getLast?, isDelim b = false) :
    StoresWhole h [] v ↔ ∀ b ∈ v, isDelim b = false := by
  have tokens := setPayload_tokens (k := []) List.not_mem_nil value.2
  rw [words_nil, List.nil_append] at tokens
  constructor
  · intro whole
    by_contra inner
    obtain ⟨w, w', ws, cut, -⟩ := words_of_inner first last (by simpa using inner)
    rw [cut, List.take_succ_cons, List.take_succ_cons] at tokens
    have answer := whole {} (set_answer (set_asks h.nowRealtimeMs tokens)) {} 0
    have alone : tokenizeCommand (cstr (getPayload [])) maxTokens = [ascii "GET"] := by
      decide +kernel
    have found : lookupCommand (ascii "GET") = some ⟨ascii "GET", .get, 2⟩ := by decide
    rw [too_few {} _ alone found (by decide)] at answer
    exact absurd (congrArg List.head? answer) (by simp [ascii])
  · intro one io ok
    rw [words_of_none value.1 one, List.take_succ_cons, List.take_nil] at tokens
    have found : lookupCommand (ascii "SET") = some ⟨ascii "SET", .set, -3⟩ := by decide
    rw [too_few io h tokens found rfl] at ok
    exact absurd ok (by decide)

variable (key : NulFree k ∧ ∀ b ∈ k, isDelim b = false) (value : v ≠ [] ∧ NulFree v)
  (first : ∀ b ∈ v.head?, isDelim b = false) (last : ∀ b ∈ v.getLast?, isDelim b = false)
include key value first last

/-- SET stores the whole value exactly when it is one word. -/
theorem storesWhole_iff : StoresWhole h k v ↔ ∀ b ∈ v, isDelim b = false := by
  by_cases empty : k = []
  · subst empty
    exact storesWhole_of_nil value first last
  · exact storesWhole_of_word short untimed ⟨empty, key⟩ value first last

end Store

theorem storesWhole_word : StoresWhole (firstHost {}) (ascii "k") (ascii "v") :=
  (storesWhole_iff (by decide) rfl (by decide +kernel) (by decide) (by decide +kernel)
    (by decide +kernel)).mpr
    (by decide +kernel)

theorem set_drops_word :
    (commandExecute {} (firstHost {}) (setPayload (ascii "k") (ascii "v w")) msgMax).2 =
        ascii "+OK\n" ∧
      (commandExecute {} (commandExecute {} (firstHost {})
        (setPayload (ascii "k") (ascii "v w")) msgMax).1 (getPayload (ascii "k")) msgMax).2 =
          ascii "+v\n" ∧
      ¬ StoresWhole (firstHost {}) (ascii "k") (ascii "v w") := by
  have stored : (commandExecute {} (firstHost {})
      (setPayload (ascii "k") (ascii "v w")) msgMax).2 = ascii "+OK\n" := by decide +kernel
  have answer : (commandExecute {} (commandExecute {} (firstHost {})
      (setPayload (ascii "k") (ascii "v w")) msgMax).1 (getPayload (ascii "k")) msgMax).2 =
        ascii "+v\n" := by decide +kernel
  refine ⟨stored, answer, fun whole => ?_⟩
  have same := whole {} stored {} (commandExecute {} (firstHost {})
    (setPayload (ascii "k") (ascii "v w")) msgMax).1.nowRealtimeMs
  exact absurd (answer.symm.trans same) (by decide)

end ByteKV.StoredValue
