import ByteKV.ResponseRoom
import ByteKV.TableIterator
import ByteKV.Listing

/-! What KEYS answers. It lists every key of the keyspace, with no look at the deadlines, and
what does not fit the buffer is cut off; the answer still lists the live keys, and nothing
else, in a few cases. -/
namespace ByteKV.LiveKeys
open Config Database AofRecord ServerState ServerRun Command CommandLine HashTable Listing
open StoreInvariant ExpiringLog ResponseRoom

def keyNumber (n : ℕ) : Bytes := decimal n ++ [41]

def keysText (keys : List Bytes) : Bytes := listing keyNumber 32 10 1 keys

theorem decimal_digits (n : ℕ) {b : UInt8} (h : b ∈ decimal n) : isDigit b = true := by
  rw [decimal, if_neg (by omega), List.nil_append, Int.natAbs_natCast] at h
  obtain ⟨c, hc, rfl⟩ := List.mem_map.mp h
  have digit := Nat.isDigit_of_mem_toDigits (by decide) (by decide) hc
  simp only [Char.isDigit, Bool.and_eq_true, decide_eq_true_eq] at digit
  obtain ⟨low, high⟩ := digit
  have small : c.toNat < 256 := by
    have := UInt32.le_iff_toNat_le.mp high
    change c.toNat ≤ 57 at this
    omega
  simp only [isDigit, Bool.and_eq_true, decide_eq_true_eq, UInt8.le_iff_toNat_le,
    UInt8.toNat_ofNat']
  have low' := UInt32.le_iff_toNat_le.mp low
  have high' := UInt32.le_iff_toNat_le.mp high
  change 48 ≤ c.toNat at low'
  change c.toNat ≤ 57 at high'
  change 48 ≤ c.toNat % 256 ∧ c.toNat % 256 ≤ 57
  omega

theorem keyNumber_free (n : ℕ) : (32 : UInt8) ∉ keyNumber n ∧ (10 : UInt8) ∉ keyNumber n := by
  have free {b : UInt8} (other : isDigit b = false) (paren : b ≠ 41) : b ∉ keyNumber n := by
    intro h
    rcases List.mem_append.mp h with digit | last
    · rw [decimal_digits n digit] at other
      cases other
    · exact paren (List.mem_singleton.mp last)
  exact ⟨free (by decide) (by decide), free (by decide) (by decide)⟩

/-! The loop of `cmd_keys`. -/

theorem take_take_append {α : Type} (n : ℕ) (s t : List α) :
    (s.take n ++ t).take n = (s ++ t).take n := by
  by_cases long : n ≤ s.length
  · rw [List.take_append_of_le_length (by rw [List.length_take]; omega),
      List.take_append_of_le_length long, List.take_take, Nat.min_self]
  · rw [List.take_of_length_le (by omega : s.length ≤ n)]

theorem keysLoop_out {ht : RawHt Bytes} (len : ht.table.length = ht.size) {rounds : Nat}
    {iter : HtIter Bytes} {count : Nat} {out : Bytes} {cap : Nat} (ready : iter.Ready ht)
    (enough : (htIterRest ht iter).length < rounds) (room : out.length < cap) :
    (keysLoop ht rounds iter count ⟨out, cap⟩).out =
      (out ++ listing keyNumber 32 10 (count + 1) ((htIterRest ht iter).map HtEntry.key)).take
        (cap - 1) := by
  induction rounds generalizing iter count out with
  | zero => omega
  | succ rounds ih =>
    obtain ⟨head, tail, -, -, next⟩ := htIterNext_ready len ready
    rcases call : htIterNext ht iter with ⟨entry, iter'⟩
    rw [call] at head tail next
    cases rest : htIterRest ht iter with
    | nil =>
      rw [rest] at head
      simp only [List.head?_nil] at head
      subst head
      simp only [keysLoop, call, List.map_nil, listing, List.append_nil]
      exact (List.take_of_length_le (show out.length ≤ cap - 1 by omega)).symm
    | cons e es =>
      rw [rest] at head tail next enough
      simp only [List.head?_cons, List.tail_cons] at head tail
      subst head
      have text : decimal (count + 1) ++ ascii ") " ++ e.key ++ ascii "\n" =
          line keyNumber 32 10 (count + 1) e.key := by
        have paren : ascii ") " = [41, 32] := rfl
        have newline : ascii "\n" = [10] := rfl
        simp [line, keyNumber, paren, newline]
      have short :
          ((out ++ line keyNumber 32 10 (count + 1) e.key).take (cap - 1)).length < cap := by
        rw [List.length_take]
        omega
      simp only [keysLoop, call, text, respAddf_take room]
      rw [ih (next (by simp)) (by rw [tail]; simpa using enough) short, tail, take_take_append,
        List.map_cons, listing, List.append_assoc]

/-- The keys of the keyspace, in the order of the buckets. -/
def keys (h : Host) : List Bytes := h.db.keyspace.entries.map HtEntry.key

theorem keys_out {io : RequestIo} {h : Host} {payload : Bytes} {outCap : Nat} (pos : 0 < outCap)
    (asks : requestProc payload = some .keys) :
    (commandExecute io h payload outCap).2 = (keysText (keys h)).take (outCap - 1) := by
  have all : (htIterRest h.db.keyspace.raw htIterCreate).length <
      h.db.keyspace.raw.entries.length + 1 := by
    rw [htIterRest_create]
    omega
  have run : (cmdKeys h ⟨[], outCap⟩).2.out = _ :=
    keysLoop_out h.db.keyspace.wf.length_eq htIterCreate_ready all pos
  rw [htIterRest_create] at run
  rw [commandExecute_of_proc asks]
  exact run

/-! The keys that are listed, and those that are live. -/

def Live (h : Host) (k : Bytes) : Prop :=
  (h.db.keyspace.get k).isSome = true ∧ past h.nowRealtimeMs (h.db.expires.get k) = false

/-- KEYS lists every live key once, numbered from 1, and nothing else. -/
def ListsLive (h : Host) : Prop :=
  ∀ io payload, payload.length ≤ msgMax → requestProc payload = some .keys →
    ∃ ls : List Bytes, ls.Nodup ∧ (∀ k, k ∈ ls ↔ Live h k) ∧
      (commandExecute io h payload msgMax).2 = keysText ls

/-- Every key is live and all of the listing fits; or the cut falls behind a line, with all
live keys in front of it; or it falls behind an end of line inside a key, and what is in front
of that is itself the one live key behind the cut. -/
inductive CutHarmless (h : Host) : Prop
  | complete (live : ∀ k ∈ keys h, Live h k) (fits : (keysText (keys h)).length < msgMax)
  | behindLine (front back : List Bytes) (split : keys h = front ++ back)
      (live : ∀ k ∈ front, Live h k) (dead : ∀ k ∈ back, ¬ Live h k)
      (full : (keysText front).length + 1 = msgMax)
  | insideKey (front back : List Bytes) (p later : Bytes)
      (split : keys h = front ++ (p ++ 10 :: later) :: back) (live : ∀ k ∈ front, Live h k)
      (again : p ∈ back) (only : ∀ k ∈ (p ++ 10 :: later) :: back, Live h k ↔ k = p)
      (full : (keysText (front ++ [p])).length + 1 = msgMax)

theorem Live.mem {h : Host} {k : Bytes} (live : Live h k) : k ∈ keys h := by
  obtain ⟨v, hv⟩ := Option.isSome_iff_exists.mp live.1
  exact List.mem_map.mpr ⟨⟨k, v⟩, (h.db.keyspace.mem_entries_iff).mpr hv, rfl⟩

theorem keys_word {h : Host} (sent : SentOnly h.db.cells) {k : Bytes} (held : k ∈ keys h) :
    IsWord k := by
  obtain ⟨⟨k, v⟩, he, rfl⟩ := List.mem_map.mp held
  exact (sent k v (h.db.keyspace.mem_entries_iff.mp he)).word

theorem word_free {k : Bytes} (word : IsWord k) : (32 : UInt8) ∉ k :=
  fun blank => absurd (word.2.2 32 blank) (by decide)

theorem keysText_prefix_iff {ls ks : List Bytes} (hls : ∀ k ∈ ls, IsWord k)
    (hks : ∀ k ∈ ks, IsWord k) : keysText ls <+: keysText ks ↔ ls <+: ks ∨
      ∃ front p later back, ls = front ++ [p] ∧ ks = front ++ (p ++ 10 :: later) :: back :=
  listing_prefix_iff keyNumber_free (by decide) (fun k h => word_free (hls k h))
    (fun k h => word_free (hks k h))

theorem cutHarmless_of_lists {h : Host} (sent : SentOnly h.db.cells) {ls : List Bytes}
    (once : ls.Nodup) (live : ∀ k, k ∈ ls ↔ Live h k)
    (text : (keysText (keys h)).take (msgMax - 1) = keysText ls) : CutHarmless h := by
  have distinct : (keys h).Nodup := h.db.keyspace.keys_nodup
  have size := congrArg List.length text
  rw [List.length_take] at size
  have pre : keysText ls <+: keysText (keys h) := text ▸ List.take_prefix _ _
  rcases (keysText_prefix_iff (fun k hk => keys_word sent ((live k).mp hk).mem)
    (fun k hk => keys_word sent hk)).mp pre with ⟨back, split⟩ | ⟨front, p, later, back, rfl, split⟩
  · by_cases fits : (keysText (keys h)).length < msgMax
    · refine .complete (fun k hk => (live k).mp ?_) fits
      have same : keysText ls = keysText (keys h) := by
        rw [← text, List.take_of_length_le (by omega)]
      rw [← split, keysText, keysText, listing_append] at same
      have empty : listing keyNumber 32 10 (1 + ls.length) back = [] :=
        List.append_right_eq_self.mp same.symm
      cases back with
      | nil => rwa [← split, List.append_nil] at hk
      | cons k' back => simp [listing_cons] at empty
    · refine .behindLine ls back split.symm (fun k hk => (live k).mp hk) (fun k hk alive => ?_)
        (by rw [msgMax_eq] at *; omega)
      rw [← split, List.nodup_append] at distinct
      exact distinct.2.2 k ((live k).mpr alive) k hk rfl
  · have alive : Live h p := (live p).mp (List.mem_append_right _ (List.mem_singleton_self p))
    rw [split, List.nodup_append] at distinct
    rw [List.nodup_append] at once
    refine .insideKey front back p later split
      (fun k hk => (live k).mp (List.mem_append_left _ hk)) ?_ (fun k hk => ⟨fun lives => ?_, ?_⟩) ?_
    · have held := alive.mem
      rw [split] at held
      rcases List.mem_append.mp held with early | late
      · exact absurd rfl (once.2.2 p early p (List.mem_singleton_self p))
      · rcases List.mem_cons.mp late with same | late
        · have len := congrArg List.length same
          rw [List.length_append, List.length_cons] at len
          omega
        · exact late
    · rcases List.mem_append.mp ((live k).mpr lives) with early | last
      · exact absurd rfl (distinct.2.2 k early k hk)
      · exact List.mem_singleton.mp last
    · rintro rfl
      exact alive
    · have longer : (keysText (front ++ [p])).length < (keysText (keys h)).length := by
        rw [split, keysText, keysText, listing_append, listing_append, List.length_append,
          List.length_append, listing_cons, listing_cons]
        simp only [List.length_append, List.length_cons, listing, List.length_nil]
        omega
      rw [msgMax_eq] at *
      omega

theorem lists_of_cutHarmless {h : Host} (harmless : CutHarmless h) :
    ∃ ls : List Bytes, ls.Nodup ∧ (∀ k, k ∈ ls ↔ Live h k) ∧
      (keysText (keys h)).take (msgMax - 1) = keysText ls := by
  have distinct : (keys h).Nodup := h.db.keyspace.keys_nodup
  have cut {ls : List Bytes} (front : keysText ls <+: keysText (keys h))
      (full : (keysText ls).length + 1 = msgMax) :
      (keysText (keys h)).take (msgMax - 1) = keysText ls := by
    rw [← full, Nat.add_sub_cancel]
    exact (List.prefix_iff_eq_take.mp front).symm
  cases harmless with
  | complete live fits =>
    exact ⟨keys h, distinct, fun k => ⟨live k, Live.mem⟩, List.take_of_length_le (by omega)⟩
  | behindLine front back split live dead full =>
    refine ⟨front, ?_, fun k => ⟨live k, fun alive => ?_⟩, cut ?_ full⟩
    · rw [split] at distinct
      exact (List.nodup_append.mp distinct).1
    · have held := alive.mem
      rw [split] at held
      exact (List.mem_append.mp held).resolve_right fun late => dead k late alive
    · rw [split, keysText, keysText, listing_append]
      exact List.prefix_append _ _
  | insideKey front back p later split live again only full =>
    rw [split, List.nodup_append] at distinct
    refine ⟨front ++ [p], ?_, fun k => ?_, cut ?_ full⟩
    · refine List.nodup_append.mpr ⟨distinct.1, List.nodup_singleton p, fun k early q last => ?_⟩
      rw [List.mem_singleton.mp last]
      exact distinct.2.2 k early p (List.mem_cons_of_mem _ again)
    · constructor
      · intro hk
        rcases List.mem_append.mp hk with early | last
        · exact live k early
        · rw [List.mem_singleton.mp last]
          exact (only p (List.mem_cons_of_mem _ again)).mpr rfl
      · intro alive
        have held := alive.mem
        rw [split] at held
        rcases List.mem_append.mp held with early | late
        · exact List.mem_append_left _ early
        · exact List.mem_append_right _ (List.mem_singleton.mpr ((only k late).mp alive))
    · rw [split]
      exact listing_inside 1 front back p later

/-- KEYS lists the live keys exactly in these cases. -/
theorem listsLive_iff {config : ServerConfig} {disk : FileIo.Disk}
    {nowMs nowRealtimeMs realtimeMs : Int} {io : BootIo} {h : Host}
    (boot : initServer config disk nowMs nowRealtimeMs realtimeMs io = some h)
    (start : SentOnly h.db.cells) (events : List Event) :
    ListsLive (run h events) ↔ CutHarmless (run h events) := by
  have sent := sentOnly_run boot start events
  constructor
  · intro lists
    have asks : requestProc (ascii "KEYS") = some .keys := by decide +kernel
    obtain ⟨ls, once, live, text⟩ := lists {} (ascii "KEYS") (by decide) asks
    rw [keys_out (by decide) asks] at text
    exact cutHarmless_of_lists sent once live text
  · intro harmless io payload _ asks
    rw [keys_out (by decide) asks]
    exact lists_of_cutHarmless harmless

instance (h : Host) (k : Bytes) : Decidable (Live h k) := inferInstanceAs (Decidable (_ ∧ _))

theorem listsLive_two : ListsLive
    (run (firstHost {}) [.request (ascii "SET k v") {}, .request (ascii "SETEX j 10 w") {}]) :=
  (listsLive_iff (firstHost_boot {}) sentOnly_empty
    [.request (ascii "SET k v") {}, .request (ascii "SETEX j 10 w") {}]).mpr
    (.complete (by decide +kernel) (by decide +kernel))

theorem unswept_listed :
    (commandExecute {} Visibility.unswept (ascii "KEYS") msgMax).2 = ascii "1) k\n" ∧
      ¬ Live Visibility.unswept (ascii "k") ∧ ¬ ListsLive Visibility.unswept := by
  have answer :
      (commandExecute {} Visibility.unswept (ascii "KEYS") msgMax).2 = ascii "1) k\n" := by
    decide +kernel
  have expired : ∀ k ∈ keys Visibility.unswept, ¬ Live Visibility.unswept k := by decide +kernel
  refine ⟨answer, by decide +kernel, fun lists => ?_⟩
  obtain ⟨ls, -, live, text⟩ := lists {} (ascii "KEYS") (by decide) (by decide +kernel)
  cases ls with
  | nil => exact absurd (answer.symm.trans text) (by decide)
  | cons k ls =>
    have alive := (live k).mp List.mem_cons_self
    exact expired k alive.mem alive

end ByteKV.LiveKeys
