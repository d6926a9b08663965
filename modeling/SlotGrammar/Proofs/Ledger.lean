import SlotGrammar.Proofs.Course
import SlotGrammar.Recording.Session

/-!
# Ledgers

What the stores of a grammar hold is seen through two questions: which outcome is
committed in a store at an ordinal of a trace, and which outcome a session has pending
there.  Every operation of a session is described by what it does to the answers.

The books of a session are kept when each of its ordinals is accounted for: its slot
is pending in the store that the journal names, or it was replayed, or its call raised
an error.

Main results:

- Theorem `committed_finish`: a match commits exactly what is pending.
- Theorem `Books.settle`: a call that has built its outcome keeps the books.
-/

namespace SlotGrammar

variable {V α : Type}

/-! ## Tables -/

namespace Table

variable {κ β : Type} [DecidableEq κ]

/-- A key that occurs nowhere is looked up in vain. -/
theorem lookup_eq_none_of_not_mem {key : κ} {es : List (κ × β)} (h : key ∉ es.map Prod.fst) :
    lookup key es = none := by
  induction es with
  | nil => rfl
  | cons e es ih =>
    rw [List.map_cons, List.mem_cons, not_or] at h
    rw [lookup, if_neg (Ne.symm h.1), ih h.2]

/-- Binding the entries of a list without duplicate keys. -/
theorem find?_putAll {es : List (κ × β)} (hnodup : (es.map Prod.fst).Nodup) (t : Table κ β)
    (key : κ) : (t.putAll es).find? key = (lookup key es).or (t.find? key) := by
  induction es generalizing t with
  | nil => rfl
  | cons e es ih =>
    rw [List.map_cons, List.nodup_cons] at hnodup
    show ((t.put e.1 e.2).putAll es).find? key = _
    rw [ih hnodup.2, find?_put, lookup]
    by_cases hkey : e.1 = key
    · rw [if_pos hkey, if_pos hkey, lookup_eq_none_of_not_mem (hkey ▸ hnodup.1)]
      rfl
    · rw [if_neg hkey, if_neg hkey]

end Table

/-! ## Stores -/

namespace Store

/-- The pending outcomes of a session are found by their ordinals. -/
theorem lookup_pendingOf (s : Store V α) (id : SessionId) (n : Nat) :
    Table.lookup n (s.pendingOf id) = s.pending? id n := by
  unfold pendingOf pending? Table.find?
  generalize s.pending.entries = es
  induction es with
  | nil => rfl
  | cons e es ih =>
    rcases e with ⟨⟨id', n'⟩, o⟩
    by_cases hid : id' = id
    · subst hid
      by_cases hn : n' = n
      · simp [Table.lookup, hn]
      · simp [Table.lookup, hn, ih]
    · simp [Table.lookup, hid, ih]

/-- What a session has pending lists every ordinal once. -/
theorem nodup_pendingOf (s : Store V α) (id : SessionId) :
    ((s.pendingOf id).map Prod.fst).Nodup := by
  have hnodup : ((s.pending.entries.filter fun e => decide (e.1.1 = id)).map Prod.fst).Nodup :=
    Table.nodup_keys_filter s.pending.nodup
  unfold pendingOf
  generalize hes : s.pending.entries.filter (fun e => decide (e.1.1 = id)) = es at hnodup ⊢
  have hid : ∀ e ∈ es, e.1.1 = id := by
    intro e he
    rw [← hes] at he
    exact of_decide_eq_true (List.mem_filter.1 he).2
  rw [List.map_map]
  refine List.pairwise_map.2 ((List.pairwise_map.1 hnodup).imp_of_mem ?_)
  intro a b ha hb hne heq
  exact hne (Prod.ext ((hid a ha).trans (hid b hb).symm) heq)

/-- A commit makes what was pending replayable under the key of the session. -/
theorem replay?_commit (s : Store V α) (id : SessionId) (key key' : TraceKey) (n : Nat) :
    (s.commit id key).replay? key' n =
      if key' = key then (s.pending? id n).or (s.replay? key n) else s.replay? key' n := by
  have hfound := lookup_pendingOf s id n
  have hnodup := nodup_pendingOf s id
  unfold commit
  split
  next hnone =>
    rw [hnone] at hfound
    rw [replay?_discard, ← hfound]
    split
    next heq =>
      rw [heq]
      rfl
    · rfl
  next entries _ =>
    unfold replay?
    rw [Table.find?_put]
    by_cases hkey : key' = key
    · subst hkey
      rw [if_pos rfl, if_pos rfl, Option.bind_some, Table.find?_putAll hnodup, hfound]
      cases s.traces.find? key' <;> rfl
    · rw [if_neg (Ne.symm hkey), if_neg hkey]

/-- A commit leaves nothing pending for the session, and leaves other sessions alone. -/
theorem pending?_commit (s : Store V α) (id id' : SessionId) (key : TraceKey) (n : Nat) :
    (s.commit id key).pending? id' n = if id' = id then none else s.pending? id' n := by
  rw [← pending?_discard]
  unfold commit
  split <;> rfl

end Store

/-! ## What the stores hold -/

namespace Stores

/-- The outcome that is committed in a store at an ordinal of a trace. -/
def committed (stores : Stores V α) (s : StoreId) (key : TraceKey) (n : Nat) :
    Option (Outcome V α) :=
  (stores[s]?).bind fun store => store.replay? key n

/-- The outcome that a session has pending in a store at an ordinal. -/
def pending (stores : Stores V α) (s : StoreId) (id : SessionId) (n : Nat) :
    Option (Outcome V α) :=
  (stores[s]?).bind fun store => store.pending? id n

/-- What is asked of a changed store is asked of the store before, if the change does
not touch the answer. -/
theorem bind_modify_of_eq {β : Type} (stores : Stores V α) {change : Store V α → Store V α}
    {ask : Store V α → Option β} (s t : StoreId)
    (h : ∀ store, stores[s]? = some store → s = t → ask (change store) = ask store) :
    (Array.modify stores s change)[t]?.bind ask = stores[t]?.bind ask := by
  rw [Array.getElem?_modify]
  by_cases hst : s = t
  · subst hst
    rw [if_pos rfl]
    cases hstore : stores[s]? with
    | none => rfl
    | some store => exact h store hstore rfl
  · rw [if_neg hst]

/-- A change of one store that keeps its traces keeps what is committed everywhere. -/
theorem committed_modify (stores : Stores V α) (change : Store V α → Store V α)
    (h : ∀ store key n, (change store).replay? key n = store.replay? key n)
    (s t : StoreId) (key : TraceKey) (n : Nat) :
    committed (Array.modify stores s change) t key n = stores.committed t key n :=
  bind_modify_of_eq stores s t fun store _ _ => h store key n

/-- Forgetting removes exactly the one pending entry. -/
theorem pending_forget (stores : Stores V α) (s t : StoreId) (id id' : SessionId) (n m : Nat) :
    pending (Array.modify stores s fun store => store.forget id n) t id' m =
      if t = s ∧ id' = id ∧ m = n then none else stores.pending t id' m := by
  unfold pending
  rw [Array.getElem?_modify]
  by_cases hst : s = t
  · subst hst
    cases hstore : stores[s]? with
    | none => simp
    | some store => simp [Store.pending?_forget]
  · simp [hst, Ne.symm hst]

/-- Recording sets exactly the one pending entry. -/
theorem pending_record (stores : Stores V α) {s : StoreId} (hs : s < stores.size) (t : StoreId)
    (id id' : SessionId) (n m : Nat) (outcome : Outcome V α) :
    pending (Array.modify stores s fun store => store.record id n outcome) t id' m =
      if t = s ∧ id' = id ∧ m = n then some outcome else stores.pending t id' m := by
  unfold pending
  rw [Array.getElem?_modify]
  by_cases hst : s = t
  · subst hst
    rw [Array.getElem?_eq_getElem hs]
    simp [Store.pending?_record, eq_comm]
  · simp [hst, Ne.symm hst]

/-- Clearing a store removes what is committed in it, and nothing else. -/
theorem committed_clear (stores : Stores V α) (s t : StoreId) (key : TraceKey) (n : Nat) :
    committed (Array.modify stores s Store.clear) t key n =
      if t = s then none else stores.committed t key n := by
  unfold committed
  rw [Array.getElem?_modify]
  by_cases hst : s = t
  · subst hst
    cases stores[s]? <;> simp
  · simp [hst, Ne.symm hst]

/-- Clearing a store leaves what is pending. -/
theorem pending_clear (stores : Stores V α) (s t : StoreId) (id : SessionId) (n : Nat) :
    pending (Array.modify stores s Store.clear) t id n = stores.pending t id n :=
  bind_modify_of_eq stores s t fun _ _ _ => rfl

end Stores

/-! ## What a session does to the stores -/

namespace Session

/-- Dropping slots leaves the number of stores. -/
theorem size_dropSlots (id : SessionId) (n : Nat) (slots : List (Option StoreId))
    (stores : Stores V α) : (dropSlots id n slots stores).size = stores.size := by
  induction slots generalizing n stores with
  | nil => rfl
  | cons slot slots ih =>
    cases slot with
    | none => exact ih _ _
    | some s =>
      rw [dropSlots, ih]
      exact Array.size_modify

/-- Dropping slots leaves what is committed. -/
theorem committed_dropSlots (id : SessionId) (n : Nat) (slots : List (Option StoreId))
    (stores : Stores V α) (t : StoreId) (key : TraceKey) (m : Nat) :
    (dropSlots id n slots stores).committed t key m = stores.committed t key m := by
  induction slots generalizing n stores with
  | nil => rfl
  | cons slot slots ih =>
    cases slot with
    | none => exact ih _ _
    | some s =>
      rw [dropSlots, ih]
      exact stores.committed_modify (fun store => store.forget id n) (fun _ _ _ => rfl) s t key m

/-- Dropping slots drops what the journal names in them, and nothing else. -/
theorem pending_dropSlots (id : SessionId) (n : Nat) (slots : List (Option StoreId))
    (stores : Stores V α) (t : StoreId) (id' : SessionId) (m : Nat) :
    (dropSlots id n slots stores).pending t id' m =
      if id' = id ∧ n ≤ m ∧ slots[m - n]? = some (some t) then none
      else stores.pending t id' m := by
  induction slots generalizing n stores with
  | nil => simp [dropSlots]
  | cons slot slots ih =>
    have hstep : n < m → (slot :: slots)[m - n]? = slots[m - (n + 1)]? := by
      intro hlt
      rw [show m - n = m - (n + 1) + 1 by omega, List.getElem?_cons_succ]
    cases slot with
    | none =>
      rw [dropSlots, ih]
      rcases Nat.lt_trichotomy n m with hlt | rfl | hgt
      · simp [hstep hlt, Nat.le_of_lt hlt, Nat.succ_le_of_lt hlt]
      · simp [show ¬ n + 1 ≤ n by omega]
      · simp [show ¬ n + 1 ≤ m by omega, show ¬ n ≤ m by omega]
    | some s =>
      rw [dropSlots, ih, Stores.pending_forget]
      rcases Nat.lt_trichotomy n m with hlt | rfl | hgt
      · simp [hstep hlt, Nat.le_of_lt hlt, Nat.succ_le_of_lt hlt, Nat.ne_of_gt hlt]
      · simp [show ¬ n + 1 ≤ n by omega, and_comm, eq_comm]
      · simp [show ¬ n + 1 ≤ m by omega, show ¬ n ≤ m by omega, show m ≠ n by omega]

/-- What a session that ends makes of one store that its journal names. -/
def close (ses : Session) (matched : Bool) (store : Store V α) : Store V α :=
  if matched then store.commit ses.id ses.key else store.discard ses.id

/-- A session finishes its latest slot first. -/
theorem finish_cons (ses : Session) (matched : Bool) (journal : List (Option StoreId))
    (slot : Option StoreId) (stores : Stores V α) :
    finish { ses with journal := slot :: journal } matched stores =
      finish { ses with journal } matched
        (match slot with
          | none => stores
          | some s => Array.modify stores s (ses.close matched)) := rfl

/-- The end of a session leaves the number of stores. -/
theorem size_finish (ses : Session) (matched : Bool) (stores : Stores V α) :
    (ses.finish matched stores).size = stores.size := by
  obtain ⟨id, key, journal, building⟩ := ses
  induction journal generalizing stores with
  | nil => rfl
  | cons slot journal ih =>
    rw [finish_cons ⟨id, key, journal, building⟩, ih]
    cases slot with
    | none => rfl
    | some s => exact Array.size_modify

/-- A session that ends leaves what other sessions have pending alone. -/
theorem pending_finish (ses : Session) (matched : Bool) (stores : Stores V α) (t : StoreId)
    {id : SessionId} (hid : id ≠ ses.id) (n : Nat) :
    (ses.finish matched stores).pending t id n = stores.pending t id n := by
  obtain ⟨id', key, journal, building⟩ := ses
  induction journal generalizing stores with
  | nil => rfl
  | cons slot journal ih =>
    rw [finish_cons ⟨id', key, journal, building⟩, ih _ hid]
    cases slot with
    | none => rfl
    | some s =>
      refine Stores.bind_modify_of_eq stores s t fun store _ _ => ?_
      cases matched with
      | true => exact (store.pending?_commit id' id key n).trans (if_neg hid)
      | false => exact (store.pending?_discard id' id n).trans (if_neg hid)

/-- A session that ends without a match commits nothing. -/
theorem committed_finish_false (ses : Session) (stores : Stores V α) (t : StoreId)
    (key : TraceKey) (n : Nat) :
    (ses.finish false stores).committed t key n = stores.committed t key n := by
  obtain ⟨id, key', journal, building⟩ := ses
  induction journal generalizing stores with
  | nil => rfl
  | cons slot journal ih =>
    rw [finish_cons ⟨id, key', journal, building⟩, ih]
    cases slot with
    | none => rfl
    | some s => exact stores.committed_modify (close _ false) (fun _ _ _ => rfl) s t key n

/-- A match commits what is pending in the stores that the journal names, under the
key of the session. -/
theorem committed_finish_true (ses : Session) (stores : Stores V α) (t : StoreId)
    (key : TraceKey) (n : Nat) :
    (ses.finish true stores).committed t key n =
      if some t ∈ ses.journal ∧ key = ses.key then
        (stores.pending t ses.id n).or (stores.committed t key n)
      else stores.committed t key n := by
  obtain ⟨id, key', journal, building⟩ := ses
  induction journal generalizing stores with
  | nil => simp [finish]
  | cons slot journal ih =>
    rw [finish_cons ⟨id, key', journal, building⟩, ih]
    cases slot with
    | none => simp
    | some s =>
      by_cases hst : s = t
      · subst hst
        unfold Stores.committed Stores.pending
        rw [Array.getElem?_modify, if_pos rfl]
        cases stores[s]? with
        | none => simp
        | some store =>
          simp only [Option.map_some, Option.bind_some, close, if_true, Store.replay?_commit,
            Store.pending?_commit]
          by_cases hkey : key = key'
          · simp [hkey]
          · simp [hkey]
      · have hother : ∀ {β : Type} (ask : Store V α → Option β),
            (Array.modify stores s (close ⟨id, key', journal, building⟩ true))[t]?.bind ask =
              stores[t]?.bind ask :=
          fun _ => Stores.bind_modify_of_eq stores s t fun _ _ h => absurd h hst
        simp only [Stores.committed, Stores.pending, hother, List.mem_cons, Option.some.injEq,
          Ne.symm hst, false_or]

/-- The stores after a call has recorded its outcome in place of all below it. -/
def settleIn (ses : Session) (s : StoreId) (n : Nat) (outcome : Outcome V α)
    (stores : Stores V α) : Stores V α :=
  Array.modify (ses.dropFrom (n + 1) stores) s fun store => store.record ses.id n outcome

/-- Settling a call leaves the number of stores. -/
theorem size_settleIn (ses : Session) (s : StoreId) (n : Nat) (outcome : Outcome V α)
    (stores : Stores V α) : (ses.settleIn s n outcome stores).size = stores.size := by
  rw [settleIn, Array.size_modify, dropFrom, size_dropSlots]

/-- Recording an outcome commits nothing. -/
theorem committed_settleIn (ses : Session) (s : StoreId) (n : Nat) (outcome : Outcome V α)
    (stores : Stores V α) : (ses.settleIn s n outcome stores).committed = stores.committed := by
  funext t key m
  rw [settleIn, Stores.committed_modify _ (fun store => store.record ses.id n outcome)
    fun _ _ _ => rfl, dropFrom, committed_dropSlots]

/-- Recording an outcome replaces what the session had pending from there on. -/
theorem pending_settleIn (ses : Session) {s : StoreId} {stores : Stores V α}
    (hs : s < stores.size) (n : Nat) (outcome : Outcome V α) (t : StoreId) (m : Nat) :
    (ses.settleIn s n outcome stores).pending t ses.id m =
      if t = s ∧ m = n then some outcome
      else if n + 1 ≤ m ∧ ses.journal[m]? = some (some t) then none
      else stores.pending t ses.id m := by
  rw [settleIn, Stores.pending_record _ (by rw [dropFrom, size_dropSlots]; exact hs), dropFrom,
    pending_dropSlots]
  simp only [true_and, List.getElem?_drop]
  by_cases hm : n + 1 ≤ m
  · rw [show n + 1 + (m - (n + 1)) = m by omega]
  · simp [hm]

/-- Recording an outcome leaves what other sessions have pending alone. -/
theorem pending_settleIn_of_ne (ses : Session) {s : StoreId} {stores : Stores V α}
    (hs : s < stores.size) (n : Nat) (outcome : Outcome V α) (t : StoreId) {id : SessionId}
    (hid : id ≠ ses.id) (m : Nat) :
    (ses.settleIn s n outcome stores).pending t id m = stores.pending t id m := by
  rw [settleIn, Stores.pending_record _ (by rw [dropFrom, size_dropSlots]; exact hs), dropFrom,
    pending_dropSlots]
  simp [hid]

/-! ## Books -/

/-- Whether an ordinal of a session is accounted for by a slot.  An outcome is pending
in the store that the journal names, or there is evidence that it was replayed. -/
def Accounts (evidence : StoreId → Nat → Outcome V α → Prop) (ses : Session)
    (stores : Stores V α) (n : Nat) : Slot V α → Prop
  | .settled s o =>
    ses.journal[n]? = some (some s) ∧ stores.pending s ses.id n = some o ∨
      ses.journal[n]? = some none ∧ evidence s n o
  | .raised _ => ses.journal[n]? = some none
  | .passed => True

/-- Only the journal and what is pending at the ordinal count. -/
theorem Accounts.congr {evidence : StoreId → Nat → Outcome V α → Prop} {ses ses' : Session}
    {stores stores' : Stores V α} {n : Nat} {slot : Slot V α}
    (h : ses.Accounts evidence stores n slot) (hid : ses'.id = ses.id)
    (hjournal : ses'.journal[n]? = ses.journal[n]?)
    (hpending : ∀ s, stores'.pending s ses.id n = stores.pending s ses.id n) :
    ses'.Accounts evidence stores' n slot := by
  cases slot with
  | settled s o =>
    show ses'.journal[n]? = some (some s) ∧ stores'.pending s ses'.id n = some o ∨
      ses'.journal[n]? = some none ∧ evidence s n o
    rw [hid, hjournal, hpending]
    exact h
  | raised s => exact hjournal.trans h
  | passed => trivial

/-- Whether every ordinal of a session is accounted for by a list of slots, and nothing
is pending but what the journal names. -/
structure Books (evidence : StoreId → Nat → Outcome V α → Prop) (ses : Session)
    (stores : Stores V α) (tape : List (Slot V α)) : Prop where
  length_eq : ses.journal.length = tape.length
  accounts : ∀ (n : Nat) (slot : Slot V α), tape[n]? = some slot →
    ses.Accounts evidence stores n slot
  named : ∀ (s : StoreId) (n : Nat) (o : Outcome V α), stores.pending s ses.id n = some o →
    ses.journal[n]? = some (some s)

namespace Books

variable {evidence : StoreId → Nat → Outcome V α → Prop} {ses ses' : Session}
  {stores stores' : Stores V α} {tape : List (Slot V α)}

/-- The books of a session that starts are empty. -/
theorem start (hjournal : ses.journal = [])
    (hfresh : ∀ s n, stores.pending s ses.id n = none) : ses.Books evidence stores [] := by
  refine ⟨by simp [hjournal], by simp, ?_⟩
  intro s n o h
  rw [hfresh] at h
  cases h

/-- Only the journal of a session and what it has pending count. -/
theorem congr (h : ses.Books evidence stores tape) (hid : ses'.id = ses.id)
    (hjournal : ses'.journal = ses.journal)
    (hpending : ∀ s n, stores'.pending s ses.id n = stores.pending s ses.id n) :
    ses'.Books evidence stores' tape := by
  refine ⟨by rw [hjournal, h.length_eq], ?_, ?_⟩
  · intro n slot hslot
    exact (h.accounts n slot hslot).congr hid (by rw [hjournal]) fun s => hpending s n
  · intro s n o ho
    rw [hid, hpending] at ho
    rw [hjournal]
    exact h.named s n o ho

/-- A reservation adds a slot without an outcome, or with one that is replayed. -/
theorem reserve (h : ses.Books evidence stores tape) {slot : Slot V α}
    (hslot : ∀ s o, slot = .settled s o → evidence s ses.ordinal o) :
    ses.reserve.Books evidence stores (tape ++ [slot]) := by
  have hold : ∀ n : Nat, n < ses.journal.length →
      ses.reserve.journal[n]? = ses.journal[n]? :=
    fun n hn => List.getElem?_append_left hn
  have hnew : ses.reserve.journal[ses.journal.length]? = some none := by simp [Session.reserve]
  refine ⟨by simp [Session.reserve, h.length_eq], ?_, ?_⟩
  · intro n x hx
    rcases Nat.lt_or_ge n tape.length with hlt | hge
    · rw [List.getElem?_append_left hlt] at hx
      exact (h.accounts n x hx).congr rfl (hold n (by rw [h.length_eq]; exact hlt)) fun _ => rfl
    · obtain ⟨hlt, hget⟩ := List.getElem?_eq_some_iff.1 hx
      have hn : n = ses.journal.length := by
        simp only [List.length_append, List.length_singleton] at hlt
        have := h.length_eq
        omega
      subst hn
      have hslot' : x = slot := by
        rw [h.length_eq] at hx
        simpa using hx.symm
      subst hslot'
      cases x with
      | settled s o => exact .inr ⟨hnew, hslot s o rfl⟩
      | raised s => exact hnew
      | passed => trivial
  · intro s n o ho
    have hnamed := h.named s n o ho
    obtain ⟨hlt, -⟩ := List.getElem?_eq_some_iff.1 hnamed
    rw [hold n hlt]
    exact hnamed

/-- Below a call that raises an error nothing more is known of the ordinals. -/
theorem pass {s : StoreId} {slots : List (Slot V α)}
    (h : ses.Books evidence stores (tape ++ .raised s :: slots)) :
    ses.Books evidence stores (tape ++ .raised s :: slots.map fun _ => .passed) := by
  refine ⟨by simpa using h.length_eq, ?_, h.named⟩
  intro n slot hslot
  rcases Nat.lt_trichotomy n tape.length with hlt | heq | hgt
  · refine h.accounts n slot ?_
    rw [List.getElem?_append_left hlt] at hslot ⊢
    exact hslot
  · subst heq
    refine h.accounts _ slot ?_
    simpa using hslot
  · obtain ⟨k, rfl⟩ : ∃ k, n = tape.length + (k + 1) := ⟨n - tape.length - 1, by omega⟩
    rw [List.getElem?_append_right (by omega), show tape.length + (k + 1) - tape.length = k + 1 by
      omega, List.getElem?_cons_succ, List.getElem?_map] at hslot
    obtain ⟨x, -, rfl⟩ := Option.map_eq_some_iff.1 hslot
    trivial

/-- A call that has built its outcome takes the ordinals below it back and has its
outcome pending. -/
theorem settle {s s' : StoreId} {slots : List (Slot V α)}
    (h : ses.Books evidence stores (tape ++ .raised s' :: slots)) (hs : s < stores.size)
    (o : Outcome V α) :
    ((ses.rollBack (tape.length + 1)).mark tape.length s).Books evidence
      (ses.settleIn s tape.length o stores) (tape ++ [.settled s o]) := by
  have hlength : ses.journal.length = tape.length + 1 + slots.length := by
    rw [h.length_eq, List.length_append, List.length_cons]
    omega
  have hjournal : ∀ n, n ≠ tape.length → n ≤ tape.length →
      ((ses.rollBack (tape.length + 1)).mark tape.length s).journal[n]? = ses.journal[n]? := by
    intro n hne hle
    simp only [Session.mark, Session.rollBack]
    rw [List.getElem?_set_ne (Ne.symm hne), List.getElem?_take_of_lt (by omega)]
  have hself : ((ses.rollBack (tape.length + 1)).mark tape.length s).journal[tape.length]? =
      some (some s) := by
    simp only [Session.mark, Session.rollBack]
    rw [List.getElem?_set_self]
    rw [List.length_take]
    omega
  have hpending := ses.pending_settleIn hs tape.length o
  refine ⟨?_, ?_, ?_⟩
  · simp only [Session.mark, Session.rollBack, List.length_set, List.length_take, hlength,
      List.length_append, List.length_singleton]
    omega
  · intro n slot hslot
    rcases Nat.lt_or_ge n tape.length with hlt | hge
    · rw [List.getElem?_append_left hlt] at hslot
      have haccounts := h.accounts n slot (by rw [List.getElem?_append_left hlt]; exact hslot)
      refine haccounts.congr rfl (hjournal n (by omega) (by omega)) ?_
      intro t
      rw [hpending, if_neg (by omega), if_neg (by omega)]
    · obtain ⟨hlt, -⟩ := List.getElem?_eq_some_iff.1 hslot
      have hn : n = tape.length := by
        simp only [List.length_append, List.length_singleton] at hlt
        omega
      subst hn
      have hslot : slot = .settled s o := by simpa using hslot.symm
      subst hslot
      refine .inl ⟨hself, ?_⟩
      show Stores.pending _ s ses.id tape.length = _
      rw [hpending, if_pos ⟨rfl, rfl⟩]
  · intro t n o' ho
    have ho : Stores.pending _ t ses.id n = some o' := ho
    rw [hpending] at ho
    split at ho
    next heq =>
      rw [heq.1, heq.2]
      exact hself
    · split at ho
      · cases ho
      next hdrop =>
        have hnamed := h.named t n o' ho
        -- the ordinal of the call itself was free until now
        have hfree : ses.journal[tape.length]? = some none :=
          h.accounts tape.length (.raised s') (by simp)
        have hne : n ≠ tape.length := by
          rintro rfl
          rw [hfree] at hnamed
          cases hnamed
        have hle : n ≤ tape.length := by
          refine Nat.le_of_not_lt ?_
          intro hgt
          exact hdrop ⟨by omega, hnamed⟩
        rw [hjournal n hne hle]
        exact hnamed

/-- What a session has pending is the outcome of a slot, or lies below a call that
raised an error. -/
theorem slot_of_pending (h : ses.Books evidence stores tape) {s : StoreId} {n : Nat}
    {o : Outcome V α} (ho : stores.pending s ses.id n = some o) :
    tape[n]? = some (.settled s o) ∨ tape[n]? = some .passed := by
  have hnamed := h.named s n o ho
  obtain ⟨hlt, -⟩ := List.getElem?_eq_some_iff.1 hnamed
  obtain ⟨slot, hslot⟩ : ∃ slot, tape[n]? = some slot :=
    ⟨_, List.getElem?_eq_getElem (by rw [← h.length_eq]; exact hlt)⟩
  have haccounts := h.accounts n slot hslot
  cases slot with
  | settled t o' =>
    left
    rcases haccounts with ⟨hjournal, hpending⟩ | ⟨hjournal, -⟩
    · rw [hjournal] at hnamed
      cases hnamed
      rw [hpending] at ho
      cases ho
      exact hslot
    · rw [hjournal] at hnamed
      cases hnamed
  | raised t =>
    have hjournal : ses.journal[n]? = some none := haccounts
    rw [hjournal] at hnamed
    cases hnamed
  | passed => exact .inr hslot

/-- A match commits exactly what is pending. -/
theorem committed_finish (h : ses.Books evidence stores tape) (s : StoreId) (key : TraceKey)
    (n : Nat) :
    (ses.finish true stores).committed s key n =
      if key = ses.key then (stores.pending s ses.id n).or (stores.committed s key n)
      else stores.committed s key n := by
  rw [committed_finish_true]
  by_cases hmem : some s ∈ ses.journal
  · simp [hmem]
  · have hnone : stores.pending s ses.id n = none := by
      rw [Option.eq_none_iff_forall_ne_some]
      intro o ho
      exact hmem (List.mem_of_getElem? (h.named s n o ho))
    simp [hmem, hnone]

end Books

end Session

end SlotGrammar
