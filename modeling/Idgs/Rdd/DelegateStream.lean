import Mathlib.Data.Multiset.OrderedMonoid
import Mathlib.Tactic.Abel
import Idgs.Common.Run
import Idgs.Store.StoreMap

/-!
# Streaming a store into an RDD

A partition of a store delegate RDD refers to the map of the partition of the store. Its first
transform reads the map once for each downstream RDD; from then on the rows that the store listener
tells it of are handed on. An insert puts its row into the map first, and the listener hears of it
later, from another thread.
-/

namespace Idgs.Rdd

open Idgs.Store Function List

/-- The messages of the partition actor. -/
inductive StreamMsg (κ ν : Type*)
  | rddTransform
  | rddStoreListener (row : κ × ν)
deriving DecidableEq

/-- The row of a RDD_STORE_LISTENER message. -/
def StreamMsg.row? {κ ν : Type*} : StreamMsg κ ν → Option (κ × ν)
  | rddTransform => none
  | rddStoreListener row => some row

/-- A partition of the store and the partition of the delegate RDD over it. `present` are the rows
that the store held when the RDD was created, `inserted` those inserted later; `passed` has the rows
handed on to each downstream RDD. -/
structure DelegateStream (κ ν : Type*) where
  map : StoreMap κ ν := ∅
  /-- The inserts that the listeners have not been told of. -/
  notifications : List (κ × ν) := []
  created : Bool := false
  /-- The listener is in the list of the store. -/
  registered : Bool := false
  mailbox : List (StreamMsg κ ν) := []
  active : Bool := false
  /-- The downstream RDD that the transform comes to next. -/
  transforming : Option ℕ := none
  transformComplete : Bool := false
  passed : ℕ → List (κ × ν) := fun _ => []
  present : List (κ × ν) := []
  inserted : List (κ × ν) := []

/-- Steps: a client inserts a row, a thread tells the listeners of an insert, the delegate RDD is
created and its listener registered, its actor asks for a transform, the partition actor handles a
message, and its transform goes on to the next downstream RDD. -/
inductive StreamStep (κ ν : Type*)
  | insert (key : κ) (value : ν)
  | notify (i : ℕ)
  | initPartitionStore
  | addStoreListener
  | rddTransform
  | handle
  | transformNext

namespace DelegateStream

variable {κ ν : Type*} [DecidableEq κ]

/-- The rows of a map. -/
def rows (m : StoreMap κ ν) : List (κ × ν) := m.entries.map fun e => (e.1, e.2)

/-- The rows that wait for the partition actor. -/
def mailboxRows (s : DelegateStream κ ν) : List (κ × ν) := s.mailbox.filterMap StreamMsg.row?

/-- `StoreServiceActor::realInsert`: the row is put, then the listeners are sent a message. -/
def realInsert (s : DelegateStream κ ν) (key : κ) (value : ν) : DelegateStream κ ν :=
  { s with
    map := (StoreMap.set s.map key value).2
    notifications := s.notifications ++ [(key, value)]
    inserted := if s.created then s.inserted ++ [(key, value)] else s.inserted }

/-- `RddStoreListener::insert`, if the listener is registered. -/
def listenerInsert (s : DelegateStream κ ν) (row : κ × ν) : DelegateStream κ ν :=
  if s.registered then { s with mailbox := s.mailbox ++ [.rddStoreListener row] } else s

/-- `PairStoreDelegateRddPartition::handleRddStoreListener`, with `n` downstream RDDs. -/
def handleRddStoreListener (n : ℕ) (s : DelegateStream κ ν) (row : κ × ν) : DelegateStream κ ν :=
  if s.active then { s with passed := fun j => if j < n then s.passed j ++ [row] else s.passed j }
  else s

/-- One step; `n` is the number of downstream RDDs. -/
def step (n : ℕ) (s : DelegateStream κ ν) : StreamStep κ ν → Option (DelegateStream κ ν)
  | .insert key value => some (s.realInsert key value)
  | .notify i =>
    (s.notifications[i]?).map fun row =>
      listenerInsert { s with notifications := s.notifications.eraseIdx i } row
  | .initPartitionStore => if s.created then none
      else some { s with created := true, present := rows s.map }
  | .addStoreListener => if s.created && !s.registered then some { s with registered := true }
      else none
  | .rddTransform => if s.registered then some { s with mailbox := s.mailbox ++ [.rddTransform] }
      else none
  | .handle =>
    if s.transforming.isSome then none
    else
      match s.mailbox with
      | [] => none
      | .rddTransform :: rest =>
        some { s with mailbox := rest, active := true, transforming := some 0 }
      | .rddStoreListener row :: rest =>
        some (handleRddStoreListener n { s with mailbox := rest } row)
  | .transformNext =>
    s.transforming.map fun j =>
      if j < n then
        { s with
          passed := Function.update s.passed j (s.passed j ++ rows s.map)
          transforming := some (j + 1) }
      else { s with transforming := none, transformComplete := true }

/-- All downstream RDDs have been given the rows of the map. -/
def mapRead (n : ℕ) (s : DelegateStream κ ν) : Bool :=
  s.transformComplete || s.transforming == some n

/-- After the first transform every downstream RDD has been handed every row that was present or
inserted later once, apart from the rows that are still on their way. -/
def EachOnce (n : ℕ) (s : DelegateStream κ ν) : Prop :=
  s.transformComplete = true → ∀ j < n,
    (↑(s.passed j) + (↑s.mailboxRows + ↑s.notifications) : Multiset (κ × ν)) =
    ↑s.present + ↑s.inserted

/-- Steps without an insert under way while the partition reads the map, of the first transform
only; and until the map has been read no insert overwrites a row. -/
def Quiet (n : ℕ) (s : DelegateStream κ ν) : StreamStep κ ν → Prop
  | .insert key _ => s.created = true → s.mapRead n = false → key ∉ s.map.keys
  | .handle => s.mailbox.head?.any (fun m => m.row?.isNone) = true → s.active = false
  | .transformNext => s.mapRead n = false → s.notifications = [] ∧ s.mailboxRows = []
  | _ => True

instance [DecidableEq ν] (n : ℕ) (s : DelegateStream κ ν) (a : StreamStep κ ν) :
    Decidable (Quiet n s a) := by
  unfold Quiet
  split <;> infer_instance

/-! ## The invariant -/

/-- What the partition has read and heard of accounts for all rows. -/
structure Inv (n : ℕ) (s : DelegateStream κ ν) : Prop where
  registered : s.registered = true → s.created = true
  unheard : s.registered = false → s.mailbox = [] ∧ s.active = false
  notCreated : s.created = false → s.present = [] ∧ s.inserted = []
  inactive : s.active = false → s.transforming = none ∧ s.transformComplete = false ∧
    ∀ j, s.passed j = []
  started : s.active = true → s.transforming = none → s.transformComplete = true
  reading : ∀ r, s.transforming = some r → s.transformComplete = false ∧ ∀ j, r ≤ j →
    s.passed j = []
  unread : s.created = true → s.mapRead n = false →
    (↑(rows s.map) : Multiset (κ × ν)) = ↑s.present + ↑s.inserted
  read : ∀ j < n, s.transformComplete = true ∨ (∃ r, s.transforming = some r ∧ j < r) →
    (↑(s.passed j) + (↑s.mailboxRows + ↑s.notifications) : Multiset (κ × ν)) =
    ↑s.present + ↑s.inserted

omit [DecidableEq κ] in
theorem inv_init (n : ℕ) : Inv n ({} : DelegateStream κ ν) where
  registered := by rintro ⟨⟩
  unheard := fun _ => ⟨rfl, rfl⟩
  notCreated := fun _ => ⟨rfl, rfl⟩
  inactive := fun _ => ⟨rfl, rfl, fun _ => rfl⟩
  started := by rintro ⟨⟩
  reading := by rintro _ ⟨⟩
  unread := by rintro ⟨⟩
  read := by
    rintro j _ (⟨⟨⟩⟩ | ⟨r, ⟨⟩, _⟩)

omit [DecidableEq κ] in
theorem Inv.eachOnce {n : ℕ} {s : DelegateStream κ ν} (h : Inv n s) : EachOnce n s :=
  fun hcomplete j hj => h.read j hj (.inl hcomplete)

omit [DecidableEq κ] in
/-- What has been read is accounted for in the created RDD only. -/
theorem Inv.created_of_read {n : ℕ} {s : DelegateStream κ ν} (h : Inv n s)
    (hread : s.transformComplete = true ∨ ∃ r, s.transforming = some r) : s.created = true := by
  have hactive : s.active = true := by
    refine Bool.eq_true_of_not_eq_false fun hactive => ?_
    obtain ⟨hnone, hcomplete, -⟩ := h.inactive hactive
    rcases hread with hread | ⟨r, hr⟩
    · rw [hcomplete] at hread
      cases hread
    · rw [hnone] at hr
      cases hr
  refine h.registered (Bool.eq_true_of_not_eq_false fun hregistered => ?_)
  rw [(h.unheard hregistered).2] at hactive
  cases hactive

/-! ## Every step keeps it -/

/-- A client inserts a row. -/
theorem Inv.insert {n : ℕ} {s : DelegateStream κ ν} (h : Inv n s) {key : κ} {value : ν}
    (hfresh : s.created = true → s.mapRead n = false → key ∉ s.map.keys) :
    Inv n (s.realInsert key value) where
  __ := h
  notCreated := by
    intro hcreated
    refine ⟨(h.notCreated hcreated).1, ?_⟩
    have hnot : s.created = false := hcreated
    have hif : (s.realInsert key value).inserted = s.inserted := if_neg (by rw [hnot]; decide)
    rw [hif]
    exact (h.notCreated hcreated).2
  unread := by
    intro hcreated hread
    have hinserted : (s.realInsert key value).inserted = s.inserted ++ [(key, value)] :=
      if_pos hcreated
    have hkey : key ∉ s.map := hfresh hcreated hread
    have hrows : rows (s.realInsert key value).map = (key, value) :: rows s.map := by
      show (AList.insert key value s.map).entries.map _ = _
      rw [AList.entries_insert_of_notMem hkey]
      rfl
    rw [hrows, hinserted, ← Multiset.cons_coe, h.unread hcreated hread, ← Multiset.coe_add,
      Multiset.coe_singleton, ← Multiset.singleton_add]
    show {(key, value)} + (↑s.present + ↑s.inserted) =
        (↑s.present + (↑s.inserted + {(key, value)}) : Multiset _)
    abel
  read := by
    intro j hj hread
    have hcreated : s.created = true :=
      h.created_of_read (hread.imp_right fun ⟨r, hr, _⟩ => ⟨r, hr⟩)
    have hinserted : (s.realInsert key value).inserted = s.inserted ++ [(key, value)] :=
      if_pos hcreated
    have hold := h.read j hj hread
    rw [hinserted, ← Multiset.coe_add, Multiset.coe_singleton]
    show (↑(s.passed j) + (↑s.mailboxRows + ↑(s.notifications ++ [(key, value)])) : Multiset _) =
      ↑s.present + (↑s.inserted + {(key, value)})
    rw [← Multiset.coe_add, Multiset.coe_singleton, ← add_assoc (_ : Multiset (κ × ν)) ↑s.inserted,
      ← hold]
    abel

omit [DecidableEq κ] in
/-- A thread tells the listeners of an insert. -/
theorem Inv.notify {n : ℕ} {s : DelegateStream κ ν} (h : Inv n s) {i : ℕ} {row : κ × ν}
    (hrow : s.notifications[i]? = some row) :
    Inv n (listenerInsert { s with notifications := s.notifications.eraseIdx i } row) := by
  obtain ⟨hi, hget⟩ := List.getElem?_eq_some_iff.mp hrow
  have hperm : (↑s.notifications : Multiset (κ × ν)) = {row} + ↑(s.notifications.eraseIdx i) := by
    rw [Multiset.singleton_add, Multiset.cons_coe, ← hget]
    exact Multiset.coe_eq_coe.mpr (getElem_cons_eraseIdx_perm hi).symm
  unfold listenerInsert
  split
  · rename_i hregistered
    refine { h with unheard := ?_, unread := h.unread, read := fun j hj hread => ?_ }
    · intro hnot
      cases hregistered.symm.trans hnot
    · have hold := h.read j hj hread
      show (↑(s.passed j) +
          (↑((s.mailbox ++ [StreamMsg.rddStoreListener row]).filterMap StreamMsg.row?) +
        ↑(s.notifications.eraseIdx i)) : Multiset (κ × ν)) =
        (↑s.present + ↑s.inserted : Multiset (κ × ν))
      rw [← hold, hperm, filterMap_append, ← Multiset.coe_add]
      show (↑(s.passed j) +
          (↑s.mailboxRows + ↑[row] + ↑(s.notifications.eraseIdx i)) : Multiset (κ × ν)) =
        (↑(s.passed j) +
        (↑s.mailboxRows + ({row} + ↑(s.notifications.eraseIdx i))) : Multiset (κ × ν))
      rw [Multiset.coe_singleton]
      abel
  · rename_i hregistered
    refine { h with unread := h.unread, read := fun j hj hread => ?_ }
    -- before the listener is registered nothing has been read
    have hactive := (h.unheard (Bool.eq_false_of_not_eq_true hregistered)).2
    obtain ⟨hnone, hcomplete, -⟩ := h.inactive hactive
    rcases hread with hread | ⟨r, hr, -⟩
    · cases hcomplete.symm.trans hread
    · cases hnone.symm.trans hr

omit [DecidableEq κ] in
/-- The partition actor handles a row. -/
theorem Inv.handleRow {n : ℕ} {s : DelegateStream κ ν} (h : Inv n s) {row : κ × ν}
    {rest : List (StreamMsg κ ν)}
    (hmailbox : s.mailbox = .rddStoreListener row :: rest) (hidle : s.transforming = none) :
    Inv n (handleRddStoreListener n { s with mailbox := rest } row) := by
  have hrows : s.mailboxRows = row :: rest.filterMap StreamMsg.row? := by
    unfold mailboxRows
    rw [hmailbox]
    rfl
  have hunheard : s.registered = false → rest = [] ∧ s.active = false := by
    intro hnot
    rw [(h.unheard hnot).1] at hmailbox
    cases hmailbox
  unfold handleRddStoreListener
  split
  · rename_i hactive
    refine { h with
      unheard := hunheard, inactive := ?_, reading := ?_, unread := h.unread, read :=
        fun j hj hread => ?_ }
    · intro hnot
      cases hactive.symm.trans hnot
    · intro r hr
      cases hidle.symm.trans hr
    · have hold := h.read j hj hread
      show (↑(if j < n then s.passed j ++ [row] else s.passed j) +
        (↑(rest.filterMap StreamMsg.row?) + ↑s.notifications) : Multiset (κ × ν)) =
          (↑s.present + ↑s.inserted : Multiset (κ × ν))
      rw [if_pos hj, ← hold, hrows, ← Multiset.coe_add, Multiset.coe_singleton, ← Multiset.cons_coe,
        ← Multiset.singleton_add]
      abel
  · rename_i hactive
    refine { h with unheard := hunheard, unread := h.unread, read := fun j hj hread => ?_ }
    obtain ⟨hnone, hcomplete, -⟩ := h.inactive (Bool.eq_false_of_not_eq_true hactive)
    rcases hread with hread | ⟨r, hr, -⟩
    · cases hcomplete.symm.trans hread
    · cases hnone.symm.trans hr

omit [DecidableEq κ] in
/-- The first transform starts. -/
theorem Inv.handleRddTransform {n : ℕ} {s : DelegateStream κ ν} (h : Inv n s)
    {rest : List (StreamMsg κ ν)}
    (hmailbox : s.mailbox = .rddTransform :: rest) (hfirst : s.active = false) :
    Inv n { s with mailbox := rest, active := true, transforming := some 0 } := by
  obtain ⟨hnone, hcomplete, hpassed⟩ := h.inactive hfirst
  have hregistered : s.registered = true := by
    refine Bool.eq_true_of_not_eq_false fun hnot => ?_
    rw [(h.unheard hnot).1] at hmailbox
    cases hmailbox
  exact
    { registered := h.registered
      unheard := fun hnot => by cases hregistered.symm.trans hnot
      notCreated := h.notCreated
      inactive := by rintro ⟨⟩
      started := by rintro _ ⟨⟩
      reading := fun r _ => ⟨hcomplete, fun j _ => hpassed j⟩
      unread := fun hcreated _ => by
        refine h.unread hcreated ?_
        unfold mapRead
        rw [hcomplete, hnone]
        rfl
      read := by
        rintro j _ (hread | ⟨r, hr, hj⟩)
        · cases hcomplete.symm.trans hread
        · cases hr
          omega }

omit [DecidableEq κ] in
/-- The transform goes on to the next downstream RDD. -/
theorem Inv.transformNext {n : ℕ} {s : DelegateStream κ ν} (h : Inv n s) {r : ℕ}
    (hr : s.transforming = some r)
    (hlt : r < n) (hquiet : s.mapRead n = false → s.notifications = [] ∧ s.mailboxRows = []) :
    Inv n { s with
      passed := update s.passed r (s.passed r ++ rows s.map), transforming :=
      some (r + 1) } := by
  obtain ⟨hcomplete, hpassed⟩ := h.reading r hr
  have hcreated := h.created_of_read (.inr ⟨r, hr⟩)
  have hunread : s.mapRead n = false := by
    unfold mapRead
    rw [hcomplete, hr]
    simpa using Nat.ne_of_lt hlt
  obtain ⟨hnotifications, hmailbox⟩ := hquiet hunread
  have hactive : s.active = true := by
    refine Bool.eq_true_of_not_eq_false fun hactive => ?_
    rw [(h.inactive hactive).1] at hr
    cases hr
  exact
    { registered := h.registered
      unheard := fun hnot => by
        have hboth := h.unheard hnot
        exact hboth
      notCreated := h.notCreated
      inactive := fun hnot => by cases hactive.symm.trans hnot
      started := by rintro _ ⟨⟩
      reading := by
        rintro r' hr'
        cases hr'
        refine ⟨hcomplete, fun j hj => ?_⟩
        show update s.passed r _ j = []
        rw [update_of_ne (by omega)]
        exact hpassed j (by omega)
      unread := fun hcreated' _ => h.unread hcreated' hunread
      read := by
        rintro j hj (hread | ⟨r', hr', hlt'⟩)
        · cases hcomplete.symm.trans hread
        · cases hr'
          show (↑(update s.passed r (s.passed r ++ rows s.map) j) +
              (↑s.mailboxRows + ↑s.notifications) :
            Multiset (κ × ν)) = (↑s.present + ↑s.inserted : Multiset (κ × ν))
          by_cases hjr : j = r
          · rw [hjr, update_self, hpassed r le_rfl, nil_append,
              h.unread hcreated hunread, hmailbox, hnotifications]
            exact add_zero _
          · rw [update_of_ne hjr]
            exact h.read j hj (.inr ⟨r, hr, by omega⟩) }

omit [DecidableEq κ] in
/-- The transform is done. -/
theorem Inv.transformDone {n : ℕ} {s : DelegateStream κ ν} (h : Inv n s) {r : ℕ}
    (hr : s.transforming = some r)
    (hle : ¬ r < n) : Inv n { s with transforming := none, transformComplete := true } := by
  have hactive : s.active = true := by
    refine Bool.eq_true_of_not_eq_false fun hactive => ?_
    rw [(h.inactive hactive).1] at hr
    cases hr
  exact
    { registered := h.registered
      unheard := h.unheard
      notCreated := h.notCreated
      inactive := fun hnot => by cases hactive.symm.trans hnot
      started := fun _ _ => rfl
      reading := by rintro _ ⟨⟩
      unread := fun _ hread => by
        unfold mapRead at hread
        cases hread
      read := fun j hj _ => h.read j hj (.inr ⟨r, hr, by omega⟩) }

theorem Inv.step {n : ℕ} {s s' : DelegateStream κ ν} {a : StreamStep κ ν} (h : Inv n s)
    (hquiet : Quiet n s a) (hstep : step n s a = some s') : Inv n s' := by
  cases a with
  | insert key value =>
    obtain rfl := Option.some.inj hstep
    exact h.insert hquiet
  | notify i =>
    obtain ⟨row, hrow, rfl⟩ := Option.map_eq_some_iff.mp hstep
    exact h.notify hrow
  | initPartitionStore =>
    simp only [DelegateStream.step] at hstep
    split at hstep
    · cases hstep
    · rename_i hcreated
      cases hstep
      have hnot := Bool.eq_false_of_not_eq_true hcreated
      obtain ⟨-, hinserted⟩ := h.notCreated hnot
      refine { h with
        registered := fun _ => rfl, notCreated := by (rintro ⟨⟩)
        unread := fun _ _ => ?_, read := fun j hj hread => ?_ }
      · show (↑(rows s.map) : Multiset (κ × ν)) = ↑(rows s.map) + ↑s.inserted
        rw [hinserted]
        exact (add_zero _).symm
      · have hold := h.created_of_read (hread.imp_right fun ⟨r, hr, _⟩ => ⟨r, hr⟩)
        exact absurd hold hcreated
  | addStoreListener =>
    simp only [DelegateStream.step] at hstep
    split at hstep
    · rename_i hcan
      cases hstep
      obtain ⟨hcreated, -⟩ := Bool.and_eq_true_iff.mp hcan
      exact { h with
        registered := fun _ => hcreated, unheard := by (rintro ⟨⟩), unread := h.unread, read :=
        h.read }
    · cases hstep
  | rddTransform =>
    simp only [DelegateStream.step] at hstep
    split at hstep
    · rename_i hregistered
      cases hstep
      refine { h with
        unheard := fun hnot => ?_, unread := h.unread, read := fun j hj hread => ?_ }
      · cases hregistered.symm.trans hnot
      · have hrows : (s.mailbox ++ [StreamMsg.rddTransform]).filterMap StreamMsg.row? =
          s.mailboxRows := by
          rw [filterMap_append]
          exact append_nil _
        show (↑(s.passed j) +
            (↑((s.mailbox ++ [StreamMsg.rddTransform]).filterMap StreamMsg.row?) +
          ↑s.notifications) : Multiset (κ × ν)) = (↑s.present + ↑s.inserted : Multiset (κ × ν))
        rw [hrows]
        exact h.read j hj hread
    · cases hstep
  | handle =>
    simp only [DelegateStream.step] at hstep
    split at hstep
    · cases hstep
    · rename_i hidle
      have hnone : s.transforming = none := by simpa using hidle
      cases hmailbox : s.mailbox with
      | nil =>
        rw [hmailbox] at hstep
        cases hstep
      | cons m rest =>
        cases m with
        | rddTransform =>
          rw [hmailbox] at hstep
          cases hstep
          refine h.handleRddTransform hmailbox (hquiet ?_)
          rw [hmailbox]
          rfl
        | rddStoreListener row =>
          rw [hmailbox] at hstep
          cases hstep
          exact h.handleRow hmailbox hnone
  | transformNext =>
    obtain ⟨r, hr, rfl⟩ := Option.map_eq_some_iff.mp hstep
    by_cases hlt : r < n
    · rw [if_pos hlt]
      exact h.transformNext hr hlt hquiet
    · rw [if_neg hlt]
      exact h.transformDone hr hlt

/-- An insert puts its row before the map is read and tells the listener of it after the first
transform. -/
def insertDuringTransform : List (StreamStep ℕ ℕ) :=
  [.initPartitionStore, .addStoreListener, .insert 1 10, .rddTransform, .handle, .transformNext,
    .transformNext,
    .notify 0, .handle]

/-- The listener hears of one row before the first transform and of another after it; both read what
the partition holds when the RDD is created. -/
def insertAroundTransform : List (StreamStep ℕ ℕ) :=
  [.insert 1 10, .initPartitionStore, .addStoreListener, .insert 2 20, .notify 1, .notify 0,
    .rddTransform, .handle,
    .handle, .handle, .transformNext, .transformNext, .insert 3 30, .notify 0, .handle]

end DelegateStream

end Idgs.Rdd
