import Idgs.Common.SortedWindow
import Idgs.Protobuf.Orderless
import Idgs.Protobuf.Serdes
import Idgs.Rdd.PartitionResults

/-!
# The first rows of an RDD

Every partition keeps the first rows in the order of the request, as many as the whole result may
need, and sends them; the aggregation inserts what all partitions have sent into a map of the same
size and skips the rows before the start. The number of rows is added up in 64 bits. The message
that the results of the partitions are read into is one for all of them, and the JSON reader adds to
it.
-/

namespace Idgs.Rdd.TopNAction

open List

open Common (IsStrictWeak SortedBy insertBehind insertWithin sorted sorted_perm)
open Protobuf (Descriptor Message OrderlessSorts SerdesMode orderless)

variable {d : Descriptor} {ρ : Type*}

/-! ## The code -/

/-- `TopNActionRequest` and the filter, with the key that is made for a row. -/
structure TopNActionRequest (d : Descriptor) (ρ : Type*) where
  topN : Option UInt64
  start : Option UInt64
  tmpKey : ρ → Message d
  fieldDesc : List Bool
  evaluateFilterExpr : ρ → Bool

namespace TopNActionRequest

variable (request : TopNActionRequest d ρ)

/-- The order of the map: the entries are rows, compared by their keys. -/
def less (row row' : ρ) : Bool :=
  (orderless request.fieldDesc (some (request.tmpKey row)) (some (request.tmpKey row'))).getD false

def firstIndex : UInt64 := request.start.getD 1

/-- `dataSize`, if there is a top. -/
def dataSize : Option UInt64 := request.topN.map fun topN => topN + request.firstIndex - 1

/-- The same request for other rows. -/
def withWindow (start : Option UInt64) (topN : UInt64) : TopNActionRequest d ρ :=
  { request with start := start, topN := some topN }

/-- The row is inserted into `tmpMap`, and the last entry is erased if there are too many. -/
def insert (tmpMap : List ρ) (row : ρ) : List ρ :=
  match request.dataSize with
  | none => insertBehind request.less tmpMap row
  | some dataSize => insertWithin request.less dataSize.toNat tmpMap row

end TopNActionRequest

variable (request : TopNActionRequest d ρ)

/-- `TopNAction::action`: a partition adds one result with its rows, or none. -/
def action (rows : List ρ) : List (List ρ) :=
  let tmpMap := rows.foldl (fun tmpMap row =>
    if request.evaluateFilterExpr row then request.insert tmpMap row else tmpMap) []
  if tmpMap.isEmpty then [] else [tmpMap]

/-- `ProtoSerdesHelper::deserialize` into the message `data`: the JSON reader does not clear it. -/
def deserialize (serdesMode : SerdesMode) (rows data : List ρ) : List ρ :=
  if serdesMode = .pbJson then data ++ rows else rows

/-- The loop over the results of the partitions: the message `data`, and the map. -/
def readResult (serdesMode : SerdesMode) (s : List ρ × List ρ) (result : List (List ρ)) :
    List ρ × List ρ :=
  match result with
  | [] => s
  | rows :: _ =>
    let data := deserialize serdesMode rows s.1
    (data, data.foldl request.insert s.2)

/-- The rows from the start on. -/
def fromStart (start index : ℕ) : List ρ → List ρ
  | [] => []
  | row :: rows => if start ≤ index then row :: fromStart start (index + 1) rows
      else fromStart start (index + 1) rows

/-- `TopNAction::aggregate`. -/
def aggregate (serdesMode : SerdesMode) (input : List (List (List ρ))) : List ρ :=
  fromStart request.firstIndex.toNat 1 (input.foldl (readResult request serdesMode) ([], [])).2

/-- The result of the action. -/
def topN (serdesMode : SerdesMode) (isReplicatedRdd : Bool) (partitions : List (List ρ)) : List ρ :=
  aggregate request serdesMode (partitionResults isReplicatedRdd (action request) partitions)

/-! ## What is promised -/

/-- `orderless` has a result for the keys of any two rows that there are, and is a strict weak order
of them. -/
def TopNActionRequest.Sorts : Prop :=
  ∃ less : ρ → ρ → Bool,
    (∀ row row',
    orderless request.fieldDesc (some (request.tmpKey row)) (some (request.tmpKey row')) =
      some (less row row')) ∧ IsStrictWeak (less · · = true)

/-- The rows of the RDD that pass the filter, by the partitions that act. -/
def passing (isReplicatedRdd : Bool) (partitions : List (List ρ)) : List (List ρ) :=
  (acting isReplicatedRdd partitions).map (List.filter request.evaluateFilterExpr)

/-- The result is the rows number `start` to `start + n - 1` of all rows, in an order that is asked
for. -/
def Window (start n : ℕ) (rows result : List ρ) : Prop :=
  ∃ all, all.Perm rows ∧ SortedBy request.less all ∧ result = (all.drop (start - 1)).take n

/-! ## What is computed -/

variable {request}

theorem fromStart_eq_drop (start index : ℕ) (rows : List ρ) :
    fromStart start index rows = rows.drop (start - index) := by
  induction rows generalizing index with
  | nil => rw [drop_nil]; rfl
  | cons row rows ih =>
    rw [fromStart, ih]
    by_cases hindex : start ≤ index
    · rw [if_pos hindex, Nat.sub_eq_zero_of_le hindex, Nat.sub_eq_zero_of_le (by omega)]
      rfl
    · have hsucc : start - index = start - (index + 1) + 1 := by omega
      rw [if_neg hindex, hsucc, drop_succ_cons]

/-- The loop with a top keeps the first rows. -/
theorem foldl_insert {dataSize : UInt64} (htop : request.dataSize = some dataSize)
    (rows tmpMap : List ρ) :
    rows.foldl request.insert (tmpMap.take dataSize.toNat) =
      (rows.foldl (insertBehind request.less) tmpMap).take dataSize.toNat := by
  have hinsert : request.insert = insertWithin request.less dataSize.toNat := by
    funext tmpMap row
    rw [TopNActionRequest.insert, htop]
  rw [hinsert]
  exact Common.foldl_insertWithin _ _ _

/-- The rows that a partition keeps. -/
theorem flatten_action {dataSize : UInt64} (htop : request.dataSize = some dataSize)
    (rows : List ρ) :
    (action request rows).flatten =
      (sorted request.less (rows.filter request.evaluateFilterExpr)).take dataSize.toNat := by
  have hmap := foldl_insert htop (rows.filter request.evaluateFilterExpr) []
  rw [take_nil] at hmap
  unfold action
  rw [← foldl_filter, hmap]
  simp only
  split
  · rename_i hempty
    exact (List.isEmpty_iff.mp hempty).symm
  · exact flatten_singleton

theorem mem_action {rows result : List ρ} (hresult : result ∈ action request rows) :
    result ≠ [] ∧ action request rows = [result] := by
  unfold action at hresult ⊢
  simp only at hresult ⊢
  split at hresult
  · cases hresult
  · rename_i hempty
    obtain rfl := mem_singleton.mp hresult
    exact ⟨fun hnil => hempty (List.isEmpty_iff.mpr hnil), if_neg hempty⟩

theorem length_action_le (rows : List ρ) : (action request rows).length ≤ 1 := by
  cases hresult : action request rows with
  | nil => exact Nat.zero_le 1
  | cons result rest =>
    rw [← hresult, (mem_action (hresult ▸ mem_cons_self : result ∈ action request rows)).2]
    exact Nat.le_refl 1

/-- A partition sends a result if it has a row that passes. -/
theorem length_action {dataSize : UInt64} (htop : request.dataSize = some dataSize)
    (hpos : 0 < dataSize.toNat) (rows : List ρ) :
    (action request rows).length = if !(rows.filter request.evaluateFilterExpr).isEmpty then 1
    else 0 := by
  have hflatten := flatten_action htop rows
  have hperm := sorted_perm request.less (rows.filter request.evaluateFilterExpr)
  cases hresult : action request rows with
  | nil =>
    rw [hresult, flatten_nil] at hflatten
    have hsorted : sorted request.less (rows.filter request.evaluateFilterExpr) = [] := by
      rcases take_eq_nil_iff.mp hflatten.symm with hzero | hnil
      · omega
      · exact hnil
    rw [hsorted] at hperm
    rw [nil_perm.mp hperm]
    rfl
  | cons result rest =>
    obtain ⟨hnonempty, hone⟩ :=
      mem_action (hresult ▸ mem_cons_self : result ∈ action request rows)
    rw [hone] at hresult hflatten
    rw [← hresult]
    rw [flatten_singleton] at hflatten
    have hrows : rows.filter request.evaluateFilterExpr ≠ [] := by
      intro hnil
      rw [hnil] at hflatten
      exact hnonempty (hflatten.trans take_nil)
    rw [isEmpty_eq_false_iff.mpr hrows]
    rfl

variable (request) in
/-- What the partitions send. -/
def results (isReplicatedRdd : Bool) (partitions : List (List ρ)) : List (List ρ) :=
  (acting isReplicatedRdd partitions).flatMap (action request)

variable (request) in
/-- The partitions that have a row that passes. -/
def answering (isReplicatedRdd : Bool) (partitions : List (List ρ)) : ℕ :=
  (passing request isReplicatedRdd partitions).countP fun rows => !rows.isEmpty

theorem length_results {dataSize : UInt64} (htop : request.dataSize = some dataSize)
    (hpos : 0 < dataSize.toNat) (isReplicatedRdd : Bool) (partitions : List (List ρ)) :
    (results request isReplicatedRdd partitions).length =
      answering request isReplicatedRdd partitions := by
  unfold results answering passing
  induction acting isReplicatedRdd partitions with
  | nil => rfl
  | cons rows partitions ih =>
    rw [flatMap_cons, length_append, ih, length_action htop hpos, map_cons,
      countP_cons, Nat.add_comm]

theorem flatten_results {dataSize : UInt64} (htop : request.dataSize = some dataSize)
    (isReplicatedRdd : Bool) (partitions : List (List ρ)) :
    (results request isReplicatedRdd partitions).flatten =
      (passing request isReplicatedRdd partitions).flatMap fun rows =>
        (sorted request.less rows).take dataSize.toNat := by
  unfold results passing
  induction acting isReplicatedRdd partitions with
  | nil => rfl
  | cons rows partitions ih =>
    rw [flatMap_cons, flatten_append, ih, flatten_action htop, map_cons, flatMap_cons]

/-- The rows that are inserted into the map of the aggregation. -/
def inserted (serdesMode : SerdesMode) : List ρ → List (List ρ) → List ρ
  | _, [] => []
  | data, rows :: results =>
    deserialize serdesMode rows data ++
      inserted serdesMode (deserialize serdesMode rows data) results

theorem foldl_readResult (serdesMode : SerdesMode) {input : List (List (List ρ))}
    (hone : ∀ result ∈ input, result.length ≤ 1) (data tmpMap : List ρ) :
    (input.foldl (readResult request serdesMode) (data, tmpMap)).2 =
      (inserted serdesMode data input.flatten).foldl request.insert tmpMap := by
  induction input generalizing data tmpMap with
  | nil => rfl
  | cons result input ih =>
    rw [foldl_cons, flatten_cons]
    have hlength := hone result mem_cons_self
    replace ih := ih fun result hresult => hone result (mem_cons_of_mem _ hresult)
    cases result with
    | nil => exact ih data tmpMap
    | cons rows rest =>
      obtain rfl :=
        eq_nil_of_length_eq_zero (Nat.le_zero.mp (Nat.le_of_succ_le_succ hlength))
      rw [singleton_append, inserted, foldl_append]
      exact ih _ _

/-- Other readers begin with an empty message, and the first message that is read is empty in any
case. -/
theorem inserted_eq_flatten {serdesMode : SerdesMode} {results : List (List ρ)}
    (h : serdesMode ≠ .pbJson ∨ results.length ≤ 1) :
    inserted serdesMode [] results = results.flatten := by
  rcases h with hmode | hlength
  · have hall : ∀ data, inserted serdesMode data results = results.flatten := by
      induction results with
      | nil => intro data; rfl
      | cons rows results ih =>
        intro data
        rw [inserted, ih, deserialize, if_neg hmode, flatten_cons]
    exact hall []
  · match results, hlength with
    | [], _ => rfl
    | [rows], _ =>
      rw [inserted, inserted, append_nil, flatten_singleton, deserialize, nil_append, ite_self]

/-- In JSON the rows of a result are inserted again with every later one. -/
theorem length_inserted_json (data : List ρ) {results : List (List ρ)} (hresults : results ≠ []) :
    data.length + results.flatten.length ≤ (inserted .pbJson data results).length := by
  induction results generalizing data with
  | nil => exact absurd rfl hresults
  | cons rows results ih =>
    rw [inserted, deserialize, if_pos rfl, flatten_cons, length_append,
      length_append, length_append]
    by_cases hnil : results = []
    · rw [hnil, flatten_nil, length_nil]
      omega
    · have hrest := ih (data ++ rows) hnil
      rw [length_append] at hrest
      omega

/-- The result of the action, with the rows that are inserted in the end. -/
theorem topN_eq {dataSize : UInt64} (htop : request.dataSize = some dataSize)
    (serdesMode : SerdesMode) (isReplicatedRdd : Bool) (partitions : List (List ρ)) :
    topN request serdesMode isReplicatedRdd partitions =
      ((sorted request.less
        (inserted serdesMode [] (results request isReplicatedRdd partitions))).take
        dataSize.toNat).drop (request.firstIndex.toNat - 1) := by
  have hone : ∀ result ∈ partitionResults isReplicatedRdd (action request) partitions,
      result.length ≤ 1 := by
    intro result hresult
    obtain ⟨k, hk⟩ := partitionResults_eq isReplicatedRdd (action request) partitions
    rw [hk] at hresult
    rcases mem_append.mp hresult with hresult | hresult
    · obtain ⟨rows, -, rfl⟩ := mem_map.mp hresult
      exact length_action_le rows
    · rw [eq_of_mem_replicate hresult]
      exact Nat.zero_le 1
  unfold topN aggregate
  rw [foldl_readResult serdesMode hone, flatten_partitionResults, fromStart_eq_drop]
  have hmap :=
    foldl_insert htop (inserted serdesMode [] (results request isReplicatedRdd partitions)) []
  rw [take_nil] at hmap
  rw [show (acting isReplicatedRdd partitions).flatMap (action request) =
    results request isReplicatedRdd partitions from rfl, hmap]
  rfl

/-! ## Which windows are right -/

theorem toNat_dataSize (topN firstIndex : UInt64) (hstart : 1 ≤ firstIndex.toNat)
    (htop : 1 ≤ topN.toNat) :
    (topN + firstIndex - 1).toNat =
      if topN.toNat + firstIndex.toNat - 1 < 2 ^ 64 then topN.toNat + firstIndex.toNat - 1
      else topN.toNat + firstIndex.toNat - 1 - 2 ^ 64 := by
  have hone : (1 : UInt64).toNat = 1 := rfl
  have hlt := topN.toNat_lt
  have hlt' := firstIndex.toNat_lt
  rw [UInt64.toNat_sub, UInt64.toNat_add, hone]
  split <;> omega

/-- The map is in order, if all rows that there are can be compared. -/
theorem TopNActionRequest.Sorts.isStrictWeak (h : request.Sorts) :
    IsStrictWeak (request.less · · = true) := by
  obtain ⟨less, hless, hweak⟩ := h
  have heq : ∀ row row', request.less row row' = less row row' :=
    fun row row' => congrArg (Option.getD · false) (hless row row')
  simpa only [heq] using hweak

variable (request) in
/-- All rows can be compared, if all messages of the type of the keys can. -/
theorem sorts_of_orderlessSorts (h : OrderlessSorts request.fieldDesc false d) : request.Sorts := by
  obtain ⟨less, hless, hweak⟩ := h
  let key : ρ → Protobuf.Argument false d :=
    fun row => ⟨some (request.tmpKey row), fun hnone => absurd hnone (Option.some_ne_none _)⟩
  exact ⟨fun row row' => less (key row) (key row'), fun row row' => hless (key row) (key row'),
    hweak.comap key⟩

variable (request) in
/-- The rows that the action is about. -/
def dataset (isReplicatedRdd : Bool) (partitions : List (List ρ)) : List ρ :=
  (passing request isReplicatedRdd partitions).flatten

variable (request) in
theorem dataSize_withWindow (start : Option UInt64) (n : UInt64) :
    (request.withWindow start n).dataSize = some (n + start.getD 1 - 1) := rfl

variable (request) in
/-- The action returns the window that is asked for. -/
def Right (serdesMode : SerdesMode) (isReplicatedRdd : Bool) (partitions : List (List ρ))
    (start : Option UInt64)
    (n : UInt64) : Prop :=
  Window request (start.getD 1).toNat n.toNat (dataset request isReplicatedRdd partitions)
    (topN (request.withWindow start n) serdesMode isReplicatedRdd partitions)

/-- Where the number of rows does not fit into 64 bits, too few are kept for the window to begin. -/
theorem right_of_overflow (h : request.Sorts) (serdesMode : SerdesMode)
    (isReplicatedRdd : Bool) (partitions : List (List ρ)) {start : Option UInt64} {n : UInt64}
    (hstart : 1 ≤ (start.getD 1).toNat) (hn : 1 ≤ n.toNat)
    (hover : 2 ^ 64 ≤ n.toNat + (start.getD 1).toNat - 1) :
    Right request serdesMode isReplicatedRdd partitions start n ↔
      (dataset request isReplicatedRdd partitions).length < (start.getD 1).toNat := by
  have hsize := toNat_dataSize n (start.getD 1) hstart hn
  rw [if_neg (Nat.not_lt.mpr hover)] at hsize
  have hresult : topN (request.withWindow start n) serdesMode isReplicatedRdd partitions = [] := by
    rw [topN_eq (dataSize_withWindow request start n)]
    refine drop_eq_nil_of_le ((length_take_le _ _).trans ?_)
    show (n + start.getD 1 - 1).toNat ≤ (start.getD 1).toNat - 1
    have hlt := n.toNat_lt
    omega
  unfold Right Window
  rw [hresult]
  constructor
  · rintro ⟨all, hperm, -, hnil⟩
    rw [← hperm.length_eq]
    rcases take_eq_nil_iff.mp hnil.symm with hzero | hdrop
    · omega
    · have hle := drop_eq_nil_iff.mp hdrop
      omega
  · intro hlength
    refine ⟨_, sorted_perm _ _, Common.sortedBy_sorted h.isStrictWeak _, ?_⟩
    rw [drop_eq_nil_of_le, take_nil]
    rw [(sorted_perm _ _).length_eq]
    omega

/-- The first rows of the partitions are enough, if none is inserted twice. -/
theorem right_of_inserted (h : request.Sorts) {serdesMode : SerdesMode}
    {isReplicatedRdd : Bool} {partitions : List (List ρ)} {start : Option UInt64} {n : UInt64}
    (hstart : 1 ≤ (start.getD 1).toNat) (hn : 1 ≤ n.toNat)
    (hfits : n.toNat + (start.getD 1).toNat - 1 < 2 ^ 64)
    (honce : serdesMode ≠ .pbJson ∨ answering request isReplicatedRdd partitions ≤ 1) :
    Right request serdesMode isReplicatedRdd partitions start n := by
  have hsize := toNat_dataSize n (start.getD 1) hstart hn
  rw [if_pos hfits] at hsize
  have hlength := length_results (dataSize_withWindow request start n)
    (show 0 < (n + start.getD 1 - 1).toNat by omega) isReplicatedRdd partitions
  have hinserted := inserted_eq_flatten (honce.imp_right fun hle => hlength.trans_le hle)
  rw [flatten_results (dataSize_withWindow request start n)] at hinserted
  obtain ⟨all, hperm, hsorted, htake⟩ := Common.exists_sorted_parts h.isStrictWeak
    (n + start.getD 1 - 1).toNat (passing request isReplicatedRdd partitions)
  refine ⟨all, hperm, hsorted, ?_⟩
  rw [topN_eq (dataSize_withWindow request start n), hinserted]
  have hwindow := congrArg (List.drop ((start.getD 1).toNat - 1)) htake
  refine Eq.trans (Eq.symm hwindow) ?_
  rw [drop_take, hsize]
  congr 1
  omega

/-- What two partitions send in JSON is too much, if all is asked for. -/
theorem not_right_json (request : TopNActionRequest d ρ) {isReplicatedRdd : Bool}
    {partitions : List (List ρ)} (hmore : 1 < answering request isReplicatedRdd partitions)
    (hrows : (dataset request isReplicatedRdd partitions).length + 1 < 2 ^ 64) :
    ¬ Right request .pbJson isReplicatedRdd partitions none
      (UInt64.ofNat ((dataset request isReplicatedRdd partitions).length + 1)) := by
  set size := (dataset request isReplicatedRdd partitions).length with hdataset
  set n := UInt64.ofNat (size + 1)
  have hn : n.toNat = size + 1 := UInt64.toNat_ofNat_of_lt' hrows
  have hsize := toNat_dataSize n 1 (Nat.le_refl 1) (by omega)
  have hone : (1 : UInt64).toNat = 1 := rfl
  rw [hone, if_pos (by omega), Nat.add_sub_cancel, hn] at hsize
  have htop : (request.withWindow none n).dataSize = some (n + 1 - 1) :=
    dataSize_withWindow request none n
  have hlength := length_results htop (hsize ▸ Nat.succ_pos size) isReplicatedRdd partitions
  have hflatten : (results (request.withWindow none n) isReplicatedRdd partitions).flatten.length =
      size := by
    have hall : ∀ rows ∈ passing request isReplicatedRdd partitions,
        ((sorted request.less rows).take (size + 1)).length = rows.length := by
      intro rows hmem
      have hle := (sublist_flatten_of_mem hmem).length_le
      rw [length_take, (sorted_perm _ rows).length_eq]
      have hwhole : (passing request isReplicatedRdd partitions).flatten.length = size := rfl
      omega
    rw [flatten_results htop, length_flatMap, hdataset]
    unfold dataset
    rw [length_flatten]
    refine congrArg List.sum (map_congr_left fun rows hmem => ?_)
    rw [← hall rows hmem, ← hsize]
    rfl
  -- the first result is inserted twice at least
  have hinserted : size + 1 ≤
      (inserted .pbJson [] (results (request.withWindow none n) isReplicatedRdd
      partitions)).length := by
    rcases hresults : results (request.withWindow none n) isReplicatedRdd partitions with _ | ⟨rows,
      rest⟩
    · rw [hresults] at hlength
      have hzero : 0 = answering request isReplicatedRdd partitions := hlength
      omega
    · have hrest : rest ≠ [] := by
        rintro rfl
        rw [hresults] at hlength
        have hzero : 1 = answering request isReplicatedRdd partitions := hlength
        omega
      have hrows : rows ≠ [] := by
        have hmem : rows ∈ results (request.withWindow none n) isReplicatedRdd partitions :=
          hresults ▸ mem_cons_self
        obtain ⟨_, -, hresult⟩ := mem_flatMap.mp hmem
        exact (mem_action hresult).1
      have hpos := length_pos_of_ne_nil hrows
      have hmore := length_inserted_json rows hrest
      rw [hresults, flatten_cons, length_append] at hflatten
      rw [inserted, deserialize, if_pos rfl, nil_append, length_append]
      omega
  rintro ⟨all, hperm, -, hresult⟩
  rw [topN_eq htop, hsize] at hresult
  have hcount := congrArg List.length hresult
  rw [length_drop, length_take, (sorted_perm _ _).length_eq, length_take,
    length_drop, hperm.length_eq] at hcount
  have hfirst : (request.withWindow none n).firstIndex.toNat = 1 := rfl
  omega

/-- Strings in descending order. -/
def descending : TopNActionRequest (.scalar .string .nil) (List (Fin 256)) where
  topN := none
  start := none
  tmpKey row := (row, ())
  fieldDesc := [true]
  evaluateFilterExpr _ := true

theorem sorts_descending : descending.Sorts :=
  sorts_of_orderlessSorts descending
    (Protobuf.orderlessSorts_of_ordered (d := .scalar .string .nil) ⟨trivial, trivial⟩ ⟨trivial,
      trivial⟩ [true])

end Idgs.Rdd.TopNAction
