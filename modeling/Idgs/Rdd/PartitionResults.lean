import Mathlib.Data.List.Basic

/-!
# The answers of the partitions to an action

An action is sent to all partitions of an RDD, and each answers with a list of values. A replicated
RDD has all its rows in every partition, and only the first one acts.
-/

namespace Idgs.Rdd

open List

variable {π α : Type*}

/-- `PairRddPartition::handleActionRequest` of the partitions of an RDD, for an action without
errors. -/
def partitionResults (isReplicatedRdd : Bool) (action : π → List α) (partitions : List π) :
    List (List α) :=
  partitions.mapIdx fun partition input => if isReplicatedRdd && decide (0 < partition) then []
    else action input

/-- The partitions that act. -/
def acting (isReplicatedRdd : Bool) (partitions : List π) : List π :=
  if isReplicatedRdd then partitions.take 1 else partitions

/-- The other partitions answer with nothing. -/
theorem partitionResults_eq (isReplicatedRdd : Bool) (action : π → List α) (partitions : List π) :
    ∃ k, partitionResults isReplicatedRdd action partitions =
      (acting isReplicatedRdd partitions).map action ++ List.replicate k [] := by
  unfold partitionResults acting
  cases isReplicatedRdd with
  | false =>
    refine ⟨0, ext_getElem? fun i => ?_⟩
    rw [getElem?_mapIdx, replicate_zero, append_nil, if_neg Bool.false_ne_true, getElem?_map]
    rfl
  | true =>
    cases partitions with
    | nil => exact ⟨0, rfl⟩
    | cons input partitions =>
      refine ⟨partitions.length, ?_⟩
      rw [mapIdx_cons, if_pos rfl, take_succ_cons, take_zero]
      refine congrArg (action input :: ·) (ext_getElem? fun i => ?_)
      show _ = (List.replicate partitions.length ([] : List α))[i]?
      rw [getElem?_mapIdx, getElem?_replicate]
      by_cases hi : i < partitions.length
      · rw [if_pos hi, getElem?_eq_getElem hi, Option.map_some, if_pos (by simp)]
      · rw [if_neg hi, getElem?_eq_none (by omega), Option.map_none]

theorem flatten_partitionResults (isReplicatedRdd : Bool) (action : π → List α)
    (partitions : List π) :
    (partitionResults isReplicatedRdd action partitions).flatten =
      (acting isReplicatedRdd partitions).flatMap action := by
  obtain ⟨k, hk⟩ := partitionResults_eq isReplicatedRdd action partitions
  rw [hk, flatten_append, flatten_replicate_nil, append_nil]
  rfl

end Idgs.Rdd
