import Mathlib.Data.List.Induction

/-!
# Replaying writes

The contents of a map are a function from keys to optional values; a write sets one key, to a value
or to none. After a sequence of writes a key holds what the last write to it says, so two sequences
with the same writes to every key, in the same order for each, have the same effect. Two sequences
in the making are comparable when one continues the other.
-/

namespace Idgs.Common

open Function List

variable {κ ν : Type*} [DecidableEq κ]

/-- The contents after a sequence of writes. -/
def writeAll (m : κ → Option ν) (ws : List (κ × Option ν)) : κ → Option ν :=
  ws.foldl (fun m w => Function.update m w.1 w.2) m

section

variable (m : κ → Option ν)

@[simp] theorem writeAll_nil : writeAll m [] = m := rfl

@[simp] theorem writeAll_cons (w : κ × Option ν) (ws : List (κ × Option ν)) :
    writeAll m (w :: ws) = writeAll (update m w.1 w.2) ws := rfl

theorem writeAll_append (ws ws' : List (κ × Option ν)) :
    writeAll m (ws ++ ws') = writeAll (writeAll m ws) ws' := foldl_append

end

/-- A key that nobody writes keeps its value. -/
theorem writeAll_of_not_mem {m : κ → Option ν} {ws : List (κ × Option ν)} {k : κ}
    (h : ∀ w ∈ ws, w.1 ≠ k) : writeAll m ws k = m k := by
  induction ws generalizing m with
  | nil => rfl
  | cons w ws ih =>
    rw [writeAll_cons, ih fun w' hw' => h w' (mem_cons_of_mem _ hw')]
    exact update_of_ne (Ne.symm (h w mem_cons_self)) _ _

section

variable (m : κ → Option ν)

/-- The last write decides. -/
theorem writeAll_concat (ws : List (κ × Option ν)) (w : κ × Option ν) (k : κ) :
    writeAll m (ws ++ [w]) k = if w.1 = k then w.2 else writeAll m ws k := by
  rw [writeAll_append, writeAll_cons, writeAll_nil, update_apply]
  simp only [eq_comm]

/-- Only the writes to a key matter for it. -/
theorem writeAll_filter (ws : List (κ × Option ν)) (k : κ) :
    writeAll m ws k = writeAll m (ws.filter fun w => w.1 = k) k := by
  induction ws using List.reverseRecOn with
  | nil => rfl
  | append_singleton ws w ih =>
    rw [writeAll_concat, filter_append]
    by_cases hw : w.1 = k
    · rw [if_pos hw, filter_cons, if_pos (decide_eq_true hw), filter_nil,
        writeAll_concat, if_pos hw]
    · rw [if_neg hw, filter_cons, if_neg (by simpa using hw), filter_nil, append_nil, ih]

/-- **Order for each key is enough**: sequences with the same writes to every key, in the same
order, have the same effect. -/
theorem writeAll_eq_of_filter_eq {ws ws' : List (κ × Option ν)}
    (h : ∀ k, (ws.filter fun w => w.1 = k) = ws'.filter fun w => w.1 = k) :
    writeAll m ws = writeAll m ws' := by
  funext k
  rw [writeAll_filter, writeAll_filter m ws', h]

/-- The last write to a key decides, whatever was written before. -/
theorem writeAll_eq_of_getLast? {ws ws' : List (κ × Option ν)} {k : κ}
    (h : (ws.filter fun w => w.1 = k).getLast? = (ws'.filter fun w => w.1 = k).getLast?) :
    writeAll m ws k = writeAll m ws' k := by
  rw [writeAll_filter, writeAll_filter m ws']
  cases hlast : (ws'.filter fun w => w.1 = k).getLast? with
  | none =>
    rw [hlast] at h
    rw [getLast?_eq_none_iff.mp h, getLast?_eq_none_iff.mp hlast]
  | some w =>
    rw [hlast] at h
    have hw : w.1 = k := of_decide_eq_true (mem_filter.mp (mem_of_getLast? h)).2
    obtain ⟨before, hws⟩ := getLast?_eq_some_iff.mp h
    obtain ⟨before', hws'⟩ := getLast?_eq_some_iff.mp hlast
    rw [hws, hws', writeAll_concat, writeAll_concat, if_pos hw, if_pos hw]

end

/-- Writes of one value to a key make it hold that value. -/
theorem writeAll_of_forall {m : κ → Option ν} {ws : List (κ × Option ν)} {k : κ} {v : Option ν}
    (hmem : ∃ w ∈ ws, w.1 = k) (h : ∀ w ∈ ws, w.1 = k → w.2 = v) : writeAll m ws k = v := by
  induction ws using List.reverseRecOn with
  | nil =>
    obtain ⟨w, hw, -⟩ := hmem
    exact absurd hw not_mem_nil
  | append_singleton ws w ih =>
    rw [writeAll_concat]
    split
    · rename_i hw
      exact h w (mem_append_right _ mem_cons_self) hw
    · rename_i hw
      obtain ⟨w', hw', hk⟩ := hmem
      refine ih ⟨w', ?_, hk⟩ fun w'' hw'' => h w'' (mem_append_left _ hw'')
      rcases mem_append.mp hw' with hin | hin
      · exact hin
      · obtain rfl := mem_singleton.mp hin
        exact absurd hk hw

/-! ## Comparable sequences -/

/-- One sequence continues the other. -/
def Comparable {α : Type*} (l l' : List α) : Prop := l <+: l' ∨ l' <+: l

instance {α : Type*} [DecidableEq α] (l l' : List α) : Decidable (Comparable l l') :=
  inferInstanceAs (Decidable (_ ∨ _))

namespace Comparable

variable {α : Type*} {l l' : List α}

theorem refl (l : List α) : Comparable l l := .inl prefix_rfl

theorem symm (h : Comparable l l') : Comparable l' l := Or.symm h

/-- Of the same length, they are equal. -/
theorem eq_of_length (h : Comparable l l') (hlen : l.length = l'.length) : l = l' := by
  rcases h with hpre | hpre
  · exact hpre.eq_of_length hlen
  · exact (hpre.eq_of_length hlen.symm).symm

end Comparable

end Idgs.Common
