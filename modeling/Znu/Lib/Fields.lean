
import Mathlib

/-! # The fields of a list

The maximal runs of elements between separators, empty runs left out. A scanner that skips
separators and then takes a run comes through the fields one by one. A list cut short has
the same fields only if nothing but separators is cut off.
-/

namespace Znu.Lib

open List

variable {α : Type} [DecidableEq α]

def fields (sep : α) (l : List α) : List (List α) := (l.splitOn sep).filter (· ≠ [])

variable {sep : α} {l r part : List α}

@[simp] lemma fields_nil : fields sep [] = [] := by simp [fields]

lemma fields_append (l r : List α) : fields sep (l ++ sep :: r) = fields sep l ++ fields sep r := by
  simp [fields, splitOn_append_cons_self]

@[simp] lemma fields_cons_sep (l : List α) : fields sep (sep :: l) = fields sep l := by
  have split := @fields_append α _ sep [] l
  simpa using split

lemma fields_of_not_mem (nonempty : l ≠ []) (free : sep ∉ l) : fields sep l = [l] := by
  simp [fields, splitOn_eq_singleton free, nonempty]

lemma ne_nil_of_mem_fields (member : part ∈ fields sep l) : part ≠ [] := by
  simpa using (mem_filter.mp member).2

lemma fields_append_seps (l : List α) (seps : ∀ b ∈ r, b = sep) : fields sep (l ++ r) = fields sep l := by
  induction r generalizing l with
  | nil => simp
  | cons b r ih =>
    obtain ⟨rfl, others⟩ := forall_mem_cons.mp seps
    have rest := ih [] others
    rw [fields_append]
    simpa using rest

/-- What a scanner finds first. -/
lemma fields_scan (l : List α) :
    fields sep l = match l.dropWhile (· = sep) with
      | [] => []
      | b :: rest => (b :: rest).takeWhile (· ≠ sep) :: fields sep ((b :: rest).dropWhile (· ≠ sep)) := by
  induction l with
  | nil => simp
  | cons b l ih =>
    by_cases here : b = sep
    · subst here
      simpa using ih
    have start : (b :: l).dropWhile (· = sep) = b :: l := by simp [here]
    have whole := takeWhile_append_dropWhile (p := fun b => decide (b ≠ sep)) (l := b :: l)
    have nonempty : (b :: l).takeWhile (· ≠ sep) ≠ [] := by simp [here]
    have free : sep ∉ (b :: l).takeWhile (· ≠ sep) := fun member => by
      simpa using mem_takeWhile_imp member
    rw [start]
    dsimp only
    cases rest : (b :: l).dropWhile (· ≠ sep) with
    | nil =>
      rw [rest, append_nil] at whole
      rw [fields_nil, whole]
      exact fields_of_not_mem (by simp) (whole ▸ free)
    | cons c rest' =>
      have stop : c = sep := by
        have head := head?_dropWhile_not (fun b => decide (b ≠ sep)) (b :: l)
        rw [rest] at head
        simpa using head
      subst stop
      rw [rest] at whole
      nth_rewrite 1 [← whole]
      rw [fields_append, fields_of_not_mem nonempty free, fields_cons_sep]
      rfl

lemma fields_flatten (l : List α) : (fields sep l).flatten = l.filter (· ≠ sep) := by
  rw [fields, flatten_filter_ne_nil]
  induction l with
  | nil => simp
  | cons b l ih =>
    rw [splitOn_cons_eq_if_modifyHead]
    by_cases here : b = sep
    · simpa [here] using ih
    obtain ⟨first, rest, runs⟩ := exists_cons_of_ne_nil (splitOn_ne_nil sep l)
    rw [runs] at ih ⊢
    simpa [here] using ih

/-- Cutting a list, and then every field, leaves the fields as they were only if separators
    are all that is cut off. -/
lemma fields_cut (base l : List α) (k n : Nat) :
    (fields sep (base ++ l.take k)).map (take n) = fields sep (base ++ l) ↔
      (∀ b ∈ l.drop k, b = sep) ∧ ∀ part ∈ fields sep (base ++ l), part.length ≤ n := by
  have whole : base ++ l = (base ++ l.take k) ++ l.drop k := by
    rw [append_assoc, take_append_drop]
  constructor
  · intro same
    have shorter : ((fields sep (base ++ l.take k)).map (take n)).flatten.length ≤
        (fields sep (base ++ l.take k)).flatten.length := by
      rw [length_flatten, length_flatten, map_map]
      exact sum_le_sum fun part _ => length_take_le' n part
    rw [same, fields_flatten, fields_flatten, whole, filter_append, length_append] at shorter
    have cut : (l.drop k).filter (· ≠ sep) = [] := length_eq_zero_iff.mp (by omega)
    refine ⟨fun b member => ?_, fun part member => ?_⟩
    · simpa using filter_eq_nil_iff.mp cut b member
    · rw [← same] at member
      obtain ⟨run, -, rfl⟩ := mem_map.mp member
      exact length_take_le n run
  · rintro ⟨seps, short⟩
    rw [whole, fields_append_seps _ seps] at short ⊢
    exact map_congr_left (fun part member => take_of_length_le (short part member)) |>.trans (map_id _)

end Znu.Lib
