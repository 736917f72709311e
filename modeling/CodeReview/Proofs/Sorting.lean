import Mathlib.Data.List.Basic
import Mathlib.Order.Basic

/-!
# Stable sorting

* `filter_mergeSort`: members of a list that may stand in any order keep the one they have.
* `pairwise_lt_mergeSort`: members with different texts, sorted by them, stand in the order of the texts.
-/

namespace CodeReview

variable {α : Type}

theorem filter_mergeSort {le : α → α → Bool}
    (htrans : ∀ a b c, le a b = true → le b c = true → le a c = true)
    (htotal : ∀ a b, (le a b || le b a) = true) {p : α → Bool}
    (h : ∀ a b, p a = true → p b = true → le a b = true) (as : List α) :
    (as.mergeSort le).filter p = as.filter p := by
  have hpairwise : (as.filter p).Pairwise fun a b => le a b = true := by
    refine List.pairwise_of_forall_mem_list ?_
    intro a ha b hb
    exact h a b (List.mem_filter.1 ha).2 (List.mem_filter.1 hb).2
  have hsublist := (List.sublist_mergeSort htrans htotal hpairwise List.filter_sublist).filter p
  rw [List.filter_filter] at hsublist
  simp only [Bool.and_self] at hsublist
  exact (hsublist.eq_of_length ((List.mergeSort_perm as le).filter p).length_eq.symm).symm

theorem pairwise_lt_mergeSort {text : α → String} {as : List α} (h : as.Pairwise fun a b => text a ≠ text b) :
    (as.mergeSort fun a b => !decide (text b < text a)).Pairwise fun a b => text a < text b := by
  have hsorted : (as.mergeSort fun a b => !decide (text b < text a)).Pairwise
      fun a b => (!decide (text b < text a)) = true := by
    refine List.pairwise_mergeSort (fun a b c hab hbc => ?_) (fun a b => ?_) as
    · simp only [Bool.not_eq_true', decide_eq_false_iff_not, String.not_lt] at *
      exact String.le_trans hab hbc
    · simp only [Bool.or_eq_true, Bool.not_eq_true', decide_eq_false_iff_not, String.not_lt]
      exact String.le_total (text a) (text b)
  have hne := h.perm (List.mergeSort_perm as fun a b => !decide (text b < text a)).symm Ne.symm
  refine (hsorted.and hne).imp ?_
  rintro a b ⟨hle, hne⟩
  simp only [Bool.not_eq_true', decide_eq_false_iff_not, String.not_lt] at hle
  exact Std.lt_of_le_of_ne hle hne

end CodeReview
