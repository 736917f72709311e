import CodeReview.Dependency.Java
import Mathlib.Data.List.TakeWhile

/-!
# Paired brackets

Type arguments are dropped from the inside out, one pass after the other. What is left is what a single pass
with a stack leaves, where a closing bracket is paired with the last bracket that is still open.

* `Pairing.step`: a step of the single pass, and `unpaired`: what it leaves of a text.
* `foldl_stripInnermost`: a pass that drops the innermost pairs does not change where the single pass gets.
* `exists_of_length_stripInnermost`: if it drops nothing, no bracket closes behind one that opens.
* `stripGenerics_eq`: so the passes end where the single pass does.
-/

namespace CodeReview.Dependency.Java

/-! ## One pass -/

/-- How far a pass has got: what is kept in front of each bracket that is still open, innermost first, and
what is kept from the innermost on. -/
structure Pairing where
  outer : List (List Char) := []
  kept : List Char := []

namespace Pairing

/-- A bracket that closes takes with it what was kept since the last one that opened. -/
def step (pairing : Pairing) (c : Char) : Pairing :=
  if c = '<' then ⟨pairing.kept :: pairing.outer, [c]⟩
  else if c = '>' then
    match pairing.outer with
    | before :: outer => ⟨outer, before⟩
    | [] => ⟨[], pairing.kept ++ [c]⟩
  else ⟨pairing.outer, pairing.kept ++ [c]⟩

/-- All that is kept. -/
def text (pairing : Pairing) : List Char := pairing.outer.reverse.flatten ++ pairing.kept

end Pairing

/-- The text without its paired brackets and what stands between them. -/
def unpaired (cs : List Char) : List Char := (cs.foldl Pairing.step {}).text

section Steps

variable {pairing : Pairing} {c : Char} {cs : List Char}

theorem isAngle_eq_false_iff : isAngle c = false ↔ c ≠ '<' ∧ c ≠ '>' := by
  simp [isAngle]

theorem step_open (pairing : Pairing) : pairing.step '<' = ⟨pairing.kept :: pairing.outer, ['<']⟩ := rfl

theorem step_close (outer : List (List Char)) (before kept : List Char) :
    Pairing.step ⟨before :: outer, kept⟩ '>' = ⟨outer, before⟩ := rfl

theorem step_of_not_angle (h : isAngle c = false) (pairing : Pairing) :
    pairing.step c = ⟨pairing.outer, pairing.kept ++ [c]⟩ := by
  obtain ⟨hopen, hclose⟩ := isAngle_eq_false_iff.1 h
  rw [Pairing.step, if_neg hopen, if_neg hclose]

theorem foldl_of_not_angle (h : ∀ c ∈ cs, isAngle c = false) (pairing : Pairing) :
    cs.foldl Pairing.step pairing = ⟨pairing.outer, pairing.kept ++ cs⟩ := by
  induction cs generalizing pairing with
  | nil => rw [List.foldl_nil, List.append_nil]
  | cons c cs ih =>
    rw [List.forall_mem_cons] at h
    rw [List.foldl_cons, ih h.2, step_of_not_angle h.1, List.append_assoc, List.singleton_append]

/-- A pair is dropped with what stands between. -/
theorem foldl_pair (h : ∀ c ∈ cs, isAngle c = false) (rest : List Char) (pairing : Pairing) :
    ('<' :: (cs ++ '>' :: rest)).foldl Pairing.step pairing = rest.foldl Pairing.step pairing := by
  rw [List.foldl_cons, step_open, List.foldl_append, foldl_of_not_angle h, List.foldl_cons, step_close]

/-- Brackets that close while none is open are kept. -/
theorem foldl_of_not_open (h : '<' ∉ cs) (kept : List Char) :
    cs.foldl Pairing.step ⟨[], kept⟩ = ⟨[], kept ++ cs⟩ := by
  induction cs generalizing kept with
  | nil => rw [List.foldl_nil, List.append_nil]
  | cons c cs ih =>
    obtain ⟨hc, hcs⟩ := not_or.1 (mt List.mem_cons.2 h)
    have hstep : Pairing.step ⟨[], kept⟩ c = ⟨[], kept ++ [c]⟩ := by
      rw [Pairing.step, if_neg (Ne.symm hc)]
      exact ite_self _
    rw [List.foldl_cons, hstep, ih hcs, List.append_assoc, List.singleton_append]

/-- Where no bracket closes, all is kept. -/
theorem text_foldl_of_not_close (h : '>' ∉ cs) (pairing : Pairing) :
    (cs.foldl Pairing.step pairing).text = pairing.text ++ cs := by
  induction cs generalizing pairing with
  | nil => rw [List.foldl_nil, List.append_nil]
  | cons c cs ih =>
    obtain ⟨hc, hcs⟩ := not_or.1 (mt List.mem_cons.2 h)
    have hstep : (pairing.step c).text = pairing.text ++ [c] := by
      rw [Pairing.step, if_neg (Ne.symm hc)]
      split <;> simp [Pairing.text]
    rw [List.foldl_cons, ih hcs, hstep, List.append_assoc, List.singleton_append]

end Steps

/-! ## Pass after pass -/

section Passes

variable {cs rest : List Char}

/-- The text up to the next bracket. -/
theorem exists_of_dropWhile {c : Char} (h : cs.dropWhile (!isAngle ·) = c :: rest) :
    ∃ inner, cs = inner ++ c :: rest ∧ ∀ c ∈ inner, isAngle c = false := by
  refine ⟨cs.takeWhile (!isAngle ·), by rw [← h, List.takeWhile_append_dropWhile], fun c hc => ?_⟩
  simpa using List.mem_takeWhile_imp hc

theorem foldl_stripInnermost (cs : List Char) (pairing : Pairing) :
    (stripInnermost cs).foldl Pairing.step pairing = cs.foldl Pairing.step pairing := by
  fun_induction stripInnermost cs generalizing pairing with
  | case1 => rfl
  | case2 cs rest hdropped ih =>
    obtain ⟨inner, rfl, hinner⟩ := exists_of_dropWhile hdropped
    rw [ih, foldl_pair hinner]
  | case3 cs _ ih => rw [List.foldl_cons, ih, List.foldl_cons]
  | case4 c cs _ ih => rw [List.foldl_cons, ih, List.foldl_cons]

theorem length_stripInnermost_le (cs : List Char) : (stripInnermost cs).length ≤ cs.length := by
  fun_induction stripInnermost cs with
  | case1 => exact Nat.le_refl 0
  | case2 cs rest hdropped ih =>
    obtain ⟨inner, rfl, -⟩ := exists_of_dropWhile hdropped
    simp only [List.length_cons, List.length_append]
    omega
  | case3 cs _ ih => simpa using ih
  | case4 c cs _ ih => simpa using ih

/-- Where no pair is dropped there is none: the brackets that close stand in front of those that open. -/
theorem exists_of_length_stripInnermost (h : (stripInnermost cs).length = cs.length) :
    ∃ closing opening, cs = closing ++ opening ∧ '<' ∉ closing ∧ '>' ∉ opening := by
  fun_induction stripInnermost cs with
  | case1 => exact ⟨[], [], rfl, List.not_mem_nil, List.not_mem_nil⟩
  | case2 cs rest hdropped ih =>
    obtain ⟨inner, rfl, -⟩ := exists_of_dropWhile hdropped
    have hle := length_stripInnermost_le rest
    simp only [List.length_cons, List.length_append] at h
    omega
  | case3 cs hnone ih =>
    obtain ⟨closing, opening, rfl, hclosing, hopening⟩ := ih (Nat.succ.inj h)
    -- a bracket that closes would be the first of them, and end a pair
    have hclose : '>' ∉ closing := by
      intro hmem
      obtain ⟨front, behind, rfl, hfront⟩ := List.eq_append_cons_of_mem hmem
      refine hnone (behind ++ opening) ?_
      rw [List.append_assoc, List.dropWhile_append_of_pos, List.cons_append, List.dropWhile_cons_of_neg (by decide)]
      intro c hc
      rw [isAngle_eq_false_iff.2, Bool.not_false]
      exact ⟨fun heq => hclosing (heq ▸ List.mem_append_left _ hc), fun heq => hfront (heq ▸ hc)⟩
    refine ⟨[], '<' :: (closing ++ opening), rfl, List.not_mem_nil, ?_⟩
    simp [hclose, hopening]
  | case4 c cs hc ih =>
    obtain ⟨closing, opening, rfl, hclosing, hopening⟩ := ih (Nat.succ.inj h)
    refine ⟨c :: closing, opening, rfl, ?_, hopening⟩
    exact mt List.mem_cons.1 (not_or.2 ⟨fun heq => hc heq.symm, hclosing⟩)

/-- Dropping the innermost pairs until there is none leaves what one pass with a stack leaves. -/
theorem stripGenerics_eq (cs : List Char) : stripGenerics cs = unpaired cs := by
  fun_induction stripGenerics cs with
  | case1 cs _ ih => rw [ih, unpaired, foldl_stripInnermost, unpaired]
  | case2 cs hle =>
    have hlength := Nat.le_antisymm (length_stripInnermost_le cs) (Nat.le_of_not_lt hle)
    obtain ⟨closing, opening, rfl, hclosing, hopening⟩ := exists_of_length_stripInnermost hlength
    rw [unpaired, List.foldl_append, text_foldl_of_not_close hopening, foldl_of_not_open hclosing]
    rfl

end Passes

end CodeReview.Dependency.Java
