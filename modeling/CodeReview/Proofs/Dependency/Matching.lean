import CodeReview.Proofs.Dependency.Brackets
import Mathlib.Data.List.Induction
import Mathlib.Logic.Function.Iterate

/-!
# Matched brackets

A bracket that closes is matched with the last one that is still open, and what stands outside of all matched
pairs is what the passes over a text leave.

* `Matching.ofText`: the matched pairs of a text, by positions, and `unmatched`: the characters that stand
  outside of them.
* `Placed.step`: at every character, brackets that are not matched stand outside of the pairs.
* `Follows.step`: the single pass with a stack of texts keeps, at every character, what no pair has covered so
  far. `Stacked` says the same of the text in front of each bracket that is still open.
* `exists_iterate_of_stripGenerics`: the passes stop at the first one that changes nothing.
* `stripGenerics_matched`: the passes stop, and what they leave is the text outside of all pairs, where no
  bracket closes behind one that opens.
-/

namespace CodeReview.Dependency.Java

/-! ## Matching by positions -/

/-- The brackets of a text by their positions: those that are still open, the last one first, and the pairs that
are matched. -/
structure Matching where
  opens : List Nat := []
  pairs : List (Nat × Nat) := []
  deriving DecidableEq, Repr

namespace Matching

/-- Takes in the character at a position. A bracket that closes while none is open stays unmatched. -/
def step (matching : Matching) : Char × Nat → Matching
  | ('<', position) => { matching with opens := position :: matching.opens }
  | ('>', position) =>
    match matching.opens with
    | start :: opens => ⟨opens, (start, position) :: matching.pairs⟩
    | [] => matching
  | _ => matching

/-- The matching of a whole text. -/
def ofText (cs : List Char) : Matching := cs.zipIdx.foldl step {}

end Matching

/-- Whether a position is that of a bracket of a pair or between the two. -/
def covers (pairs : List (Nat × Nat)) (position : Nat) : Bool :=
  pairs.any fun (start, stop) => start ≤ position && position ≤ stop

/-- The characters that no pair covers. -/
def uncovered (pairs : List (Nat × Nat)) (cs : List Char) : List Char :=
  (cs.zipIdx.filter fun (_, position) => !covers pairs position).map (·.1)

/-- The text without its matched pairs of brackets and what stands between them. -/
def unmatched (cs : List Char) : List Char := uncovered (Matching.ofText cs).pairs cs

section Covers

variable {pairs pairs' : List (Nat × Nat)} {cs : List Char} {start stop position : Nat}

theorem covers_cons : covers ((start, stop) :: pairs) position = true ↔
    (start ≤ position ∧ position ≤ stop) ∨ covers pairs position = true := by
  simp [covers]

theorem covers_cons_of_lt (h : position < start) (stop : Nat) :
    covers ((start, stop) :: pairs) position = covers pairs position := by
  rw [Bool.eq_iff_iff, covers_cons]
  constructor
  · rintro (⟨hle, -⟩ | hcovers)
    · omega
    · exact hcovers
  · exact Or.inr

theorem covers_eq_false (h : ∀ pair ∈ pairs, pair.2 < position) : covers pairs position = false := by
  rw [covers, List.any_eq_false]
  intro pair hpair hcovers
  have hlt := h pair hpair
  simp at hcovers
  omega

/-- What is uncovered depends on the positions of the text only. -/
theorem uncovered_congr (h : ∀ position < cs.length, covers pairs position = covers pairs' position) :
    uncovered pairs cs = uncovered pairs' cs := by
  unfold uncovered
  congr 1
  refine List.filter_congr ?_
  rintro ⟨c, position⟩ hmem
  show (!covers pairs position) = !covers pairs' position
  rw [h position (List.snd_lt_of_mem_zipIdx hmem)]

theorem uncovered_concat (h : covers pairs cs.length = false) (c : Char) :
    uncovered pairs (cs ++ [c]) = uncovered pairs cs ++ [c] := by
  simp [uncovered, List.zipIdx_append, h]

/-- A pair that ends with the text leaves what is uncovered in front of it. -/
theorem uncovered_pair (hstart : start ≤ cs.length) (c : Char) :
    uncovered ((start, cs.length) :: pairs) (cs ++ [c]) = uncovered pairs (cs.take start) := by
  have hfront : (cs.take start).length = start := by simp [hstart]
  have hbehind : (((cs.drop start ++ [c]).zipIdx start).filter fun (_, position) =>
      !covers ((start, cs.length) :: pairs) position) = [] := by
    rw [List.filter_eq_nil_iff]
    rintro ⟨d, position⟩ hmem
    have hlow := List.le_snd_of_mem_zipIdx hmem
    have hhigh := List.snd_lt_add_of_mem_zipIdx hmem
    simp at hlow hhigh
    have hcovers : covers ((start, cs.length) :: pairs) position = true :=
      covers_cons.2 (.inl ⟨hlow, by omega⟩)
    simp [hcovers]
  calc uncovered ((start, cs.length) :: pairs) (cs ++ [c])
      = uncovered ((start, cs.length) :: pairs) (cs.take start) := by
        conv_lhs => rw [← List.take_append_drop start cs, List.append_assoc]
        unfold uncovered
        rw [List.take_append_drop, List.zipIdx_append, List.filter_append, hfront, Nat.zero_add, hbehind,
          List.append_nil]
    _ = uncovered pairs (cs.take start) := by
        refine uncovered_congr fun position hlt => covers_cons_of_lt ?_ _
        omega

end Covers

/-! ## Where brackets stand -/

/-- One of the two brackets of a pair stands at the position. -/
def IsMatched (pairs : List (Nat × Nat)) (position : Nat) : Prop :=
  ∃ pair ∈ pairs, position = pair.1 ∨ position = pair.2

/-- Open brackets stand outside of the pairs, later ones first. A bracket that closed while none was open stands
outside of the pairs too, in front of all that are open. -/
structure Placed (cs : List Char) (matching : Matching) : Prop where
  closed : ∀ pair ∈ matching.pairs, pair.2 < cs.length
  lt_length : ∀ start ∈ matching.opens, start < cs.length
  descending : matching.opens.Pairwise (· > ·)
  uncovered : ∀ start ∈ matching.opens, covers matching.pairs start = false
  stray : ∀ position c, cs[position]? = some c → isAngle c = true → position ∉ matching.opens →
    IsMatched matching.pairs position ∨
      covers matching.pairs position = false ∧ ∀ start ∈ matching.opens, position < start

section Places

variable {cs : List Char} {matching : Matching}

theorem step_eq_self {c : Char} (h : isAngle c = false) (matching : Matching) (position : Nat) :
    matching.step (c, position) = matching := by
  obtain ⟨hopen, hclose⟩ := isAngle_eq_false_iff.1 h
  unfold Matching.step
  split <;> simp_all

/-- The character at a position of a longer text. -/
theorem getElem?_concat_cases {position : Nat} {c d : Char} (h : (cs ++ [c])[position]? = some d) :
    cs[position]? = some d ∨ position = cs.length ∧ d = c := by
  by_cases hlt : position < cs.length
  · rw [List.getElem?_append_left hlt] at h
    exact .inl h
  · rw [List.getElem?_append_right (by omega), List.getElem?_singleton] at h
    split at h
    · exact .inr ⟨by omega, (Option.some.inj h).symm⟩
    · exact nomatch h

theorem Placed.closed_concat (h : Placed cs matching) (c : Char) :
    ∀ pair ∈ matching.pairs, pair.2 < (cs ++ [c]).length :=
  fun pair hpair => (h.closed pair hpair).trans (by simp)

theorem Placed.lt_length_concat (h : Placed cs matching) (c : Char) :
    ∀ start ∈ matching.opens, start < (cs ++ [c]).length :=
  fun start hstart => (h.lt_length start hstart).trans (by simp)

/-- No pair reaches the end of the text. -/
theorem Placed.covers_length (h : Placed cs matching) : covers matching.pairs cs.length = false :=
  covers_eq_false h.closed

theorem Placed.concat_open (h : Placed cs matching) :
    Placed (cs ++ ['<']) { matching with opens := cs.length :: matching.opens } := by
  refine ⟨h.closed_concat '<', List.forall_mem_cons.2 ⟨by simp, h.lt_length_concat '<'⟩,
    h.descending.cons h.lt_length, List.forall_mem_cons.2 ⟨h.covers_length, h.uncovered⟩, ?_⟩
  intro position d hd hangle hnone
  obtain ⟨hne, hnone⟩ := not_or.1 (mt List.mem_cons.2 hnone)
  rcases getElem?_concat_cases hd with hd | ⟨heq, -⟩
  · refine (h.stray position d hd hangle hnone).imp_right fun hstray => ⟨hstray.1, ?_⟩
    have hlt := (List.getElem?_eq_some_iff.1 hd).1
    exact List.forall_mem_cons.2 ⟨hlt, hstray.2⟩
  · exact absurd heq hne

/-- A bracket that closes while none is open stands behind all pairs. -/
theorem Placed.concat_stray {pairs : List (Nat × Nat)} (h : Placed cs ⟨[], pairs⟩) :
    Placed (cs ++ ['>']) ⟨[], pairs⟩ := by
  refine ⟨h.closed_concat '>', h.lt_length_concat '>', h.descending, h.uncovered, ?_⟩
  intro position d hd hangle hnone
  rcases getElem?_concat_cases hd with hd | ⟨rfl, -⟩
  · exact h.stray position d hd hangle hnone
  · exact .inr ⟨h.covers_length, List.forall_mem_nil _⟩

theorem Placed.concat_close {start : Nat} {opens : List Nat} {pairs : List (Nat × Nat)}
    (h : Placed cs ⟨start :: opens, pairs⟩) :
    Placed (cs ++ ['>']) ⟨opens, (start, cs.length) :: pairs⟩ := by
  obtain ⟨hbelow, hdescending⟩ := List.pairwise_cons.1 h.descending
  -- what stands in front of the bracket that is closed is covered only if it was before
  have hbefore (position : Nat) (hlt : position < start) :
      covers ((start, cs.length) :: pairs) position = covers pairs position :=
    covers_cons_of_lt hlt cs.length
  have hopens := List.forall_mem_cons.1 (h.lt_length_concat '>')
  refine ⟨List.forall_mem_cons.2 ⟨by simp, h.closed_concat '>'⟩, hopens.2, hdescending, ?_, ?_⟩
  · intro other hother
    exact (hbefore other (hbelow other hother)).trans (h.uncovered other (List.mem_cons_of_mem start hother))
  intro position d hd hangle hnone
  rcases getElem?_concat_cases hd with hd | ⟨rfl, -⟩
  · by_cases hstart : position = start
    · exact .inl ⟨_, List.mem_cons_self, .inl hstart⟩
    have hnone : position ∉ start :: opens := mt List.mem_cons.1 (not_or.2 ⟨hstart, hnone⟩)
    rcases h.stray position d hd hangle hnone with ⟨pair, hpair, hends⟩ | ⟨huncovered, hfront⟩
    · exact .inl ⟨pair, List.mem_cons_of_mem _ hpair, hends⟩
    · obtain ⟨hlt, hfront⟩ := List.forall_mem_cons.1 hfront
      exact .inr ⟨(hbefore position hlt).trans huncovered, hfront⟩
  · exact .inl ⟨_, List.mem_cons_self, .inr rfl⟩

theorem Placed.concat_other (h : Placed cs matching) {c : Char} (hc : isAngle c = false) :
    Placed (cs ++ [c]) matching := by
  refine ⟨h.closed_concat c, h.lt_length_concat c, h.descending, h.uncovered, ?_⟩
  intro position d hd hangle hnone
  rcases getElem?_concat_cases hd with hd | ⟨-, rfl⟩
  · exact h.stray position d hd hangle hnone
  · rw [hc] at hangle
    exact nomatch hangle

theorem Placed.step (h : Placed cs matching) (c : Char) :
    Placed (cs ++ [c]) (matching.step (c, cs.length)) := by
  by_cases hopen : c = '<'
  · subst hopen
    exact h.concat_open
  by_cases hclose : c = '>'
  · subst hclose
    obtain ⟨opens, pairs⟩ := matching
    cases opens with
    | nil => exact h.concat_stray
    | cons start opens => exact h.concat_close
  · have hangle : isAngle c = false := isAngle_eq_false_iff.2 ⟨hopen, hclose⟩
    rw [step_eq_self hangle]
    exact h.concat_other hangle

theorem ofText_concat (cs : List Char) (c : Char) :
    Matching.ofText (cs ++ [c]) = (Matching.ofText cs).step (c, cs.length) := by
  simp [Matching.ofText, List.zipIdx_append]

theorem placed (cs : List Char) : Placed cs (Matching.ofText cs) := by
  induction cs using List.reverseRecOn with
  | nil =>
    refine ⟨?_, ?_, .nil, ?_, ?_⟩
    all_goals simp [Matching.ofText]
  | append_singleton cs c ih =>
    rw [ofText_concat]
    exact ih.step c

/-- Brackets that are not matched stand outside of all pairs. -/
theorem covers_of_not_matched {position : Nat} {c : Char} (hc : cs[position]? = some c)
    (hangle : isAngle c = true) (h : ¬IsMatched (Matching.ofText cs).pairs position) :
    covers (Matching.ofText cs).pairs position = false := by
  by_cases hopen : position ∈ (Matching.ofText cs).opens
  · exact (placed cs).uncovered position hopen
  · rcases (placed cs).stray position c hc hangle hopen with hmatched | ⟨huncovered, -⟩
    · exact absurd hmatched h
    · exact huncovered

end Places

/-! ## The single pass -/

/-- In front of each open bracket the single pass keeps what no pair covers. -/
inductive Stacked (pairs : List (Nat × Nat)) (cs : List Char) : List (List Char) → List Nat → Prop
  | nil : Stacked pairs cs [] []
  | cons {before : List Char} {outer : List (List Char)} {start : Nat} {opens : List Nat}
      (hkept : Pairing.text ⟨outer, before⟩ = uncovered pairs (cs.take start))
      (rest : Stacked pairs cs outer opens) : Stacked pairs cs (before :: outer) (start :: opens)

/-- The single pass has kept what no pair of the text so far covers. -/
structure Follows (cs : List Char) (pairing : Pairing) (matching : Matching) : Prop where
  text : pairing.text = uncovered matching.pairs cs
  stacked : Stacked matching.pairs cs pairing.outer matching.opens

section Single

variable {pairs : List (Nat × Nat)} {cs : List Char} {outer : List (List Char)} {opens : List Nat}
  {pairing : Pairing} {matching : Matching}

theorem Stacked.concat (h : Stacked pairs cs outer opens) (hopens : ∀ start ∈ opens, start < cs.length)
    (c : Char) : Stacked pairs (cs ++ [c]) outer opens := by
  induction h with
  | nil => exact .nil
  | cons hkept _ ih =>
    rw [List.forall_mem_cons] at hopens
    refine .cons ?_ (ih hopens.2)
    rw [hkept, List.take_append_of_le_length hopens.1.le]

/-- A new pair does not reach the text in front of the brackets that were open before it. -/
theorem Stacked.pair {start : Nat} (h : Stacked pairs cs outer opens)
    (hopens : ∀ other ∈ opens, other < start) (stop : Nat) :
    Stacked ((start, stop) :: pairs) cs outer opens := by
  induction h with
  | nil => exact .nil
  | cons hkept _ ih =>
    rw [List.forall_mem_cons] at hopens
    refine .cons ?_ (ih hopens.2)
    rw [hkept]
    refine uncovered_congr fun position hlt => ?_
    rw [List.length_take] at hlt
    exact (covers_cons_of_lt (by omega) stop).symm

theorem Pairing.text_open (pairing : Pairing) : (pairing.step '<').text = pairing.text ++ ['<'] := by
  simp [step_open, Pairing.text]

theorem Follows.step (h : Follows cs pairing matching) (hplaced : Placed cs matching) (c : Char) :
    Follows (cs ++ [c]) (pairing.step c) (matching.step (c, cs.length)) := by
  have hlast : covers matching.pairs cs.length = false := covers_eq_false hplaced.closed
  have hstacked := h.stacked.concat hplaced.lt_length c
  by_cases hopen : c = '<'
  · subst hopen
    refine ⟨?_, .cons ?_ hstacked⟩
    · rw [Pairing.text_open, h.text]
      exact (uncovered_concat hlast '<').symm
    · rw [List.take_left]
      exact h.text
  by_cases hclose : c = '>'
  · subst hclose
    obtain ⟨outer, kept⟩ := pairing
    obtain ⟨opens, pairs⟩ := matching
    cases hstacked with
    | nil =>
      refine ⟨?_, .nil⟩
      show Pairing.text ⟨[], kept ++ ['>']⟩ = uncovered pairs (cs ++ ['>'])
      rw [uncovered_concat hlast, ← h.text]
      simp [Pairing.text]
    | @cons before outer start opens hkept rest =>
      have hstart : start ≤ cs.length := (hplaced.lt_length start List.mem_cons_self).le
      refine ⟨?_, rest.pair (List.pairwise_cons.1 hplaced.descending).1 cs.length⟩
      show Pairing.text ⟨outer, before⟩ = uncovered ((start, cs.length) :: pairs) (cs ++ ['>'])
      rw [uncovered_pair hstart, hkept, List.take_append_of_le_length hstart]
  · have hangle : isAngle c = false := isAngle_eq_false_iff.2 ⟨hopen, hclose⟩
    rw [step_of_not_angle hangle, step_eq_self hangle]
    refine ⟨?_, hstacked⟩
    rw [uncovered_concat hlast, ← h.text]
    simp [Pairing.text]

/-- From the empty text on, what the single pass keeps is what no pair covers. -/
theorem follows (cs : List Char) : Follows cs (cs.foldl Pairing.step {}) (Matching.ofText cs) := by
  induction cs using List.reverseRecOn with
  | nil => exact ⟨rfl, .nil⟩
  | append_singleton cs c ih =>
    rw [List.foldl_append, List.foldl_cons, List.foldl_nil, ofText_concat]
    exact ih.step (placed cs) c

theorem unpaired_eq_unmatched (cs : List Char) : unpaired cs = unmatched cs :=
  (follows cs).text

end Single

/-! ## The passes -/

section Passes

variable {cs : List Char}

theorem stripInnermost_sublist (cs : List Char) : (stripInnermost cs).Sublist cs := by
  fun_induction stripInnermost cs with
  | case1 => exact .slnil
  | case2 cs rest hdropped ih =>
    obtain ⟨inner, rfl, -⟩ := exists_of_dropWhile hdropped
    refine ih.trans (.cons _ ?_)
    exact (List.sublist_cons_self '>' rest).trans (List.sublist_append_right inner _)
  | case3 cs _ ih => exact ih.cons_cons '<'
  | case4 c cs _ ih => exact ih.cons_cons c

theorem stripInnermost_eq_self_iff : stripInnermost cs = cs ↔ (stripInnermost cs).length = cs.length :=
  ⟨congrArg List.length, (stripInnermost_sublist cs).eq_of_length⟩

theorem stripInnermost_stripGenerics (cs : List Char) :
    stripInnermost (stripGenerics cs) = stripGenerics cs := by
  fun_induction stripGenerics cs with
  | case1 cs _ ih => exact ih
  | case2 cs hle =>
    have hlength := length_stripInnermost_le cs
    exact stripInnermost_eq_self_iff.2 (by omega)

/-- The passes stop at the first one that changes nothing, after no more of them than there are characters. -/
theorem exists_iterate_of_stripGenerics (cs : List Char) : ∃ passes ≤ cs.length,
    stripGenerics cs = stripInnermost^[passes] cs ∧
      ∀ pass < passes, stripInnermost^[pass + 1] cs ≠ stripInnermost^[pass] cs := by
  fun_induction stripGenerics cs with
  | case1 cs hlt ih =>
    obtain ⟨passes, hle, heq, hchanges⟩ := ih
    refine ⟨passes + 1, by omega, heq, ?_⟩
    intro pass hpass
    cases pass with
    | zero =>
      intro hsame
      rw [Function.iterate_one, Function.iterate_zero_apply, stripInnermost_eq_self_iff] at hsame
      omega
    | succ pass => exact hchanges pass (by omega)
  | case2 cs hle =>
    exact ⟨0, Nat.zero_le _, rfl, fun pass hpass => absurd hpass (Nat.not_lt_zero pass)⟩

theorem pairwise_stripGenerics (cs : List Char) :
    (stripGenerics cs).Pairwise fun c d => ¬(c = '<' ∧ d = '>') := by
  obtain ⟨closing, opening, heq, hclosing, hopening⟩ :=
    exists_of_length_stripInnermost (congrArg List.length (stripInnermost_stripGenerics cs))
  rw [heq, List.pairwise_append]
  refine ⟨?_, ?_, ?_⟩
  · refine List.pairwise_of_forall_mem_list ?_
    rintro c hc _ - ⟨rfl, -⟩
    exact hclosing hc
  · refine List.pairwise_of_forall_mem_list ?_
    rintro _ - d hd ⟨-, rfl⟩
    exact hopening hd
  · rintro c hc _ - ⟨rfl, -⟩
    exact hclosing hc

/-- Pass after pass drops the innermost pairs of brackets until a pass changes nothing. What is left is the text
outside of all pairs that a stack matches, with the brackets that are not matched, and in it no bracket closes
behind one that opens. -/
theorem stripGenerics_matched (cs : List Char) :
    (∃ passes ≤ cs.length, stripGenerics cs = stripInnermost^[passes] cs ∧
      (∀ pass < passes, stripInnermost^[pass + 1] cs ≠ stripInnermost^[pass] cs) ∧
      stripInnermost (stripGenerics cs) = stripGenerics cs) ∧
    stripGenerics cs = unmatched cs ∧
    (∀ position c, cs[position]? = some c → isAngle c = true →
      ¬IsMatched (Matching.ofText cs).pairs position → covers (Matching.ofText cs).pairs position = false) ∧
    (stripGenerics cs).Pairwise fun c d => ¬(c = '<' ∧ d = '>') := by
  obtain ⟨passes, hle, heq, hchanges⟩ := exists_iterate_of_stripGenerics cs
  have hfixed := stripInnermost_stripGenerics cs
  have hunmatched : stripGenerics cs = unmatched cs := by
    rw [stripGenerics_eq, unpaired_eq_unmatched]
  exact ⟨⟨passes, hle, heq, hchanges, hfixed⟩, hunmatched,
    fun _ _ hc hangle => covers_of_not_matched hc hangle, pairwise_stripGenerics cs⟩

/-- The brackets at both ends are not matched. -/
example : unmatched ">a<b<c>>d<".toList = ">ad<".toList := by decide

end Passes

end CodeReview.Dependency.Java
