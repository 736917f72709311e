import CodeReview.Proofs.Response.Spans
import Mathlib.Order.Bounds.Basic

/-!
# Where the spans of a text stand

The depth of a text is the number of its opening braces less that of its closing ones. What stands
between quotes does not count (`depth`).

* `closing?_eq_some_iff`: an opening brace is closed where the depth, counted from it, is zero for the
  first time.
* `Covers`: places that do not overlap, and that reach every brace which is closed.
* `longestFirst_covers`: the spans of a text stand in such places, and come by length and then by place.
-/

namespace CodeReview.Response.Braces

/-! ## Depth -/

/-- Where a scan stands behind a character. -/
def Mode.next : Mode → Char → Mode
  | .plain, c => if c = '"' then .quoted else .plain
  | .quoted, c => if c = '\\' then .escaped else if c = '"' then .plain else .quoted
  | .escaped, _ => .quoted

/-- How much deeper a character leads: braces count outside of quotes only. -/
def Mode.rise : Mode → Char → Int
  | .plain, c => if c = '\x7b' then 1 else if c = '\x7d' then -1 else 0
  | .quoted, _ => 0
  | .escaped, _ => 0

/-- How much deeper a text leads. -/
def depthFrom : Mode → List Char → Int
  | _, [] => 0
  | mode, c :: cs => mode.rise c + depthFrom (mode.next c) cs

/-- The depth at the end of a text that starts outside of quotes. -/
def depth (cs : List Char) : Int := depthFrom .plain cs

section Depth

variable {mode : Mode} {level : Nat} {cs rest : List Char}

/-- One step of a scan: it ends where it comes out of the outermost brace. -/
theorem afterClosingFrom?_cons {next : Nat} {c : Char} (hlevel : 0 < level)
    (hnext : (next : Int) = level + mode.rise c) :
    afterClosingFrom? mode level (c :: cs) =
      if next = 0 then some cs else afterClosingFrom? (mode.next c) next cs := by
  cases mode with
  | plain =>
    rw [afterClosingFrom?, Mode.next]
    simp only [Mode.rise, beq_iff_eq] at hnext ⊢
    split at hnext
    · next hopen =>
      obtain rfl : next = level + 1 := by omega
      simp [hopen]
    · next hopen =>
      split at hnext
      · next hclose =>
        obtain rfl : next = level - 1 := by omega
        have hzero : level - 1 = 0 ↔ level ≤ 1 := by omega
        simp [hclose, hzero]
      · next hclose =>
        obtain rfl : next = level := by omega
        rw [if_neg hopen, if_neg hclose, if_neg hlevel.ne']
        split <;> rfl
  | quoted =>
    obtain rfl : next = level := Int.ofNat_inj.1 (by simpa [Mode.rise] using hnext)
    rw [afterClosingFrom?, Mode.next, if_neg hlevel.ne']
    simp only [beq_iff_eq]
    split
    · rfl
    · split <;> rfl
  | escaped =>
    obtain rfl : next = level := Int.ofNat_inj.1 (by simpa [Mode.rise] using hnext)
    rw [afterClosingFrom?, Mode.next, if_neg hlevel.ne']

theorem Mode.neg_one_le_rise (mode : Mode) (c : Char) : -1 ≤ mode.rise c := by
  cases mode with
  | plain => rw [rise]; split <;> [decide; (split <;> decide)]
  | quoted => rw [rise]; decide
  | escaped => rw [rise]; decide

theorem isLeast_succ_iff {p : Nat → Prop} (h : ¬ p 0) {n : Nat} :
    IsLeast {n | p n} (n + 1) ↔ IsLeast {n | p (n + 1)} n := by
  refine and_congr_right fun _ => ⟨fun hle m hm => Nat.le_of_succ_le_succ (hle hm), fun hle m hm => ?_⟩
  cases m with
  | zero => exact absurd hm h
  | succ m => exact Nat.succ_le_succ (hle hm)

/-- A scan leaves what stands behind the shortest text that leads out of all braces. -/
theorem afterClosingFrom?_eq_some_iff (h : 0 < level) :
    afterClosingFrom? mode level cs = some rest ↔
      ∃ n, IsLeast {n | level + depthFrom mode (cs.take n) = 0} n ∧ rest = cs.drop n := by
  induction cs generalizing mode level with
  | nil =>
    have hnone : afterClosingFrom? mode level [] = none := by cases mode <;> rfl
    rw [hnone]
    refine ⟨nofun, fun ⟨n, hleast, _⟩ => ?_⟩
    have hzero := hleast.1
    simp only [List.take_nil, depthFrom, Set.mem_ofPred_eq] at hzero
    omega
  | cons c cs ih =>
    obtain ⟨next, hnext⟩ : ∃ next : Nat, (next : Int) = level + mode.rise c := by
      have := mode.neg_one_le_rise c
      exact ⟨(level + mode.rise c).toNat, by omega⟩
    have hsucc (n : Nat) : level + depthFrom mode ((c :: cs).take (n + 1)) =
        next + depthFrom (mode.next c) (cs.take n) := by
      rw [List.take_succ_cons, depthFrom, hnext, Int.add_assoc]
    have hfirst : ¬ level + depthFrom mode ((c :: cs).take 0) = 0 := by
      simp only [List.take_zero, depthFrom]
      omega
    calc afterClosingFrom? mode level (c :: cs) = some rest
        ↔ ∃ n, IsLeast {n | next + depthFrom (mode.next c) (cs.take n) = 0} n ∧ rest = cs.drop n := by
          rw [afterClosingFrom?_cons h hnext]
          split
          · next hzero =>
            have hleast : IsLeast {n | next + depthFrom (mode.next c) (cs.take n) = 0} 0 :=
              ⟨by simp [hzero, depthFrom], fun n _ => Nat.zero_le n⟩
            refine ⟨fun heq => ⟨0, hleast, (Option.some.inj heq).symm⟩, fun ⟨n, hn, hrest⟩ => ?_⟩
            rw [hrest, hn.unique hleast, List.drop_zero]
          · next hzero => exact ih (Nat.pos_of_ne_zero hzero)
      _ ↔ ∃ n, IsLeast {n | level + depthFrom mode ((c :: cs).take n) = 0} n ∧
            rest = (c :: cs).drop n := by
          have hiff := @isLeast_succ_iff (fun n => level + depthFrom mode ((c :: cs).take n) = 0) hfirst
          simp only [hsucc] at hiff
          refine ⟨fun ⟨n, hn, hrest⟩ => ⟨n + 1, hiff.2 hn, hrest⟩, fun ⟨n, hn, hrest⟩ => ?_⟩
          cases n with
          | zero => exact absurd hn.1 hfirst
          | succ n => exact ⟨n, hiff.1 hn, hrest⟩

end Depth

/-! ## Places -/

variable {text : List Char}

/-- The places from `first` on with which the depth, counted from `first`, is zero. -/
def zeros (text : List Char) (first : Nat) : Set Nat :=
  {last | first ≤ last ∧ last < text.length ∧ depth (text.extract first (last + 1)) = 0}

section Closing

variable {first last : Nat} (hopen : text[first]? = some '\x7b')

include hopen

theorem drop_of_open : text.drop first = '\x7b' :: text.drop (first + 1) := by
  obtain ⟨hlt, hchar⟩ := List.getElem?_eq_some_iff.1 hopen
  rw [List.drop_eq_getElem_cons hlt, hchar]

theorem afterClosing?_of_open :
    afterClosing? (text.drop first) = afterClosingFrom? .plain 1 (text.drop (first + 1)) := by
  rw [drop_of_open hopen, afterClosing?, afterClosingFrom?, if_neg (by decide), if_pos (by rfl)]

/-- The depth behind an opening brace is that of the text behind it and one more. -/
theorem add_mem_zeros_iff {n : Nat} : first + n ∈ zeros text first ↔
    n ≤ text.length - (first + 1) ∧ (1 : Nat) + depthFrom .plain ((text.drop (first + 1)).take n) = 0 := by
  have hlt := (List.getElem?_eq_some_iff.1 hopen).1
  have hdepth : depth (text.extract first (first + n + 1)) =
      (1 : Nat) + depthFrom .plain ((text.drop (first + 1)).take n) := by
    rw [List.extract_eq_take_drop, drop_of_open hopen, show first + n + 1 - first = n + 1 by omega,
      List.take_succ_cons, depth, depthFrom]
    rfl
  rw [zeros, Set.mem_ofPred_eq, hdepth]
  exact ⟨fun ⟨_, h, hzero⟩ => ⟨by omega, hzero⟩, fun ⟨h, hzero⟩ => ⟨by omega, by omega, hzero⟩⟩

theorem isLeast_zeros_iff : IsLeast (zeros text first) last ↔ ∃ n,
    IsLeast {n | (1 : Nat) + depthFrom .plain ((text.drop (first + 1)).take n) = 0} n ∧
      n ≤ text.length - (first + 1) ∧ last = first + n := by
  constructor
  · rintro ⟨hzero, hleast⟩
    obtain ⟨n, rfl⟩ := Nat.exists_eq_add_of_le hzero.1
    obtain ⟨hn, hmem⟩ := (add_mem_zeros_iff hopen).1 hzero
    refine ⟨n, ⟨hmem, fun m hm => ?_⟩, hn, rfl⟩
    rcases Nat.le_total m (text.length - (first + 1)) with hle | hle
    · exact Nat.le_of_add_le_add_left (hleast ((add_mem_zeros_iff hopen).2 ⟨hle, hm⟩))
    · exact hn.trans hle
  · rintro ⟨n, ⟨hmem, hleast⟩, hn, rfl⟩
    refine ⟨(add_mem_zeros_iff hopen).2 ⟨hn, hmem⟩, fun other hother => ?_⟩
    obtain ⟨m, rfl⟩ := Nat.exists_eq_add_of_le hother.1
    exact Nat.add_le_add_left (hleast ((add_mem_zeros_iff hopen).1 hother).2) first

/-- An opening brace is closed where the depth, counted from it, comes back to zero. -/
theorem closing?_eq_some_iff : closing? text first = some last ↔ IsLeast (zeros text first) last := by
  have hlt := (List.getElem?_eq_some_iff.1 hopen).1
  have hlength : (text.drop (first + 1)).length = text.length - (first + 1) := List.length_drop
  rw [closing?, Option.map_eq_some_iff, afterClosing?_of_open hopen, isLeast_zeros_iff hopen]
  simp only [afterClosingFrom?_eq_some_iff Nat.one_pos]
  constructor
  · rintro ⟨rest, ⟨n, hleast, rfl⟩, rfl⟩
    have hn : n ≤ text.length - (first + 1) := by
      by_contra hgt
      -- the whole text is no longer than its own length, which would do as well
      have hwhole : (text.drop (first + 1)).take n =
          (text.drop (first + 1)).take (text.length - (first + 1)) := by
        rw [List.take_of_length_le (by omega), List.take_of_length_le (by omega)]
      have hzero := hleast.1
      rw [Set.mem_ofPred_eq, hwhole] at hzero
      exact hgt (hleast.2 hzero)
    refine ⟨n, hleast, hn, ?_⟩
    rw [List.length_drop, hlength]
    omega
  · rintro ⟨n, hleast, hn, rfl⟩
    refine ⟨_, ⟨n, hleast, rfl⟩, ?_⟩
    rw [List.length_drop, hlength]
    omega

end Closing

/-- Places of spans from left to right that do not overlap, and that reach every opening brace which is
closed. -/
structure Covers (places : List (Span text)) : Prop where
  apart : places.Pairwise fun s t => s.last < t.first
  reaches (s : Span text) : ∃ t ∈ places, t.first ≤ s.first ∧ s.first ≤ t.last

/-- The spans found from `first` on stand apart, and they reach every span that starts there. -/
theorem exists_places_drop (first : Nat) : ∃ places : List (Span text),
    spans (text.drop first) = places.map Span.chars ∧
    places.Pairwise (fun s t => s.last < t.first) ∧ (∀ s ∈ places, first ≤ s.first) ∧
    ∀ s : Span text, first ≤ s.first → ∃ t ∈ places, t.first ≤ s.first ∧ s.first ≤ t.last := by
  induction hn : text.length - first using Nat.strongRecOn generalizing first with
  | ind n ih =>
    subst hn
    rcases Nat.lt_or_ge first text.length with hlt | hge
    · by_cases hspan : ∃ s : Span text, s.first = first
      · obtain ⟨s, rfl⟩ := hspan
        have hle := s.first_le_last
        obtain ⟨places, hspans, hapart, hstart, hreach⟩ := ih _ (by omega) (s.last + 1) rfl
        refine ⟨s :: places, by rw [spans_drop_span, hspans, List.map_cons],
          List.pairwise_cons.2 ⟨fun t ht => hstart t ht, hapart⟩, ?_, fun t ht => ?_⟩
        · rw [List.forall_mem_cons]
          exact ⟨Nat.le_refl _, fun t ht => by have := hstart t ht; omega⟩
        · rcases Nat.lt_or_ge s.last t.first with hbehind | hinside
          · obtain ⟨u, hu, hreached⟩ := hreach t hbehind
            exact ⟨u, List.mem_cons_of_mem s hu, hreached⟩
          · exact ⟨s, List.mem_cons_self, ht, hinside⟩
      · have hno : ∀ s : Span text, s.first ≠ first := fun s hs => hspan ⟨s, hs⟩
        obtain ⟨places, hspans, hapart, hstart, hreach⟩ := ih _ (by omega) (first + 1) rfl
        refine ⟨places, by rw [spans_drop_succ hlt hno, hspans], hapart,
          fun s hs => Nat.le_of_succ_le (hstart s hs), fun s hs => hreach s ?_⟩
        exact Nat.lt_of_le_of_ne hs (hno s).symm
    · refine ⟨[], by rw [List.drop_eq_nil_of_le hge, spans_nil]; rfl, List.Pairwise.nil, nofun,
        fun s hs => ?_⟩
      have := s.first_lt_length
      omega

/-- The spans of a text stand in places that do not overlap, that reach every opening brace which is
closed, and that end where the depth comes back to zero. They come by length, and those of one length
by place. -/
theorem longestFirst_covers (text : List Char) : ∃ places : List (Span text), Covers places ∧
    spans text = places.map Span.chars ∧ (longestFirst text).Perm (spans text) ∧
    (longestFirst text).Pairwise (fun s t => t.length ≤ s.length) ∧
    (∀ n, (longestFirst text).filter (·.length = n) = (spans text).filter (·.length = n)) ∧
    ∀ first last, text[first]? = some '\x7b' →
      (closing? text first = some last ↔ IsLeast (zeros text first) last) := by
  obtain ⟨places, hspans, hapart, -, hreach⟩ := @exists_places_drop text 0
  exact ⟨places, ⟨hapart, fun s => hreach s (Nat.zero_le s.first)⟩, hspans,
    List.mergeSort_perm _ _, pairwise_longestFirst text, filter_longestFirst text,
    fun first last hopen => closing?_eq_some_iff hopen⟩

end CodeReview.Response.Braces
