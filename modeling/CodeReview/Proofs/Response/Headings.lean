import CodeReview.Proofs.Json.Shape
import CodeReview.Response.Reading
import Mathlib.Data.Option.Basic

/-!
# Headings and JSON

A text with a heading of a section does not read as JSON: outside strings a `#` is no part of JSON,
and a string has no line break, so no line of a JSON text starts with `#`
(`head?_ne_of_parseChars?`).
-/

namespace CodeReview.Response

open Json Text

/-- No line but the first starts with `#`. -/
def NoHashBelow (cs : List Char) : Prop :=
  ∀ line ∈ (Chars.splitOn '\n' cs).tail, line.head? ≠ some '#'

/-- No line starts with `#`. -/
def NoHash (cs : List Char) : Prop := ∀ line ∈ Chars.splitOn '\n' cs, line.head? ≠ some '#'

section Lines

variable {c : Char} {cs rest : List Char}

theorem NoHash.below (h : NoHash cs) : NoHashBelow cs :=
  fun line hline => h line (List.mem_of_mem_tail hline)

/-- A character joins the first line, so the lines below it are the same. -/
theorem noHashBelow_cons (hc : c ≠ '\n') (h : NoHashBelow cs) : NoHashBelow (c :: cs) := by
  unfold NoHashBelow at h ⊢
  rw [Chars.splitOn_cons, if_neg (by simpa using hc)]
  obtain ⟨first, lines, heq⟩ := List.exists_cons_of_ne_nil (Chars.splitOn_ne_nil '\n' cs)
  rw [heq] at h ⊢
  exact h

theorem NoHashBelow.cons (h : NoHashBelow cs) (hbreak : c ≠ '\n') (hhash : c ≠ '#') :
    NoHash (c :: cs) := by
  have htail := noHashBelow_cons hbreak h
  unfold NoHashBelow at htail
  unfold NoHash
  rw [Chars.splitOn_cons, if_neg (by simpa using hbreak)] at htail ⊢
  obtain ⟨first, lines, heq⟩ := List.exists_cons_of_ne_nil (Chars.splitOn_ne_nil '\n' cs)
  rw [heq] at htail ⊢
  intro line hline
  rcases List.mem_cons.1 hline with rfl | hline
  · simpa using hhash
  · exact htail line hline

theorem NoHash.newline (h : NoHash cs) : NoHash ('\n' :: cs) := by
  unfold NoHash at h ⊢
  rw [Chars.splitOn_cons, if_pos (by rfl)]
  intro line hline
  rcases List.mem_cons.1 hline with rfl | hline
  · exact nofun
  · exact h line hline

theorem noHashBelow_inString (h : InString cs rest) (hrest : NoHashBelow rest) :
    NoHashBelow cs := by
  have hbreak {c : Char} (h : 0x20 ≤ c.toNat) : c ≠ '\n' := by
    rintro rfl
    exact absurd h (by decide)
  induction h with
  | refl => exact hrest
  | plain _ _ hcontrol _ ih => exact noHashBelow_cons (hbreak hcontrol) (ih hrest)
  | escape hcontrol _ ih =>
    exact noHashBelow_cons (by decide) (noHashBelow_cons (hbreak hcontrol) (ih hrest))

theorem noHash_balanced (h : Balanced cs rest) (hrest : NoHash rest) : NoHash cs := by
  induction h with
  | refl => exact hrest
  | @neutral c cs _ hc _ ih =>
    by_cases hbreak : c = '\n'
    · exact hbreak ▸ (ih hrest).newline
    · exact (ih hrest).below.cons hbreak hc.2.2.2
  | string hin _ ih =>
    have hmid := ((ih hrest).below.cons (c := '"') (by decide) (by decide)).below
    exact (noHashBelow_inString hin hmid).cons (by decide) (by decide)
  | braces _ _ ihin ih =>
    have hmid := (ih hrest).below.cons (c := '\x7d') (by decide) (by decide)
    exact (ihin hmid).below.cons (by decide) (by decide)

end Lines

/-- No line of a text that reads as JSON starts with `#`. -/
theorem head?_ne_of_parseChars? {text line : List Char} {v : Json} (h : parseChars? text = some v)
    (hline : line ∈ Chars.splitOn '\n' text) : line.head? ≠ some '#' :=
  noHash_balanced (balanced_of_parseChars? h) (by simp [NoHash, Chars.splitOn_nil]) line hline

namespace Markdown

theorem head?_of_heading? {line heading : List Char} (h : heading? line = some heading) :
    line.head? = some '#' := by
  unfold heading? at h
  simp only [Option.bind_eq_bind, Option.bind_eq_some_iff] at h
  obtain ⟨rest, hrest, -⟩ := h
  rw [Chars.dropPrefix?_eq_some_iff.1 hrest]
  rfl

theorem partAt_eq_nil {heading? : List Char → Option (List Char)} {lines : List (List Char)}
    (h : ∀ line ∈ lines, heading? line = none) : (partAt heading? lines).2 = [] := by
  induction lines with
  | nil => rfl
  | cons line lines ih =>
    rw [partAt, List.foldr_cons, h line List.mem_cons_self]
    exact ih fun other hother => h other (List.mem_cons_of_mem _ hother)

/-- A text that reads as a review in running text does not read as JSON. -/
theorem parseChars?_of_read? {text : List Char} {fields : Fields}
    (h : read? text = .ok (some fields)) : parseChars? text = none := by
  cases hjson : parseChars? text with
  | none => rfl
  | some v =>
    have hparts : (partAt heading? (Chars.splitOn '\n' text)).2 = [] := by
      refine partAt_eq_nil fun line hline => ?_
      cases hheading : heading? line with
      | none => rfl
      | some heading =>
        exact absurd (head?_of_heading? hheading) (head?_ne_of_parseChars? hjson hline)
    rw [read?, hparts] at h
    exact nomatch h

end Markdown

end CodeReview.Response
