import CodeReview.Text.Class

/-!
# Operations on lists of characters

Trimming, splitting and searching over `List Char`, the form in which text is scanned.
`CodeReview.Text.Basic` lifts them to `String`.

Splitting folds from the right, so each result is described by one step: a character joins the
first part of the rest, a separator starts a new part.
-/

namespace CodeReview.Chars

open Text

/-! ## Trimming -/

/-- Drops the leading characters that satisfy `p`. -/
def trimStart (p : Char → Bool) (cs : List Char) : List Char := cs.dropWhile p

/-- Drops the trailing characters that satisfy `p`. -/
def trimEnd (p : Char → Bool) (cs : List Char) : List Char := (cs.reverse.dropWhile p).reverse

/-- Drops the characters that satisfy `p` from both ends. -/
def trimBoth (p : Char → Bool) (cs : List Char) : List Char := trimEnd p (trimStart p cs)

/-- Drops white space from both ends. -/
def trim (cs : List Char) : List Char := trimBoth isBlank cs

/-- Whether there is nothing but white space. -/
def isBlankText (cs : List Char) : Bool := cs.all isBlank

/-! ## Splitting -/

/-- Puts a character before the first part. -/
def joinFirst (c : Char) : List (List Char) → List (List Char)
  | [] => [[c]]
  | part :: parts => (c :: part) :: parts

/-- The parts between separators; never empty, and one longer than the number of separators. -/
def splitOn (separator : Char) (cs : List Char) : List (List Char) :=
  cs.foldr (fun c parts => if c == separator then [] :: parts else joinFirst c parts) [[]]

/-- The text before the first `separator`, and the text after it if there is one. -/
def splitFirst (separator : Char) (cs : List Char) : List Char × Option (List Char) :=
  match cs.span (· != separator) with
  | (before, []) => (before, none)
  | (before, _ :: after) => (before, some after)

/-- The text after the last `separator`, all of it if there is none. -/
def afterLast (separator : Char) (cs : List Char) : List Char :=
  (cs.reverse.takeWhile (· != separator)).reverse

/-- The text before the last `separator`, nothing if there is none. -/
def beforeLast (separator : Char) (cs : List Char) : List Char :=
  ((cs.reverse.dropWhile (· != separator)).drop 1).reverse

/-- The maximal runs of characters that are not white space. -/
def words (cs : List Char) : List (List Char) :=
  (cs.foldr (fun c parts => if isBlank c then [] :: parts else joinFirst c parts) [[]]).filter
    (!·.isEmpty)

/-- Drops each carriage return that stands before a line feed. -/
def dropPairedReturns : List Char → List Char
  | [] => []
  | c :: cs =>
    if c == '\r' && cs.head? == some '\n' then dropPairedReturns cs else c :: dropPairedReturns cs

/-- The lines without their ends. A line end at the end of the text starts no further line. -/
def lines (cs : List Char) : List (List Char) :=
  (dropPairedReturns cs).foldr
    (fun c parts => if isLineEnd c then [] :: parts else joinFirst c parts) []

/-! ## Joining -/

/-- The parts with `separator` between each two. -/
def join (separator : List Char) (parts : List (List Char)) : List Char :=
  List.intercalate separator parts

/-- The words with one space between each two. -/
def squeeze (cs : List Char) : List Char := join [' '] (words cs)

/-! ## Splitting and joining -/

theorem joinFirst_ne_nil (c : Char) (parts : List (List Char)) : joinFirst c parts ≠ [] := by
  cases parts <;> exact List.cons_ne_nil _ _

theorem splitOn_nil (separator : Char) : splitOn separator [] = [[]] := rfl

theorem splitOn_cons (separator c : Char) (cs : List Char) :
    splitOn separator (c :: cs) =
      if c == separator then [] :: splitOn separator cs else joinFirst c (splitOn separator cs) :=
  rfl

theorem splitOn_ne_nil (separator : Char) (cs : List Char) : splitOn separator cs ≠ [] := by
  cases cs with
  | nil => exact List.cons_ne_nil _ _
  | cons c cs =>
    rw [splitOn_cons]
    split
    · exact List.cons_ne_nil _ _
    · exact joinFirst_ne_nil _ _

theorem length_joinFirst {c : Char} {parts : List (List Char)} (h : parts ≠ []) :
    (joinFirst c parts).length = parts.length := by
  obtain ⟨part, parts, rfl⟩ := List.exists_cons_of_ne_nil h
  rfl

theorem length_splitOn (separator : Char) (cs : List Char) :
    (splitOn separator cs).length = cs.count separator + 1 := by
  induction cs with
  | nil => rfl
  | cons c cs ih =>
    rw [splitOn_cons, List.count_cons]
    split
    · rw [List.length_cons, ih]
    · rw [length_joinFirst (splitOn_ne_nil separator cs), ih, Nat.add_zero]

theorem join_cons {separator part : List Char} {parts : List (List Char)} (h : parts ≠ []) :
    join separator (part :: parts) = part ++ separator ++ join separator parts := by
  obtain ⟨next, parts, rfl⟩ := List.exists_cons_of_ne_nil h
  simp [join, List.intercalate]

theorem join_joinFirst (separator : List Char) (c : Char) {parts : List (List Char)}
    (h : parts ≠ []) : join separator (joinFirst c parts) = c :: join separator parts := by
  obtain ⟨part, parts, rfl⟩ := List.exists_cons_of_ne_nil h
  cases parts with
  | nil => simp [join, joinFirst, List.intercalate]
  | cons next parts =>
    rw [joinFirst, join_cons (List.cons_ne_nil _ _), join_cons (List.cons_ne_nil _ _)]
    rfl

/-- Joining the parts of a text gives the text back. -/
theorem join_splitOn (separator : Char) (cs : List Char) :
    join [separator] (splitOn separator cs) = cs := by
  induction cs with
  | nil => rfl
  | cons c cs ih =>
    rw [splitOn_cons]
    split
    · next h => rw [join_cons (splitOn_ne_nil separator cs), ih, ← beq_iff_eq.1 h]; rfl
    · rw [join_joinFirst _ _ (splitOn_ne_nil separator cs), ih]

/-! ## Searching -/

/-- The rest after `part`, when the text starts with it. -/
def dropPrefix? : (part cs : List Char) → Option (List Char)
  | [], cs => some cs
  | _ :: _, [] => none
  | p :: part, c :: cs => if p == c then dropPrefix? part cs else none

/-- The text before the first occurrence of `part`, after the characters `seen` in reverse, and the
text after it. -/
def cutAfter? (part seen : List Char) : List Char → Option (List Char × List Char)
  | [] => if part.isEmpty then some (seen.reverse, []) else none
  | c :: cs =>
    match dropPrefix? part (c :: cs) with
    | some rest => some (seen.reverse, rest)
    | none => cutAfter? part (c :: seen) cs

/-- The text before the first occurrence of `part` and the text after it. -/
def cut? (part cs : List Char) : Option (List Char × List Char) := cutAfter? part [] cs

/-- Whether `part` occurs in the text. -/
def hasPart (part : List Char) : List Char → Bool
  | [] => part.isEmpty
  | c :: cs => (dropPrefix? part (c :: cs)).isSome || hasPart part cs

/-- Whether the text starts with one of `starts`. -/
def startsWithAny (starts : List (List Char)) (cs : List Char) : Bool :=
  starts.any (·.isPrefixOf cs)

theorem dropPrefix?_eq_some_iff {part cs rest : List Char} :
    dropPrefix? part cs = some rest ↔ cs = part ++ rest := by
  induction part generalizing cs with
  | nil => simp [dropPrefix?]
  | cons p part ih =>
    cases cs with
    | nil => simp [dropPrefix?]
    | cons c cs =>
      rw [dropPrefix?, List.cons_append, List.cons.injEq]
      split
      · next h => rw [ih, beq_iff_eq.1 h, eq_self, true_and]
      · next h =>
        refine ⟨nofun, fun heq => ?_⟩
        exact absurd (beq_iff_eq.2 heq.1.symm) h

theorem eq_of_cutAfter? {part seen cs before after : List Char}
    (h : cutAfter? part seen cs = some (before, after)) :
    seen.reverse ++ cs = before ++ part ++ after := by
  induction cs generalizing seen with
  | nil =>
    rw [cutAfter?] at h
    split at h
    · next hpart =>
      obtain ⟨rfl, rfl⟩ := Prod.mk.inj (Option.some.inj h)
      rw [List.isEmpty_iff.1 hpart, List.append_nil, List.append_nil]
    · exact nomatch h
  | cons c cs ih =>
    rw [cutAfter?] at h
    split at h
    · next rest hrest =>
      obtain ⟨rfl, rfl⟩ := Prod.mk.inj (Option.some.inj h)
      rw [dropPrefix?_eq_some_iff.1 hrest, List.append_assoc]
    · have := ih h
      rwa [List.reverse_cons, List.append_assoc, List.singleton_append] at this

/-- A cut loses nothing: the text is what stands before, the part, and what stands after. -/
theorem eq_of_cut? {part cs before after : List Char} (h : cut? part cs = some (before, after)) :
    cs = before ++ part ++ after := eq_of_cutAfter? h

theorem length_of_cut? {part cs before after : List Char} (h : cut? part cs = some (before, after)) :
    cs.length = before.length + part.length + after.length := by
  rw [eq_of_cut? h, List.length_append, List.length_append]

/-- The parts between occurrences of `separator`, taken from the left without overlap. An empty
separator splits nothing. -/
def splitOnText (separator cs : List Char) : List (List Char) :=
  match _h : cut? separator cs with
  | some (before, after) =>
    if _hsep : separator = [] then [cs]
    else before :: splitOnText separator after
  | none => [cs]
termination_by cs.length
decreasing_by
  have := length_of_cut? _h
  have : 0 < separator.length := List.length_pos_iff.2 _hsep
  omega

/-- Every occurrence of `old` replaced by `new`, from the left without overlap. -/
def replace (old new cs : List Char) : List Char := join new (splitOnText old cs)

end CodeReview.Chars
