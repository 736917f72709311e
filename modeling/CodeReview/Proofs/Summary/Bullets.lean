import CodeReview.Summary.Bullets
import CodeReview.Proofs.Text.Lines
import CodeReview.Proofs.Text.Words

/-!
# Bullets as they are written

A `Bullet` is a comment behind a mark, broken over any number of lines, and a `Reply` is a list of bullets
with blank lines around them.

* `isPhrase_iff`: what can be written as a bullet is any line that is trimmed and not empty.
* `comments_bullet`: a bullet is read as its comment, up to the white space behind it.
* `parse_text`: reading a reply gives the comments of its bullets.
-/

namespace CodeReview

open Text Chars

namespace Bullets

/-! ## Layout -/

/-- A comment or a part of one: a line that is trimmed and not empty. -/
structure IsPhrase (cs : List Char) : Prop where
  ne_nil : cs ≠ []
  isLine : IsLine cs
  trimmed : trim cs = cs

/-- White space within a line. -/
structure IsGap (cs : List Char) : Prop where
  isBlank : ∀ c ∈ cs, isBlank c = true
  isLine : IsLine cs

/-- One line end with white space around it. -/
inductive IsBreak : List Char → Prop
  | single {before after : List Char} {c : Char} (hbefore : IsGap before) (hend : isLineEnd c = true)
    (hafter : IsGap after) : IsBreak (before ++ c :: after)
  | pair {before after : List Char} (hbefore : IsGap before) (hafter : IsGap after) :
    IsBreak (before ++ '\r' :: '\n' :: after)

/-- A further line of a bullet, with the break in front of it. It must not look like a bullet. -/
structure FurtherLine where
  lineBreak : List Char
  phrase : List Char
  isBreak : IsBreak lineBreak
  isPhrase : IsPhrase phrase
  unmarked : ∀ c, phrase.head? = some c → isMark c = false

/-- A comment behind a mark; where there is a space in it, the line may be broken. -/
structure Bullet where
  mark : Char
  gap : List Char
  first : List Char
  further : List FurtherLine
  isMark : isMark mark = true
  isGap : IsGap gap
  isPhrase : IsPhrase first

namespace Bullet

def phrases (bullet : Bullet) : List (List Char) := bullet.first :: bullet.further.map (·.phrase)

def comment (bullet : Bullet) : List Char := join [' '] bullet.phrases

def text (bullet : Bullet) : List Char :=
  bullet.mark :: bullet.gap ++ bullet.first ++ bullet.further.flatMap fun line => line.lineBreak ++ line.phrase

end Bullet

/-- Bullets below each other, with blank lines in front, between and behind. -/
structure Reply where
  front : List Char
  /-- Each bullet with the white space behind it. -/
  bullets : List (Bullet × List Char)
  isBlank_front : ∀ c ∈ front, isBlank c = true
  isBlank_behind : ∀ bullet ∈ bullets, ∀ c ∈ bullet.2, isBlank c = true
  /-- Each bullet starts a line of its own. -/
  ends : ∀ bullet ∈ bullets.dropLast, ∃ c ∈ bullet.2, isLineEnd c = true

namespace Reply

def text (reply : Reply) : List Char :=
  reply.front ++ reply.bullets.flatMap fun bullet => bullet.1.text ++ bullet.2

def comments (reply : Reply) : List String := reply.bullets.map fun bullet => String.ofList bullet.1.comment

end Reply

/-! ## Phrases -/

section Phrases

variable {cs before rest : List Char} {phrases : List (List Char)}

theorem IsPhrase.join (hne : phrases ≠ []) (h : ∀ phrase ∈ phrases, IsPhrase phrase) :
    IsPhrase (Chars.join [' '] phrases) := by
  induction phrases with
  | nil => exact absurd rfl hne
  | cons phrase phrases ih =>
    have hfirst := h phrase List.mem_cons_self
    by_cases hrest : phrases = []
    · rwa [hrest, join_singleton]
    · obtain ⟨hjoin, hline, htrimmed⟩ :=
        ih hrest fun other hother => h other (List.mem_cons_of_mem _ hother)
      obtain ⟨c, hc⟩ := Option.ne_none_iff_exists'.1 (mt List.head?_eq_none_iff.1 hfirst.ne_nil)
      rw [join_cons hrest]
      refine ⟨by simp, fun d hd => ?_, ?_⟩
      · rcases List.mem_append.1 hd with hd | hd
        · rcases List.mem_append.1 hd with hd | hd
          · exact hfirst.isLine d hd
          · obtain rfl := List.mem_singleton.1 hd
            decide
        · exact hline d hd
      · refine trim_append_of_head? ?_ (ends_of_trim hfirst.trimmed (.inl hc)) hjoin htrimmed
        rw [List.head?_append, hc, Option.some_or]

theorem Bullet.isPhrase_of_mem (bullet : Bullet) : ∀ phrase ∈ bullet.phrases, IsPhrase phrase := by
  intro phrase hphrase
  rcases List.mem_cons.1 hphrase with rfl | hphrase
  · exact bullet.isPhrase
  · obtain ⟨line, -, rfl⟩ := List.mem_map.1 hphrase
    exact line.isPhrase

/-- What can be written as a bullet. -/
theorem isPhrase_iff : IsPhrase cs ↔ ∃ bullet : Bullet, bullet.comment = cs := by
  constructor
  · intro h
    exact ⟨⟨'-', [' '], cs, [], rfl, ⟨by decide, by decide⟩, h⟩, join_singleton _ _⟩
  · rintro ⟨bullet, rfl⟩
    exact .join (List.cons_ne_nil _ _) bullet.isPhrase_of_mem

end Phrases

/-! ## Lines of a reply -/

/-- The lines that are read. -/
def trimmedLines (cs : List Char) : List (List Char) := (lines cs).map trim

section Lines

variable {c : Char} {cs line gap sep rest : List Char}

theorem IsPhrase.trim_append (h : IsPhrase line) (hgap : ∀ c ∈ gap, isBlank c = true) :
    trim (line ++ gap) = line := by
  rw [← List.nil_append line, Chars.trim_append (by simp) hgap, h.trimmed, List.nil_append]

/-- White space in front of a line does not count. -/
theorem trimmedLines_cons (hblank : isBlank c = true) (hend : isLineEnd c = false) (hne : cs ≠ []) :
    trimmedLines (c :: cs) = trimmedLines cs := by
  obtain ⟨part, parts, hparts⟩ := List.exists_cons_of_ne_nil (lines_ne_nil hne)
  have htrim : trim (c :: part) = trim part := by
    simpa using @Chars.trim_append part [c] [] (by simpa using hblank) (by simp)
  rw [trimmedLines, trimmedLines, lines_cons, lineStep_of_not_end hend, hparts, joinFirst, List.map_cons,
    htrim, List.map_cons]

theorem trimmedLines_append_of_isGap (hgap : IsGap gap) (hne : rest ≠ []) :
    trimmedLines (gap ++ rest) = trimmedLines rest := by
  induction gap with
  | nil => rfl
  | cons c gap ih =>
    rw [List.cons_append, trimmedLines_cons (hgap.isBlank c List.mem_cons_self)
      (hgap.isLine c List.mem_cons_self) (List.append_ne_nil_of_right_ne_nil gap hne)]
    exact ih ⟨fun d hd => hgap.isBlank d (List.mem_cons_of_mem c hd),
      fun d hd => hgap.isLine d (List.mem_cons_of_mem c hd)⟩

/-- White space in front of a text adds empty lines at most. -/
theorem exists_trimmedLines_append (hblank : ∀ c ∈ sep, isBlank c = true) (cs : List Char) :
    ∃ n, trimmedLines (sep ++ cs) = List.replicate n [] ++ trimmedLines cs := by
  induction sep with
  | nil => exact ⟨0, rfl⟩
  | cons c sep ih =>
    obtain ⟨n, hn⟩ := ih fun d hd => hblank d (List.mem_cons_of_mem c hd)
    have hc := hblank c List.mem_cons_self
    rw [List.cons_append]
    by_cases hend : isLineEnd c = true
    · rw [trimmedLines, lines_cons, lineStep, if_pos hend]
      split
      · exact ⟨n, hn⟩
      · exact ⟨n + 1, by rw [List.map_cons, ← trimmedLines, hn]; rfl⟩
    · rw [Bool.not_eq_true] at hend
      by_cases hne : sep ++ cs = []
      · obtain ⟨-, rfl⟩ := List.append_eq_nil_iff.1 hne
        rw [hne, trimmedLines, lines_of_isLine (by simpa [IsLine] using hend) (by simp), List.map_singleton,
          trim_eq_nil_iff.2 (by simpa [Chars.isBlankText] using hc)]
        exact ⟨1, rfl⟩
      · rw [trimmedLines_cons hc hend hne]
        exact ⟨n, hn⟩

/-- A line and the white space behind it, as long as that ends the line. -/
theorem exists_trimmedLines_phrase (hline : IsPhrase line) (hblank : ∀ c ∈ sep, isBlank c = true)
    (hends : (∃ c ∈ sep, isLineEnd c = true) ∨ rest = []) (hrest : rest.head? ≠ some '\n') :
    ∃ n, trimmedLines (line ++ sep ++ rest) = line :: (List.replicate n [] ++ trimmedLines rest) := by
  cases hfind : sep.find? isLineEnd with
  | none =>
    have hnone : IsLine sep := fun c hc => by simpa using List.find?_eq_none.1 hfind c hc
    obtain ⟨c, hc, hend⟩ | rfl := hends
    · exact absurd (hnone c hc) (by simp [hend])
    · have hwhole : IsLine (line ++ sep) := fun c hc =>
        (List.mem_append.1 hc).elim (hline.isLine c) (hnone c)
      rw [List.append_nil, trimmedLines, lines_of_isLine hwhole (by simp [hline.ne_nil]),
        List.map_singleton, hline.trim_append hblank]
      exact ⟨0, rfl⟩
  | some c =>
    obtain ⟨hend, before, after, rfl, hbefore⟩ := List.find?_eq_some_iff_append.1 hfind
    have hwhole : IsLine (line ++ before) := fun d hd =>
      (List.mem_append.1 hd).elim (hline.isLine d) fun hd => by simpa using hbefore d hd
    have hblankBefore : ∀ d ∈ before, isBlank d = true := fun d hd => hblank d (by simp [hd])
    have hblankAfter : ∀ d ∈ after, isBlank d = true := fun d hd => hblank d (by simp [hd])
    have htext : line ++ (before ++ c :: after) ++ rest = line ++ before ++ c :: (after ++ rest) := by simp
    rw [htext, trimmedLines, lines_append_cons hwhole hend, List.map_cons, hline.trim_append hblankBefore,
      ← trimmedLines]
    -- what is left of the white space may have lost the second half of a line end
    have hafter : ∃ left, (∀ d ∈ left, isBlank d = true) ∧
        (if c == '\r' && (after ++ rest).head? == some '\n' then (after ++ rest).tail else after ++ rest) =
          left ++ rest := by
      split
      · next hpair =>
        obtain ⟨-, ds, hds⟩ := exists_of_paired hpair
        cases after with
        | nil => exact absurd (by rw [← List.nil_append rest, hds]; rfl) hrest
        | cons d after => exact ⟨after, fun d hd => hblankAfter d (List.mem_cons_of_mem _ hd), rfl⟩
      · exact ⟨after, hblankAfter, rfl⟩
    obtain ⟨left, hleft, hif⟩ := hafter
    obtain ⟨n, hn⟩ := exists_trimmedLines_append hleft rest
    exact ⟨n, by rw [hif, hn]⟩

/-- A line break ends a line and adds no other. -/
theorem trimmedLines_break {lineBreak : List Char} (hline : IsPhrase line) (hbreak : IsBreak lineBreak)
    {d : Char} (hrest : rest.head? = some d) (hd : isBlank d = false) :
    trimmedLines (line ++ lineBreak ++ rest) = line :: trimmedLines rest := by
  have hne : rest ≠ [] := by
    rintro rfl
    exact nomatch hrest
  have hwhole {before : List Char} (hbefore : IsGap before) : IsLine (line ++ before) := fun d hd =>
    (List.mem_append.1 hd).elim (hline.isLine d) (hbefore.isLine d)
  cases hbreak with
  | @single before after c hbefore hend hafter =>
    have hsingle : ¬ (c == '\r' && (after ++ rest).head? == some '\n') = true := by
      intro hpair
      obtain ⟨-, ds, hds⟩ := exists_of_paired hpair
      cases after with
      | nil =>
        rw [List.nil_append] at hds
        rw [hds, List.head?_cons, Option.some.injEq] at hrest
        exact absurd hd (by rw [← hrest]; decide)
      | cons d after =>
        obtain ⟨rfl, -⟩ := List.cons_eq_cons.1 hds
        exact absurd (hafter.isLine '\n' List.mem_cons_self) (by decide)
    have htext : line ++ (before ++ c :: after) ++ rest = line ++ before ++ c :: (after ++ rest) := by simp
    rw [htext, trimmedLines, lines_append_cons (hwhole hbefore) hend, if_neg hsingle, List.map_cons,
      hline.trim_append hbefore.isBlank, ← trimmedLines, trimmedLines_append_of_isGap hafter hne]
  | @pair before after hbefore hafter =>
    have htext : line ++ (before ++ '\r' :: '\n' :: after) ++ rest =
        line ++ before ++ '\r' :: '\n' :: (after ++ rest) := by simp
    rw [htext, trimmedLines, lines_append_cons (hwhole hbefore) (by decide), if_pos (by simp), List.map_cons,
      hline.trim_append hbefore.isBlank, List.tail_cons,
      ← trimmedLines, trimmedLines_append_of_isGap hafter hne]

/-- The lines of a phrase that goes on below. -/
theorem exists_trimmedLines_further (hline : IsPhrase line) (further : List FurtherLine)
    (hblank : ∀ c ∈ sep, isBlank c = true) (hends : (∃ c ∈ sep, isLineEnd c = true) ∨ rest = [])
    (hrest : rest.head? ≠ some '\n') :
    ∃ n, trimmedLines (line ++ further.flatMap (fun line => line.lineBreak ++ line.phrase) ++ sep ++ rest) =
      line :: (further.map (·.phrase) ++ List.replicate n [] ++ trimmedLines rest) := by
  induction further generalizing line with
  | nil => simpa using exists_trimmedLines_phrase hline hblank hends hrest
  | cons next further ih =>
    obtain ⟨n, hn⟩ := ih next.isPhrase
    obtain ⟨d, hd⟩ := Option.ne_none_iff_exists'.1 (mt List.head?_eq_none_iff.1 next.isPhrase.ne_nil)
    let below := next.phrase ++ further.flatMap (fun line => line.lineBreak ++ line.phrase) ++ sep ++ rest
    have hfirst : below.head? = some d := by simp [below, hd]
    have hbreak :=
      trimmedLines_break hline next.isBreak hfirst (ends_of_trim next.isPhrase.trimmed (.inl hd))
    refine ⟨n, ?_⟩
    rw [hn] at hbreak
    simpa [below] using hbreak

theorem not_isBlank_of_isMark (h : isMark c = true) : isBlank c = false ∧ isLineEnd c = false := by
  simp only [isMark, Bool.or_eq_true, beq_iff_eq] at h
  rcases h with (rfl | rfl) | rfl <;> decide

/-- The first line of a bullet. -/
theorem Bullet.isPhrase_line (bullet : Bullet) : IsPhrase (bullet.mark :: bullet.gap ++ bullet.first) := by
  obtain ⟨hblank, hend⟩ := not_isBlank_of_isMark bullet.isMark
  refine ⟨by simp, fun c hc => ?_, ?_⟩
  · rcases List.mem_append.1 hc with hc | hc
    · rcases List.mem_cons.1 hc with rfl | hc
      · exact hend
      · exact bullet.isGap.isLine c hc
    · exact bullet.isPhrase.isLine c hc
  · exact trim_append_of_head? rfl hblank bullet.isPhrase.ne_nil bullet.isPhrase.trimmed

end Lines

/-! ## Reading -/

section Reading

variable {current parts further lines : List (List Char)}

/-- Lines that are neither empty nor marked go on with the comment. -/
theorem comments_append (h : ∀ part ∈ parts, part ≠ [] ∧ ∀ c, part.head? = some c → isMark c = false) :
    comments current (parts ++ lines) = comments (current ++ parts) lines := by
  induction parts generalizing current with
  | nil => simp
  | cons part parts ih =>
    obtain ⟨hne, hmark⟩ := h part List.mem_cons_self
    obtain ⟨c, cs, rfl⟩ := List.exists_cons_of_ne_nil hne
    rw [List.cons_append, comments, if_neg (by simp [hmark c rfl]),
      ih fun other hother => h other (List.mem_cons_of_mem _ hother), List.append_assoc]
    rfl

theorem comments_replicate (n : Nat) (lines : List (List Char)) :
    comments [] (List.replicate n [] ++ lines) = comments [] lines := by
  induction n with
  | zero => rfl
  | succ n ih => rw [List.replicate_succ, List.cons_append, comments, ih]; rfl

/-- A comment ends at an empty line, at the next mark and at the end. -/
theorem comments_eq (h : ∀ line, lines.head? = some line →
    line = [] ∨ ∃ c cs, line = c :: cs ∧ isMark c = true) :
    comments current lines = comments.finished current ++ comments [] lines := by
  cases lines with
  | nil => simp [comments, comments.finished]
  | cons line lines =>
    obtain rfl | ⟨c, cs, rfl, hmark⟩ := h line rfl
    · simp [comments, comments.finished]
    · rw [comments, if_pos hmark, comments, if_pos hmark]
      simp [comments.finished]

/-- A text that starts in a mark has a marked line first. -/
theorem exists_head?_trimmedLines {rest : List Char} {c : Char} (hfirst : rest.head? = some c)
    (hmark : isMark c = true) : ∃ cs, (trimmedLines rest).head? = some (c :: cs) := by
  obtain ⟨more, rfl⟩ := List.head?_eq_some_iff.1 hfirst
  obtain ⟨hblank, hend⟩ := not_isBlank_of_isMark hmark
  obtain ⟨part, hpart⟩ : ∃ part, (lines (c :: more)).head? = some (c :: part) := by
    rw [lines_cons, lineStep_of_not_end hend]
    cases Chars.lines more with
    | nil => exact ⟨[], rfl⟩
    | cons part parts => exact ⟨part, rfl⟩
  have hnot {cs : List Char} (h : ∀ d ∈ cs, isBlank d = true) : c ∉ cs := fun hc => by simp [h c hc] at hblank
  obtain ⟨before, after, hcs, hbefore, hafter⟩ := exists_trim (c :: part)
  rw [trimmedLines, List.head?_map, hpart, Option.map_some]
  cases before with
  | cons d before =>
    obtain ⟨rfl, -⟩ := List.cons_eq_cons.1 hcs
    exact absurd List.mem_cons_self (hnot hbefore)
  | nil =>
    cases htrim : Chars.trim (c :: part) with
    | nil =>
      rw [htrim] at hcs
      have hmem : c ∈ [] ++ [] ++ after := hcs ▸ List.mem_cons_self
      exact absurd hmem (hnot hafter)
    | cons d ds =>
      rw [htrim] at hcs
      obtain ⟨rfl, -⟩ := List.cons_eq_cons.1 hcs
      exact ⟨ds, rfl⟩

/-- A bullet is read as its comment. -/
theorem comments_bullet (bullet : Bullet) {sep rest : List Char} (hblank : ∀ c ∈ sep, isBlank c = true)
    (hends : (∃ c ∈ sep, isLineEnd c = true) ∨ rest = [])
    (hrest : ∀ c, rest.head? = some c → isMark c = true) :
    comments [] (trimmedLines (bullet.text ++ sep ++ rest)) =
      bullet.comment :: comments [] (trimmedLines rest) := by
  obtain ⟨n, hn⟩ := exists_trimmedLines_further bullet.isPhrase_line bullet.further hblank hends
    fun hnewline => absurd (hrest _ hnewline) (by decide)
  have hgap : trim (bullet.gap ++ bullet.first) = bullet.first := by
    simpa [bullet.isPhrase.trimmed] using
      @Chars.trim_append bullet.first bullet.gap [] bullet.isGap.isBlank (by simp)
  have hfurther : ∀ part ∈ bullet.further.map (·.phrase),
      part ≠ [] ∧ ∀ c, part.head? = some c → isMark c = false := by
    intro part hpart
    obtain ⟨line, -, rfl⟩ := List.mem_map.1 hpart
    exact ⟨line.isPhrase.ne_nil, line.unmarked⟩
  have hbehind : ∀ line, (List.replicate n [] ++ trimmedLines rest).head? = some line →
      line = [] ∨ ∃ c cs, line = c :: cs ∧ isMark c = true := by
    intro line hline
    cases n with
    | succ n => exact .inl (Option.some.inj hline).symm
    | zero =>
      cases hfirst : rest.head? with
      | none =>
        rw [List.head?_eq_none_iff.1 hfirst] at hline
        exact nomatch hline
      | some c =>
        obtain ⟨cs, hcs⟩ := exists_head?_trimmedLines hfirst (hrest c hfirst)
        exact .inr ⟨c, cs, Option.some.inj (hline.symm.trans hcs), hrest c hfirst⟩
  rw [Bullet.text, hn, List.cons_append, comments, if_pos bullet.isMark, hgap, List.append_assoc,
    comments_append hfurther, comments_eq hbehind, comments_replicate]
  rfl

/-- The bullets of a reply are read one by one. -/
theorem comments_bullets {bullets : List (Bullet × List Char)}
    (hblank : ∀ bullet ∈ bullets, ∀ c ∈ bullet.2, isBlank c = true)
    (hends : ∀ bullet ∈ bullets.dropLast, ∃ c ∈ bullet.2, isLineEnd c = true) :
    comments [] (trimmedLines (bullets.flatMap fun bullet => bullet.1.text ++ bullet.2)) =
      bullets.map (·.1.comment) := by
  induction bullets with
  | nil => rfl
  | cons bullet bullets ih =>
    have hlast : ∀ other ∈ bullets.dropLast, other ∈ (bullet :: bullets).dropLast := by
      cases bullets with
      | nil => exact nofun
      | cons next bullets => exact fun other hother => List.mem_cons_of_mem bullet hother
    have hrest := ih (fun other hother => hblank other (List.mem_cons_of_mem bullet hother))
      fun other hother => hends other (hlast other hother)
    rw [List.flatMap_cons, comments_bullet bullet.1 (hblank bullet List.mem_cons_self), hrest, List.map_cons]
    · cases bullets with
      | nil => exact .inr rfl
      | cons next bullets => exact .inl (hends bullet List.mem_cons_self)
    · cases bullets with
      | nil => exact nofun
      | cons next bullets =>
        intro c hc
        obtain rfl : next.1.mark = c := Option.some.inj hc
        exact next.1.isMark

/-- Each phrase can be written as a bullet, and reading a reply gives the comments of its bullets. -/
theorem parse_text : (∀ comment, IsPhrase comment ↔ ∃ bullet : Bullet, bullet.comment = comment) ∧
    ∀ reply : Reply, parse (String.ofList reply.text) = reply.comments := by
  refine ⟨fun _ => isPhrase_iff, fun reply => ?_⟩
  obtain ⟨n, hn⟩ := exists_trimmedLines_append reply.isBlank_front
    (reply.bullets.flatMap fun bullet => bullet.1.text ++ bullet.2)
  have hcomments : ∀ cs ∈ reply.bullets.map (·.1.comment), (!cs.isEmpty) = true := by
    intro cs hcs
    obtain ⟨bullet, -, rfl⟩ := List.mem_map.1 hcs
    simpa using (isPhrase_iff.2 ⟨bullet.1, rfl⟩).ne_nil
  rw [parse, String.toList_ofList, ← trimmedLines, Reply.text, hn, comments_replicate,
    comments_bullets reply.isBlank_behind reply.ends, List.filter_eq_self.2 hcomments, List.map_map]
  rfl

/-- Only the first line of a bullet may start in a mark of its own. -/
example : parse "\n• one\r\n  two\n\n* - three" = ["one two", "- three"] := by decide

end Reading

end Bullets

end CodeReview
