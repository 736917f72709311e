import CodeReview.Proofs.Response.Headings
import CodeReview.Proofs.Response.Listing

/-!
# Drafts of reviews

A review as it is laid out in running text: sections under their headings, groups under theirs, and bullets,
each with further lines and perhaps a block of code below it (`Point`). A draft has the form that a
reader expects, apart from its code, which may be anything without a fence.

* `Point.foldl_read`: the lines of a bullet, with those of its block, are read as one bullet.
* `Point.issue_item`: its issue is the one that the text around the block describes, with the code.
* `Draft.sections_text`, `Content.pieces_chunks`: a draft comes apart as it was put together, if no line of
  code in it is taken for a heading (`Draft.IsSound`).
* `Part.sectionBreaks_iff`: a section of it cannot be read exactly if a mark of lines in it is too long.
* `Draft.exists_lists_of_isSound`: so a draft is read as a review that lists its bullets.
-/

namespace CodeReview

open Text Scan

namespace Chars

variable {part cs : List Char} {parts chunks others : List (List Char)}

/-! ## Lines below each other -/

/-- Lines, each with a line feed in front of it. -/
def below (parts : List (List Char)) : List Char := parts.flatMap ('\n' :: ·)

theorem join_cons_below (part : List Char) (parts : List (List Char)) :
    join ['\n'] (part :: parts) = part ++ below parts := by
  induction parts generalizing part with
  | nil => simp [join_singleton, below]
  | cons next parts ih =>
    rw [join_cons (by simp), ih]
    simp [below]

theorem below_append (parts others : List (List Char)) :
    below (parts ++ others) = below parts ++ below others := by
  simp [below]

theorem below_append_newline (parts : List (List Char)) (cs : List Char) :
    below parts ++ '\n' :: cs = '\n' :: (ended parts ++ cs) := by
  induction parts with
  | nil => rfl
  | cons part parts ih =>
    simp only [below, ended, List.flatMap_cons, List.cons_append, List.append_assoc] at ih ⊢
    rw [ih]
    rfl

theorem hasPart_below (hne : '\n' ∉ part) (hcs : hasPart part cs = false)
    (h : ∀ line ∈ parts, hasPart part line = false) : hasPart part (cs ++ below parts) = false := by
  induction parts generalizing cs with
  | nil => simpa [below] using hcs
  | cons line parts ih =>
    have hrest := ih (h line List.mem_cons_self) fun other hother =>
      h other (List.mem_cons_of_mem line hother)
    have happend : cs ++ below (line :: parts) = cs ++ '\n' :: (line ++ below parts) := rfl
    rw [happend, ← isSome_cut?, cut?_append hne hcs, Option.isSome_map, isSome_cut?, hrest]

/-! ## Lines of chunks -/

/-- The lines of texts below each other. -/
def linesOf (chunks : List (List Char)) : List (List Char) :=
  chunks.flatMap fun chunk => lines (chunk ++ ['\n'])

theorem linesOf_append (chunks others : List (List Char)) :
    linesOf (chunks ++ others) = linesOf chunks ++ linesOf others := by
  simp [linesOf]

theorem linesOf_of_isLine (h : ∀ chunk ∈ chunks, IsLine chunk) : linesOf chunks = chunks := by
  induction chunks with
  | nil => rfl
  | cons chunk chunks ih =>
    rw [linesOf, List.flatMap_cons, lines_line (h chunk List.mem_cons_self), ← linesOf,
      ih fun other hother => h other (List.mem_cons_of_mem chunk hother)]
    rfl

theorem lines_join_newline (h : chunks ≠ []) :
    lines (join ['\n'] chunks ++ ['\n']) = linesOf chunks := by
  induction chunks with
  | nil => exact absurd rfl h
  | cons chunk chunks ih =>
    by_cases hchunks : chunks = []
    · simp [hchunks, join_singleton, linesOf]
    · rw [join_cons hchunks, List.append_assoc, List.append_assoc, List.singleton_append,
        lines_newline_append, ih hchunks]
      rfl

theorem join_chunks (chunks : List (List Char)) :
    join ['\n'] (chunks.flatMap (splitOn '\n')) = join ['\n'] chunks := by
  by_cases hne : chunks = []
  · rw [hne]
    rfl
  · exact join_flatMap_splitOn '\n' hne

theorem linesOf_splitOn (cs : List Char) : linesOf (splitOn '\n' cs) = lines (cs ++ ['\n']) := by
  rw [← lines_join_newline (splitOn_ne_nil '\n' cs), join_splitOn]

theorem linesOf_flatMap_splitOn (chunks : List (List Char)) :
    linesOf (chunks.flatMap (splitOn '\n')) = linesOf chunks := by
  rw [linesOf, List.flatMap_assoc]
  exact List.flatMap_congr fun chunk _ => linesOf_splitOn chunk

end Chars

namespace Response.Markdown

/-! ## Headings -/

section Headings

variable {line heading path : List Char}

theorem exists_of_fileHeading? (h : fileHeading? line = some path) :
    ∃ c rest, line = '#' :: '#' :: '#' :: c :: rest := by
  unfold fileHeading? at h
  split at h
  · next c rest hword => exact ⟨c, rest, Chars.dropPrefix?_eq_some_iff.1 hword⟩
  · exact nomatch h

theorem headings_eq_none (h : line.head? ≠ some '#') : heading? line = none ∧ fileHeading? line = none := by
  constructor
  · by_contra hsome
    obtain ⟨heading, hheading⟩ := Option.ne_none_iff_exists'.1 hsome
    exact h (head?_of_heading? hheading)
  · by_contra hsome
    obtain ⟨path, hpath⟩ := Option.ne_none_iff_exists'.1 hsome
    obtain ⟨c, rest, rfl⟩ := exists_of_fileHeading? hpath
    exact h rfl

/-- The heading of a file is not one of a section. -/
theorem heading?_of_fileHeading? (h : fileHeading? line = some path) : heading? line = none := by
  obtain ⟨c, rest, rfl⟩ := exists_of_fileHeading? h
  rfl

end Headings

/-! ## Bullets with blocks -/

/-- A line that goes on with the text above it. -/
structure IsProse (line : List Char) : Prop extends Bullet.IsPlain line where
  isLine : Chars.IsLine line
  noFile : fileHeading? line = none
  noSection : heading? line = none

/-- A block of code: the word behind the fence above it, and the code with the ends of its lines. -/
structure Block where
  tag : List Char
  code : List Char
  isTag : ∀ c ∈ tag, Bullet.isTagChar c = true
  noFence : Chars.hasPart fence code = false
  endsLine : Chars.EndsLine code

theorem isProse_nil : ∀ line ∈ ([] : List (List Char)), IsProse line := List.forall_mem_nil _

theorem noSection_nil : ∀ line ∈ ([] : List (List Char)), '\n' ∉ line ∧ heading? line = none :=
  List.forall_mem_nil _

theorem IsProse.heading?_splitOn {line : List Char} (h : IsProse line) :
    ∀ part ∈ Chars.splitOn '\n' line, heading? part = none := by
  rw [h.isLine.splitOn]
  simpa using h.noSection

theorem isLine_fence : Chars.IsLine fence := by decide

theorem isLineEnd_of_isTagChar {c : Char} (h : Bullet.isTagChar c = true) : isLineEnd c = false := by
  by_contra hend
  have hends : ∀ n ∈ [10, 11, 12, 13, 28, 29, 30, 0x85, 0x2028, 0x2029],
      Bullet.isTagChar (Char.ofNat n) = false := by decide +kernel
  have hmem : c.toNat ∈ [10, 11, 12, 13, 28, 29, 30, 0x85, 0x2028, 0x2029] := by
    simp only [isLineEnd, Bool.not_eq_false, Bool.or_eq_true, Bool.and_eq_true, decide_eq_true_eq,
      beq_iff_eq] at hend
    simp only [List.mem_cons, List.not_mem_nil, or_false]
    omega
  have hnot := hends c.toNat hmem
  rw [Char.ofNat_toNat, h] at hnot
  exact nomatch hnot

namespace Block

variable (block : Block)

/-- The block as it is laid out. -/
def chunks : List (List Char) := [fence ++ block.tag, block.code ++ fence]

/-- The lines of the code, without the empty ones at its end. -/
def snippet : List Char := Chars.trimEnd (· == '\n') (Chars.join ['\n'] (Chars.lines block.code))

/-- No line of code is taken for the heading of a section or of a file. -/
structure IsSound : Prop where
  noSection : ∀ line ∈ Chars.splitOn '\n' (block.code ++ fence), heading? line = none
  noFile : ∀ line ∈ Chars.lines block.code, fileHeading? line = none

theorem isLine_open : Chars.IsLine (fence ++ block.tag) := by
  intro c hc
  obtain hc | hc := List.mem_append.1 hc
  · exact isLine_fence c hc
  · exact isLineEnd_of_isTagChar (block.isTag c hc)

theorem head?_open : (fence ++ block.tag).head? ≠ some '#' := by simp [fence]

/-- The lines of the block. -/
def lines : List (List Char) := (fence ++ block.tag) :: (Chars.lines block.code ++ [fence])

theorem lines_code : Chars.lines (block.code ++ fence ++ ['\n']) = Chars.lines block.code ++ [fence] := by
  have hclose : Chars.lines (fence ++ ['\n']) = [fence] := rfl
  rw [List.append_assoc, Chars.lines_append block.endsLine (.inr (by decide)), hclose]

theorem linesOf_chunks : Chars.linesOf block.chunks = block.lines := by
  rw [chunks, Chars.linesOf, List.flatMap_cons, List.flatMap_cons, List.flatMap_nil,
    Chars.lines_line block.isLine_open, List.append_nil, lines_code]
  rfl

theorem noFence_of_mem_lines {line : List Char} (h : line ∈ Chars.lines block.code) :
    Chars.hasPart fence line = false :=
  Chars.hasPart_of_infix block.noFence (Chars.infix_of_mem_lines h)

end Block

/-- A bullet: the line on which it starts and the text there, lines that go on with it, perhaps a block of
code, and the lines behind that. -/
structure Point where
  first : List Char
  text : List Char
  more : List (List Char) := []
  block : Option Block := none
  rest : List (List Char) := []
  starts : Bullet.text? first = some text
  ne_nil : text ≠ []
  isLine : Chars.IsLine first
  noFence : Chars.hasPart fence first = false
  more_prose : ∀ line ∈ more, IsProse line
  rest_prose : ∀ line ∈ rest, IsProse line

/-- The lines that are not blank. -/
def kept (lines : List (List Char)) : List (List Char) := lines.filter (!Chars.isBlankText ·)

namespace Point

variable (point : Point)

/-- The bullet as it is laid out. -/
def chunks : List (List Char) :=
  point.first :: (point.more ++ (point.block.elim [] Block.chunks ++ point.rest))

/-- The text of the bullet above its block. -/
def above : List Char := point.text ++ Chars.below (kept point.more)

/-- The text of the bullet around its block. -/
def around : List Char :=
  match point.block with
  | none => Chars.trimEnd isBlank (point.above ++ Chars.below (kept point.rest))
  | some _ => point.above ++ '\n' :: Chars.trimEnd isBlank (Chars.below (kept point.rest))

/-- The issue of the bullet: what the text around its block says, with the code of the block. -/
def issue : Json := .obj <| Keyed.put (Bullet.fields point.around) Bullet.codeKey <|
  .ofText? (point.block.map fun block => String.ofList block.snippet)

/-- No line of code is taken for a heading. -/
def IsSound : Prop := ∀ block ∈ point.block, block.IsSound

/-- The lines of the bullet that count. -/
def lines : List (List Char) :=
  point.text :: (kept point.more ++ (point.block.elim [] Block.lines ++ kept point.rest))

/-- The bullet as it is read. -/
def item : List Char := Chars.trim (Chars.join ['\n'] point.lines)

theorem linesOf_chunks : Chars.linesOf point.chunks =
    point.first :: (point.more ++ (point.block.elim [] Block.lines ++ point.rest)) := by
  have hlines : Chars.linesOf (point.block.elim [] Block.chunks) = point.block.elim [] Block.lines := by
    cases point.block with
    | none => rfl
    | some block => exact block.linesOf_chunks
  have hfirst : Chars.linesOf (point.first :: (point.more ++ (point.block.elim [] Block.chunks ++ point.rest))) =
      Chars.linesOf [point.first] ++ Chars.linesOf (point.more ++ (point.block.elim [] Block.chunks ++ point.rest)) :=
    Chars.linesOf_append [point.first] _
  rw [chunks, hfirst, Chars.linesOf_append, Chars.linesOf_append, hlines,
    Chars.linesOf_of_isLine (by simpa using point.isLine),
    Chars.linesOf_of_isLine fun line hline => (point.more_prose line hline).isLine,
    Chars.linesOf_of_isLine fun line hline => (point.rest_prose line hline).isLine]
  rfl

/-- The lines of a bullet are read as one bullet. -/
theorem foldl_read (bullets : List (List (List Char))) :
    (Chars.linesOf point.chunks).foldl Bullet.Progress.read { bullets, inFence := false } =
      { bullets := point.lines.reverse :: bullets, inFence := false } := by
  rw [linesOf_chunks, List.foldl_cons, Bullet.Progress.read_bullet point.starts point.noFence,
    List.foldl_append, Bullet.Progress.foldl_read_plain fun line hline =>
      (point.more_prose line hline).toIsPlain, List.foldl_append]
  have hrest {last : List (List Char)} : point.rest.foldl Bullet.Progress.read
      { bullets := last :: bullets, inFence := false } =
      { bullets := ((kept point.rest).reverse ++ last) :: bullets, inFence := false } :=
    Bullet.Progress.foldl_read_plain fun line hline => (point.rest_prose line hline).toIsPlain
  unfold lines
  cases point.block with
  | none =>
    rw [Option.elim_none, List.foldl_nil, hrest]
    simp [kept]
  | some block =>
    rw [Option.elim_some, Block.lines, List.foldl_cons,
      Bullet.Progress.read_fence (List.prefix_append fence block.tag), Bool.not_false,
      List.foldl_append, Bullet.Progress.foldl_read_inside fun line hline => block.noFence_of_mem_lines hline,
      List.foldl_cons, Bullet.Progress.read_fence (List.prefix_refl fence), Bool.not_true,
      List.foldl_nil, hrest]
    simp [kept]

theorem head?_text : ∃ c, point.text.head? = some c ∧ isBlank c = false := by
  obtain ⟨c, cs, hcs⟩ := List.exists_cons_of_ne_nil point.ne_nil
  obtain ⟨-, -, line, -, -, hline⟩ := Bullet.exists_of_text? point.starts
  have hfirst := List.head?_dropWhile_not isBlank line
  rw [← blanks, ← hline, hcs] at hfirst
  exact ⟨c, by rw [hcs]; rfl, by simpa using hfirst⟩

theorem noFence_text : Chars.hasPart fence point.text = false :=
  Chars.hasPart_of_infix point.noFence (Bullet.suffix_of_text? point.starts).isInfix

theorem noFence_above : Chars.hasPart fence point.above = false :=
  Chars.hasPart_below (by decide) point.noFence_text fun line hline =>
    (point.more_prose line (List.mem_of_mem_filter hline)).noFence

theorem noFence_rest :
    Chars.hasPart fence (Chars.trimEnd isBlank (Chars.below (kept point.rest))) = false := by
  have hbelow : Chars.hasPart fence ([] ++ Chars.below (kept point.rest)) = false :=
    Chars.hasPart_below (by decide) rfl fun line hline =>
      (point.rest_prose line (List.mem_of_mem_filter hline)).noFence
  exact Chars.hasPart_of_infix hbelow Chars.trimEnd_infix

theorem trim_above (cs : List Char) :
    Chars.trim (point.above ++ cs) = Chars.trimEnd isBlank (point.above ++ cs) := by
  obtain ⟨c, hc, hblank⟩ := point.head?_text
  obtain ⟨text, htext⟩ := List.head?_eq_some_iff.1 hc
  rw [Chars.trim, Chars.trimBoth, Chars.trimStart, above, htext]
  exact congrArg _ (List.dropWhile_cons_of_neg (by simp [hblank]))

/-- The text of a bullet is the text around its block, with the block in its place. -/
theorem item_eq : point.item = match point.block with
    | none => point.around
    | some block => point.above ++ '\n' :: (fence ++ (block.tag ++ '\n' ::
        (Chars.ended (Chars.lines block.code) ++
          (fence ++ Chars.trimEnd isBlank (Chars.below (kept point.rest)))))) := by
  have hjoin : Chars.join ['\n'] point.lines = point.above ++
      (Chars.below (point.block.elim [] Block.lines) ++ Chars.below (kept point.rest)) := by
    rw [lines, Chars.join_cons_below, Chars.below_append, Chars.below_append, above, List.append_assoc]
  rw [item, hjoin, trim_above]
  unfold around
  cases point.block with
  | none => rfl
  | some block =>
    have hblock : Chars.below block.lines = '\n' :: (fence ++ (block.tag ++ '\n' ::
        (Chars.ended (Chars.lines block.code) ++ fence))) := by
      have hcode : Chars.below (Chars.lines block.code ++ [fence]) =
          '\n' :: (Chars.ended (Chars.lines block.code) ++ fence) := by
        rw [Chars.below_append, ← Chars.below_append_newline]
        simp [Chars.below]
      rw [← List.append_assoc fence, ← hcode]
      rfl
    have hlast : (point.above ++ Chars.below block.lines).getLast? = some '\x60' := by
      rw [hblock]
      simp [fence, List.getLast?_cons]
    rw [Option.elim_some, ← List.append_assoc, Chars.trimEnd_append_of_getLast? hlast (by decide), hblock]
    simp

/-- A bullet is read as the text around its block is, with the code. -/
theorem issue_item_eq : Bullet.issue point.item = (Bullet.issue point.around).map fun fields =>
    Keyed.put fields Bullet.codeKey (.ofText? (point.block.map fun block => String.ofList block.snippet)) := by
  have hnoFence : Chars.hasPart fence (point.above ++ Chars.below (kept point.rest)) = false :=
    Chars.hasPart_below (by decide) point.noFence_above fun line hline =>
      (point.rest_prose line (List.mem_of_mem_filter hline)).noFence
  rw [item_eq]
  unfold around
  cases point.block with
  | none =>
    dsimp only
    cases hissue : Bullet.issue (Chars.trimEnd isBlank (point.above ++ Chars.below (kept point.rest))) with
    | error failure => rfl
    | ok fields =>
      exact congrArg _ (Bullet.put_codeKey_of_issue (Chars.hasPart_of_infix hnoFence
        Chars.trimEnd_infix) hissue).symm
  | some block =>
    dsimp only
    rw [Bullet.issue_of_block point.noFence_above block.isTag
      (fun line hline => block.noFence_of_mem_lines hline) point.noFence_rest, Chars.trimEnd_newline_join]
    rfl

/-- The issue of a bullet is the one that the text around its block describes, with the code. -/
theorem issue_item (h : ¬ Bullet.HasLongMark point.around) :
    ∃ fields, Bullet.issue point.item = .ok fields ∧ point.issue = .obj fields := by
  obtain ⟨fields, hfields⟩ := Bullet.succeeds_issue_iff.2 h
  refine ⟨_, by rw [issue_item_eq, hfields]; rfl, ?_⟩
  rw [issue, ← fields_of_issue hfields]

theorem hasLongMark_item : Bullet.HasLongMark point.item ↔ Bullet.HasLongMark point.around := by
  rw [← not_iff_not, ← Bullet.succeeds_issue_iff, ← Bullet.succeeds_issue_iff, issue_item_eq]
  exact Succeeds.bind_pure_iff _

theorem trim_text_ne_nil (cs : List Char) : Chars.trim (point.text ++ cs) ≠ [] := by
  intro hnil
  obtain ⟨c, hc, hblank⟩ := point.head?_text
  have hall := Chars.trim_eq_nil_iff.1 hnil
  rw [Chars.isBlankText, List.all_eq_true] at hall
  have hcblank := hall c (List.mem_append_left _ (List.mem_of_mem_head? hc))
  rw [hblank] at hcblank
  cases hcblank

theorem item_ne_nil : point.item ≠ [] := by
  rw [item, lines, Chars.join_cons_below]
  exact point.trim_text_ne_nil _

theorem fileHeading?_lines (h : point.IsSound) :
    ∀ line ∈ Chars.linesOf point.chunks, fileHeading? line = none := by
  rw [linesOf_chunks]
  simp only [List.forall_mem_cons, List.forall_mem_append]
  refine ⟨(headings_eq_none (Bullet.head?_of_text? point.starts)).2,
    fun line hline => (point.more_prose line hline).noFile, ?_,
    fun line hline => (point.rest_prose line hline).noFile⟩
  cases hblock : point.block with
  | none => exact nofun
  | some block =>
    simp only [Option.elim_some, Block.lines, List.forall_mem_cons, List.forall_mem_append]
    exact ⟨(headings_eq_none block.head?_open).2, (h block hblock).noFile,
      (headings_eq_none (by decide)).2, nofun⟩

theorem heading?_chunks (h : point.IsSound) :
    ∀ chunk ∈ point.chunks, ∀ line ∈ Chars.splitOn '\n' chunk, heading? line = none := by
  rw [chunks]
  simp only [List.forall_mem_cons, List.forall_mem_append]
  refine ⟨?_, fun line hline => (point.more_prose line hline).heading?_splitOn, ?_,
    fun line hline => (point.rest_prose line hline).heading?_splitOn⟩
  · rw [point.isLine.splitOn]
    simpa using (headings_eq_none (Bullet.head?_of_text? point.starts)).1
  cases hblock : point.block with
  | none => exact nofun
  | some block =>
    simp only [Option.elim_some, Block.chunks, List.forall_mem_cons]
    refine ⟨?_, (h block hblock).noSection, nofun⟩
    rw [block.isLine_open.splitOn]
    simpa using (headings_eq_none block.head?_open).1

end Point

/-! ## Sections -/

section Parts

variable {α : Type} {heading? : List Char → Option (List Char)} {lines rest : List (List Char)}

theorem partAt_append (h : ∀ line ∈ lines, heading? line = none) :
    partAt heading? (lines ++ rest) =
      (lines ++ (partAt heading? rest).1, (partAt heading? rest).2) := by
  induction lines with
  | nil => rfl
  | cons line lines ih =>
    rw [List.cons_append, partAt_cons, h line List.mem_cons_self,
      ih fun other hother => h other (List.mem_cons_of_mem line hother)]
    rfl

/-- Lines under headings come apart at the headings. -/
theorem partAt_flatMap_append {items : List α} {line name : α → List Char}
    {below : α → List (List Char)} (hline : ∀ item ∈ items, heading? (line item) = some (name item))
    (hbelow : ∀ item ∈ items, ∀ other ∈ below item, heading? other = none)
    (hrest : (partAt heading? rest).1 = []) :
    partAt heading? ((items.flatMap fun item => line item :: below item) ++ rest) =
      ([], (items.map fun item => (name item, below item)) ++ (partAt heading? rest).2) := by
  induction items with
  | nil =>
    rw [List.flatMap_nil, List.nil_append, ← hrest]
    rfl
  | cons item items ih =>
    rw [List.forall_mem_cons] at hline hbelow
    rw [List.flatMap_cons, List.cons_append, List.cons_append, List.append_assoc, partAt_cons, hline.1,
      partAt_append hbelow.1, ih hline.2 hbelow.2]
    simp

theorem partAt_flatMap {items : List α} {line name : α → List Char} {below : α → List (List Char)}
    (hline : ∀ item ∈ items, heading? (line item) = some (name item))
    (hbelow : ∀ item ∈ items, ∀ other ∈ below item, heading? other = none) :
    partAt heading? (items.flatMap fun item => line item :: below item) =
      ([], items.map fun item => (name item, below item)) := by
  have happend := @partAt_flatMap_append α heading? [] items line name below hline hbelow rfl
  rw [List.append_nil] at happend
  exact happend.trans (by simp [partAt])

end Parts

/-- Bullets under one heading, with the lines in front of them. -/
structure Run where
  front : List (List Char)
  points : List Point
  front_prose : ∀ line ∈ front, IsProse line

namespace Run

variable (run : Run)

/-- The bullets as they are laid out. -/
def chunks : List (List Char) := run.front ++ run.points.flatMap Point.chunks

/-- No line of code is taken for a heading. -/
def IsSound : Prop := ∀ point ∈ run.points, point.IsSound

theorem linesOf_chunks : Chars.linesOf run.chunks =
    run.front ++ run.points.flatMap fun point => Chars.linesOf point.chunks := by
  rw [chunks, Chars.linesOf_append, Chars.linesOf_of_isLine fun line hline =>
    (run.front_prose line hline).isLine]
  exact congrArg _ List.flatMap_assoc

theorem foldl_read_points (points : List Point) (bullets : List (List (List Char))) :
    (points.flatMap fun point => Chars.linesOf point.chunks).foldl Bullet.Progress.read
      { bullets, inFence := false } =
    { bullets := (points.map (·.lines.reverse)).reverse ++ bullets, inFence := false } := by
  induction points generalizing bullets with
  | nil => rfl
  | cons point points ih =>
    rw [List.flatMap_cons, List.foldl_append, point.foldl_read, ih]
    simp

theorem foldl_read : (Chars.linesOf run.chunks).foldl Bullet.Progress.read {} =
    { bullets := (run.points.map (·.lines.reverse)).reverse, inFence := false } := by
  rw [linesOf_chunks, List.foldl_append,
    Bullet.Progress.foldl_read_front fun line hline => (run.front_prose line hline).toIsPlain,
    foldl_read_points, List.append_nil]

/-- Each bullet is read as it is, one after the other. -/
theorem items_chunks : Bullet.items (Chars.linesOf run.chunks) = run.points.map Point.item := by
  rw [Bullet.items, foldl_read]
  simp only [List.reverse_reverse, List.map_map, Function.comp_def]
  refine List.filter_eq_self.2 fun item hitem => ?_
  obtain ⟨point, -, rfl⟩ := List.mem_map.1 hitem
  simpa [Point.item] using point.item_ne_nil

theorem headings_lines (h : run.IsSound) : ∀ line ∈ Chars.linesOf run.chunks, fileHeading? line = none := by
  intro line hline
  rw [linesOf_chunks] at hline
  obtain hline | hline := List.mem_append.1 hline
  · exact (run.front_prose line hline).noFile
  · obtain ⟨point, hpoint, hline⟩ := List.mem_flatMap.1 hline
    exact point.fileHeading?_lines (h point hpoint) line hline

theorem headings_chunks (h : run.IsSound) : ∀ chunk ∈ run.chunks, ∀ line ∈ Chars.splitOn '\n' chunk, heading? line = none := by
  intro chunk hchunk
  obtain hchunk | hchunk := List.mem_append.1 hchunk
  · exact (run.front_prose chunk hchunk).heading?_splitOn
  · obtain ⟨point, hpoint, hchunk⟩ := List.mem_flatMap.1 hchunk
    exact point.heading?_chunks (h point hpoint) chunk hchunk

end Run

/-- Bullets under the heading of a file. -/
structure Group where
  heading : List Char
  path : List Char
  run : Run
  isLine : Chars.IsLine heading
  isHeading : fileHeading? heading = some path

theorem Group.linesOf_groups (groups : List Group) :
    Chars.linesOf (groups.flatMap fun group => group.heading :: group.run.chunks) =
      groups.flatMap fun group => group.heading :: Chars.linesOf group.run.chunks := by
  rw [Chars.linesOf, List.flatMap_assoc]
  refine List.flatMap_congr fun group _ => ?_
  rw [List.flatMap_cons, Chars.lines_line group.isLine]
  rfl

/-- What stands under the heading of a section: issues, at first under no path and then group by group, or
general comments. -/
inductive Content
  | issues (category : Category) (front : Run) (groups : List Group)
  | comments (lines : List (List Char))
    (noSection : ∀ line ∈ lines, '\n' ∉ line ∧ heading? line = none)

namespace Content

/-- What the section holds. -/
def kind : Content → Section
  | issues category .. => .issues category
  | comments .. => .comments

/-- The groups of the section. -/
def runs : Content → List (String × Run)
  | issues _ front groups =>
    (generalGroup, front) :: groups.map fun group => (String.ofList group.path, group.run)
  | comments .. => []

/-- The content as it is laid out. -/
def chunks : Content → List (List Char)
  | issues _ front groups => front.chunks ++ groups.flatMap fun group => group.heading :: group.run.chunks
  | comments lines _ => lines

/-- No line of code is taken for a heading. -/
def IsSound (content : Content) : Prop := ∀ run ∈ content.runs, run.2.IsSound

/-- The issues of the section. -/
def entries : Content → List Entry
  | issues category front groups => (issues category front groups).runs.flatMap fun (group, run) =>
    run.points.map fun point => ⟨category, group, point.issue⟩
  | comments .. => []

/-- The comments of the section. -/
def remarks : Content → List String
  | issues .. => []
  | comments lines _ => commentsIn (Chars.join ['\n'] lines)

theorem bulletsIn_eq (body : List Char) : bulletsIn body = (pieces (Chars.lines body)).flatMap (·.2) := by
  rw [bulletsIn, pieces]
  simp [List.flatMap_map]

theorem items_join (chunks : List (List Char)) :
    Bullet.items (Chars.lines (Chars.join ['\n'] chunks)) = Bullet.items (Chars.linesOf chunks) := by
  by_cases h : chunks = []
  · rw [h]
    rfl
  · rw [← items_newline, Chars.lines_join_newline h]

theorem pieces_join (chunks : List (List Char)) :
    pieces (Chars.lines (Chars.join ['\n'] chunks)) = pieces (Chars.linesOf chunks) := by
  by_cases h : chunks = []
  · rw [h]
    rfl
  · rw [← pieces_newline, Chars.lines_join_newline h]

theorem heading?_lines {content : Content} (h : content.IsSound) :
    ∀ line ∈ content.chunks.flatMap (Chars.splitOn '\n'), heading? line = none := by
  rw [List.forall_mem_flatMap]
  cases content with
  | issues category front groups =>
    intro chunk hchunk
    obtain hchunk | hchunk := List.mem_append.1 hchunk
    · exact front.headings_chunks (h (generalGroup, front) List.mem_cons_self) chunk hchunk
    · obtain ⟨group, hgroup, hchunk⟩ := List.mem_flatMap.1 hchunk
      obtain rfl | hchunk := List.mem_cons.1 hchunk
      · rw [group.isLine.splitOn]
        simpa using heading?_of_fileHeading? group.isHeading
      · exact group.run.headings_chunks (h (String.ofList group.path, group.run)
          (List.mem_cons_of_mem _ (List.mem_map_of_mem hgroup))) chunk hchunk
  | comments lines noSection =>
    intro line hline
    rw [Chars.splitOn_of_notMem (noSection line hline).1]
    simpa using (noSection line hline).2

/-- Groups come apart as they were put together. -/
theorem pieces_chunks {category : Category} {front : Run} {groups : List Group}
    (h : (issues category front groups).IsSound) :
    pieces (Chars.linesOf (issues category front groups).chunks) =
      (issues category front groups).runs.map fun (group, run) => (group, run.points.map Point.item) := by
  have hfront := front.headings_lines (h (generalGroup, front) List.mem_cons_self)
  have hgroups : ∀ group ∈ groups, ∀ line ∈ Chars.linesOf group.run.chunks, fileHeading? line = none :=
    fun group hgroup => group.run.headings_lines
      (h (String.ofList group.path, group.run) (List.mem_cons_of_mem _ (List.mem_map_of_mem hgroup)))
  rw [chunks, Chars.linesOf_append, Group.linesOf_groups, pieces, partAt_append hfront,
    partAt_flatMap (fun group _ => group.isHeading) hgroups]
  simp [runs, Run.items_chunks]

end Content

/-- A section under its heading. -/
structure Part where
  heading : List Char
  name : List Char
  content : Content
  isLine : Chars.IsLine heading
  isHeading : heading? heading = some name
  isNamed : Section.ofHeading name = .ok content.kind

namespace Part

variable {part : Part} {name : List Char}

/-- The issues of a section, as they are read bullet by bullet. -/
theorem entriesIn_chunks {category : Category} (hnamed : Section.ofHeading name = .ok (.issues category))
    {front : Run} {groups : List Group} (h : (Content.issues category front groups).IsSound) :
    entriesIn (name, Chars.join ['\n'] (Content.issues category front groups).chunks) =
      (Content.issues category front groups).runs.flatMap fun (group, run) =>
        run.points.map fun point => ⟨category, group, .obj (Bullet.fields point.item)⟩ := by
  unfold entriesIn
  rw [hnamed]
  dsimp only
  rw [Content.pieces_join, Content.pieces_chunks h, entriesOf, List.flatMap_map]
  exact List.flatMap_congr fun _ _ => by simp

theorem entriesIn_eq (h : part.content.IsSound)
    (hshort : ∀ run ∈ part.content.runs, ∀ point ∈ run.2.points, ¬ Bullet.HasLongMark point.around) :
    entriesIn (part.name, Chars.join ['\n'] part.content.chunks) = part.content.entries := by
  obtain ⟨heading, name, content, isLine, isHeading, isNamed⟩ := part
  cases content with
  | comments =>
    unfold entriesIn
    rw [isNamed]
    rfl
  | issues category front groups =>
    rw [entriesIn_chunks isNamed h, Content.entries]
    refine List.flatMap_congr fun ⟨group, run⟩ hrun => List.map_congr_left fun point hpoint => ?_
    obtain ⟨fields, hfields, hissue⟩ := point.issue_item (hshort (group, run) hrun point hpoint)
    rw [hissue, fields_of_issue hfields]

theorem remarksIn_eq :
    remarksIn (part.name, Chars.join ['\n'] part.content.chunks) = part.content.remarks := by
  obtain ⟨heading, name, content, isLine, isHeading, isNamed⟩ := part
  unfold remarksIn
  rw [isNamed]
  cases content <;> rfl

/-- Reading a section breaks off exactly if a mark of lines in it is too long. -/
theorem sectionBreaks_iff (h : part.content.IsSound) :
    SectionBreaks part.name (Chars.join ['\n'] part.content.chunks) ↔
      ∃ run ∈ part.content.runs, ∃ point ∈ run.2.points, Bullet.HasLongMark point.around := by
  obtain ⟨heading, name, content, isLine, isHeading, isNamed⟩ := part
  have hbullets {category : Category} {front : Run} {groups : List Group}
      (h : (Content.issues category front groups).IsSound) :
      bulletsIn (Chars.join ['\n'] (Content.issues category front groups).chunks) =
        (Content.issues category front groups).runs.flatMap fun run => run.2.points.map Point.item := by
    rw [Content.bulletsIn_eq, Content.pieces_join, Content.pieces_chunks h, List.flatMap_map]
  constructor
  · rintro (⟨hc, hbeyond⟩ | ⟨hname, hbullet, hlong⟩)
    · have hascii := (succeeds_ofHeading_iff isHeading).1 ⟨_, isNamed⟩ _ hc
      omega
    · cases content with
      | comments => exact nomatch Except.ok.inj (isNamed.symm.trans hname)
      | issues category front groups =>
        rw [hbullets h] at hbullet
        obtain ⟨run, hrun, hbullet⟩ := List.mem_flatMap.1 hbullet
        obtain ⟨point, hpoint, rfl⟩ := List.mem_map.1 hbullet
        exact ⟨run, hrun, point, hpoint, point.hasLongMark_item.1 hlong⟩
  · rintro ⟨run, hrun, point, hpoint, hlong⟩
    cases content with
    | comments => exact nomatch hrun
    | issues category front groups =>
      refine .longMark isNamed ?_ (point.hasLongMark_item.2 hlong)
      rw [hbullets h]
      exact List.mem_flatMap.2 ⟨run, hrun, List.mem_map_of_mem hpoint⟩

end Part

/-- A review that is laid out in running text. -/
structure Draft where
  front : List (List Char)
  parts : List Part
  noSection : ∀ line ∈ front, '\n' ∉ line ∧ heading? line = none

namespace Draft

variable (draft : Draft)

/-- The text of the review. -/
def text : List Char := Chars.join ['\n'] <|
  draft.front ++ draft.parts.flatMap fun part => part.heading :: part.content.chunks

/-- The bullets in the sections with issues. -/
def points : List Point :=
  draft.parts.flatMap fun part => part.content.runs.flatMap fun (_, run) => run.points

/-- The issues of the review. -/
def entries : List Entry := draft.parts.flatMap fun part => part.content.entries

/-- The general comments of the review. -/
def remarks : List String := draft.parts.flatMap fun part => part.content.remarks

/-- No line of code is taken for a heading. -/
def IsSound : Prop := ∀ point ∈ draft.points, point.IsSound

theorem isSound_iff : draft.IsSound ↔ ∀ part ∈ draft.parts, part.content.IsSound := by
  simp only [IsSound, points, List.mem_flatMap]
  constructor
  · intro h part hpart run hrun point hpoint
    exact h point ⟨part, hpart, run, hrun, hpoint⟩
  · rintro h point ⟨part, hpart, run, hrun, hpoint⟩
    exact h part hpart run hrun point hpoint

/-- The lines of a draft, as a scan for the headings of sections meets them. -/
theorem splitOn_text (hparts : draft.parts ≠ []) : Chars.splitOn '\n' draft.text = draft.front ++
    draft.parts.flatMap fun part => part.heading :: part.content.chunks.flatMap (Chars.splitOn '\n') := by
  have hne : (draft.front ++ draft.parts.flatMap fun part => part.heading :: part.content.chunks) ≠ [] := by
    obtain ⟨part, parts, hparts⟩ := List.exists_cons_of_ne_nil hparts
    simp [hparts]
  have hfront : draft.front.flatMap (Chars.splitOn '\n') = draft.front := by
    conv => rhs; rw [← List.flatMap_singleton' draft.front]
    exact List.flatMap_congr fun line hline => Chars.splitOn_of_notMem (draft.noSection line hline).1
  rw [text, Chars.splitOn_join_flatMap '\n' hne, List.flatMap_append, hfront, List.flatMap_assoc]
  refine congrArg _ (List.flatMap_congr fun part _ => ?_)
  rw [List.flatMap_cons, part.isLine.splitOn]
  rfl

theorem front_noSection : ∀ line ∈ draft.front, heading? line = none :=
  fun line hline => (draft.noSection line hline).2

/-- A draft comes apart as it was put together. -/
theorem sections_text (hparts : draft.parts ≠ []) (h : draft.IsSound) : sections draft.text =
    draft.parts.map fun part => (part.name, Chars.join ['\n'] part.content.chunks) := by
  have hnoSection : ∀ part ∈ draft.parts, ∀ line ∈ part.content.chunks.flatMap (Chars.splitOn '\n'),
      heading? line = none := fun part hpart => Content.heading?_lines (draft.isSound_iff.1 h part hpart)
  rw [sections, draft.splitOn_text hparts, partAt_append draft.front_noSection,
    partAt_flatMap (fun part _ => part.isHeading) hnoSection]
  simp [Chars.join_chunks]

/-- A draft is read as a review that lists its bullets, if no line of code is taken for a heading. -/
theorem exists_lists_of_isSound (hparts : draft.parts ≠ []) (h : draft.IsSound)
    (hmarks : ∀ point ∈ draft.points, ¬ Bullet.HasLongMark point.around) : ∃ review : Review,
    read? draft.text = .ok (some review.fields) ∧ review.Lists draft.entries draft.remarks := by
  have hsections := draft.sections_text hparts h
  have hsound := draft.isSound_iff.1 h
  have hshort (part : Part) (hpart : part ∈ draft.parts) : ∀ run ∈ part.content.runs,
      ∀ point ∈ run.2.points, ¬ Bullet.HasLongMark point.around := fun run hrun point hpoint =>
    hmarks point (List.mem_flatMap.2 ⟨part, hpart, List.mem_flatMap.2 ⟨run, hrun, hpoint⟩⟩)
  have hbreaks : ∀ found ∈ sections draft.text, ¬ SectionBreaks found.1 found.2 := by
    rw [hsections]
    intro found hfound
    obtain ⟨part, hpart, rfl⟩ := List.mem_map.1 hfound
    rw [Part.sectionBreaks_iff (hsound part hpart)]
    rintro ⟨run, hrun, point, hpoint, hlong⟩
    exact hshort part hpart run hrun point hpoint hlong
  have hentries : (sections draft.text).flatMap entriesIn = draft.entries := by
    rw [hsections, List.flatMap_map]
    exact List.flatMap_congr fun part hpart => part.entriesIn_eq (hsound part hpart) (hshort part hpart)
  have hremarks : (sections draft.text).flatMap remarksIn = draft.remarks := by
    rw [hsections, List.flatMap_map]
    exact List.flatMap_congr fun part _ => part.remarksIn_eq
  rw [← hentries, ← hremarks]
  exact exists_lists_of_read? (by rw [hsections]; simpa using hparts) hbreaks

end Draft

end Response.Markdown

end CodeReview
