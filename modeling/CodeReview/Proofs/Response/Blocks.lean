import CodeReview.Proofs.Response.Drafts

/-!
# Blocks of code below bullets

A reader keeps a block of code with its bullet, but it takes sections and groups apart before it looks at
fences: a line of code that reads like a heading ends the block in its middle.

* `Draft.KeepsCode`: a draft is read with one issue for each bullet, under its category and group, and with the
  code of its block.
* `Block.exists_cut`: what is left of a block above the first line that is taken for a heading. It does not
  end, and so it is no code (`Point.code_of_open`).
* `Cut.partWays`: down to the first block of that kind a section is read as it was put together, and there
  without code, so what is read lists other code than the draft (`PartWays.exists_ne`).
* `Draft.keepsCode_iff`: code is kept exactly if no line of it is taken for a heading (`Draft.IsSound`) and the
  review can be read at all.
-/

namespace CodeReview.Response.Markdown

open Scan Text

/-! ## Code by category and group -/

/-- The code of an issue. -/
def codeOf : Json → Json
  | .obj fields => (Keyed.get? fields Bullet.codeKey).getD .null
  | _ => .null

/-- The issues of a category and group. -/
def Review.issuesOf (review : Review) (category : Category) (group : String) : List Json :=
  ((review.issues.get category).get? group).getD []

/-- The code of a bullet. -/
def Point.code (point : Point) : Json := .ofText? (point.block.map fun block => String.ofList block.snippet)

/-- The bullets of a section that stand in a category and group. -/
def Content.pointsOf (content : Content) (category : Category) (group : String) : List Point :=
  if content.kind = .issues category then (content.runs.filter (·.1 = group)).flatMap (·.2.points) else []

namespace Draft

/-- The bullets of a category and group, in the order of the draft. -/
def pointsOf (draft : Draft) (category : Category) (group : String) : List Point :=
  draft.parts.flatMap fun part => part.content.pointsOf category group

/-- The draft is read, with one issue for each bullet in its place, and its code with it. -/
def KeepsCode (draft : Draft) : Prop := ∃ review : Review,
  read? draft.text = .ok (some review.fields) ∧
    ∀ category group, (review.issuesOf category group).map codeOf =
      (draft.pointsOf category group).map Point.code

end Draft

theorem codeOf_issue (point : Point) : codeOf point.issue = point.code := by
  rw [Point.issue, codeOf, Keyed.get?_put, if_pos rfl]
  rfl

theorem listed_points (category : Category) (group : String) (points : List Point) (other : Category)
    (name : String) : listed (points.map fun point => ⟨category, group, point.issue⟩) other name =
      if category = other ∧ group = name then points.map Point.issue else [] := by
  by_cases h : category = other ∧ group = name
  · simp [listed, h, List.filter_map, Function.comp_def]
  · simp only [listed, List.filter_map, Function.comp_def, h]
    simp

theorem Content.listed_entries (content : Content) (category : Category) (group : String) :
    listed content.entries category group = (content.pointsOf category group).map Point.issue := by
  cases content with
  | comments => simp [entries, pointsOf, kind, listed]
  | issues other front groups =>
    rw [entries, pointsOf, kind]
    generalize (issues other front groups).runs = runs
    induction runs with
    | nil => simp [listed]
    | cons run runs ih =>
      rw [List.flatMap_cons, listed_append, ih, listed_points, List.filter_cons]
      by_cases hcategory : other = category <;> by_cases hgroup : run.1 = group <;>
        simp [hcategory, hgroup]

theorem Draft.listed_entries (draft : Draft) (category : Category) (group : String) :
    listed draft.entries category group = (draft.pointsOf category group).map Point.issue := by
  unfold entries pointsOf
  induction draft.parts with
  | nil => rfl
  | cons part parts ih =>
    rw [List.flatMap_cons, List.flatMap_cons, listed_append, ih, part.content.listed_entries, List.map_append]

theorem Review.Lists.issuesOf_eq {review : Review} {entries : List Entry} {remarks : List String}
    (h : review.Lists entries remarks) (category : Category) (group : String) :
    review.issuesOf category group = listed entries category group :=
  (h.issues category).getD_get? group

/-- The fields of a review hold all of its issues. -/
theorem Review.issues_of_fields {review other : Review} (h : review.fields = other.fields)
    (category : Category) : review.issues.get category = other.issues.get category := by
  have hinjective : Function.Injective fun group : String × List Json => (group.1, Json.arr group.2) := by
    rintro ⟨path, issues⟩ ⟨otherPath, otherIssues⟩ h
    simpa using h
  have hfields := (List.append_inj h (by simp)).1
  have hcategory := List.map_inj_left.1 hfields category (Category.mem_all category)
  exact hinjective.list_map (Json.obj.inj (Prod.mk.inj hcategory).2)

/-! ## Places -/

/-- The category and group of each issue. -/
def places (entries : List Entry) : List (Category × String) :=
  entries.map fun entry => (entry.category, entry.group)

theorem length_listed_of_places {entries others : List Entry} (h : places entries = places others)
    (category : Category) (group : String) :
    (listed entries category group).length = (listed others category group).length := by
  have hcount (entries : List Entry) : (listed entries category group).length =
      (places entries).countP fun place => place.1 = category ∧ place.2 = group := by
    rw [listed, places, List.length_map, List.countP_map, List.countP_eq_length_filter]
    rfl
  rw [hcount, hcount, h]

/-- The issues stand in the same places up to two that differ in their code. -/
def PartWays (entries others : List Entry) : Prop :=
  ∃ (before before' after after' : List Entry) (category : Category) (group : String) (issue issue' : Json),
    entries = before ++ ⟨category, group, issue⟩ :: after ∧
    others = before' ++ ⟨category, group, issue'⟩ :: after' ∧
    places before = places before' ∧ codeOf issue ≠ codeOf issue'

namespace PartWays

variable {entries others : List Entry}

theorem intro {before before' after after' : List Entry} {category : Category} {group : String}
    {issue issue' : Json} (hplaces : places before = places before') (hcode : codeOf issue ≠ codeOf issue') :
    PartWays (before ++ ⟨category, group, issue⟩ :: after) (before' ++ ⟨category, group, issue'⟩ :: after') :=
  ⟨before, before', after, after', category, group, issue, issue', rfl, rfl, hplaces, hcode⟩

theorem append {before before' : List Entry} (hplaces : places before = places before')
    (h : PartWays entries others) (after after' : List Entry) :
    PartWays (before ++ (entries ++ after)) (before' ++ (others ++ after')) := by
  obtain ⟨inner, inner', rest, rest', category, group, issue, issue', rfl, rfl, hinner, hcode⟩ := h
  have happend (before inner rest after : List Entry) (issue : Json) :
      before ++ ((inner ++ ⟨category, group, issue⟩ :: rest) ++ after) =
        (before ++ inner) ++ ⟨category, group, issue⟩ :: (rest ++ after) := by
    simp
  rw [happend, happend]
  refine .intro ?_ hcode
  unfold places at *
  rw [List.map_append, List.map_append, hplaces, hinner]

/-- Then they differ in the code of a category and group. -/
theorem exists_ne (h : PartWays entries others) : ∃ category group,
    (listed entries category group).map codeOf ≠ (listed others category group).map codeOf := by
  obtain ⟨before, before', rest, rest', category, group, issue, issue', rfl, rfl, hplaces, hcode⟩ := h
  refine ⟨category, group, fun heq => hcode ?_⟩
  have hsplit (before rest : List Entry) (issue : Json) :
      (listed (before ++ ⟨category, group, issue⟩ :: rest) category group).map codeOf =
        (listed before category group).map codeOf ++
          codeOf issue :: (listed rest category group).map codeOf := by
    simp [listed]
  rw [hsplit, hsplit] at heq
  have hlength := length_listed_of_places hplaces category group
  exact (List.cons.inj (List.append_inj heq (by simpa using hlength)).2).1

end PartWays

/-! ## Cut blocks -/

theorem front_partAt (heading? : List Char → Option (List Char)) (lines : List (List Char)) :
    (partAt heading? lines).1 = lines.takeWhile fun line => (heading? line).isNone := by
  induction lines with
  | nil => rfl
  | cons line lines ih =>
    rw [partAt_cons, List.takeWhile_cons]
    cases heading? line with
    | none => simp [ih]
    | some heading => rfl

/-- Lines in front of the first heading, and those from there on. -/
theorem exists_front {heading? : List Char → Option (List Char)} {lines rest : List (List Char)}
    (h : (∃ line ∈ lines, heading? line ≠ none) ∨ rest = []) : ∃ front behind,
    lines ++ rest = front ++ behind ∧ front <+: lines ∧ (∀ line ∈ front, heading? line = none) ∧
      (partAt heading? behind).1 = [] := by
  refine ⟨lines.takeWhile fun line => (heading? line).isNone,
    (lines.dropWhile fun line => (heading? line).isNone) ++ rest, ?_, ?_, ?_, ?_⟩
  · rw [← List.append_assoc, List.takeWhile_append_dropWhile]
  · exact List.takeWhile_prefix _
  · intro line hline
    simpa using List.mem_takeWhile_imp hline
  · cases hbehind : lines.dropWhile fun line => (heading? line).isNone with
    | nil =>
      obtain ⟨line, hline, hheading⟩ | rfl := h
      · exact absurd (by simpa using List.dropWhile_eq_nil_iff.1 hbehind line hline) hheading
      · rfl
    | cons line behind =>
      have hline := List.head?_dropWhile_not (fun line => (heading? line).isNone) lines
      rw [hbehind] at hline
      rw [front_partAt, List.cons_append, List.takeWhile_cons_of_neg (by simpa [Option.isSome_iff_ne_none] using hline)]

namespace Block

variable (block : Block)

/-- A line in front of the last one stands in the code. -/
theorem noFence_of_splitOn {before behind : List (List Char)} {line : List Char}
    (h : Chars.splitOn '\n' (block.code ++ fence) = before ++ line :: behind) (hbehind : behind ≠ []) :
    Chars.hasPart fence line = false := by
  have hcode : block.code ++ fence =
      (Chars.ended before ++ line) ++ '\n' :: Chars.join ['\n'] behind := by
    rw [← Chars.join_splitOn '\n' (block.code ++ fence), h, Chars.join_append_cons, Chars.join_cons hbehind]
    simp
  obtain ⟨inner, -, hfence⟩ | ⟨inner, hinner, -⟩ := List.append_eq_append_iff.1 hcode
  · have hnewline : '\n' ∈ fence := by simp [hfence]
    exact absurd hnewline (by decide)
  · refine Chars.hasPart_of_infix block.noFence ⟨Chars.ended before, inner, ?_⟩
    rw [hinner]

/-- The lines of a block in front of one that is taken for the heading of a section hold no fence. -/
theorem noFence_front (h : ∃ line ∈ Chars.splitOn '\n' (block.code ++ fence), heading? line ≠ none)
    (rest : List (List Char)) :
    ∀ line ∈ Chars.linesOf (partAt heading? (Chars.splitOn '\n' (block.code ++ fence) ++ rest)).1,
      Chars.hasPart fence line = false := by
  obtain ⟨front, behind, hparts, ⟨cut, hcut⟩, hplain, hbehind⟩ := @exists_front heading? _ rest (.inl h)
  have hne : cut ≠ [] := by
    rintro rfl
    obtain ⟨line, hline, hheading⟩ := h
    rw [← hcut, List.append_nil] at hline
    exact hheading (hplain line hline)
  rw [hparts, partAt_append hplain, hbehind, List.append_nil]
  refine List.forall_mem_flatMap.2 fun part hpart line hline => ?_
  obtain ⟨before, after, rfl⟩ := List.append_of_mem hpart
  rw [List.append_assoc, List.cons_append] at hcut
  have hnoFence := block.noFence_of_splitOn hcut.symm (by simp [hne])
  have hnewline : Chars.hasPart fence (part ++ ['\n']) = false :=
    @Chars.hasPart_below fence part [[]] (by decide) hnoFence (by decide)
  exact Chars.hasPart_of_infix hnewline (Chars.infix_of_mem_lines hline)

/-- The lines of a block up to one that is taken for a heading hold no fence. -/
theorem exists_cut (h : ¬ block.IsSound) (rest : List (List Char)) :
    ∃ code behind, Chars.linesOf (partAt heading? (Chars.splitOn '\n' (block.code ++ fence) ++ rest)).1 =
      code ++ behind ∧ (∀ line ∈ code, Chars.hasPart fence line = false) ∧
      (∀ line ∈ code, fileHeading? line = none) ∧ (partAt fileHeading? behind).1 = [] := by
  by_cases hsection : ∀ line ∈ Chars.splitOn '\n' (block.code ++ fence), heading? line = none
  · have hfile : ∃ line ∈ Chars.lines block.code, fileHeading? line ≠ none := by
      by_contra hnone
      push Not at hnone
      exact h ⟨hsection, hnone⟩
    obtain ⟨code, behind, hlines, hcode, hplain, hbehind⟩ := @exists_front fileHeading?
      (Chars.lines block.code) (fence :: Chars.linesOf (partAt heading? rest).1) (.inl hfile)
    refine ⟨code, behind, ?_, fun line hline => block.noFence_of_mem_lines (hcode.subset hline), hplain, hbehind⟩
    rw [← hlines, partAt_append hsection, Chars.linesOf_append, Chars.linesOf_splitOn, lines_code,
      List.append_assoc]
    rfl
  · push Not at hsection
    have hnoFence := block.noFence_front hsection rest
    obtain ⟨code, behind, hlines, hcode, hplain, hbehind⟩ := @exists_front fileHeading?
      (Chars.linesOf (partAt heading? (Chars.splitOn '\n' (block.code ++ fence) ++ rest)).1) [] (.inr rfl)
    rw [List.append_nil] at hlines
    exact ⟨code, behind, hlines, fun line hline => hnoFence line (hcode.subset hline), hplain, hbehind⟩

end Block

/-- A block that does not end is no code. -/
theorem Point.code_of_open (point : Point) {tag : List Char} {lines : List (List Char)}
    (htag : ∀ c ∈ tag, Bullet.isTagChar c = true)
    (hlines : ∀ line ∈ lines, Chars.hasPart fence line = false) :
    codeOf (.obj (Bullet.fields (Chars.trim
      (point.above ++ Chars.below ((fence ++ tag) :: lines))))) = .null := by
  have hlast : (point.above ++ '\n' :: fence).getLast? = some '\x60' := by
    simp [fence]
  have hsplit (cs : List Char) : point.above ++ '\n' :: fence ++ cs = point.above ++ '\n' :: (fence ++ cs) := by
    simp
  have hbelow : point.above ++ Chars.below ((fence ++ tag) :: lines) =
      point.above ++ '\n' :: fence ++ (tag ++ Chars.below lines) := by
    simp [Chars.below]
  have htagFence : Chars.hasPart fence tag = false := by
    by_contra hpart
    rw [Bool.not_eq_false, Chars.hasPart_iff] at hpart
    exact absurd (htag '\x60' (hpart.subset (by decide))) (by decide)
  rw [point.trim_above, hbelow, Chars.trimEnd_append_of_getLast? hlast (by decide), hsplit]
  have htake := Bullet.takeCode_of_open point.noFence_above
    (Chars.hasPart_of_infix (Chars.hasPart_below (by decide) htagFence hlines)
      (@Chars.trimEnd_infix _ isBlank))
  cases hissue : Bullet.issue (point.above ++ '\n' :: (fence ++ Chars.trimEnd isBlank (tag ++
      Chars.below lines))) with
  | error failure =>
    rw [Bullet.fields, hissue]
    rfl
  | ok fields =>
    rw [← fields_of_issue hissue, codeOf, Bullet.code_of_takeCode htake hissue]
    rfl

/-- The bullet down to its block. -/
def Point.top (point : Point) : Point := { point with block := none, rest := [], rest_prose := isProse_nil }

/-! ## Cut sections -/

/-- A section with the first block in it that holds a line that is taken for a heading. -/
structure Cut (content : Content) where
  before : List (String × Run)
  group : String
  run : Run
  after : List (String × Run)
  above : List Point
  point : Point
  below : List Point
  block : Block
  runs_eq : content.runs = before ++ (group, run) :: after
  points_eq : run.points = above ++ point :: below
  block_eq : point.block = some block
  before_isSound : ∀ run ∈ before, run.2.IsSound
  above_isSound : ∀ point ∈ above, point.IsSound
  not_isSound : ¬ block.IsSound

theorem exists_first {α : Type} {p : α → Prop} {items : List α} (h : ¬ ∀ item ∈ items, p item) :
    ∃ before item after, items = before ++ item :: after ∧ (∀ item ∈ before, p item) ∧ ¬ p item := by
  induction items with
  | nil => exact absurd nofun h
  | cons item items ih =>
    by_cases hitem : p item
    · have hitems : ¬ ∀ other ∈ items, p other := fun hall => h (List.forall_mem_cons.2 ⟨hitem, hall⟩)
      obtain ⟨before, first, after, rfl, hbefore, hfirst⟩ := ih hitems
      exact ⟨item :: before, first, after, rfl, List.forall_mem_cons.2 ⟨hitem, hbefore⟩, hfirst⟩
    · exact ⟨[], item, items, rfl, nofun, hitem⟩

theorem Content.nonempty_cut {content : Content} (h : ¬ content.IsSound) : Nonempty (Cut content) := by
  obtain ⟨before, ⟨group, run⟩, after, hruns, hbefore, hrun⟩ := exists_first h
  obtain ⟨above, point, below, hpoints, habove, hpoint⟩ := exists_first hrun
  unfold Point.IsSound at hpoint
  push Not at hpoint
  obtain ⟨block, hblock, hsound⟩ := hpoint
  exact ⟨⟨before, group, run, after, above, point, below, block, hruns, hpoints, hblock, hbefore, habove,
    hsound⟩⟩

section Pieces

variable {lines rest : List (List Char)} (hlines : ∀ line ∈ lines, fileHeading? line = none)
  (hrest : (partAt fileHeading? rest).1 = [])

include hlines hrest

theorem pieces_append : pieces (lines ++ rest) = (generalGroup, Bullet.items lines) ::
    (partAt fileHeading? rest).2.map fun (path, lines) => (String.ofList path, Bullet.items lines) := by
  rw [pieces, partAt_append hlines, hrest, List.append_nil]

/-- Lines behind groups and one more heading come apart from the groups. -/
theorem Content.pieces_heading {category : Category} {front : Run} {groups : List Group} (last : Group)
    (h : (issues category front groups).IsSound) :
    pieces (Chars.linesOf ((issues category front groups).chunks ++ [last.heading]) ++ (lines ++ rest)) =
      ((issues category front groups).runs.map fun (group, run) => (group, run.points.map Point.item)) ++
        (String.ofList last.path, Bullet.items lines) ::
          (partAt fileHeading? rest).2.map fun (path, lines) => (String.ofList path, Bullet.items lines) := by
  have hfront := front.headings_lines (h (generalGroup, front) List.mem_cons_self)
  have hgroups : ∀ group ∈ groups, ∀ line ∈ Chars.linesOf group.run.chunks, fileHeading? line = none :=
    fun group hgroup => group.run.headings_lines
      (h (String.ofList group.path, group.run) (List.mem_cons_of_mem _ (List.mem_map_of_mem hgroup)))
  have hlast : Chars.linesOf [last.heading] = [last.heading] :=
    Chars.linesOf_of_isLine (by simpa using last.isLine)
  have hparts : partAt fileHeading? (last.heading :: (lines ++ rest)) =
      ([], (last.path, lines) :: (partAt fileHeading? rest).2) := by
    rw [partAt_cons, last.isHeading, partAt_append hlines, hrest, List.append_nil]
  rw [chunks, Chars.linesOf_append, Chars.linesOf_append, Group.linesOf_groups, hlast, List.append_assoc,
    List.append_assoc, pieces, partAt_append hfront, List.singleton_append,
    partAt_flatMap_append (fun group _ => group.isHeading) hgroups (by rw [hparts]), hparts]
  simp [runs, Run.items_chunks]

end Pieces

namespace Cut

section Bullets

variable {content : Content} (cut : Cut content)

/-- The bullets of the group with the cut, down to the block. -/
def top : Run := { cut.run with points := cut.above ++ [cut.point.top] }

theorem chunks_run : cut.run.chunks = cut.top.chunks ++ (fence ++ cut.block.tag) :: (cut.block.code ++ fence) ::
    (cut.point.rest ++ cut.below.flatMap Point.chunks) := by
  simp [Run.chunks, top, Point.top, Point.chunks, Block.chunks, cut.points_eq, cut.block_eq]

theorem isSound_top : cut.top.IsSound := by
  intro point hpoint
  obtain hpoint | hpoint := List.mem_append.1 hpoint
  · exact cut.above_isSound point hpoint
  · obtain rfl := List.mem_singleton.1 hpoint
    exact nofun

/-- Down to a block that does not end each bullet is read as it is, and the last one as far as it goes. -/
theorem items_top {code : List (List Char)} (hcode : ∀ line ∈ code, Chars.hasPart fence line = false) :
    Bullet.items (Chars.linesOf cut.top.chunks ++ (fence ++ cut.block.tag) :: code) =
      cut.above.map Point.item ++
        [Chars.trim (cut.point.above ++ Chars.below ((fence ++ cut.block.tag) :: code))] := by
  have hjoin : Chars.join ['\n'] (cut.point.top.lines ++ (fence ++ cut.block.tag) :: code) =
      cut.point.above ++ Chars.below ((fence ++ cut.block.tag) :: code) := by
    have hlines : cut.point.top.lines = cut.point.text :: kept cut.point.more := by
      simp [Point.lines, Point.top, kept]
    rw [hlines, List.cons_append, Chars.join_cons_below, Chars.below_append, Point.above, List.append_assoc]
  have hitems : cut.above.map (fun point => Chars.trim (Chars.join ['\n'] point.lines)) =
      cut.above.map Point.item := rfl
  have hpoints : (cut.top.points.map (·.lines.reverse)).reverse =
      cut.point.top.lines.reverse :: (cut.above.map (·.lines.reverse)).reverse := by
    simp [top]
  rw [Bullet.items, List.foldl_append, Run.foldl_read, hpoints, List.foldl_cons,
    Bullet.Progress.read_fence (List.prefix_append fence cut.block.tag), Bool.not_false,
    Bullet.Progress.foldl_read_inside hcode]
  simp only [List.reverse_cons, List.reverse_append, List.reverse_reverse, List.map_append, List.map_map,
    Function.comp_def, hitems, List.map_cons, List.map_nil, List.append_assoc, List.singleton_append, hjoin]
  refine List.filter_eq_self.2 (List.forall_mem_append.2 ⟨fun item hitem => ?_, fun item hitem => ?_⟩)
  · obtain ⟨point, -, rfl⟩ := List.mem_map.1 hitem
    simpa using point.item_ne_nil
  · obtain rfl := List.mem_singleton.1 hitem
    rw [Point.above, List.append_assoc]
    simpa using cut.point.trim_text_ne_nil _

end Bullets

variable {category : Category} {front : Run} {groups : List Group}
  (cut : Cut (.issues category front groups))

/-- Groups come apart as they were put together, down to the one with the cut. -/
theorem exists_pieces :
    ∃ above below, (Content.issues category front groups).chunks = above ++ (cut.run.chunks ++ below) ∧
      (∀ line ∈ above.flatMap (Chars.splitOn '\n'), heading? line = none) ∧
      ∀ lines rest, (∀ line ∈ lines, fileHeading? line = none) → (partAt fileHeading? rest).1 = [] →
        ∃ others, pieces (Chars.linesOf above ++ (lines ++ rest)) =
          (cut.before.map fun (group, run) => (group, run.points.map Point.item)) ++
            (cut.group, Bullet.items lines) :: others := by
  obtain ⟨before, group, run, after, -, -, -, -, hruns, -, -, hsound, -, -⟩ := cut
  cases before with
  | nil =>
    obtain ⟨hfirst, -⟩ := List.cons.inj hruns
    obtain ⟨rfl, rfl⟩ := Prod.mk.inj hfirst
    exact ⟨[], _, rfl, nofun, fun lines rest hlines hrest => ⟨_, pieces_append hlines hrest⟩⟩
  | cons first before =>
    obtain ⟨rfl, hgroups⟩ := List.cons.inj hruns
    obtain ⟨above, below, rfl, rfl, hbelow⟩ := List.map_eq_append_iff.1 hgroups
    obtain ⟨last, below, rfl, hlast, -⟩ := List.map_eq_cons_iff.1 hbelow
    obtain ⟨rfl, rfl⟩ := Prod.mk.inj hlast
    have habove : (Content.issues category front above).IsSound := hsound
    refine ⟨(Content.issues category front above).chunks ++ [last.heading],
      below.flatMap fun group => group.heading :: group.run.chunks, ?_, ?_,
      fun lines rest hlines hrest => ⟨_, Content.pieces_heading hlines hrest last habove⟩⟩
    · simp [Content.chunks]
    · rw [List.flatMap_append, List.forall_mem_append, List.flatMap_singleton, last.isLine.splitOn]
      refine ⟨Content.heading?_lines habove, ?_⟩
      simpa using heading?_of_fileHeading? last.isHeading

/-- The bullets in front of the cut are read, and the one with it as far as its block goes. -/
theorem exists_pieces_cut (rest : List (List Char)) : ∃ code others,
    pieces (Chars.linesOf (partAt heading? ((Content.issues category front groups).chunks.flatMap
      (Chars.splitOn '\n') ++ rest)).1) =
      (cut.before.map fun (group, run) => (group, run.points.map Point.item)) ++
        (cut.group, cut.above.map Point.item ++
          [Chars.trim (cut.point.above ++ Chars.below ((fence ++ cut.block.tag) :: code))]) :: others ∧
      ∀ line ∈ code, Chars.hasPart fence line = false := by
  obtain ⟨above, below, hchunks, hsection, hpieces⟩ := cut.exists_pieces
  obtain ⟨code, behind, hlines, hcode, hplain, hbehind⟩ := cut.block.exists_cut cut.not_isSound
    ((cut.point.rest ++ (cut.below.flatMap Point.chunks ++ below)).flatMap (Chars.splitOn '\n') ++ rest)
  have hopen := headings_eq_none cut.block.head?_open
  -- The section ends inside of the block or behind it.
  have hsplit : (Content.issues category front groups).chunks.flatMap (Chars.splitOn '\n') ++ rest =
      (above.flatMap (Chars.splitOn '\n') ++
        (cut.top.chunks.flatMap (Chars.splitOn '\n') ++ [fence ++ cut.block.tag])) ++
      (Chars.splitOn '\n' (cut.block.code ++ fence) ++
        ((cut.point.rest ++ (cut.below.flatMap Point.chunks ++ below)).flatMap (Chars.splitOn '\n') ++ rest)) := by
    rw [hchunks, cut.chunks_run]
    simp [cut.block.isLine_open.splitOn]
  have hheadings : ∀ line ∈ above.flatMap (Chars.splitOn '\n') ++
      (cut.top.chunks.flatMap (Chars.splitOn '\n') ++ [fence ++ cut.block.tag]),
      heading? line = none := by
    simp only [List.forall_mem_append, List.forall_mem_singleton]
    exact ⟨hsection, List.forall_mem_flatMap.2 (cut.top.headings_chunks cut.isSound_top), hopen.1⟩
  have hfiles : ∀ line ∈ Chars.linesOf cut.top.chunks ++
      (fence ++ cut.block.tag) :: code, fileHeading? line = none := by
    rw [List.forall_mem_append, List.forall_mem_cons]
    exact ⟨cut.top.headings_lines cut.isSound_top, hopen.2, hplain⟩
  have hopenLine : Chars.linesOf [fence ++ cut.block.tag] = [fence ++ cut.block.tag] :=
    Chars.linesOf_of_isLine (by simpa using cut.block.isLine_open)
  obtain ⟨others, hothers⟩ := hpieces _ behind hfiles hbehind
  refine ⟨code, others, ?_, hcode⟩
  rw [← cut.items_top hcode, ← hothers, hsplit, partAt_append hheadings, Chars.linesOf_append,
    Chars.linesOf_append, Chars.linesOf_append, Chars.linesOf_flatMap_splitOn, Chars.linesOf_flatMap_splitOn, hlines,
    hopenLine]
  simp

/-- A section is read as it was put together down to the cut, and there without code. -/
theorem partWays (cut : Cut (.issues category front groups)) {name : List Char}
    (hnamed : Section.ofHeading name = .ok (.issues category))
    (rest : List (List Char)) : PartWays (entriesIn (name, Chars.join ['\n'] (partAt heading?
        ((Content.issues category front groups).chunks.flatMap (Chars.splitOn '\n') ++ rest)).1))
      (Content.issues category front groups).entries := by
  obtain ⟨code, others, hpieces, hcode⟩ := cut.exists_pieces_cut rest
  unfold entriesIn
  rw [hnamed]
  dsimp only
  rw [Content.pieces_join, hpieces]
  have hread : entriesOf category ((cut.before.map fun (group, run) => (group, run.points.map Point.item)) ++
      (cut.group, cut.above.map Point.item ++
        [Chars.trim (cut.point.above ++ Chars.below ((fence ++ cut.block.tag) :: code))]) :: others) =
      ((cut.before.flatMap fun (group, run) => run.points.map fun point =>
          ⟨category, group, .obj (Bullet.fields point.item)⟩) ++
        cut.above.map fun point => ⟨category, cut.group, .obj (Bullet.fields point.item)⟩) ++
      ⟨category, cut.group, .obj (Bullet.fields (Chars.trim
        (cut.point.above ++ Chars.below ((fence ++ cut.block.tag) :: code))))⟩ :: entriesOf category others := by
    simp [entriesOf, List.flatMap_map, Function.comp_def]
  have hlaidOut : (Content.issues category front groups).entries =
      ((cut.before.flatMap fun (group, run) => run.points.map fun point => ⟨category, group, point.issue⟩) ++
        cut.above.map fun point => ⟨category, cut.group, point.issue⟩) ++
      ⟨category, cut.group, cut.point.issue⟩ ::
        (cut.below.map (fun point => ⟨category, cut.group, point.issue⟩) ++
          cut.after.flatMap fun (group, run) => run.points.map fun point => ⟨category, group, point.issue⟩) := by
    rw [Content.entries, cut.runs_eq]
    simp [cut.points_eq]
  rw [hread, hlaidOut]
  refine .intro ?_ ?_
  · simp [places, List.map_flatMap, Function.comp_def]
  · rw [codeOf_issue, Point.code, cut.block_eq, cut.point.code_of_open cut.block.isTag hcode]
    rintro ⟨⟩

end Cut

/-! ## Drafts with blocks -/

theorem Part.places_entriesIn {part : Part} (h : part.content.IsSound) :
    places (entriesIn (part.name, Chars.join ['\n'] part.content.chunks)) = places part.content.entries := by
  obtain ⟨heading, name, content, isLine, isHeading, isNamed⟩ := part
  cases content with
  | comments =>
    unfold entriesIn
    rw [isNamed]
    rfl
  | issues category front groups =>
    rw [entriesIn_chunks isNamed h, Content.entries]
    simp [places, List.map_flatMap, Function.comp_def]

/-- A section with a line of code that is taken for a heading is not read as it was put together. -/
theorem Part.partWays {part : Part} (h : ¬ part.content.IsSound) (rest : List (List Char)) :
    PartWays (entriesIn (part.name, Chars.join ['\n'] (partAt heading?
      (part.content.chunks.flatMap (Chars.splitOn '\n') ++ rest)).1)) part.content.entries := by
  obtain ⟨cut⟩ := Content.nonempty_cut h
  obtain ⟨heading, name, content, isLine, isHeading, isNamed⟩ := part
  cases content with
  | comments =>
    have hruns := cut.runs_eq
    simp [Content.runs] at hruns
  | issues category front groups => exact cut.partWays isNamed rest

namespace Draft

variable {draft : Draft}

/-- A draft comes apart as it was put together down to a section, which may end where its code does not. -/
theorem exists_sections {before after : List Part} {part : Part} (hparts : draft.parts = before ++ part :: after)
    (hbefore : ∀ part ∈ before, part.content.IsSound) : ∃ rest others, sections draft.text =
      (before.map fun part => (part.name, Chars.join ['\n'] part.content.chunks)) ++
        (part.name, Chars.join ['\n']
          (partAt heading? (part.content.chunks.flatMap (Chars.splitOn '\n') ++ rest)).1) :: others := by
  have hlines : ∀ part ∈ before, ∀ line ∈ part.content.chunks.flatMap (Chars.splitOn '\n'),
      heading? line = none := fun part hpart => Content.heading?_lines (hbefore part hpart)
  obtain ⟨rest, hrest⟩ : ∃ rest, (after.flatMap fun part =>
    part.heading :: part.content.chunks.flatMap (Chars.splitOn '\n')) = rest := ⟨_, rfl⟩
  have hpartAt : partAt heading? (part.heading :: (part.content.chunks.flatMap (Chars.splitOn '\n') ++ rest)) =
      ([], (part.name, (partAt heading? (part.content.chunks.flatMap (Chars.splitOn '\n') ++ rest)).1) ::
        (partAt heading? (part.content.chunks.flatMap (Chars.splitOn '\n') ++ rest)).2) := by
    rw [partAt_cons, part.isHeading]
  refine ⟨rest, (partAt heading? (part.content.chunks.flatMap (Chars.splitOn '\n') ++ rest)).2.map
    fun (heading, lines) => (heading, Chars.join ['\n'] lines), ?_⟩
  rw [sections, draft.splitOn_text (by simp [hparts]), partAt_append draft.front_noSection, hparts,
    List.flatMap_append, List.flatMap_cons, List.cons_append, hrest,
    partAt_flatMap_append (fun part _ => part.isHeading) hlines (by rw [hpartAt]), hpartAt]
  simp [Function.comp_def, Chars.join_chunks]

/-- A draft with a line of code that is taken for a heading is not read as it was put together. -/
theorem partWays_of_not_isSound (h : ¬ draft.IsSound) :
    PartWays ((sections draft.text).flatMap entriesIn) draft.entries := by
  rw [isSound_iff] at h
  obtain ⟨before, part, after, hparts, hbefore, hpart⟩ := exists_first h
  obtain ⟨rest, others, hsections⟩ := exists_sections hparts hbefore
  -- Marks of lines may be too long in front of the cut, but that does not move any issue.
  have hplaces : places (before.flatMap fun part =>
      entriesIn (part.name, Chars.join ['\n'] part.content.chunks)) =
      places (before.flatMap fun part => part.content.entries) := by
    unfold places
    rw [List.map_flatMap, List.map_flatMap]
    exact List.flatMap_congr fun part hpart => Part.places_entriesIn (hbefore part hpart)
  rw [hsections, entries, hparts, List.flatMap_append, List.flatMap_append, List.flatMap_cons,
    List.flatMap_cons, List.flatMap_map]
  exact (Part.partWays hpart rest).append hplaces _ _

theorem sections_text_of_no_parts (hparts : draft.parts = []) : sections draft.text = [] := by
  have hlines : ∀ line ∈ Chars.splitOn '\n' draft.text, heading? line = none := by
    rw [text, hparts, List.flatMap_nil, List.append_nil]
    by_cases hfront : draft.front = []
    · rw [hfront]
      decide
    · rw [Chars.splitOn_join (fun line hline => (draft.noSection line hline).1) hfront]
      exact draft.front_noSection
  rw [sections, partAt_eq_nil hlines]
  rfl

/-- What a draft is read as, if it is read with its code, has the code of its bullets. -/
theorem KeepsCode.map_codeOf (h : draft.KeepsCode) (category : Category) (group : String) :
    (listed ((sections draft.text).flatMap entriesIn) category group).map codeOf =
      (listed draft.entries category group).map codeOf := by
  obtain ⟨review, hread, hcode⟩ := h
  obtain ⟨other, hfields, hlists⟩ := lists_of_read? hread
  rw [draft.listed_entries, ← hlists.issuesOf_eq, Review.issuesOf, ← Review.issues_of_fields hfields,
    ← Review.issuesOf, hcode, List.map_map]
  exact List.map_congr_left fun point _ => (codeOf_issue point).symm

/-- A draft is read with one issue for each of its bullets, under the category and group of the bullet and
with the code of its block, exactly if it has sections, no line of code is taken for a heading, and no mark of
lines has a number with too many digits. -/
theorem keepsCode_iff (draft : Draft) : draft.KeepsCode ↔ draft.parts ≠ [] ∧ draft.IsSound ∧
    ∀ point ∈ draft.points, ¬ Bullet.HasLongMark point.around := by
  constructor
  · intro h
    have hparts : draft.parts ≠ [] := by
      intro hparts
      obtain ⟨review, hread, -⟩ := h
      rw [read?_eq, if_pos (sections_text_of_no_parts hparts)] at hread
      exact nomatch hread
    have hsound : draft.IsSound := by
      by_contra hnot
      obtain ⟨category, group, hne⟩ := (partWays_of_not_isSound hnot).exists_ne
      exact hne (h.map_codeOf category group)
    refine ⟨hparts, hsound, fun point hpoint hlong => ?_⟩
    obtain ⟨review, hread, -⟩ := h
    obtain ⟨part, hpart, hpoint⟩ := List.mem_flatMap.1 hpoint
    obtain ⟨run, hrun, hpoint⟩ := List.mem_flatMap.1 hpoint
    refine succeeds_read?_iff.1 ⟨_, hread⟩ (part.name, Chars.join ['\n'] part.content.chunks) ?_
      ((Part.sectionBreaks_iff (draft.isSound_iff.1 hsound part hpart)).2 ⟨run, hrun, point, hpoint, hlong⟩)
    rw [draft.sections_text hparts hsound]
    exact List.mem_map_of_mem hpart
  · rintro ⟨hparts, hsound, hmarks⟩
    obtain ⟨review, hread, hlists⟩ := draft.exists_lists_of_isSound hparts hsound hmarks
    refine ⟨review, hread, fun category group => ?_⟩
    rw [hlists.issuesOf_eq, draft.listed_entries, List.map_map]
    exact List.map_congr_left fun point _ => codeOf_issue point

/-- Two bullets, the first with a comment as its code: a line that is taken for the heading of a file. -/
def commented : Draft where
  front := []
  parts := [{
    heading := "## Errors".toList
    name := "Errors".toList
    content := .issues .errors {
      front := []
      points := [{
          first := "- x".toList, text := "x".toList
          block := some {
            tag := [], code := "### a\n".toList
            isTag := List.forall_mem_nil _, noFence := by decide, endsLine := by decide }
          starts := by decide, ne_nil := by decide, isLine := by decide
          noFence := by decide, more_prose := isProse_nil, rest_prose := isProse_nil }, {
          first := "- y".toList, text := "y".toList
          starts := by decide, ne_nil := by decide, isLine := by decide
          noFence := by decide, more_prose := isProse_nil, rest_prose := isProse_nil }]
      front_prose := isProse_nil } []
    isLine := by decide
    isHeading := by decide
    isNamed := by rfl }]
  noSection := noSection_nil

/-- Of its bullets only one is read, without code. -/
theorem not_keepsCode_commented : ¬ commented.KeepsCode := by
  have hread : read? commented.text = .ok (some ({ issues := ByCategory.const [] |>.modify .errors fun _ =>
      [("general", [.obj [("title", .str "x \x60\x60\x60"), ("lineStart", .null), ("lineEnd", .null),
        ("severity", .null), ("codeSnippet", .null)]])] } : Review).fields) := by
    rfl
  rintro ⟨review, hread', hcode⟩
  rw [hread] at hread'
  have hissues := Review.issues_of_fields (Option.some.inj (Except.ok.inj hread')) .errors
  have hlength := congrArg List.length (hcode .errors "general")
  rw [Review.issuesOf, ← hissues] at hlength
  exact absurd hlength (by decide)

end Draft

end CodeReview.Response.Markdown
