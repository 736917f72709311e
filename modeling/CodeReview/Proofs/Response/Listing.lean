import CodeReview.Proofs.Response.Bullets

/-!
# What a review in running text lists

* `Keyed.Lists`: a map of lists, by what stands under each key. `extendAll` puts two of them together
  (`Lists.extendAll`).
* `Review.Lists`: a review, by the issues under each category and group and by its comments, all in the
  order of the text. Reading a section adds its entries at the end (`Review.Lists.add`).
* `lists_of_read?`: what is read from a text lists the entries of its sections.
* `read?_newline`: a line feed at the end of a text does not count.
-/

namespace CodeReview

open Text

/-! ## Maps of lists -/

namespace Keyed

variable {α β : Type} {m groups : Keyed (List α)} {values added : String → List α} {key : String}

/-- Under each key stand its values; a key without values is not there. -/
structure Lists (m : Keyed (List α)) (values : String → List α) : Prop where
  nodup : m.keys.Nodup
  get?_eq (key : String) : m.get? key = if (values key).isEmpty then none else some (values key)

theorem get?_map (f : α → β) (m : Keyed α) (key : String) :
    get? (m.map fun (k, a) => (k, f a)) key = (m.get? key).map f := by
  induction m with
  | nil => rfl
  | cons entry m ih =>
    obtain ⟨k, a⟩ := entry
    rw [List.map_cons, get?_cons, get?_cons, ih]
    split <;> rfl

theorem get?_filter {m : Keyed α} (h : m.keys.Nodup) (p : α → Bool) (key : String) :
    get? (m.filter fun (_, a) => p a) key = (m.get? key).filter p := by
  induction m with
  | nil => rfl
  | cons entry m ih =>
    obtain ⟨k, a⟩ := entry
    obtain ⟨hk, hm⟩ := List.nodup_cons.1 h
    rw [List.filter_cons, get?_cons]
    by_cases hkey : key = k
    · subst hkey
      by_cases ha : p a = true
      · simp [ha, get?_cons, Option.filter]
      · simp [ha, ih hm, @get?_of_notMem _ m key hk, Option.filter]
    · by_cases ha : p a = true
      · simp [ha, get?_cons, hkey, ih hm]
      · simp [ha, hkey, ih hm]

theorem filter_key_eq_nil {pairs : List (String × α)} (h : key ∉ pairs.map (·.1)) :
    pairs.filter (·.1 == key) = [] :=
  List.filter_eq_nil_iff.2 fun _ hpair hkey => h (beq_iff_eq.1 hkey ▸ List.mem_map_of_mem hpair)

theorem flatMap_filter_key (h : m.keys.Nodup) (key : String) :
    (m.filter (·.1 == key)).flatMap (·.2) = (m.get? key).getD [] := by
  induction m with
  | nil => rfl
  | cons entry m ih =>
    obtain ⟨k, values⟩ := entry
    obtain ⟨hk, hm⟩ := List.nodup_cons.1 h
    rw [List.filter_cons, get?_cons]
    by_cases hkey : k = key
    · subst hkey
      simp [filter_key_eq_nil hk]
    · simp [hkey, Ne.symm hkey, ih hm]

namespace Lists

theorem nil : Lists ([] : Keyed (List α)) fun _ => [] := ⟨List.nodup_nil, fun _ => rfl⟩

theorem getD_get? (h : m.Lists values) (key : String) : (m.get? key).getD [] = values key := by
  rw [h.get?_eq key]
  split
  · next hempty => rw [List.isEmpty_iff.1 hempty, Option.getD_none]
  · rfl

theorem mem_keys_iff (h : m.Lists values) : key ∈ m.keys ↔ values key ≠ [] := by
  constructor
  · intro hkey hnil
    have hnone : m.get? key = none := by simp [h.get?_eq key, hnil]
    obtain ⟨entry, hentry, rfl⟩ := List.mem_map.1 hkey
    simpa using List.lookup_eq_none_iff.1 hnone entry hentry
  · intro hne
    have hsome : m.get? key = some (values key) := by simp [h.get?_eq key, hne]
    exact mem_keys_of_get? hsome

/-- What is added stands behind what was there. -/
theorem extendAll (h : m.Lists values) (hgroups : groups.Lists added) :
    (m.extendAll groups).Lists fun key => values key ++ added key := by
  refine ⟨nodup_keys_extendAll h.nodup groups, fun key => ?_⟩
  have hkey : key ∈ groups.map (·.1) ↔ added key ≠ [] := hgroups.mem_keys_iff
  rw [get?_extendAll, flatMap_filter_key hgroups.nodup, hgroups.getD_get?, h.getD_get?]
  by_cases hadded : added key = []
  · rw [if_neg fun hmem => hkey.1 hmem hadded, h.get?_eq, hadded, List.append_nil]
  · rw [if_pos (hkey.2 hadded), if_neg (by simp [hadded])]

/-- Pairs are listed by their keys. -/
theorem ofPairs (f : α → β) (pairs : List (String × List α)) :
    Lists (((Keyed.extendAll [] pairs).map fun (k, items) => (k, items.map f)).filter
      fun (_, items) => !items.isEmpty) fun key =>
        ((pairs.filter (·.1 == key)).flatMap (·.2)).map f := by
  have hkeys : keys ((Keyed.extendAll [] pairs).map fun (k, items) => (k, items.map f)) =
      (Keyed.extendAll [] pairs).keys := by
    simp [keys]
  have hnodup : (keys ((Keyed.extendAll [] pairs).map fun (k, items) =>
      (k, items.map f))).Nodup := by
    rw [hkeys]
    exact @nodup_keys_extendAll α [] List.nodup_nil pairs
  refine ⟨hnodup.sublist (List.Sublist.map _ List.filter_sublist), fun key => ?_⟩
  rw [get?_filter hnodup (!·.isEmpty), get?_map (List.map f), get?_extendAll]
  by_cases hkey : key ∈ pairs.map (·.1)
  · rw [if_pos hkey]
    generalize (pairs.filter (·.1 == key)).flatMap (·.2) = items
    cases items <;> rfl
  · rw [if_neg hkey, filter_key_eq_nil hkey]
    rfl

end Lists

end Keyed

namespace Response

/-- The issue of a bullet as the fields of a response; there are none if it is not read. -/
def Bullet.fields (bullet : List Char) : Fields := (issue bullet).toOption.getD []

namespace Markdown

/-! ## Entries -/

/-- An issue in the place where it stands. -/
structure Entry where
  category : Category
  group : String
  issue : Json

/-- The issues of a category and group. -/
def listed (entries : List Entry) (category : Category) (group : String) : List Json :=
  (entries.filter fun entry => entry.category = category ∧ entry.group = group).map (·.issue)

/-- The lines of a section with issues in pieces: each group, and the bullets that stand there. -/
def pieces (lines : List (List Char)) : List (String × List (List Char)) :=
  let (front, parts) := partAt fileHeading? lines
  (generalGroup, Bullet.items front) ::
    parts.map fun (path, lines) => (String.ofList path, Bullet.items lines)

/-- The issues of pieces of a section. -/
def entriesOf (category : Category) (pieces : List (String × List (List Char))) : List Entry :=
  pieces.flatMap fun (group, bullets) =>
    bullets.map fun bullet => ⟨category, group, .obj (Bullet.fields bullet)⟩

/-- The issues of a section. -/
def entriesIn (part : List Char × List Char) : List Entry :=
  match Section.ofHeading part.1 with
  | .ok (.issues category) => entriesOf category (pieces (Chars.lines part.2))
  | _ => []

/-- The general comments of a section. -/
def remarksIn (part : List Char × List Char) : List String :=
  match Section.ofHeading part.1 with
  | .ok .comments => commentsIn part.2
  | _ => []

variable {text heading body : List Char} {fields : Fields} {review next : Review}
  {entries : List Entry} {remarks : List String} {groups : Keyed (List Json)}

theorem listed_append (entries others : List Entry) (category : Category) (group : String) :
    listed (entries ++ others) category group =
      listed entries category group ++ listed others category group := by
  simp [listed]

theorem listed_entriesOf (category : Category) (pieces : List (String × List (List Char)))
    (group : String) : listed (entriesOf category pieces) category group =
      ((pieces.filter (·.1 == group)).flatMap (·.2)).map fun bullet => .obj (Bullet.fields bullet) := by
  induction pieces with
  | nil => rfl
  | cons piece pieces ih =>
    have hstep : entriesOf category (piece :: pieces) =
        entriesOf category [piece] ++ entriesOf category pieces := by
      simp [entriesOf]
    rw [hstep, listed_append, ih, List.filter_cons]
    by_cases hgroup : piece.1 = group <;> simp [listed, entriesOf, hgroup, List.filter_map, Function.comp_def]

theorem listed_entriesOf_of_ne {category other : Category} (h : category ≠ other)
    (pieces : List (String × List (List Char))) (group : String) :
    listed (entriesOf category pieces) other group = [] := by
  rw [listed, List.filter_eq_nil_iff.2, List.map_nil]
  intro entry hentry
  obtain ⟨piece, -, hentry⟩ := List.mem_flatMap.1 hentry
  obtain ⟨bullet, -, rfl⟩ := List.mem_map.1 hentry
  simp [h]

/-! ## Reading -/

theorem map_of_mapM_ok {α β : Type} {f : α → Except Failure β} {g : α → β}
    (hf : ∀ a b, f a = .ok b → b = g a) {items : List α} {results : List β}
    (h : items.mapM f = .ok results) : results = items.map g := by
  have hall := mapM_eq_ok_iff.1 h
  induction hall with
  | nil => rfl
  | cons hab hrest ih => rw [List.map_cons, hf _ _ hab, ih (mapM_eq_ok_iff.2 hrest)]

theorem fields_of_issue {bullet : List Char} (h : Bullet.issue bullet = .ok fields) :
    fields = Bullet.fields bullet := by
  rw [Bullet.fields, h]
  rfl

theorem issuesByGroup_eq (body : List Char) : issuesByGroup body = do
    let groups ← (Keyed.extendAll [] (pieces (Chars.lines body))).mapM fun (path, items) => do
      let issues ← items.mapM Bullet.issue
      return (path, issues.map Json.obj)
    return groups.filter (!·.2.isEmpty) := by
  rw [issuesByGroup, pieces]
  obtain ⟨front, parts⟩ := partAt fileHeading? (Chars.lines body)
  dsimp only
  rw [Keyed.extendAll, List.foldl_cons, List.foldl_cons, List.foldl_map]
  dsimp only
  rw [String.ofList_toList]

/-- The groups of a section list the bullets of its pieces. -/
theorem lists_of_issuesByGroup (h : issuesByGroup body = .ok groups) (category : Category) :
    groups.Lists (listed (entriesOf category (pieces (Chars.lines body))) category) := by
  rw [issuesByGroup_eq] at h
  obtain ⟨found, hfound, hgroups⟩ := exists_of_bind_ok h
  have hmap : found = (Keyed.extendAll [] (pieces (Chars.lines body))).map fun (path, items) =>
      (path, items.map fun bullet => Json.obj (Bullet.fields bullet)) := by
    refine map_of_mapM_ok (fun piece group hgroup => ?_) hfound
    obtain ⟨issues, hissues, hgroup⟩ := exists_of_bind_ok hgroup
    rw [← Except.ok.inj hgroup, map_of_mapM_ok (fun _ _ => fields_of_issue) hissues, List.map_map]
    rfl
  rw [← Except.ok.inj hgroups, hmap, funext (listed_entriesOf category _)]
  exact .ofPairs (fun bullet => Json.obj (Bullet.fields bullet)) _

/-- A review with its issues and comments in the order in which they came in. -/
structure Review.Lists (review : Review) (entries : List Entry) (remarks : List String) : Prop where
  issues (category : Category) : (review.issues.get category).Lists (listed entries category)
  comments : review.comments = remarks

namespace Review.Lists

theorem empty : Review.Lists {} [] [] := by
  refine ⟨fun category => ?_, rfl⟩
  have hget : ({} : Review).issues.get category = [] := ByCategory.get_const [] category
  rw [hget]
  exact .nil

/-- A section adds its entries at the end. -/
theorem add (hreview : review.Lists entries remarks) (h : review.add heading body = .ok next) :
    next.Lists (entries ++ entriesIn (heading, body)) (remarks ++ remarksIn (heading, body)) := by
  obtain ⟨named, hnamed, hnext⟩ := exists_of_bind_ok h
  unfold entriesIn remarksIn
  rw [hnamed]
  cases named with
  | comments =>
    obtain rfl := Except.ok.inj hnext
    exact ⟨fun category => by simpa using hreview.issues category, by rw [hreview.comments]⟩
  | issues category =>
    obtain ⟨groups, hgroups, hnext⟩ := exists_of_bind_ok hnext
    obtain rfl := Except.ok.inj hnext
    refine ⟨fun other => ?_, by simpa using hreview.comments⟩
    dsimp only
    rw [ByCategory.get_modify, funext (listed_append entries _ other)]
    by_cases hother : other = category
    · subst hother
      rw [if_pos rfl]
      exact (hreview.issues other).extendAll (lists_of_issuesByGroup hgroups other)
    · rw [if_neg hother]
      simpa [listed_entriesOf_of_ne (Ne.symm hother)] using hreview.issues other

theorem addAll {parts : List (List Char × List Char)} (hreview : review.Lists entries remarks)
    (h : parts.foldlM (fun review part => review.add part.1 part.2) review = .ok next) :
    next.Lists (entries ++ parts.flatMap entriesIn) (remarks ++ parts.flatMap remarksIn) := by
  induction parts generalizing review entries remarks with
  | nil =>
    obtain rfl := Except.ok.inj h
    simpa using hreview
  | cons part parts ih =>
    rw [List.foldlM_cons] at h
    obtain ⟨mid, hmid, hrest⟩ := exists_of_bind_ok h
    simpa [List.append_assoc] using ih (hreview.add hmid) hrest

end Review.Lists

theorem read?_eq (text : List Char) : read? text = if sections text = [] then .ok none else do
    let review ← (sections text).foldlM (fun review part => review.add part.1 part.2) ({} : Review)
    return some review.fields := by
  rw [read?, sections, List.foldlM_map]
  cases (partAt heading? (Chars.splitOn '\n' text)).2 with
  | nil => rfl
  | cons part parts => rw [if_neg (by simp)]

/-- What is read lists the entries of the sections, one section after the other. -/
theorem lists_of_read? (h : read? text = .ok (some fields)) : ∃ review : Review,
    fields = review.fields ∧
      review.Lists ((sections text).flatMap entriesIn) ((sections text).flatMap remarksIn) := by
  rw [read?_eq] at h
  split at h
  · exact nomatch h
  · obtain ⟨review, hreview, hfields⟩ := exists_of_bind_ok h
    refine ⟨review, (Option.some.inj (Except.ok.inj hfields)).symm, ?_⟩
    simpa using Review.Lists.empty.addAll hreview

/-- A text with sections of which none breaks off is read as a review that lists their entries. -/
theorem exists_lists_of_read? (hsections : sections text ≠ [])
    (h : ∀ part ∈ sections text, ¬ SectionBreaks part.1 part.2) : ∃ review : Review,
    read? text = .ok (some review.fields) ∧
      review.Lists ((sections text).flatMap entriesIn) ((sections text).flatMap remarksIn) := by
  obtain ⟨found, hfound⟩ := succeeds_read?_iff.2 h
  cases found with
  | none =>
    rw [read?_eq, if_neg hsections] at hfound
    obtain ⟨review, -, hreview⟩ := exists_of_bind_ok hfound
    exact nomatch hreview
  | some fields =>
    obtain ⟨review, rfl, hlists⟩ := lists_of_read? hfound
    exact ⟨review, hfound, hlists⟩

/-! ## A line feed at the end -/

/-- A line that is no heading joins the last part. -/
theorem partAt_concat {heading? : List Char → Option (List Char)} {line : List Char}
    (h : heading? line = none) (lines : List (List Char)) :
    (∃ front, partAt heading? lines = (front, []) ∧
      partAt heading? (lines ++ [line]) = (front ++ [line], [])) ∨
    ∃ front parts heading last, partAt heading? lines = (front, parts ++ [(heading, last)]) ∧
      partAt heading? (lines ++ [line]) = (front, parts ++ [(heading, last ++ [line])]) := by
  induction lines with
  | nil => exact .inl ⟨[], rfl, by rw [List.nil_append, partAt_cons, h]; rfl⟩
  | cons first lines ih =>
    rw [List.cons_append, partAt_cons, partAt_cons]
    cases hfirst : heading? first with
    | none =>
      obtain ⟨front, hbefore, hafter⟩ | ⟨front, parts, heading, last, hbefore, hafter⟩ := ih
      · exact .inl ⟨first :: front, by rw [hbefore], by rw [hafter]; rfl⟩
      · exact .inr ⟨first :: front, parts, heading, last, by rw [hbefore], by rw [hafter]⟩
    | some name =>
      obtain ⟨front, hbefore, hafter⟩ | ⟨front, parts, heading, last, hbefore, hafter⟩ := ih
      · exact .inr ⟨[], [], name, front, by rw [hbefore]; rfl, by rw [hafter]; rfl⟩
      · exact .inr ⟨[], (name, front) :: parts, heading, last, by rw [hbefore]; rfl,
          by rw [hafter]; rfl⟩

theorem pieces_concat_nil (lines : List (List Char)) : pieces (lines ++ [[]]) = pieces lines := by
  unfold pieces
  obtain ⟨front, hbefore, hafter⟩ | ⟨front, parts, heading, last, hbefore, hafter⟩ :=
    @partAt_concat fileHeading? [] rfl lines
  · rw [hbefore, hafter]
    simp [Bullet.items_concat_nil]
  · rw [hbefore, hafter]
    simp [Bullet.items_concat_nil]

theorem items_newline (body : List Char) :
    Bullet.items (Chars.lines (body ++ ['\n'])) = Bullet.items (Chars.lines body) := by
  obtain h | h := Chars.lines_newline body
  · rw [h]
  · rw [h, Bullet.items_concat_nil]

theorem pieces_newline (body : List Char) :
    pieces (Chars.lines (body ++ ['\n'])) = pieces (Chars.lines body) := by
  obtain h | h := Chars.lines_newline body
  · rw [h]
  · rw [h, pieces_concat_nil]

theorem commentsIn_newline (body : List Char) : commentsIn (body ++ ['\n']) = commentsIn body := by
  have hlines : ((Chars.lines (body ++ ['\n'])).map Chars.trim).filter (!·.isEmpty) =
      ((Chars.lines body).map Chars.trim).filter (!·.isEmpty) := by
    obtain h | h := Chars.lines_newline body
    · rw [h]
    · rw [h, List.map_append, List.filter_append]
      simp [Chars.trim, Chars.trimBoth, Chars.trimEnd, Chars.trimStart]
  unfold commentsIn
  dsimp only
  rw [items_newline, hlines]

theorem Review.add_newline (review : Review) (heading body : List Char) :
    review.add heading (body ++ ['\n']) = review.add heading body := by
  unfold Review.add
  rw [commentsIn_newline, issuesByGroup_eq, pieces_newline, ← issuesByGroup_eq]

/-- A line feed at the end of a text does not count. -/
theorem read?_newline (text : List Char) : read? (text ++ ['\n']) = read? text := by
  have hlines : Chars.splitOn '\n' (text ++ ['\n']) = Chars.splitOn '\n' text ++ [[]] :=
    Chars.splitOn_append '\n' text []
  rw [read?_eq, read?_eq, sections, sections, hlines]
  obtain ⟨front, hbefore, hafter⟩ | ⟨front, parts, heading, last, hbefore, hafter⟩ :=
    @partAt_concat heading? [] rfl (Chars.splitOn '\n' text)
  · rw [hbefore, hafter]
  · have hadd (review : Review) : review.add heading (Chars.join ['\n'] (last ++ [[]])) =
        review.add heading (Chars.join ['\n'] last) := by
      by_cases hlast : last = []
      · rw [hlast]
        rfl
      · rw [Chars.join_concat_nil ['\n'] hlast, Review.add_newline]
    rw [hbefore, hafter]
    simp [hadd]

end Markdown

end Response

end CodeReview
