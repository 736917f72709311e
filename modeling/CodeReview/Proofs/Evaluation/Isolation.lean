import CodeReview.Proofs.Evaluation.Batch
import CodeReview.Proofs.FileSystem.Writing
import CodeReview.Proofs.Review.Aggregation

/-!
# Evaluations apart from each other

* `Dispatched`: every eligible file has one evaluation, which is done, and comes with one call at most.
* `Isolates`: nothing of one file reaches another: neither does its saved evaluation change what is
  asked about another file, nor does another file come with the same prompt.
* `isolates_of_untouched`: that is so if evaluations are saved in a folder of their own, and no path runs
  over several lines.
* `dispatch_isolates`: a dispatch in a calm session comes to an end for every file, and what a client
  answers about an isolated file is seen in the outcome of that file alone.
* `dispatch_leaks`: a file whose evaluation is saved over another file is not isolated.

Two runs of a batch differ in what was saved of the isolated file and in nothing else (`SavedAlike`).
`turns_isolated` carries that from turn to turn.
-/

namespace CodeReview

open ReviewM

/-! ## Prompts of different files -/

namespace Prompt

theorem join_singleton (line : String) : Text.join "\n" [line] = line := by
  apply String.toList_injective
  simp [Text.join]

theorem join_cons (line : String) {lines : List String} (h : lines ≠ []) :
    Text.join "\n" (line :: lines) = line ++ ("\n" ++ Text.join "\n" lines) := by
  obtain ⟨next, rest, rfl⟩ := List.exists_cons_of_ne_nil h
  apply String.toList_injective
  simp [Text.join]

/-- Texts that start with the same lines agree in the rest. -/
theorem join_eq_of_append (front : List String) {lines others : List String} (hlines : lines ≠ [])
    (hothers : others ≠ [])
    (h : Text.join "\n" (front ++ lines) = Text.join "\n" (front ++ others)) :
    Text.join "\n" lines = Text.join "\n" others := by
  induction front with
  | nil => exact h
  | cons line front ih =>
    rw [List.cons_append, List.cons_append, join_cons line (by simp [hlines]),
      join_cons line (by simp [hothers])] at h
    exact ih ((String.append_right_inj _).1 ((String.append_right_inj _).1 h))

/-- Texts that agree start with the same line. -/
theorem line_eq_of_join {line other : String} {lines others : List String}
    (hline : '\n' ∉ line.toList) (hother : '\n' ∉ other.toList) (hlines : lines ≠ [])
    (hothers : others ≠ []) (h : Text.join "\n" (line :: lines) = Text.join "\n" (other :: others)) :
    line = other := by
  have htake (text : List Char) (htext : '\n' ∉ text) (rest : List Char) :
      (text ++ '\n' :: rest).takeWhile (· != '\n') = text := by
    rw [List.takeWhile_append_of_pos fun c hc => bne_iff_ne.2 (ne_of_mem_of_not_mem hc htext)]
    simp
  rw [join_cons line hlines, join_cons other hothers] at h
  have hlists := congrArg (fun text : String => text.toList.takeWhile (· != '\n')) h
  simp only [String.toList_append] at hlists
  exact String.toList_injective ((htake _ hline _).symm.trans (hlists.trans (htake _ hother _)))

/-- The lines of a prompt. -/
theorem join_eq_of_ofLines {lines others : List String} (h : ofLines lines = ofLines others) :
    Text.join "\n" lines = Text.join "\n" others :=
  (String.append_left_inj "\n").1 h

/-- A prompt names its file, unless the path runs over several lines. -/
theorem path_eq_of_evaluation_eq {question other : FileQuestion}
    (hquestion : '\n' ∉ question.path.toList) (hother : '\n' ∉ other.path.toList)
    (h : evaluation question = evaluation other) : question.path = other.path := by
  have hhead (path : String) (hpath : '\n' ∉ path.toList) :
      '\n' ∉ ("- filePath: " ++ path).toList := by
    simpa using hpath
  simp only [evaluation, List.append_assoc, List.cons_append, List.nil_append] at h
  have hlines := join_eq_of_append [_, _, _, _, _] (List.cons_ne_nil _ _) (List.cons_ne_nil _ _)
    (join_eq_of_ofLines h)
  have hline := line_eq_of_join (hhead _ hquestion) (hhead _ hother) (List.cons_ne_nil _ _)
    (List.cons_ne_nil _ _) hlines
  exact (String.append_right_inj _).1 hline

/-- A prompt gives the whole content. -/
theorem content_eq_of_evaluation_eq {question : FileQuestion} {content : String}
    (h : evaluation question = evaluation { question with content }) :
    question.content = content := by
  have hlines := join_eq_of_append _ (List.cons_ne_nil _ _) (List.cons_ne_nil _ _)
    (join_eq_of_ofLines h)
  have hlast := join_eq_of_append [_, _, _, _, _, _, _, _, _, _, _, _] (List.cons_ne_nil _ _)
    (List.cons_ne_nil _ _) hlines
  rw [join_cons _ (List.cons_ne_nil _ _), join_cons _ (List.cons_ne_nil _ _)] at hlast
  exact (String.append_left_inj _).1 hlast

/-- A path of several lines may hold what the prompt about another file says next. -/
example (a b c : String) :
    let lines := Text.join "\n" (["- language: " ++ "n/a"] ++
      listed "- taking (imports, repo-relative, limited to 20):" [] ++
      listed "- dependents (files that import/call this, limited to 20):" [] ++
      listed "- calling (exported/public symbols, limited to 30):" [] ++
      ["",
        "Review goals:",
        "- Identify correctness/security issues and missing error handling.",
        "- Point out performance and scalability issues.",
        "- Note architecture or API misuse problems.",
        "- Suggest concrete, minimal improvements aligned with the codebase style.",
        "- Use the dependency context to check for broken imports/exports or misuse.",
        "",
        "Return the JSON object first, then a short summary of what the file does.",
        "",
        "File content starts:",
        "\x60\x60\x60" ++ languageTag none])
    evaluation { path := a, language := none, content := Text.join "\n" [b, lines, c] } =
      evaluation { path := Text.join "\n" [a, lines, b], language := none, content := c } := by
  simp only [evaluation, ofLines, listed, limited, List.map_nil, List.filter_nil, List.foldl_nil,
    List.take_nil, List.isEmpty_nil, if_true, List.cons_append, List.nil_append, Option.bind_none,
    Option.getD_none, join_cons _ (List.cons_ne_nil _ _), join_singleton, String.append_assoc]

end Prompt

namespace Outcome

/-- What is saved of an outcome. -/
def saves (outcome : Outcome) : List (String × Fields) :=
  outcome.findings.parsed.toList.map (outcome.path, ·)

theorem paths_saves (outcome : Outcome) : (outcome.saves.map (·.1)).Sublist [outcome.path] := by
  rw [saves]
  cases outcome.findings.parsed with
  | none => exact List.nil_sublist _
  | some fields => exact .refl _

/-- What is saved of an outcome is saved under its path. -/
theorem filter_saves (outcome : Outcome) {path : String} (h : outcome.path = path) :
    outcome.saves.filter (·.1 ≠ path) = [] :=
  List.filter_eq_nil_iff.2 fun save hsave => by
    have hmem := outcome.paths_saves.subset (List.mem_map_of_mem hsave)
    simpa [h] using hmem

end Outcome

namespace Evaluator

variable (evaluator : Evaluator)

/-! ## Two runs of a batch -/

/-- The same evaluator with another client. -/
def withClient (client : Client) : Evaluator := { evaluator with client }

@[simp] theorem asked_withClient (client : Client) (fs : FileSystem) (node : Node) :
    (evaluator.withClient client).asked fs node = evaluator.asked fs node := rfl

/-- The files after what was read about several files has been saved. -/
def savedAll (fs : FileSystem) (saves : List (String × Fields)) : FileSystem :=
  saves.foldl (fun fs (path, fields) => evaluator.saved fs path fields) fs

@[simp] theorem savedAll_withClient (client : Client) (fs : FileSystem)
    (saves : List (String × Fields)) :
    (evaluator.withClient client).savedAll fs saves = evaluator.savedAll fs saves := rfl

theorem filed_savedAll (fs : FileSystem) (saves : List (String × Fields)) (outcome : Outcome) :
    evaluator.filed (evaluator.savedAll fs saves) outcome =
      evaluator.savedAll fs (saves ++ outcome.saves) := by
  rw [savedAll, savedAll, List.foldl_append, filed, Outcome.saves]
  cases outcome.findings.parsed <;> rfl

theorem turns_savedAll_cons (fs : FileSystem) (saves : List (String × Fields))
    (earlier : List Call) (node : Node) (nodes : List Node) :
    evaluator.turns (evaluator.savedAll fs saves) earlier (node :: nodes) =
      evaluator.turn (evaluator.savedAll fs saves) earlier node ::
        evaluator.turns (evaluator.savedAll fs
            (saves ++ (evaluator.turn (evaluator.savedAll fs saves) earlier node).saves))
          (earlier ++ evaluator.asked (evaluator.savedAll fs saves) node) nodes := by
  rw [turns, filed_savedAll]

/-- Nothing of the file at a path reaches the other files of a batch, as long as the client answers
every prompt but one as before. Whatever is saved, it is saved once a file at most, and in order. -/
structure Isolates (fs : FileSystem) (nodes : List Node) (path prompt : String) : Prop where
  /-- Saving the evaluation of the file does not change what is asked about another. -/
  unchanged {saves : List (String × Fields)}
    (hsaves : (saves.map (·.1)).Sublist (nodes.map (·.path)))
    {node : Node} (hnode : node ∈ nodes) (h : node.path ≠ path) :
    evaluator.question (evaluator.savedAll fs saves) node =
      evaluator.question (evaluator.savedAll fs (saves.filter (·.1 ≠ path))) node
  /-- No other file comes with the prompt. -/
  different {saves : List (String × Fields)}
    (hsaves : (saves.map (·.1)).Sublist (nodes.map (·.path)))
    {node : Node} (hnode : node ∈ nodes) (h : node.path ≠ path) :
    evaluator.question (evaluator.savedAll fs saves) node ≠ .ok prompt

variable {evaluator}

theorem question_eq_ok_iff {fs : FileSystem} {node : Node} {prompt : String} :
    evaluator.question fs node = .ok prompt ↔ ∃ content,
      (node.load fs evaluator.root).map (·.1) = .ok content ∧
        evaluator.prompt node.path content = prompt := by
  rw [question]
  cases node.load fs evaluator.root with
  | error failure =>
    constructor
    · rintro ⟨⟩
    · rintro ⟨_, ⟨⟩, _⟩
  | ok loaded =>
    constructor
    · intro h
      exact ⟨loaded.1, rfl, Except.ok.inj h⟩
    · rintro ⟨content, h, rfl⟩
      obtain rfl := Except.ok.inj h
      rfl

theorem descends_dumpName (path : String) :
    Path.Descends (dumpName path) ∧ '/' ∉ (dumpName path).toList := by
  have hslash : '/' ∉ (dumpName path).toList := by
    rw [dumpName, String.toList_append, Text.replaceChar, Text.onChars, String.toList_ofList]
    intro hmem
    rcases List.mem_append.1 hmem with hmem | hmem
    · obtain ⟨c, -, hc⟩ := List.mem_map.1 hmem
      split at hc
      · exact absurd hc (by decide)
      · next hne => exact hne (beq_iff_eq.2 hc)
    · exact absurd hmem (by decide)
  refine ⟨Path.descends_of_name hslash ?_, hslash⟩
  have hjson : (".json" : String).utf8ByteSize = 5 := rfl
  rw [dumpName, String.utf8ByteSize_append, hjson]
  omega

/-- No evaluation that is saved reaches a file: the file has been read before, or it stands outside of the
folder of saved evaluations, in which there are no links. -/
def Untouched (evaluator : Evaluator) (fs : FileSystem) (node : Node) : Prop :=
  node.content.isSome = true ∨ ∀ folder ∈ evaluator.dumpFolder, ∃ place found entry,
    fs.LeadsOutside folder place (Path.under evaluator.root node.path) found entry

/-- What is saved leaves an untouched file untouched, and does not change what is asked about it. -/
theorem Untouched.saved {fs : FileSystem} {node : Node} (h : evaluator.Untouched fs node) (path : String)
    (fields : Fields) : evaluator.Untouched (evaluator.saved fs path fields) node ∧
      evaluator.question (evaluator.saved fs path fields) node = evaluator.question fs node := by
  unfold Evaluator.saved
  cases hfolder : evaluator.dumpFolder with
  | none => exact ⟨h, rfl⟩
  | some folder =>
    dsimp only
    cases hwritten : fs.writeInto (Path.under folder (dumpName path))
        (Json.obj fields).printIndented with
    | error failure => exact ⟨h, rfl⟩
    | ok later =>
      change evaluator.Untouched later node ∧ evaluator.question later node = _
      rw [question, question, Node.load, Node.load]
      cases hcontent : node.content with
      | some content => exact ⟨.inl (by rw [hcontent]; rfl), rfl⟩
      | none =>
        have hapart := h.resolve_left (by simp [hcontent])
        obtain ⟨place, found, entry, houtside⟩ := hapart folder hfolder
        obtain ⟨hdescends, hslash⟩ := descends_dumpName path
        have hlater := houtside.writeInto hdescends hslash hwritten
        refine ⟨.inr fun other hother => ?_, ?_⟩
        · obtain rfl := Option.some.inj (hfolder.symm.trans hother)
          exact ⟨place, found, entry, hlater⟩
        · dsimp only
          rw [FileSystem.readBytes, FileSystem.readBytes, hlater.leadsTo, houtside.leadsTo]

theorem Untouched.question_savedAll {fs : FileSystem} {node : Node} (h : evaluator.Untouched fs node)
    (saves : List (String × Fields)) :
    evaluator.question (evaluator.savedAll fs saves) node = evaluator.question fs node := by
  induction saves generalizing fs with
  | nil => rfl
  | cons save saves ih =>
    obtain ⟨hlater, hquestion⟩ := h.saved save.1 save.2
    exact (ih hlater).trans hquestion

/-- A file is isolated if no other file is touched by what is saved, and no path runs over several
lines. -/
theorem isolates_of_untouched {fs : FileSystem} {nodes : List Node} {path : String}
    (hothers : ∀ node ∈ nodes, node.path ≠ path → evaluator.Untouched fs node)
    (hpath : '\n' ∉ path.toList) (hpaths : ∀ node ∈ nodes, '\n' ∉ node.path.toList)
    (content : String) : evaluator.Isolates fs nodes path (evaluator.prompt path content) where
  unchanged := by
    intro saves hsaves node hnode h
    have huntouched := hothers node hnode h
    rw [huntouched.question_savedAll, huntouched.question_savedAll]
  different := by
    intro saves hsaves node hnode h heq
    obtain ⟨content, -, hprompt⟩ := question_eq_ok_iff.1 heq
    exact h (Prompt.path_eq_of_evaluation_eq (hpaths node hnode) hpath hprompt)

/-- A client that answers alike about a file takes the turn of the file to the same outcome. -/
theorem turn_congr {client : Client} {prompt : String}
    (hagree : ∀ earlier call, call.user ≠ prompt →
      client earlier call = evaluator.client earlier call)
    {fs fs' : FileSystem} {node : Node}
    (hquestion : evaluator.question fs' node = evaluator.question fs node)
    (hprompt : evaluator.question fs node ≠ .ok prompt) (earlier : List Call) :
    (evaluator.withClient client).turn fs' earlier node = evaluator.turn fs earlier node := by
  change settled node.path
    (evaluator.question fs' node >>= (evaluator.withClient client).answer earlier node.path) = _
  rw [hquestion, turn]
  cases h : evaluator.question fs node with
  | error failure => rfl
  | ok other =>
    have hother : other ≠ prompt := fun heq => hprompt (heq ▸ h)
    have hanswer := hagree earlier (evaluator.call node.path other) hother
    change settled node.path (client earlier (evaluator.call node.path other) >>= _) = _
    rw [hanswer]
    rfl

/-- What two runs have saved of the files before: each file at most once and in order, and the same of
all files but the one at a path. -/
structure SavedAlike (path : String) (before : List Node) (saves saves' : List (String × Fields)) :
    Prop where
  once : (saves.map (·.1)).Sublist (before.map (·.path))
  once' : (saves'.map (·.1)).Sublist (before.map (·.path))
  same : saves'.filter (·.1 ≠ path) = saves.filter (·.1 ≠ path)

namespace SavedAlike

variable {path : String} {before : List Node} {node : Node} {saves saves' : List (String × Fields)}

theorem nil (path : String) : SavedAlike path [] [] [] :=
  ⟨List.nil_sublist _, List.nil_sublist _, rfl⟩

/-- As long as the file at the path has not had its turn, the same has been saved. -/
theorem eq_of_notMem (h : SavedAlike path before saves saves') (hnew : path ∉ before.map (·.path)) :
    saves' = saves := by
  have hkeep {saves : List (String × Fields)}
      (honce : (saves.map (·.1)).Sublist (before.map (·.path))) :
      saves.filter (·.1 ≠ path) = saves :=
    List.filter_eq_self.2 fun save hsave => decide_eq_true fun heq =>
      hnew (heq ▸ honce.subset (List.mem_map_of_mem hsave))
  rw [← hkeep h.once', h.same, hkeep h.once]

/-- A turn keeps that up if what is saved of it differs at the path only. -/
theorem append (h : SavedAlike path before saves saves') {outcome outcome' : Outcome}
    (hpath : outcome.path = node.path) (hpath' : outcome'.path = node.path)
    (hsame : outcome'.saves.filter (·.1 ≠ path) = outcome.saves.filter (·.1 ≠ path)) :
    SavedAlike path (before ++ [node]) (saves ++ outcome.saves) (saves' ++ outcome'.saves) := by
  have hsaved {saves : List (String × Fields)} {outcome : Outcome} (hpath : outcome.path = node.path)
      (honce : (saves.map (·.1)).Sublist (before.map (·.path))) :
      ((saves ++ outcome.saves).map (·.1)).Sublist ((before ++ [node]).map (·.path)) := by
    rw [List.map_append, List.map_append, List.map_singleton, ← hpath]
    exact honce.append outcome.paths_saves
  refine ⟨hsaved hpath h.once, hsaved hpath' h.once', ?_⟩
  rw [List.filter_append, List.filter_append, h.same, hsame]

/-- The turn of the file at the path keeps that up, whatever comes of it in either run. -/
theorem append_own (h : SavedAlike path before saves saves') {outcome outcome' : Outcome}
    (hnode : node.path = path) (hpath : outcome.path = node.path)
    (hpath' : outcome'.path = node.path) :
    SavedAlike path (before ++ [node]) (saves ++ outcome.saves) (saves' ++ outcome'.saves) := by
  refine h.append hpath hpath' ?_
  rw [outcome.filter_saves (hpath.trans hnode), outcome'.filter_saves (hpath'.trans hnode)]

end SavedAlike

/-- Another file has the same turn in two runs that have saved alike. -/
theorem Isolates.turn_eq {client : Client} {path prompt : String}
    (hagree : ∀ earlier call, call.user ≠ prompt →
      client earlier call = evaluator.client earlier call)
    {fs : FileSystem} {all before : List Node} (hall : evaluator.Isolates fs all path prompt)
    (hbefore : (before.map (·.path)).Sublist (all.map (·.path)))
    {saves saves' : List (String × Fields)} (halike : SavedAlike path before saves saves')
    {node : Node} (hmem : node ∈ all) (h : node.path ≠ path) (earlier : List Call) :
    (evaluator.withClient client).turn (evaluator.savedAll fs saves') earlier node =
        evaluator.turn (evaluator.savedAll fs saves) earlier node ∧
      evaluator.asked (evaluator.savedAll fs saves') node =
        evaluator.asked (evaluator.savedAll fs saves) node := by
  have hquestion : evaluator.question (evaluator.savedAll fs saves') node =
      evaluator.question (evaluator.savedAll fs saves) node := by
    rw [hall.unchanged (halike.once'.trans hbefore) hmem h, halike.same,
      ← hall.unchanged (halike.once.trans hbefore) hmem h]
  refine ⟨turn_congr hagree hquestion (hall.different (halike.once.trans hbefore) hmem h) earlier, ?_⟩
  rw [asked, asked, hquestion]

/-- Of two runs with clients that answer alike but for one prompt, the outcomes of all files but one
agree. The induction is on the files that are still to come, and what has been saved so far is alike. -/
theorem turns_isolated {client : Client} {path prompt : String}
    (hagree : ∀ earlier call, call.user ≠ prompt →
      client earlier call = evaluator.client earlier call)
    {fs : FileSystem} {all : List Node} (hpaths : (all.map (·.path)).Nodup)
    (hall : evaluator.Isolates fs all path prompt) {before nodes : List Node}
    (hnodes : before ++ nodes = all) {saves saves' : List (String × Fields)}
    (halike : SavedAlike path before saves saves') (earlier : List Call) :
    ((evaluator.withClient client).turns (evaluator.savedAll fs saves') earlier nodes).filter
        (·.path ≠ path) =
      (evaluator.turns (evaluator.savedAll fs saves) earlier nodes).filter (·.path ≠ path) := by
  induction nodes generalizing before saves saves' earlier with
  | nil => rfl
  | cons node nodes ih =>
    have hmem : node ∈ all := hnodes ▸ by simp
    have hnodes' : (before ++ [node]) ++ nodes = all := by rw [← hnodes]; simp
    have hcons := evaluator.turns_savedAll_cons fs saves earlier node nodes
    have hcons' := (evaluator.withClient client).turns_savedAll_cons fs saves' earlier node nodes
    simp only [savedAll_withClient, asked_withClient] at hcons'
    rw [hcons, hcons']
    by_cases h : node.path = path
    · have hnew : path ∉ before.map (·.path) := fun hold => by
        rw [← hnodes, List.map_append, List.map_cons] at hpaths
        exact (List.nodup_append.1 hpaths).2.2 _ hold _ List.mem_cons_self h.symm
      obtain rfl := halike.eq_of_notMem hnew
      rw [List.filter_cons_of_neg (by simp [path_turn, h]),
        List.filter_cons_of_neg (by simp [path_turn, h])]
      exact ih hnodes' (halike.append_own h (path_turn ..) (path_turn ..)) _
    · have hbefore : (before.map (·.path)).Sublist (all.map (·.path)) := by
        rw [← hnodes, List.map_append]
        exact List.sublist_append_left ..
      obtain ⟨hturn, hasked⟩ := hall.turn_eq hagree hbefore halike hmem h earlier
      have hpath : (evaluator.turn (evaluator.savedAll fs saves) earlier node).path = node.path :=
        path_turn ..
      have hrest := ih hnodes' (halike.append hpath hpath rfl)
        (earlier ++ evaluator.asked (evaluator.savedAll fs saves) node)
      rw [hturn, hasked, List.filter_cons, List.filter_cons, hrest]

/-! ## A repository and two folders to save its evaluations in -/

open FileSystem

/-- A repository `r` of the files `a` and `a.json`, and an empty folder `d`. -/
def twoFiles (bytes : List UInt8) : FileSystem where
  entries := [(["d"], .folder), (["r"], .folder), (["r", "a"], .file []), (["r", "a.json"], .file bytes)]

/-- The files of the repository, in the order in which they are evaluated. -/
def twoNodes : List Node := [{ path := "a" }, { path := "a.json" }]

theorem resolve_twoFiles (bytes : List UInt8) :
    (twoFiles bytes).resolve "/r" = .ok (["r"], .folder) ∧
    (twoFiles bytes).resolve "/r/a" = .ok (["r", "a"], .file []) ∧
    (twoFiles bytes).resolve "/r/a.json" = .ok (["r", "a.json"], .file bytes) := by
  refine ⟨?_, ?_, ?_⟩ <;> exact resolve_of_within 4 (by decide) (by rfl)

/-- The second file stands outside of the empty folder. -/
theorem leadsOutside_twoFiles (bytes : List UInt8) : (twoFiles bytes).LeadsOutside "/d" ["d"]
    (Path.under "/r" "a.json") ["r", "a.json"] (.file bytes) where
  folder := resolve_of_within 4 (by decide) (by rfl)
  not_link name target hlink := by
    have hmem := mem_entries_of_found hlink (by simp)
    simp [twoFiles] at hmem
  leadsTo := (resolve_twoFiles bytes).2.2
  outside name := by simp

/-- An evaluator that saves evaluations in a folder. It is refused an answer to some prompts. -/
def refusing (folder : String) (prompts : List String) : Evaluator where
  client _ call := if call.user ∈ prompts then .error (.emptyCompletion "model") else .ok "{}"
  settings := { workers := 1 }
  graph := {}
  root := "/r"
  dumpFolder := some folder

/-- The prompt about a file of these bytes. -/
def promptAbout (path : String) (bytes : List UInt8) : String :=
  (refusing "/r" []).prompt path (String.ofList (Text.Utf8.decode bytes))

theorem question_refusing (prompts : List String) (bytes : List UInt8) :
    (refusing "/r" prompts).question (twoFiles bytes) { path := "a" } = .ok (promptAbout "a" []) ∧
    (refusing "/r" prompts).question (twoFiles bytes) { path := "a.json" } =
      .ok (promptAbout "a.json" bytes) := by
  obtain ⟨-, hfirst, hsecond⟩ := resolve_twoFiles bytes
  have hread : (twoFiles bytes).readBytes (Path.under "/r" "a") = .ok [] := by
    change (twoFiles bytes).readBytes "/r/a" = _
    rw [readBytes, if_neg (by cbv; decide), hfirst]
  have hread' : (twoFiles bytes).readBytes (Path.under "/r" "a.json") = .ok bytes := by
    change (twoFiles bytes).readBytes "/r/a.json" = _
    rw [readBytes, if_neg (by cbv; decide), hsecond]
  refine ⟨question_eq_ok_iff.2 ⟨_, ?_, rfl⟩, question_eq_ok_iff.2 ⟨_, ?_, rfl⟩⟩
  · change ((twoFiles bytes).readBytes (Path.under "/r" "a") >>= _).map _ = _
    rw [hread]
    rfl
  · change ((twoFiles bytes).readBytes (Path.under "/r" "a.json") >>= _).map _ = _
    rw [hread']
    rfl

theorem saved_refusing (prompts : List String) (bytes : List UInt8) :
    (refusing "/r" prompts).saved (twoFiles bytes) "a" [] = twoFiles [123, 125] := by
  obtain ⟨htop, -, hfile⟩ := resolve_twoFiles bytes
  have hfolders : (twoFiles bytes).makeFolders "/r" = .ok (twoFiles bytes) :=
    @makeFolders_of_folder (twoFiles bytes) ["r"] "/r" htop
  have hwritten : (twoFiles bytes).writeInto "/r/a.json" "{}" = .ok (twoFiles [123, 125]) := by
    change (twoFiles bytes).makeFolders "/r" >>= _ = _
    rw [hfolders]
    change (twoFiles bytes).writeBytes "/r/a.json" [123, 125] = _
    rw [writeBytes, hfile]
    rfl
  change ((twoFiles bytes).writeInto "/r/a.json" "{}").toOption.getD _ = _
  rw [hwritten]
  rfl

theorem outcome_braces (path : String) :
    Response.outcome "{}" path = .ok ⟨path, .reviewed { parsed := some [] }⟩ := by
  rfl

theorem turn_refusing {prompts : List String} {fs : FileSystem} {node : Node} {prompt : String}
    (h : (refusing "/r" prompts).question fs node = .ok prompt) (earlier : List Call) :
    (refusing "/r" prompts).turn fs earlier node =
      if prompt ∈ prompts then
        .failure node.path (Failure.emptyCompletion "model").described
      else ⟨node.path, .reviewed { parsed := some [] }⟩ := by
  rw [turn, h]
  change settled node.path ((if prompt ∈ prompts then .error (.emptyCompletion "model") else .ok "{}")
    >>= fun response => Response.outcome response node.path) = _
  split
  · rfl
  · change settled node.path (Response.outcome "{}" node.path) = _
    rw [outcome_braces]
    rfl

theorem promptAbout_ne : promptAbout "a" [] ≠ promptAbout "a.json" [49] ∧
    promptAbout "a.json" [123, 125] ≠ promptAbout "a.json" [49] := by
  refine ⟨fun h => ?_, fun h => ?_⟩
  · have hpath := Prompt.path_eq_of_evaluation_eq (by decide) (by decide) h
    exact absurd hpath (by decide)
  · have hcontent := Prompt.content_eq_of_evaluation_eq h
    exact absurd hcontent (by decide +kernel)

/-- If the client refuses only to answer about the second file as it was, the evaluation of the first
file is saved over it, and it is answered about as well. -/
theorem turns_refusing_second :
    (refusing "/r" [promptAbout "a.json" [49]]).turns (twoFiles [49]) []
      twoNodes =
      [⟨"a", .reviewed { parsed := some [] }⟩, ⟨"a.json", .reviewed { parsed := some [] }⟩] := by
  have hfirst := turn_refusing (question_refusing [promptAbout "a.json" [49]] [49]).1 []
  rw [if_neg (by simpa using promptAbout_ne.1)] at hfirst
  have hsecond := turn_refusing (question_refusing [promptAbout "a.json" [49]] [123, 125]).2
  rw [twoNodes, turns, hfirst, filed]
  dsimp only [Outcome.findings]
  rw [saved_refusing, turns, hsecond, if_neg (by simpa using promptAbout_ne.2)]
  rfl

/-- If the client also refuses to answer about the first file, nothing is saved. -/
theorem turns_refusing_both :
    (refusing "/r" [promptAbout "a" [], promptAbout "a.json" [49]]).turns (twoFiles [49]) []
      twoNodes =
      [.failure "a" (Failure.emptyCompletion "model").described,
        .failure "a.json" (Failure.emptyCompletion "model").described] := by
  have hquestion := question_refusing [promptAbout "a" [], promptAbout "a.json" [49]] [49]
  have hfirst := turn_refusing hquestion.1 []
  have hsecond := turn_refusing hquestion.2
  rw [if_pos (by simp)] at hfirst
  rw [twoNodes, turns, hfirst, filed]
  dsimp only [Outcome.findings, Outcome.failure]
  rw [turns, hsecond, if_pos (by simp)]
  rfl

/-- A session with a budget of a thousand tokens a second. -/
def twoFilesSession : Session where
  fs := twoFiles [49]
  bucket := { capacity := 60000, rate := 1000, slack := 0, tokens := 60000, filledAt := 0 }

theorem calm_twoFilesSession : twoFilesSession.Calm where
  goesOn := rfl
  ready := by
    refine ⟨⟨?_, ?_, ?_, ?_⟩, rfl, ?_⟩ <;> decide

theorem dispatch_refusing (prompts : List String) : ∃ later,
    ((refusing "/r" prompts).dispatch (fun _ => false) twoNodes).runFrom twoFilesSession =
      (.ok (evaluations ((refusing "/r" prompts).turns (twoFiles [49]) [] twoNodes)), later) := by
  obtain ⟨later, hdispatch, -⟩ := (refusing "/r" prompts).runFrom_dispatch Int.one_pos
    calm_twoFilesSession (show (twoNodes.map (·.path)).Nodup by decide)
  exact ⟨later, hdispatch⟩

/-! ## A dispatch -/

/-- What a dispatch of files has come to, and what the session after it shows. -/
structure Dispatched (evaluator : Evaluator) (files : List Node) (session later : Session)
    (evaluations : Keyed Evaluation) : Prop where
  /-- The eligible files have one evaluation each, in order. -/
  keys : evaluations.keys = (evaluator.eligible files).map (·.path)
  /-- Each is done, and its outcome is that of its file. -/
  done {path : String} {evaluation : Evaluation} (h : (path, evaluation) ∈ evaluations) :
    ∃ outcome, evaluation = .done outcome ∧ outcome.path = path
  /-- The calls are about eligible files, in their order, and about each of them there is one at most. -/
  calls : ∃ asked, later.calls = session.calls ++ asked ∧
    (asked.map (·.purpose)).Sublist
      ((evaluator.eligible files).map fun node => .evaluation node.path) ∧
    (asked.map (·.purpose)).Nodup
  /-- The report has the files of the evaluations. -/
  report (timeout : Binary64) : ∃ report,
    Evaluation.aggregate evaluations timeout = .ok report ∧ report.files = evaluations.keys

theorem eraseDups_of_nodup {paths : List String} (h : paths.Nodup) : paths.eraseDups = paths := by
  induction paths with
  | nil => rfl
  | cons path paths ih =>
    obtain ⟨hpath, hpaths⟩ := List.nodup_cons.1 h
    have hothers : paths.filter (fun other => !other == path) = paths :=
      List.filter_eq_self.2 fun other hother => by
        simpa using ne_of_mem_of_not_mem hother hpath
    rw [List.eraseDups_cons, hothers, ih hpaths]

theorem collectAll_evaluations (outcomes : List Outcome) (timeout : Binary64) :
    Evaluation.collectAll (evaluations outcomes) timeout = .ok outcomes := by
  rw [Evaluation.collectAll, mapM_eq_ok_iff, evaluations, List.forall₂_map_left_iff, List.forall₂_same]
  exact fun _ _ => rfl

/-- Evaluations that are all done come to the report of their outcomes. -/
theorem aggregate_evaluations (outcomes : List Outcome) (timeout : Binary64) :
    Evaluation.aggregate (evaluations outcomes) timeout = .ok (Report.ofOutcomes outcomes) :=
  Evaluation.aggregate_of_collectAll (collectAll_evaluations outcomes timeout)

/-- Outcomes that agree but for one path stand under the other paths alike. -/
theorem get?_evaluations_of_filter_eq {outcomes outcomes' : List Outcome} {path : String}
    (h : outcomes'.filter (·.path ≠ path) = outcomes.filter (·.path ≠ path)) {other : String}
    (hother : other ≠ path) :
    (evaluations outcomes').get? other = (evaluations outcomes).get? other := by
  have hfilter (outcomes : List Outcome) : (evaluations outcomes).get? other =
      (evaluations (outcomes.filter (·.path ≠ path))).get? other := by
    induction outcomes with
    | nil => rfl
    | cons outcome outcomes ih =>
      rw [evaluations, List.map_cons, Keyed.get?_cons, List.filter_cons]
      by_cases hpath : outcome.path = path
      · rw [if_neg (hpath ▸ hother), if_neg (by simp [hpath])]
        exact ih
      · rw [if_pos (decide_eq_true hpath), evaluations, List.map_cons, Keyed.get?_cons]
        exact congrArg _ ih
  rw [hfilter, h, ← hfilter]

theorem dispatched_turns {session later : Session} {files : List Node}
    (hpaths : (files.map (·.path)).Nodup)
    (hlater : later.calls = session.calls ++
      evaluator.calls session.fs session.calls ((evaluator.eligible files).map session.known)) :
    evaluator.Dispatched files session later (evaluations (evaluator.turns session.fs session.calls
      ((evaluator.eligible files).map session.known))) := by
  have heligible : ((evaluator.eligible files).map (·.path)).Nodup :=
    hpaths.sublist (List.filter_sublist.map _)
  have hkeys : (evaluations (evaluator.turns session.fs session.calls
      ((evaluator.eligible files).map session.known))).keys =
      (evaluator.eligible files).map (·.path) := by
    rw [keys_evaluations, paths_turns, Session.paths_known]
  have hpurposes := evaluator.purposes_calls session.fs session.calls
    ((evaluator.eligible files).map session.known)
  rw [List.map_map, Function.comp_def] at hpurposes
  simp only [Session.path_known] at hpurposes
  refine
    { keys := hkeys
      done := fun h => ?_
      calls := ⟨_, hlater, hpurposes, hpurposes.nodup ?_⟩
      report := fun timeout => ⟨_, aggregate_evaluations _ timeout, ?_⟩ }
  · obtain ⟨outcome, -, heq⟩ := List.mem_map.1 h
    obtain ⟨rfl, rfl⟩ := Prod.mk.inj heq
    exact ⟨outcome, rfl, rfl⟩
  · have hinjective : Function.Injective Purpose.evaluation := fun _ _ => Purpose.evaluation.inj
    simpa only [List.map_map, Function.comp_def] using heligible.map hinjective
  · rw [Report.files_ofOutcomes, paths_turns, Session.paths_known, hkeys, eraseDups_of_nodup heligible]

/-- In a calm session a dispatch on one worker gives every eligible file its own outcome, whatever
goes wrong with some of them. What the client answers to one prompt reaches no file but the one that
comes with it, as long as that file is isolated. -/
theorem dispatch_isolates {session : Session} {files : List Node}
    (hworkers : evaluator.settings.workers = 1) (hpaths : (files.map (·.path)).Nodup)
    (hcalm : session.Calm) : ∃ evaluations later,
    (evaluator.dispatch (fun _ => false) files).runFrom session = (.ok evaluations, later) ∧
    evaluator.Dispatched files session later evaluations ∧
    ∀ client path prompt,
      (∀ earlier call, call.user ≠ prompt →
        client earlier call = evaluator.client earlier call) →
      evaluator.Isolates session.fs ((evaluator.eligible files).map session.known) path prompt →
      ∃ others last, ((evaluator.withClient client).dispatch (fun _ => false) files).runFrom
          session = (.ok others, last) ∧
        ∀ other, other ≠ path → others.get? other = evaluations.get? other := by
  have hpositive : 0 < evaluator.settings.workers := by omega
  obtain ⟨later, hdispatch, hcalls⟩ := evaluator.runFrom_dispatch hpositive hcalm hpaths
  refine ⟨_, later, hdispatch, dispatched_turns hpaths hcalls, ?_⟩
  intro client path prompt hagree hisolates
  obtain ⟨last, hother, -⟩ :=
    (evaluator.withClient client).runFrom_dispatch hpositive hcalm hpaths
  refine ⟨_, last, hother, fun other hne => get?_evaluations_of_filter_eq ?_ hne⟩
  have hnodup : (((evaluator.eligible files).map session.known).map (·.path)).Nodup := by
    rw [Session.paths_known]
    exact hpaths.sublist (List.filter_sublist.map _)
  exact turns_isolated hagree hnodup hisolates (List.nil_append _) (.nil path) session.calls

/-- Each file is isolated if the evaluations are saved in a folder of their own. -/
theorem dispatch_isolates_apart :
    (refusing "/d" []).settings.workers = 1 ∧ (twoNodes.map (·.path)).Nodup ∧
    twoFilesSession.Calm ∧ ∃ evaluations later others last,
      ((refusing "/d" []).dispatch (fun _ => false) twoNodes).runFrom twoFilesSession =
        (.ok evaluations, later) ∧
      (refusing "/d" []).Dispatched twoNodes twoFilesSession later evaluations ∧
      ((refusing "/d" [promptAbout "a" []]).dispatch (fun _ => false) twoNodes).runFrom
        twoFilesSession = (.ok others, last) ∧
      others.get? "a.json" = evaluations.get? "a.json" := by
  have hpaths : (twoNodes.map (·.path)).Nodup := by decide
  refine ⟨rfl, hpaths, calm_twoFilesSession, ?_⟩
  obtain ⟨evaluations, later, hdispatch, hdispatched, hothers⟩ :=
    @dispatch_isolates (refusing "/d" []) twoFilesSession twoNodes rfl hpaths calm_twoFilesSession
  have hagree (earlier : List Call) (call : Call) (hcall : call.user ≠ promptAbout "a" []) :
      (refusing "/d" [promptAbout "a" []]).client earlier call =
        (refusing "/d" []).client earlier call := by
    simp [refusing, hcall]
  have hfiles : ((refusing "/d" []).eligible twoNodes).map twoFilesSession.known = twoNodes := by
    decide
  have hisolates : (refusing "/d" []).Isolates twoFilesSession.fs
      (((refusing "/d" []).eligible twoNodes).map twoFilesSession.known) "a" (promptAbout "a" []) := by
    rw [hfiles]
    refine isolates_of_untouched (fun node hnode hother => ?_) (by decide) (by decide) _
    have hcases : node = { path := "a" } ∨ node = { path := "a.json" } := by
      simpa [twoNodes] using hnode
    obtain rfl := hcases.resolve_left fun heq => hother (heq ▸ rfl)
    exact .inr fun folder hfolder => ⟨_, _, _, Option.some.inj hfolder ▸ leadsOutside_twoFiles [49]⟩
  obtain ⟨others, last, hother, hsame⟩ := hothers _ "a" _ hagree hisolates
  exact ⟨evaluations, later, others, last, hdispatch, hdispatched, hother, hsame "a.json" (by decide)⟩

/-- A file whose evaluation is saved over another file reaches that file. -/
theorem dispatch_leaks : ¬ ∀ (evaluator : Evaluator) (session : Session) (files : List Node),
    evaluator.settings.workers = 1 → (files.map (·.path)).Nodup → session.Calm →
    ∀ client, ∀ node ∈ evaluator.eligible files, ∀ prompt,
      evaluator.question session.fs (session.known node) = .ok prompt →
      (∀ earlier call, call.user ≠ prompt →
        client earlier call = evaluator.client earlier call) →
      ∀ evaluations later others last,
        (evaluator.dispatch (fun _ => false) files).runFrom session = (.ok evaluations, later) →
        ((evaluator.withClient client).dispatch (fun _ => false) files).runFrom session =
          (.ok others, last) →
        ∀ other, other ≠ node.path → others.get? other = evaluations.get? other := by
  intro h
  obtain ⟨later, hdispatch⟩ := dispatch_refusing [promptAbout "a.json" [49]]
  obtain ⟨last, hother⟩ := dispatch_refusing [promptAbout "a" [], promptAbout "a.json" [49]]
  have hagree (earlier : List Call) (call : Call) (hcall : call.user ≠ promptAbout "a" []) :
      (refusing "/r" [promptAbout "a" [], promptAbout "a.json" [49]]).client earlier call =
        (refusing "/r" [promptAbout "a.json" [49]]).client earlier call := by
    simp [refusing, hcall]
  have hmem : { path := "a" } ∈ (refusing "/r" [promptAbout "a.json" [49]]).eligible twoNodes := by
    decide
  have hsame := h _ twoFilesSession twoNodes rfl (by decide) calm_twoFilesSession _ { path := "a" } hmem
    _ (question_refusing _ _).1 hagree _ _ _ _ hdispatch hother "a.json" (by decide)
  rw [turns_refusing_second, turns_refusing_both] at hsame
  cases hsame

end Evaluator

end CodeReview
