import CodeReview.Proofs.Review.Phases
import CodeReview.Proofs.Sorting

/-!
# What a rollup asks and keeps

A rollup asks for one summary of each folder and then for one of the repository, and keeps what it was told under
its run.

* `textsIn`: what there is to summarize in a folder, and `mem_folders`: the folders that a rollup goes through.
* `exists_folderSummaries`: what is asked about folders of which nothing is kept, and what is kept of them then.
* `runFrom_fold_of_kept`: where everything is kept, nothing is asked.
* `ofRun_afterAll`: rollups of other runs leave alone what is kept of this one.
* `fold_accounts`: a rollup uses every summary once, and the same rollup gives the same later on, without a call.
-/

namespace CodeReview

open ReviewM Text

/-! ## Kept summaries -/

namespace SummaryCache

variable (cache : SummaryCache) (run other folder summary : String)

theorem ofRun_put (summaries : RunSummaries) :
    ofRun (Keyed.put cache other summaries) run = if run = other then summaries else cache.ofRun run := by
  rw [ofRun, Keyed.get?_put]
  split <;> rfl

theorem folder?_keepFolder : (cache.keepFolder run folder summary).folder? run other =
    if other = folder then some summary else cache.folder? run other := by
  rw [folder?, keepFolder, ofRun_put, if_pos rfl]
  exact Keyed.get?_put _ folder other summary

theorem root?_keepFolder : (cache.keepFolder run folder summary).root? run = cache.root? run := by
  rw [root?, keepFolder, ofRun_put, if_pos rfl]
  rfl

theorem folder?_keepRoot : (cache.keepRoot run summary).folder? run folder = cache.folder? run folder := by
  rw [folder?, keepRoot, ofRun_put, if_pos rfl]
  rfl

theorem root?_keepRoot : (cache.keepRoot run summary).root? run = some summary := by
  rw [root?, keepRoot, ofRun_put, if_pos rfl]

variable {run other}

theorem ofRun_keepFolder_of_ne (h : run ≠ other) :
    (cache.keepFolder other folder summary).ofRun run = cache.ofRun run := by
  rw [keepFolder, ofRun_put, if_neg h]

theorem ofRun_keepRoot_of_ne (h : run ≠ other) :
    (cache.keepRoot other summary).ofRun run = cache.ofRun run := by
  rw [keepRoot, ofRun_put, if_neg h]

end SummaryCache

namespace Rollup

/-! ## Folders -/

section Folders

variable {summaries : Keyed String} {folder : String}

/-- The summaries of the files of a folder, in order, but for the empty ones. -/
def textsIn (summaries : Keyed String) (folder : String) : List String :=
  ((summaries.filter fun (path, _) => Path.folder path == folder).map (·.2)).filter (!·.isEmpty)

theorem byFolder_eq (summaries : Keyed String) : byFolder summaries =
    Keyed.extendAll [] (summaries.map fun (path, summary) => (Path.folder path, [summary])) := by
  rw [byFolder, Keyed.extendAll, List.foldl_map]

theorem get?_byFolder (summaries : Keyed String) (folder : String) : (byFolder summaries).get? folder =
    if ∃ entry ∈ summaries, Path.folder entry.1 = folder then
      some ((summaries.filter fun (path, _) => Path.folder path == folder).map (·.2))
    else none := by
  have hflat : ((summaries.map fun (path, summary) => (Path.folder path, [summary])).filter
      (·.1 == folder)).flatMap (·.2) =
        (summaries.filter fun (path, _) => Path.folder path == folder).map (·.2) := by
    rw [List.filter_map, List.flatMap_map]
    exact (List.map_eq_flatMap ..).symm
  rw [byFolder_eq, Keyed.get?_extendAll, hflat]
  simp only [List.map_map, List.mem_map, Function.comp_apply]
  rfl

theorem textsIn_eq (summaries : Keyed String) (folder : String) :
    (((byFolder summaries).get? folder).getD []).filter (!·.isEmpty) = textsIn summaries folder := by
  rw [get?_byFolder, textsIn]
  split
  · rfl
  · next hnone =>
    have hfilter : (summaries.filter fun (path, _) => Path.folder path == folder) = [] := by
      rw [List.filter_eq_nil_iff]
      intro entry hentry hfolder
      exact hnone ⟨entry, hentry, beq_iff_eq.1 hfolder⟩
    rw [hfilter]
    rfl

theorem mem_keys_byFolder : folder ∈ (byFolder summaries).keys ↔
    ∃ entry ∈ summaries, Path.folder entry.1 = folder := by
  have hget := get?_byFolder summaries folder
  constructor
  · intro hkey
    by_contra hnone
    rw [if_neg hnone] at hget
    obtain ⟨entry, hentry, rfl⟩ := List.mem_map.1 hkey
    simpa using List.lookup_eq_none_iff.1 hget entry hentry
  · intro hentry
    rw [if_pos hentry] at hget
    exact Keyed.mem_keys_of_get? hget

/-- The folders below the root go up, and each stands there once. -/
theorem pairwise_folders (summaries : Keyed String) : (folders (byFolder summaries)).Pairwise (· < ·) := by
  refine @pairwise_lt_mergeSort String id _ ?_
  rw [byFolder_eq]
  exact (@Keyed.nodup_keys_extendAll String [] List.nodup_nil _).filter _

theorem mem_folders : folder ∈ folders (byFolder summaries) ↔
    folder ≠ "" ∧ ∃ entry ∈ summaries, Path.folder entry.1 = folder := by
  rw [folders, List.mem_mergeSort, List.mem_filter, mem_keys_byFolder, bne_iff_ne, and_comm]

theorem exists_of_textsIn (h : textsIn summaries folder ≠ []) :
    ∃ entry ∈ summaries, Path.folder entry.1 = folder := by
  by_contra hnone
  refine h ?_
  rw [← textsIn_eq, get?_byFolder, if_neg hnone]
  rfl

end Folders

/-! ## Calls -/

/-- The call for a summary of texts. -/
def call (settings : Settings) (texts : List String) : Call :=
  { purpose := .rollup, user := join "\n\n" texts, maxTokens := settings.maxTokens, temperature }

/-- The calls for a summary of texts: one, unless there is nothing to summarize. -/
def callsFor (settings : Settings) (texts : List String) : List Call :=
  if texts = [] then [] else [call settings texts]

/-- Behind earlier calls, the client gives the replies to the calls, one after the other. -/
inductive Answers (client : Client) : (earlier calls : List Call) → List String → Prop
  | nil {earlier : List Call} : Answers client earlier [] []
  | cons {earlier calls : List Call} {call : Call} {reply : String} {replies : List String}
      (hreply : client earlier call = .ok reply) (rest : Answers client (earlier ++ [call]) calls replies) :
      Answers client earlier (call :: calls) (reply :: replies)

section Calls

variable {client : Client} {settings : Settings} {session later : Session} {texts : List String}
  {run folder : String}

theorem Answers.append {earlier calls more : List Call} {replies moreReplies : List String}
    (h : Answers client earlier calls replies) (hmore : Answers client (earlier ++ calls) more moreReplies) :
    Answers client earlier (calls ++ more) (replies ++ moreReplies) := by
  induction h with
  | nil => simpa using hmore
  | cons hreply _ ih => exact .cons hreply (ih (by simpa using hmore))

/-- A client that answers every call, and never with nothing. -/
def Talks (client : Client) : Prop := ∀ earlier call, ∃ reply, client earlier call = .ok reply ∧ reply ≠ ""

theorem rollup_filter (texts : List String) :
    Prompt.rollup (texts.filter (!·.isEmpty)) = join "\n\n" (texts.filter (!·.isEmpty)) := by
  simp [Prompt.rollup]

/-- What comes of the question for a summary of texts. -/
theorem exists_summarize? (hclient : Talks client) (settings : Settings) (texts : List String)
    (session : Session) : ∃ replies later,
      (summarize? client settings texts).runFrom session = (.ok (some (replies.headD "")), later) ∧
      later.calls = session.calls ++ callsFor settings (texts.filter (!·.isEmpty)) ∧
      later.cache = session.cache ∧
      Answers client session.calls (callsFor settings (texts.filter (!·.isEmpty))) replies ∧
      (∀ reply ∈ replies, reply ≠ "") := by
  have hrun {summary : String} {later : Session}
      (h : (summarize client settings texts).runFrom session = (.ok summary, later)) :
      (summarize? client settings texts).runFrom session = (.ok (some summary), later) := by
    rw [summarize?, runFrom_bind, runFrom_tryCatch, runFrom_bind_of_ok h]
    rfl
  by_cases hempty : texts.filter (!·.isEmpty) = []
  · refine ⟨[], session, hrun ?_, ?_, rfl, ?_, by simp⟩
    · rw [summarize]
      simp only [hempty]
      rfl
    · simp [callsFor, hempty]
    · rw [callsFor, if_pos hempty]
      exact .nil
  · obtain ⟨reply, hreply, hne⟩ := hclient session.calls (call settings (texts.filter (!·.isEmpty)))
    refine ⟨[reply], session.log (.asked (call settings (texts.filter (!·.isEmpty)))), hrun ?_, ?_, rfl, ?_, ?_⟩
    · rw [summarize]
      simp only [List.isEmpty_iff, hempty, if_false, rollup_filter]
      rw [runFrom_ask]
      exact congrArg (·, _) hreply
    · rw [callsFor, if_neg hempty, Session.calls_log_asked]
    · rw [callsFor, if_neg hempty]
      exact .cons hreply .nil
    · simpa using hne

/-! ## Folders one by one -/

theorem runFrom_folderSummary_of_kept {summary : String} (h : session.cache.folder? run folder = some summary) :
    (folderSummary client settings run folder texts).runFrom session = (.ok (some summary), session) := by
  rw [folderSummary, runFrom_bind_of_ok (runFrom_get session), h]
  rfl

theorem runFrom_folderSummary_of_new {summary : String} (hnew : session.cache.folder? run folder = none)
    (h : (summarize? client settings texts).runFrom session = (.ok (some summary), later)) :
    (folderSummary client settings run folder texts).runFrom session =
      (.ok (some summary), { later with cache := later.cache.keepFolder run folder summary }) := by
  rw [folderSummary, runFrom_bind_of_ok (runFrom_get session), hnew]
  dsimp only
  rw [runFrom_bind_of_ok h]
  rfl

theorem runFrom_rootSummary_of_kept {summary : String} (h : session.cache.root? run = some summary) :
    (rootSummary client settings run texts).runFrom session = (.ok (nonEmpty? summary), session) := by
  rw [rootSummary, runFrom_bind_of_ok (runFrom_get session), h]
  rfl

theorem runFrom_rootSummary_of_new {summary : String} (hnew : session.cache.root? run = none)
    (h : (summarize? client settings texts).runFrom session = (.ok (some summary), later)) :
    (rootSummary client settings run texts).runFrom session =
      (.ok (nonEmpty? summary), { later with cache := later.cache.keepRoot run summary }) := by
  rw [rootSummary, runFrom_bind_of_ok (runFrom_get session), hnew]
  dsimp only
  rw [runFrom_bind_of_ok h]
  rfl

theorem runFrom_folderSummaries_cons {summaries : Keyed (List String)} {rest : List String} {summary : String}
    {others : Keyed String} {last : Session}
    (h : (folderSummary client settings run folder ((summaries.get? folder).getD [])).runFrom session =
      (.ok (some summary), later))
    (hrest : (folderSummaries client settings run summaries rest).runFrom later = (.ok others, last)) :
    (folderSummaries client settings run summaries (folder :: rest)).runFrom session =
      (.ok ((folder, summary) :: others), last) := by
  rw [folderSummaries, runFrom_bind_of_ok h, runFrom_bind_of_ok hrest]
  rfl

/-- Summaries that are kept are given without a call. -/
theorem runFrom_folderSummaries_of_kept {summaries : Keyed (List String)} {kept : Keyed String}
    (h : ∀ entry ∈ kept, session.cache.folder? run entry.1 = some entry.2) :
    (folderSummaries client settings run summaries kept.keys).runFrom session = (.ok kept, session) := by
  induction kept with
  | nil => rfl
  | cons entry kept ih =>
    rw [List.forall_mem_cons] at h
    exact runFrom_folderSummaries_cons (runFrom_folderSummary_of_kept h.1) (ih h.2)

/-- What asking about folders in turn has come to: those that have something to summarize are asked about, and
what comes of it is kept. -/
structure FolderAccount (client : Client) (settings : Settings) (summaries : Keyed String) (run : String)
    (session later : Session) (folders : List String) (kept : Keyed String) (replies : List String) : Prop where
  keys_eq : kept.keys = folders
  calls_eq : later.calls =
    session.calls ++ folders.flatMap fun folder => callsFor settings (textsIn summaries folder)
  answers : Answers client session.calls
    (folders.flatMap fun folder => callsFor settings (textsIn summaries folder)) replies
  kept_eq : (kept.filter fun (_, summary) => !summary.isEmpty) =
    (folders.filter fun folder => textsIn summaries folder ≠ []).zip replies
  folder_eq : ∀ folder, later.cache.folder? run folder = (kept.get? folder).or (session.cache.folder? run folder)
  root_eq : later.cache.root? run = session.cache.root? run

theorem FolderAccount.nil (client : Client) (settings : Settings) (summaries : Keyed String) (run : String)
    (session : Session) : FolderAccount client settings summaries run session session [] [] [] where
  keys_eq := rfl
  calls_eq := by simp
  answers := .nil
  kept_eq := rfl
  folder_eq := fun _ => rfl
  root_eq := rfl

/-- A folder has a summary if there was something to summarize, and then it is the reply. -/
theorem filter_kept_cons {summaries kept : Keyed String} {rest replies others : List String}
    {earlier : List Call}
    (hanswers : Answers client earlier (callsFor settings (textsIn summaries folder)) replies)
    (hne : ∀ reply ∈ replies, reply ≠ "")
    (hkept : (kept.filter fun (_, summary) => !summary.isEmpty) =
      (rest.filter fun folder => textsIn summaries folder ≠ []).zip others) :
    (((folder, replies.headD "") :: kept).filter fun (_, summary) => !summary.isEmpty) =
      ((folder :: rest).filter fun folder => textsIn summaries folder ≠ []).zip (replies ++ others) := by
  rw [callsFor] at hanswers
  by_cases htexts : textsIn summaries folder = []
  · rw [if_pos htexts] at hanswers
    cases hanswers
    simpa [htexts] using hkept
  · rw [if_neg htexts] at hanswers
    obtain _ | ⟨hreply, _ | _⟩ := hanswers
    have hreply := hne _ List.mem_cons_self
    simpa [htexts, hreply] using hkept

/-- The account of the others starts where that of the first folder ends. -/
theorem FolderAccount.cons {summaries kept : Keyed String} {rest replies others : List String}
    {asked : Session} (hfolder : folder ∉ rest)
    (hcalls : asked.calls = session.calls ++ callsFor settings (textsIn summaries folder))
    (hcache : asked.cache = session.cache)
    (hanswers : Answers client session.calls (callsFor settings (textsIn summaries folder)) replies)
    (hne : ∀ reply ∈ replies, reply ≠ "")
    (h : FolderAccount client settings summaries run
      { asked with cache := asked.cache.keepFolder run folder (replies.headD "") } later rest kept others) :
    FolderAccount client settings summaries run session later (folder :: rest)
      ((folder, replies.headD "") :: kept) (replies ++ others) where
  keys_eq := congrArg (folder :: ·) h.keys_eq
  calls_eq := by
    rw [h.calls_eq, List.flatMap_cons, ← List.append_assoc, ← hcalls]
    rfl
  answers := by
    rw [List.flatMap_cons]
    refine hanswers.append ?_
    rw [← hcalls]
    exact h.answers
  kept_eq := filter_kept_cons hanswers hne h.kept_eq
  folder_eq := by
    intro other
    rw [h.folder_eq, Keyed.get?_cons]
    show (kept.get? other).or ((asked.cache.keepFolder run folder (replies.headD "")).folder? run other) = _
    rw [SummaryCache.folder?_keepFolder, hcache]
    by_cases hother : other = folder
    · have hnone : kept.get? other = none := Keyed.get?_of_notMem (by rw [h.keys_eq, hother]; exact hfolder)
      rw [if_pos hother, if_pos hother, hnone]
      rfl
    · rw [if_neg hother, if_neg hother]
  root_eq := by
    rw [h.root_eq]
    show (asked.cache.keepFolder run folder (replies.headD "")).root? run = _
    rw [SummaryCache.root?_keepFolder, hcache]

/-- Folders of which nothing is kept are asked about in turn. -/
theorem exists_folderSummaries (hclient : Talks client) (settings : Settings) (summaries : Keyed String)
    {folders : List String} (hnodup : folders.Nodup)
    (hnew : ∀ folder ∈ folders, session.cache.folder? run folder = none) : ∃ kept replies later,
      (folderSummaries client settings run (byFolder summaries) folders).runFrom session = (.ok kept, later) ∧
      FolderAccount client settings summaries run session later folders kept replies := by
  induction folders generalizing session with
  | nil => exact ⟨[], [], session, rfl, .nil client settings summaries run session⟩
  | cons folder rest ih =>
    obtain ⟨hfolder, hrest⟩ := List.nodup_cons.1 hnodup
    rw [List.forall_mem_cons] at hnew
    obtain ⟨replies, asked, hrun, hcalls, hcache, hanswers, hne⟩ :=
      exists_summarize? hclient settings (((byFolder summaries).get? folder).getD []) session
    rw [textsIn_eq] at hcalls hanswers
    have hfirst := runFrom_folderSummary_of_new hnew.1 hrun
    -- what is kept of this folder is not what the others ask about
    have hnew' : ∀ other ∈ rest,
        (asked.cache.keepFolder run folder (replies.headD "")).folder? run other = none := by
      intro other hother
      rw [SummaryCache.folder?_keepFolder, if_neg (ne_of_mem_of_not_mem hother hfolder), hcache]
      exact hnew.2 other hother
    obtain ⟨kept, others, later, hrun', haccount⟩ :=
      @ih { asked with cache := asked.cache.keepFolder run folder (replies.headD "") } hrest hnew'
    exact ⟨(folder, replies.headD "") :: kept, replies ++ others, later,
      runFrom_folderSummaries_cons hfirst hrun', .cons hfolder hcalls hcache hanswers hne haccount⟩

end Calls

/-! ## Whole rollups -/

/-- A rollup that is wanted. -/
structure Request where
  client : Client
  settings : Settings
  run : String
  summaries : Keyed String

/-- The session after rollups one after the other, whatever they come to. -/
def afterAll (requests : List Request) (session : Session) : Session :=
  requests.foldl (fun session request =>
    ((fold request.client request.settings request.run request.summaries).runFrom session).2) session

/-- What a rollup has asked and what it gives: one call for each folder below the root that has something to
summarize, in order, and then one call at most for the root, about the replies and the files at the top. -/
structure Account (client : Client) (settings : Settings) (summaries : Keyed String) (session later : Session)
    (ofFolders : Keyed String) (root : Option String) (folders replies : List String) : Prop where
  sorted : folders.Pairwise (· < ·)
  mem_folders_iff : ∀ folder, folder ∈ folders ↔ folder ≠ "" ∧ textsIn summaries folder ≠ []
  calls_eq : later.calls = session.calls ++ folders.map (fun folder => call settings (textsIn summaries folder)) ++
    callsFor settings (replies ++ textsIn summaries "")
  answers : Answers client session.calls (folders.map fun folder => call settings (textsIn summaries folder))
    replies
  root_answers : Answers client
    (session.calls ++ folders.map fun folder => call settings (textsIn summaries folder))
    (callsFor settings (replies ++ textsIn summaries "")) root.toList
  keys_sorted : ofFolders.keys.Pairwise (· < ·)
  mem_keys_iff : ∀ folder, folder ∈ ofFolders.keys ↔
    folder ≠ "" ∧ ∃ entry ∈ summaries, Path.folder entry.1 = folder
  ofFolders_eq : (ofFolders.filter fun (_, summary) => !summary.isEmpty) = folders.zip replies

section Whole

variable {client : Client} {settings : Settings} {session later : Session} {summaries : Keyed String}
  {run : String}

/-- Where the summaries of all folders and of the root are kept, they are given without a call. -/
theorem runFrom_fold_of_kept {kept : Keyed String} {summary : String}
    (hkeys : kept.keys = folders (byFolder summaries))
    (hkept : ∀ entry ∈ kept, session.cache.folder? run entry.1 = some entry.2)
    (hroot : session.cache.root? run = some summary) :
    (fold client settings run summaries).runFrom session = (.ok (kept, nonEmpty? summary), session) := by
  rw [fold, ← hkeys, runFrom_bind_of_ok (runFrom_folderSummaries_of_kept hkept),
    runFrom_bind_of_ok (runFrom_rootSummary_of_kept hroot)]
  rfl

/-- A rollup of another run leaves alone what is kept of this one, whatever it comes to. -/
theorem preserves_fold (kept : RunSummaries) {request : Request} (h : request.run ≠ run) :
    Preserves (fun s => s.cache.ofRun run = kept)
      (fold request.client request.settings request.run request.summaries) := by
  refine triple_fold ?_ ?_ ?_ _
  · rintro s folder summary rfl
    exact SummaryCache.ofRun_keepFolder_of_ne _ _ _ h.symm
  · rintro s summary rfl
    exact SummaryCache.ofRun_keepRoot_of_ne _ _ h.symm
  · intro call _
    refine (triple_ask_of_log fun _ => id).conseq (fun _ => id) (fun _ _ => id) fun failure s hs => ?_
    split <;> exact hs

theorem ofRun_afterAll {requests : List Request} (h : ∀ request ∈ requests, request.run ≠ run)
    (session : Session) : (afterAll requests session).cache.ofRun run = session.cache.ofRun run := by
  induction requests generalizing session with
  | nil => rfl
  | cons request requests ih =>
    rw [List.forall_mem_cons] at h
    have hstep := preserves_fold (session.cache.ofRun run) h.1 session rfl
    refine (ih h.2 _).trans ?_
    show ((fold request.client request.settings request.run
      request.summaries).runFrom session).2.cache.ofRun run = _
    split at hstep
    · next heq => rw [heq]; exact hstep
    · next heq => rw [heq]; exact hstep

theorem flatMap_callsFor (settings : Settings) (summaries : Keyed String) (folders : List String) :
    (folders.flatMap fun folder => callsFor settings (textsIn summaries folder)) =
      (folders.filter fun folder => textsIn summaries folder ≠ []).map
        fun folder => call settings (textsIn summaries folder) := by
  induction folders with
  | nil => rfl
  | cons folder folders ih =>
    rw [List.flatMap_cons, ih, List.filter_cons, callsFor]
    by_cases htexts : textsIn summaries folder = [] <;> simp [htexts]

theorem Answers.length_eq {earlier calls : List Call} {replies : List String}
    (h : Answers client earlier calls replies) : replies.length = calls.length := by
  induction h with
  | nil => rfl
  | cons _ _ ih => simpa using ih

/-- What is told about texts, if there is something to tell. -/
theorem Answers.toList_nonEmpty? {earlier : List Call} {texts replies : List String}
    (h : Answers client earlier (callsFor settings texts) replies) (hne : ∀ reply ∈ replies, reply ≠ "") :
    (nonEmpty? (replies.headD "")).toList = replies := by
  have hlength := h.length_eq
  match replies with
  | [] => rfl
  | [reply] => simp [nonEmpty?, hne reply]
  | _ :: _ :: _ =>
    rw [callsFor] at hlength
    split at hlength <;> simp at hlength

/-- The texts that the summary of the repository is made from: what was told about the folders, and the summaries
at the top. -/
theorem filter_rootTexts (summaries : Keyed String) {kept : Keyed String} {folders replies : List String}
    (hkept : (kept.filter fun (_, summary) => !summary.isEmpty) = folders.zip replies)
    (hlength : replies.length = folders.length) :
    (kept.values ++ ((byFolder summaries).get? "").getD []).filter (!·.isEmpty) =
      replies ++ textsIn summaries "" := by
  have hvalues : kept.values.filter (!·.isEmpty) = replies := calc
    kept.values.filter (!·.isEmpty)
    _ = (kept.filter fun (_, summary) => !summary.isEmpty).map (·.2) := List.filter_map ..
    _ = (folders.zip replies).map (·.2) := by rw [hkept]
    _ = replies := List.map_snd_zip (le_of_eq hlength)
  rw [List.filter_append, hvalues, textsIn_eq]

/-- A rollup of which nothing is kept yet uses every summary once. From then on the same rollup gives the same
without a call, whatever rollups of other runs come in between. -/
theorem fold_accounts (hclient : Talks client) (settings : Settings) (summaries : Keyed String)
    (hcache : session.cache.ofRun run = {}) : ∃ ofFolders root later folders replies,
      (fold client settings run summaries).runFrom session = (.ok (ofFolders, root), later) ∧
      Account client settings summaries session later ofFolders root folders replies ∧
      ∀ others : List Request, (∀ other ∈ others, other.run ≠ run) →
        (afterAll others later).cache.ofRun run = later.cache.ofRun run ∧
        ∀ (client' : Client) (settings' : Settings),
          (fold client' settings' run summaries).runFrom (afterAll others later) =
            (.ok (ofFolders, root), afterAll others later) := by
  have hnew (folder : String) : session.cache.folder? run folder = none := by
    rw [SummaryCache.folder?, hcache]
    rfl
  have hsorted := pairwise_folders summaries
  have hnodup : (folders (byFolder summaries)).Nodup := hsorted.imp String.ne_of_lt
  obtain ⟨kept, replies, middle, hrun, hkeys, hcalls, hanswers, hkept, hfolders, hroot⟩ :=
    exists_folderSummaries hclient settings summaries hnodup fun folder _ => hnew folder
  rw [flatMap_callsFor] at hcalls hanswers
  have htexts := filter_rootTexts summaries hkept (hanswers.length_eq.trans (List.length_map _))
  obtain ⟨told, asked, hrun', hcalls', hcache', hanswers', hne⟩ :=
    exists_summarize? hclient settings (kept.values ++ ((byFolder summaries).get? "").getD []) middle
  rw [htexts] at hcalls' hanswers'
  rw [SummaryCache.root?, SummaryCache.root?, hcache] at hroot
  have hlast := runFrom_rootSummary_of_new hroot hrun'
  have htold := hanswers'.toList_nonEmpty? hne
  refine ⟨kept, nonEmpty? (told.headD ""), { asked with cache := asked.cache.keepRoot run (told.headD "") },
    (folders (byFolder summaries)).filter (textsIn summaries · ≠ []), replies, ?_, ?_, fun others hothers => ?_⟩
  · rw [fold, runFrom_bind_of_ok hrun, runFrom_bind_of_ok hlast]
    rfl
  · constructor
    · exact hsorted.filter _
    · intro folder
      rw [List.mem_filter, mem_folders, decide_eq_true_iff]
      constructor
      · rintro ⟨⟨hroot, -⟩, htexts⟩
        exact ⟨hroot, htexts⟩
      · rintro ⟨hroot, htexts⟩
        exact ⟨⟨hroot, exists_of_textsIn htexts⟩, htexts⟩
    · rw [← hcalls]
      exact hcalls'
    · exact hanswers
    · rw [← hcalls, htold]
      exact hanswers'
    · rw [hkeys]
      exact hsorted
    · intro folder
      rw [hkeys, mem_folders]
    · exact hkept
  · have hsame := ofRun_afterAll hothers { asked with cache := asked.cache.keepRoot run (told.headD "") }
    refine ⟨hsame, fun client' settings' => runFrom_fold_of_kept hkeys ?_ ?_⟩
    · intro entry hentry
      rw [SummaryCache.folder?, hsame]
      show (asked.cache.keepRoot run (told.headD "")).folder? run entry.1 = some entry.2
      rw [SummaryCache.folder?_keepRoot, hcache', hfolders, hnew, Option.or_none]
      exact Keyed.get?_of_mem (hkeys ▸ hnodup) hentry
    · rw [SummaryCache.root?, hsame]
      exact SummaryCache.root?_keepRoot ..

/-- A folder with a summary, one where it is empty, and a file at the top. -/
def sparse : Keyed String := [("src/a.py", "A"), ("docs/x.md", ""), ("top.py", "T")]

/-- A session in which nothing has been asked. -/
def untouched : Session :=
  { fs := {}, bucket := { capacity := 60, rate := 1, slack := budgetSlack, tokens := 60, filledAt := 0 } }

theorem fold_accounts_sparse : Talks (fun _ _ => .ok "ok") ∧ untouched.cache.ofRun "run" = {} ∧
    ∃ ofFolders root later folders replies,
      (fold (fun _ _ => .ok "ok") { workers := 2 } "run" sparse).runFrom untouched =
        (.ok (ofFolders, root), later) ∧
      Account (fun _ _ => .ok "ok") { workers := 2 } sparse untouched later ofFolders root folders replies ∧
      ∀ others : List Request, (∀ other ∈ others, other.run ≠ "run") →
        (afterAll others later).cache.ofRun "run" = later.cache.ofRun "run" ∧
        ∀ (client' : Client) (settings' : Settings),
          (fold client' settings' "run" sparse).runFrom (afterAll others later) =
            (.ok (ofFolders, root), afterAll others later) := by
  have htalks : Talks (fun _ _ => .ok "ok") := fun _ _ => ⟨"ok", rfl, by decide⟩
  exact ⟨htalks, rfl, fold_accounts htalks { workers := 2 } sparse rfl⟩

end Whole

end Rollup

end CodeReview
