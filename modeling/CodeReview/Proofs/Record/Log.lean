import CodeReview.Record
import CodeReview.Proofs.FileSystem.Filling
import CodeReview.Proofs.Json.Printing
import CodeReview.Proofs.Steps
import CodeReview.Proofs.Text.Utf8
import Mathlib

/-!
# The file of records

* `foldlM_append_logged`: records that are written one after the other into a new file stand in it in
  that order, one on a line.
* `Record.ReadsBack`, `readsBack_logText`: taken apart at its line ends, the file gives every record
  back, and nothing behind the last line end.
* `writeEach_logged`: of a list of files, those that can be read get a record each, up to the first one
  whose path has a null character. The record of a file is taken when those before it have been written.

The invariant of a run of writes is `logged`: nothing has changed before the first record, and from then
on the folders are there and the file holds the records so far.
-/

namespace CodeReview

open Text FileSystem

/-! ## New files -/

namespace FileSystem

/-- A file that is not there can be written under a name in a folder, which is made as needed. -/
structure Admits (fs : FileSystem) (folder name : String) (ready : FileSystem) (place : Place) : Prop where
  made : fs.makeFolders (Path.tidy folder) = .ok ready
  leads : ready.resolve (Path.tidy folder) = .ok (place, .folder)
  isName : IsName name
  new : ready.entry? (place ++ [name]) = none
  short : (Path.under folder name).utf8ByteSize < pathLimit
  no_null : (Path.under folder name).contains '\x00' = false

variable {fs ready : FileSystem} {folder name : String} {place : Place} {before bytes : List UInt8}

section Named

variable (hname : IsName name) (hfolder : fs.resolve (Path.tidy folder) = .ok (place, .folder))
  (hshort : (Path.under folder name).utf8ByteSize < pathLimit)
include hname hfolder hshort

/-- Bytes that are added to a file that is not there are all that the file holds. -/
theorem appendBytes_new (hnew : fs.entry? (place ++ [name]) = none) (bytes : List UInt8) :
    fs.appendBytes (Path.under folder name) bytes = .ok (fs.put (place ++ [name]) (.file bytes)) := by
  have hresolve := resolve_under_name hname hfolder hshort (by simp [hnew])
  rw [hnew] at hresolve
  rw [appendBytes, hresolve]
  dsimp only
  rw [writeBytes, hresolve, target_under hname.descends hname.no_slash hfolder,
    if_neg (Nat.not_lt.2 hname.short)]

theorem appendBytes_file (hfile : fs.entry? (place ++ [name]) = some (.file before))
    (bytes : List UInt8) : fs.appendBytes (Path.under folder name) bytes =
      .ok (fs.put (place ++ [name]) (.file (before ++ bytes))) := by
  have hresolve := resolve_under_name hname hfolder hshort (by simp [hfile])
  rw [hfile] at hresolve
  rw [appendBytes, hresolve]

end Named

namespace Admits

variable (h : fs.Admits folder name ready place)
include h

/-- A file that has been put there leaves the folder where it was. -/
theorem folder_put (bytes : List UInt8) :
    (ready.put (place ++ [name]) (.file bytes)).resolve (Path.tidy folder) = .ok (place, .folder) := by
  have hend : ready.IsEnd (place ++ [name]) := fun entry hentry => by
    rw [h.new] at hentry
    exact nomatch hentry
  exact resolve_put hend h.leads (by simp) _

theorem readBytes_put (bytes : List UInt8) :
    (ready.put (place ++ [name]) (.file bytes)).readBytes (Path.under folder name) = .ok bytes := by
  have hentry : entry? (ready.put (place ++ [name]) (.file bytes)) (place ++ [name]) =
      some (.file bytes) := entry?_put_self (by simp) _
  have hresolve := resolve_under_name h.isName (h.folder_put bytes) h.short (by simp [hentry])
  rw [hentry] at hresolve
  rw [readBytes, h.no_null, if_neg Bool.false_ne_true, hresolve]

end Admits

end FileSystem

namespace Record

/-! ## Records one after the other -/

/-- The characters of records, one on a line. -/
def logChars (records : List Record) : List Char := records.flatMap fun record => record.line.toList

/-- A file system in which records have been written into a new file. -/
def logged (fs ready : FileSystem) (here : Place) : List Record → FileSystem
  | [] => fs
  | records => ready.put here (.file (Utf8.encode (logChars records)))

variable {fs ready : FileSystem} {folder name : String} {place : Place}

theorem logged_concat (fs ready : FileSystem) (here : Place) (written : List Record) (record : Record) :
    logged fs ready here (written ++ [record]) =
      ready.put here (.file (Utf8.encode (logChars (written ++ [record])))) := by
  cases written <;> rfl

theorem encode_logChars_concat (written : List Record) (record : Record) :
    Utf8.encode (logChars (written ++ [record])) =
      Utf8.encode (logChars written) ++ Utf8.encode record.line.toList := by
  simp [logChars, Utf8.encode]

section Admitted

variable (h : fs.Admits folder name ready place)
include h

/-- One record more stands behind those that have been written. -/
theorem append_logged (written : List Record) (record : Record) :
    record.append (logged fs ready (place ++ [name]) written) (Path.under folder name) =
      .ok (logged fs ready (place ++ [name]) (written ++ [record])) := by
  rw [append, Path.tidy_parent_under h.isName.descends h.isName.no_slash, logged_concat,
    encode_logChars_concat]
  cases written with
  | nil =>
    have hnone : Utf8.encode (logChars []) = [] := rfl
    rw [logged, h.made, hnone, List.nil_append]
    dsimp only [bind, Except.bind]
    rw [appendBytes_new h.isName h.leads h.short h.new]
  | cons first written =>
    have hfolder := h.folder_put (Utf8.encode (logChars (first :: written)))
    rw [logged, makeFolders_of_folder hfolder]
    · dsimp only [bind, Except.bind]
      rw [appendBytes_file h.isName hfolder h.short (entry?_put_self (by simp) _), put_put]
    · exact List.cons_ne_nil first written

theorem foldlM_append_logged (written records : List Record) :
    records.foldlM (fun fs record => record.append fs (Path.under folder name))
      (logged fs ready (place ++ [name]) written) =
      .ok (logged fs ready (place ++ [name]) (written ++ records)) := by
  induction records generalizing written with
  | nil => rw [List.append_nil]; rfl
  | cons record records ih =>
    rw [List.foldlM_cons, append_logged h]
    exact (ih (written ++ [record])).trans (by rw [List.append_assoc, List.singleton_append])

end Admitted

/-! ## Reading back -/

/-- The numbers of the record can be written: they have no more digits than a number may have. -/
structure Printable (record : Record) : Prop where
  size : (Nat.toDigits 10 record.size).length ≤ Number.digitLimit
  lineCount : (Nat.toDigits 10 record.lineCount).length ≤ Number.digitLimit

/-- A text ends in a line end, and each of its lines reads as the record in that place. -/
structure ReadsBack (text : String) (records : List Record) : Prop where
  ends : endsWith "\n" text = true
  lines : (splitOn '\n' text).dropLast.map Json.parse? =
    records.map fun record => some (.obj record.fields)
  last : (splitOn '\n' text).getLast? = some ""

theorem exact_fields {record : Record} (h : record.Printable) : Json.Exact (.obj record.fields) := by
  have htexts (texts : List String) : Json.Exact (.arr (texts.map .str)) :=
    .arr (List.forall_mem_map.2 fun s _ => .str s)
  have hnames : record.fields.keys.Nodup := by
    change ["repoRelativePath", "language", "size", "lineCount", "contentHash", "snippet", "taking",
      "calling", "summary"].Nodup
    decide
  refine .obj hnames fun field hfield => ?_
  simp only [fields, List.mem_cons, List.not_mem_nil, or_false] at hfield
  obtain rfl | rfl | rfl | rfl | rfl | rfl | rfl | rfl | rfl := hfield
  exacts [.str _, Json.exact_ofText? _, .int h.size, .int h.lineCount, .str _, .str _, htexts _, htexts _,
    Json.exact_ofText? _]

/-- The lines of the file of records, and nothing behind the last line end. -/
theorem splitOn_logChars {records : List Record} (h : ∀ record ∈ records, record.Printable) :
    Chars.splitOn '\n' (logChars records) =
      records.map (fun record => (Json.obj record.fields).print.toList) ++ [[]] := by
  induction records with
  | nil => rfl
  | cons record records ih =>
    have hrecord := Json.newline_notMem_print (exact_fields (h record List.mem_cons_self))
    have hothers := ih fun other hother => h other (List.mem_cons_of_mem record hother)
    have hline : record.line.toList = (Json.obj record.fields).print.toList ++ ['\n'] := by
      rw [line, String.toList_append]
      rfl
    rw [logChars, List.flatMap_cons, hline, List.append_assoc, List.singleton_append, Chars.splitOn_append,
      Chars.splitOn_of_notMem hrecord, ← logChars, hothers, List.map_cons, List.cons_append,
      List.cons_append, List.nil_append]

theorem endsWith_logChars {records : List Record} (hne : records ≠ []) :
    endsWith "\n" (String.ofList (logChars records)) = true := by
  obtain ⟨front, last, rfl⟩ := (List.eq_nil_or_concat records).resolve_left hne
  refine List.isSuffixOf_iff_suffix.2 ⟨logChars front ++ (Json.obj last.fields).print.toList, ?_⟩
  simp [logChars, line]

/-- The file of records gives the records back. -/
theorem readsBack_logChars {records : List Record} (hne : records ≠ [])
    (h : ∀ record ∈ records, record.Printable) :
    ReadsBack (String.ofList (logChars records)) records := by
  have hlines : splitOn '\n' (String.ofList (logChars records)) =
      records.map (fun record => (Json.obj record.fields).print) ++ [""] := by
    rw [splitOn, String.toList_ofList, splitOn_logChars h, List.map_append, List.map_map]
    simp [Function.comp_def]
  refine ⟨endsWith_logChars hne, ?_, by rw [hlines, List.getLast?_concat]⟩
  rw [hlines, List.dropLast_concat, List.map_map]
  refine List.map_congr_left fun record hrecord => ?_
  rw [Function.comp_apply, Json.parse?_print (exact_fields (h record hrecord))]

/-! ## Records of files -/

/-- A path with a null character, which no file can have. -/
def HasNull (root : String) (node : Node) : Prop := (Path.under root node.path).contains '\x00' = true

instance (root : String) (node : Node) : Decidable (HasNull root node) :=
  inferInstanceAs (Decidable (_ = true))

theorem ofNode_of_ok {fs : FileSystem} {root : String} {node : Node} {bytes : List UInt8}
    (h : fs.readBytes (Path.under root node.path) = .ok bytes) (graph : Dependency.Graph) :
    ∃ record, ofNode fs root graph node = .ok record :=
  ⟨_, by rw [ofNode, h]; rfl⟩

theorem ofNode_of_error {fs : FileSystem} {root : String} {node : Node} {failure : Failure}
    (h : fs.readBytes (Path.under root node.path) = .error failure) (graph : Dependency.Graph) :
    ofNode fs root graph node = .error failure := by
  rw [ofNode, h]
  rfl

/-- A file has a record unless it cannot be read. -/
theorem ofNode_cases (fs : FileSystem) (root : String) (graph : Dependency.Graph) (node : Node) :
    (HasNull root node ∧ ofNode fs root graph node = .error .nullInPath) ∨
      ¬ HasNull root node ∧ ((∃ record, ofNode fs root graph node = .ok record) ∨
        ∃ error path, ofNode fs root graph node = .error (.system error path)) := by
  obtain ⟨hnull, hread⟩ | ⟨hnull, ⟨bytes, hread⟩ | ⟨error, hread⟩⟩ :=
    readBytes_cases fs (Path.under root node.path)
  · exact .inl ⟨hnull, ofNode_of_error hread graph⟩
  · exact .inr ⟨by simp [HasNull, hnull], .inl (ofNode_of_ok hread graph)⟩
  · exact .inr ⟨by simp [HasNull, hnull], .inr ⟨error, _, ofNode_of_error hread graph⟩⟩

/-- The records of files, each taken from the file system in which the records before it have been
written. A file that cannot be read has none. -/
def recordsAfter (state : List Record → FileSystem) (root : String) (graph : Dependency.Graph) :
    List Record → List Node → List Record
  | _, [] => []
  | written, node :: nodes =>
    match ofNode (state written) root graph node with
    | .ok record => record :: recordsAfter state root graph (written ++ [record]) nodes
    | .error _ => recordsAfter state root graph written nodes

/-- If writing the records changes nothing about what can be read, they are those of the files that can
be read in the first place. -/
theorem recordsAfter_eq_filterMap {state : List Record → FileSystem} {fs : FileSystem} {root : String}
    {graph : Dependency.Graph} {nodes : List Node} (h : ∀ node ∈ nodes, ∀ written,
      (ofNode (state written) root graph node).toOption = (ofNode fs root graph node).toOption)
    (written : List Record) : recordsAfter state root graph written nodes =
      nodes.filterMap fun node => (ofNode fs root graph node).toOption := by
  induction nodes generalizing written with
  | nil => rfl
  | cons node nodes ih =>
    have hothers := ih fun other hother => h other (List.mem_cons_of_mem node hother)
    rw [recordsAfter, List.filterMap_cons, ← h node List.mem_cons_self written]
    cases ofNode (state written) root graph node with
    | error failure => exact hothers written
    | ok record => exact congrArg _ (hothers (written ++ [record]))

/-- Every file that can be read gets a record, up to the first one whose path has a null character. -/
theorem writeEach_logged (h : fs.Admits folder name ready place) (root : String)
    (graph : Dependency.Graph) (written : List Record) (nodes : List Node) :
    writeEach (appendNode root graph (Path.under folder name)) (logged fs ready (place ++ [name]) written)
        nodes =
      let new := recordsAfter (logged fs ready (place ++ [name])) root graph written
        (nodes.takeWhile fun node => ¬ HasNull root node)
      (if ∀ node ∈ nodes, ¬ HasNull root node then .ok new.length else .error .nullInPath,
        logged fs ready (place ++ [name]) (written ++ new)) := by
  induction nodes generalizing written with
  | nil => simp [writeEach, recordsAfter]
  | cons node nodes ih =>
    obtain ⟨hnull, hnode⟩ | ⟨hnull, ⟨record, hnode⟩ | ⟨error, path, hnode⟩⟩ :=
      ofNode_cases (logged fs ready (place ++ [name]) written) root graph node
    · rw [writeEach, appendNode, hnode, List.takeWhile_cons_of_neg (by simpa using hnull)]
      simp [hnull, recordsAfter]
    · have hwrite : appendNode root graph (Path.under folder name)
          (logged fs ready (place ++ [name]) written) node =
            .ok (some (logged fs ready (place ++ [name]) (written ++ [record]))) := by
        rw [appendNode, hnode]
        dsimp only
        rw [append_logged h]
        rfl
      rw [writeEach, hwrite, List.takeWhile_cons_of_pos (by simpa using hnull), recordsAfter, hnode]
      dsimp only
      rw [ih]
      simp only [List.forall_mem_cons, hnull, not_false_eq_true, true_and, List.append_assoc,
        List.singleton_append, List.length_cons]
      split <;> rfl
    · rw [writeEach, appendNode, hnode, List.takeWhile_cons_of_pos (by simpa using hnull), recordsAfter,
        hnode]
      dsimp only
      rw [ih]
      simp [hnull]

/-- A repository `r` of the file `a`. -/
def oneLetter : FileSystem where
  entries := [(["r"], .folder), (["r", "a"], .file [0x61])]

theorem resolve_oneLetter :
    oneLetter.resolve "/" = .ok ([], .folder) ∧ oneLetter.resolve "/d" = .error .notFound ∧
    oneLetter.resolve "/r/a" = .ok (["r", "a"], .file [0x61]) ∧
    oneLetter.resolve "/r/b" = .error .notFound := by
  refine ⟨?_, ?_, ?_, ?_⟩ <;> exact resolve_of_within 4 (by decide) (by decide)

theorem admits_oneLetter :
    oneLetter.Admits "/d" "log" (oneLetter.put ["d"] .folder) ["d"] where
  made := by
    obtain ⟨htop, hnew, -, -⟩ := resolve_oneLetter
    change oneLetter.makeFoldersFrom "/d" "/" ["d"] = _
    have htarget : oneLetter.target "/d" = .ok ["d"] := by
      change (oneLetter.resolve "/" >>= _) = _
      rw [htop]
      rfl
    have hhere : (if ("/" == "") = true then "d" else if Text.endsWith "/" "/" then "/" ++ "d"
        else "/" ++ "/" ++ "d") = "/d" := by decide
    rw [makeFoldersFrom, hhere, hnew, htarget]
    rfl
  leads := resolve_of_within 4 (by decide) (by decide)
  isName := by decide
  new := by decide
  short := by decide
  no_null := by cbv

theorem ofNode_oneLetter (graph : Dependency.Graph) :
    (∃ record, ofNode oneLetter "/r" graph { path := "a" } = .ok record) ∧
    ofNode oneLetter "/r" graph { path := "b" } = .error (.system .notFound "/r/b") := by
  obtain ⟨-, -, hfile, hnew⟩ := resolve_oneLetter
  have hread : oneLetter.readBytes (Path.under "/r" "a") = .ok [0x61] := by
    change oneLetter.readBytes "/r/a" = _
    rw [readBytes, if_neg (by cbv; decide), hfile]
  have hmissing : oneLetter.readBytes (Path.under "/r" "b") = .error (.system .notFound "/r/b") := by
    change oneLetter.readBytes "/r/b" = _
    rw [readBytes, if_neg (by cbv; decide), hnew]
  exact ⟨@ofNode_of_ok oneLetter "/r" { path := "a" } _ hread graph,
    @ofNode_of_error oneLetter "/r" { path := "b" } _ hmissing graph⟩

/-- A record of a text that does not stand on one line. -/
def twoLines : Record := ⟨"a", none, 3, 2, "", "\"\n\"", ["b"], [], some "\r\n"⟩

end Record

end CodeReview
