import CodeReview.Proofs.Response.Issues
import CodeReview.Proofs.Response.Reading

/-!
# Taking a fenced response apart

A response puts its JSON document between fences and its summary behind them (`Fenced.text`). Taking
it apart gives the two back exactly if there is no fence in the document
(`Fenced.split_text_iff`), and with it what the response says (`outcome_text_iff`): the first fence
behind the opening one counts as the closing one, also inside a string of the document.
-/

namespace CodeReview.Response

open Json Text

namespace Fenced

/-- What stands between the document and the summary of a response. -/
def closing : List Char := "\n```\nSummary: ".toList

/-- A response with a document and a summary. -/
def text (fenced : Fenced) : List Char :=
  "```json\n".toList ++ (fenced.body ++ (closing ++ fenced.summary))

/-! ## Labels -/

theorem eq_append_of_wordIgnoringCase? {word cs rest : List Char}
    (h : Scan.wordIgnoringCase?.go word cs = some rest) :
    ∃ used, cs = used ++ rest ∧ ∀ c ∈ used, ∃ l ∈ word, sameLetter l c = true := by
  induction word generalizing cs with
  | nil => exact ⟨[], Option.some.inj h, fun _ hc => (List.not_mem_nil hc).elim⟩
  | cons l word ih =>
    cases cs with
    | nil => cases h
    | cons c cs =>
      rw [Scan.wordIgnoringCase?.go] at h
      split at h
      · next hl =>
        obtain ⟨used, rfl, hused⟩ := ih h
        refine ⟨c :: used, rfl, fun d hd => ?_⟩
        rcases List.mem_cons.1 hd with rfl | hd
        · exact ⟨l, List.mem_cons_self, hl⟩
        · obtain ⟨l, hl, hsame⟩ := hused d hd
          exact ⟨l, List.mem_cons_of_mem _ hl, hsame⟩
      · cases h

/-- There is no brace in a label. -/
theorem count_dropLabel (cs : List Char) : (dropLabel cs).count '\x7d' = cs.count '\x7d' := by
  rw [dropLabel]
  split
  · rfl
  · next rest hrest =>
    obtain ⟨used, hused, hletters⟩ := eq_append_of_wordIgnoringCase? hrest
    have hword : used.count '\x7d' = 0 := List.count_eq_zero_of_not_mem fun hmem => by
      obtain ⟨l, hl, hsame⟩ := hletters _ hmem
      have hother : ("summary".toList.all fun l => !sameLetter l '\x7d') = true := by decide
      have hdiffer := List.all_eq_true.1 hother l hl
      rw [hsame] at hdiffer
      exact nomatch hdiffer
    have hcs : cs.count '\x7d' = rest.count '\x7d' := by
      rw [← @Chars.count_dropWhile (fun c => c == '#' || isDecoration c) '\x7d' (by decide) cs,
        hused, List.count_append, hword, Nat.zero_add]
    have hafter : (rest.dropWhile isDecoration).count '\x7d' = rest.count '\x7d' :=
      Chars.count_dropWhile (by decide) rest
    split
    · rfl
    · simp only [List.span_eq_takeWhile_dropWhile]
      split
      · next label heq =>
        rw [heq] at hafter
        rw [Chars.count_dropWhile (by decide), hcs, ← hafter]
        exact (List.count_cons_of_ne (by decide)).symm
      · split
        · rw [hcs, hafter]
        · rfl

theorem dropLabel_of_head? {summary : List Char} (hlabel : summary.head? ≠ some '*')
    (htrim : Chars.trim summary = summary) :
    dropLabel ("Summary: ".toList ++ summary) = summary := by
  have hdrop : dropLabel ("Summary: ".toList ++ summary) = summary.dropWhile isDecoration := by rfl
  rw [hdrop]
  cases summary with
  | nil => rfl
  | cons c rest =>
    have hblank : isBlank c = false := Chars.ends_of_trim htrim (.inl rfl)
    have hstar : c ≠ '*' := fun h => hlabel (h ▸ rfl)
    exact List.dropWhile_cons_of_neg (by simp [isDecoration, hblank, hstar])

/-! ## Taking apart -/

section Split

variable {body summary : List Char}

theorem text_mk : text ⟨body, summary⟩ = "```json\n".toList ++ (body ++ (closing ++ summary)) := rfl

theorem split_text (hne : summary ≠ []) (htrim : Chars.trim summary = summary) :
    split (text ⟨body, summary⟩) = match Chars.cut? fence (body ++ (closing ++ summary)) with
      | none => ⟨Chars.trim (body ++ (closing ++ summary)), []⟩
      | some (body, summary) =>
        ⟨Chars.trim body, Chars.trim (dropLabel (Chars.trim summary))⟩ := by
  have htext : Chars.trim (text ⟨body, summary⟩) = text ⟨body, summary⟩ := by
    have h : text ⟨body, summary⟩ = ("```json\n".toList ++ (body ++ closing)) ++ summary := by
      rw [text_mk, List.append_assoc, List.append_assoc]
    rw [h]
    exact Chars.trim_append_of_head? (c := '`') rfl (by decide) hne htrim
  have hcut : Chars.cut? fence (text ⟨body, summary⟩) =
      some ([], "json\n".toList ++ (body ++ (closing ++ summary))) := by
    rw [text_mk]
    exact Chars.cut?_of_dropPrefix? (c := '`') (Chars.dropPrefix?_eq_some_iff.2 rfl)
  have hopening : opening ("json\n".toList ++ (body ++ (closing ++ summary))) =
      (true, body ++ (closing ++ summary)) := by rfl
  rw [split, htext, hcut]
  simp only [hopening]
  rfl

/-- A document without a fence and its summary come back. -/
theorem split_text_of_no_fence (hne : summary ≠ []) (htrim : Chars.trim summary = summary)
    (hlabel : summary.head? ≠ some '*') (hbody : Chars.trim body = body)
    (hfence : Chars.hasPart fence body = false) :
    split (text ⟨body, summary⟩) = ⟨body, summary⟩ := by
  have hclosing : Chars.cut? fence ("```\nSummary: ".toList ++ summary) =
      some ([], "\nSummary: ".toList ++ summary) := Chars.cut?_of_dropPrefix? rfl
  have hcut : Chars.cut? fence (body ++ (closing ++ summary)) =
      some (body ++ ['\n'], "\nSummary: ".toList ++ summary) := by
    have h := @Chars.cut?_append fence body '\n' (by decide) hfence
      ("```\nSummary: ".toList ++ summary)
    rwa [hclosing] at h
  have hbreak : ∀ c ∈ ['\n'], isBlank c = true := List.forall_mem_singleton.2 (by decide)
  have htrimBody : Chars.trim (body ++ ['\n']) = body := by
    have h := @Chars.trim_append body [] ['\n'] nofun hbreak
    rwa [List.nil_append, hbody] at h
  have htrimSummary :
      Chars.trim ("\nSummary: ".toList ++ summary) = "Summary: ".toList ++ summary := by
    have hself : Chars.trim ("Summary: ".toList ++ summary) = "Summary: ".toList ++ summary :=
      Chars.trim_append_of_head? (c := 'S') rfl (by decide) hne htrim
    have h := @Chars.trim_append ("Summary: ".toList ++ summary) ['\n'] [] hbreak nofun
    rwa [List.append_nil, hself] at h
  rw [split_text hne htrim, hcut]
  simp only [htrimBody, htrimSummary, dropLabel_of_head? hlabel htrim, htrim]

/-- Behind a fence in the document stands its end, and the summary takes it in. -/
theorem count_summary_split_text (hne : summary ≠ []) (htrim : Chars.trim summary = summary)
    (hclose : body.getLast? = some '\x7d') (hfence : Chars.hasPart fence body = true) :
    summary.count '\x7d' < (split (text ⟨body, summary⟩)).summary.count '\x7d' := by
  obtain ⟨⟨before, behind⟩, hcut⟩ := Option.isSome_iff_exists.1 (Chars.isSome_cut?.trans hfence)
  have hbehind : '\x7d' ∈ behind := by
    rw [Chars.eq_of_cut? hcut, List.getLast?_append] at hclose
    cases hlast : behind.getLast? with
    | none =>
      rw [hlast, List.getLast?_append] at hclose
      exact nomatch Option.some.inj hclose
    | some c =>
      rw [hlast] at hclose
      exact Option.some.inj hclose ▸ List.mem_of_getLast? hlast
  rw [split_text hne htrim, Chars.cut?_append_of_some hcut]
  simp only [Chars.count_trim (show isBlank '\x7d' = false by decide), count_dropLabel,
    List.count_append]
  have := List.count_pos_iff.2 hbehind
  omega

/-- Taking a response apart gives its parts back exactly if there is no fence in its document. -/
theorem split_text_iff (hne : summary ≠ []) (htrim : Chars.trim summary = summary)
    (hlabel : summary.head? ≠ some '*') (hbody : Chars.trim body = body)
    (hclose : body.getLast? = some '\x7d') :
    split (text ⟨body, summary⟩) = ⟨body, summary⟩ ↔ Chars.hasPart fence body = false := by
  refine ⟨fun h => ?_, split_text_of_no_fence hne htrim hlabel hbody⟩
  rw [← Bool.not_eq_true]
  intro hfence
  have hcount := count_summary_split_text hne htrim hclose hfence
  rw [h] at hcount
  exact Nat.lt_irrefl _ hcount

end Split

end Fenced

/-! ## Outcomes -/

section Outcome

variable {response path : String} {fields : Fields}

/-- The outcome of a response keeps the summary behind its fence, whatever becomes of the rest. -/
theorem summary_of_outcome {found : Findings}
    (h : outcome response path = .ok ⟨path, .reviewed found⟩)
    (hne : (Fenced.split response.toList).summary ≠ []) :
    found.summary = some (String.ofList (Fenced.split response.toList).summary) := by
  have hempty : (String.ofList (Fenced.split response.toList).summary).isEmpty = false := by
    simpa using hne
  simp only [outcome] at h
  split at h
  · obtain ⟨kept, hkept, heq⟩ := exists_of_bind_ok h
    obtain rfl := Verdict.reviewed.inj (Outcome.mk.inj (Except.ok.inj heq)).2
    exact (summary_parsed_of_findings hkept hempty).1
  · split at h
    · rw [← Verdict.reviewed.inj (Outcome.mk.inj (Except.ok.inj h)).2]
      simp [nonEmpty?, hempty]
    · cases h

theorem outcome_of_read {body summary : List Char}
    (hsplit : Fenced.split response.toList = ⟨body, summary⟩) (hread : read body = .ok fields)
    (hne : summary ≠ []) (hfinite : AllFinite (.obj fields)) :
    ∃ found, outcome response path = .ok ⟨path, .reviewed found⟩ ∧ found.parsed = some fields ∧
      found.summary = some (String.ofList summary) := by
  obtain ⟨found, hfound⟩ := @succeeds_findings fields path hfinite (String.ofList summary)
  obtain ⟨hsummary, hparsed⟩ := summary_parsed_of_findings hfound (by simpa using hne)
  refine ⟨found, ?_, hparsed, hsummary⟩
  simp only [outcome, hsplit, hread, hfound]
  rfl

end Outcome

/-- A response comes back from its text, taken apart and read, exactly if there is no fence in its
document. The document is any text between braces that reads as the object, in whatever form. -/
theorem outcome_text_iff {document summary : List Char} {fields : Fields}
    (hdocument : parseChars? document = some (.obj fields)) (hopen : document.head? = some '\x7b')
    (hclose : document.getLast? = some '\x7d') (hfinite : AllFinite (.obj fields))
    (hne : summary ≠ []) (htrim : Chars.trim summary = summary)
    (hlabel : summary.head? ≠ some '*') (path : String) :
    (Fenced.split (Fenced.text ⟨document, summary⟩) = ⟨document, summary⟩ ↔
      Chars.hasPart fence document = false) ∧
    ((∃ found, outcome (String.ofList (Fenced.text ⟨document, summary⟩)) path =
        .ok ⟨path, .reviewed found⟩ ∧ found.parsed = some fields ∧
        found.summary = some (String.ofList summary)) ↔ Chars.hasPart fence document = false) := by
  have hbody : Chars.trim document = document :=
    Chars.trim_eq_self hopen hclose (by decide) (by decide)
  have hsplit := Fenced.split_text_iff hne htrim hlabel hbody hclose
  refine ⟨hsplit, ?_, fun hfence => ?_⟩
  · rintro ⟨found, hfound, -, hsummary⟩
    rw [← Bool.not_eq_true]
    intro hfence
    have hcount := Fenced.count_summary_split_text hne htrim hclose hfence
    have hkept := summary_of_outcome hfound (by
      rw [String.toList_ofList]
      exact List.ne_nil_of_mem (List.count_pos_iff.1 (Nat.zero_lt_of_lt hcount)))
    rw [hsummary, String.toList_ofList] at hkept
    rw [← String.ofList_inj.1 (Option.some.inj hkept)] at hcount
    exact Nat.lt_irrefl _ hcount
  · have hread : read document = .ok fields := by
      obtain ⟨inner, rfl, -⟩ := balanced_of_parseChars?_braces hdocument hopen hclose
      refine read_of_jsonFields? (by rw [hbody]; exact List.cons_ne_nil _ _) ?_
      rw [hbody, jsonFields?, fieldsOfJson?_brace.2 hdocument, Option.some_or]
    refine outcome_of_read ?_ hread hne hfinite
    rw [String.toList_ofList]
    exact hsplit.2 hfence

/-- A document with quotes of code and a summary that mentions a fence. -/
theorem outcome_text_quoted :
    ∃ found, outcome (String.ofList (Fenced.text
        ⟨"\x7b\"a\": \"``x``\"\x7d".toList, "Summary: use ```".toList⟩)) "a.py" =
        .ok ⟨"a.py", .reviewed found⟩ ∧ found.parsed = some [("a", .str "``x``")] ∧
      found.summary = some (String.ofList "Summary: use ```".toList) := by
  have hfinite : AllFinite (.obj [("a", .str "``x``")]) :=
    .obj fun field hfield => List.mem_singleton.1 hfield ▸ .str _
  exact (outcome_text_iff (by cbv) rfl rfl hfinite (by decide)
    (Chars.trim_eq_self rfl rfl rfl rfl) (by decide) "a.py").2.2 (by decide)

/-- A fence in a string of the document ends the document. -/
theorem split_text_ne : ¬ ∀ (document summary : List Char) (fields : Fields),
    parseChars? document = some (.obj fields) → document.head? = some '\x7b' →
    document.getLast? = some '\x7d' → AllFinite (.obj fields) → summary ≠ [] →
    Chars.trim summary = summary → summary.head? ≠ some '*' →
    Fenced.split (Fenced.text ⟨document, summary⟩) = ⟨document, summary⟩ := by
  intro h
  have hfinite : AllFinite (.obj [("a", .str "```")]) :=
    .obj fun field hfield => List.mem_singleton.1 hfield ▸ .str _
  have hsplit := h "\x7b\"a\": \"```\"\x7d".toList "ok".toList [("a", .str "```")] (by cbv) rfl rfl
    hfinite (by decide) (Chars.trim_eq_self rfl rfl rfl rfl) (by decide)
  have hbody : (Fenced.split (Fenced.text
      ⟨"\x7b\"a\": \"```\"\x7d".toList, "ok".toList⟩)).body = "\x7b\"a\": \"".toList := by decide
  rw [hsplit] at hbody
  exact absurd hbody (by decide)

end CodeReview.Response
