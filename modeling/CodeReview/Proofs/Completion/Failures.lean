import CodeReview.Proofs.Completion.Replies
import CodeReview.Proofs.Completion.Retrying

/-!
# Failures of a completion

A conversation fails before its first request, or it ends at a response (`complete_cases`). What it ends
with is an answer, a text that is not blank or a failure of the completion, unless it breaks off there
(`Ends.isAnswer_iff`). It does so at the first response at which one of three things happens (`Breaks`): the
words that ask for a delay name no number; the delay that nobody asked for is too large; or the reply is a
document that lacks its text in a way that is not foreseen (`Provider.Lacks`).
-/

namespace CodeReview.Service

variable {service : Service} {script : Nat → Response} {jitter : Nat → Float}

/-- A reply in whose document the text is looked for in a value that has none, or is no text. -/
def LacksText (service : Service) : Response → Prop
  | .unreachable _ => False
  | .arrived status _ body =>
    status < 400 ∧ ∃ document, Json.parse? body = some document ∧ service.provider.Lacks document

/-- A conversation that comes to the response at a position breaks off there. -/
def Breaks (service : Service) (script : Nat → Response) (n : Nat) : Prop :=
  Garbled (script n) ∨ Overflows script n ∨ service.LacksText (script n)

theorem decides_of_lacksText {response : Response} (h : service.LacksText response) : Decides response := by
  cases response with
  | unreachable reason => exact h
  | arrived status headers body =>
    have hstatus : status < 400 := h.1
    exact ⟨by omega, by omega⟩

theorem not_decides_of_garbled {response : Response} (h : Garbled response) : ¬ Decides response := by
  cases response with
  | unreachable reason => exact id
  | arrived status headers body => exact fun hdecides => hdecides.1 h.1

theorem isAnswer_verdict_iff {response : Response} :
    IsAnswer (service.verdict response) ↔ ¬ service.LacksText response := by
  cases response with
  | unreachable reason => exact iff_of_true rfl id
  | arrived status headers body =>
    rw [verdict, LacksText]
    split
    · next hrefused => exact iff_of_true rfl fun h => absurd h.1 (by omega)
    · next haccepted =>
      rw [← lacksAttribute_textOf_iff, and_iff_right (by omega)]
      exact ⟨fun h hlacks => not_isAnswer_of_lacksAttribute hlacks h,
        fun h => (isAnswer_or_lacksAttribute_textOf service body).resolve_right h⟩

theorem not_goesOn_of_breaks {n : Nat} (h : service.Breaks script n) : ¬ GoesOn script n := by
  rintro ⟨hopen, hread, hsmall⟩
  rcases h with hgarbled | hoverflows | hlacks
  · exact hread hgarbled
  · exact hsmall hoverflows
  · exact hopen (decides_of_lacksText hlacks)

/-- What a conversation ends with is an answer, unless it breaks off at its last response. -/
theorem Ends.isAnswer_iff {attempts n : Nat} {result : Except Failure String}
    (h : Ends service script jitter attempts n result) : IsAnswer result ↔ ¬ service.Breaks script n := by
  cases h with
  | decided hdecides =>
    rw [isAnswer_verdict_iff]
    constructor
    · rintro hreply (hgarbled | hoverflows | hlacks)
      · exact not_decides_of_garbled hgarbled hdecides
      · exact hoverflows.1 hdecides
      · exact hreply hlacks
    · exact fun hgoes hlacks => hgoes (.inr (.inr hlacks))
  | @failed failure hopen hdelay =>
    have hbreaks : service.Breaks script n := by
      by_contra hgoes
      have hdelays := (goesOn_iff jitter).1
        ⟨hopen, fun hgarbled => hgoes (.inl hgarbled), fun hoverflows => hgoes (.inr (.inl hoverflows))⟩
      obtain ⟨seconds, hseconds⟩ := hdelays.2
      exact nomatch hdelay.symm.trans hseconds
    refine iff_of_false (fun hanswer => ?_) (not_not_intro hbreaks)
    rcases failsWith_delay _ _ _ failure hdelay with hkind | hkind
    · exact nomatch hkind.symm.trans hanswer
    · exact nomatch hkind.symm.trans hanswer
  | exhausted hgoes _ => exact iff_of_true rfl fun hbreaks => not_goesOn_of_breaks hbreaks hgoes

theorem failsWith_verdict (service : Service) (response : Response) :
    FailsWith (fun failure => failure.kind = .completion ∨ failure.kind = .missingAttribute)
      (service.verdict response) := by
  cases response with
  | unreachable reason =>
    rintro _ ⟨⟩
    exact .inl rfl
  | arrived status headers body =>
    rw [verdict]
    split
    · rintro _ ⟨⟩
      exact .inl rfl
    · intro failure hfailure
      rcases isAnswer_or_lacksAttribute_textOf service body with hanswer | hlacks
      · rw [hfailure] at hanswer
        exact .inl hanswer
      · rw [hfailure, LacksAttribute.error_iff] at hlacks
        exact .inr hlacks

/-- The failures of a conversation: those of the completion, those of a value that lacks an attribute, and
those of a delay that is not read. -/
def IsKnown (failure : Failure) : Prop :=
  failure.kind = .completion ∨ failure.kind = .missingAttribute ∨ Retry.IsUnread failure

theorem Ends.failsWith {attempts n : Nat} {result : Except Failure String}
    (h : Ends service script jitter attempts n result) : FailsWith IsKnown result := by
  cases h with
  | decided _ =>
    exact fun failure hfailure => (failsWith_verdict service _ failure hfailure).imp_right .inl
  | failed _ hdelay =>
    rintro _ ⟨⟩
    exact .inr (.inr (failsWith_delay _ _ _ _ hdelay))
  | exhausted _ _ =>
    rintro _ ⟨⟩
    exact .inl rfl

/-- A conversation fails before its first request, or it ends at a response. -/
theorem complete_cases (service : Service) (script : Nat → Response) (jitter : Nat → Float)
    (question : Question) :
    (¬ (service.hasKey = true ∧ 0 < service.maxAttempts) ∧ ∃ failure : Failure,
      failure.kind = .completion ∧ (service.complete script jitter question).result = .error failure) ∨
    (service.hasKey = true ∧ ∃ n < service.maxAttempts, (∀ m < n, GoesOn script m) ∧
      Ends service script jitter service.maxAttempts n
        (service.complete script jitter question).result) := by
  by_cases hkey : service.hasKey = true
  · rcases Nat.eq_zero_or_pos service.maxAttempts with hnone | hsome
    · refine .inl ⟨fun h => Nat.ne_of_gt h.2 hnone, ?_⟩
      rw [complete, if_pos hkey, hnone]
      exact ⟨_, rfl, rfl⟩
    · obtain ⟨delays, hwaits, hlength, -, hends⟩ := complete_runs script jitter hkey hsome question
      have hbefore : ∀ m < delays.length, GoesOn script m := fun m hm =>
        hwaits.goesOn (Nat.zero_le m) (by omega)
      exact .inr ⟨hkey, delays.length, hlength, hbefore, hends⟩
  · refine .inl ⟨fun h => hkey h.1, ?_⟩
    rw [complete, if_neg hkey]
    exact ⟨_, rfl, rfl⟩

end CodeReview.Service
