import CodeReview.Completion.Service
import CodeReview.Proofs.Steps

/-!
# Texts in replies

What is read from the body of a reply is an answer (`Service.IsAnswer`): a text that is not blank, or a
failure of the completion. There is one exception (`LacksAttribute`), when a value is taken for an object,
or for a text, that is none (`Service.isAnswer_or_lacksAttribute_textOf`).

`Provider.Lacks` says for each provider in which documents that happens, and `Provider.lacks_iff` that it
happens in no others. Looking for a field or for the first item of a value is no cause of it
(`Json.not_lacksAttribute_field`, `Json.not_lacksAttribute_first`).
-/

namespace CodeReview

open Text

/-! ## Missing attributes -/

/-- A value lacks what its kind should have. -/
def LacksAttribute {α : Type} (x : Except Failure α) : Prop :=
  ∃ failure, x = .error failure ∧ failure.kind = .missingAttribute

namespace LacksAttribute

variable {α β : Type} {x : Except Failure α}

theorem not_ok (a : α) : ¬ LacksAttribute (.ok a : Except Failure α) := fun ⟨_, h, _⟩ => nomatch h

theorem error_iff {failure : Failure} :
    LacksAttribute (.error failure : Except Failure α) ↔ failure.kind = .missingAttribute :=
  ⟨fun ⟨_, h, hkind⟩ => Except.error.inj h ▸ hkind, fun hkind => ⟨failure, rfl, hkind⟩⟩

theorem bind_iff {f : α → Except Failure β} :
    LacksAttribute (x >>= f) ↔ LacksAttribute x ∨ ∃ a, x = .ok a ∧ LacksAttribute (f a) := by
  cases x with
  | error failure =>
    rw [error_bind, error_iff, error_iff]
    exact ⟨.inl, fun h => h.elim id fun ⟨_, h, _⟩ => nomatch h⟩
  | ok a =>
    rw [ok_bind]
    constructor
    · exact fun h => .inr ⟨a, rfl, h⟩
    · rintro (h | ⟨_, ⟨⟩, h⟩)
      · exact absurd h (not_ok a)
      · exact h

theorem bind_iff_of_not {f : α → Except Failure β} (h : ¬ LacksAttribute x) :
    LacksAttribute (x >>= f) ↔ ∃ a, x = .ok a ∧ LacksAttribute (f a) := by
  rw [bind_iff, or_iff_right h]

theorem failsWith_iff : FailsWith (·.kind ≠ .missingAttribute) x ↔ ¬ LacksAttribute x :=
  ⟨fun h ⟨failure, hx, hkind⟩ => h failure hx hkind, fun h failure hx hkind => h ⟨failure, hx, hkind⟩⟩

theorem iff_not_succeeds (h : FailsWith (·.kind = .missingAttribute) x) :
    LacksAttribute x ↔ ¬ Succeeds x := by
  cases x with
  | error failure => simp [error_iff, Succeeds, h failure rfl]
  | ok a => simp [not_ok, Succeeds]

end LacksAttribute

namespace Json

/-! ## Values -/

def isObject : Json → Bool
  | obj _ => true
  | _ => false

/-- The value of a field, null if there is none. -/
def member (name : String) : Json → Json
  | obj fields => (Keyed.get? fields name).getD .null
  | _ => .null

/-- A value that counts as present and is no text. -/
def IsForeign (value : Json) : Prop := value.isTruthy = true ∧ value.str? = none

/-- A value over which one can go, with something in it that is no object. -/
def HasForeignBlock : Json → Prop
  | arr items => ∃ item ∈ items, item.isObject = false
  | str s => s.toList ≠ []
  | obj fields => fields ≠ []
  | _ => False

variable {value : Json} {name : String}

theorem not_lacksAttribute_field : ¬ LacksAttribute (value.field name) := by
  refine LacksAttribute.failsWith_iff.1 ?_
  unfold field
  split
  · split
    · exact .pure _
    · rintro _ ⟨⟩
      exact nofun
  · rintro _ ⟨⟩
    exact nofun

theorem not_lacksAttribute_first : ¬ LacksAttribute value.first := by
  refine LacksAttribute.failsWith_iff.1 ?_
  unfold first
  split
  case h_1 => exact .pure _
  case h_3 =>
    split
    · exact .pure _
    · rintro _ ⟨⟩
      exact nofun
  all_goals
    rintro _ ⟨⟩
    exact nofun

theorem fieldOrNull_eq (name : String) (value : Json) : value.fieldOrNull name =
    if value.isObject = true then .ok (value.member name) else .error .missingAttribute := by
  cases value <;> rfl

theorem member_of_not_isTruthy (h : value.isTruthy = false) (name : String) :
    value.member name = .null := by
  cases value with
  | obj fields =>
    cases fields with
    | nil => rfl
    | cons first rest => exact nomatch h
  | _ => rfl

theorem isBlank_orEmpty (value : Json) : value.orEmpty.isBlank = value.isBlank := by
  unfold orEmpty
  split
  · rfl
  · next h =>
    rw [isBlank.eq_def value, if_neg h]
    rfl

theorem isBlank_orNull (h : value.isBlank = .ok true) :
    (if value.orEmpty.isTruthy then value.orEmpty else .null).isBlank = .ok true := by
  split
  · rw [isBlank_orEmpty, h]
  · rfl

theorem lacksAttribute_isBlank_iff : LacksAttribute value.isBlank ↔ value.IsForeign := by
  unfold isBlank IsForeign
  cases value.isTruthy with
  | false => simp [LacksAttribute.not_ok]
  | true => cases value <;> simp [LacksAttribute.not_ok, LacksAttribute.error_iff, str?, Failure.kind]

end Json

namespace Provider

open Json

/-! ## Documents -/

theorem not_lacksAttribute_chatMessage {body : Json} : ¬ LacksAttribute (chatMessage body) := by
  simp [chatMessage, LacksAttribute.bind_iff, not_lacksAttribute_field, not_lacksAttribute_first]

theorem not_lacksAttribute_chatText {body : Json} : ¬ LacksAttribute (chatText body) := by
  simp [chatText, LacksAttribute.bind_iff, not_lacksAttribute_chatMessage, not_lacksAttribute_field]

theorem not_lacksAttribute_geminiText {body : Json} : ¬ LacksAttribute (geminiText body) := by
  simp [geminiText, LacksAttribute.bind_iff, not_lacksAttribute_field, not_lacksAttribute_first]

/-- The text in a document from `ollama` is looked for in what is no object, or what is found is no
text. -/
def OllamaLacks (body : Json) : Prop :=
  let message := body.member "message"
  let content := message.member "content"
  body.isObject = false ∨ (message.isTruthy = true ∧ message.isObject = false) ∨
    IsForeign (if content.isTruthy then content else body.member "response")

theorem ollamaText_eq (body : Json) : ollamaText body =
    let message := body.member "message"
    let content := message.member "content"
    if body.isObject = false ∨ (message.isTruthy = true ∧ message.isObject = false) then
      .error .missingAttribute
    else .ok (if content.isTruthy then content else body.member "response") := by
  unfold ollamaText
  simp only [fieldOrNull_eq]
  cases body.isObject with
  | false => rfl
  | true =>
    simp only [if_true, ok_bind]
    generalize body.member "message" = message
    cases htruthy : message.isTruthy with
    | false => simp [member_of_not_isTruthy htruthy, isTruthy, pure_bind]
    | true =>
      cases message.isObject with
      | false => rfl
      | true =>
        simp only [if_true, ok_bind]
        split <;> simp_all [pure, Except.pure]

theorem ollamaLacks_iff {body : Json} :
    LacksAttribute (ollamaText body >>= isBlank) ↔ OllamaLacks body := by
  rw [LacksAttribute.bind_iff, ollamaText_eq, OllamaLacks]
  dsimp only
  split
  · next h => simpa [LacksAttribute.error_iff, Failure.kind, ← or_assoc] using .inl h
  · next h => simp [LacksAttribute.not_ok, ← or_assoc, h, lacksAttribute_isBlank_iff]

/-- The message in a document from `openrouter` is no object, or what is found in it is no text. -/
def OpenrouterLacks (body : Json) : Prop :=
  ∃ message, chatMessage body = .ok message ∧
    (message.isObject = false ∨ IsForeign (message.member "content") ∨
      ((message.member "content").isBlank = .ok true ∧ IsForeign (message.member "reasoning")))

theorem openrouterLacks_iff {body : Json} :
    LacksAttribute (openrouterText body >>= isBlank) ↔ OpenrouterLacks body := by
  rw [openrouterText, bind_assoc, LacksAttribute.bind_iff_of_not not_lacksAttribute_chatMessage]
  refine exists_congr fun message => and_congr_right fun _ => ?_
  simp only [fieldOrNull_eq, isBlank_orEmpty]
  cases message.isObject with
  | false => simp [error_bind, LacksAttribute.error_iff, Failure.kind]
  | true =>
    simp only [if_true, ok_bind, ← lacksAttribute_isBlank_iff]
    generalize hcontent : (message.member "content").isBlank = blank
    rcases blank with failure | _ | _
    · simp [error_bind]
    · simp [ok_bind, pure_bind, isBlank_orEmpty, hcontent]
    · simp only [ok_bind, LacksAttribute.not_ok, false_or, Bool.not_true, Bool.false_eq_true, if_false,
        true_and]
      cases hreasoning : (message.member "reasoning").isBlank with
      | error failure => simp [error_bind]
      | ok blank => cases blank <;> simp [ok_bind, isBlank_orEmpty, hreasoning, isBlank_orNull hcontent]

theorem succeeds_blockText_iff {block : Json} : Succeeds (blockText block) ↔ block.isObject = true := by
  cases block <;> simp [blockText, Succeeds, isObject]

theorem lacksAttribute_blocks_iff {blocks : List Json} :
    LacksAttribute (blocks.mapM blockText) ↔ ∃ block ∈ blocks, block.isObject = false := by
  have hblock (block : Json) : FailsWith (·.kind = .missingAttribute) (blockText block) := by
    unfold blockText
    split
    · exact .pure _
    · rintro _ ⟨⟩
      rfl
  rw [LacksAttribute.iff_not_succeeds (.mapM hblock blocks), Succeeds.mapM_iff]
  simp [succeeds_blockText_iff]

/-- The texts of blocks, one after the other. -/
def joined (blocks : List Json) : Except Failure Json := do
  let texts ← blocks.mapM blockText
  let parts ← texts.mapM fun
    | .str s => pure s
    | _ => throw Failure.wrongType
  return .str (String.join parts)

theorem lacksAttribute_joined_iff {blocks : List Json} :
    LacksAttribute (joined blocks >>= isBlank) ↔ ∃ block ∈ blocks, block.isObject = false := by
  have hpart (text : Json) : FailsWith (·.kind ≠ .missingAttribute)
      (match text with | .str s => pure s | _ => throw Failure.wrongType : Except Failure String) := by
    split
    · exact .pure _
    · rintro _ ⟨⟩
      exact nofun
  have htext (s : String) : FailsWith (·.kind ≠ .missingAttribute) (isBlank (.str s)) :=
    LacksAttribute.failsWith_iff.2 fun h => nomatch (lacksAttribute_isBlank_iff.1 h).2
  rw [← lacksAttribute_blocks_iff, joined, bind_assoc, LacksAttribute.bind_iff]
  refine or_iff_left ?_
  rintro ⟨texts, -, hrest⟩
  rw [bind_assoc] at hrest
  exact LacksAttribute.failsWith_iff.1 ((FailsWith.mapM hpart texts).bind fun parts => htext _) hrest

/-- The content of a document from `anthropic` has a block that is no object. -/
def AnthropicLacks (body : Json) : Prop :=
  ∃ content, body.field "content" = .ok content ∧ content.HasForeignBlock

theorem anthropicLacks_iff {body : Json} :
    LacksAttribute (anthropicText body >>= isBlank) ↔ AnthropicLacks body := by
  rw [anthropicText, bind_assoc, LacksAttribute.bind_iff_of_not not_lacksAttribute_field]
  refine exists_congr fun content => and_congr_right fun _ => ?_
  cases content with
  | arr blocks => exact lacksAttribute_joined_iff
  | str s =>
    refine lacksAttribute_joined_iff.trans ?_
    rw [HasForeignBlock]
    cases s.toList <;> simp [isObject]
  | obj fields =>
    refine lacksAttribute_joined_iff.trans ?_
    rw [HasForeignBlock]
    cases fields <;> simp [isObject]
  | null | bool | int | float =>
    refine iff_of_false ?_ id
    rintro ⟨failure, ⟨⟩, hkind⟩
    exact nomatch hkind

/-- A document in which a text is looked for in a value that is not of the kind that has it, or in which
what is found is no text. -/
def Lacks : Provider → Json → Prop
  | ollama, body => OllamaLacks body
  | groq, body | openai, body => ∃ text, chatText body = .ok text ∧ text.IsForeign
  | openrouter, body => OpenrouterLacks body
  | anthropic, body => AnthropicLacks body
  | gemini, body => ∃ text, geminiText body = .ok text ∧ text.IsForeign

theorem lacks_iff {provider : Provider} {body : Json} :
    LacksAttribute (provider.replyText body >>= isBlank) ↔ provider.Lacks body := by
  cases provider with
  | ollama => exact ollamaLacks_iff
  | groq | openai =>
    rw [replyText, Lacks, LacksAttribute.bind_iff_of_not not_lacksAttribute_chatText]
    simp [lacksAttribute_isBlank_iff]
  | openrouter => exact openrouterLacks_iff
  | anthropic => exact anthropicLacks_iff
  | gemini =>
    rw [replyText, Lacks, LacksAttribute.bind_iff_of_not not_lacksAttribute_geminiText]
    simp [lacksAttribute_isBlank_iff]

/-- A list where there should be an object. -/
example : Lacks ollama (.arr []) := .inl rfl

end Provider

namespace Service

/-! ## Bodies -/

variable {service : Service} {body : String}

/-- A text that is not blank, or a failure of the completion. -/
def IsAnswer : Except Failure String → Prop
  | .ok text => isBlankText text = false
  | .error failure => failure.kind = .completion

theorem not_isAnswer_of_lacksAttribute {result : Except Failure String} (h : LacksAttribute result) :
    ¬ IsAnswer result := by
  obtain ⟨failure, rfl, hkind⟩ := h
  rw [IsAnswer, hkind]
  exact nofun

theorem lacksAttribute_textOf_iff : LacksAttribute (service.textOf body) ↔
    ∃ document, Json.parse? body = some document ∧ service.provider.Lacks document := by
  unfold textOf
  dsimp only
  cases Json.parse? body with
  | none => simp [LacksAttribute.error_iff, Failure.kind]
  | some document =>
    simp only [Option.some.injEq, exists_eq_left']
    rw [← Provider.lacks_iff]
    cases service.provider.replyText document with
    | error failure =>
      rw [error_bind, LacksAttribute.error_iff]
      dsimp only
      split
      · next hkind => exact LacksAttribute.error_iff
      · next hkind => exact LacksAttribute.error_iff.trans (iff_of_false nofun hkind)
    | ok text =>
      rw [ok_bind, Json.lacksAttribute_isBlank_iff, Json.IsForeign]
      dsimp only
      cases text.isTruthy with
      | false => simp [LacksAttribute.error_iff, Failure.kind]
      | true =>
        cases text with
        | str s =>
          dsimp only
          cases isBlankText s <;>
            simp [LacksAttribute.not_ok, LacksAttribute.error_iff, Failure.kind, Json.str?]
        | _ => simp [LacksAttribute.error_iff, Failure.kind, Json.str?]

theorem isAnswer_or_lacksAttribute_textOf (service : Service) (body : String) :
    IsAnswer (service.textOf body) ∨ LacksAttribute (service.textOf body) := by
  unfold textOf
  dsimp only
  cases Json.parse? body with
  | none => exact .inl rfl
  | some document =>
    dsimp only
    cases service.provider.replyText document with
    | error failure =>
      dsimp only
      split
      · next hkind => exact .inr ⟨failure, rfl, hkind⟩
      · exact .inl rfl
    | ok text =>
      dsimp only
      split
      · exact .inl rfl
      · cases text with
        | str s =>
          dsimp only
          split
          · exact .inl rfl
          · next hblank => exact .inl ((Bool.not_eq_true _).mp hblank)
        | _ => exact .inr ⟨_, rfl, rfl⟩

end Service

end CodeReview
