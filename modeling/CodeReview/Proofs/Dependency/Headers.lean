import CodeReview.Proofs.Dependency.Brackets
import CodeReview.Proofs.Text.Chars
import CodeReview.Proofs.Text.Keywords

/-!
# Layouts of a type header

A header declares a type and names the types that it extends and implements, with white space wherever it may
stand and with type arguments that hold further ones. `Header` holds what can be chosen, and `Header.chars` is
the text.

The text behind the declared name is spelled twice (`Header.clause`): as it is written, and without the type
arguments.

* `Header.notMem_clause`: what does not stand in a clause.
* `Header.stripGenerics_clause`: the second text is what is left of the first when type arguments are dropped.
-/

namespace CodeReview.Dependency.Java

open Text Scan

/-! ## Words and white space -/

/-- White space, perhaps none. -/
structure Blanks where
  chars : List Char
  isBlank_of_mem : ∀ c ∈ chars, isBlank c = true

/-- White space, at least one character. -/
structure Gap extends Blanks where
  ne_nil : chars ≠ []

/-- The words that a list of types stands behind. -/
def clauseWords : List (List Char) := ["extends".toList, "implements".toList]

structure Identifier where
  chars : List Char
  ne_nil : chars ≠ []
  isWord_of_mem : ∀ c ∈ chars, isWord c = true

/-! ## Type arguments -/

/-- Any character but brackets and those that end a header. -/
def isInner (c : Char) : Bool := !isAngle c && c != '\x7b' && c != ';'

/-- What stands between angle brackets: any characters, and further brackets in pairs. -/
inductive Inside
  | nil
  | char (c : Char) (h : isInner c = true) (rest : Inside)
  | pair (inner rest : Inside)

namespace Inside

def chars : Inside → List Char
  | nil => []
  | char c _ rest => c :: rest.chars
  | pair inner rest => '<' :: (inner.chars ++ '>' :: rest.chars)

def bracketed (inside : Inside) : List Char := '<' :: (inside.chars ++ ['>'])

/-- Nothing in type arguments ends a header. -/
theorem notMem_bracketed {c : Char} (hc : c ∈ ['\x7b', ';']) (inside : Inside) : c ∉ inside.bracketed := by
  have hmarks : ∀ c ∈ ['\x7b', ';'], isInner c = false ∧ c ≠ '<' ∧ c ≠ '>' := by decide
  obtain ⟨hinner, hopen, hclose⟩ := hmarks c hc
  have hchars : c ∉ inside.chars := by
    induction inside with
    | nil => exact List.not_mem_nil
    | char d hd rest ih =>
      refine mt List.mem_cons.1 (not_or.2 ⟨?_, ih⟩)
      rintro rfl
      exact nomatch hinner.symm.trans hd
    | pair inner rest ihInner ihRest =>
      simp only [chars, List.mem_cons, List.mem_append, not_or]
      exact ⟨hopen, ihInner, hclose, ihRest⟩
  simp only [bracketed, List.mem_cons, List.mem_append, List.not_mem_nil, or_false, not_or]
  exact ⟨hopen, hchars, hclose⟩

end Inside

/-! ## Types and headers -/

/-- A name between the points of a type, with type arguments or without them. -/
structure Part where
  before : Blanks
  name : Identifier
  notMem_clauseWords : name.chars ∉ clauseWords
  gap : Blanks
  arguments : Option Inside
  behind : Blanks

/-- A type, named by its parts with points in between. -/
structure TypeRef where
  init : List Part
  last : Part

/-- A list of types with the word in front of it. -/
structure Clause where
  before : Gap
  behind : Gap
  types : List TypeRef
  ne_nil : types ≠ []

/-- A header. -/
structure Header where
  keyword : String
  keyword_mem : keyword ∈ ["class", "interface", "enum"]
  beforeName : Gap
  name : Identifier
  behindName : Blanks
  parameters : Option Inside
  extended : Option Clause
  implemented : Option Clause
  behind : Blanks

section Text

-- how type arguments are written, if they are
variable (write : Inside → List Char)

def argumentsText (arguments : Option Inside) : List Char := arguments.elim [] write

def Part.text (part : Part) : List Char :=
  part.before.chars ++ (part.name.chars ++
    (part.gap.chars ++ (argumentsText write part.arguments ++ part.behind.chars)))

def TypeRef.text (type : TypeRef) : List Char :=
  Chars.join ['.'] ((type.init ++ [type.last]).map (Part.text write))

def Clause.list (clause : Clause) : List Char :=
  Chars.join [','] (clause.types.map (TypeRef.text write))

def Clause.text (word : String) (clause : Clause) : List Char :=
  clause.before.chars ++ (word.toList ++ (clause.behind.chars ++ clause.list write))

def Header.extendedText (header : Header) : List Char := header.extended.elim [] (Clause.text write "extends")

def Header.implementedText (header : Header) : List Char :=
  header.implemented.elim [] (Clause.text write "implements")

/-- What stands between the declared name and the brace. -/
def Header.clause (header : Header) : List Char :=
  header.behindName.chars ++ (argumentsText write header.parameters ++
    (header.extendedText write ++ (header.implementedText write ++ header.behind.chars)))

end Text

/-- Nothing in place of type arguments. -/
def unwritten (_ : Inside) : List Char := []

def Header.chars (header : Header) : List Char :=
  header.keyword.toList ++ (header.beforeName.chars ++ (header.name.chars ++
    (header.clause Inside.bracketed ++ ['\x7b'])))

/-- The name that a type is looked up by. -/
def TypeRef.simpleName (type : TypeRef) : String := String.ofList type.last.name.chars

def Clause.names (clause : Clause) : List String := clause.types.map TypeRef.simpleName

/-- The types that a header names, with how they are inherited. -/
def Header.listed (header : Header) : List (Heritage × String) :=
  (header.extended.elim [] Clause.names).map (.extends, ·) ++
    (header.implemented.elim [] Clause.names).map (.implements, ·)

/-! ## What the texts are made of -/

section Contents

variable {write : Inside → List Char} {c : Char}

theorem notMem_join {sep : Char} {parts : List (List Char)} (hsep : c ≠ sep) (h : ∀ part ∈ parts, c ∉ part) :
    c ∉ Chars.join [sep] parts := by
  rw [Chars.mem_join_iff hsep]
  rintro ⟨part, hpart, hc⟩
  exact h part hpart hc

variable (hblank : isBlank c = false) (hword : isWord c = false) (hwrite : ∀ inside, c ∉ write inside)

include hblank in
theorem Blanks.notMem_chars (blanks : Blanks) : c ∉ blanks.chars := fun hc => by
  rw [blanks.isBlank_of_mem c hc] at hblank
  exact nomatch hblank

include hword in
theorem Identifier.notMem_chars (name : Identifier) : c ∉ name.chars := fun hc => by
  rw [name.isWord_of_mem c hc] at hword
  exact nomatch hword

include hwrite in
theorem notMem_argumentsText (arguments : Option Inside) : c ∉ argumentsText write arguments := by
  cases arguments with
  | none => exact List.not_mem_nil
  | some inside => exact hwrite inside

include hblank hword hwrite

theorem Part.notMem_text (part : Part) : c ∉ part.text write := by
  simp only [Part.text, List.mem_append, not_or]
  exact ⟨part.before.notMem_chars hblank, part.name.notMem_chars hword, part.gap.notMem_chars hblank,
    notMem_argumentsText hwrite part.arguments, part.behind.notMem_chars hblank⟩

theorem TypeRef.notMem_text (hpoint : c ≠ '.') (type : TypeRef) : c ∉ type.text write :=
  notMem_join hpoint (List.forall_mem_map.2 fun part _ => part.notMem_text hblank hword hwrite)

variable (hpoint : c ≠ '.') (hcomma : c ≠ ',')
include hpoint hcomma

theorem Clause.notMem_text {word : String} (h : word.toList ∈ clauseWords) (clause : Clause) :
    c ∉ clause.text write word := by
  have hchars : ∀ word ∈ clauseWords, ∀ c ∈ word, isWord c = true := by decide
  have hclauseWord : c ∉ word.toList := fun hc => by
    rw [hchars _ h c hc] at hword
    exact nomatch hword
  have hlist : c ∉ clause.list write := notMem_join hcomma
    (List.forall_mem_map.2 fun type _ => type.notMem_text hblank hword hwrite hpoint)
  simp only [Clause.text, List.mem_append, not_or]
  exact ⟨clause.before.notMem_chars hblank, hclauseWord, clause.behind.notMem_chars hblank, hlist⟩

/-- A clause holds white space, names, points and commas, and what stands in its type arguments. -/
theorem Header.notMem_clause (header : Header) : c ∉ header.clause write := by
  have hclause {word : String} (h : word.toList ∈ clauseWords) (clause : Option Clause) :
      c ∉ clause.elim [] (Clause.text write word) := by
    cases clause with
    | none => exact List.not_mem_nil
    | some clause => exact clause.notMem_text hblank hword hwrite hpoint hcomma h
  simp only [Header.clause, List.mem_append, not_or]
  exact ⟨header.behindName.notMem_chars hblank, notMem_argumentsText hwrite header.parameters,
    hclause (by decide) header.extended, hclause (by decide) header.implemented,
    header.behind.notMem_chars hblank⟩

end Contents

/-! ## Without type arguments -/

section Stripping

/-- The brackets in type arguments are paired, so a pass keeps what it has kept in front. -/
theorem Inside.exists_foldl_chars (inside : Inside) (outer : List (List Char)) (kept : List Char) :
    ∃ more, inside.chars.foldl Pairing.step ⟨outer, kept⟩ = ⟨outer, kept ++ more⟩ := by
  induction inside generalizing outer kept with
  | nil => exact ⟨[], by rw [chars, List.foldl_nil, List.append_nil]⟩
  | char c h rest ih =>
    have hc : isAngle c = false := by simpa using (Bool.and_eq_true_iff.1 (Bool.and_eq_true_iff.1 h).1).1
    obtain ⟨more, hmore⟩ := ih outer (kept ++ [c])
    exact ⟨c :: more, by rw [chars, List.foldl_cons, step_of_not_angle hc, hmore, List.append_assoc]; rfl⟩
  | pair inner rest ihInner ihRest =>
    obtain ⟨more, hmore⟩ := ihInner (kept :: outer) ['<']
    rw [chars, List.foldl_cons, step_open, List.foldl_append, hmore, List.foldl_cons, step_close]
    exact ihRest outer kept

theorem foldl_bracketed (inside : Inside) (pairing : Pairing) :
    inside.bracketed.foldl Pairing.step pairing = pairing := by
  obtain ⟨more, hmore⟩ := inside.exists_foldl_chars (pairing.kept :: pairing.outer) ['<']
  rw [Inside.bracketed, List.foldl_cons, step_open, List.foldl_append, hmore, List.foldl_cons, step_close]
  rfl

theorem foldl_argumentsText (arguments : Option Inside) (pairing : Pairing) :
    (argumentsText Inside.bracketed arguments).foldl Pairing.step pairing =
      (argumentsText unwritten arguments).foldl Pairing.step pairing := by
  cases arguments with
  | none => rfl
  | some inside => exact foldl_bracketed inside pairing

theorem foldl_join {α : Type} {sep : List Char} {f g : α → List Char}
    (h : ∀ a pairing, (f a).foldl Pairing.step pairing = (g a).foldl Pairing.step pairing) (parts : List α)
    (pairing : Pairing) : (Chars.join sep (parts.map f)).foldl Pairing.step pairing =
      (Chars.join sep (parts.map g)).foldl Pairing.step pairing := by
  induction parts generalizing pairing with
  | nil => rfl
  | cons a parts ih =>
    by_cases hparts : parts = []
    · subst hparts
      simpa [Chars.join] using h a pairing
    · have hmap (f : α → List Char) : parts.map f ≠ [] := mt List.map_eq_nil_iff.1 hparts
      rw [List.map_cons, Chars.join_cons (hmap f), List.map_cons, Chars.join_cons (hmap g)]
      simp only [List.foldl_append, h, ih]

theorem Part.foldl_text (part : Part) (pairing : Pairing) :
    (part.text Inside.bracketed).foldl Pairing.step pairing =
      (part.text unwritten).foldl Pairing.step pairing := by
  simp only [Part.text, List.foldl_append, foldl_argumentsText]

theorem Clause.foldl_text (word : String) (clause : Clause) (pairing : Pairing) :
    (clause.text Inside.bracketed word).foldl Pairing.step pairing =
      (clause.text unwritten word).foldl Pairing.step pairing := by
  have htype (type : TypeRef) (pairing : Pairing) : (type.text Inside.bracketed).foldl Pairing.step pairing =
      (type.text unwritten).foldl Pairing.step pairing :=
    foldl_join Part.foldl_text (type.init ++ [type.last]) pairing
  simp only [Clause.text, Clause.list, List.foldl_append, foldl_join htype]

theorem Header.foldl_clause (header : Header) (pairing : Pairing) :
    (header.clause Inside.bracketed).foldl Pairing.step pairing =
      (header.clause unwritten).foldl Pairing.step pairing := by
  have hclause (word : String) (clause : Option Clause) (pairing : Pairing) :
      (clause.elim [] (Clause.text Inside.bracketed word)).foldl Pairing.step pairing =
        (clause.elim [] (Clause.text unwritten word)).foldl Pairing.step pairing := by
    cases clause with
    | none => rfl
    | some clause => exact clause.foldl_text word pairing
  simp only [Header.clause, Header.extendedText, Header.implementedText, List.foldl_append,
    foldl_argumentsText, hclause]

/-- Dropping type arguments leaves the text without them. -/
theorem Header.stripGenerics_clause (header : Header) :
    stripGenerics (header.clause Inside.bracketed) = header.clause unwritten := by
  have hangle : '<' ∉ header.clause unwritten ∧ '>' ∉ header.clause unwritten :=
    ⟨header.notMem_clause rfl rfl (fun _ => List.not_mem_nil) (by decide) (by decide),
      header.notMem_clause rfl rfl (fun _ => List.not_mem_nil) (by decide) (by decide)⟩
  have hclause : ∀ c ∈ header.clause unwritten, isAngle c = false := fun c hc =>
    isAngle_eq_false_iff.2 ⟨fun heq => hangle.1 (heq ▸ hc), fun heq => hangle.2 (heq ▸ hc)⟩
  rw [stripGenerics_eq, unpaired, header.foldl_clause, foldl_of_not_angle hclause]
  rfl

end Stripping

end CodeReview.Dependency.Java
