import CodeReview.Failure
import Mathlib.Data.List.Forall2

/-!
# Steps that may fail

* `exists_of_bind_ok`: a chain of steps that succeeds takes apart into its steps; so does a list
  (`mapM_eq_ok_iff`, `exists_of_mem_mapM_ok`), and a loop keeps what its steps keep
  (`invariant_of_foldlM_ok`).
* `Succeeds`: a step gives a result. Steps that do so one by one do so in a chain
  (`Succeeds.bind`), over a list (`Succeeds.mapM`) and in a loop (`Succeeds.foldlM`); a list or loop
  breaks off with any one of its steps (`Succeeds.mapM_iff`, `Succeeds.foldlM_iff`).
* `FailsWith`: what all failures of a step are like. It is carried along chains, lists and loops in the
  same way.
-/

namespace CodeReview

variable {α β : Type}

theorem ok_bind (a : α) (f : α → Except Failure β) : (.ok a >>= f) = f a := rfl

theorem error_bind (failure : Failure) (f : α → Except Failure β) :
    (.error failure >>= f) = .error failure := rfl

/-- The steps of a chain that succeeds. -/
theorem exists_of_bind_ok {x : Except Failure α} {f : α → Except Failure β} {b : β}
    (h : x >>= f = .ok b) : ∃ a, x = .ok a ∧ f a = .ok b := by
  cases x with
  | error failure => exact nomatch h
  | ok a => exact ⟨a, rfl, h⟩

/-- What a list of steps gives, one of the steps gave. -/
theorem exists_of_mem_mapM_ok {f : α → Except Failure β} {items : List α} {results : List β}
    (h : items.mapM f = .ok results) {b : β} (hb : b ∈ results) : ∃ a ∈ items, f a = .ok b := by
  induction items generalizing results with
  | nil =>
    obtain rfl := Except.ok.inj h
    exact nomatch hb
  | cons a items ih =>
    rw [List.mapM_cons] at h
    obtain ⟨first, hfirst, hrest⟩ := exists_of_bind_ok h
    obtain ⟨rest, hitems, hresults⟩ := exists_of_bind_ok hrest
    obtain rfl := Except.ok.inj hresults
    rcases List.mem_cons.1 hb with rfl | hb
    · exact ⟨a, List.mem_cons_self, hfirst⟩
    · obtain ⟨a', ha', hfa'⟩ := ih hitems hb
      exact ⟨a', List.mem_cons_of_mem a ha', hfa'⟩

/-- A list of steps gives what its steps give, one by one. -/
theorem mapM_eq_ok_iff {f : α → Except Failure β} {items : List α} {results : List β} :
    items.mapM f = .ok results ↔ List.Forall₂ (fun a b => f a = .ok b) items results := by
  induction items generalizing results with
  | nil =>
    rw [List.mapM_nil, List.forall₂_nil_left_iff]
    exact ⟨fun h => (Except.ok.inj h).symm, fun h => h ▸ rfl⟩
  | cons a items ih =>
    rw [List.mapM_cons, List.forall₂_cons_left_iff]
    constructor
    · intro h
      obtain ⟨b, hb, hrest⟩ := exists_of_bind_ok h
      obtain ⟨bs, hbs, hresults⟩ := exists_of_bind_ok hrest
      exact ⟨b, bs, hb, ih.1 hbs, (Except.ok.inj hresults).symm⟩
    · rintro ⟨b, bs, hb, hbs, rfl⟩
      rw [hb, ih.2 hbs]
      rfl

/-- What every step of a loop keeps, the loop keeps. -/
theorem invariant_of_foldlM_ok {f : β → α → Except Failure β} {p : β → Prop} {items : List α}
    (hstep : ∀ a ∈ items, ∀ b next, p b → f b a = .ok next → p next) {start last : β}
    (hstart : p start) (h : items.foldlM f start = .ok last) : p last := by
  induction items generalizing start with
  | nil => exact Except.ok.inj h ▸ hstart
  | cons a items ih =>
    rw [List.foldlM_cons] at h
    obtain ⟨next, hnext, hrest⟩ := exists_of_bind_ok h
    exact ih (fun a' ha' => hstep a' (List.mem_cons_of_mem a ha'))
      (hstep a List.mem_cons_self start next hstart hnext) hrest

/-- The step gives a result. -/
def Succeeds (x : Except Failure α) : Prop := ∃ a, x = .ok a

namespace Succeeds

theorem pure (a : α) : Succeeds (Pure.pure a) := ⟨a, rfl⟩

theorem bind {x : Except Failure α} {f : α → Except Failure β} (hx : Succeeds x)
    (hf : ∀ a, Succeeds (f a)) : Succeeds (x >>= f) := by
  obtain ⟨a, rfl⟩ := hx
  exact hf a

theorem mapM {f : α → Except Failure β} {items : List α} (h : ∀ a ∈ items, Succeeds (f a)) :
    Succeeds (items.mapM f) := by
  induction items with
  | nil => exact ⟨[], rfl⟩
  | cons a items ih =>
    obtain ⟨b, hb⟩ := h a List.mem_cons_self
    obtain ⟨bs, hbs⟩ := ih fun a' ha' => h a' (List.mem_cons_of_mem a ha')
    exact ⟨b :: bs, by rw [List.mapM_cons, hb, hbs]; rfl⟩

theorem foldlM {f : β → α → Except Failure β} {items : List α}
    (h : ∀ b, ∀ a ∈ items, Succeeds (f b a)) (start : β) : Succeeds (items.foldlM f start) := by
  induction items generalizing start with
  | nil => exact ⟨start, rfl⟩
  | cons a items ih =>
    obtain ⟨next, hnext⟩ := h start a List.mem_cons_self
    obtain ⟨b, hb⟩ := ih (fun b a' ha' => h b a' (List.mem_cons_of_mem a ha')) next
    exact ⟨b, by rw [List.foldlM_cons, hnext]; exact hb⟩

/-- A step breaks off a chain, or one behind it does, if what it gives has no say in that. -/
theorem bind_iff {x : Except Failure α} {f : α → Except Failure β} {p : Prop}
    (h : ∀ a, Succeeds (f a) ↔ p) : Succeeds (x >>= f) ↔ Succeeds x ∧ p := by
  constructor
  · rintro ⟨b, hb⟩
    obtain ⟨a, ha, hfa⟩ := exists_of_bind_ok hb
    exact ⟨⟨a, ha⟩, (h a).1 ⟨b, hfa⟩⟩
  · rintro ⟨hx, hp⟩
    exact hx.bind fun a => (h a).2 hp

theorem bind_pure_iff {x : Except Failure α} (f : α → β) :
    Succeeds (x >>= fun a => Pure.pure (f a)) ↔ Succeeds x :=
  (bind_iff fun a => iff_true_intro (.pure (f a))).trans (and_iff_left trivial)

theorem mapM_iff {f : α → Except Failure β} {items : List α} :
    Succeeds (items.mapM f) ↔ ∀ a ∈ items, Succeeds (f a) := by
  refine ⟨fun hall => ?_, mapM⟩
  induction items with
  | nil => exact fun a ha => nomatch ha
  | cons a items ih =>
    obtain ⟨all, hall⟩ := hall
    rw [List.mapM_cons] at hall
    obtain ⟨b, hb, hrest⟩ := exists_of_bind_ok hall
    obtain ⟨bs, hbs, -⟩ := exists_of_bind_ok hrest
    intro a' ha'
    rcases List.mem_cons.1 ha' with rfl | ha'
    · exact ⟨b, hb⟩
    · exact ih ⟨bs, hbs⟩ a' ha'

/-- In a loop the state may decide what a step gives, as long as it does not decide whether the step
gives anything. -/
theorem foldlM_iff {f : β → α → Except Failure β} {p : α → Prop} {items : List α}
    (h : ∀ b, ∀ a ∈ items, Succeeds (f b a) ↔ p a) (start : β) :
    Succeeds (items.foldlM f start) ↔ ∀ a ∈ items, p a := by
  refine ⟨fun hall => ?_, fun hp => foldlM (fun b a ha => (h b a ha).2 (hp a ha)) start⟩
  induction items generalizing start with
  | nil => exact fun a ha => nomatch ha
  | cons a items ih =>
    obtain ⟨last, hlast⟩ := hall
    rw [List.foldlM_cons] at hlast
    obtain ⟨next, hnext, hrest⟩ := exists_of_bind_ok hlast
    intro a' ha'
    rcases List.mem_cons.1 ha' with rfl | ha'
    · exact (h start a' List.mem_cons_self).1 ⟨next, hnext⟩
    · exact ih (fun b a' ha' => h b a' (List.mem_cons_of_mem a ha')) next ⟨last, hrest⟩ a' ha'

end Succeeds

/-- Every failure of the step satisfies `p`. -/
def FailsWith (p : Failure → Prop) (x : Except Failure α) : Prop :=
  ∀ failure, x = .error failure → p failure

namespace FailsWith

variable {p : Failure → Prop}

theorem pure (a : α) : FailsWith p (Pure.pure a) := nofun

theorem bind {x : Except Failure α} {f : α → Except Failure β} (hx : FailsWith p x)
    (hf : ∀ a, FailsWith p (f a)) : FailsWith p (x >>= f) := by
  cases x with
  | error failure => exact fun other h => hx other (congrArg Except.error (Except.error.inj h))
  | ok a => exact hf a

theorem mapM {f : α → Except Failure β} (h : ∀ a, FailsWith p (f a)) (items : List α) :
    FailsWith p (items.mapM f) := by
  induction items with
  | nil => exact .pure []
  | cons a items ih =>
    rw [List.mapM_cons]
    exact (h a).bind fun _ => ih.bind fun _ => .pure _

theorem foldlM_of_mem {f : β → α → Except Failure β} {items : List α}
    (h : ∀ b, ∀ a ∈ items, FailsWith p (f b a)) (start : β) : FailsWith p (items.foldlM f start) := by
  induction items generalizing start with
  | nil => exact .pure start
  | cons a items ih =>
    rw [List.foldlM_cons]
    exact (h start a List.mem_cons_self).bind
      fun next => ih (fun b a' ha' => h b a' (List.mem_cons_of_mem a ha')) next

theorem foldlM {f : β → α → Except Failure β} (h : ∀ b a, FailsWith p (f b a)) (items : List α)
    (start : β) : FailsWith p (items.foldlM f start) :=
  foldlM_of_mem (fun b a _ => h b a) start

end FailsWith

end CodeReview
