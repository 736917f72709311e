import CodeReview.Proofs.Completion.Retrying
import CodeReview.Proofs.Number.Floats
import CodeReview.Proofs.Number.Reading
import CodeReview.Proofs.Text.Case
import CodeReview.Proofs.Text.Scan

/-!
# Delays that can be waited

The delays of a conversation are finite and not below zero (`Retry.IsUsable`), unless a server that is busy
asks for something else (`Service.Spoils`).

* `isUsable_backoff` : the delay that doubles is usable as long as it is found.
* `nonneg_of_words` : an amount in words has no sign, and so the delay is not below zero; but it can be
  infinite.
* `isUsable_delay_iff` : one step of a conversation; `Waits.isUsable_iff` : all of them, by induction along the
  responses that decide nothing.
-/

namespace CodeReview

open Number Scan Text

namespace Binary64

/-! ## Numbers that are read -/

theorem exists_ofMagnitude_of_ofRatio (negative : Bool) (num : Nat) {den : Nat} (hden : 0 < den) :
    ∃ magnitude ≤ infiniteMagnitude, ofRatio negative num den = ofMagnitude negative magnitude := by
  obtain ⟨p, m, -, -, heq⟩ := exists_ofRatio_eq negative num hden
  exact ⟨_, min_le_right _ _, heq⟩

theorem exists_ofMagnitude_of_ofDecimal (negative : Bool) (digits : Nat) (exponent : Int) :
    ∃ magnitude ≤ infiniteMagnitude, ofDecimal negative digits exponent = ofMagnitude negative magnitude := by
  unfold ofDecimal
  dsimp only
  split
  · exact ⟨0, Nat.zero_le _, rfl⟩
  split
  · exact ⟨infiniteMagnitude, le_rfl, rfl⟩
  split
  · exact exists_ofMagnitude_of_ofRatio _ _ Nat.one_pos
  · exact exists_ofMagnitude_of_ofRatio _ _ (by positivity)

theorem exists_ofMagnitude_of_ofInt? {n : Int} {x : Binary64} (hn : 0 ≤ n) (h : ofInt? n = some x) :
    x.isFinite = true ∧ ∃ magnitude ≤ infiniteMagnitude, x = ofMagnitude false magnitude := by
  rw [ofInt?, decide_eq_false (Int.not_lt.2 hn)] at h
  split at h
  · next hfinite =>
    obtain rfl := Option.some.inj h
    exact ⟨hfinite, exists_ofMagnitude_of_ofRatio _ _ Nat.one_pos⟩
  · cases h

theorem nonneg_toFloat {magnitude : Nat} (h : magnitude ≤ infiniteMagnitude) :
    0 ≤ (ofMagnitude false magnitude).toFloat := by
  have hlt : magnitude < 2 ^ 63 := lt_of_le_of_lt h (by decide)
  have hnan : (ofMagnitude false magnitude).isNaN = false :=
    isNaN_of_magnitude_le (by rwa [magnitude_ofMagnitude hlt])
  exact nonneg_of_ofMagnitude h (ofFloat_toFloat hnan)

end Binary64

namespace Retry

open Binary64

/-! ## Delays in words -/

/-- What an amount is spelt with. -/
def IsAmountChar (c : Char) : Prop := isDigit c = true ∨ c = '.'

section Words

variable {c : Char} {cs : List Char}

theorem IsAmountChar.toLower_ne (h : IsAmountChar c) : c.toLower ≠ 'n' := by
  rcases h with h | rfl
  · by_cases hbeyond : 128 ≤ c.toNat
    · rw [Text.toLower_of_le hbeyond]
      rintro rfl
      exact absurd h (by decide)
    · have hrange : c.toNat ≤ 57 := by
        rw [isDigit, digitValue?, if_pos (Nat.not_le.1 hbeyond)] at h
        split at h
        · next hrange => exact hrange.2
        · cases h
      rw [Char.toLower, dif_neg]
      · rintro rfl
        exact absurd hrange (by decide)
      · rintro ⟨hge, -⟩
        have hcapital : 'A'.toNat ≤ c.toNat := UInt32.le_iff_toNat_le.1 hge
        exact absurd (Nat.le_trans hcapital hrange) (by decide)
  · decide

theorem splitSign_of_amountChars (h : ∀ c ∈ cs, IsAmountChar c) : splitSign cs = (false, cs) := by
  unfold splitSign
  split
  · exact absurd (h '-' List.mem_cons_self) (by rintro (h | h) <;> revert h <;> decide)
  · exact absurd (h '+' List.mem_cons_self) (by rintro (h | h) <;> revert h <;> decide)
  · rfl

/-- Digits and points are a number that is not below zero, if they are one at all. -/
theorem nonneg_number {amount : Float} (hcs : ∀ c ∈ cs, IsAmountChar c) (h : number cs = .ok amount) :
    0 ≤ amount := by
  obtain ⟨before, after, heq, -, -⟩ := Chars.exists_trim cs
  have htrim : ∀ c ∈ Chars.trim cs, IsAmountChar c := fun c hc =>
    hcs c (heq ▸ List.mem_append_left _ (List.mem_append_right _ hc))
  have hname : String.ofList ((Chars.trim cs).map Char.toLower) ≠ "nan" := by
    intro hname
    have hchars : (Chars.trim cs).map Char.toLower = ['n', 'a', 'n'] := String.ofList_injective hname
    obtain ⟨c, hc, hlower⟩ :=
      List.mem_map.1 (hchars ▸ List.mem_cons_self : 'n' ∈ (Chars.trim cs).map Char.toLower)
    exact (htrim c hc).toLower_ne hlower
  unfold number at h
  split at h
  · next x hread =>
    obtain rfl := Except.ok.inj h
    rw [readFloat?, splitSign_of_amountChars htrim] at hread
    dsimp only at hread
    split at hread
    · obtain rfl := Option.some.inj hread
      exact nonneg_toFloat le_rfl
    split at hread
    · next hnan => exact absurd (beq_iff_eq.1 hnan) hname
    obtain ⟨written, -, rfl⟩ := Option.map_eq_some_iff.1 hread
    obtain ⟨magnitude, hmagnitude, heq⟩ := exists_ofMagnitude_of_ofDecimal false
      (ofDigits (written.whole ++ written.places)) (written.exponent - written.places.length)
    rw [Written.value, heq]
    exact nonneg_toFloat hmagnitude
  · exact nomatch h

theorem nonneg_readInteger {n : Int} (hcs : IsDigits cs) (h : readInteger cs = .ok n) : 0 ≤ n := by
  rw [readInteger, trim_of_isDigits hcs, splitSign_of_isDigits hcs] at h
  dsimp only at h
  split at h
  · cases h
  · cases h
  · next digits _ _ =>
    generalize wholeOf digits = whole at h
    cases whole with
    | error => cases h
    | ok value =>
      obtain rfl := Except.ok.inj h
      exact Int.natCast_nonneg value

/-- Whole numbers that are not below zero are read as such. -/
theorem nonneg_secondsIn {seconds : Float} (hcs : IsDigits cs) (h : secondsIn cs = .ok seconds) :
    0 ≤ seconds := by
  unfold secondsIn at h
  split at h
  · next n hn =>
    have hnonneg := nonneg_readInteger hcs hn
    split at h
    · next x hx =>
      obtain rfl := Except.ok.inj h
      obtain ⟨-, magnitude, hmagnitude, rfl⟩ := exists_ofMagnitude_of_ofInt? (by omega) hx
      exact nonneg_toFloat hmagnitude
    · exact nomatch h
  · exact nomatch h
  · exact nomatch h

theorem amountChars_of_amount? {minutes : Option (List Char)} {asked : Asked} {rest : List Char}
    (h : amount? minutes cs = some (asked, rest)) :
    asked.minutes = minutes ∧ ∀ c ∈ asked.amount, IsAmountChar c := by
  unfold amount? at h
  simp only [Option.bind_eq_bind, Option.bind_eq_some_iff] at h
  obtain ⟨⟨amount, behind⟩, hamount, after, -, hasked⟩ := h
  obtain ⟨rfl, -⟩ := Prod.mk.inj (Option.some.inj hasked)
  obtain ⟨-, hchars, -⟩ := eq_of_run? hamount
  refine ⟨rfl, fun c hc => ?_⟩
  simpa [IsAmountChar] using hchars c hc

/-- The parts of a request are numbers without a sign. -/
theorem parts_of_asked? {before : Option Char} {asked : Asked} {rest : List Char}
    (h : asked? before cs = some (asked, rest)) :
    (∀ minutes ∈ asked.minutes, IsDigits minutes) ∧ ∀ c ∈ asked.amount, IsAmountChar c := by
  unfold asked? at h
  simp only [Option.bind_eq_bind, Option.bind_eq_some_iff] at h
  obtain ⟨behind, -, hasked⟩ := h
  rcases Option.or_eq_some_iff.1 hasked with hlong | ⟨-, hshort⟩
  · obtain ⟨⟨minutes, rest⟩, hminutes, hamount⟩ := Option.bind_eq_some_iff.1 hlong
    obtain ⟨hsame, hchars⟩ := amountChars_of_amount? hamount
    refine ⟨fun digits hdigits => ?_, hchars⟩
    rw [hsame, Option.mem_some_iff] at hdigits
    subst hdigits
    unfold minutes? at hminutes
    simp only [Option.bind_eq_bind, Option.bind_eq_some_iff] at hminutes
    obtain ⟨⟨digits, behind⟩, hrun, after, -, hpair⟩ := hminutes
    obtain ⟨rfl, -⟩ := Prod.mk.inj (Option.some.inj hpair)
    obtain ⟨hne, hdigits, -⟩ := eq_of_run? hrun
    exact ⟨hne, hdigits⟩
  · obtain ⟨hsame, hchars⟩ := amountChars_of_amount? hshort
    refine ⟨fun digits hdigits => ?_, hchars⟩
    rw [hsame] at hdigits
    exact nomatch hdigits

theorem nonneg_seconds {asked : Asked} {seconds : Float}
    (hminutes : ∀ minutes ∈ asked.minutes, IsDigits minutes)
    (hamount : ∀ c ∈ asked.amount, IsAmountChar c)
    (h : asked.seconds = .ok seconds) : 0 ≤ seconds := by
  obtain ⟨amount, hnumber, hrest⟩ := exists_of_bind_ok h
  have hnonneg := nonneg_number hamount hnumber
  have hseconds : 0 ≤ if lower asked.unit == ['m', 's'] then amount / 1000.0 else amount := by
    split
    · exact nonneg_div hnonneg (by decide) (by rw [Ne, toRat_eq_zero_iff]; decide) (by decide)
    · exact hnonneg
  dsimp only at hrest
  split at hrest
  · next minutes hsome =>
    obtain ⟨more, hmore, hsum⟩ := exists_of_bind_ok hrest
    obtain rfl := Except.ok.inj hsum
    exact nonneg_add hseconds (nonneg_secondsIn (hminutes minutes hsome) hmore)
  · obtain rfl := Except.ok.inj hrest
    exact hseconds

end Words

/-! ## Delays in headers -/

/-- The number in the header. -/
def headerDelay? (headers : Keyed String) : Option Binary64 :=
  (header? headers "retry-after").bind fun value => readFloat? value.toList

section Asked

variable {headers : Keyed String} {body : String} {x : Binary64} {seconds : Float}

theorem delayAsked_of_header (h : headerDelay? headers = some x) :
    delayAsked headers body = .ok (some x.toFloat) := by
  rw [headerDelay?] at h
  rw [delayAsked, h]
  rfl

/-- Words do not ask for a delay below zero. -/
theorem nonneg_of_words (h : headerDelay? headers = none)
    (hasked : delayAsked headers body = .ok (some seconds)) : 0 ≤ seconds := by
  rw [headerDelay?] at h
  rw [delayAsked, h] at hasked
  dsimp only at hasked
  split at hasked
  · next before asked after hfound =>
    obtain ⟨here, cs, hread⟩ := exists_of_findFirst? hfound
    obtain ⟨hminutes, hamount⟩ := parts_of_asked? hread
    obtain ⟨found, hseconds, hsome⟩ := exists_of_bind_ok hasked
    obtain rfl := Option.some.inj (Except.ok.inj hsome)
    exact nonneg_seconds hminutes hamount hseconds
  · exact nomatch hasked

end Asked

/-! ## Delays that can be slept -/

/-- The random additions to a delay. -/
def IsJitter (jitter : Float) : Prop := 0 ≤ jitter ∧ jitter ≤ maxJitter

/-- What a client can wait. -/
def IsUsable (seconds : Float) : Prop := seconds.isFinite = true ∧ 0 ≤ seconds

section Usable

variable {jitter seconds : Float} (hjitter : IsJitter jitter)

include hjitter

theorem IsJitter.isFinite : (ofFloat jitter).isFinite = true ∧ |(ofFloat jitter).toRat| ≤ 1 := by
  obtain ⟨hfinite, hle⟩ := le_of_nonneg hjitter.1 (by decide) hjitter.2 (by decide)
  refine ⟨hfinite, ?_⟩
  have hmax : (ofFloat maxJitter).toRat = 5404319552844595 * 2 ^ (-54 : Int) := toRat_eq (by decide)
  rw [abs_of_nonneg ((nonneg_iff_of_isFinite hfinite).1 hjitter.1)]
  calc (ofFloat jitter).toRat ≤ 5404319552844595 * 2 ^ (-54 : Int) := hmax ▸ hle
    _ ≤ 1 := by norm_num

/-- A random addition does not make a finite delay infinite. -/
theorem isUsable_add_iff : IsUsable (seconds + jitter) ↔
    seconds.isFinite = true ∧ 0 ≤ (ofFloat seconds).toRat + (ofFloat jitter).toRat := by
  obtain ⟨hfinite, hsmall⟩ := hjitter.isFinite
  constructor
  · rintro ⟨hsum, hnonneg⟩
    have hseconds := isFinite_of_add hsum
    rw [← isFinite_ofFloat] at hseconds
    exact ⟨isFinite_of_add hsum, (nonneg_add_iff hseconds hfinite).1 hnonneg⟩
  · rintro ⟨hseconds, hnonneg⟩
    rw [← isFinite_ofFloat] at hseconds
    refine ⟨(isFinite_add_iff hseconds hfinite).2 ?_, (nonneg_add_iff hseconds hfinite).2 hnonneg⟩
    calc |(ofFloat seconds).toRat + (ofFloat jitter).toRat|
        ≤ |(ofFloat seconds).toRat| + |(ofFloat jitter).toRat| := abs_add_le _ _
      _ ≤ (2 ^ 54 - 2) * 2 ^ (970 : Int) + 1 := add_le_add (abs_toRat_le hseconds) hsmall
      _ < (2 ^ 54 - 2) * 2 ^ (970 : Int) + 2 ^ (970 : Int) := by
        gcongr
        exact one_lt_zpow₀ one_lt_two (by decide)
      _ = (2 ^ 54 - 1) * 2 ^ (970 : Int) := by ring

theorem isUsable_add_of_nonneg (hfinite : seconds.isFinite = true) (hnonneg : 0 ≤ seconds) :
    IsUsable (seconds + jitter) := by
  have hseconds : (ofFloat seconds).isFinite = true := (isFinite_ofFloat seconds).trans hfinite
  refine (isUsable_add_iff hjitter).2 ⟨hfinite, ?_⟩
  exact add_nonneg ((nonneg_iff_of_isFinite hseconds).1 hnonneg)
    ((nonneg_iff_of_isFinite hjitter.isFinite.1).1 hjitter.1)

/-- The delay that nobody asked for. -/
theorem isUsable_backoff {attempt : Nat} {delay : Float} (h : backoff attempt jitter = .ok delay) :
    IsUsable delay := by
  rw [backoff_eq] at h
  dsimp only at h
  cases hfactor : Binary64.ofInt? (2 ^ (attempt - 1) : Nat) with
  | none =>
    rw [hfactor] at h
    exact nomatch h
  | some factor =>
    rw [hfactor] at h
    obtain rfl := Except.ok.inj h
    obtain ⟨hfinite, magnitude, hmagnitude, rfl⟩ :=
      exists_ofMagnitude_of_ofInt? (Int.natCast_nonneg _) hfactor
    have hfactor := ofFloat_toFloat (isNaN_of_isFinite hfinite)
    have hbase : (ofFloat baseDelay).toRat ≤ 1 := by
      have hvalue : (ofFloat baseDelay).toRat = 7205759403792794 * 2 ^ (-55 : Int) := toRat_eq (by decide)
      rw [hvalue]
      norm_num
    obtain ⟨hproduct, hnonneg⟩ := isFinite_mul (by decide) (nonneg_toFloat hmagnitude) (by decide) hbase
      (by decide) (hfactor.symm ▸ hfinite)
    exact isUsable_add_of_nonneg hjitter ((isFinite_ofFloat _).symm.trans hproduct) hnonneg

end Usable

end Retry

namespace Service

open Binary64

variable {service : Service} {script : Nat → Response} {jitter : Nat → Float}

/-- A busy server asks for a delay that is of no use: a header names one that is infinite, or so far below
zero that the random addition does not make up for it; or, without such a header, the words name one that is
infinite. -/
def Spoils (jitter : Float) : Response → Prop
  | .unreachable _ => False
  | .arrived status headers body => status = 429 ∧
    ((∃ x, Retry.headerDelay? headers = some x ∧
        ¬ (x.isFinite = true ∧ 0 ≤ x.toRat + (ofFloat jitter).toRat)) ∨
      (Retry.headerDelay? headers = none ∧
        ∃ seconds, Retry.delayAsked headers body = .ok (some seconds) ∧ seconds.isFinite = false))

/-- What follows on a response can be waited, unless the server asks for something else. -/
theorem isUsable_delay_iff {jitter : Float} (hjitter : Retry.IsJitter jitter) {attempt : Nat}
    {response : Response} {seconds : Float} (h : delay attempt jitter response = .ok seconds) :
    Retry.IsUsable seconds ↔ ¬ Spoils jitter response := by
  cases response with
  | unreachable reason =>
    rw [@LeavesOpen.delay_eq attempt jitter (.unreachable reason) trivial] at h
    exact iff_of_true (Retry.isUsable_backoff hjitter h) id
  | arrived status headers body =>
    by_cases hbusy : status = 429
    · simp only [delay, if_pos hbusy] at h
      obtain ⟨asked, hasked, hdelay⟩ := exists_of_bind_ok h
      unfold Spoils
      rw [not_and, forall_prop_of_true hbusy]
      cases hheader : Retry.headerDelay? headers with
      | some x =>
        obtain rfl := Except.ok.inj ((Retry.delayAsked_of_header hheader).symm.trans hasked)
        obtain rfl := Except.ok.inj hdelay
        rw [Retry.isUsable_add_iff hjitter, isFinite_toFloat]
        simp only [Option.some.injEq, exists_eq_left', reduceCtorEq, false_and, or_false, not_not]
        refine and_congr_right fun hfinite => ?_
        rw [ofFloat_toFloat (isNaN_of_isFinite hfinite)]
      | none =>
        cases asked with
        | none =>
          rw [askedOr] at hdelay
          refine iff_of_true (Retry.isUsable_backoff hjitter hdelay) ?_
          simp [hasked]
        | some found =>
          obtain rfl := Except.ok.inj hdelay
          have hnonneg := Retry.nonneg_of_words hheader hasked
          simp only [hasked, reduceCtorEq, false_and, exists_false, false_or, true_and, Except.ok.injEq,
            Option.some.injEq, exists_eq_left', Bool.not_eq_false]
          constructor
          · exact fun husable => isFinite_of_add husable.1
          · exact fun hfinite => Retry.isUsable_add_of_nonneg hjitter hfinite hnonneg
    · have hopen : LeavesOpen (.arrived status headers body) := fun h => absurd h hbusy
      rw [hopen.delay_eq] at h
      exact iff_of_true (Retry.isUsable_backoff hjitter h) fun hspoils => hbusy hspoils.1

theorem Waits.isUsable_iff (hjitter : ∀ n, Retry.IsJitter (jitter n)) {first : Nat} {delays : List Float}
    (h : Waits script jitter first delays) : (∀ seconds ∈ delays, Retry.IsUsable seconds) ↔
      ∀ n < delays.length, ¬ Spoils (jitter (first + n)) (script (first + n)) := by
  induction h with
  | nil => exact iff_of_true (List.forall_mem_nil _) nofun
  | @cons first seconds delays hopen hdelay hrest ih =>
    rw [List.forall_mem_cons, isUsable_delay_iff (hjitter first) hdelay, ih, List.length_cons,
      Nat.forall_lt_succ_left]
    refine and_congr_right fun _ => forall₂_congr fun n _ => ?_
    rw [Nat.add_right_comm, Nat.add_assoc]

/-- A client that may not ask, or may not ask even once, does not wait. -/
theorem sleeps_complete_eq_nil (script : Nat → Response) (jitter : Nat → Float) (question : Question)
    (h : ¬ (service.hasKey = true ∧ 0 < service.maxAttempts)) :
    (service.complete script jitter question).sleeps = [] := by
  rw [complete]
  split
  · next hkey =>
    rw [Nat.eq_zero_of_not_pos fun hpos => h ⟨hkey, hpos⟩]
    rfl
  · rfl

/-- The server is busy once and names a delay in a header. -/
def busyOnce (delay : String) : Nat → Response
  | 0 => .arrived 429 [("retry-after", delay)] ""
  | _ => .arrived 200 [] "\x7b\"message\": \x7b\"content\": \"ok\"\x7d\x7d"

end Service

end CodeReview
