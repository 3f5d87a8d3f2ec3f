import CallGraph.Proofs.Lexing.Scanners
import Mathlib.Computability.Language

/-!
The classes of lexemes as regular languages. The scanner of a class takes a word of its language, and
none of the words with which a text begins is longer than what it takes.
-/

namespace CallGraph

open Text Computability

namespace Lexeme

/-! ## Languages -/

/-- The words of one character with a property. -/
def oneOf (p : Char → Bool) : Language Char := {s | ∃ c, p c = true ∧ s = [c]}

/-- A character and nothing else. -/
def only (c : Char) : Language Char := oneOf (· == c)

def anyChar : Language Char := oneOf fun _ => true

/-- One or more characters with a property. -/
def rowOf (p : Char → Bool) : Language Char := oneOf p * (oneOf p)∗

/-- A word of the language, or nothing. -/
def maybe (L : Language Char) : Language Char := 1 + L

/-- Blanks in a row, or a comment up to the end of its line. -/
def blankText : Language Char := rowOf isBlank + only '%' * (oneOf (· != '\n'))∗

/-- What may stand between two marks: each backslash has a character after it. -/
def inside (mark : Char) : Language Char :=
  (oneOf (fun c => c != mark && c != '\\') + only '\\' * anyChar)∗

def quotedText (mark : Char) : Language Char := only mark * inside mark * only mark

/-- One to three octal digits. -/
def octalText : Language Char := oneOf isOctal * maybe (oneOf isOctal) * maybe (oneOf isOctal)

def escapeText : Language Char :=
  octalText + only 'x' * only '{' * rowOf isHex * only '}' + only '^' * anyChar + anyChar

def charText : Language Char := only '$' * (only '\\' * escapeText + oneOf (· != '\\'))

/-- A word of the language with or without a sign in front. -/
def signedText (L : Language Char) : Language Char := maybe (oneOf fun c => c == '+' || c == '-') * L

def integerText : Language Char := signedText (rowOf isDigit)

def exponentText : Language Char := oneOf (fun c => c == 'e' || c == 'E') * integerText

def decimalText : Language Char :=
  rowOf isDigit * only '.' * (rowOf isDigit * maybe exponentText)

def wordText (isFirst : Char → Bool) : Language Char := oneOf isFirst * (oneOf Scanner.isWordChar)∗

/-- The punctuation marks. -/
def markText : Language Char := {s | ∃ m ∈ Word.marks, s = m.toList}

/-- The language of each class of lexemes. Blanks and comments have no kind. -/
def language : Option Kind → Language Char
  | none => blankText
  | some .atom => quotedText '\''
  | some .string => quotedText '"'
  | some .char => charText
  | some .float => signedText decimalText
  | some .integer => integerText
  | some .var => wordText fun c => c.isUpper || c == '_'
  | some .name => wordText Char.isLower
  | some .punct => markText

variable {p : Char → Bool} {L : Language Char} {c : Char} {s t : List Char}

theorem mem_oneOf : s ∈ oneOf p ↔ ∃ c, p c = true ∧ s = [c] := Iff.rfl

@[simp] theorem mem_only : s ∈ only c ↔ s = [c] := by
  rw [only, mem_oneOf]
  simp

@[simp] theorem mem_anyChar : s ∈ anyChar ↔ ∃ c, s = [c] := by
  rw [anyChar, mem_oneOf]
  simp

theorem mem_maybe : s ∈ maybe L ↔ s = [] ∨ s ∈ L := by
  rw [maybe, Language.mem_add, Language.mem_one]

theorem append_mem_kstar (hs : s ∈ L) (ht : t ∈ L∗) : s ++ t ∈ L∗ := by
  obtain ⟨words, rfl, hwords⟩ := ht
  exact ⟨s :: words, rfl, List.forall_mem_cons.2 ⟨hs, hwords⟩⟩

theorem mem_kstar_oneOf : s ∈ (oneOf p)∗ ↔ ∀ c ∈ s, p c = true := by
  constructor
  · rintro ⟨words, rfl, hwords⟩ c hc
    obtain ⟨w, hw, hcw⟩ := List.mem_flatten.1 hc
    obtain ⟨d, hd, rfl⟩ := hwords w hw
    rwa [List.mem_singleton.1 hcw]
  · intro h
    induction s with
    | nil => exact Language.nil_mem_kstar _
    | cons c s ih =>
      obtain ⟨hc, hs⟩ := List.forall_mem_cons.1 h
      exact append_mem_kstar (s := [c]) ⟨c, hc, rfl⟩ (ih hs)

/-- A character with one property, and any number of characters with another one after it. -/
theorem mem_oneOf_mul_kstar {q : Char → Bool} :
    s ∈ oneOf p * (oneOf q)∗ ↔ ∃ c cs, s = c :: cs ∧ p c = true ∧ ∀ d ∈ cs, q d = true := by
  rw [Language.mem_mul]
  constructor
  · rintro ⟨_, ⟨c, hc, rfl⟩, cs, hcs, rfl⟩
    exact ⟨c, cs, rfl, hc, mem_kstar_oneOf.1 hcs⟩
  · rintro ⟨c, cs, rfl, hc, hcs⟩
    exact ⟨[c], ⟨c, hc, rfl⟩, cs, mem_kstar_oneOf.2 hcs, rfl⟩

theorem mem_rowOf : s ∈ rowOf p ↔ s ≠ [] ∧ ∀ c ∈ s, p c = true := by
  rw [rowOf, mem_oneOf_mul_kstar]
  cases s with
  | nil => simp
  | cons c s => simp

theorem mem_signedText :
    s ∈ signedText L ↔ s ∈ L ∨ ∃ c l, (c = '+' ∨ c = '-') ∧ l ∈ L ∧ s = c :: l := by
  rw [signedText, Language.mem_mul]
  constructor
  · rintro ⟨a, ha, l, hl, rfl⟩
    rcases mem_maybe.1 ha with rfl | ⟨c, hc, rfl⟩
    · exact .inl hl
    · exact .inr ⟨c, l, by simpa using hc, hl, rfl⟩
  · rintro (hs | ⟨c, l, hc, hl, rfl⟩)
    · exact ⟨[], mem_maybe.2 (.inl rfl), s, hs, rfl⟩
    · exact ⟨[c], mem_maybe.2 (.inr ⟨c, by simpa using hc, rfl⟩), l, hl, rfl⟩

theorem mem_exponentText :
    s ∈ exponentText ↔ ∃ c l, (c = 'e' ∨ c = 'E') ∧ l ∈ integerText ∧ s = c :: l := by
  rw [exponentText, Language.mem_mul]
  constructor
  · rintro ⟨_, ⟨c, hc, rfl⟩, l, hl, rfl⟩
    exact ⟨c, l, by simpa using hc, hl, rfl⟩
  · rintro ⟨c, l, hc, hl, rfl⟩
    exact ⟨[c], ⟨c, by simpa using hc, rfl⟩, l, hl, rfl⟩

theorem mem_decimalText :
    s ∈ decimalText ↔ ∃ ds fs es, ds ∈ rowOf isDigit ∧ fs ∈ rowOf isDigit ∧
      (es = [] ∨ es ∈ exponentText) ∧ s = ds ++ '.' :: (fs ++ es) := by
  rw [decimalText, Language.mem_mul]
  constructor
  · rintro ⟨_, ⟨ds, hds, point, hpoint, rfl⟩, _, ⟨fs, hfs, es, hes, rfl⟩, rfl⟩
    obtain rfl := mem_only.1 hpoint
    exact ⟨ds, fs, es, hds, hfs, mem_maybe.1 hes, by simp⟩
  · rintro ⟨ds, fs, es, hds, hfs, hes, rfl⟩
    exact ⟨ds ++ ['.'], Language.append_mem_mul hds (mem_only.2 rfl), fs ++ es,
      Language.append_mem_mul hfs (mem_maybe.2 hes), by simp⟩

theorem mem_octalText :
    s ∈ octalText ↔ s ≠ [] ∧ s.length ≤ 3 ∧ ∀ c ∈ s, isOctal c = true := by
  rw [octalText, Language.mem_mul]
  constructor
  · rintro ⟨_, ⟨_, ⟨a, ha, rfl⟩, b, hb, rfl⟩, c, hc, rfl⟩
    rcases mem_maybe.1 hb with rfl | ⟨b, hb, rfl⟩ <;> rcases mem_maybe.1 hc with rfl | ⟨c, hc, rfl⟩ <;>
      simp [*]
  · rintro ⟨hne, hlength, hall⟩
    rcases s with _ | ⟨a, _ | ⟨b, _ | ⟨c, _ | ⟨d, s⟩⟩⟩⟩
    · exact absurd rfl hne
    · exact ⟨[a], ⟨[a], ⟨a, hall a (by simp), rfl⟩, [], .inl rfl, rfl⟩, [], .inl rfl, rfl⟩
    · exact ⟨[a, b], ⟨[a], ⟨a, hall a (by simp), rfl⟩, [b], .inr ⟨b, hall b (by simp), rfl⟩, rfl⟩, [],
        .inl rfl, rfl⟩
    · exact ⟨[a, b], ⟨[a], ⟨a, hall a (by simp), rfl⟩, [b], .inr ⟨b, hall b (by simp), rfl⟩, rfl⟩, [c],
        .inr ⟨c, hall c (by simp), rfl⟩, rfl⟩
    · simp only [List.length_cons] at hlength
      omega

theorem mem_escapeText :
    s ∈ escapeText ↔ s ∈ octalText ∨
      (∃ ds, ds ≠ [] ∧ (∀ d ∈ ds, isHex d = true) ∧ s = 'x' :: '{' :: ds ++ ['}']) ∨
      (∃ c, s = ['^', c]) ∨ ∃ c, s = [c] := by
  have hbraced : s ∈ only 'x' * only '{' * rowOf isHex * only '}' ↔
      ∃ ds, ds ≠ [] ∧ (∀ d ∈ ds, isHex d = true) ∧ s = 'x' :: '{' :: ds ++ ['}'] := by
    simp only [Language.mem_mul, mem_only, mem_rowOf]
    constructor
    · rintro ⟨_, ⟨_, ⟨_, rfl, _, rfl, rfl⟩, ds, ⟨hne, hds⟩, rfl⟩, _, rfl, rfl⟩
      exact ⟨ds, hne, hds, by simp⟩
    · rintro ⟨ds, hne, hds, rfl⟩
      exact ⟨_, ⟨_, ⟨_, rfl, _, rfl, rfl⟩, ds, ⟨hne, hds⟩, rfl⟩, _, rfl, by simp⟩
  have hcontrol : s ∈ only '^' * anyChar ↔ ∃ c, s = ['^', c] := by
    simp only [Language.mem_mul, mem_only, mem_anyChar]
    constructor
    · rintro ⟨_, rfl, _, ⟨c, rfl⟩, rfl⟩
      exact ⟨c, rfl⟩
    · rintro ⟨c, rfl⟩
      exact ⟨_, rfl, _, ⟨c, rfl⟩, rfl⟩
  rw [escapeText, Language.mem_add, Language.mem_add, Language.mem_add, hbraced, hcontrol,
    mem_anyChar, or_assoc, or_assoc]

theorem mem_charText :
    s ∈ charText ↔ (∃ es ∈ escapeText, s = '$' :: '\\' :: es) ∨ ∃ c, c ≠ '\\' ∧ s = ['$', c] := by
  simp only [charText, Language.mem_mul, Language.mem_add, mem_only, mem_oneOf, bne_iff_ne]
  constructor
  · rintro ⟨_, rfl, _, ⟨_, rfl, es, hes, rfl⟩ | ⟨c, hc, rfl⟩, rfl⟩
    · exact .inl ⟨es, hes, rfl⟩
    · exact .inr ⟨c, hc, rfl⟩
  · rintro (⟨es, hes, rfl⟩ | ⟨c, hc, rfl⟩)
    · exact ⟨_, rfl, _, .inl ⟨_, rfl, es, hes, rfl⟩, rfl⟩
    · exact ⟨_, rfl, _, .inr ⟨c, hc, rfl⟩, rfl⟩

theorem mem_quotedText {mark : Char} :
    s ∈ quotedText mark ↔ ∃ l ∈ inside mark, s = mark :: l ++ [mark] := by
  simp only [quotedText, Language.mem_mul, mem_only]
  constructor
  · rintro ⟨_, ⟨_, rfl, l, hl, rfl⟩, _, rfl, rfl⟩
    exact ⟨l, hl, rfl⟩
  · rintro ⟨l, hl, rfl⟩
    exact ⟨_, ⟨_, rfl, l, hl, rfl⟩, _, rfl, rfl⟩

theorem mem_blankText :
    s ∈ blankText ↔ s ∈ rowOf isBlank ∨ ∃ l, (∀ c ∈ l, (c != '\n') = true) ∧ s = '%' :: l := by
  rw [blankText, Language.mem_add, Language.mem_mul]
  refine or_congr_right ⟨?_, ?_⟩
  · rintro ⟨_, hmark, l, hl, rfl⟩
    obtain rfl := mem_only.1 hmark
    exact ⟨l, mem_kstar_oneOf.1 hl, rfl⟩
  · rintro ⟨l, hl, rfl⟩
    exact ⟨_, mem_only.2 rfl, l, mem_kstar_oneOf.2 hl, rfl⟩

end Lexeme

/-! ## Scanners -/

namespace Scanner

open Lexeme

variable {cs l rest s : List Char}

/-- The scanner takes words of the language. In a text that begins with a word of the language it
takes no shorter one. -/
structure Munches (scan : Scanner) (L : Language Char) : Prop where
  mem : ∀ ⦃cs l rest⦄, scan cs = some (l, rest) → l ∈ L
  reaches : ∀ ⦃s⦄, s ∈ L → ∀ t, ∃ l rest, scan (s ++ t) = some (l, rest) ∧ s.length ≤ l.length

theorem length_le_takeWhile {p : Char → Bool} (h : ∀ c ∈ s, p c = true) (t : List Char) :
    s.length ≤ ((s ++ t).takeWhile p).length := by
  rw [List.takeWhile_append_of_pos h, List.length_append]
  exact Nat.le_add_right _ _

theorem munches_blank : Munches blank blankText where
  mem := by
    intro cs l rest h
    rw [mem_blankText]
    unfold blank at h
    split at h
    next cs =>
      obtain ⟨rfl, -⟩ := Prod.mk.inj (Option.some.inj h)
      exact .inr ⟨_, fun c hc => of_mem_takeWhile (p := (· != '\n')) hc, rfl⟩
    next c cs _ =>
      split at h
      next hc =>
        obtain ⟨rfl, -⟩ := Prod.mk.inj (Option.some.inj h)
        refine .inl (mem_rowOf.2 ⟨List.cons_ne_nil _ _, List.forall_mem_cons.2 ⟨hc, ?_⟩⟩)
        exact fun d hd => of_mem_takeWhile hd
      next => cases h
    next => cases h
  reaches := by
    intro s hs t
    rcases mem_blankText.1 hs with hrow | ⟨l, hl, rfl⟩
    · obtain ⟨hne, hall⟩ := mem_rowOf.1 hrow
      cases s with
      | nil => exact absurd rfl hne
      | cons c s =>
        obtain ⟨hc, hs⟩ := List.forall_mem_cons.1 hall
        have hcomment : c ≠ '%' := by
          rintro rfl
          cases hc
        refine ⟨_, _, (blank_cons hcomment _).trans (if_pos hc), ?_⟩
        exact Nat.succ_le_succ (length_le_takeWhile hs t)
    · exact ⟨_, _, blank_comment _, Nat.succ_le_succ (length_le_takeWhile hl t)⟩

theorem munches_word (isFirst : Char → Bool) : Munches (word isFirst) (wordText isFirst) where
  mem := by
    intro cs l rest h
    unfold word at h
    split at h
    next c cs =>
      split at h
      next hc =>
        obtain ⟨rfl, -⟩ := Prod.mk.inj (Option.some.inj h)
        exact mem_oneOf_mul_kstar.2 ⟨c, _, rfl, hc, fun d hd => of_mem_takeWhile hd⟩
      next => cases h
    next => cases h
  reaches := by
    intro s hs t
    obtain ⟨c, s, rfl, hc, hs⟩ := mem_oneOf_mul_kstar.1 hs
    refine ⟨_, _, if_pos hc, ?_⟩
    exact Nat.succ_le_succ (length_le_takeWhile hs t)

/-! ## Quoted texts -/

theorem mem_inside_of_untilMark {mark : Char} (h : untilMark mark cs = some (l, rest)) :
    l ∈ inside mark := by
  fun_induction untilMark mark cs generalizing l rest with
  | case1 => cases h
  | case2 c cs ih =>
    obtain ⟨r, hr, heq⟩ := Option.map_eq_some_iff.1 h
    obtain ⟨rfl, -⟩ := Prod.mk.inj heq
    refine append_mem_kstar (s := ['\\', c]) (.inr ?_) (ih hr)
    exact Language.append_mem_mul (mem_only.2 rfl) (mem_anyChar.2 ⟨c, rfl⟩)
  | case3 =>
    obtain ⟨rfl, -⟩ := Prod.mk.inj (Option.some.inj h)
    exact Language.nil_mem_kstar _
  | case4 => cases h
  | case5 c cs _ hmark hback ih =>
    obtain ⟨r, hr, heq⟩ := Option.map_eq_some_iff.1 h
    obtain ⟨rfl, -⟩ := Prod.mk.inj heq
    exact append_mem_kstar (s := [c]) (.inl ⟨c, by simp [bne, hmark, hback], rfl⟩) (ih hr)

/-- What may stand inside ends at the first mark after it. -/
theorem untilMark_of_mem_inside {mark : Char} (hmark : mark ≠ '\\') (h : l ∈ inside mark)
    (rest : List Char) : untilMark mark (l ++ mark :: rest) = some (l, rest) := by
  obtain ⟨words, rfl, hwords⟩ := h
  induction words with
  | nil => rw [List.flatten_nil, List.nil_append, untilMark_cons hmark, if_pos BEq.rfl]
  | cons w words ih =>
    obtain ⟨hw, htail⟩ := List.forall_mem_cons.1 hwords
    rw [List.flatten_cons, List.append_assoc]
    rcases hw with ⟨c, hc, rfl⟩ | ⟨_, hback, _, ⟨c, -, rfl⟩, rfl⟩
    · simp only [Bool.and_eq_true, bne_iff_ne] at hc
      rw [List.cons_append, List.nil_append, untilMark_cons hc.2, if_neg (by simpa using hc.1),
        ih htail]
      rfl
    · obtain rfl := mem_only.1 hback
      simp only [List.cons_append, List.nil_append]
      rw [untilMark, ih htail]
      rfl

theorem munches_between {mark : Char} (hmark : mark ≠ '\\') :
    Munches (between mark) (quotedText mark) where
  mem := by
    intro cs l rest h
    unfold between at h
    split at h
    next c cs =>
      split at h
      next =>
        obtain ⟨r, hr, heq⟩ := Option.map_eq_some_iff.1 h
        obtain ⟨rfl, -⟩ := Prod.mk.inj heq
        exact mem_quotedText.2 ⟨_, mem_inside_of_untilMark hr, rfl⟩
      next => cases h
    next => cases h
  reaches := by
    intro s hs t
    obtain ⟨l, hl, rfl⟩ := mem_quotedText.1 hs
    refine ⟨mark :: l ++ [mark], t, ?_, le_rfl⟩
    rw [List.append_assoc, List.cons_append, between, if_pos BEq.rfl, List.singleton_append,
      untilMark_of_mem_inside hmark hl]
    rfl

/-! ## Characters -/

theorem Escaping.mem_escapeText (h : Escaping l rest) : l ∈ escapeText := by
  rw [Lexeme.mem_escapeText]
  cases h with
  | octal hoctal hne =>
    refine .inl (mem_octalText.2 ⟨hne, ?_, fun c hc => ?_⟩)
    · rw [← hoctal]
      exact ( List.takeWhile_prefix isOctal).length_le.trans (List.length_take_le 3 _)
    · rw [← hoctal] at hc
      exact of_mem_takeWhile hc
  | braced hds hne => exact .inr (.inl ⟨_, hne, hds, rfl⟩)
  | control c => exact .inr (.inr (.inl ⟨c, rfl⟩))
  | @single c => exact .inr (.inr (.inr ⟨c, rfl⟩))

theorem munches_charEscape : Munches charEscape escapeText where
  mem := fun _ _ _ h => (charEscape_eq_some.1 h).2.mem_escapeText
  reaches := by
    intro s hs t
    rcases Lexeme.mem_escapeText.1 hs with hoctal | ⟨ds, hne, hds, rfl⟩ | ⟨c, rfl⟩ | ⟨c, rfl⟩
    · obtain ⟨hne, hlength, hall⟩ := mem_octalText.1 hoctal
      have hle : s.length ≤ (Escape.octalRun (s ++ t)).length := by
        rw [Escape.octalRun, List.take_append, List.take_of_length_le hlength]
        exact length_le_takeWhile hall _
      cases hrun : Escape.octalRun (s ++ t) with
      | nil =>
        rw [hrun] at hle
        exact absurd (List.eq_nil_of_length_eq_zero (Nat.le_zero.1 hle)) hne
      | cons d ds => exact ⟨_, _, charEscape_of_octal hrun, hrun ▸ hle⟩
    · exact ⟨_, t, charEscape_eq_some.2 ⟨rfl, .braced hds hne⟩, le_rfl⟩
    · exact ⟨_, t, charEscape_eq_some.2 ⟨rfl, .control c⟩, le_rfl⟩
    · obtain ⟨⟨l, rest⟩, hl⟩ := Option.ne_none_iff_exists'.1 (charEscape_ne_none c t)
      exact ⟨l, rest, hl, List.length_pos_iff.2 (splits_charEscape _ _ _ hl).2⟩

theorem munches_char : Munches char charText where
  mem := by
    intro cs l rest h
    rw [mem_charText]
    rcases char_eq_some.1 h with ⟨es, hes, -, rfl⟩ | ⟨c, hc, -, rfl⟩
    · exact .inl ⟨es, munches_charEscape.mem hes, rfl⟩
    · exact .inr ⟨c, hc, rfl⟩
  reaches := by
    intro s hs t
    rcases mem_charText.1 hs with ⟨es, hes, rfl⟩ | ⟨c, hc, rfl⟩
    · obtain ⟨l, rest, hl, hle⟩ := munches_charEscape.reaches hes t
      refine ⟨'$' :: '\\' :: l, rest, ?_, Nat.succ_le_succ (Nat.succ_le_succ hle)⟩
      rw [List.cons_append, List.cons_append, char, hl]
      rfl
    · exact ⟨['$', c], t, char_eq_some.2 (.inr ⟨c, hc, rfl, rfl⟩), le_rfl⟩

/-! ## Numbers -/

theorem munches_digits : Munches digits (rowOf isDigit) where
  mem := by
    intro cs l rest h
    obtain ⟨rfl, -, hne⟩ := digits_eq_some.1 h
    exact mem_rowOf.2 ⟨hne, fun c hc => of_mem_takeWhile hc⟩
  reaches := by
    intro s hs t
    obtain ⟨hne, hall⟩ := mem_rowOf.1 hs
    have hle := length_le_takeWhile hall t
    refine ⟨_, _, digits_eq_some.2 ⟨rfl, rfl, ?_⟩, hle⟩
    rw [← List.length_pos_iff] at hne ⊢
    exact hne.trans_le hle

/-- A row of digits before another character is taken as it is. -/
theorem digits_of_row {c : Char} (hs : s ∈ rowOf isDigit) (hc : isDigit c = false) (t : List Char) :
    digits (s ++ c :: t) = some (s, c :: t) := by
  obtain ⟨hne, hall⟩ := mem_rowOf.1 hs
  refine digits_eq_some.2 ⟨?_, ?_, hne⟩
  · rw [List.takeWhile_append_of_pos hall, List.takeWhile_cons_of_neg (by simp [hc]), List.append_nil]
  · rw [List.dropWhile_append_of_pos hall, List.dropWhile_cons_of_neg (by simp [hc])]

theorem munches_signed {scan : Scanner} {L : Language Char} (hscan : Munches scan L)
    (hL : ∀ s ∈ L, ∃ c l, s = c :: l ∧ isDigit c = true) :
    Munches (signed scan) (signedText L) where
  mem := by
    intro cs l rest h
    rw [mem_signedText]
    cases cs with
    | nil => exact .inl (hscan.mem h)
    | cons c cs =>
      rw [signed_eq] at h
      split at h
      next hc =>
        obtain ⟨r, hr, heq⟩ := Option.map_eq_some_iff.1 h
        obtain ⟨rfl, -⟩ := Prod.mk.inj heq
        exact .inr ⟨c, r.1, hc, hscan.mem hr, rfl⟩
      next => exact .inl (hscan.mem h)
  reaches := by
    intro s hs t
    rcases mem_signedText.1 hs with hs | ⟨c, l, hc, hl, rfl⟩
    · obtain ⟨c, l, rfl, hdigit⟩ := hL s hs
      have hsign : ¬ (c = '+' ∨ c = '-') := by
        rintro (rfl | rfl) <;> cases hdigit
      rw [List.cons_append, signed_eq, if_neg hsign]
      exact hscan.reaches hs t
    · obtain ⟨l', rest, hl', hle⟩ := hscan.reaches hl t
      refine ⟨c :: l', rest, ?_, Nat.succ_le_succ hle⟩
      rw [List.cons_append, signed_eq, if_pos hc, hl']
      rfl

theorem exists_digit_of_row (hs : s ∈ rowOf isDigit) : ∃ c l, s = c :: l ∧ isDigit c = true := by
  obtain ⟨c, l, rfl, hc, -⟩ := mem_oneOf_mul_kstar.1 hs
  exact ⟨c, l, rfl, hc⟩

theorem munches_integer : Munches integer integerText :=
  munches_signed munches_digits fun _ hs => exists_digit_of_row hs

theorem munches_exponent : Munches exponent exponentText where
  mem := by
    intro cs l rest h
    cases cs with
    | nil => cases h
    | cons c cs =>
      rw [exponent_eq] at h
      split at h
      next hc =>
        obtain ⟨r, hr, heq⟩ := Option.map_eq_some_iff.1 h
        obtain ⟨rfl, -⟩ := Prod.mk.inj heq
        exact mem_exponentText.2 ⟨c, r.1, hc, munches_integer.mem hr, rfl⟩
      next => cases h
  reaches := by
    intro s hs t
    obtain ⟨c, l, hc, hl, rfl⟩ := mem_exponentText.1 hs
    obtain ⟨l', rest, hl', hle⟩ := munches_integer.reaches hl t
    refine ⟨c :: l', rest, ?_, Nat.succ_le_succ hle⟩
    rw [List.cons_append, exponent_eq, if_pos hc, hl']
    rfl

theorem munches_fraction : Munches fraction (rowOf isDigit * maybe exponentText) where
  mem := by
    intro cs l rest h
    rw [fraction] at h
    split at h
    next => cases h
    next ds rest' hds =>
      split at h
      next es rest'' hes =>
        obtain ⟨rfl, -⟩ := Prod.mk.inj (Option.some.inj h)
        exact Language.append_mem_mul (munches_digits.mem hds)
          (mem_maybe.2 (.inr (munches_exponent.mem hes)))
      next =>
        obtain ⟨rfl, -⟩ := Prod.mk.inj (Option.some.inj h)
        rw [← List.append_nil ds]
        exact Language.append_mem_mul (munches_digits.mem hds) (mem_maybe.2 (.inl rfl))
  reaches := by
    intro s hs t
    obtain ⟨fs, hfs, es, hes, rfl⟩ := Language.mem_mul.1 hs
    rcases mem_maybe.1 hes with rfl | hes
    · rw [List.append_nil]
      obtain ⟨ds, rest, hds, hle⟩ := munches_digits.reaches hfs t
      cases hexp : exponent rest with
      | none => exact ⟨ds, rest, by simp only [fraction, hds, hexp], hle⟩
      | some r =>
        refine ⟨ds ++ r.1, r.2, by simp only [fraction, hds, hexp], ?_⟩
        rw [List.length_append]
        omega
    · obtain ⟨l, rest, hl, hle⟩ := munches_exponent.reaches hes t
      obtain ⟨c, l', hc, -, rfl⟩ := mem_exponentText.1 hes
      have hletter : isDigit c = false := by rcases hc with rfl | rfl <;> rfl
      -- The letter of the exponent ends the digits before it.
      have hds := digits_of_row hfs hletter (l' ++ t)
      rw [List.cons_append] at hl
      refine ⟨fs ++ l, rest, ?_, ?_⟩
      · simp only [List.append_assoc, List.cons_append, fraction, hds, hl]
      · simpa using hle

theorem munches_decimal : Munches decimal decimalText where
  mem := by
    intro cs l rest h
    obtain ⟨ds, fs, mid, hds, hfs, rfl⟩ := decimal_eq_some.1 h
    obtain ⟨fs', hfs', es, hes, rfl⟩ := munches_fraction.mem hfs
    exact mem_decimalText.2 ⟨ds, fs', es, munches_digits.mem hds, hfs', mem_maybe.1 hes, rfl⟩
  reaches := by
    intro s hs t
    obtain ⟨ds, fs, es, hds, hfs, hes, rfl⟩ := mem_decimalText.1 hs
    have hfraction : fs ++ es ∈ rowOf isDigit * maybe exponentText :=
      Language.append_mem_mul hfs (mem_maybe.2 hes)
    obtain ⟨l, rest, hl, hle⟩ := munches_fraction.reaches hfraction t
    have hdigits := digits_of_row hds (c := '.') rfl (fs ++ es ++ t)
    refine ⟨ds ++ '.' :: l, rest, decimal_eq_some.2 ⟨ds, l, _, ?_, hl, rfl⟩, ?_⟩
    · rwa [List.append_assoc, List.cons_append]
    · simpa using hle

theorem munches_float : Munches float (signedText decimalText) := by
  refine munches_signed munches_decimal fun s hs => ?_
  obtain ⟨ds, fs, es, hds, -, -, rfl⟩ := mem_decimalText.1 hs
  obtain ⟨c, l, rfl, hc⟩ := exists_digit_of_row hds
  exact ⟨c, _, rfl, hc⟩

/-! ## Marks -/

/-- The marks of the scanner are the marks of the grammar. -/
theorem mem_markText : s ∈ markText ↔
    (∃ a b, (a, b) ∈ twoCharMarks ∧ s = [a, b]) ∨ ∃ a ∈ oneCharMarks, s = [a] := by
  constructor
  · rintro ⟨m, hm, rfl⟩
    revert m
    simp only [Word.marks, List.forall_mem_cons]
    simp [twoCharMarks, oneCharMarks]
  · have htwo : ∀ ab ∈ twoCharMarks, ∃ m ∈ Word.marks, [ab.1, ab.2] = m.toList := by decide
    have hone : oneCharMarks.all (fun a => Word.marks.any fun m => [a] = m.toList) := by decide
    rintro (⟨a, b, hab, rfl⟩ | ⟨a, ha, rfl⟩)
    · exact htwo (a, b) hab
    · obtain ⟨m, hm, ham⟩ := List.any_eq_true.1 (List.all_eq_true.1 hone a ha)
      exact ⟨m, hm, of_decide_eq_true ham⟩

theorem munches_punct : Munches punct markText where
  mem := by
    intro cs l rest h
    rw [mem_markText]
    rcases punct_eq_some.1 h with ⟨a, b, hab, -, rfl⟩ | ⟨a, ha, -, rfl, -⟩
    · exact .inl ⟨a, b, hab, rfl⟩
    · exact .inr ⟨a, ha, rfl⟩
  reaches := by
    intro s hs t
    rcases mem_markText.1 hs with ⟨a, b, hab, rfl⟩ | ⟨a, ha, rfl⟩
    · exact ⟨[a, b], t, punct_eq_some.2 (.inl ⟨a, b, hab, rfl, rfl⟩), le_rfl⟩
    · cases hpunct : punct ([a] ++ t) with
      | some r => exact ⟨r.1, r.2, rfl, List.length_pos_iff.2 (splits_punct _ _ _ hpunct).2⟩
      | none =>
        cases t with
        | nil => simp [punct, ha] at hpunct
        | cons b t => by_cases hab : (a, b) ∈ twoCharMarks <;> simp [punct, ha, hab] at hpunct

theorem munches_ofKind : ∀ k, Munches (ofKind k) (language (some k))
  | .atom => munches_between (by decide)
  | .string => munches_between (by decide)
  | .char => munches_char
  | .float => munches_float
  | .integer => munches_integer
  | .var => munches_word _
  | .name => munches_word _
  | .punct => munches_punct

end Scanner

end CallGraph
