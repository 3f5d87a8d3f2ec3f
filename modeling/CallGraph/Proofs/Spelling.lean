import CallGraph.Core.Numeral
import CallGraph.Token.Stream

/-!
Words and how they are spelled. A word is a token without its place. Words that are legible, spelled
one after the other with a blank between them, are cut into the same words again.
-/

namespace CallGraph

open Text

/-- A token without its place. -/
structure Word where
  kind : Kind
  text : String
deriving DecidableEq

def Token.word (t : Token) : Word := ⟨t.kind, t.text⟩

/-- The characters, with a backslash before each mark and each backslash. -/
def escaped (mark : Char) : List Char → List Char
  | [] => []
  | c :: cs => if c = mark ∨ c = '\\' then '\\' :: c :: escaped mark cs else c :: escaped mark cs

/-- The decimal digits of an integer, after a minus sign if it is negative. -/
def Numeral.ofInt (n : Int) : List Char :=
  if n < 0 then '-' :: Nat.toDigits 10 n.natAbs else Nat.toDigits 10 n.natAbs

/-- The digits of an integer are not more than an integer may have. -/
def Numeral.Short (n : Int) : Prop := (Nat.toDigits 10 n.natAbs).length ≤ numeralLimit

instance (n : Int) : Decidable (Numeral.Short n) := inferInstanceAs (Decidable (_ ≤ _))

/-- The text is a variable and nothing else. -/
def IsVariable (s : String) : Prop := Scanner.var s.toList = some (s.toList, [])

instance (s : String) : Decidable (IsVariable s) := inferInstanceAs (Decidable (_ = _))

/-- The text is a character and nothing else. A caret alone after the backslash would take the
next character with it. -/
def IsCharacter (s : String) : Prop :=
  Scanner.char s.toList = some (s.toList, []) ∧ s.toList ≠ ['$', '\\', '^']

instance (s : String) : Decidable (IsCharacter s) := inferInstanceAs (Decidable (_ ∧ _))

namespace Word

def mark (s : String) : Word := ⟨.punct, s⟩

def keyword (s : String) : Word := ⟨.name, s⟩

def integer (n : Int) : Word := ⟨.integer, String.ofList (Numeral.ofInt n)⟩

/-- Atoms and strings are quoted, other words are spelled as they are. -/
def spelling (w : Word) : List Char :=
  match w.kind with
  | .atom => '\'' :: escaped '\'' w.text.toList ++ ['\'']
  | .string => '"' :: escaped '"' w.text.toList ++ ['"']
  | _ => w.text.toList

/-- The marks of the grammar. -/
def marks : List String :=
  ["(", ")", "[", "]", "\x7b", "\x7d", "<", ">", ",", "|", ":", "/", "=", "-|", "->", "=>", ":=",
    "#\x7b", "\x7d#", "~\x7b", "\x7d~", "#<"]

/-- The keywords of the grammar. -/
def keywords : List String :=
  ["after", "apply", "attributes", "call", "case", "catch", "do", "end", "fun", "in", "let",
    "letrec", "module", "of", "primop", "receive", "try", "when"]

/-- A word that can be told from its spelling, whatever follows after a blank. Numbers with a point
are left out. -/
def Legible (w : Word) : Prop :=
  match w.kind with
  | .atom | .string => True
  | .char => IsCharacter w.text
  | .float => False
  | .integer => ∃ n : Int, w.text.toList = Numeral.ofInt n ∧ Numeral.Short n
  | .var => IsVariable w.text
  | .name => w.text ∈ keywords
  | .punct => w.text ∈ marks

/-- The spellings of the words, each after a blank. -/
def continued : List Word → List Char
  | [] => []
  | w :: ws => ' ' :: (w.spelling ++ continued ws)

/-- The spellings of the words with a blank between them. -/
def written : List Word → List Char
  | [] => []
  | w :: ws => w.spelling ++ continued ws

/-- The tokens of the words, of which the first one stands at `offset`. -/
def place (offset : Nat) : List Word → List Token
  | [] => []
  | w :: ws => ⟨w.kind, w.text, offset⟩ :: place (offset + w.spelling.length + 1) ws

theorem map_word_place (offset : Nat) (ws : List Word) : (place offset ws).map Token.word = ws := by
  induction ws generalizing offset with
  | nil => rfl
  | cons w ws ih => rw [place, List.map_cons, ih, Token.word]

end Word

/-! ## Characters and where lexemes end -/

theorem Text.isDigit_iff_of_lt {c : Char} (h : c.toNat < 128) :
    isDigit c = true ↔ 48 ≤ c.toNat ∧ c.toNat ≤ 57 := by
  have hlarge : decide (128 ≤ c.toNat) = false := by simpa using h
  simp only [isDigit, hlarge, Bool.false_and, Bool.or_false, Bool.and_eq_true, decide_eq_true_eq,
    Char.le_def, UInt32.le_iff_toNat_le]
  exact Iff.rfl

theorem Text.range_of_isDigit {c : Char} (h : c.isDigit = true) : 48 ≤ c.toNat ∧ c.toNat ≤ 57 := by
  simpa [Char.isDigit, UInt32.le_iff_toNat_le] using h

theorem Text.isDigit_of_ascii {c : Char} (h : c.isDigit = true) : isDigit c = true := by
  have hrange := range_of_isDigit h
  exact (isDigit_iff_of_lt (by omega)).2 hrange

theorem Text.isDigit_toDigits (n : Nat) : ∀ c ∈ Nat.toDigits 10 n, c.isDigit = true :=
  fun _ hc => Nat.isDigit_of_mem_toDigits (by decide) (by decide) hc

theorem Text.range_of_isUpper {c : Char} (h : c.isUpper = true) : 65 ≤ c.toNat ∧ c.toNat ≤ 90 := by
  have hrange : 65 ≤ c.val ∧ c.val ≤ 90 := of_decide_eq_true h
  exact hrange.imp UInt32.le_iff_toNat_le.1 UInt32.le_iff_toNat_le.1

/-- Nothing follows, or a blank. -/
def Apart : List Char → Prop
  | [] => True
  | c :: _ => c = ' '

variable {cs l rest : List Char}

theorem Apart.takeWhile_eq_nil {p : Char → Bool} (h : Apart rest) (hp : p ' ' = false) :
    rest.takeWhile p = [] := by
  cases rest with
  | nil => rfl
  | cons c cs =>
    rw [show c = ' ' from h, List.takeWhile_cons, hp]
    rfl

theorem Apart.takeWhile_append {p : Char → Bool} (h : Apart rest) (hp : p ' ' = false)
    (hl : ∀ c ∈ l, p c = true) : (l ++ rest).takeWhile p = l := by
  rw [List.takeWhile_append_of_pos hl, h.takeWhile_eq_nil hp, List.append_nil]

theorem Apart.dropWhile_append {p : Char → Bool} (h : Apart rest) (hp : p ' ' = false)
    (hl : ∀ c ∈ l, p c = true) : (l ++ rest).dropWhile p = rest := by
  have hsplit := List.takeWhile_append_dropWhile (p := p) (l := l ++ rest)
  rw [h.takeWhile_append hp hl] at hsplit
  exact List.append_cancel_left hsplit

/-! ## Numbers -/

theorem Text.digitValue?_of_isDigit {c : Char} (h : c.isDigit = true) :
    digitValue? c = some (c.toNat - 48) := by
  have hrange := range_of_isDigit h
  have hfirst : (decide (48 ≤ c.toNat) && decide (c.toNat < 48 + 10)) = true := by
    rw [Bool.and_eq_true, decide_eq_true_eq, decide_eq_true_eq]
    omega
  rw [digitValue?, digitZeros, List.find?_cons, hfirst]
  rfl

theorem Text.foldl_digitValue (h : ∀ c ∈ l, c.isDigit = true) (n : Nat) :
    l.foldl (fun n c => 10 * n + (digitValue? c).getD 0) n = Nat.ofDigitChars 10 l n := by
  induction l generalizing n with
  | nil => rfl
  | cons c cs ih =>
    obtain ⟨hc, hcs⟩ := List.forall_mem_cons.1 h
    rw [List.foldl_cons, digitValue?_of_isDigit hc, ih hcs]
    rfl

theorem Text.numberOfDigits_toDigits (n : Nat) : numberOfDigits (Nat.toDigits 10 n) = n :=
  (foldl_digitValue (isDigit_toDigits n) 0).trans Nat.ofDigitChars_ten_toDigits

namespace Numeral

theorem sign_of_digits (h : ∀ c ∈ l, c.isDigit = true) : sign l = (false, l) := by
  cases l with
  | nil => rfl
  | cons c cs =>
    have hrange := range_of_isDigit (h c List.mem_cons_self)
    unfold sign
    split
    next heq => rw [(List.cons.inj heq).1] at hrange; exact absurd hrange (by decide)
    next heq => rw [(List.cons.inj heq).1] at hrange; exact absurd hrange (by decide)
    next => rfl

theorem sign_ofInt (n : Int) : sign (ofInt n) = (decide (n < 0), Nat.toDigits 10 n.natAbs) := by
  unfold ofInt
  split
  next h => simp [sign, h]
  next h => simp [sign_of_digits (isDigit_toDigits n.natAbs), h]

theorem integerValue_ofInt (n : Int) : integerValue (ofInt n) = n := by
  rw [integerValue, sign_ofInt, numberOfDigits_toDigits]
  by_cases h : n < 0
  · simp only [h, decide_true, if_true]
    omega
  · simp only [h, decide_false, Bool.false_eq_true, if_false]
    omega

end Numeral

/-! ## Blanks -/

namespace Scanner

theorem takeWhile_isBlank_of_blank (h : blank cs = none) : cs.takeWhile isBlank = [] := by
  cases cs with
  | nil => rfl
  | cons c cs =>
    have hc : isBlank c = false := by
      unfold blank at h
      split at h
      next => cases h
      next heq =>
        cases heq
        rw [Bool.eq_false_iff]
        intro hc
        rw [if_pos hc] at h
        cases h
      next heq => cases heq
    rw [List.takeWhile_cons, hc]
    rfl

theorem dropWhile_isBlank_of_blank (h : blank cs = none) : cs.dropWhile isBlank = cs := by
  have hsplit := List.takeWhile_append_dropWhile (p := isBlank) (l := cs)
  rwa [takeWhile_isBlank_of_blank h] at hsplit

/-! ## Words in quotation marks -/

theorem untilMark_escaped {mark : Char} (hmark : mark ≠ '\\') (cs rest : List Char) :
    untilMark mark (escaped mark cs ++ mark :: rest) = some (escaped mark cs, rest) := by
  induction cs with
  | nil =>
    rw [escaped, List.nil_append, untilMark]
    · simp
    · rintro _ _ rfl
      exact absurd rfl hmark
  | cons c cs ih =>
    rw [escaped]
    split
    next => rw [List.cons_append, List.cons_append, untilMark, ih]; rfl
    next hc =>
      rw [not_or] at hc
      rw [List.cons_append, untilMark, ih]
      · simp [hc.1, hc.2]
      · rintro _ _ rfl
        exact absurd rfl hc.2

theorem between_escaped (mark : Char) (hmark : mark ≠ '\\') (cs rest : List Char) :
    between mark (mark :: escaped mark cs ++ [mark] ++ rest) =
      some (mark :: escaped mark cs ++ [mark], rest) := by
  have h := untilMark_escaped hmark cs rest
  simp [between, h]

end Scanner

theorem Escape.read?_mark {c : Char} (hc : c = '\'' ∨ c = '"' ∨ c = '\\') (cs : List Char) :
    Escape.read? (c :: cs) = some (.single c, cs) := by
  rcases hc with rfl | rfl | rfl <;> rfl

theorem unescape_of_read? {e : Escape} (h : Escape.read? cs = some (e, rest)) :
    unescape ('\\' :: cs) = (do
      let x ← e.value
      let xs ← unescape rest
      return x :: xs) := by
  rw [unescape]
  simp only [beq_self_eq_true, if_true]
  split
  next h' =>
    rw [h] at h'
    cases h'
    rfl
  next h' =>
    rw [h] at h'
    cases h'

theorem unescape_escaped {mark : Char} (hmark : mark = '\'' ∨ mark = '"') (cs : List Char) :
    unescape (escaped mark cs) = .ok cs := by
  induction cs with
  | nil => rw [escaped, unescape]
  | cons c cs ih =>
    rw [escaped]
    split
    next hc =>
      have hc' : c = '\'' ∨ c = '"' ∨ c = '\\' := by
        rcases hmark with rfl | rfl <;> rcases hc with rfl | rfl <;> simp
      have hvalue : (Escape.single c).value = .ok c := by
        rcases hc' with rfl | rfl | rfl <;> rfl
      rw [unescape_of_read? (Escape.read?_mark hc' _), hvalue, ih]
      rfl
    next hc =>
      rw [not_or] at hc
      rw [unescape, if_neg (by simpa using hc.2), ih]
      rfl

namespace Scanner

/-! ## Characters -/

theorem octalRun_append_blank (cs r : List Char) :
    Escape.octalRun (cs ++ ' ' :: r) = Escape.octalRun cs := by
  have hblank : isOctal ' ' = false := rfl
  rcases cs with _ | ⟨a, _ | ⟨b, _ | ⟨c, cs⟩⟩⟩ <;>
    simp [Escape.octalRun, List.takeWhile_cons, hblank]

/-- A braced escape ends with its brace, whatever follows. -/
theorem readBraced_append_blank (h : (Escape.readBraced cs).2 = []) (r : List Char) :
    ∃ ds, Escape.readBraced cs = (.braced ds, []) ∧
      Escape.readBraced (cs ++ ' ' :: r) = (.braced ds, ' ' :: r) := by
  have hsplit := List.takeWhile_append_dropWhile (p := isHex) (l := cs)
  have hdigits : ∀ c ∈ cs.takeWhile isHex, isHex c = true := List.all_eq_true.1 List.all_takeWhile
  have hbrace : isHex '}' = false := rfl
  unfold Escape.readBraced at h ⊢
  split at h
  next d ds rest hds hrest =>
    subst h
    rw [hds, hrest] at hsplit
    rw [hds] at hdigits
    refine ⟨d :: ds, rfl, ?_⟩
    rw [← hsplit, List.append_assoc, List.takeWhile_append_of_pos hdigits,
      List.dropWhile_append_of_pos hdigits]
    simp [hbrace]
  next => cases h

theorem readOther?_append_blank {e : Escape} (h : Escape.readOther? cs = some (e, []))
    (hpair : ∀ a b, e ≠ .pair a b) (hcaret : cs ≠ ['^']) (r : List Char) :
    Escape.readOther? (cs ++ ' ' :: r) = some (e, ' ' :: r) := by
  unfold Escape.readOther? at h
  split at h
  next cs =>
    obtain ⟨ds, hread, happend⟩ := readBraced_append_blank (congrArg Prod.snd (Option.some.inj h)) r
    rw [hread] at h
    cases h
    exact congrArg some happend
  next a b cs _ =>
    split at h
    · cases h
      exact absurd rfl (hpair a b)
    · cases h
  next => cases h; rfl
  next c cs _ _ _ =>
    cases h
    by_cases hx : c = 'x'
    · subst hx
      cases r <;> rfl
    · have hne : c ≠ '^' := by simpa using hcaret
      simp [Escape.readOther?, hx, hne]
  next => cases h

theorem read?_append_blank {e : Escape} (h : Escape.read? cs = some (e, []))
    (hpair : ∀ a b, e ≠ .pair a b) (hcaret : cs ≠ ['^']) (r : List Char) :
    Escape.read? (cs ++ ' ' :: r) = some (e, ' ' :: r) := by
  have hspelling := Escape.read?_eq h
  unfold Escape.read? at h ⊢
  rw [octalRun_append_blank]
  cases hoctal : Escape.octalRun cs with
  | nil =>
    rw [hoctal] at h
    exact readOther?_append_blank h hpair hcaret r
  | cons d ds =>
    simp only [hoctal, Option.some.injEq, Prod.mk.injEq] at h
    obtain rfl : cs = d :: ds := by rw [hspelling, ← h.1, Escape.spelling, List.append_nil]
    simp [h.1]

/-- What a backslash and a complete escape other than a caret are is settled by a blank. -/
theorem charEscape_append_blank (h : charEscape cs = some (cs, [])) (hcaret : cs ≠ ['^'])
    (r : List Char) : charEscape (cs ++ ' ' :: r) = some (cs, ' ' :: r) := by
  unfold charEscape at h ⊢
  split at h
  next => cases h
  next e rest hpair hread =>
    obtain ⟨hspelling, rfl⟩ : e.spelling = cs ∧ rest = [] := by simpa using h
    have hne (a b : Char) : e ≠ .pair a b := fun he => hpair a b (by rw [he])
    rw [read?_append_blank hread hne hcaret r]
    split
    next heq => cases heq; exact absurd rfl (hne _ _)
    next heq => cases heq; rw [hspelling]
    next heq => cases heq
  next => cases h

theorem eq_dollar_cons_of_char (h : char cs = some (l, rest)) : ∃ cs', cs = '$' :: cs' := by
  unfold char at h
  split at h
  · exact ⟨_, rfl⟩
  · exact ⟨_, rfl⟩
  · cases h

theorem char_append (h : char l = some (l, [])) (hcaret : l ≠ ['$', '\\', '^'])
    (hrest : Apart rest) : char (l ++ rest) = some (l, rest) := by
  cases rest with
  | nil => rw [List.append_nil, h]
  | cons c r =>
    obtain rfl : c = ' ' := hrest
    rcases l with _ | ⟨a, _ | ⟨b, cs⟩⟩
    · simp [char] at h
    · unfold char at h
      split at h <;> simp_all
    · by_cases ha : a = '$'
      · subst ha
        by_cases hb : b = '\\'
        · subst hb
          simp only [char, Option.map_eq_some_iff] at h
          obtain ⟨⟨l, rest⟩, hescape, heq⟩ := h
          obtain ⟨rfl, rfl⟩ : l = cs ∧ rest = [] := by simpa using heq
          have hne : l ≠ ['^'] := by simpa using hcaret
          simp [char, charEscape_append_blank hescape hne]
        · simp_all [char]
      · simp [char, ha] at h

/-! ## Numbers and variables -/

/-- Both signs come before the digits among the characters. -/
theorem signed_of_le (scan : Scanner) {c : Char} (hc : 48 ≤ c.toNat) (cs : List Char) :
    signed scan (c :: cs) = scan (c :: cs) := by
  unfold signed
  split
  next heq => rw [(List.cons.inj heq).1] at hc; exact absurd hc (by decide)
  next heq => rw [(List.cons.inj heq).1] at hc; exact absurd hc (by decide)
  next => rfl

theorem digits_append (h : ∀ c ∈ l, isDigit c = true) (hne : l ≠ []) (hrest : Apart rest) :
    digits (l ++ rest) = some (l, rest) := by
  have htake := hrest.takeWhile_append rfl h
  have hdrop := hrest.dropWhile_append rfl h
  unfold digits
  rw [htake, hdrop]
  cases l with
  | nil => exact absurd rfl hne
  | cons d ds => rfl

theorem decimal_append (h : ∀ c ∈ l, isDigit c = true) (hne : l ≠ []) (hrest : Apart rest) :
    decimal (l ++ rest) = none := by
  unfold decimal
  rw [digits_append h hne hrest]
  cases rest with
  | nil => rfl
  | cons c r =>
    obtain rfl : c = ' ' := hrest
    rfl

theorem word_append {isFirst : Char → Bool} (h : word isFirst l = some (l, []))
    (hrest : Apart rest) : word isFirst (l ++ rest) = some (l, rest) := by
  cases l with
  | nil => simp [word] at h
  | cons c cs =>
    simp only [word] at h
    split at h
    next hc =>
      have htake : cs.takeWhile isWordChar = cs := by simpa using congrArg Prod.fst (Option.some.inj h)
      have hall : ∀ c ∈ cs, isWordChar c = true := by
        rw [← htake]
        exact List.all_eq_true.1 List.all_takeWhile
      rw [List.cons_append, word, if_pos hc, hrest.takeWhile_append rfl hall,
        hrest.dropWhile_append rfl hall]
    next => cases h

end Scanner

/-! ## The first lexeme -/

namespace Lexeme

/-- The first lexeme is of a kind if no lexeme of the kinds that are tried before is there. -/
theorem first?_of_ofKind {k : Kind} (hblank : Scanner.blank cs = none)
    (hbefore : ∀ k' ∈ kinds.takeWhile (· ≠ k), Scanner.ofKind k' cs = none)
    (h : Scanner.ofKind k cs = some (l, rest)) : first? cs = some (⟨some k, l⟩, rest) := by
  have hnone (k' : Kind) (hk' : k' ∈ kinds.takeWhile (· ≠ k)) : ofKind? cs k' = none := by
    rw [ofKind?, hbefore k' hk']
    rfl
  have hsome : ofKind? cs k = some (⟨some k, l⟩, rest) := by
    rw [ofKind?, h]
    rfl
  rw [first?, hblank]
  cases k <;> simp_all [kinds]

theorem blank_eq_none_of_first? {k : Kind} (h : first? cs = some (⟨some k, l⟩, rest)) :
    Scanner.blank cs = none := by
  unfold first? at h
  split at h
  next => cases h
  next hblank => exact hblank

theorem ofKind_of_first? {k : Kind} (h : first? cs = some (⟨some k, l⟩, rest)) :
    Scanner.ofKind k cs = some (l, rest) := by
  unfold first? at h
  split at h
  next => cases h
  next =>
    obtain ⟨k', _, hk'⟩ := List.exists_of_findSome?_eq_some h
    obtain ⟨r, hr, heq⟩ := Option.map_eq_some_iff.1 hk'
    cases heq
    exact hr

theorem token?_eq_some {l : Lexeme} {offset : Nat} {t : Token} :
    l.token? offset = .ok (some t) ↔
      l.kind = some t.kind ∧ meaning t.kind l.spelling = .ok t.text ∧ t.offset = offset := by
  obtain ⟨kind, text, start⟩ := t
  obtain ⟨_ | k, spelling⟩ := l
  · simp [token?]
  · cases hmeaning : meaning k spelling <;> grind [token?, Except.map]

theorem first?_of_mem_marks {s : String} (hs : s ∈ Word.marks) (hrest : Apart rest) :
    first? (s.toList ++ rest) = some (⟨some .punct, s.toList⟩, rest) := by
  have hend : ∀ s ∈ Word.marks, first? (s.toList ++ []) = some (⟨some .punct, s.toList⟩, []) := by
    decide +kernel
  have hblank : ∀ s ∈ Word.marks, ∀ r,
      first? (s.toList ++ ' ' :: r) = some (⟨some .punct, s.toList⟩, ' ' :: r) := by
    simp only [Word.marks, List.forall_mem_cons]
    and_intros
    all_goals first | exact fun r => rfl | exact List.forall_mem_nil _
  cases rest with
  | nil => exact hend s hs
  | cons c r => rw [show c = ' ' from hrest, hblank s hs]

theorem first?_of_mem_keywords {s : String} (hs : s ∈ Word.keywords) (hrest : Apart rest) :
    first? (s.toList ++ rest) = some (⟨some .name, s.toList⟩, rest) := by
  have hend : ∀ s ∈ Word.keywords, first? (s.toList ++ []) = some (⟨some .name, s.toList⟩, []) := by
    decide +kernel
  have hblank : ∀ s ∈ Word.keywords, ∀ r,
      first? (s.toList ++ ' ' :: r) = some (⟨some .name, s.toList⟩, ' ' :: r) := by
    simp only [Word.keywords, List.forall_mem_cons]
    and_intros
    all_goals first | exact fun r => rfl | exact List.forall_mem_nil _
  cases rest with
  | nil => exact hend s hs
  | cons c r => rw [show c = ' ' from hrest, hblank s hs]

/-- The digits, the capital letters and the underscore lie in one range, in which there is no blank
and no mark that begins a comment, a quoted word or a character. -/
theorem scanners_of_range {c : Char} (hc : 48 ≤ c.toNat ∧ c.toNat ≤ 95) (cs : List Char) :
    Scanner.blank (c :: cs) = none ∧ Scanner.between '\'' (c :: cs) = none ∧
      Scanner.between '"' (c :: cs) = none ∧ Scanner.char (c :: cs) = none := by
  have hne {d : Char} (hd : d.toNat < 48) : c ≠ d := by
    rintro rfl
    omega
  have hblank : isBlank c = false := by
    rw [Bool.eq_false_iff]
    intro h
    simp only [isBlank, Bool.or_eq_true, Bool.and_eq_true, decide_eq_true_eq, beq_iff_eq] at h
    omega
  refine ⟨?_, ?_, ?_, ?_⟩
  · unfold Scanner.blank
    split
    next heq => exact absurd (List.cons.inj heq).1 (hne (by decide))
    next heq => rw [← (List.cons.inj heq).1, hblank]; rfl
    next heq => cases heq
  · simp [Scanner.between, hne (d := '\'') (by decide)]
  · simp [Scanner.between, hne (d := '"') (by decide)]
  · simp [Scanner.char, hne (d := '$') (by decide)]

theorem first?_of_var (h : Scanner.var l = some (l, [])) (hrest : Apart rest) :
    first? (l ++ rest) = some (⟨some .var, l⟩, rest) := by
  have hvar := Scanner.word_append h hrest
  cases l with
  | nil => simp [Scanner.var, Scanner.word] at h
  | cons c cs =>
    have hc : (65 ≤ c.toNat ∧ c.toNat ≤ 90) ∨ c = '_' := by
      simp only [Scanner.var, Scanner.word] at h
      split at h
      next hc =>
        rw [Bool.or_eq_true, beq_iff_eq] at hc
        exact hc.imp_left range_of_isUpper
      next => cases h
    have hrange : 65 ≤ c.toNat ∧ c.toNat ≤ 95 := by
      rcases hc with hc | rfl
      · omega
      · decide
    have hdigit : isDigit c = false := by
      rw [Bool.eq_false_iff, Ne, isDigit_iff_of_lt (by omega)]
      omega
    obtain ⟨hblank, hatom, hstring, hchar⟩ := scanners_of_range (c := c) (by omega) (cs ++ rest)
    have hdigits : Scanner.digits (c :: (cs ++ rest)) = none := by simp [Scanner.digits, hdigit]
    have hinteger : Scanner.integer (c :: (cs ++ rest)) = none := by
      rw [Scanner.integer, Scanner.signed_of_le _ (by omega), hdigits]
    have hfloat : Scanner.float (c :: (cs ++ rest)) = none := by
      rw [Scanner.float, Scanner.signed_of_le _ (by omega), Scanner.decimal, hdigits]
    refine first?_of_ofKind hblank ?_ hvar
    simp [kinds, Scanner.ofKind, hatom, hstring, hchar, hinteger, hfloat]

theorem first?_of_digits (h : ∀ c ∈ l, c.isDigit = true) (hne : l ≠ []) (hrest : Apart rest) :
    first? (l ++ rest) = some (⟨some .integer, l⟩, rest) := by
  have hall : ∀ c ∈ l, isDigit c = true := fun c hc => isDigit_of_ascii (h c hc)
  have hdigits := Scanner.digits_append hall hne hrest
  have hdecimal := Scanner.decimal_append hall hne hrest
  cases l with
  | nil => exact absurd rfl hne
  | cons c cs =>
    have hrange := range_of_isDigit (h c List.mem_cons_self)
    rw [List.cons_append] at hdigits hdecimal
    obtain ⟨hblank, hatom, hstring, hchar⟩ := scanners_of_range (c := c) (by omega) (cs ++ rest)
    have hinteger : Scanner.integer (c :: (cs ++ rest)) = some (c :: cs, rest) := by
      rw [Scanner.integer, Scanner.signed_of_le _ hrange.1, hdigits]
    have hfloat : Scanner.float (c :: (cs ++ rest)) = none := by
      rw [Scanner.float, Scanner.signed_of_le _ hrange.1, hdecimal]
    refine first?_of_ofKind hblank ?_ hinteger
    simp [kinds, Scanner.ofKind, hatom, hstring, hchar, hfloat]

theorem first?_of_minus (h : ∀ c ∈ l, c.isDigit = true) (hne : l ≠ []) (hrest : Apart rest) :
    first? ('-' :: l ++ rest) = some (⟨some .integer, '-' :: l⟩, rest) := by
  have hall : ∀ c ∈ l, isDigit c = true := fun c hc => isDigit_of_ascii (h c hc)
  have hdigits := Scanner.digits_append hall hne hrest
  have hdecimal := Scanner.decimal_append hall hne hrest
  have hfloat : Scanner.float ('-' :: (l ++ rest)) = none := by
    simp [Scanner.float, Scanner.signed, hdecimal]
  refine first?_of_ofKind rfl ?_ ?_
  · simp [kinds, Scanner.ofKind, Scanner.between, Scanner.char, hfloat]
  · simp [Scanner.ofKind, Scanner.integer, Scanner.signed, hdigits]

end Lexeme

/-- A legible word is the first lexeme of its spelling, if a blank or nothing follows. -/
theorem Word.Legible.first? {w : Word} (h : w.Legible) (hrest : Apart rest) :
    Lexeme.first? (w.spelling ++ rest) = some (⟨some w.kind, w.spelling⟩, rest) := by
  obtain ⟨k, text⟩ := w
  cases k with
  | atom =>
    have hatom := Scanner.between_escaped '\'' (by decide) text.toList rest
    exact Lexeme.first?_of_ofKind rfl (by simp [Lexeme.kinds]) hatom
  | string =>
    have hstring := Scanner.between_escaped '"' (by decide) text.toList rest
    exact Lexeme.first?_of_ofKind rfl (by simp [Lexeme.kinds]; rfl) hstring
  | char =>
    have hchar := Scanner.char_append h.1 h.2 hrest
    obtain ⟨cs, hcs⟩ := Scanner.eq_dollar_cons_of_char h.1
    change Lexeme.first? (text.toList ++ rest) = some (⟨some .char, text.toList⟩, rest)
    rw [hcs] at hchar ⊢
    exact Lexeme.first?_of_ofKind rfl (by simp [Lexeme.kinds, Scanner.ofKind, Scanner.between]) hchar
  | float => exact h.elim
  | integer =>
    obtain ⟨n, hn, _⟩ := h
    have hdigits := isDigit_toDigits n.natAbs
    change Lexeme.first? (text.toList ++ rest) = some (⟨some .integer, text.toList⟩, rest)
    rw [hn, Numeral.ofInt]
    split
    · exact Lexeme.first?_of_minus hdigits Nat.toDigits_ne_nil hrest
    · exact Lexeme.first?_of_digits hdigits Nat.toDigits_ne_nil hrest
  | var => exact Lexeme.first?_of_var h hrest
  | name => exact Lexeme.first?_of_mem_keywords h hrest
  | punct => exact Lexeme.first?_of_mem_marks h hrest

/-! ## Whole texts -/

/-- The text of a word is what its spelling means. -/
theorem Word.meaning_spelling (w : Word) : Lexeme.meaning w.kind w.spelling = .ok w.text := by
  obtain ⟨k, text⟩ := w
  have hquoted (mark : Char) (hmark : mark = '\'' ∨ mark = '"') :
      (unescape ((mark :: escaped mark text.toList ++ [mark]).drop 1).dropLast).map String.ofList =
        .ok text := by
    have hinner : ((mark :: escaped mark text.toList ++ [mark]).drop 1).dropLast =
        escaped mark text.toList := by simp
    rw [hinner, unescape_escaped hmark]
    simp [Except.map]
  cases k with
  | atom => exact hquoted '\'' (.inl rfl)
  | string => exact hquoted '"' (.inr rfl)
  | char | float | integer | var | name | punct => exact congrArg _ String.ofList_toList

theorem Word.token?_spelling (w : Word) (offset : Nat) :
    (Lexeme.mk (some w.kind) w.spelling).token? offset = .ok (some ⟨w.kind, w.text, offset⟩) := by
  simp only [Lexeme.token?, w.meaning_spelling]
  rfl

namespace TokenStream

theorem scan_of_first? {lx : Lexeme} {offset : Nat} {t : Option Token}
    (h : Lexeme.first? cs = some (lx, rest)) (ht : lx.token? offset = .ok t) :
    scan offset cs = (scan (offset + lx.spelling.length) rest).map (t.toList ++ ·) := by
  rw [scan]
  split
  next h' =>
    rw [h] at h'
    cases h'
    rw [ht]
    cases scan (offset + lx.spelling.length) rest <;> rfl
  next h' =>
    rw [h] at h'
    cases h'

theorem scan_nil (offset : Nat) : scan offset [] = .ok [] := by
  rw [scan]
  rfl

theorem scan_spelling {w : Word} (h : w.Legible) (hrest : Apart rest) (offset : Nat) :
    scan offset (w.spelling ++ rest) =
      (scan (offset + w.spelling.length) rest).map (⟨w.kind, w.text, offset⟩ :: ·) :=
  scan_of_first? (h.first? hrest) (w.token?_spelling offset)

/-- A blank before a legible word is skipped. -/
theorem scan_blank {w : Word} (h : w.Legible) (hrest : Apart rest) (offset : Nat) :
    scan offset (' ' :: (w.spelling ++ rest)) = scan (offset + 1) (w.spelling ++ rest) := by
  have hnone := Lexeme.blank_eq_none_of_first? (h.first? hrest)
  have hblank : Scanner.blank (' ' :: (w.spelling ++ rest)) =
      some ([' '], w.spelling ++ rest) := by
    change some (' ' :: (w.spelling ++ rest).takeWhile isBlank,
      (w.spelling ++ rest).dropWhile isBlank) = _
    rw [Scanner.takeWhile_isBlank_of_blank hnone, Scanner.dropWhile_isBlank_of_blank hnone]
  have hfirst : Lexeme.first? (' ' :: (w.spelling ++ rest)) =
      some (⟨none, [' ']⟩, w.spelling ++ rest) := by
    rw [Lexeme.first?, hblank]
  rw [scan_of_first? hfirst rfl]
  cases scan (offset + 1) (w.spelling ++ rest) <;> rfl

end TokenStream

namespace Word

theorem apart_continued (ws : List Word) : Apart (continued ws) := by
  cases ws with
  | nil => trivial
  | cons w ws => rfl

theorem scan_continued {ws : List Word} (h : ∀ w ∈ ws, w.Legible) (offset : Nat) :
    TokenStream.scan offset (continued ws) = .ok (place (offset + 1) ws) := by
  induction ws generalizing offset with
  | nil => exact TokenStream.scan_nil offset
  | cons w ws ih =>
    obtain ⟨hw, hws⟩ := List.forall_mem_cons.1 h
    rw [continued, TokenStream.scan_blank hw (apart_continued ws),
      TokenStream.scan_spelling hw (apart_continued ws), ih hws, place]
    rfl

/-- Legible words, written with blanks between them, are read again. -/
theorem scan_written {ws : List Word} (h : ∀ w ∈ ws, w.Legible) (offset : Nat) :
    TokenStream.scan offset (written ws) = .ok (place offset ws) := by
  cases ws with
  | nil => exact TokenStream.scan_nil offset
  | cons w ws =>
    obtain ⟨hw, hws⟩ := List.forall_mem_cons.1 h
    rw [written, TokenStream.scan_spelling hw (apart_continued ws), scan_continued hws, place]
    rfl

end Word

end CallGraph
