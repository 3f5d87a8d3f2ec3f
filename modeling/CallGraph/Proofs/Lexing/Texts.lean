import CallGraph.Core.Diagnostic
import CallGraph.Proofs.Lexing.Scanners

/-!
How a text is cut into tokens if it ends too early. Main statement: the tokens of the beginning of a
text are its first tokens, and perhaps what is left of the token after them.
-/

namespace CallGraph

open Text

variable {cs q l rest : List Char}

/-! ## The first lexeme -/

namespace Lexeme

theorem ofKind?_of_append {k : Kind} {lx : Lexeme}
    (h : ofKind? (cs ++ q) k = some (lx, rest ++ q)) : ofKind? cs k = some (lx, rest) := by
  obtain ⟨⟨l, tail⟩, hl, heq⟩ := Option.map_eq_some_iff.1 h
  obtain ⟨rfl, rfl⟩ := Prod.mk.inj heq
  rw [ofKind?, (Scanner.cuts_ofKind k).found hl]
  rfl

theorem ofKind?_eq_none_of_append {k : Kind} (h : ofKind? (cs ++ q) k = none) :
    ofKind? cs k = none := by
  rw [ofKind?, (Scanner.cuts_ofKind k).missing (Option.map_eq_none_iff.1 h)]
  rfl

/-- The first lexeme of a text is that of every longer text in which it stands whole. -/
theorem first?_of_append {lx : Lexeme} (h : first? (cs ++ q) = some (lx, rest ++ q)) :
    first? cs = some (lx, rest) := by
  unfold first? at h ⊢
  cases hblank : Scanner.blank (cs ++ q) with
  | some r =>
    rw [hblank] at h
    obtain ⟨l, tail⟩ := r
    obtain ⟨rfl, rfl⟩ := Prod.mk.inj (Option.some.inj h)
    rw [Scanner.cuts_blank.found hblank]
  | none =>
    rw [hblank] at h
    rw [Scanner.cuts_blank.missing hblank]
    dsimp only at h ⊢
    generalize kinds = ks at h ⊢
    -- The kinds before that of the lexeme are not found in the shorter text either.
    induction ks with
    | nil => cases h
    | cons k ks ih =>
      rw [List.findSome?_cons] at h ⊢
      cases hk : ofKind? (cs ++ q) k with
      | none =>
        rw [hk] at h
        rw [ofKind?_eq_none_of_append hk]
        exact ih h
      | some r =>
        rw [hk] at h
        obtain rfl := Option.some.inj h
        rw [ofKind?_of_append hk]

/-- A text that does not begin with a lexeme does not do so if it is cut short. -/
theorem first?_eq_none_of_append (h : first? (cs ++ q) = none) : first? cs = none := by
  unfold first? at h ⊢
  cases hblank : Scanner.blank (cs ++ q) with
  | some r => rw [hblank] at h; cases h
  | none =>
    rw [hblank] at h
    rw [Scanner.cuts_blank.missing hblank]
    dsimp only at h ⊢
    rw [List.findSome?_eq_none_iff] at h ⊢
    exact fun k hk => ofKind?_eq_none_of_append (h k hk)

/-- No lexeme of a kind that is tried before is there. -/
theorem ofKind_eq_none_of_first? {k : Kind} (h : first? cs = some (⟨some k, l⟩, rest)) :
    ∀ k' ∈ kinds.takeWhile (· ≠ k), Scanner.ofKind k' cs = none := by
  intro k' hk'
  rw [first?, blank_eq_none_of_first? h] at h
  obtain ⟨ks, k₀, ks', hkinds, hk₀, hbefore⟩ := List.findSome?_eq_some_iff.1 h
  obtain ⟨r, -, heq⟩ := Option.map_eq_some_iff.1 hk₀
  obtain rfl : k₀ = k := by simpa using congrArg (·.1.kind) heq
  have hmem : k' ∈ ks := by
    rw [hkinds, List.takeWhile_append] at hk'
    split at hk'
    · simpa using hk'
    · exact (List.takeWhile_subset _) hk'
  exact Option.map_eq_none_iff.1 (hbefore k' hmem)

/-- A lexeme that is cut short is one of the same kind, if what is left is one. -/
theorem first?_of_cut {k : Kind} (h : first? (cs ++ q) = some (⟨some k, l⟩, rest))
    (hcs : Scanner.ofKind k cs = some (cs, [])) : first? cs = some (⟨some k, cs⟩, []) := by
  refine first?_of_ofKind (Scanner.cuts_blank.missing (blank_eq_none_of_first? h)) ?_ hcs
  intro k' hk'
  exact (Scanner.cuts_ofKind k').missing (ofKind_eq_none_of_first? h k' hk')

theorem blank_of_first? (h : first? cs = some (⟨none, l⟩, rest)) :
    Scanner.blank cs = some (l, rest) := by
  unfold first? at h
  split at h
  next hblank => cases h; exact hblank
  next =>
    obtain ⟨k, -, hk⟩ := List.exists_of_findSome?_eq_some h
    obtain ⟨r, -, heq⟩ := Option.map_eq_some_iff.1 hk
    cases heq

/-- A quotation mark without the one that closes it begins no lexeme. -/
theorem first?_of_open {mark : Char} (hmark : mark = '\'' ∨ mark = '"')
    (h : Scanner.between mark (mark :: cs) = none) : first? (mark :: cs) = none := by
  have hdigits : Scanner.digits (mark :: cs) = none := by
    rw [Scanner.digits_eq_none, List.takeWhile_cons]
    rcases hmark with rfl | rfl <;> rfl
  have hdecimal : Scanner.decimal (mark :: cs) = none := by rw [Scanner.decimal, hdigits]
  have hsign (scan : Scanner) : Scanner.signed scan (mark :: cs) = scan (mark :: cs) := by
    rw [Scanner.signed_eq]
    rcases hmark with rfl | rfl <;> rfl
  have hblank : Scanner.blank (mark :: cs) = none := by rcases hmark with rfl | rfl <;> rfl
  rw [first?, hblank]
  dsimp only
  rw [List.findSome?_eq_none_iff]
  intro k _
  rw [ofKind?, Option.map_eq_none_iff]
  cases k with
  | atom =>
    rcases hmark with rfl | rfl
    · exact h
    · rfl
  | string =>
    rcases hmark with rfl | rfl
    · rfl
    · exact h
  | float => exact (hsign _).trans hdecimal
  | integer => exact (hsign _).trans hdigits
  | char | var | name => rcases hmark with rfl | rfl <;> rfl
  | punct => rcases hmark with rfl | rfl <;> cases cs <;> simp [Scanner.ofKind, Scanner.punct,
      Scanner.twoCharMarks, Scanner.oneCharMarks]

theorem mem_dropLast_of_append (h : cs ++ q = l ++ rest) (hlength : cs.length < l.length) :
    ∀ c ∈ cs, c ∈ l.dropLast := by
  obtain ⟨y, rfl⟩ : cs <+: l :=
    List.prefix_of_prefix_length_le (List.prefix_append cs q) (h ▸ List.prefix_append l rest)
      (Nat.le_of_lt hlength)
  have hy : y ≠ [] := by
    rintro rfl
    simp at hlength
  intro c hc
  rw [List.dropLast_append_of_ne_nil hy]
  exact List.mem_append_left _ hc

/-- The quotation marks, and the characters of the tokens that end a module. -/
def specials : List Char := ['\'', '"', ')', 'n']

/-- What is left of a token that is cut short: an open quotation mark, a shorter word, or pieces
without special characters. -/
inductive Remains (k : Kind) (cs : List Char) : Prop
  | quoted : first? cs = none → Remains k cs
  | word : first? cs = some (⟨some k, cs⟩, []) → k = .var ∨ k = .name → Remains k cs
  | pieces : (∀ c ∈ cs, c ∉ specials) → Remains k cs

theorem Remains.of_class {k : Kind} {p : Char → Bool} (h : ∀ c ∈ cs, p c = true)
    (hp : specials.any p = false) : Remains k cs := by
  refine .pieces fun c hc hspecial => ?_
  exact List.any_eq_false.1 hp c hspecial (h c hc)

theorem quoted_of_cut {mark : Char} (hmark : mark = '\'' ∨ mark = '"')
    (h : Scanner.between mark (cs ++ q) = some (l, rest)) (hne : cs ≠ [])
    (hlength : cs.length < l.length) : first? cs = none := by
  cases cs with
  | nil => exact absurd rfl hne
  | cons c cs =>
    obtain ⟨cs', hcs'⟩ := Scanner.eq_cons_of_between h
    obtain rfl : c = mark := (List.cons.inj hcs').1
    refine first?_of_open hmark ?_
    cases hcs : Scanner.between c (c :: cs) with
    | none => rfl
    | some r =>
      have hback : c ≠ '\\' := by rcases hmark with rfl | rfl <;> decide
      obtain ⟨hsplit, -⟩ := Scanner.splits_between c _ _ _ hcs
      rw [Scanner.between_append hback hcs q] at h
      obtain ⟨rfl, -⟩ := Prod.mk.inj (Option.some.inj h)
      have hle := congrArg List.length hsplit
      rw [List.length_append] at hle
      omega

theorem remains {k : Kind} (h : first? (cs ++ q) = some (⟨some k, l⟩, rest)) (hne : cs ≠ [])
    (hlength : cs.length < l.length) : Remains k cs := by
  have hk := ofKind_of_first? h
  have hdrop := mem_dropLast_of_append (first?_eq h).1 hlength
  cases k with
  | atom => exact .quoted (quoted_of_cut (.inl rfl) hk hne hlength)
  | string => exact .quoted (quoted_of_cut (.inr rfl) hk hne hlength)
  | var =>
    exact .word (first?_of_cut h (Scanner.word_of_append hk hne (Nat.le_of_lt hlength))) (.inl rfl)
  | name =>
    exact .word (first?_of_cut h (Scanner.word_of_append hk hne (Nat.le_of_lt hlength))) (.inr rfl)
  | char => exact .of_class (fun c hc => Scanner.escape_of_char hk c (hdrop c hc)) (by decide)
  | float =>
    have hnumeric := Scanner.numeric_signed Scanner.numeric_decimal hk
    exact .of_class (fun c hc => hnumeric c (List.dropLast_subset l (hdrop c hc))) (by decide)
  | integer =>
    have hnumeric := Scanner.numeric_signed Scanner.numeric_digits hk
    exact .of_class (fun c hc => hnumeric c (List.dropLast_subset l (hdrop c hc))) (by decide)
  | punct =>
    have hmarks (c : Char) (hc : c ∈ cs) :
        (Scanner.twoCharMarks.map Prod.fst).contains c = true :=
      List.contains_iff_mem.2 (Scanner.mark_of_punct hk c (hdrop c hc))
    exact .of_class hmarks (by decide)

/-! ## Numbers -/

theorem first?_of_decimal {ds fs : List Char} (hds : ∀ c ∈ ds, c.isDigit = true) (hne : ds ≠ [])
    (hfs : ∀ c ∈ fs, c.isDigit = true) (hne' : fs ≠ []) (hrest : Apart rest) :
    first? (ds ++ '.' :: (fs ++ rest)) = some (⟨some .float, ds ++ '.' :: fs⟩, rest) := by
  have hdigits : Scanner.digits (ds ++ '.' :: (fs ++ rest)) = some (ds, '.' :: (fs ++ rest)) := by
    have hall : ∀ c ∈ ds, isDigit c = true := fun c hc => isDigit_of_ascii (hds c hc)
    refine Scanner.digits_eq_some.2 ⟨?_, ?_, hne⟩
    · rw [List.takeWhile_append_of_pos hall, List.takeWhile_cons_of_neg (by decide),
        List.append_nil]
    · rw [List.dropWhile_append_of_pos hall, List.dropWhile_cons_of_neg (by decide)]
  have hfraction : Scanner.fraction (fs ++ rest) = some (fs, rest) := by
    rw [Scanner.fraction,
      Scanner.digits_append (fun c hc => isDigit_of_ascii (hfs c hc)) hne' hrest]
    rcases rest with _ | ⟨c, rest⟩
    · rfl
    · obtain rfl : c = ' ' := hrest
      rfl
  have hdecimal := Scanner.decimal_eq_some.2 ⟨ds, fs, _, hdigits, hfraction, rfl⟩
  rcases ds with _ | ⟨d, ds⟩
  · exact absurd rfl hne
  · have hrange := range_of_isDigit (hds d List.mem_cons_self)
    rw [List.cons_append] at hdecimal ⊢
    obtain ⟨hblank, hatom, hstring, hchar⟩ :=
      scanners_of_range (c := d) (by omega) (ds ++ '.' :: (fs ++ rest))
    have hfloat : Scanner.float (d :: (ds ++ '.' :: (fs ++ rest))) =
        some (d :: ds ++ '.' :: fs, rest) := by
      rw [Scanner.float, Scanner.signed_of_le _ hrange.1, hdecimal]
    refine first?_of_ofKind hblank ?_ hfloat
    simp [kinds, Scanner.ofKind, hatom, hstring, hchar]

end Lexeme

/-! ## The tokens of a text -/

/-- A token that can be the last one of a module. -/
def Token.Final (t : Token) : Prop := t.is ")" ∨ t.is "end"

namespace TokenStream

variable {o : Nat} {ts : List Token}

/-- The tokens of a text that stands at an offset, lexeme by lexeme. -/
inductive Scans : Nat → List Char → List Token → Prop
  | nil {o : Nat} : Scans o [] []
  | next {o : Nat} {cs rest : List Char} {lx : Lexeme} {t : Option Token} {ts : List Token} :
      Lexeme.first? cs = some (lx, rest) → lx.token? o = .ok t →
      Scans (o + lx.spelling.length) rest ts → Scans o cs (t.toList ++ ts)

theorem scan_eq_ok : scan o cs = .ok ts ↔ Scans o cs ts := by
  constructor
  · intro h
    fun_induction scan o cs generalizing ts with
    | case1 o cs lx rest hfirst _ ih =>
      cases htoken : lx.token? o with
      | error e => rw [htoken] at h; cases h
      | ok t =>
        rw [htoken] at h
        cases hscan : scan (o + lx.spelling.length) rest with
        | error e => rw [hscan] at h; cases h
        | ok ts' =>
          rw [hscan] at h
          obtain rfl : t.toList ++ ts' = ts := Except.ok.inj h
          exact .next hfirst htoken (ih hscan)
    | case2 => cases h; exact .nil
    | case3 => cases h
  · intro h
    induction h with
    | nil => exact scan_nil _
    | next hfirst htoken _ ih =>
      rw [scan_of_first? hfirst htoken, ih]
      rfl

theorem scan_of_none {c : Char} (h : Lexeme.first? (c :: cs) = none) :
    scan o (c :: cs) = .error (.unexpected o c) := by
  rw [scan]
  split
  next hfirst => rw [h] at hfirst; cases hfirst
  next => rfl

theorem scan_of_error {lx : Lexeme} {e : ConversionError}
    (h : Lexeme.first? cs = some (lx, rest)) (htoken : lx.token? o = .error e) :
    scan o cs = .error (.conversion e) := by
  rw [scan]
  split
  next h' =>
    rw [h] at h'
    cases h'
    rw [htoken]
    rfl
  next h' => rw [h] at h'; cases h'

/-- Every token of a text is spelled by a lexeme in it. -/
theorem Scans.exists_lexeme {t : Token} (h : Scans o cs ts) (ht : t ∈ ts) :
    ∃ cs' spelling rest, Lexeme.first? cs' = some (⟨some t.kind, spelling⟩, rest) ∧
      Lexeme.meaning t.kind spelling = .ok t.text ∧ o ≤ t.offset := by
  induction h with
  | nil => cases ht
  | @next o cs rest lx u ts hfirst htoken _ ih =>
    rcases List.mem_append.1 ht with hhead | htail
    · obtain rfl := Option.mem_toList.1 hhead
      obtain ⟨hkind, hmeaning, hoffset⟩ := Lexeme.token?_eq_some.1 htoken
      refine ⟨cs, lx.spelling, rest, ?_, hmeaning, Nat.le_of_eq hoffset.symm⟩
      rw [hfirst, ← hkind]
    · obtain ⟨cs', spelling, rest', hfirst', hmeaning, hle⟩ := ih htail
      exact ⟨cs', spelling, rest', hfirst', hmeaning, Nat.le_trans (Nat.le_add_right ..) hle⟩

/-! ## Texts that end too early -/

/-- A lexeme without special characters is no token that ends a module. -/
theorem exists_token_of_pieces {lx : Lexeme} (h : ∀ c ∈ cs, c ∉ Lexeme.specials)
    (hfirst : Lexeme.first? cs = some (lx, rest)) (o : Nat) :
    ∃ t, lx.token? o = .ok t ∧ ∀ u ∈ t.toList, ¬ u.Final := by
  obtain ⟨hcs, -⟩ := Lexeme.first?_eq hfirst
  obtain ⟨_ | k, l⟩ := lx
  · exact ⟨none, rfl, by simp⟩
  have hmem (c : Char) (hc : c ∈ l) : c ∉ Lexeme.specials :=
    h c (by rw [hcs]; exact List.mem_append_left _ hc)
  have hquoted (mark : Char) (hmark : mark ∈ Lexeme.specials) :
      Scanner.between mark cs ≠ some (l, rest) := by
    intro hbetween
    obtain ⟨cs', hcs'⟩ := Scanner.eq_cons_of_between hbetween
    exact h mark (by rw [hcs']; exact List.mem_cons_self) hmark
  have hplain (hmeaning : Lexeme.meaning k l = .ok (String.ofList l)) :
      ∃ t, (Lexeme.mk (some k) l).token? o = .ok t ∧ ∀ u ∈ t.toList, ¬ u.Final := by
    refine ⟨some ⟨k, String.ofList l, o⟩, by simp [Lexeme.token?, hmeaning, Except.map], ?_⟩
    intro u hu hfinal
    obtain rfl : u = ⟨k, String.ofList l, o⟩ := by simpa using hu
    simp only [Token.Final, Token.is, Bool.and_eq_true, beq_iff_eq] at hfinal
    rcases hfinal with ⟨-, htext⟩ | ⟨-, htext⟩
    · have hl : l = [')'] := String.ofList_injective htext
      exact hmem ')' (by rw [hl]; decide) (by decide)
    · have hl : l = ['e', 'n', 'd'] := String.ofList_injective htext
      exact hmem 'n' (by rw [hl]; decide) (by decide)
  have hk := Lexeme.ofKind_of_first? hfirst
  cases k with
  | atom => exact absurd hk (hquoted '\'' (by decide))
  | string => exact absurd hk (hquoted '"' (by decide))
  | char | float | integer | var | name | punct => exact hplain rfl

/-- A text without special characters has no tokens, or none that ends a module. -/
theorem scan_pieces (h : ∀ c ∈ cs, c ∉ Lexeme.specials) (o : Nat) :
    (∃ n c, scan o cs = .error (.unexpected n c)) ∨
      ∃ ts, scan o cs = .ok ts ∧ ∀ t ∈ ts, ¬ t.Final := by
  -- What follows a lexeme is shorter and has no special characters either.
  induction hn : cs.length using Nat.strongRecOn generalizing cs o with
  | ind n ih =>
    cases hfirst : Lexeme.first? cs with
    | none =>
      cases cs with
      | nil => exact .inr ⟨[], scan_nil o, by simp⟩
      | cons c cs => exact .inl ⟨o, c, scan_of_none hfirst⟩
    | some r =>
      obtain ⟨lx, rest⟩ := r
      obtain ⟨t, htoken, ht⟩ := exists_token_of_pieces h hfirst o
      have hrest : ∀ c ∈ rest, c ∉ Lexeme.specials := by
        intro c hc
        exact h c (by rw [(Lexeme.first?_eq hfirst).1]; exact List.mem_append_right _ hc)
      rw [scan_of_first? hfirst htoken]
      have hlt := hn ▸ Lexeme.length_lt_of_first? hfirst
      rcases ih _ hlt hrest (o + lx.spelling.length) rfl with ⟨m, c, hscan⟩ | ⟨ts, hscan, hts⟩
      · exact .inl ⟨m, c, by rw [hscan]; rfl⟩
      · refine .inr ⟨t.toList ++ ts, by rw [hscan]; rfl, ?_⟩
        exact List.forall_mem_append.2 ⟨ht, hts⟩

/-- Not all of a token of the text is among its first `n` characters. -/
inductive Loses : List Char → Nat → Prop
  | here {cs l rest : List Char} {k : Kind} {n : Nat} :
      Lexeme.first? cs = some (⟨some k, l⟩, rest) → n < l.length → Loses cs n
  | there {cs rest : List Char} {lx : Lexeme} {n : Nat} :
      Lexeme.first? cs = some (lx, rest) → Loses rest (n - lx.spelling.length) → Loses cs n

/-- A token that begins after the first `n` characters is not among them. -/
theorem Scans.loses {n : Nat} {t : Token} (h : Scans o cs ts) (ht : t ∈ ts)
    (hn : o + n ≤ t.offset) : Loses cs n := by
  induction h generalizing n with
  | nil => cases ht
  | @next o cs rest lx u ts hfirst htoken hscans ih =>
    rcases List.mem_append.1 ht with hu | hts
    · obtain rfl := Option.mem_toList.1 hu
      obtain ⟨hkind, -, hoffset⟩ := Lexeme.token?_eq_some.1 htoken
      obtain ⟨k, l⟩ := lx
      obtain rfl : k = some t.kind := hkind
      have hlength : 0 < l.length := List.length_pos_iff.2 (Lexeme.first?_eq hfirst).2
      exact .here hfirst (by omega)
    · obtain ⟨-, -, -, -, -, hle⟩ := hscans.exists_lexeme hts
      exact .there hfirst (ih hts (by omega))

/-- What is left of the tokens that are not whole: nothing that ends a module, or the beginning of a
word. -/
def Remnant (kept lost : List Token) : Prop :=
  (∀ t ∈ kept, ¬ t.Final) ∨
    ∃ t u us, kept = [t] ∧ lost = u :: us ∧ t.kind = .name ∧ u.kind = .name ∧
      t.text.toList <+: u.text.toList ∧ t.text ≠ u.text

theorem exists_of_token? {k : Kind} {t : Option Token}
    (h : (Lexeme.mk (some k) l).token? o = .ok t) :
    ∃ u, t = some u ∧ u.kind = k ∧ Lexeme.meaning k l = .ok u.text := by
  cases hmeaning : Lexeme.meaning k l with
  | error e => simp [Lexeme.token?, hmeaning, Except.map] at h
  | ok text =>
    refine ⟨⟨k, text, o⟩, ?_, rfl, rfl⟩
    simpa [Lexeme.token?, hmeaning, Except.map] using h.symm

theorem Scans.ne_nil_of_loses {n : Nat} (h : Scans o cs ts) (hloses : Loses cs n) : ts ≠ [] := by
  induction h generalizing n with
  | nil =>
    cases hloses with
    | here hfirst | there hfirst => cases hfirst
  | next hfirst htoken _ ih =>
    cases hloses with
    | here hfirst' =>
      obtain ⟨rfl, rfl⟩ := Prod.mk.inj (Option.some.inj (hfirst.symm.trans hfirst'))
      obtain ⟨u, rfl, -⟩ := exists_of_token? htoken
      exact List.cons_ne_nil u _
    | there hfirst' hrest =>
      obtain ⟨rfl, rfl⟩ := Prod.mk.inj (Option.some.inj (hfirst.symm.trans hfirst'))
      simp [ih hrest]

theorem scan_of_whole {k : Kind} {p : List Char} (h : Lexeme.first? p = some (⟨some k, p⟩, []))
    (hk : k = .var ∨ k = .name) : scan o p = .ok [⟨k, String.ofList p, o⟩] := by
  have htoken : (Lexeme.mk (some k) p).token? o = .ok (some ⟨k, String.ofList p, o⟩) := by
    rcases hk with rfl | rfl <;> rfl
  rw [scan_of_first? h htoken, scan_nil]
  rfl

/-- What is left of a lexeme that is cut short. -/
theorem scan_lexeme_cut {lx : Lexeme} {t : Option Token} {p : List Char}
    (h : Lexeme.first? (p ++ q) = some (lx, rest)) (htoken : lx.token? o = .ok t)
    (hlength : p.length < lx.spelling.length) (ts : List Token) :
    (∃ n c, scan o p = .error (.unexpected n c)) ∨
      ∃ kept, scan o p = .ok kept ∧ Remnant kept (t.toList ++ ts) := by
  rcases p with _ | ⟨c, p⟩
  · exact .inr ⟨[], scan_nil o, .inl (by simp)⟩
  have hne : c :: p ≠ [] := List.cons_ne_nil c p
  obtain ⟨_ | k, l⟩ := lx
  · have hblank := Scanner.blank_of_append (Lexeme.blank_of_first? h) hne (Nat.le_of_lt hlength)
    have hfirst : Lexeme.first? (c :: p) = some (⟨none, c :: p⟩, []) := by
      rw [Lexeme.first?, hblank]
    refine .inr ⟨[], ?_, .inl (by simp)⟩
    rw [scan_of_first? hfirst rfl, scan_nil]
    rfl
  cases Lexeme.remains h hne hlength with
  | quoted hnone => exact .inl ⟨o, c, scan_of_none hnone⟩
  | pieces hpieces =>
    rcases scan_pieces hpieces o with herror | ⟨kept, hscan, hkept⟩
    · exact .inl herror
    · exact .inr ⟨kept, hscan, .inl hkept⟩
  | word hword hk =>
    refine .inr ⟨_, scan_of_whole hword hk, ?_⟩
    rcases hk with rfl | rfl
    · -- A variable ends nothing, but a shorter name may be a keyword.
      refine .inl fun t ht hfinal => ?_
      rw [List.mem_singleton.1 ht] at hfinal
      rcases hfinal with hfinal | hfinal <;> cases hfinal
    · obtain ⟨u, rfl, hkind, hmeaning⟩ := exists_of_token? htoken
      have htext : String.ofList l = u.text := Except.ok.inj hmeaning
      refine .inr ⟨_, u, ts, rfl, rfl, rfl, hkind, ?_, ?_⟩
      · rw [← htext, String.toList_ofList, String.toList_ofList]
        exact List.prefix_of_prefix_length_le (List.prefix_append _ q)
          ((Lexeme.first?_eq h).1 ▸ List.prefix_append l rest) (Nat.le_of_lt hlength)
      · intro heq
        have hl : c :: p = l := String.ofList_injective (heq.trans htext.symm)
        rw [hl] at hlength
        exact Nat.lt_irrefl _ hlength

/-- The tokens of the beginning of a text are its first tokens and what is left of the next one. -/
theorem Scans.cut (h : Scans o cs ts) {p : List Char} (hcs : cs = p ++ q) :
    (∃ n c, scan o p = .error (.unexpected n c)) ∨
      ∃ ts₁ ts₂ kept, ts = ts₁ ++ ts₂ ∧ scan o p = .ok (ts₁ ++ kept) ∧ Remnant kept ts₂ ∧
        (Loses cs p.length → ts₂ ≠ []) := by
  induction h generalizing p with
  | nil =>
    obtain ⟨rfl, rfl⟩ := List.append_eq_nil_iff.1 hcs.symm
    exact .inr ⟨[], [], [], rfl, scan_nil _, .inl (by simp), Scans.ne_nil_of_loses (.nil (o := 0))⟩
  | @next o cs rest lx t ts hfirst htoken hscans ih =>
    obtain ⟨hsplit, -⟩ := Lexeme.first?_eq hfirst
    by_cases hlength : lx.spelling.length ≤ p.length
    · -- The lexeme is whole.
      obtain ⟨p', rfl⟩ : lx.spelling <+: p :=
        List.prefix_of_prefix_length_le (hsplit ▸ List.prefix_append lx.spelling rest)
          (hcs ▸ List.prefix_append p q) hlength
      have hrest : rest = p' ++ q := by
        rw [hcs, List.append_assoc] at hsplit
        exact (List.append_cancel_left hsplit).symm
      have hfirst' : Lexeme.first? (lx.spelling ++ p') = some (lx, p') :=
        Lexeme.first?_of_append (by rw [← hcs, hfirst, hrest])
      rw [scan_of_first? hfirst' htoken]
      rcases ih hrest with ⟨n, c, hscan⟩ | ⟨ts₁, ts₂, kept, rfl, hscan, hremnant, hloses⟩
      · exact .inl ⟨n, c, by rw [hscan]; rfl⟩
      · refine .inr ⟨t.toList ++ ts₁, ts₂, kept, by simp, ?_, hremnant, fun h => hloses ?_⟩
        · rw [hscan]
          simp [Except.map]
        cases h with
        | here hk hlt =>
          obtain ⟨rfl, -⟩ := Prod.mk.inj (Option.some.inj (hfirst.symm.trans hk))
          exact absurd hlt (Nat.not_lt.2 hlength)
        | there hlx hlost =>
          obtain ⟨rfl, rfl⟩ := Prod.mk.inj (Option.some.inj (hfirst.symm.trans hlx))
          rwa [List.length_append, Nat.add_sub_cancel_left] at hlost
    · -- The lexeme is cut short, and all the tokens are lost.
      rcases scan_lexeme_cut (hcs ▸ hfirst) htoken (Nat.not_le.1 hlength) ts with
        herror | ⟨kept, hscan, hremnant⟩
      · exact .inl herror
      · exact .inr ⟨[], t.toList ++ ts, kept, rfl, hscan, hremnant,
          (hscans.next hfirst htoken).ne_nil_of_loses⟩

end TokenStream

/-! ## Whole texts -/

theorem tokensOfText_eq_ok {file : Option String} {text : String} {stream : TokenStream} :
    tokensOfText file text = .ok stream ↔
      TokenStream.Scans 0 text.toList stream.tokens ∧ stream.length = text.toList.length := by
  rw [← TokenStream.scan_eq_ok, tokensOfText, TokenStream.ofText]
  obtain ⟨ts, length⟩ := stream
  cases TokenStream.scan 0 text.toList with
  | error e =>
    constructor
    · intro h
      cases h
    · rintro ⟨h, -⟩
      cases h
  | ok ts' =>
    constructor
    · intro h
      cases h
      exact ⟨rfl, rfl⟩
    · rintro ⟨h, rfl⟩
      cases h
      rfl

end CallGraph
