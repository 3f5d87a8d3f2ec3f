import CallGraph.Proofs.Lexing.Lines
import CallGraph.Proofs.Parsing.StraightLine

/-!
Expressions in their contexts. An expression that is read on its own is read as the same expression in
parentheses, before annotations, and as the body of a function of a module, where something follows it
on the next line. What the parsers choose at the end of a text they also choose before the token that
comes there.
-/

namespace CallGraph

open CallGraph.Parser TokenStream
open Text (isBlank)
open Word (mark keyword)

/-- A character that ends with its caret. Whatever follows it in a text belongs to it. -/
def Word.caret : Word := ⟨.char, "$\\^"⟩

/-- The words of a function without parameters, with the words of its body. -/
def Word.function (body : List Word) : List Word :=
  ⟨.atom, "f"⟩ :: mark "/" :: ⟨.integer, "0"⟩ :: mark "=" :: keyword "fun" :: mark "(" :: mark ")" ::
    mark "->" :: body

/-! ## Texts put together -/

/-- The characters are cut into tokens with these words, wherever they stand. -/
def Cuts (cs : List Char) (ws : List Word) : Prop :=
  ∀ o, ∃ ts, Scans o cs ts ∧ ts.map Token.word = ws

namespace Cuts

variable {cs rest u : List Char} {ws vs : List Word}

theorem of_scans {ts : List Token} (h : Scans 0 cs ts) : Cuts cs (ts.map Token.word) := by
  intro o
  refine ⟨ts.map (Token.shift o), h.shift o, ?_⟩
  rw [List.map_map]
  rfl

theorem nil : Cuts [] [] := fun _ => ⟨[], .nil, rfl⟩

theorem next {w : Word} {l : List Char} (hfirst : Lexeme.first? cs = some (⟨some w.kind, l⟩, rest))
    (hmeaning : Lexeme.meaning w.kind l = .ok w.text) (h : Cuts rest ws) : Cuts cs (w :: ws) := by
  intro o
  obtain ⟨ts, hts, rfl⟩ := h (o + l.length)
  have htoken : Lexeme.token? ⟨some w.kind, l⟩ o = .ok (some ⟨w.kind, w.text, o⟩) := by
    simp [Lexeme.token?, hmeaning, Except.map]
  exact ⟨_, .next hfirst htoken hts, rfl⟩

theorem blank {c : Char} (hc : isBlank c = true) (h : Cuts cs ws) : Cuts (c :: cs) ws := by
  intro o
  obtain ⟨ts, hts, hws⟩ := h (o + 1)
  exact ⟨ts, hts.blank hc, hws⟩

/-- Another text on the next line. -/
theorem append_line (h : Cuts cs ws) (hlast : ws.getLast? ≠ some Word.caret) (hu : Cuts u vs) :
    Cuts (cs ++ '\n' :: u) (ws ++ vs) := by
  intro o
  obtain ⟨ts, hts, rfl⟩ := h o
  obtain ⟨us, hus, rfl⟩ := hu (o + cs.length + 1)
  refine ⟨ts ++ us, hts.append_line ?_ hus, List.map_append⟩
  rintro t ht ⟨hkind, htext⟩
  rw [List.getLast?_map, Option.mem_def.1 ht] at hlast
  exact hlast (by simp [Token.word, hkind, htext, Word.caret])

theorem openParen (h : Cuts cs ws) : Cuts ('(' :: cs) (mark "(" :: ws) := by
  refine next (l := ['(']) ?_ rfl h
  cases cs <;> rfl

theorem openAnnotations (h : Cuts cs ws) :
    Cuts ('-' :: '|' :: ' ' :: '[' :: cs) (mark "-|" :: mark "[" :: ws) := by
  refine next (l := ['-', '|']) rfl rfl (.blank rfl (next (l := ['[']) ?_ rfl h))
  cases cs <;> rfl

theorem openFunction (h : Cuts cs ws) :
    Cuts ("'f'/0 = fun () -> ".toList ++ cs) (Word.function ws) := by
  refine next (l := "'f'".toList) rfl (by decide +kernel) ?_
  refine next (l := ['/']) rfl rfl ?_
  refine next (l := ['0']) rfl rfl (.blank rfl ?_)
  refine next (l := ['=']) rfl rfl (.blank rfl ?_)
  refine next (l := "fun".toList) rfl rfl (.blank rfl ?_)
  refine next (l := ['(']) rfl rfl ?_
  refine next (l := [')']) rfl rfl (.blank rfl ?_)
  exact next (l := "->".toList) rfl rfl (.blank rfl h)

end Cuts

theorem wordsOfText_eq_some_iff {text : String} {ws : List Word} :
    wordsOfText text = some ws ↔ Cuts text.toList ws := by
  constructor
  · intro h
    obtain ⟨stream, hstream, rfl⟩ := wordsOfText_eq_some h
    exact .of_scans (tokensOfText_eq_ok.1 (hstream none)).1
  · intro h
    obtain ⟨ts, hts, rfl⟩ := h 0
    rw [wordsOfText, TokenStream.ofText, scan_eq_ok.2 hts]
    rfl

/-! ## Higher limits -/

/-- What is read at a limit is read at every higher one. -/
theorem Parser.Agrees.read_of_le {α : Type} {p : Nat → Parser α} {d k : Nat} {ts : List Token}
    {r : α × List Token} (h : ∀ d n, Agrees True n id (p d) (p (d + 1))) (hdk : d ≤ k)
    (hp : p d ts = .ok r) : p k ts = .ok r := by
  induction hdk with
  | refl => exact hp
  | step _ ih => exact Agrees.read (h _) ih

/-- The same text and the same tree, at a higher limit. -/
def Reading.raise {d k : Nat} {s : Category} (r : Reading d (.phrase s)) (h : d ≤ k) :
    Reading k (.phrase s) where
  text := r.text
  words := r.words
  tree := r.tree
  cut := r.cut
  read := by
    obtain ⟨stream, hstream, hread⟩ := readText_eq_ok.1 r.read
    refine readText_eq_ok.2 ⟨stream, hstream, whole_eq_ok.2 ?_⟩
    exact Agrees.read_of_le (p := fun d => (Level.ofDepth numeralLimit d).phrase s)
      (fun d => Level.phrase_agrees numeralLimit d s) h (whole_eq_ok.1 hread)

/-! ## Parentheses -/

/-- The last token is a character that ends with its caret. -/
def EndsWithCaret (text : String) : Prop :=
  (wordsOfText text).bind List.getLast? = some Word.caret

instance (text : String) : Decidable (EndsWithCaret text) := inferInstanceAs (Decidable (_ = _))

theorem Reading.getLast?_words {d : Nat} {c : Part} (r : Reading d c) (h : ¬ EndsWithCaret r.text) :
    r.words.getLast? ≠ some Word.caret := by
  rwa [EndsWithCaret, r.cut] at h

/-- The reading of a text that is accepted as an expression. -/
theorem exists_reading {d : Nat} {e : String} {t : Ann Expr}
    (h : readText (exprOfTokens d) none e = .ok t) :
    ∃ r : Reading d (.phrase .expr), r.text = e ∧ r.tree = t := by
  obtain ⟨stream, hstream, -⟩ := readText_eq_ok.1 h
  have hcut := wordsOfText_eq_some_iff.2 (.of_scans (tokensOfText_eq_ok.1 hstream).1)
  exact ⟨⟨e, _, t, hcut, h⟩, rfl, rfl⟩

theorem readText_parens {d : Nat} (e : Reading d (.phrase .expr)) (hlast : ¬ EndsWithCaret e.text)
    (file : Option String) :
    readText (exprOfTokens (d + 1)) file ("(" ++ e.text ++ "\n)") = .ok e.tree := by
  have hcut : Cuts ("(" ++ e.text ++ "\n)").toList (mark "(" :: (e.words ++ [mark ")"])) := by
    have hclose : Cuts [')'] [mark ")"] := .next (l := [')']) rfl rfl .nil
    have hline := (wordsOfText_eq_some_iff.1 e.cut).append_line (e.getLast?_words hlast) hclose
    simpa using hline.openParen
  refine readText_of_words (wordsOfText_eq_some_iff.2 hcut) (fun ts hts => ?_) file
  rw [← List.cons_append] at hts
  obtain ⟨mid, he, hmid⟩ := spelled_append.1 hts
  simp only [spelled_cons, spelled_nil] at hmid
  obtain ⟨c, _, hc, rfl, rfl⟩ := hmid
  have hc := Token.is_of_mark hc
  have h := Level.expr_of_closing e he (.symbol hc (by decide)) (Level.closing_of_paren hc)
  rwa [List.append_nil] at h

/-! ## Annotations -/

/-- The constants that the tokens write, with commas between them. There may be none. -/
def constantsOfTokens (depth : Nat) : List Token → Except ParseFailure (List Const)
  | [] => .ok []
  | t :: ts => (items (Level.ofDepth numeralLimit depth).constant).whole (t :: ts)

namespace Level

theorem items_constant_agrees (digits d n : Nat) :
    Parser.Agrees True n id (items (ofDepth digits d).constant)
      (items (ofDepth digits (d + 1)).constant) := by
  refine (phrase_agrees digits d .const n).items.imp fun xs ys h => ?_
  rwa [List.map_id, List.map_id] at h

theorem finds_constants {d : Nat} {ts : List Token} {xs : List Const}
    (h : items (ofDepth numeralLimit d).constant ts = .ok (xs, [])) :
    Finds (.items (.element .const)) (items (ofDepth numeralLimit d).constant) (ts.map Token.word)
      xs := by
  have hl := ofDepth_steady numeralLimit d
  have hcloses : Closes (Form.items (.element .const)).Ends
      (items (ofDepth numeralLimit d).constant) := by
    refine ((closes_constant (ofDepth_stops numeralLimit d)).mono fun _ _ => trivial).items
      (steady_constant hl) fun more hmore => hmore "," (by decide)
  refine .of_alone (items_sound (constant_sound hl.sound)) hcloses ?_ h
  exact ⟨List.map Renaming.keeping.const, fun place =>
    (natural_ofDepth ⟨.keeping, place⟩ numeralLimit d).constant.items⟩

/-- A row of constants that is read on its own is read in brackets, at every limit that is not
lower. -/
theorem sequence_of_constants {d k : Nat} {ts us rest : List Token} {c : Token} {xs : List Const}
    (h : constantsOfTokens d ts = .ok xs) (hdk : d ≤ k)
    (hus : Spelled (ts.map Token.word) us (c :: rest)) (hc : c.is "]") :
    sequence (ofDepth numeralLimit k).constant "]" us = .ok (xs, rest) := by
  cases ts with
  | nil =>
    obtain rfl := Except.ok.inj h
    obtain rfl := spelled_nil.1 hus
    exact onSymbol_single_eq_ok.2 (.inl ⟨c, rest, hc, rfl, rfl⟩)
  | cons t ts =>
    have hitems := Agrees.read_of_le (p := fun d => items (ofDepth numeralLimit d).constant)
      (items_constant_agrees numeralLimit) hdk (whole_eq_ok.1 h)
    exact (finds_constants hitems).closed (by decide) hus hc

end Level

theorem readText_annotated {d d' : Nat} {cs : String} {xs : List Const} (e : Reading d (.phrase .expr))
    (hlast : ¬ EndsWithCaret e.text) (hcs : readText (constantsOfTokens d') none cs = .ok xs)
    (hlast' : ¬ EndsWithCaret cs) (hd : d' ≤ d) (file : Option String) :
    readText (exprOfTokens (d + 1)) file ("(" ++ e.text ++ "\n-| [" ++ cs ++ "\n])") =
      .ok ⟨e.tree.node, e.tree.annotations ++ xs⟩ := by
  obtain ⟨stream, hstream, hxs⟩ := readText_eq_ok.1 hcs
  have hcutRow := Cuts.of_scans (tokensOfText_eq_ok.1 hstream).1
  rw [EndsWithCaret, wordsOfText_eq_some_iff.2 hcutRow] at hlast'
  have hcut : Cuts ("(" ++ e.text ++ "\n-| [" ++ cs ++ "\n])").toList
      (mark "(" :: e.words ++ mark "-|" :: mark "[" ::
        (stream.tokens.map Token.word ++ [mark "]", mark ")"])) := by
    have hclose : Cuts [']', ')'] [mark "]", mark ")"] :=
      .next (l := [']']) rfl rfl (.next (l := [')']) rfl rfl .nil)
    have hrow := (hcutRow.append_line hlast' hclose).openAnnotations
    have hline := (wordsOfText_eq_some_iff.1 e.cut).append_line (e.getLast?_words hlast) hrow
    simpa using hline.openParen
  refine readText_of_words (wordsOfText_eq_some_iff.2 hcut) (fun ts hts => ?_) file
  obtain ⟨mid, he, hmid⟩ := spelled_append.1 hts
  simp only [spelled_cons, spelled_append, spelled_nil] at hmid
  obtain ⟨b, _, hb, rfl, o, us, ho, rfl, _, hrow, c, _, hc, rfl, c', _, hc', rfl, rfl⟩ := hmid
  have hb := Token.is_of_mark hb
  have hrow' := Level.sequence_of_constants hxs hd hrow (Token.is_of_mark hc)
  exact Level.expr_of_closing e he (.symbol hb (by decide))
    (Level.closing_of_annotations hb (Token.is_of_mark ho) hrow' (Token.is_of_mark hc'))

/-! ## Modules -/

/-- What the tokens begin a module with. It has no functions yet. -/
def headerOfTokens (depth : Nat) (ts : List Token) : Except ParseFailure Module :=
  (Level.ofDepth numeralLimit depth).header.whole ts

theorem Parser.exists_of_sequence {α : Type} {digits : Nat} {p : Parser α} {close : String}
    {ts rest : List Token} {xs : List α} (hp : Steady digits p)
    (h : sequence p close ts = .ok (xs, rest)) : ∃ c, c.is close ∧ c :: rest <:+ ts := by
  rcases onSymbol_single_eq_ok.1 h with ⟨c, us, hc, rfl, hnil⟩ | ⟨-, hitems⟩
  · obtain ⟨-, rfl⟩ := pure_eq_ok.1 hnil
    exact ⟨c, hc, List.suffix_refl _⟩
  · simp only [bind_eq_ok, expect_eq_ok, pure_eq_ok] at hitems
    obtain ⟨ys, _, hys, -, _, ⟨c, hc, rfl⟩, -, rfl⟩ := hitems
    exact ⟨c, hc, hp.items.suffix hys⟩

namespace Level

variable {l : Level} {d : Nat} {ts us rest : List Token} {m : Module}

/-- A header begins with its keyword and ends with a bracket. -/
theorem header_ends (hl : l.Steady) (h : l.header ts = .ok (m, rest)) :
    startsWith "module" ts ∧ ∃ c, c.is "]" ∧ c :: rest <:+ ts := by
  simp only [header, bind_eq_ok, expect_eq_ok, expectKind_eq_ok, pure_eq_ok] at h
  obtain ⟨-, _, ⟨k, hk, rfl⟩, name, _, ⟨n, -, -, rfl⟩, -, _, ⟨o, -, rfl⟩, exports, _, hexports, -, _,
    ⟨a, -, rfl⟩, -, m₁, ⟨o', -, rfl⟩, attributes, _, hattributes, -, rfl⟩ := h
  obtain ⟨c, hc, hsuffix⟩ := exists_of_sequence (steady_attributePair hl) hattributes
  have hrow := ((steady_export hl).sequence (s := "]") (by decide)).suffix hexports
  refine ⟨hk, c, hc, hsuffix.trans ?_⟩
  exact ((List.suffix_append [a, o'] m₁).trans hrow).trans (List.suffix_append [k, n, o] _)

theorem getLast?_of_header (hl : l.Steady) (h : l.header ts = .ok (m, [])) :
    (ts.map Token.word).getLast? ≠ some Word.caret := by
  obtain ⟨-, c, hc, us, rfl⟩ := header_ends hl h
  rw [List.map_append, List.map_singleton, List.getLast?_concat]
  intro hcaret
  have hkind := (Token.kind_text_of_word (Option.some.inj hcaret)).1
  rw [Token.is_of_kind "]" hkind (by decide)] at hc
  cases hc

theorem header_agrees (digits d n : Nat) :
    Parser.Agrees True n id (ofDepth digits d).header (ofDepth digits (d + 1)).header := by
  refine (agrees_succ digits d n).header.imp fun x y h => ?_
  rwa [Transform.unchanged_unit, Transform.unchanged_unit] at h

theorem placeless_header (digits depth : Nat) : (ofDepth digits depth).header.Placeless :=
  ⟨Renaming.keeping.unit, fun place => (natural_ofDepth ⟨.keeping, place⟩ digits depth).header⟩

/-- A header that is read on its own is read before whatever follows it, at every limit that is not
lower. -/
theorem header_of_alone {k : Nat} (h : headerOfTokens d ts = .ok m) (hdk : d ≤ k)
    (hus : Spelled (ts.map Token.word) us rest) :
    (ofDepth numeralLimit k).header us = .ok (m, rest) := by
  have hread := Agrees.read_of_le (p := fun d => (ofDepth numeralLimit d).header)
    (header_agrees numeralLimit) hdk (whole_eq_ok.1 h)
  have hcloses : Closes (fun _ => True) (ofDepth numeralLimit k).header :=
    closes_header (ofDepth_steady numeralLimit k)
  exact (placeless_header numeralLimit k).reads hcloses hread hus trivial

/-- The functions of a module follow its header. -/
theorem unit_of_header {ds : List (Ann Definition)}
    (hheader : (ofDepth numeralLimit d).header ts = .ok (m, us))
    (hds : (ofDepth numeralLimit d).definitions "end" us = .ok (ds, rest)) :
    (ofDepth numeralLimit (d + 1)).unit ts = .ok (.plain { m with definitions := ds }, rest) := by
  obtain ⟨hstart, -⟩ := header_ends (ofDepth_steady numeralLimit d) hheader
  obtain ⟨k, ts, hk, rfl⟩ := startsWith_iff.1 hstart
  have hparen : startsWith "(" (k :: ts) = false := Token.is_eq_false hk (by decide)
  refine (annotated_eq_ok_of_plain hparen).2 ⟨_, ?_, rfl⟩
  rw [bareModule_eq, bind_eq_ok]
  exact ⟨m, us, hheader, map_eq_ok.2 ⟨ds, hds, rfl⟩⟩

/-- A function without parameters, and its body. -/
theorem definition_of_body (e : Reading d (.phrase .expr))
    (hts : Spelled (Word.function e.words) ts rest) (hends : (Form.element .expr).Ends rest) :
    (ofDepth numeralLimit (d + 1)).definition ts =
      .ok (.plain ⟨⟨"f", 0⟩, .plain (.lambda [] e.tree)⟩, rest) := by
  obtain ⟨a, _, ha, rfl, h₁⟩ := spelled_cons.1 hts
  obtain ⟨s, _, hs, rfl, h₂⟩ := spelled_cons.1 h₁
  obtain ⟨n, _, hn, rfl, h₃⟩ := spelled_cons.1 h₂
  obtain ⟨q, us, hq, rfl, hfun⟩ := spelled_cons.1 h₃
  obtain ⟨hakind, hatext⟩ := Token.kind_text_of_word ha
  obtain ⟨hnkind, hntext⟩ := Token.kind_text_of_word hn
  have hname : (ofDepth numeralLimit (d + 1)).funName (a :: s :: n :: q :: us) =
      .ok (.plain ⟨"f", 0⟩, q :: us) := by
    have hparen : startsWith "(" (a :: s :: n :: q :: us) = false :=
      Token.is_of_kind "(" hakind (by decide)
    refine (annotated_eq_ok_of_plain hparen).2 ⟨_, ?_, rfl⟩
    simp only [bareFunName, bind_eq_ok, expectKind_eq_ok, expect_eq_ok, converted_eq_ok]
    have hzero : Numeral.integer (ofDepth numeralLimit d).digits "0" = .ok 0 := by
      rw [digits_ofDepth]
      rfl
    exact ⟨"f", _, ⟨a, hakind, hatext, rfl⟩, (), _, ⟨s, Token.is_of_mark hs, rfl⟩, "0", _,
      ⟨n, hnkind, hntext, rfl⟩, 0, _, ⟨hzero, rfl⟩, rfl⟩
  have hlambda := expr_of_lambda e [] hfun hends
  simp only [definition, bind_eq_ok, expect_eq_ok]
  exact ⟨_, _, hname, (), us, ⟨q, Token.is_of_mark hq, rfl⟩, _, rest, hlambda, rfl⟩

end Level

theorem Reading.cut_function {d : Nat} (e : Reading d (.phrase .expr)) :
    wordsOfText ("'f'/0 = fun () -> " ++ e.text) = some (Word.function e.words) := by
  rw [wordsOfText_eq_some_iff, String.toList_append]
  exact (wordsOfText_eq_some_iff.1 e.cut).openFunction

/-- The function without parameters of which the body is read. -/
def Reading.asFunction {d : Nat} (e : Reading d (.phrase .expr)) : Reading (d + 1) .definition where
  text := "'f'/0 = fun () -> " ++ e.text
  words := Word.function e.words
  tree := .plain ⟨⟨"f", 0⟩, .plain (.lambda [] e.tree)⟩
  cut := e.cut_function
  read := readText_of_words e.cut_function (fun _ hts => Level.definition_of_body e hts .nil) none

theorem readText_function {d h : Nat} {head : String} {m : Module} (e : Reading d (.phrase .expr))
    (hlast : ¬ EndsWithCaret e.text) (hhead : readText (headerOfTokens h) none head = .ok m)
    (hd : h ≤ d + 1) (file : Option String) :
    readText (moduleOfTokens (d + 2)) file (head ++ "\n'f'/0 = fun () -> " ++ e.text ++ "\nend") =
      .ok (.plain { m with definitions := [.plain ⟨⟨"f", 0⟩, .plain (.lambda [] e.tree)⟩] }) := by
  obtain ⟨stream, hstream, hread⟩ := readText_eq_ok.1 hhead
  have hcutHead := Cuts.of_scans (tokensOfText_eq_ok.1 hstream).1
  have hlastHead := Level.getLast?_of_header (Level.ofDepth_steady numeralLimit h)
    (whole_eq_ok.1 hread)
  have hcut : Cuts (head ++ "\n'f'/0 = fun () -> " ++ e.text ++ "\nend").toList
      (stream.tokens.map Token.word ++ Word.function (e.words ++ [keyword "end"])) := by
    have hend : Cuts "end".toList [keyword "end"] := .next (l := "end".toList) rfl rfl .nil
    have hbody := (wordsOfText_eq_some_iff.1 e.cut).append_line (e.getLast?_words hlast) hend
    simpa using hcutHead.append_line hlastHead hbody.openFunction
  refine readText_of_words (wordsOfText_eq_some_iff.2 hcut) (fun ts hts => ?_) file
  obtain ⟨mid, hheader, hds⟩ := spelled_append.1 hts
  have hwords : Spelled (([e.asFunction].map Reading.words).flatten ++ [keyword "end"]) mid [] := by
    rw [List.map_singleton, List.flatten_singleton]
    exact hds
  have hds' := (Level.finds_definitions [e.asFunction] (by decide)).reads hwords (.free rfl)
  exact Level.unit_of_header (Level.header_of_alone hread hd hheader) hds'

/-! ## Contexts -/

/-- An expression that is accepted at some limit means the same wherever it stands, at every limit
that leaves room for what stands around it: in parentheses, with constants after it that are added to
its annotations, and as the body of the only function of a module. -/
theorem expr_means_same_in_contexts {d : Nat} {e : String} {t : Ann Expr}
    (he : readText (exprOfTokens d) none e = .ok t) (hlast : ¬ EndsWithCaret e) :
    (∀ k file, d < k → readText (exprOfTokens k) file ("(" ++ e ++ "\n)") = .ok t) ∧
    (∀ d' cs xs, readText (constantsOfTokens d') none cs = .ok xs → ¬ EndsWithCaret cs →
      ∀ k file, d < k → d' < k →
        readText (exprOfTokens k) file ("(" ++ e ++ "\n-| [" ++ cs ++ "\n])") =
          .ok ⟨t.node, t.annotations ++ xs⟩) ∧
    (∀ h head m, readText (headerOfTokens h) none head = .ok m →
      ∀ k file, d + 1 < k → h < k →
        readText (moduleOfTokens k) file (head ++ "\n'f'/0 = fun () -> " ++ e ++ "\nend") =
          .ok (.plain { m with definitions := [.plain ⟨⟨"f", 0⟩, .plain (.lambda [] t)⟩] })) := by
  obtain ⟨r, rfl, rfl⟩ := exists_reading he
  refine ⟨fun k file hd => ?_, fun d' cs xs hcs hlast' k file hd hd' => ?_,
    fun h head m hhead k file hd hh => ?_⟩
  · obtain ⟨k, rfl⟩ := Nat.exists_eq_add_one_of_ne_zero (Nat.ne_zero_of_lt hd)
    exact readText_parens (r.raise (Nat.le_of_lt_succ hd)) hlast file
  · obtain ⟨k, rfl⟩ := Nat.exists_eq_add_one_of_ne_zero (Nat.ne_zero_of_lt hd)
    exact readText_annotated (r.raise (Nat.le_of_lt_succ hd)) hlast hcs hlast'
      (Nat.le_of_lt_succ hd') file
  · obtain ⟨k, rfl⟩ := Nat.exists_eq_add_of_le' (Nat.lt_of_le_of_lt (Nat.le_add_left 1 d) hd)
    have hk : d ≤ k := by omega
    exact readText_function (r.raise hk) hlast hhead (by omega) file

/-- A step and an annotated variable after it, in all the contexts. -/
theorem expr_means_same_in_contexts_step :
    readText (exprOfTokens 3) none "( do X Y -| ['a'] )" =
      .ok ⟨.seq (.plain (.var "X")) (.plain (.var "Y")), [.lit (.atom "a")]⟩ ∧
    readText (exprOfTokens 4) none ("(" ++ "( do X Y -| ['a'] )" ++ "\n)") =
      .ok ⟨.seq (.plain (.var "X")) (.plain (.var "Y")), [.lit (.atom "a")]⟩ ∧
    readText (exprOfTokens 4) none
        ("(" ++ "( do X Y -| ['a'] )" ++ "\n-| [" ++ "'b', []" ++ "\n])") =
      .ok ⟨.seq (.plain (.var "X")) (.plain (.var "Y")),
        [.lit (.atom "a"), .lit (.atom "b"), .lit .nil]⟩ ∧
    readText (moduleOfTokens 5) none
        ("module 'm' ['f'/0] attributes []" ++ "\n'f'/0 = fun () -> " ++ "( do X Y -| ['a'] )" ++
          "\nend") =
      .ok (.plain ⟨"m", [⟨"f", 0⟩], [], [.plain ⟨⟨"f", 0⟩, .plain (.lambda []
        ⟨.seq (.plain (.var "X")) (.plain (.var "Y")), [.lit (.atom "a")]⟩)⟩]⟩) := by
  have hwords : wordsOfText "( do X Y -| ['a'] )" = some [mark "(", keyword "do", ⟨.var, "X"⟩,
      ⟨.var, "Y"⟩, mark "-|", mark "[", ⟨.atom, "a"⟩, mark "]", mark ")"] := by decide +kernel
  have hread : readText (exprOfTokens 3) none "( do X Y -| ['a'] )" =
      .ok ⟨.seq (.plain (.var "X")) (.plain (.var "Y")), [.lit (.atom "a")]⟩ :=
    (Reading.ofWords (d := 3) (c := .phrase .expr) hwords _ rfl).read
  have hconstants : tokensOfText none "'b', []" = .ok ⟨[⟨.atom, "b", 0⟩, ⟨.punct, ",", 3⟩,
      ⟨.punct, "[", 5⟩, ⟨.punct, "]", 6⟩], 7⟩ := by decide +kernel
  have hheader : tokensOfText none "module 'm' ['f'/0] attributes []" = .ok ⟨[⟨.name, "module", 0⟩,
      ⟨.atom, "m", 7⟩, ⟨.punct, "[", 11⟩, ⟨.atom, "f", 12⟩, ⟨.punct, "/", 15⟩, ⟨.integer, "0", 16⟩,
      ⟨.punct, "]", 17⟩, ⟨.name, "attributes", 19⟩, ⟨.punct, "[", 30⟩, ⟨.punct, "]", 31⟩], 32⟩ := by
    decide +kernel
  obtain ⟨hparens, hannotated, hfunction⟩ := expr_means_same_in_contexts hread (by decide +kernel)
  refine ⟨hread, hparens 4 none (by decide), ?_, ?_⟩
  · exact hannotated 2 "'b', []" [.lit (.atom "b"), .lit .nil]
      (readText_eq_ok.2 ⟨_, hconstants, rfl⟩) (by decide +kernel) 4 none (by decide) (by decide)
  · exact hfunction 1 "module 'm' ['f'/0] attributes []" ⟨"m", [⟨"f", 0⟩], [], []⟩
      (readText_eq_ok.2 ⟨_, hheader, rfl⟩) 5 none (by decide) (by decide)

end CallGraph
