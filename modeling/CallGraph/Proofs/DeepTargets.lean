import CallGraph.Proofs.Collection
import CallGraph.Proofs.Parsing.Contexts

/-!
Texts of which a call goes to a long chain of bindings. Such a text is read however long the chain
is, as bindings in a row do not nest, but the module that is read has no report.
-/

namespace CallGraph

open Word (keyword mark)

theorem wordsOfText_written {ws : List Word} (h : ∀ w ∈ ws, w.Legible) :
    wordsOfText (String.ofList (Word.written ws)) = some ws := by
  rw [wordsOfText, String.toList_ofList, TokenStream.ofText, Word.scan_written h 0]
  exact congrArg some (Word.map_word_place 0 ws)

/-- Legible words that are read, wherever they stand, are the words of a text. -/
def Reading.written {d : Nat} {c : Part} {ws : List Word} (hws : ∀ w ∈ ws, w.Legible) (x : c.Tree)
    (hx : ∀ ts, Spelled ws ts [] → (Level.ofDepth numeralLimit d).part c ts = .ok (x, [])) :
    Reading d c where
  text := String.ofList (Word.written ws)
  words := ws
  tree := x
  cut := wordsOfText_written hws
  read := readText_of_words (wordsOfText_written hws) hx none

namespace LetChain

/-! ## Readings -/

theorem words_ok : wordsOfText "'ok'" = some [⟨.atom, "ok"⟩] := by decide +kernel

theorem words_m : wordsOfText "'m'" = some [⟨.atom, "m"⟩] := by decide +kernel

theorem words_f : wordsOfText "'f'" = some [⟨.atom, "f"⟩] := by decide +kernel

theorem words_X : wordsOfText "X" = some [⟨.var, "X"⟩] := by decide +kernel

/-- A binding of the chain. -/
def binding : Head 1 :=
  .letIn (.ofWords words_X ["X"] rfl) (.ofWords words_ok (.plain (.lit (.atom "ok"))) rfl)

def last : Reading 1 (.phrase .expr) := .ofWords words_m (.plain (.lit (.atom "m"))) rfl

def function : Reading 2 (.phrase .expr) := .ofWords words_f (.plain (.lit (.atom "f"))) rfl

def words (n : Nat) : List Word := (List.replicate n binding).flatMap Head.words ++ last.words

theorem foldr_binding (n : Nat) :
    (List.replicate n binding).foldr Head.before last.tree = .plain (Expr.letChain n) := by
  induction n with
  | zero => rfl
  | succ n ih =>
    rw [List.replicate_succ, List.foldr_cons, ih]
    rfl

theorem legible_words (n : Nat) : ∀ w ∈ words n, w.Legible := by
  have hX : IsVariable "X" := by decide
  have hbinding : ∀ w ∈ binding.words, w.Legible := by
    change ∀ w ∈ [keyword "let", ⟨.var, "X"⟩, mark "=", ⟨.atom, "ok"⟩, keyword "in"], w.Legible
    simp [Word.Legible, keyword, mark, Word.keywords, Word.marks, hX]
  intro w hw
  rcases List.mem_append.1 hw with hw | hw
  · obtain ⟨head, hhead, hw⟩ := List.mem_flatMap.1 hw
    obtain rfl := List.eq_of_mem_replicate hhead
    exact hbinding w hw
  · obtain rfl := List.mem_singleton.1 hw
    trivial

def chain (n : Nat) : Reading 2 (.phrase .expr) :=
  .written (legible_words n) (.plain (.letChain n)) fun ts hts => by
    rw [← foldr_binding]
    exact Level.expr_of_heads (List.replicate n binding) last hts

def callWords (n : Nat) : List Word :=
  keyword "call" :: (words n ++ mark ":" :: ⟨.atom, "f"⟩ :: Word.arguments [])

theorem legible_callWords (n : Nat) : ∀ w ∈ callWords n, w.Legible := by
  have hrest : ∀ w ∈ mark ":" :: ⟨.atom, "f"⟩ :: Word.arguments [], w.Legible := by
    change ∀ w ∈ [mark ":", ⟨.atom, "f"⟩, mark "(", mark ")"], w.Legible
    simp [Word.Legible, mark, Word.marks]
  intro w hw
  rcases List.mem_cons.1 hw with rfl | hw
  · simp [Word.Legible, keyword, Word.keywords]
  · exact (List.mem_append.1 hw).elim (legible_words n w) (hrest w)

def call (n : Nat) : Reading 3 (.phrase .expr) :=
  .written (legible_callWords n) (.plain (.callToChain n)) fun _ =>
    Level.expr_of_call (chain n) function []

/-! ## Texts of modules -/

/-- The text of a module of which the one function makes a call to a chain of `n` bindings. -/
def text (n : Nat) : String :=
  "module 'm' ['f'/0] attributes []" ++ "\n'f'/0 = fun () -> " ++ (call n).text ++ "\nend"

def unit (n : Nat) : Module :=
  ⟨"m", [⟨"f", 0⟩], [], [.plain ⟨⟨"f", 0⟩, .plain (.lambda [] (.plain (.callToChain n)))⟩]⟩

theorem ofText_text (n : Nat) (file : Option String) :
    Module.ofText file (text n) = .ok (.plain (unit n)) := by
  have hheader : tokensOfText none "module 'm' ['f'/0] attributes []" = .ok ⟨[⟨.name, "module", 0⟩,
      ⟨.atom, "m", 7⟩, ⟨.punct, "[", 11⟩, ⟨.atom, "f", 12⟩, ⟨.punct, "/", 15⟩, ⟨.integer, "0", 16⟩,
      ⟨.punct, "]", 17⟩, ⟨.name, "attributes", 19⟩, ⟨.punct, "[", 30⟩, ⟨.punct, "]", 31⟩], 32⟩ := by
    decide +kernel
  have hlast : ¬ EndsWithCaret (call n).text := by
    have hwords : (call n).words =
        (keyword "call" :: (words n ++ [mark ":", ⟨.atom, "f"⟩, mark "("])) ++ [mark ")"] := by
      rw [List.cons_append, List.append_assoc]
      rfl
    rw [EndsWithCaret, (call n).cut, Option.bind_some, hwords, List.getLast?_concat]
    decide
  exact readText_function ((call n).raise (show 3 ≤ 998 by decide)) hlast
    (readText_eq_ok.2 ⟨_, hheader, rfl⟩) (show 1 ≤ 999 by decide) file

theorem targets_unit (n : Nat) : (unit n).targets = (Expr.callToChain n).targets :=
  List.append_nil _

theorem report_unit {n limit : Nat} (hn : 0 < n) (h : limit ≤ 6 * n) :
    (unit n).report limit = .error .tooDeep := by
  rw [Module.report_eq, targets_unit, Expr.fits_callToChain hn h]
  rfl

end LetChain

end CallGraph
