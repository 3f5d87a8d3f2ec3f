import CallGraph.Graph

/-!
Reading graphs. A text is cut into symbols by the lexical rules of the DOT language: names stand in
double quotes, in which a backslash escapes the next character, or are words; comments and white
space only separate. Quoting and commenting are read as they are meant, whatever follows them.
-/

namespace CallGraph.Dot

/-- What a text is cut into. -/
inductive Symbol where
  | name (text : String)
  | keyword (text : String)
  | arrow
  | equals
  | openBrace
  | closeBrace
  | openBracket
  | closeBracket
deriving DecidableEq

/-- The words that are not names, in small letters. -/
def keywords : List String := ["node", "edge", "graph", "digraph", "subgraph", "strict"]

/-- What a word is. The keywords are known in any letter case. -/
def ofWord (cs : List Char) : Symbol :=
  if String.ofList (cs.map Char.toLower) ∈ keywords then .keyword (String.ofList cs)
  else .name (String.ofList cs)

def isSpace (c : Char) : Bool := c == ' ' || c == '\t' || c == '\n' || c == '\r'

def isWordStart (c : Char) : Bool := c.isAlpha || c == '_'

def isWordChar (c : Char) : Bool := c.isAlphanum || c == '_'

/-- What a backslash and the character after it mean in quotes. -/
def unescaped (c : Char) : List Char :=
  if c = '\\' ∨ c = '"' then [c] else if c = 'n' then ['\n'] else ['\\', c]

/-- Where a reader stands. What is read of a word or of a name is kept, the latest character
first. -/
inductive Mode where
  | apart
  | word (cs : List Char)
  | quoted (cs : List Char)
  /-- After a backslash in quotes. -/
  | escape (cs : List Char)
  | dash
  | slash
  | comment
  /-- After an asterisk in a comment. -/
  | asterisk

/-- Reads a character that is not part of a symbol before it. -/
def start (c : Char) : Option (Mode × List Symbol) :=
  if isSpace c then some (.apart, [])
  else if isWordStart c then some (.word [c], [])
  else
    match c with
    | '"' => some (.quoted [], [])
    | '/' => some (.slash, [])
    | '-' => some (.dash, [])
    | '=' => some (.apart, [.equals])
    | '{' => some (.apart, [.openBrace])
    | '}' => some (.apart, [.closeBrace])
    | '[' => some (.apart, [.openBracket])
    | ']' => some (.apart, [.closeBracket])
    | _ => none

/-- Reads one character, and gives the symbols that are then complete. -/
def step : Mode → Char → Option (Mode × List Symbol)
  | .apart, c => start c
  | .word cs, c =>
    if isWordChar c then some (.word (c :: cs), [])
    else (start c).map fun r => (r.1, ofWord cs.reverse :: r.2)
  | .quoted cs, c =>
    if c = '"' then some (.apart, [.name (String.ofList cs.reverse)])
    else if c = '\\' then some (.escape cs, [])
    else some (.quoted (c :: cs), [])
  | .escape cs, c => some (.quoted ((unescaped c).reverse ++ cs), [])
  | .dash, c => if c = '>' then some (.apart, [.arrow]) else none
  | .slash, c => if c = '*' then some (.comment, []) else none
  | .comment, c => some (if c = '*' then .asterisk else .comment, [])
  | .asterisk, c =>
    some (if c = '/' then .apart else if c = '*' then .asterisk else .comment, [])

/-- Reads a text on from a mode, and gives the symbols that are then complete. -/
def run : Mode → List Char → Option (Mode × List Symbol)
  | m, [] => some (m, [])
  | m, c :: cs => (step m c).bind fun r => (run r.1 cs).map fun r' => (r'.1, r.2 ++ r'.2)

/-- What is complete when the text ends in a mode. It cannot end within quotes or a comment. -/
def Mode.finish : Mode → Option (List Symbol)
  | .apart => some []
  | .word cs => some [ofWord cs.reverse]
  | _ => none

/-- The symbols of a text. -/
def symbols (text : String) : Option (List Symbol) :=
  (run .apart text.toList).bind fun r => r.1.finish.map (r.2 ++ ·)

/-- A node or an edge, with its attributes. -/
inductive Statement where
  | node (name : String) (attributes : List (String × String))
  | edge (source target : String) (attributes : List (String × String))
deriving DecidableEq

/-- The statements that the symbols write. Nothing separates them. -/
def statements : List Symbol → Option (List Statement)
  | [] => some []
  | .name a :: .arrow :: .name b :: .openBracket :: .name k :: .equals :: .name v ::
      .closeBracket :: rest => (statements rest).map (.edge a b [(k, v)] :: ·)
  | .name a :: .arrow :: .name b :: rest => (statements rest).map (.edge a b [] :: ·)
  | .name a :: .openBracket :: .name k :: .equals :: .name v :: .closeBracket :: rest =>
    (statements rest).map (.node a [(k, v)] :: ·)
  | .name a :: rest => (statements rest).map (.node a [] :: ·)
  | _ => none

/-! ## Pieces of text -/

/-- Reading a piece of text leads from one mode to another and gives the symbols. -/
def Reads (m : Mode) (text : List Char) (m' : Mode) (ss : List Symbol) : Prop :=
  run m text = some (m', ss)

namespace Reads

variable {m m' m'' : Mode} {text text' : List Char} {ss ss' : List Symbol}

theorem nil (m : Mode) : Reads m [] m [] := rfl

theorem cons {c : Char} (hc : step m c = some (m', ss)) (h : Reads m' text m'' ss') :
    Reads m (c :: text) m'' (ss ++ ss') := by
  rw [Reads, run, hc, Option.bind_some, show run m' text = _ from h, Option.map_some]

/-- A character that completes no symbol. -/
theorem skip {c : Char} (hc : step m c = some (m', [])) (h : Reads m' text m'' ss) :
    Reads m (c :: text) m'' ss :=
  cons hc h

/-- A character that completes the symbols. -/
theorem last {c : Char} (hc : step m c = some (m', ss)) : Reads m [c] m' ss := by
  have h := cons hc (nil m')
  rwa [List.append_nil] at h

/-- Pieces are read one after the other. -/
theorem append (h : Reads m text m' ss) (h' : Reads m' text' m'' ss') :
    Reads m (text ++ text') m'' (ss ++ ss') := by
  induction text generalizing m ss with
  | nil =>
    obtain ⟨rfl, rfl⟩ : m = m' ∧ [] = ss := by simpa [Reads, run] using h
    exact h'
  | cons c text ih =>
    rw [Reads, run, Option.bind_eq_some_iff] at h
    obtain ⟨⟨n, us⟩, hstep, hrun⟩ := h
    obtain ⟨⟨n', us'⟩, htext, heq⟩ := Option.map_eq_some_iff.1 hrun
    cases heq
    rw [List.cons_append, List.append_assoc]
    exact cons hstep (ih htext)

theorem flatMap {α : Type} {text : α → List Char} {ss : α → List Symbol} (xs : List α)
    (h : ∀ x ∈ xs, Reads m (text x) m (ss x)) : Reads m (xs.flatMap text) m (xs.flatMap ss) := by
  induction xs with
  | nil => exact nil m
  | cons x xs ih =>
    obtain ⟨hx, hxs⟩ := List.forall_mem_cons.1 h
    rw [List.flatMap_cons, List.flatMap_cons]
    exact hx.append (ih hxs)

end Reads

/-! ## Quoted names -/

/-- A character of a quoted name is read as itself. -/
theorem reads_shownChar (c : Char) (cs : List Char) :
    Reads (.quoted cs) (shownChar c) (.quoted (c :: cs)) [] := by
  have hbackslash : step (.quoted cs) '\\' = some (.escape cs, []) := rfl
  by_cases hescaped : c = '\\' ∨ c = '"'
  · have hshown : shownChar c = ['\\', c] := by
      rcases hescaped with rfl | rfl <;> rfl
    have hvalue : step (.escape cs) c = some (.quoted (c :: cs), []) := by
      simp [step, unescaped, hescaped]
    rw [hshown]
    exact .skip hbackslash (.last hvalue)
  · rw [not_or] at hescaped
    by_cases hbreak : c = '\n'
    · subst hbreak
      exact .skip hbackslash (.last rfl)
    · have hshown : shownChar c = [c] := by simp [shownChar, hescaped, hbreak]
      have hplain : step (.quoted cs) c = some (.quoted (c :: cs), []) := by
        simp [step, hescaped]
      rw [hshown]
      exact .last hplain

theorem reads_shownChars (name cs : List Char) :
    Reads (.quoted cs) (name.flatMap shownChar) (.quoted (name.reverse ++ cs)) [] := by
  induction name generalizing cs with
  | nil => exact .nil _
  | cons c name ih =>
    rw [List.flatMap_cons, List.reverse_cons, List.append_assoc]
    exact (reads_shownChar c cs).append (ih (c :: cs))

/-- A quoted name is read as the name, whatever its characters are. -/
theorem reads_quote (name : String) : Reads .apart (quote name).toList .apart [.name name] := by
  have hopen : step .apart '"' = some (.quoted [], []) := rfl
  have hclose : step (.quoted (name.toList.reverse ++ [])) '"' = some (.apart, [.name name]) := by
    simp [step]
  rw [quote, String.toList_ofList]
  exact .skip hopen ((reads_shownChars name.toList []).append (.last hclose))

/-! ## Words -/

theorem start_of_isWordStart {c : Char} (hc : isWordStart c = true) :
    start c = some (.word [c], []) := by
  have hspace : isSpace c = false := by
    rw [Bool.eq_false_iff]
    intro hspace
    simp only [isSpace, Bool.or_eq_true, beq_iff_eq] at hspace
    rcases hspace with ((rfl | rfl) | rfl) | rfl <;> cases hc
  unfold start
  rw [hspace, if_neg Bool.false_ne_true, if_pos hc]

theorem reads_wordChars {cs : List Char} (hcs : ∀ c ∈ cs, isWordChar c = true) (ws : List Char) :
    Reads (.word ws) cs (.word (cs.reverse ++ ws)) [] := by
  induction cs generalizing ws with
  | nil => exact .nil _
  | cons c cs ih =>
    obtain ⟨hc, hcs⟩ := List.forall_mem_cons.1 hcs
    have hstep : step (.word ws) c = some (.word (c :: ws), []) := by rw [step, if_pos hc]
    rw [List.reverse_cons, List.append_assoc]
    exact .skip hstep (ih hcs (c :: ws))

/-- A word is read as a whole; what it is comes out where it ends. -/
theorem reads_word {name : String} (hname : isWord name = true) :
    Reads .apart name.toList (.word name.toList.reverse) [] := by
  rw [isWord] at hname
  split at hname
  case h_1 c cs hchars =>
    rw [Bool.and_eq_true, List.all_eq_true] at hname
    rw [hchars, List.reverse_cons]
    exact .skip (start_of_isWordStart hname.1) (reads_wordChars hname.2 [c])
  case h_2 => cases hname

/-! ## Comments -/

/-- Within a comment, after an asterisk or not. -/
inductive Mode.IsComment : Mode → Prop
  | comment : IsComment .comment
  | asterisk : IsComment .asterisk

/-- An asterisk in a comment is remembered. -/
theorem Mode.IsComment.step_asterisk {m : Mode} (hm : m.IsComment) :
    step m '*' = some (.asterisk, []) := by
  cases hm <;> rfl

/-- Any other character is not, if it does not close the comment. -/
theorem Mode.IsComment.step_other {m : Mode} (hm : m.IsComment) {c : Char} (hc : c ≠ '*')
    (hslash : m = .asterisk → c ≠ '/') : step m c = some (.comment, []) := by
  cases hm with
  | comment => simp [step, hc]
  | asterisk => simp [step, hc, hslash rfl]

/-- A text in which the marks are opened does not end a comment. After an asterisk it must not
begin with a slash. -/
theorem reads_openMarks (cs : List Char) {m : Mode} (hm : m.IsComment)
    (hslash : m = .asterisk → cs.head? ≠ some '/') :
    ∃ m' : Mode, m'.IsComment ∧ Reads m (openMarks cs) m' [] := by
  fun_induction openMarks cs generalizing m with
  | case1 cs ih =>
    obtain ⟨m', hm', hreads⟩ := ih .comment (by simp)
    have hblank : step .asterisk ' ' = some (.comment, []) := rfl
    exact ⟨m', hm', .skip hm.step_asterisk (.skip hblank (.skip rfl hreads))⟩
  | case2 c cs hmark ih =>
    by_cases hc : c = '*'
    · subst hc
      have hnext : cs.head? ≠ some '/' := by
        intro hhead
        obtain ⟨ds, rfl⟩ := List.head?_eq_some_iff.1 hhead
        exact hmark ds rfl rfl
      obtain ⟨m', hm', hreads⟩ := ih .asterisk fun _ => hnext
      exact ⟨m', hm', .skip hm.step_asterisk hreads⟩
    · obtain ⟨m', hm', hreads⟩ := ih .comment (by simp)
      have hstep := hm.step_other hc fun h => by simpa using hslash h
      exact ⟨m', hm', .skip hstep hreads⟩
  | case3 => exact ⟨m, hm, .nil m⟩

/-- A comment is read as nothing, whatever it says. -/
theorem reads_comment (text : String) : Reads .apart (comment text).toList .apart [] := by
  obtain ⟨m, hm, hreads⟩ := reads_openMarks text.toList .comment (by simp)
  have hopen : Reads .apart ['/', '*', ' '] .comment [] := rfl
  have hblank : step m ' ' = some (.comment, []) := hm.step_other (by decide) fun _ => by decide
  have hclose : Reads .comment ['*', '/'] .apart [] := rfl
  simp only [comment, String.toList_append, String.toList_ofList]
  exact (hopen.append hreads).append (.skip hblank hclose)

end CallGraph.Dot
