import CallGraph.Proofs.Files
import CallGraph.Proofs.Run.Effects

/-!
What the tools do in a world. Of compiling and of drawing it is told which outcomes they have and
which files they leave. A program that may not be run, and one that writes what is not text, have no
outcome: these are faults.
-/

namespace CallGraph

/-- What can be seen of a world but the log. -/
structure Scene where
  files : Entry
  tools : Toolbox
  commands : List Command

def World.scene (w : World) : Scene := ⟨w.files, w.tools, w.commands⟩

namespace World

theorem has_log (level : LogLevel) (message : String) :
    Has scene (log level message) fun v _ v' => v' = v where
  sound hrun := by
    cases hrun
    rfl
  complete h := ⟨_, rfl, h.symm⟩

theorem has_start (c : Command) :
    Has scene (start c) fun v _ v' => v' = { v with commands := v.commands ++ [c] } where
  sound hrun := by
    cases hrun
    rfl
  complete h := ⟨_, rfl, h.symm⟩

theorem change_run (f : Entry → Except Fault Entry) (w : World) :
    (change f).run w =
      match f w.files with
      | .ok files => (.ok (), { w with files })
      | .error e => (.error e, w) := by
  rw [change, run_bind]
  change (match f w.files with | .ok _ => _ | .error _ => _ : WorldM Unit).run w = _
  cases f w.files <;> rfl

theorem has_change (f : Entry → Except Fault Entry) :
    Has scene (change f) fun v _ v' => ∃ files, f v.files = .ok files ∧ v' = { v with files } where
  sound := by
    intro w w' _ hrun
    rw [change_run] at hrun
    cases hf : f w.files with
    | ok files =>
      rw [hf] at hrun
      cases hrun
      exact ⟨files, hf, rfl⟩
    | error e =>
      rw [hf] at hrun
      cases hrun
  complete := by
    rintro w _ _ ⟨files, hf, rfl⟩
    change f w.files = .ok files at hf
    exact ⟨{ w with files }, by rw [change_run, hf], rfl⟩

theorem has_entryAt (p : Path) :
    Has scene ( entry? p) fun v e v' => v.files.at? p = .ok e ∧ v' = v := by
  refine Has.get_bind (S := fun (v₀ : Scene) v e v' => v₀.files.at? p = .ok e ∧ v' = v) fun w => ?_
  have hw : w.scene.files = w.files := rfl
  rw [hw]
  cases w.files.at? p with
  | ok e => exact Has.pure_of fun v e' => by simp [eq_comm]
  | error e => exact Has.throw_of _ fun v e' v' => by simp

end World

/-! ## Compiling -/

/-- The files with a product at a path. -/
def Entry.leave (files : Entry) (p : Path) : Product → Except Fault Entry
  | .file bytes => files.write p bytes
  | .dir => files.makeDir p

theorem World.leave_run (p : Path) (product : Product) (w : World) :
    (leave p product).run w =
      match w.files.leave p product with
      | .ok files => (.ok (), { w with files })
      | .error e => (.error e, w) := by
  cases product with
  | file bytes => exact change_run (·.write p bytes) w
  | dir => exact change_run (·.makeDir p) w

/-- How a run of the compiler ends, and which files it leaves. Only one that ends by itself leaves
something, and it does not report success if that has no place. -/
inductive Behaviour.RunsTo (b : Behaviour) (core : Path) (files : Entry) : Ending → Entry → Prop
  | bare (h : b.product = none) : RunsTo b core files b.ending files
  | cut (h : b.ending.isOwn = false) : RunsTo b core files b.ending files
  | left {product : Product} {files' : Entry} (hown : b.ending.isOwn = true)
    (hproduct : b.product = some product) (hleave : files.leave core product = .ok files') :
    RunsTo b core files b.ending files'
  | displaced {product : Product} {fault : Fault} (hown : b.ending.isOwn = true)
    (hproduct : b.product = some product) (hleave : files.leave core product = .error fault) :
    RunsTo b core files b.ending.unplaced files

/-- How the compiler ends on a source, and which files it leaves. -/
abbrev Toolbox.Ends (tools : Toolbox) (source : Path) (files : Entry) (ending : Ending)
    (files' : Entry) : Prop :=
  (tools.compiling source.text).RunsTo (World.corePath source.parent source) files ending files'

theorem Behaviour.runsTo_iff_of_idle {b : Behaviour} {core : Path} {files files' : Entry}
    {ending : Ending} (hidle : b.product = none ∨ b.ending.isOwn = false) :
    b.RunsTo core files ending files' ↔ ending = b.ending ∧ files' = files := by
  constructor
  · intro hruns
    cases hruns with
    | bare | cut => exact ⟨rfl, rfl⟩
    | left hown hproduct | displaced hown hproduct =>
      rcases hidle with hnone | hcut
      · rw [hnone] at hproduct
        cases hproduct
      · rw [hcut] at hown
        cases hown
  · rintro ⟨rfl, rfl⟩
    rcases hidle with hnone | hcut
    · exact .bare hnone
    · exact .cut hcut

namespace World

/-- How a process that ends by itself leaves its product. -/
theorem has_tryLeave (core : Path) (product : Product) {ending : Ending}
    (hown : ending.isOwn = true) :
    Has scene
      (try
        leave core product
        return ending
      catch _ => return ending.unplaced)
      fun v ending' v' => ∃ files,
        Behaviour.RunsTo ⟨ending, some product⟩ core v.files ending' files ∧
          v' = { v with files } where
  sound := by
    intro w w' ending' hrun
    rw [run_bind, run_tryCatch, run_bind, leave_run] at hrun
    cases hleave : w.files.leave core product with
    | ok files =>
      rw [hleave] at hrun
      cases hrun
      exact ⟨files, .left hown rfl hleave, rfl⟩
    | error e =>
      rw [hleave] at hrun
      cases hrun
      exact ⟨w.files, .displaced hown rfl hleave, rfl⟩
  complete := by
    rintro w ending' _ ⟨files, hruns, rfl⟩
    cases hruns with
    | bare h => cases h
    | cut h =>
      change ending.isOwn = false at h
      rw [hown] at h
      cases h
    | left hown hproduct hleave =>
      cases hproduct
      refine ⟨{ w with files }, ?_, rfl⟩
      change w.files.leave core product = .ok files at hleave
      rw [run_bind, run_tryCatch, run_bind, leave_run, hleave]
      rfl
    | displaced hown hproduct hleave =>
      cases hproduct
      refine ⟨w, ?_, rfl⟩
      change w.files.leave core product = _ at hleave
      rw [run_bind, run_tryCatch, run_bind, leave_run, hleave]
      rfl

/-- What a run of the compiler does, once it has been recorded. -/
theorem has_behaviour (b : Behaviour) (core : Path) :
    Has scene
      (match b.ending.isOwn, b.product with
      | true, some product =>
        try
          leave core product
          return b.ending
        catch _ => return b.ending.unplaced
      | _, _ => return b.ending)
      fun v ending v' => ∃ files, b.RunsTo core v.files ending files ∧ v' = { v with files } := by
  have hidle (h : b.product = none ∨ b.ending.isOwn = false) :
      Has scene (return b.ending : WorldM Ending) fun v ending v' =>
        ∃ files, b.RunsTo core v.files ending files ∧ v' = { v with files } := by
    refine (Has.pure _).congr fun v ending v' => ?_
    simp only [Behaviour.runsTo_iff_of_idle h]
    constructor
    · rintro ⟨rfl, rfl⟩
      exact ⟨v'.files, ⟨rfl, rfl⟩, rfl⟩
    · rintro ⟨files, ⟨rfl, rfl⟩, rfl⟩
      exact ⟨rfl, rfl⟩
  obtain ⟨ending, product⟩ := b
  cases hown : ending.isOwn with
  | false => exact hidle (.inr hown)
  | true =>
    cases product with
    | none => exact hidle (.inl rfl)
    | some product => exact has_tryLeave core product hown

theorem has_runCompiler (c : Command) (source : Path) :
    Has scene (runCompiler c source) fun v ending v' => ∃ files,
      v.tools.Ends source v.files ending files ∧
        v' = { v with files, commands := v.commands ++ [c] } := by
  have hrest := Has.get_bind
    (S := fun (v₀ v : Scene) ending v' => ∃ files,
      v₀.tools.Ends source v.files ending files ∧ v' = { v with files })
    fun (w : World) => has_behaviour (w.tools.compiling source.text) (corePath source.parent source)
  refine ((has_start c).bind fun _ => hrest).congr fun v ending v' => ?_
  constructor
  · rintro ⟨_, _, rfl, h⟩
    exact h
  · intro h
    exact ⟨(), _, rfl, h⟩

end World

namespace Compiler

/-- What is made of the ending of the compiler, when these are the files. -/
inductive Judges (c : Compiler) (source : Path) (files : Entry) :
    Ending → Except CompileError Path → Prop
  | timedOut :
    Judges c source files .timedOut
      (.error ⟨source.text, none, "erlc timed out after " ++ c.timeout.text ++ "s"⟩)
  | missing :
    Judges c source files .missing (.error ⟨source.text, none, c.executable ++ " not found"⟩)
  | failed {status : Int} {output errors : Option String} (hstatus : status ≠ 0) :
    Judges c source files (.exited status output errors)
      (.error ⟨source.text, some status, lastChars outputLimit (firstText [errors, output])⟩)
  | produced {output errors : Option String} {e : Entry}
    (hentry : files.at? (World.corePath source.parent source) = .ok (some e)) :
    Judges c source files (.exited 0 output errors) (.ok (World.corePath source.parent source))
  | unproduced {output errors : Option String}
    (hentry : files.at? (World.corePath source.parent source) = .ok none) :
    Judges c source files (.exited 0 output errors)
      (.error ⟨source.text, some 0,
        "erlc did not produce " ++ (World.corePath source.parent source).text⟩)

/-- What compiling a source gives, and which files it leaves. -/
def Compiles (c : Compiler) (tools : Toolbox) (source : Path) (files : Entry)
    (result : Except CompileError Path) (files' : Entry) : Prop :=
  ∃ ending, tools.Ends source files ending files' ∧ c.Judges source files' ending result

/-- After an exit with status zero the output is looked for. -/
theorem has_lookFor (c : Compiler) (source : Path) (output errors : Option String) :
    Has World.scene
      (do
        let path := World.corePath source.parent source
        if (← World.entry? path).isSome then return .ok path
        else return .error ⟨source.text, some 0, "erlc did not produce " ++ path.text⟩)
      fun v result v' => c.Judges source v.files (.exited 0 output errors) result ∧ v' = v := by
  let path := World.corePath source.parent source
  let verdict (e : Option Entry) : Except CompileError Path :=
    if e.isSome then .ok path
    else .error ⟨source.text, some 0, "erlc did not produce " ++ path.text⟩
  refine ((World.has_entryAt path).bind (S := fun e v result v' => result = verdict e ∧ v' = v)
    fun e => ?_).congr fun v result v' => ?_
  · cases e with
    | none => exact Has.pure _
    | some e => exact Has.pure _
  · constructor
    · rintro ⟨e, v₁, ⟨hentry, rfl⟩, rfl, rfl⟩
      cases e with
      | none => exact ⟨.unproduced hentry, rfl⟩
      | some e => exact ⟨.produced hentry, rfl⟩
    · rintro ⟨hjudges, rfl⟩
      cases hjudges with
      | failed h => exact absurd rfl h
      | produced hentry => exact ⟨_, _, ⟨hentry, rfl⟩, rfl, rfl⟩
      | unproduced hentry => exact ⟨_, _, ⟨hentry, rfl⟩, rfl, rfl⟩

theorem has_launch (c : Compiler) (source : Path) :
    Has World.scene (c.launch source) fun v ending v' => ∃ files,
      v.tools.Ends source v.files ending files ∧
        v' = { v with files, commands := v.commands ++ [c.command source] } :=
  Has.silent_bind (World.has_log _ _) (World.has_runCompiler _ source)

theorem has_judge (c : Compiler) (source : Path) (ending : Ending) :
    Has World.scene (c.judge source ending) fun v result v' =>
      c.Judges source v.files ending result ∧ v' = v := by
  cases ending with
  | timedOut =>
    refine Has.pure_of fun v result => ⟨?_, ?_⟩
    · rintro ⟨⟩
      rfl
    · rintro rfl
      exact .timedOut
  | missing =>
    refine Has.pure_of fun v result => ⟨?_, ?_⟩
    · rintro ⟨⟩
      rfl
    · rintro rfl
      exact .missing
  | denied | garbled => exact Has.throw_of _ fun v result v' h => by cases h.1
  | exited status output errors =>
    by_cases hstatus : status = 0
    · subst hstatus
      exact c.has_lookFor source output errors
    · have hif : (status != 0) = true := bne_iff_ne.2 hstatus
      simp only [judge, hif]
      refine Has.pure_of fun v result => ⟨?_, ?_⟩
      · intro h
        cases h with
        | failed => rfl
        | produced | unproduced => exact absurd rfl hstatus
      · rintro rfl
        exact .failed hstatus

theorem has_compile (c : Compiler) (source : Path) :
    Has World.scene (c.compile source) fun v result v' =>
      ∃ files, c.Compiles v.tools source v.files result files ∧
        v' = { v with files, commands := v.commands ++ [c.command source] } := by
  refine ((c.has_launch source).bind (c.has_judge source)).congr fun v result v' => ?_
  constructor
  · rintro ⟨ending, _, ⟨files, hruns, rfl⟩, hjudges, rfl⟩
    exact ⟨files, ⟨ending, hruns, hjudges⟩, rfl⟩
  · rintro ⟨files, ⟨ending, hruns, hjudges⟩, rfl⟩
    exact ⟨ending, _, ⟨files, hruns, rfl⟩, hjudges, rfl⟩

end Compiler

/-! ## Drawing and searching -/

/-- The exit status that an ending gives, if the program may be run and writes text. -/
def Ending.status? : Ending → Option (Option Int)
  | .exited status _ _ => some (some status)
  | .timedOut | .missing => some none
  | .denied | .garbled => none

theorem World.has_runLayout (c : Command) :
    Has scene (runLayout c) fun v ending v' =>
      ending = v.tools.layout ∧ v' = { v with commands := v.commands ++ [c] } := by
  refine ((has_start c).bind fun _ => Has.get_bind
    (S := fun (v₀ v : Scene) ending v' => ending = v₀.tools.layout ∧ v' = v)
    fun (w : World) => Has.pure w.tools.layout).congr fun v ending v' => ?_
  constructor
  · rintro ⟨_, _, rfl, h⟩
    exact h
  · intro h
    exact ⟨(), _, rfl, h⟩

theorem Layout.has_draw (l : Layout) (graph image : String) :
    Has World.scene (l.draw graph image) fun v status v' =>
      v.tools.layout.status? = some status ∧
        v' = { v with commands := v.commands ++ [l.command graph image] } := by
  refine Has.silent_bind (World.has_log _ _) (((World.has_runLayout _).bind
    (S := fun ending v status v' => ending.status? = some status ∧ v' = v)
    fun ending => ?_).congr fun v status v' => ?_)
  · cases ending with
    | timedOut | missing =>
      exact Has.silent_bind (World.has_log _ _) (Has.pure_of fun v status => by
        simp [Ending.status?, eq_comm])
    | denied | garbled => exact Has.throw_of _ fun v status v' => by simp [Ending.status?]
    | exited n output errors =>
      have hreturn : Has World.scene (return some n : WorldM (Option Int)) fun v status v' =>
          (Ending.exited n output errors).status? = some status ∧ v' = v :=
        Has.pure_of fun v status => by simp [Ending.status?, eq_comm]
      by_cases hn : n = 0
      · subst hn
        exact hreturn
      · have hif : (n != 0) = true := bne_iff_ne.2 hn
        simp only [hif]
        exact Has.silent_bind (World.has_log _ _) hreturn
  · constructor
    · rintro ⟨ending, _, ⟨rfl, rfl⟩, hstatus, rfl⟩
      exact ⟨hstatus, rfl⟩
    · rintro ⟨hstatus, rfl⟩
      exact ⟨_, _, ⟨rfl, rfl⟩, hstatus, rfl⟩

/-- Sources are looked for in a directory only, and only if its subdirectories are not nested too
deeply. -/
theorem Sources.has_discover (limit : Nat) (root : Path) :
    Has World.scene (discover limit root) fun v sources v' =>
      (∃ rows, v.files.at? root = .ok (some (.dir rows)) ∧
        rowsDepth (room root) root rows ≤ limit ∧ sources = (below root rows).sources) ∧ v' = v := by
  refine ((World.has_entryAt root).bind
    (S := fun e v sources v' =>
      (∃ rows, e = some (.dir rows) ∧ rowsDepth (room root) root rows ≤ limit ∧
        sources = (below root rows).sources) ∧ v' = v)
    fun e => ?_).congr fun v sources v' => ?_
  · rcases e with _ | _ | rows
    · exact Has.throw_of _ fun v sources v' => by simp
    · exact Has.throw_of _ fun v sources v' => by simp
    · by_cases hdepth : limit < rowsDepth (room root) root rows
      · simp only [hdepth, if_true]
        exact Has.throw_of _ fun v sources v' => by simp [Nat.not_le.2 hdepth]
      · simp only [hdepth, if_false]
        exact Has.silent_bind (World.has_log _ _) (Has.pure_of fun v sources => by
          simp [Nat.le_of_not_lt hdepth])
  · constructor
    · rintro ⟨e, _, ⟨hentry, rfl⟩, ⟨rows, rfl, hsources⟩, rfl⟩
      exact ⟨⟨rows, hentry, hsources⟩, rfl⟩
    · rintro ⟨⟨rows, hentry, hsources⟩, rfl⟩
      exact ⟨_, _, ⟨hentry, rfl⟩, ⟨rows, rfl, hsources⟩, rfl⟩

end CallGraph
