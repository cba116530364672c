import SvgEdit.Proofs.Saving

/-!
# What commands do in a world

A job reads its input and may write a document; what it prints and tells is of no account for the jobs after it.
-/
namespace SvgEdit

/-! ## Worlds that are alike -/

/-- Worlds that differ at most in what was printed and told. -/
structure World.Alike (w w' : World) : Prop where
  files : w'.files = w.files
  working : w'.working = w.working
  input : w'.input = w.input

theorem World.Alike.refl (w : World) : w.Alike w := ⟨rfl, rfl, rfl⟩

theorem World.Alike.trans {w w' w'' : World} (h : w.Alike w') (h' : w'.Alike w'') : w.Alike w'' :=
  ⟨h'.files.trans h.files, h'.working.trans h.working, h'.input.trans h.input⟩

/-- An action that does no more than print and tell. -/
def OnlyTells {α : Type} (action : StateM World α) : Prop := ∀ w : World, w.Alike (action.run w).2

namespace OnlyTells

variable {α β : Type}

theorem exists_run {action : StateM World α} (h : OnlyTells action) (w : World) :
    ∃ a w', action.run w = (a, w') ∧ w.Alike w' :=
  ⟨_, _, rfl, h w⟩

theorem pure (a : α) : OnlyTells (Pure.pure a) := World.Alike.refl

theorem bind {action : StateM World α} {next : α → StateM World β} (h : OnlyTells action) (h' : ∀ a, OnlyTells (next a)) :
    OnlyTells (action >>= next) := fun w => (h w).trans (h' _ _)

theorem forM {action : α → StateM World Unit} (h : ∀ a, OnlyTells (action a)) (lines : List α) :
    OnlyTells (lines.forM action) := by
  induction lines with
  | nil => exact pure ()
  | cons a lines ih => exact bind (h a) fun _ => ih

theorem tell (run : Run) (line : LogLine) : OnlyTells (run.tell line) := fun _ => ⟨rfl, rfl, rfl⟩

theorem print (s : Text) : OnlyTells (Host.print s) := fun _ => ⟨rfl, rfl, rfl⟩

theorem tellDetails (run : Run) (lines : List LogLine) : OnlyTells (run.tellDetails lines) := by
  rw [Run.tellDetails]
  split
  · exact forM (tell run) lines
  · exact pure ()

theorem tellFailures (run : Run) (done : List (Job × Outcome)) :
    OnlyTells (done.forM fun entry =>
      match entry.2.failure with
      | some reason => run.tellFailed entry.1.input reason
      | none => Pure.pure ()) := by
  refine forM (fun entry => ?_) done
  split
  · exact tell run _
  · exact pure ()

theorem succeeded (run : Run) (results : List (Job × Except JobFault α)) : OnlyTells (run.succeeded results) := by
  induction results with
  | nil => exact pure []
  | cons result results ih =>
    obtain ⟨job, fault | result⟩ := result
    · exact bind (tell run _) fun _ => ih
    · exact bind ih fun _ => pure _

theorem printResults (run : Run) (single : α → Json) (member : α → List (Text × Json)) (jobs : List Job)
    (results : List (Job × α)) : OnlyTells (SvgEdit.printResults run single member jobs results) := by
  rw [SvgEdit.printResults.eq_def]
  split
  · split
    · exact print _
    · exact pure ()
  · exact print _

end OnlyTells

/-! ## Actions that may fail -/

section

variable {α β ε : Type}

theorem run_bind (action : ExceptT ε (StateM World) α) (next : α → ExceptT ε (StateM World) β) (w : World) :
    (action >>= next).run.run w =
      match action.run.run w with
      | (.ok a, w) => (next a).run.run w
      | (.error fault, w) => (.error fault, w) := by
  simp only [bind, ExceptT.bind, ExceptT.run, ExceptT.mk, StateT.run, StateT.bind]
  split
  next result w' same =>
    cases result <;> simp only [same] <;> rfl

theorem run_lift (action : StateM World α) (w : World) :
    (ExceptT.lift action : ExceptT ε (StateM World) α).run.run w = (.ok (action.run w).1, (action.run w).2) := rfl

theorem run_liftM (action : StateM World α) (w : World) :
    (liftM action : ExceptT ε (StateM World) α).run.run w = (.ok (action.run w).1, (action.run w).2) := rfl

theorem run_attempt (fault : FileFault → ε) (action : StateM World (Except FileFault α)) (w : World) :
    (attempt fault action).run.run w = ((action.run w).1.mapError fault, (action.run w).2) := rfl

end

/-! ## Reading and writing -/

/-- The text that an input holds. -/
def World.content (w : World) : Input → Option Text
  | .stdin => w.input
  | .file path => (w.files.read w.working path).toOption

theorem toOption_mapError {α ε ε' : Type} (f : ε → ε') (result : Except ε α) :
    (result.mapError f).toOption = result.toOption := by
  cases result <;> rfl

theorem toOption_eq_some_iff {α ε : Type} {result : Except ε α} {a : α} : result.toOption = some a ↔ result = .ok a := by
  cases result <;> simp [Except.toOption]

theorem run_read (input : Input) (w : World) :
    ((input.read (m := StateM World)).run.run w).1.toOption = w.content input ∧
      ((input.read (m := StateM World)).run.run w).2 = { w with input := if input = .stdin then some [] else w.input } := by
  cases input with
  | stdin =>
    refine ⟨?_, rfl⟩
    rw [Input.read, run_attempt, toOption_mapError, World.content]
    change (w.input.elim _ _ : Except FileFault Text).toOption = _
    cases w.input <;> rfl
  | file path =>
    refine ⟨?_, rfl⟩
    rw [Input.read, run_attempt, toOption_mapError]
    rfl

theorem content_eq_some_iff {input : Input} {w : World} {s : Text} :
    w.content input = some s ↔ ((input.read (m := StateM World)).run.run w).1 = .ok s := by
  rw [← (run_read input w).1, toOption_eq_some_iff]

theorem run_makeDirectories (above : FilePath) (w : World) :
    (attempt (m := StateM World) (JobFault.makeDirectories above) (Host.makeDirectories above)).run.run w =
      ((w.files.makeDirectories w.working above).2.mapError (.makeDirectories above),
        { w with files := (w.files.makeDirectories w.working above).1 }) := rfl

theorem run_writeFile (path : FilePath) (content : Text) (w : World) :
    (attempt (m := StateM World) (JobFault.writeFile path) (Host.writeFile path content)).run.run w =
      match w.files.write w.working path content with
      | .ok files => (.ok (), { w with files })
      | .error fault => (.error (.writeFile path fault), w) := by
  rw [run_attempt]
  change ((w.writeFile path content).1.mapError _, (w.writeFile path content).2) = _
  rw [World.writeFile]
  cases w.files.write w.working path content <;> rfl

/-- A document is saved in its file. -/
theorem run_writeDocument (path : FilePath) (content : Text) (w : World) :
    (writeDocument (m := StateM World) (some path) content).run.run w =
      ((w.files.save w.working path content).2, { w with files := (w.files.save w.working path content).1 }) := by
  rw [writeDocument, FileSystem.save]
  split
  · next c above same =>
    rw [run_bind, run_makeDirectories, same, Option.getD_some]
    cases w.files.makeDirectories w.working (c :: above) with
    | mk files result =>
      cases result with
      | error fault => rfl
      | ok =>
        dsimp only [Except.mapError]
        rw [run_writeFile]
        dsimp only
        cases files.write w.working path content <;> rfl
  · next none =>
    have nothing : path.parent?.getD [] = [] := by
      cases stands : path.parent? with
      | none => rfl
      | some above =>
        cases above with
        | nil => rfl
        | cons c above => exact absurd stands (none c above)
    rw [nothing, FileSystem.makeDirectories_nil, run_writeFile]
    dsimp only
    cases w.files.write w.working path content <;> rfl

/-! ## Jobs -/

/-- A job failed, or nothing came of it. -/
def Failed (result : Except JobFault Outcome) : Prop := ∀ outcome, result = .ok outcome → outcome.success = false

theorem failed_error (fault : JobFault) : Failed (.error fault) := by
  intro outcome same
  cases same

theorem failed_ok_iff {outcome : Outcome} : Failed (.ok outcome) ↔ ¬ outcome.success = true := by
  rw [Bool.not_eq_true]
  constructor
  · exact fun failed => failed outcome rfl
  · rintro failed _ ⟨⟩
    exact failed

/-- The document that a text becomes, if it is transformed. -/
def transformed (selector : Text) (r : Request) (s : Text) : Option Text :=
  let outcome := transformMatching s selector r
  if outcome.success then some outcome.modified else none

/-- What comes of the job of an input that goes to a file. -/
structure JobDone (become : Text → Option Text) (input : Input) (path : FilePath) (w : World)
    (done : Except JobFault Outcome × World) : Prop where
  working : done.2.working = w.working
  taken : done.2.input = if input = .stdin then some [] else w.input
  /-- Nothing is written if nothing comes of the input. -/
  unwritten : (w.content input).bind become = none → Failed done.1 ∧ done.2.files = w.files
  written : ∀ document, (w.content input).bind become = some document →
    done.2.files = (w.files.save w.working path document).1 ∧
      (Failed done.1 ↔ (w.files.save w.working path document).2 ≠ .ok ())

section

variable (run : Run) (selector : Text) (r : Request) (report : Bool) {job : Job} {path : FilePath}

/-- Once a text is read, it is transformed and saved if that succeeded. -/
theorem run_transformJob (output : job.output = some path) {s : Text} {w w' : World}
    (read : (job.input.read (m := StateM World)).run.run w = (.ok s, w')) :
    let outcome := transformMatching s selector r
    ∃ told, w'.Alike told ∧ (transformJob (m := StateM World) run selector r report job).run.run w =
      if outcome.success then
        ((told.files.save told.working path outcome.modified).2.map fun _ => outcome,
          { told with files := (told.files.save told.working path outcome.modified).1 })
      else (.ok outcome, told) := by
  intro outcome
  obtain ⟨_, told, tells, alike⟩ := (OnlyTells.tellDetails run (transformMatchingLog s selector r)).exists_run w'
  refine ⟨told, alike, ?_⟩
  rw [transformJob, run_bind, read]
  dsimp only
  rw [run_bind, run_lift, tells]
  dsimp only
  by_cases success : outcome.success = true
  · rw [if_pos ⟨success, .inl (by rw [output]; rfl)⟩, if_pos success, run_bind, output, run_writeDocument]
    cases (told.files.save told.working path outcome.modified).2 <;> rfl
  · rw [if_neg fun h => success h.1, if_neg success]
    rfl

theorem jobDone_transformJob (output : job.output = some path) (w : World) :
    JobDone (transformed selector r) job.input path w ((transformJob (m := StateM World) run selector r report job).run.run w) := by
  obtain ⟨given, after⟩ := run_read job.input w
  cases read : (job.input.read (m := StateM World)).run.run w with
  | mk result w' =>
    rw [read] at given after
    dsimp only at given after
    cases result with
    | error fault =>
      have nothing : w.content job.input = none := given.symm
      rw [transformJob, run_bind, read]
      dsimp only
      refine ⟨by rw [after], by rw [after], fun _ => ⟨failed_error fault, by rw [after]⟩, fun document becomes => ?_⟩
      rw [nothing] at becomes
      cases becomes
    | ok s =>
      have content : w.content job.input = some s := given.symm
      obtain ⟨told, alike, ran⟩ := run_transformJob run selector r report output read
      have files : told.files = w.files := by rw [alike.files, after]
      have working : told.working = w.working := by rw [alike.working, after]
      have input : told.input = if job.input = .stdin then some [] else w.input := by rw [alike.input, after]
      rw [ran, files, working]
      by_cases success : (transformMatching s selector r).success = true
      · have becomes : (w.content job.input).bind (transformed selector r) = some (transformMatching s selector r).modified := by
          rw [content, Option.bind_some, transformed, if_pos success]
        rw [if_pos success]
        refine ⟨rfl, input, fun none => ?_, fun document same => ?_⟩
        · rw [becomes] at none
          cases none
        · obtain rfl := Option.some.inj (becomes.symm.trans same)
          refine ⟨rfl, ?_⟩
          cases (w.files.save w.working path (transformMatching s selector r).modified).2 with
          | error fault => exact iff_of_true (failed_error fault) (by simp)
          | ok => exact iff_of_false (fun failed => failed_ok_iff.mp failed success) (by simp)
      · have becomes : (w.content job.input).bind (transformed selector r) = none := by
          rw [content, Option.bind_some, transformed, if_neg success]
        rw [if_neg success]
        refine ⟨working, input, fun _ => ⟨failed_ok_iff.mpr success, files⟩, fun document same => ?_⟩
        rw [becomes] at same
        cases same

end

/-- Does one job, then the others. -/
theorem run_runJobs_cons {α : Type} (work : Job → ExceptT JobFault (StateM World) α) (job : Job) (jobs : List Job) (w : World) :
    (runJobs work (job :: jobs)).run w =
      let first := (work job).run.run w
      let others := (runJobs work jobs).run first.2
      ((job, first.1) :: others.1, others.2) := by
  rw [runJobs, List.mapM_cons]
  rfl

theorem length_runJobs {α : Type} (work : Job → ExceptT JobFault (StateM World) α) (jobs : List Job) (w : World) :
    ((runJobs work jobs).run w).1.length = jobs.length := by
  induction jobs generalizing w with
  | nil => rfl
  | cons job jobs ih =>
    rw [run_runJobs_cons]
    simpa using ih _

/-! ## The command -/

theorem run_readSource (source : RequestSource) (w : World) : ((source.read (m := StateM World)).run.run w).2 = w := by
  cases source <;> rfl

theorem requireOutputs_eq_ok {jobs : List Job} (outputs : ∀ job ∈ jobs, job.output.isSome) (command : String) :
    requireOutputs command jobs = .ok () := by
  refine if_neg fun ⟨_, missing⟩ => ?_
  obtain ⟨job, listed, none⟩ := List.any_eq_true.mp missing
  rw [Option.isNone_iff_eq_none] at none
  simpa [none] using outputs job listed

/-- As many inputs are transformed as there are, unless some failed. -/
theorem length_transformed (run : Run) (results : List (Job × Except JobFault Outcome)) (w : World) :
    let done := ((run.succeeded (m := StateM World) results).run w).1.filter (·.2.success)
    done.length ≤ results.length ∧ (done.length = results.length ↔ ∀ result ∈ results, ¬ Failed result.2) := by
  intro done
  induction results generalizing w with
  | nil => exact ⟨Nat.le_refl _, iff_of_true rfl fun _ listed => absurd listed List.not_mem_nil⟩
  | cons result results ih =>
    rw [List.forall_mem_cons, List.length_cons]
    obtain ⟨job, fault | outcome⟩ := result
    · obtain ⟨bound, -⟩ := ih ((run.tellFailed (m := StateM World) job.input fault.line).run w).2
      have same : done = (((run.succeeded (m := StateM World) results).run
          ((run.tellFailed (m := StateM World) job.input fault.line).run w).2).1.filter (·.2.success)) := rfl
      rw [← same] at bound
      exact ⟨by omega, iff_of_false (by omega) fun all => all.1 (failed_error fault)⟩
    · obtain ⟨bound, all⟩ := ih w
      have same : done = ((job, outcome) :: ((run.succeeded (m := StateM World) results).run w).1).filter (·.2.success) := rfl
      rw [same, List.filter_cons, failed_ok_iff, not_not]
      by_cases success : outcome.success = true
      · rw [if_pos success, List.length_cons, ← all, and_iff_right success]
        exact ⟨by omega, by omega⟩
      · rw [if_neg success]
        exact ⟨by omega, iff_of_false (by omega) fun all => success all.1⟩

/-- From this world, the action does no more than print and tell, and succeeds under a condition. -/
def Ends (action : ExceptT CommandFault (StateM World) Unit) (w : World) (succeeds : Prop) : Prop :=
  w.Alike (action.run.run w).2 ∧ ((action.run.run w).1 = .ok () ↔ succeeds)

theorem Ends.of_lift {α : Type} {action : StateM World α} {next : α → ExceptT CommandFault (StateM World) Unit} {w : World}
    {succeeds : Prop} (tells : OnlyTells action) (h : ∀ w', Ends (next (action.run w).1) w' succeeds) :
    Ends (ExceptT.lift action >>= next) w succeeds := by
  obtain ⟨alike, ends⟩ := h (action.run w).2
  rw [Ends, run_bind, run_lift]
  exact ⟨(tells w).trans alike, ends⟩

theorem ends_finish (failed total : Nat) (w : World) : Ends (finish failed total) w (failed = 0) := by
  rw [Ends, finish]
  split
  · next none => exact ⟨.refl w, iff_of_true rfl none⟩
  · next some => exact ⟨.refl w, iff_of_false (fun same => nomatch same) some⟩

/-- The command does its jobs in the order of the plan, and succeeds if none failed. -/
theorem run_runTransform (run : Run) {args : Arguments} {selector : Text} {source : RequestSource} (report : Bool) {r : Request}
    {s : Text} {jobs : List Job} {w : World} (given : ((source.read (m := StateM World)).run.run w).1 = .ok s)
    (parsed : Request.parse s = .ok r) (plan : args.jobs = .ok jobs) (outputs : ∀ job ∈ jobs, job.output.isSome) :
    ∃ w', w.Alike w' ∧ let ran := (runJobs (transformJob (m := StateM World) run selector r report) jobs).run w'
      ran.2.Alike ((runTransform (m := StateM World) run args selector source report).run.run w).2 ∧
        (((runTransform (m := StateM World) run args selector source report).run.run w).1 = .ok () ↔
          ∀ result ∈ ran.1, ¬ Failed result.2) := by
  have read : (source.read (m := StateM World)).run.run w = (.ok s, w) := Prod.ext given (run_readSource source w)
  have request : (ExceptT.mk (pure ((Request.parse s).mapError CommandFault.request)) :
      ExceptT CommandFault (StateM World) Request) = pure r := by
    rw [parsed]
    rfl
  have plans : planned (m := StateM World) args.jobs = pure jobs := by
    rw [plan]
    rfl
  have required : planned (m := StateM World) (requireOutputs "transform" jobs) = pure () := by
    rw [requireOutputs_eq_ok outputs]
    rfl
  obtain ⟨_, w', tells, alike⟩ := (OnlyTells.forM (OnlyTells.tell run) (r.ignoredLog "warning")).exists_run w
  refine ⟨w', alike, ?_⟩
  rw [runTransform, run_bind, read]
  dsimp only
  rw [request, pure_bind, run_bind, run_lift, tells]
  dsimp only
  rw [plans, pure_bind, required]
  simp only [pure_bind, ite_self]
  rw [run_bind, run_liftM]
  dsimp only
  have length := length_runJobs (transformJob (m := StateM World) run selector r report) jobs w'
  generalize (runJobs (transformJob (m := StateM World) run selector r report) jobs).run w' = ran at length ⊢
  obtain ⟨bound, all⟩ := length_transformed run ran.1 ran.2
  rw [length] at bound all
  -- What is left only prints and tells, and its end counts the inputs that were transformed.
  refine Ends.of_lift (OnlyTells.succeeded run ran.1) fun w₁ => Ends.of_lift (OnlyTells.tellFailures run _) fun w₂ =>
    Ends.of_lift (OnlyTells.tell run _) fun w₃ => ?_
  generalize ((run.succeeded (m := StateM World) ran.1).run ran.2).1 = done at bound all ⊢
  have counts : (∀ result ∈ ran.1, ¬ Failed result.2) ↔ jobs.length - (done.filter (·.2.success)).length = 0 := by
    rw [← all]
    omega
  rw [counts]
  split
  · exact Ends.of_lift (OnlyTells.printResults run Outcome.json Outcome.members jobs _) (ends_finish _ _)
  · exact ends_finish _ _ w₃

end SvgEdit
