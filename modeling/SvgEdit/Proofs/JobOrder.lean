import SvgEdit.Proofs.Planning
import SvgEdit.Proofs.Worlds

/-!
# Jobs that are done in another order

Jobs of a plan share the files of a world and may read in the directory that others write to. Since every
input keeps its own name, what a job reads is what stood there before any job was done, and the files at the
end are those that were there with each document saved that could be.
-/
namespace SvgEdit

variable {w w' : World} {directory : FilePath} {become : Text → Option Text} {job : Job} {done jobs : List Job}

/-! ## What a plan comes to -/

/-- The names and documents of the jobs whose inputs become documents. -/
def World.documents (w : World) (become : Text → Option Text) (jobs : List Job) : List (Text × Text) :=
  jobs.filterMap fun job => ((w.content job.input).bind become).map (job.input.fileName, ·)

/-- The input of a job becomes a document, and the directory takes its file. -/
def Completes (w : World) (directory : FilePath) (become : Text → Option Text) (job : Job) : Prop :=
  ((w.content job.input).bind become).isSome ∧ w.files.Takes w.working directory job.input.fileName

/-- After some jobs: their documents are saved, and standard input is there until it is taken. -/
structure Reached (w : World) (directory : FilePath) (become : Text → Option Text) (done : List Job) (w' : World) : Prop where
  files : w'.files = w.files.saved w.working directory (w.documents become done)
  working : w'.working = w.working
  input : (∀ job ∈ done, job.input ≠ .stdin) → w'.input = w.input

theorem mem_documents {entry : Text × Text} : entry ∈ w.documents become jobs ↔
    ∃ job ∈ jobs, (w.content job.input).bind become = some entry.2 ∧ job.input.fileName = entry.1 := by
  rw [World.documents, List.mem_filterMap]
  refine exists_congr fun job => and_congr_right fun _ => ?_
  rw [Option.map_eq_some_iff]
  constructor
  · rintro ⟨document, becomes, rfl⟩
    exact ⟨becomes, rfl⟩
  · rintro ⟨becomes, name⟩
    exact ⟨entry.2, becomes, Prod.ext name rfl⟩

theorem documents_concat : w.documents become (done ++ [job]) =
    w.documents become done ++ (((w.content job.input).bind become).map (job.input.fileName, ·)).toList := by
  rw [World.documents, List.filterMap_append, ← World.documents]
  cases becomes : (w.content job.input).bind become with
  | none => rw [List.filterMap_cons_none (by rw [becomes]; rfl)]; rfl
  | some document => rw [List.filterMap_cons_some (by rw [becomes]; rfl)]; rfl

theorem Planned.isName_documents (planned : Planned directory jobs) (w : World) (become : Text → Option Text) :
    ∀ entry ∈ w.documents become jobs, FilePath.IsName entry.1 := by
  intro entry listed
  obtain ⟨job, member, -, name⟩ := mem_documents.mp listed
  rw [← name]
  exact (planned.keeps job member).isName

theorem Planned.nodup_documents (planned : Planned directory jobs) : ((w.documents become jobs).map (·.1)).Nodup := by
  have distinct := planned.distinct
  rw [List.Nodup, List.pairwise_map] at distinct ⊢
  refine distinct.filterMap _ fun job other ne entry here entry' there same => ne ?_
  obtain ⟨_, -, rfl⟩ := Option.map_eq_some_iff.mp here
  obtain ⟨_, -, rfl⟩ := Option.map_eq_some_iff.mp there
  exact same

theorem Reached.start (alike : w.Alike w') : Reached w directory become [] w' :=
  ⟨alike.files, alike.working, fun _ => alike.input⟩

/-! ## One job -/

theorem Planned.fileName_ne (planned : Planned directory (done ++ [job])) {other : Job} (listed : other ∈ done) :
    other.input.fileName ≠ job.input.fileName := by
  have distinct := planned.distinct
  rw [List.map_append, List.nodup_append] at distinct
  exact distinct.2.2 _ (List.mem_map_of_mem listed) _ List.mem_cons_self

/-- What a job reads is not changed by the jobs before it. -/
theorem Reached.content (reached : Reached w directory become done w') (tree : w.files.IsTree)
    (planned : Planned directory (done ++ [job])) : w'.content job.input = w.content job.input := by
  cases input : job.input with
  | stdin =>
    -- Standard input has one name, so no other job takes it.
    refine reached.input fun other listed same => planned.fileName_ne listed ?_
    rw [same, input]
  | file path =>
    obtain ⟨down, last⟩ := (planned.keeps job (List.mem_append_right _ List.mem_cons_self)).leads path input
    have others : ∀ entry ∈ w.documents become done, entry.1 ≠ job.input.fileName := by
      intro entry listed
      obtain ⟨other, member, -, name⟩ := mem_documents.mp listed
      rw [← name]
      exact planned.fileName_ne member
    rw [World.content, World.content, reached.working, reached.files]
    refine Option.ext fun s => ?_
    rw [toOption_eq_some_iff, toOption_eq_some_iff,
      FileSystem.read_saved_of_ne (planned.of_append.isName_documents w become) tree down last others]

/-- A job does after others what it does by itself. -/
theorem Reached.step (reached : Reached w directory become done w') (tree : w.files.IsTree)
    (planned : Planned directory (done ++ [job])) {after : Except JobFault Outcome × World}
    (does : JobDone become job.input (directory.join job.input.fileName) w' after) :
    Reached w directory become (done ++ [job]) after.2 ∧ (Failed after.1 ↔ ¬ Completes w directory become job) := by
  have content := reached.content tree planned
  have working : after.2.working = w.working := does.working.trans reached.working
  have input : (∀ other ∈ done ++ [job], other.input ≠ .stdin) → after.2.input = w.input := by
    intro files
    obtain ⟨files, file⟩ := List.forall_mem_append.mp files
    rw [does.taken, if_neg (file job List.mem_cons_self), reached.input files]
  cases becomes : (w.content job.input).bind become with
  | none =>
    obtain ⟨failed, files⟩ := does.unwritten (by rw [content, becomes])
    refine ⟨⟨?_, working, input⟩, iff_of_true failed fun completes => ?_⟩
    · rw [files, reached.files, documents_concat, becomes, Option.map_none, Option.toList_none, List.append_nil]
    · rw [Completes, becomes] at completes
      exact Bool.false_ne_true completes.1
  | some document =>
    obtain ⟨files, failed⟩ := does.written document (by rw [content, becomes])
    have isName := (planned.keeps job (List.mem_append_right _ List.mem_cons_self)).isName
    have named := planned.of_append.isName_documents w become
    obtain ⟨saves, takes⟩ := FileSystem.save_saved named isName w.files w.working directory document
    rw [reached.files, reached.working] at files failed
    refine ⟨⟨?_, working, input⟩, ?_⟩
    · rw [files, saves, documents_concat, becomes, Option.map_some, Option.toList_some]
    · rw [failed, Ne, takes, Completes, becomes, Option.isSome_some, eq_self, true_and]

/-! ## All jobs -/

/-- Jobs after others do what they do by themselves. -/
theorem Reached.runJobs {work : Job → ExceptT JobFault (StateM World) Outcome} (tree : w.files.IsTree)
    (works : ∀ job w, job.KeepsName directory →
      JobDone become job.input (directory.join job.input.fileName) w ((work job).run.run w))
    (reached : Reached w directory become done w') (planned : Planned directory (done ++ jobs)) :
    Reached w directory become (done ++ jobs) ((SvgEdit.runJobs work jobs).run w').2 ∧
      ((SvgEdit.runJobs work jobs).run w').1.map (·.1) = jobs ∧
        ∀ result ∈ ((SvgEdit.runJobs work jobs).run w').1, (Failed result.2 ↔ ¬ Completes w directory become result.1) := by
  -- The jobs that are done grow while those that are left shrink; the plan is the two together.
  induction jobs generalizing done w' with
  | nil =>
    rw [List.append_nil]
    exact ⟨reached, rfl, fun _ listed => absurd listed List.not_mem_nil⟩
  | cons job jobs ih =>
    rw [List.append_cons] at planned ⊢
    have keeps := planned.of_append.keeps job (List.mem_append_right _ List.mem_cons_self)
    obtain ⟨next, failed⟩ := reached.step tree planned.of_append (works job w' keeps)
    obtain ⟨ends, names, failures⟩ := ih next planned
    rw [run_runJobs_cons]
    exact ⟨ends, congrArg (job :: ·) names, List.forall_mem_cons.mpr ⟨failed, failures⟩⟩

/-! ## Transforming several inputs -/

/-- What it comes to that jobs which transform their inputs are done one after another in some order. -/
structure ComesTo (work : Job → ExceptT JobFault (StateM World) Outcome) (selector : Text) (r : Request) (w : World)
    (jobs order : List Job) : Prop where
  /-- The files are those that the order of the plan leaves. -/
  files : ∀ l, ((runJobs work order).run w).2.files.get? l = ((runJobs work jobs).run w).2.files.get? l
  /-- The jobs that fail are those that fail by themselves. -/
  failures : ∀ job, (∃ result, (job, result) ∈ ((runJobs work order).run w).1 ∧ Failed result) ↔
    job ∈ jobs ∧ Failed ((work job).run.run w).1
  /-- If the text of an input is transformed and can be written, then the file holds what it was transformed to. -/
  written : ∀ job ∈ jobs, ∀ path s, job.output = some path → ((job.input.read (m := StateM World)).run.run w).1 = .ok s →
    (transformMatching s selector r).success = true →
    ((writeDocument (m := StateM World) (some path) (transformMatching s selector r).modified).run.run w).1 = .ok () →
    ((runJobs work order).run w).2.files.read w.working path = .ok (transformMatching s selector r).modified
  /-- If the text of an input cannot be read or is not transformed, then its job changes no file when its turn comes. -/
  unwritten : ∀ before job behind, order = before ++ job :: behind →
    (∀ s, ((job.input.read (m := StateM World)).run.run w).1 = .ok s → (transformMatching s selector r).success = false) →
    let w' := ((runJobs work before).run w).2
    ((work job).run.run w').2.files = w'.files

section

variable (run : Run) (selector : Text) (r : Request) (report : Bool)

/-- Jobs of a plan, done from the start. -/
theorem Planned.reached (planned : Planned directory jobs) (tree : w.files.IsTree) (alike : w.Alike w') :
    Reached w directory (transformed selector r) jobs
        ((runJobs (transformJob (m := StateM World) run selector r report) jobs).run w').2 ∧
      ((runJobs (transformJob (m := StateM World) run selector r report) jobs).run w').1.map (·.1) = jobs ∧
        ∀ result ∈ ((runJobs (transformJob (m := StateM World) run selector r report) jobs).run w').1,
          (Failed result.2 ↔ ¬ Completes w directory (transformed selector r) result.1) :=
  (Reached.start alike).runJobs tree (fun _ w keeps => jobDone_transformJob run selector r report keeps.output w) planned

theorem Planned.failed_iff (planned : Planned directory jobs) (tree : w.files.IsTree) (listed : job ∈ jobs) :
    Failed ((transformJob (m := StateM World) run selector r report job).run.run w).1 ↔
      ¬ Completes w directory (transformed selector r) job := by
  have keeps := planned.keeps job listed
  have single : Planned directory [job] := ⟨fun _ here => List.mem_singleton.mp here ▸ keeps, List.nodup_singleton _⟩
  have begun : Reached w directory (transformed selector r) [] w := Reached.start (.refl w)
  exact (begun.step tree single (jobDone_transformJob run selector r report keeps.output w)).2

/-- A job fails among others if it fails by itself. -/
theorem Planned.failures_iff (planned : Planned directory jobs) (tree : w.files.IsTree) (alike : w.Alike w') (job : Job) :
    (∃ result, (job, result) ∈ ((runJobs (transformJob (m := StateM World) run selector r report) jobs).run w').1 ∧
      Failed result) ↔ job ∈ jobs ∧ Failed ((transformJob (m := StateM World) run selector r report job).run.run w).1 := by
  obtain ⟨-, names, failures⟩ := planned.reached run selector r report tree alike
  have names_iff := congrArg (job ∈ ·) names
  rw [eq_iff_iff, List.mem_map] at names_iff
  constructor
  · rintro ⟨result, listed, failed⟩
    have member : job ∈ jobs := names_iff.mp ⟨_, listed, rfl⟩
    exact ⟨member, (planned.failed_iff run selector r report tree member).mpr ((failures _ listed).mp failed)⟩
  · rintro ⟨member, failed⟩
    obtain ⟨⟨_, result⟩, listed, rfl⟩ := names_iff.mpr member
    exact ⟨result, listed, (failures _ listed).mpr ((planned.failed_iff run selector r report tree member).mp failed)⟩

theorem Planned.read_of_written (planned : Planned directory jobs) (tree : w.files.IsTree) (listed : job ∈ jobs) {path : FilePath}
    {s : Text} (output : job.output = some path) (given : ((job.input.read (m := StateM World)).run.run w).1 = .ok s)
    (success : (transformMatching s selector r).success = true)
    (writes : ((writeDocument (m := StateM World) (some path) (transformMatching s selector r).modified).run.run w).1 = .ok ()) :
    ((runJobs (transformJob (m := StateM World) run selector r report) jobs).run w).2.files.read w.working path =
      .ok (transformMatching s selector r).modified := by
  have keeps := planned.keeps job listed
  obtain rfl := Option.some.inj (keeps.output.symm.trans output)
  rw [run_writeDocument] at writes
  have takes : w.files.Takes w.working directory job.input.fileName := by
    rcases w.files.save_join w.working directory keeps.isName (transformMatching s selector r).modified with
      ⟨takes, -⟩ | ⟨-, fault, fails⟩
    · exact takes
    · rw [fails] at writes
      cases writes
  have document : (job.input.fileName, (transformMatching s selector r).modified) ∈ w.documents (transformed selector r) jobs := by
    refine mem_documents.mpr ⟨job, listed, ?_, rfl⟩
    rw [content_eq_some_iff.mpr given, Option.bind_some, transformed, if_pos success]
  obtain ⟨reached, -, -⟩ := planned.reached run selector r report tree (.refl w)
  rw [reached.files]
  exact FileSystem.read_saved (planned.isName_documents w _) planned.nodup_documents document takes

theorem Planned.files_of_refused (planned : Planned directory (done ++ [job])) (tree : w.files.IsTree)
    (refused : ∀ s, ((job.input.read (m := StateM World)).run.run w).1 = .ok s →
      (transformMatching s selector r).success = false) :
    let w' := ((runJobs (transformJob (m := StateM World) run selector r report) done).run w).2
    ((transformJob (m := StateM World) run selector r report job).run.run w').2.files = w'.files := by
  intro w'
  have keeps := planned.keeps job (List.mem_append_right _ List.mem_cons_self)
  obtain ⟨reached, -, -⟩ := planned.of_append.reached run selector r report tree (.refl w)
  refine ((jobDone_transformJob run selector r report keeps.output w').unwritten ?_).2
  rw [reached.content tree planned, Option.bind_eq_none_iff]
  intro s given
  rw [transformed, if_neg (Bool.not_eq_true _ ▸ refused s (content_eq_some_iff.mp given))]

theorem Planned.comesTo (planned : Planned directory jobs) (tree : w.files.IsTree) {order : List Job} (perm : order.Perm jobs) :
    ComesTo (transformJob run selector r report) selector r w jobs order := by
  have planned' : Planned directory order := planned.perm perm.symm
  refine ⟨fun l => ?_, fun job => ?_, fun job listed path s output given success writes => ?_, ?_⟩
  · obtain ⟨reached, -, -⟩ := planned.reached run selector r report tree (.refl w)
    obtain ⟨reached', -, -⟩ := planned'.reached run selector r report tree (.refl w)
    rw [reached.files, reached'.files]
    exact FileSystem.get?_saved_of_perm (perm.filterMap _) planned'.nodup_documents l
  · rw [planned'.failures_iff run selector r report tree (.refl w), perm.mem_iff]
  · exact planned'.read_of_written run selector r report tree (perm.mem_iff.mpr listed) output given success writes
  · rintro before job behind rfl refused
    rw [List.append_cons] at planned'
    exact planned'.of_append.files_of_refused run selector r report tree refused

end

/--
Transforming several inputs into a directory does not depend on the order in which they are done, although each
may be read from the directory that others are written to.
-/
theorem transforming_ignores_order (run : Run) {args : Arguments} {directory : FilePath} {selector : Text} {source : RequestSource}
    {report : Bool} {r : Request} {s : Text} {jobs : List Job} {w : World} (tree : w.files.IsTree)
    (several : 2 ≤ args.paths.length) (into : args.output = some directory)
    (named : ∀ path ∈ args.paths, path.fileName?.isSome ∧ FilePath.above ∉ path.parts) (plan : args.jobs = .ok jobs)
    (given : ((source.read (m := StateM World)).run.run w).1 = .ok s) (parsed : Request.parse s = .ok r) :
    (∀ order, order.Perm jobs → ComesTo (transformJob run selector r report) selector r w jobs order) ∧
      (((runTransform (m := StateM World) run args selector source report).run.run w).1 = .ok () ↔
        ∀ job ∈ jobs, ¬ Failed ((transformJob (m := StateM World) run selector r report job).run.run w).1) ∧
      ((runTransform (m := StateM World) run args selector source report).run.run w).2.files =
        ((runJobs (transformJob (m := StateM World) run selector r report) jobs).run w).2.files := by
  have planned := Arguments.planned_of_jobs several into named plan
  have outputs : ∀ job ∈ jobs, job.output.isSome := fun job listed => by
    rw [(planned.keeps job listed).output]
    rfl
  obtain ⟨w', alike, ends, succeeds⟩ := run_runTransform run report given parsed plan outputs
  refine ⟨fun order perm => planned.comesTo run selector r report tree perm, succeeds.trans ?_, ?_⟩
  · have failures := planned.failures_iff run selector r report tree alike
    constructor
    · intro worked job listed failed
      obtain ⟨result, here, failed⟩ := (failures job).mpr ⟨listed, failed⟩
      exact worked _ here failed
    · intro worked result here failed
      obtain ⟨listed, failed⟩ := (failures result.1).mp ⟨result.2, here, failed⟩
      exact worked _ listed failed
  · obtain ⟨reached, -, -⟩ := planned.reached run selector r report tree (.refl w)
    obtain ⟨reached', -, -⟩ := planned.reached run selector r report tree alike
    rw [ends.files, reached'.files, reached.files]

/-- A world where one input stands where the other one's result goes. -/
def crowded : World where
  files := ⟨[(["a.svg".toList], .file (some "<svg><a/></svg>".toList)), (["out".toList], .directory),
    (["out".toList, "b.svg".toList], .file (some "<svg/>".toList))]⟩

theorem transforming_ignores_order_crowded :
    let source : RequestSource := .text "\x7b\x7d".toList
    let args : Arguments := {
      color := .never
      config := defaultConfig
      paths := ["a.svg".toList, "out/b.svg".toList]
      output := some "out".toList
      verbose := false
      pretty := false
      command := .transform "a".toList source false }
    let jobs : List Job := [⟨.file "a.svg".toList, some "out/a.svg".toList⟩,
      ⟨.file "out/b.svg".toList, some "out/b.svg".toList⟩]
    let run : Run := ⟨false, {}⟩
    crowded.files.IsTree ∧ args.jobs = .ok jobs ∧ Request.parse "\x7b\x7d".toList = .ok {} ∧
      (∀ order, order.Perm jobs → ComesTo (transformJob run "a".toList {} false) "a".toList {} crowded jobs order) ∧
      (((runTransform (m := StateM World) run args "a".toList source false).run.run crowded).1 = .ok () ↔
        ∀ job ∈ jobs, ¬ Failed ((transformJob (m := StateM World) run "a".toList {} false job).run.run crowded).1) ∧
      ((runTransform (m := StateM World) run args "a".toList source false).run.run crowded).2.files =
        ((runJobs (transformJob (m := StateM World) run "a".toList {} false) jobs).run crowded).2.files := by
  intro source args jobs run
  have tree : crowded.files.IsTree := by decide
  have plan : args.jobs = .ok jobs := by decide
  have parsed : Request.parse "\x7b\x7d".toList = .ok {} := by cbv
  exact ⟨tree, plan, parsed, transforming_ignores_order run tree (by decide) rfl (by decide) plan rfl parsed⟩

end SvgEdit
