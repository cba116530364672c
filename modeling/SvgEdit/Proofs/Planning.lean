import SvgEdit.Proofs.FilePaths
import SvgEdit.Command.Run
import Mathlib.Data.List.Nodup

/-!
# Planned jobs

Several inputs that go to a directory keep their names there. A plan that succeeds gives each input its own
name, so that no job writes where another one writes, or where another one's input stands.
-/
namespace SvgEdit

/-! ## Plans -/

theorem planInto_cons (directory : FilePath) (taken : List FilePath) (input : Input) (inputs : List Input) :
    planInto directory taken (input :: inputs) =
      if input.fileName ∈ taken then .error (.sameName input.fileName directory)
      else (planInto directory (input.fileName :: taken) inputs).map
        (⟨input, some (directory.join input.fileName)⟩ :: ·) := rfl

theorem planInto_eq_ok {directory : FilePath} {taken : List FilePath} {inputs : List Input} {jobs : List Job}
    (planned : planInto directory taken inputs = .ok jobs) :
    jobs = inputs.map (fun input => ⟨input, some (directory.join input.fileName)⟩) ∧
      (inputs.map Input.fileName).Nodup ∧ ∀ input ∈ inputs, input.fileName ∉ taken := by
  induction inputs generalizing taken jobs with
  | nil => exact ⟨(Except.ok.inj planned).symm, List.nodup_nil, fun _ listed => absurd listed List.not_mem_nil⟩
  | cons input inputs ih =>
    rw [planInto_cons] at planned
    split at planned
    · cases planned
    · next free =>
      cases rest : planInto directory (input.fileName :: taken) inputs with
      | error fault =>
        rw [rest] at planned
        cases planned
      | ok others =>
        rw [rest] at planned
        obtain ⟨same, distinct, apart⟩ := ih rest
        refine ⟨by rw [List.map_cons, ← same]; exact (Except.ok.inj planned).symm, ?_, ?_⟩
        · rw [List.map_cons, List.nodup_cons]
          refine ⟨fun repeated => ?_, distinct⟩
          obtain ⟨other, listed, name⟩ := List.mem_map.mp repeated
          exact apart other listed (name ▸ List.mem_cons_self)
        · exact List.forall_mem_cons.mpr ⟨free, fun other listed =>
            List.not_mem_of_not_mem_cons (apart other listed)⟩

theorem collectInputs_eq_ok {paths : List FilePath} {inputs : List Input} (nonempty : paths ≠ [])
    (collected : collectInputs paths = .ok inputs) : inputs = paths.map Input.ofPath := by
  rw [collectInputs, if_neg nonempty] at collected
  dsimp only at collected
  split at collected
  · cases collected
  · exact (Except.ok.inj collected).symm

theorem planJobs_of_several {inputs : List Input} (several : 2 ≤ inputs.length) (directory : FilePath) :
    planJobs inputs (some directory) = planInto directory [] inputs := by
  match inputs with
  | _ :: _ :: _ => rfl

/-! ## Jobs that keep names -/

/-- A job that writes into a directory under the name of its input, which is the last one of the path to it. -/
structure Job.KeepsName (directory : FilePath) (job : Job) : Prop where
  output : job.output = some (directory.join job.input.fileName)
  leads : ∀ path, job.input = .file path → FilePath.above ∉ path.parts ∧ path.fileName? = some job.input.fileName

theorem Job.KeepsName.isName {directory : FilePath} {job : Job} (h : job.KeepsName directory) :
    FilePath.IsName job.input.fileName := by
  cases input : job.input with
  | stdin => exact ⟨by decide, by decide, by decide⟩
  | file path =>
    rw [← input]
    exact (FilePath.isName_of_fileName? (h.leads path input).2).1

/-- Jobs that keep the names of their inputs in a directory, and no two the same. -/
structure Planned (directory : FilePath) (jobs : List Job) : Prop where
  keeps : ∀ job ∈ jobs, job.KeepsName directory
  distinct : (jobs.map (·.input.fileName)).Nodup

theorem Planned.perm {directory : FilePath} {jobs jobs' : List Job} (planned : Planned directory jobs) (perm : jobs.Perm jobs') :
    Planned directory jobs' :=
  ⟨fun job listed => planned.keeps job (perm.mem_iff.mpr listed), (perm.map _).nodup_iff.mp planned.distinct⟩

theorem Planned.of_append {directory : FilePath} {jobs more : List Job} (planned : Planned directory (jobs ++ more)) :
    Planned directory jobs := by
  refine ⟨fun job listed => planned.keeps job (List.mem_append_left _ listed), ?_⟩
  have distinct := planned.distinct
  rw [List.map_append] at distinct
  exact distinct.of_append_left

theorem keepsName_of_path {directory path : FilePath} (named : path.fileName?.isSome) (down : FilePath.above ∉ path.parts) :
    Job.KeepsName directory ⟨.ofPath path, some (directory.join (Input.ofPath path).fileName)⟩ := by
  refine ⟨rfl, fun path' isFile => ?_⟩
  have same : Input.ofPath path = .file path' := isFile
  dsimp only
  rw [same]
  rw [Input.ofPath] at same
  split at same
  · cases same
  · cases same
    obtain ⟨name, last⟩ := Option.isSome_iff_exists.mp named
    exact ⟨down, by rw [last, Input.fileName, last, Option.getD_some]⟩

/-- A plan for several inputs, each with a name that is reached without steps up. -/
theorem Arguments.planned_of_jobs {args : Arguments} {directory : FilePath} {jobs : List Job} (several : 2 ≤ args.paths.length)
    (into : args.output = some directory) (named : ∀ path ∈ args.paths, path.fileName?.isSome ∧ FilePath.above ∉ path.parts)
    (planned : args.jobs = .ok jobs) : Planned directory jobs := by
  have nonempty : args.paths ≠ [] := List.ne_nil_of_length_pos (by omega)
  rw [Arguments.jobs] at planned
  cases collected : collectInputs args.paths with
  | error fault =>
    rw [collected] at planned
    cases planned
  | ok inputs =>
    obtain rfl := collectInputs_eq_ok nonempty collected
    rw [collected, into] at planned
    replace planned : planJobs (args.paths.map Input.ofPath) (some directory) = .ok jobs := planned
    rw [planJobs_of_several (by rwa [List.length_map])] at planned
    obtain ⟨rfl, distinct, -⟩ := planInto_eq_ok planned
    refine ⟨fun job listed => ?_, by simpa [Function.comp_def] using distinct⟩
    obtain ⟨input, fromInput, rfl⟩ := List.mem_map.mp listed
    obtain ⟨path, given, rfl⟩ := List.mem_map.mp fromInput
    exact keepsName_of_path (named path given).1 (named path given).2

end SvgEdit
