import SvgEdit.Proofs.Planning
import SvgEdit.Proofs.Worlds

/-!
# Outputs that stand apart

One file can be written in many ways, with slashes twice or dots between them; two paths are one if they lead through
the same parts. A name that is put into a directory is the last of these parts. So inputs with different names have
different outputs, and no output is where the input of another job stands.
-/
namespace SvgEdit

namespace FilePath

/-! ## One path written in several ways -/

/-- What a path leads through. Dots and doubled slashes lead nowhere, other than a dot at the beginning. -/
structure Components where
  fromRoot : Bool
  fromHere : Bool
  steps : List Text
deriving DecidableEq, Repr

def components (p : FilePath) : Components where
  fromRoot := p.isAbsolute
  fromHere := p.parts.head? = some ['.']
  steps := p.parts.filter (!isIdle ·)

theorem fileName?_eq_of_components_eq {p q : FilePath} (same : p.components = q.components) : p.fileName? = q.fileName? := by
  have steps : p.parts.filter (!isIdle ·) = q.parts.filter (!isIdle ·) := congrArg Components.steps same
  rw [fileName?, fileName?, steps]

theorem fileName?_join {name : Text} (h : IsName name) (directory : FilePath) :
    (directory.join name).fileName? = some name := by
  have alone : [name].filter (!isIdle ·) = [name] := List.filter_cons_of_pos (by simp [h.notIdle])
  rw [fileName?, parts_join h, List.filter_append, alone, List.getLast?_concat]
  exact if_neg h.notAbove

theorem components_join_ne {name : Text} (h : IsName name) (directory : FilePath) {p : FilePath}
    (other : p.fileName? ≠ some name) : (directory.join name).components ≠ p.components :=
  fun same => other (fileName?_eq_of_components_eq same ▸ fileName?_join h directory)

end FilePath

/-! ## Names of results -/

/-- The name that the result of a path has in a directory. Standard input has one of its own. -/
inductive ResultName : FilePath → Text → Prop
  | stdin : ResultName ['-'] "stdin.svg".toList
  | file {path : FilePath} {name : Text} (isFile : path ≠ ['-']) (ends : path.fileName? = some name) : ResultName path name

namespace ResultName

variable {path : FilePath} {name : Text}

theorem isName (named : ResultName path name) : FilePath.IsName name := by
  cases named with
  | stdin => exact ⟨by decide, by decide, by decide⟩
  | file _ ends => exact (FilePath.isName_of_fileName? ends).1

theorem fileName_ofPath (named : ResultName path name) : (Input.ofPath path).fileName = name := by
  cases named with
  | stdin => rfl
  | file isFile ends => rw [Input.ofPath, if_neg isFile, Input.fileName, ends, Option.getD_some]

theorem fileName?_of_file (named : ResultName path name) {file : FilePath} (read : Input.ofPath path = .file file) :
    file.fileName? = some name := by
  cases named with
  | stdin => cases read
  | file isFile ends =>
    rw [Input.ofPath, if_neg isFile] at read
    cases read
    exact ends

end ResultName

/-! ## Plans with distinct names -/

theorem planInto_of_nodup (directory : FilePath) {taken : List FilePath} {inputs : List Input}
    (distinct : (inputs.map Input.fileName).Nodup) (free : ∀ input ∈ inputs, input.fileName ∉ taken) :
    planInto directory taken inputs = .ok (inputs.map fun input => ⟨input, some (directory.join input.fileName)⟩) := by
  induction inputs generalizing taken with
  | nil => rfl
  | cons input inputs ih =>
    rw [List.map_cons, List.nodup_cons] at distinct
    obtain ⟨here, free⟩ := List.forall_mem_cons.mp free
    have later : ∀ other ∈ inputs, other.fileName ∉ input.fileName :: taken := fun other listed =>
      List.not_mem_cons_of_ne_of_not_mem (fun same => distinct.1 (same ▸ List.mem_map_of_mem listed)) (free other listed)
    rw [planInto_cons, if_neg here, ih distinct.2 later]
    rfl

/-- Several inputs are given jobs if no two have one name. -/
theorem planJobs_eq_ok_iff {inputs : List Input} (several : 2 ≤ inputs.length) (directory : FilePath) {jobs : List Job} :
    planJobs inputs (some directory) = .ok jobs ↔
      (inputs.map Input.fileName).Nodup ∧
        jobs = inputs.map fun input => ⟨input, some (directory.join input.fileName)⟩ := by
  rw [planJobs_of_several several]
  constructor
  · intro planned
    obtain ⟨whole, distinct, -⟩ := planInto_eq_ok planned
    exact ⟨distinct, whole⟩
  · rintro ⟨distinct, rfl⟩
    exact planInto_of_nodup directory distinct fun _ _ => List.not_mem_nil

/-! ## Jobs that spare each other -/

/-- A job that writes neither where another one writes nor where the input of the other one stands. -/
structure Job.Spares (job other : Job) : Prop where
  output : ∀ output ∈ job.output, ∀ output' ∈ other.output, output.components ≠ output'.components
  input : ∀ output ∈ job.output, ∀ path, other.input = .file path → output.components ≠ path.components

theorem ResultName.spares {path path' : FilePath} {name name' : Text} (named : ResultName path name)
    (named' : ResultName path' name') (ne : name ≠ name') (directory : FilePath) :
    Job.Spares ⟨.ofPath path, some (directory.join name)⟩ ⟨.ofPath path', some (directory.join name')⟩ := by
  refine ⟨?_, ?_⟩
  · rintro _ ⟨⟩ _ ⟨⟩
    refine FilePath.components_join_ne named.isName directory ?_
    rw [FilePath.fileName?_join named'.isName]
    exact fun same => ne (Option.some.inj same).symm
  · rintro _ ⟨⟩ file read
    refine FilePath.components_join_ne named.isName directory ?_
    rw [named'.fileName?_of_file read]
    exact fun same => ne (Option.some.inj same).symm

/-- One job for each path, in their order, that writes into a directory and spares all others. -/
structure Separate (directory : FilePath) (paths : List FilePath) (names : List Text) (jobs : List Job) : Prop where
  inputs : jobs.map Job.input = paths.map Input.ofPath
  outputs : jobs.map Job.output = names.map fun name => some (directory.join name)
  spared : jobs.Pairwise fun job other => job.Spares other ∧ other.Spares job
  required : ∀ command, requireOutputs command jobs = .ok ()

variable {paths : List FilePath} {names : List Text}

/-- The names of results are those that the inputs know. -/
theorem ResultName.of_forall₂ (named : List.Forall₂ ResultName paths names) :
    (∀ path ∈ paths, ResultName path (Input.ofPath path).fileName) ∧
      (paths.map Input.ofPath).map Input.fileName = names := by
  induction named with
  | nil => exact ⟨fun _ listed => absurd listed List.not_mem_nil, rfl⟩
  | cons named _ ih =>
    have own := named.fileName_ofPath
    refine ⟨List.forall_mem_cons.mpr ⟨own.symm ▸ named, ih.1⟩, ?_⟩
    rw [List.map_cons, List.map_cons, own, ih.2]

theorem separate_of_nodup (named : List.Forall₂ ResultName paths names) (distinct : names.Nodup) (directory : FilePath) :
    Separate directory paths names
      ((paths.map Input.ofPath).map fun input => ⟨input, some (directory.join input.fileName)⟩) := by
  obtain ⟨own, rfl⟩ := ResultName.of_forall₂ named
  refine ⟨by simp, by simp, ?_, requireOutputs_eq_ok fun job listed => ?_⟩
  · rw [List.map_map, List.Nodup, List.pairwise_map] at distinct
    rw [List.map_map, List.pairwise_map]
    exact distinct.imp_of_mem fun listed listed' ne =>
      ⟨(own _ listed).spares (own _ listed') ne directory, (own _ listed').spares (own _ listed) ne.symm directory⟩
  · obtain ⟨input, _, rfl⟩ := List.mem_map.mp listed
    rfl

/--
Several paths are refused if and only if two results have one name. Otherwise each has a job of its own, which writes
under the name of its result, and no job writes where another one writes or reads.
-/
theorem planJobs_separate {inputs : List Input} (several : 2 ≤ paths.length) (collected : collectInputs paths = .ok inputs)
    (named : List.Forall₂ ResultName paths names) (directory : FilePath) :
    ((∃ fault, planJobs inputs (some directory) = .error fault) ↔ ¬ names.Nodup) ∧
      (names.Nodup → ∃ jobs, planJobs inputs (some directory) = .ok jobs ∧ Separate directory paths names jobs) := by
  obtain rfl := collectInputs_eq_ok (List.ne_nil_of_length_pos (by omega)) collected
  have known := (ResultName.of_forall₂ named).2
  have count : 2 ≤ (paths.map Input.ofPath).length := by rwa [List.length_map]
  have accepted (jobs : List Job) := @planJobs_eq_ok_iff _ count directory jobs
  rw [known] at accepted
  refine ⟨⟨?_, fun clash => ?_⟩, fun distinct => ?_⟩
  · rintro ⟨fault, refused⟩ distinct
    rw [(accepted _).mpr ⟨distinct, rfl⟩] at refused
    cases refused
  · cases planned : planJobs (paths.map Input.ofPath) (some directory) with
    | error fault => exact ⟨fault, rfl⟩
    | ok jobs => exact absurd ((accepted jobs).mp planned).1 clash
  · exact ⟨_, (accepted _).mpr ⟨distinct, rfl⟩, separate_of_nodup named distinct directory⟩

/-- An input in the output directory, one that is written with a dot at its end, and standard input. -/
theorem planJobs_separate_three :
    let paths := ["out//a.svg".toList, "/x/b.svg/.".toList, ['-']]
    let names := ["a.svg".toList, "b.svg".toList, "stdin.svg".toList]
    collectInputs paths = .ok (paths.map Input.ofPath) ∧ List.Forall₂ ResultName paths names ∧
      ∃ jobs, planJobs (paths.map Input.ofPath) (some "./out/".toList) = .ok jobs ∧
        Separate "./out/".toList paths names jobs := by
  intro paths names
  have collected : collectInputs paths = .ok (paths.map Input.ofPath) := by decide
  have named : List.Forall₂ ResultName paths names :=
    .cons (.file (by decide) (by decide)) (.cons (.file (by decide) (by decide)) (.cons .stdin .nil))
  exact ⟨collected, named, (planJobs_separate (by decide) collected named _).2 (by decide)⟩

/-- A file that is named as the result of standard input is. -/
example : planJobs [.stdin, .file "./stdin.svg".toList] (some ['o']) = .error (.sameName "stdin.svg".toList ['o']) := by
  decide

end SvgEdit
