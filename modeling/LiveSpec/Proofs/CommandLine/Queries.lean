import LiveSpec.CommandLine.Run
import LiveSpec.Proofs.CommandLine.Arguments
import LiveSpec.Proofs.Disk.Walk
import LiveSpec.Proofs.Index.Accounting

/-!
# Questions about listed specifications

A command line that lists the specifications prints a path for each of them, and one that asks for a line is
given such a path. The listing spells it from the canonical form of a directory of the project and names that
a walk has come across, the question takes the canonical form of the whole path. How the question is answered
depends on the links between them (`CommandLine.AnswersQuery`). No link leads to a directory of the project as
it is spelled by then, so the root and the settings may name it through any number of links. When no link
stands beneath it on the way to the file either, the two are the same path and the answer is about the
specification that was listed. When one does, the question is about the file that it leads to
(`CommandLine.answersQueries_run`): if that is listed too, then it holds the same text, and the
answer is the one for the specification but under the other path; if not, the question is refused, although
the path was listed (`CommandLine.exists_refused_listed_shop`).
-/

set_option autoImplicit false

namespace LiveSpec

/-! ### One text under two paths -/

/-- What a text says does not depend on the file that it is read from. -/
theorem Specification.parse_of_parse {file other : Path} {text : String} {spec : Specification}
    (h : Specification.parse file text = .ok spec) :
    Specification.parse other text = .ok { spec with file := other } := by
  obtain ⟨draft, hread, hfinish⟩ := bind_eq_ok_iff.mp (mapError_eq_ok_iff.mp h)
  refine mapError_eq_ok_iff.mpr (bind_eq_ok_iff.mpr ⟨draft, hread, ?_⟩)
  unfold Draft.finish at hfinish ⊢
  split at hfinish <;> cases hfinish
  rfl

theorem Specification.expand_withFile (spec : Specification) (other : Path) (dictionary : Dictionary) :
    { spec with file := other }.expand dictionary =
      ({ (spec.expand dictionary).1 with file := other }, (spec.expand dictionary).2) := rfl

namespace Contents

variable {contents : Contents} {dictionary : Dictionary} {file other : Path} {spec : Specification}

theorem exists_content_of_expanded (h : contents.expanded dictionary file = .ok spec) :
    ∃ content, contents file = .ok content := by
  obtain ⟨parsed, hparsed, -⟩ := expanded_eq_ok h
  unfold specification source at hparsed
  cases hcontent : contents file with
  | error fault =>
    rw [hcontent] at hparsed
    cases hparsed
  | ok content => exact ⟨content, rfl⟩

/-- Assumes: two files with the same text. What is read from them is the same but for the file. -/
theorem expanded_of_same (h : contents.expanded dictionary file = .ok spec)
    (hsame : contents other = contents file) :
    contents.expanded dictionary other = .ok { spec with file := other } := by
  obtain ⟨parsed, hparsed, hexpand⟩ := expanded_eq_ok h
  obtain ⟨content, hcontent⟩ := exists_content_of_expanded h
  unfold specification source at hparsed
  rw [hcontent] at hparsed
  have hother : contents.specification other = .ok { parsed with file := other } := by
    unfold specification source
    rw [hsame, hcontent]
    exact Specification.parse_of_parse hparsed
  have hexpandOther : { parsed with file := other }.expand dictionary = ({ spec with file := other }, none) := by
    rw [Specification.expand_withFile, hexpand]
  unfold expanded
  rw [hother]
  dsimp only [Except.mapError, bind, Except.bind]
  rw [hexpandOther]

end Contents

/-! ### Listed specifications -/

/-- A source was come across by the walk of a directory. -/
theorem Disk.exists_mem_walk_of_mem_sourcesIn {disk : Disk} {kind : SourceKind} {directories : List Path}
    {path : Path} (h : path ∈ Index.sourcesIn disk kind directories) :
    ∃ directory ∈ directories, ∃ entry ∈ disk.walk directory, entry.path = path := by
  let walk (root : Path) : List Path :=
    ((disk.walk root).filter fun entry ↦ !entry.isDirectory).map WalkEntry.path
  have hsources : Index.sourcesIn disk kind directories = Index.sourcesBy walk kind directories := rfl
  rw [hsources] at h
  obtain ⟨-, directory, hdirectory, hfound⟩ := (Index.areFound_sourcesBy walk kind directories).mem_walk path h
  obtain ⟨entry, hentry, hpath⟩ := List.mem_map.mp hfound
  exact ⟨directory, hdirectory, entry, List.mem_of_mem_filter hentry, hpath⟩

namespace Index

variable {disk : Disk} {directories : List Path} {spec : Specification} {path : Path}

theorem build_new (disk : Disk) (directories : List Path) :
    ((new directories).build disk).1 = ofPlan directories
      (.read disk.contents (sourcesIn disk .concepts directories) (sourcesIn disk .specification directories)) :=
  buildFrom_fst (areSources_sourcesIn disk .specification directories)

/-- A path is found after a build exactly when it is listed. -/
theorem specification?_build :
    ((new directories).build disk).1.cache.specification? path = some spec ↔
      spec ∈ ((new directories).build disk).1.cache.allSpecifications ∧
        spec.file.location = path.location := by
  have hsources := BuildPlan.areSources_specifications disk.contents (sourcesIn disk .concepts directories)
    (areSources_sourcesIn disk .specification directories)
  rw [build_new, allSpecifications_ofPlan directories hsources.inOrder, Cache.specification?,
    Option.bind_eq_some_iff]
  simp only [find?_specifications_ofPlan hsources]
  constructor
  · rintro ⟨specs, ⟨found, hfound, hsame, rfl⟩, hlast⟩
    obtain rfl : found = spec := Option.some.inj hlast
    exact ⟨hfound, hsame⟩
  · rintro ⟨hspec, hsame⟩
    exact ⟨[spec], ⟨spec, hspec, hsame, rfl⟩, rfl⟩

/-- What is listed after a build was read from a source and expanded with the dictionary. -/
theorem read_of_mem_build (h : spec ∈ ((new directories).build disk).1.cache.allSpecifications) :
    spec.file ∈ sourcesIn disk .specification directories ∧
      disk.contents.expanded ((new directories).build disk).1.dictionary spec.file = .ok spec := by
  have hsources := BuildPlan.areSources_specifications disk.contents (sourcesIn disk .concepts directories)
    (areSources_sourcesIn disk .specification directories)
  rw [build_new, allSpecifications_ofPlan directories hsources.inOrder] at h
  rw [build_new]
  exact BuildPlan.mem_specifications.mp h

end Index

/-! ### Projects -/

namespace Project

/-- The specifications that a command lists. -/
def listed (project : Project) (disk : Disk) : List Specification :=
  ((Index.new project.directories).build disk).1.cache.allSpecifications

/-- The report of the build that a command makes. -/
def report (project : Project) (disk : Disk) : String :=
  Listing.report ((Index.new project.directories).build disk).2

end Project

namespace Invocation

variable {invocation : Invocation} {disk : Disk} {project : Project}

theorem project_withCommand (invocation : Invocation) (command : Option Command) (disk : Disk) :
    { invocation with command }.project disk = invocation.project disk := rfl

/-- The directories of a project are put into their canonical form if they exist. -/
theorem exists_canonicalOrSame (h : invocation.project disk = .ok project) :
    ∀ directory ∈ project.directories, ∃ path, directory = disk.canonicalOrSame path := by
  intro directory hdirectory
  obtain ⟨format, -, hsettings⟩ := bind_eq_ok_iff.mp h
  obtain ⟨settings, -, hproject⟩ := bind_eq_ok_iff.mp hsettings
  cases hproject
  obtain ⟨named, -, rfl⟩ := List.mem_map.mp hdirectory
  exact ⟨_, rfl⟩

end Invocation

/-! ### Answers -/

namespace CommandLine

/-- How the question for a line of a listed specification is answered. -/
inductive AnswersQuery (disk : Disk) (project : Project) (spec : Specification) (line : Nat) :
    CommandOutcome → Prop
  /-- No link stands on the way to the file. The answer is about the specification. -/
  | asListed (hway : ¬ disk.PassesLink spec.file.place) (hcanonical : disk.canonical spec.file = .ok spec.file) :
    AnswersQuery disk project spec line
      ⟨Listing.scenarios project.format (spec.scenarioAt line), project.report disk, .success⟩
  /-- A link on the way leads to another listed file. The answer is about that one, which holds the same text. -/
  | asLinked {found : Path} (hway : disk.PassesLink spec.file.place) (hother : found ≠ spec.file)
    (hcanonical : disk.canonical spec.file = .ok found)
    (hlisted : { spec with file := found } ∈ project.listed disk) :
    AnswersQuery disk project spec line
      ⟨Listing.scenarios project.format ({ spec with file := found }.scenarioAt line), project.report disk,
        .success⟩
  /-- A link on the way leads to a file that is not listed. The question is refused. -/
  | notIndexed {found : Path} (hway : disk.PassesLink spec.file.place) (hother : found ≠ spec.file)
    (hcanonical : disk.canonical spec.file = .ok found)
    (hmissing : ∀ other ∈ project.listed disk, other.file ≠ found) :
    AnswersQuery disk project spec line ⟨"", project.report disk, .failure (.notIndexed found)⟩

section Listed

variable {disk : Disk} {project : Project} {spec other : Specification}

theorem exists_locate_of_mem_listed (h : spec ∈ project.listed disk) :
    ∃ place content, disk.locate spec.file = .ok place ∧ disk.entryAt? place = some (.text content) := by
  obtain ⟨content, hcontent⟩ := Contents.exists_content_of_expanded (Index.read_of_mem_build h).2
  obtain ⟨place, hlocate, hentry⟩ := Disk.read_eq_ok_iff.mp hcontent
  exact ⟨place, content, hlocate, hentry⟩

/-- Listed specifications of the same text differ in nothing but their files. -/
theorem eq_of_read_eq (h : spec ∈ project.listed disk) (hother : other ∈ project.listed disk)
    (hsame : disk.read other.file = disk.read spec.file) : other = { spec with file := other.file } := by
  have hspec := (Index.read_of_mem_build h).2
  have hagain := Contents.expanded_of_same hspec hsame
  rw [(Index.read_of_mem_build hother).2] at hagain
  exact Except.ok.inj hagain

/-- Assumes: a path that leads somewhere. The question for a line is answered from the index. -/
theorem scenario_eq_of_canonical {path found : Path} (h : disk.canonical path = .ok found) (line : Nat) :
    scenario disk project.directories project.format path line =
      (((Index.new project.directories).build disk).1.scenarioAt? found line).elim
        ⟨"", project.report disk, .failure (.notIndexed found)⟩
        fun answer ↦ ⟨Listing.scenarios project.format answer, project.report disk, .success⟩ := by
  unfold scenario Project.report
  rcases (Index.new project.directories).build disk with ⟨index, report⟩
  simp only [h]
  cases index.scenarioAt? found line <;> rfl

variable (htree : disk.IsTree)
  (hdirectories : ∀ directory ∈ project.directories, ∃ path, directory = disk.canonicalOrSame path)

include htree hdirectories

/-- The path of a listed specification spells a place beneath a directory of the project that no link stands at. -/
theorem exists_place_of_mem_listed (h : spec ∈ project.listed disk) :
    ∃ base place : Place, .ofPlace base ∈ project.directories ∧ disk.EndsAt base ∧ base <+: place ∧
      place.IsNamed ∧ spec.file = .ofPlace place := by
  obtain ⟨directory, hdirectory, entry, hentry, hpath⟩ :=
    Disk.exists_mem_walk_of_mem_sourcesIn (Index.read_of_mem_build h).1
  obtain ⟨path, rfl⟩ := hdirectories directory hdirectory
  obtain ⟨base, place, hbase, hends, hbelow, hnamed, hplace⟩ := htree.exists_place_of_mem_walk hentry
  exact ⟨base, place, hbase ▸ hdirectory, hends, hbelow, hnamed, hpath.symm.trans hplace⟩

/-- What is known at the place that the path of a listed specification leads to is listed and has its text. -/
theorem eq_of_specification?_locate (h : spec ∈ project.listed disk) {found : Place}
    (hlocate : disk.locate spec.file = .ok found)
    (hknown : ((Index.new project.directories).build disk).1.cache.specification? (.ofPlace found) = some other) :
    other ∈ project.listed disk ∧ other = { spec with file := .ofPlace found } := by
  obtain ⟨hother, hsame⟩ := Index.specification?_build.mp hknown
  obtain ⟨content, hcontent⟩ := Contents.exists_content_of_expanded (Index.read_of_mem_build h).2
  obtain ⟨again, hagain, hentry⟩ := Disk.read_eq_ok_iff.mp hcontent
  obtain rfl : again = found := Except.ok.inj (hagain.symm.trans hlocate)
  have hfound : again.IsNamed := htree.isNamed_of_entryAt? hentry
  have hfile : other.file = .ofPlace again := by
    obtain ⟨-, place, -, -, -, hnamed, hspelled⟩ := exists_place_of_mem_listed htree hdirectories hother
    rw [hspelled] at hsame
    rw [hspelled, Path.ofPlace_congr hnamed hfound hsame]
  -- Both paths lead to the same place: the other one spells it, and no link stands on the way to it.
  have hread : disk.read other.file = disk.read spec.file := by
    obtain ⟨place, text, hplace, -⟩ := exists_locate_of_mem_listed hother
    have hnone : ¬ disk.PassesLink again := htree.not_passesLink (htree.endsAt_locate hlocate)
    obtain rfl := Disk.eq_of_locate_ofPlace hfound hnone (hfile ▸ hplace)
    rw [Disk.read_eq_ok_iff.mpr ⟨_, hplace, hentry⟩, Disk.read_eq_ok_iff.mpr ⟨_, hlocate, hentry⟩]
  have heq := eq_of_read_eq h hother hread
  rw [hfile] at heq
  exact ⟨hother, heq⟩

/-- The question for a line of a listed specification is answered. -/
theorem answersQuery_scenario (h : spec ∈ project.listed disk) (line : Nat) :
    AnswersQuery disk project spec line (scenario disk project.directories project.format spec.file line) := by
  obtain ⟨base, place, -, -, -, hnamed, hfile⟩ := exists_place_of_mem_listed htree hdirectories h
  obtain ⟨found, content, hlocate, hentry⟩ := exists_locate_of_mem_listed h
  have hcanonical : disk.canonical spec.file = .ok (.ofPlace found) :=
    Disk.canonical_eq_ok_iff.mpr ⟨found, _, hlocate, hentry, rfl⟩
  have hplace : spec.file.place = place := by rw [hfile, Path.place_ofPlace hnamed]
  have hleads : found = place ↔ ¬ disk.PassesLink place :=
    htree.eq_iff_not_passesLink hnamed (hfile ▸ hlocate)
  by_cases hway : disk.PassesLink spec.file.place
  · have hother : .ofPlace found ≠ spec.file := by
      intro hsame
      have hfound : found.IsNamed := htree.isNamed_of_entryAt? hentry
      have heq : found = place := by rw [← Path.place_ofPlace hfound, hsame, hplace]
      exact hleads.mp heq (hplace ▸ hway)
    cases hknown : ((Index.new project.directories).build disk).1.cache.specification? (.ofPlace found) with
    | some other =>
      obtain ⟨hlisted, rfl⟩ := eq_of_specification?_locate htree hdirectories h hlocate hknown
      rw [scenario_eq_of_canonical hcanonical, Index.scenarioAt?, hknown]
      exact .asLinked hway hother hcanonical hlisted
    | none =>
      rw [scenario_eq_of_canonical hcanonical, Index.scenarioAt?, hknown]
      refine .notIndexed hway hother hcanonical fun other hlisted hsame ↦ ?_
      rw [Index.specification?_build.mpr ⟨hlisted, congrArg Path.location hsame⟩] at hknown
      cases hknown
  · rw [hleads.mpr (hplace ▸ hway), ← hfile] at hcanonical
    have hknown := Index.specification?_build.mpr ⟨h, rfl⟩
    rw [scenario_eq_of_canonical hcanonical, Index.scenarioAt?, hknown]
    exact .asListed hway hcanonical

end Listed

theorem run_eq_runCommand {disk : Disk} {words : List String} {invocation : Invocation} {project : Project}
    {command : Command} (hwords : Invocation.parse? words = some invocation)
    (hproject : invocation.project disk = .ok project) (hcommand : invocation.command = some command) :
    run disk words = runCommand disk project command := by
  unfold run
  simp only [hwords, hproject, hcommand]

open InvocationDraft

/-- Assumes: a tree of files, and a command line that lists the specifications of a project. Every specification
that it lists lies beneath a directory of the project that is spelled without a link, and the question for any
of its lines, with the same options and the path that is printed for it, is answered. -/
theorem answersQueries_run {disk : Disk} {project : Project} {invocation : Invocation} {before after : List String}
    (htree : disk.IsTree) (hbefore : AreOptions before)
    (hwords : Invocation.parse? (before ++ "specs" :: after) = some invocation)
    (hproject : invocation.project disk = .ok project) :
    run disk (before ++ "specs" :: after) =
        ⟨Listing.specifications project.format ((project.listed disk).map .of), project.report disk,
          .success⟩ ∧
      ∀ spec ∈ project.listed disk,
        (∃ directory ∈ project.directories,
          spec.file.isBeneath directory = true ∧ ¬ disk.PassesLink directory.place) ∧
        ∀ line < numberLimit,
          AnswersQuery disk project spec line
            (run disk (before ++ "scenario" :: (SpecSummary.of spec).identifier ::
              "--line" :: toString line :: after)) := by
  obtain ⟨hcommand, hasking⟩ := Invocation.parse?_specs hbefore hwords
  have hdirectories := Invocation.exists_canonicalOrSame hproject
  refine ⟨?_, fun spec hspec ↦ ?_⟩
  · rw [run_eq_runCommand hwords hproject hcommand, runCommand, listing, Project.report, Project.listed]
    generalize (Index.new project.directories).build disk = built
    rfl
  · obtain ⟨base, place, hdirectory, hends, hbelow, hnamed, hfile⟩ :=
      exists_place_of_mem_listed htree hdirectories hspec
    -- The directory spells a beginning of the place, which is itself no link and is behind none.
    have hbase : base.IsNamed := fun name hname ↦ hnamed name (hbelow.subset hname)
    refine ⟨⟨.ofPlace base, hdirectory, ?_, ?_⟩, fun line hline ↦ ?_⟩
    · rw [hfile, Path.isBeneath, Path.location_ofPlace hbase, Path.location_ofPlace hnamed,
        List.isPrefixOf_iff_prefix]
      exact List.cons_prefix_cons.mpr ⟨rfl, hbelow.map _⟩
    · rw [Path.place_ofPlace hbase]
      exact htree.not_passesLink hends
    -- The path is absolute, so the root of the project does not matter for it, nor can it be taken for an option.
    · have habsolute : spec.file.isAbsolute = true := hfile ▸ Path.isAbsolute_ofPlace place
      have hjoin : project.root.join ⟨(SpecSummary.of spec).identifier⟩ = spec.file := if_pos habsolute
      have hquery := hasking (SpecSummary.of spec).identifier line habsolute hline
      rw [run_eq_runCommand hquery ((Invocation.project_withCommand invocation _ disk).trans hproject) rfl,
        runCommand, hjoin]
      exact answersQuery_scenario htree hdirectories hspec line

/-- A shop with two specifications, one of them kept elsewhere. In the directory of specifications there is a link
to each, and the shop itself has a second name. -/
def shopDisk : Disk where
  entries := Std.ExtTreeMap.ofList (α := Place) (β := DiskEntry) [
    (["shop"], .link ⟨"/project"⟩),
    (["project"], .directory),
    (["project", "specs"], .directory),
    (["project", "specs", "pay.spec"], .text "# Pay\n## By card\n* Pay\n"),
    (["project", "specs", "also.spec"], .link ⟨"pay.spec"⟩),
    (["project", "specs", "go.spec"], .link ⟨"../shared/go.spec"⟩),
    (["project", "shared"], .directory),
    (["project", "shared", "go.spec"], .text "# Go\n## On foot\n* Go\n")]
  workingDirectory := ["project"]

/-- A command line about the shop under its second name, and what it is about. -/
def shopInvocation : Invocation := ⟨some .specifications, none, some ⟨"/shop"⟩, some "json"⟩

def shopProject : Project := ⟨⟨"/shop"⟩, [⟨"/project/specs"⟩], .json⟩

theorem answersQueries_run_shop :
    (shopDisk.IsTree ∧ AreOptions ["--root", "/shop"] ∧
      Invocation.parse? (["--root", "/shop"] ++ "specs" :: ["-f", "json"]) = some shopInvocation ∧
      shopInvocation.project shopDisk = .ok shopProject) ∧
    run shopDisk (["--root", "/shop"] ++ "specs" :: ["-f", "json"]) =
        ⟨Listing.specifications shopProject.format ((shopProject.listed shopDisk).map .of),
          shopProject.report shopDisk, .success⟩ ∧
      ∀ spec ∈ shopProject.listed shopDisk,
        (∃ directory ∈ shopProject.directories,
          spec.file.isBeneath directory = true ∧ ¬ shopDisk.PassesLink directory.place) ∧
        ∀ line < numberLimit,
          AnswersQuery shopDisk shopProject spec line
            (run shopDisk (["--root", "/shop"] ++ "scenario" :: (SpecSummary.of spec).identifier ::
              "--line" :: toString line :: ["-f", "json"])) := by
  have htree : shopDisk.IsTree := by decide +kernel
  have hbefore : AreOptions ["--root", "/shop"] :=
    ⟨{ InvocationDraft.empty with root := some "/shop" }, rfl, rfl, rfl, rfl⟩
  have hwords : Invocation.parse? (["--root", "/shop"] ++ "specs" :: ["-f", "json"]) = some shopInvocation := by
    decide +kernel
  have hproject : shopInvocation.project shopDisk = .ok shopProject := by decide +kernel
  exact ⟨⟨htree, hbefore, hwords, hproject⟩, answersQueries_run htree hbefore hwords hproject⟩

/-- Two of the three paths that are listed go through links. The question for a line of the first is answered
under another path, the question for a line of the second is refused. -/
theorem exists_refused_listed_shop :
    (run shopDisk ["specs"]).output =
        Listing.specifications .text
          [⟨"Pay", "/project/specs/also.spec"⟩, ⟨"Go", "/project/specs/go.spec"⟩,
            ⟨"Pay", "/project/specs/pay.spec"⟩] ∧
      (run shopDisk ["scenario", "/project/specs/also.spec", "--line", "2"]).output =
        Listing.scenarios .text (.found ⟨"By card", 2, "/project/specs/pay.spec:2"⟩) ∧
      (run shopDisk ["scenario", "/project/specs/go.spec", "--line", "2"]).result =
        .failure (.notIndexed ⟨"/project/shared/go.spec"⟩) := by
  decide +kernel

end CommandLine

end LiveSpec
