import LiveSpec.Proofs.Concepts.CycleReport
import LiveSpec.Proofs.Grammar.Reading
import LiveSpec.Proofs.Index.Build

/-!
# What a build accounts for

A build finds the sources of its directories by walking them. Nothing is assumed of the walk here: it is any
list of paths for each root (`Index.buildBy`), and a location is a source when some directory leads to it,
however many do (`Index.AreFound`). Every source is then read once. It is known afterwards, or it is among the
failures, and the numbers in the report follow (`Index.IsAccounted`). The concepts of the files that could be
parsed are in the dictionary or reported (`Dictionary.size_add_length_build`).

What failed leaves no trace. A fresh index that is built from the same files without the failures is the same
index (`Index.accounts_buildBy`), so that it answers every question alike.
-/

set_option autoImplicit false

namespace LiveSpec

/-! ### Concepts -/

namespace Dictionary

theorem size_add_length_define (soFar : Definitions × List ConceptError) (concept : Concept) :
    (define soFar concept).1.size + (define soFar concept).2.length =
      soFar.1.size + soFar.2.length + 1 := by
  unfold define
  split
  · rw [List.length_append, List.length_singleton, Nat.add_assoc]
  · next hnone =>
    have hnew : soFar.1.contains concept.signature = false := by
      rw [Std.ExtTreeMap.contains_eq_isSome_getElem?, hnone]
      rfl
    rw [Std.ExtTreeMap.size_insert, hnew, if_neg Bool.false_ne_true, Nat.add_right_comm]

/-- Every concept is the first definition of its signature or a duplicate. -/
theorem size_add_length_firstDefinitions (concepts : List Concept) :
    (firstDefinitions concepts).1.size + (firstDefinitions concepts).2.length = concepts.length := by
  have hfold : ∀ (rest : List Concept) (soFar : Definitions × List ConceptError),
      (rest.foldl define soFar).1.size + (rest.foldl define soFar).2.length =
        soFar.1.size + soFar.2.length + rest.length := by
    intro rest
    induction rest with
    | nil => exact fun soFar ↦ rfl
    | cons concept rest ih =>
      intro soFar
      rw [List.foldl_cons, ih, size_add_length_define, List.length_cons]
      omega
  rw [firstDefinitions, hfold, Std.ExtTreeMap.size_empty]
  simp

/-- Two maps have as many keys in common as each of them has in common with the other. -/
theorem countP_keys_contains {β γ : Type} (first : Std.ExtTreeMap String β)
    (second : Std.ExtTreeMap String γ) :
    first.keys.countP second.contains = second.keys.countP first.contains := by
  rw [List.countP_eq_length_filter, List.countP_eq_length_filter]
  refine List.Perm.length_eq ((List.perm_ext_iff_of_nodup ?_ ?_).mpr fun signature ↦ ?_)
  · exact Std.ExtTreeMap.nodup_keys.filter _
  · exact Std.ExtTreeMap.nodup_keys.filter _
  · rw [List.mem_filter, List.mem_filter, Std.ExtTreeMap.mem_keys, Std.ExtTreeMap.mem_keys,
      Std.ExtTreeMap.mem_iff_contains, Std.ExtTreeMap.mem_iff_contains]
    exact and_comm

/-- Every definition is admitted or reported with a cycle. -/
theorem size_withoutCycles_add_length (definitions : Definitions)
    (cycles : Std.ExtTreeMap String (List String)) :
    (withoutCycles definitions cycles).size +
      (cycles.toList.filterMap (cycleError? definitions)).length = definitions.size := by
  have hadmitted : (withoutCycles definitions cycles).size =
      definitions.keys.countP fun signature ↦ !cycles.contains signature := by
    rw [withoutCycles, size, Std.ExtTreeMap.size_map, ← Std.ExtTreeMap.length_toList,
      Std.ExtTreeMap.toList_filter, ← List.countP_eq_length_filter,
      ← Std.ExtTreeMap.map_fst_toList_eq_keys, List.countP_map]
    rfl
  have hreported : (cycles.toList.filterMap (cycleError? definitions)).length =
      cycles.keys.countP definitions.contains := by
    rw [List.length_filterMap_eq_countP, ← Std.ExtTreeMap.map_fst_toList_eq_keys, List.countP_map]
    refine List.countP_congr fun found _ ↦ ?_
    rw [cycleError?, Option.isSome_map, Function.comp_apply,
      Std.ExtTreeMap.contains_eq_isSome_getElem?]
  have hnot : (fun signature ↦ !cycles.contains signature) =
      fun signature ↦ decide ¬cycles.contains signature = true := by
    funext signature
    cases cycles.contains signature <;> rfl
  rw [hadmitted, hreported, ← countP_keys_contains, hnot, Nat.add_comm,
    ← List.length_eq_countP_add_countP, Std.ExtTreeMap.length_keys]

/-- Every concept is in the dictionary or reported. -/
theorem size_add_length_build (concepts : List Concept) :
    (build concepts).1.size + (build concepts).2.length = concepts.length := by
  have hfirst := size_add_length_firstDefinitions concepts
  rcases hdefinitions : firstDefinitions concepts with ⟨definitions, duplicates⟩
  rw [hdefinitions] at hfirst
  have hcycles := size_withoutCycles_add_length definitions (findCycles definitions)
  rw [build, hdefinitions]
  dsimp only at hfirst ⊢
  rw [List.length_append]
  omega

end Dictionary

/-! ### Sources -/

/-- The spelling that a location has in a list of paths. -/
def Path.spelling? (paths : List Path) (path : Path) : Option Path :=
  paths.find? fun listed ↦ listed.location = path.location

namespace Path

variable {paths more : List Path} {path listed : Path}

theorem mem_of_spelling? (h : spelling? paths path = some listed) : listed ∈ paths :=
  List.mem_of_find?_eq_some h

theorem location_of_spelling? (h : spelling? paths path = some listed) :
    listed.location = path.location := by
  simpa using List.find?_some h

theorem isSome_spelling? :
    (spelling? paths path).isSome ↔ ∃ listed ∈ paths, listed.location = path.location := by
  simp [spelling?]

/-- Assumes: paths in order. Each of them is the spelling of its location. -/
theorem AreInOrder.spelling?_eq_some_iff (h : AreInOrder paths) :
    spelling? paths path = some path ↔ path ∈ paths := by
  constructor
  · exact mem_of_spelling?
  · intro hpath
    obtain ⟨listed, hlisted⟩ := Option.isSome_iff_exists.mp (isSome_spelling?.mpr ⟨path, hpath, rfl⟩)
    obtain rfl := List.inj_on_of_nodup_map h.nodup (mem_of_spelling? hlisted) hpath
      (location_of_spelling? hlisted)
    exact hlisted

/-- Assumes: two lists in order, with the same spelling for every location. They are the same list. -/
theorem AreInOrder.eq_of_spelling?_eq (hpaths : AreInOrder paths) (hmore : AreInOrder more)
    (h : ∀ path, spelling? paths path = spelling? more path) : paths = more := by
  have hnodup : ∀ {list : List Path}, AreInOrder list → list.Nodup :=
    fun hlist ↦ List.Nodup.of_map _ hlist.nodup
  refine List.Perm.eq_of_pairwise ?_ hpaths hmore ?_
  · intro one other _ _ hless hgreater
    rw [Std.OrientedCmp.gt_of_lt hless] at hgreater
    cases hgreater
  · refine (List.perm_ext_iff_of_nodup (hnodup hpaths) (hnodup hmore)).mpr fun path ↦ ?_
    rw [← hpaths.spelling?_eq_some_iff, ← hmore.spelling?_eq_some_iff, h path]

/-- Assumes: a property of locations. The paths with the property have the spellings that they have among
all. -/
theorem spelling?_filter {keep : Path → Bool}
    (h : ∀ one other : Path, one.location = other.location → keep one = keep other) :
    spelling? (paths.filter keep) path = if keep path then spelling? paths path else none := by
  unfold spelling?
  rw [List.find?_filter]
  split
  · next hkeep =>
    congr 1
    funext listed
    by_cases hsame : listed.location = path.location <;> simp [hsame, h listed path, hkeep]
  · next hkeep =>
    refine List.find?_eq_none.mpr fun listed _ hboth ↦ ?_
    obtain ⟨hlisted, hsame⟩ := of_decide_eq_true hboth
    exact hkeep ((h listed path (of_decide_eq_true hsame)).symm.trans hlisted)

/-- A store lists a location in the spelling that it has stored for it. -/
theorem spelling?_paths {α : Type} {map : PathMap α} (h : map.IsSpelled) :
    spelling? map.paths path = (map.stored? path).map Prod.fst := by
  cases hstored : map.stored? path with
  | none =>
    refine List.find?_eq_none.mpr fun listed hlisted hsame ↦ ?_
    have hknown := PathMap.contains_of_mem_paths h hlisted
    rw [PathMap.contains_congr (of_decide_eq_true hsame), PathMap.contains, hstored] at hknown
    cases hknown
  | some stored =>
    have hlocation : stored.1.location = path.location := h path.location stored hstored
    have hlisted : stored.1 ∈ map.paths := PathMap.mem_paths.mpr ⟨path.location, stored.2, hstored⟩
    have hfound := (PathMap.areInOrder_paths h).spelling?_eq_some_iff.mpr hlisted
    rw [spelling?, hlocation] at hfound
    exact hfound

theorem stored?_insertAll (stored : PathSet) (added : List Path) :
    (PathMap.stored? (PathSet.insertAll stored added) path).map Prod.fst =
      ((PathMap.stored? stored path).map Prod.fst).or (spelling? added path) := by
  induction added generalizing stored with
  | nil => simp [PathSet.insertAll, spelling?]
  | cons first added ih =>
    rw [PathSet.insertAll, List.foldl_cons]
    refine (ih (PathSet.insert stored first)).trans ?_
    rw [spelling?, spelling?, List.find?_cons]
    simp only [PathSet.insert, PathMap.set, PathMap.stored?, Std.ExtTreeMap.getElem?_insert,
      Std.compare_eq_iff_eq]
    by_cases hsame : first.location = path.location
    · rw [if_pos hsame, hsame, decide_eq_true rfl]
      cases stored.entries[path.location]? <;> rfl
    · rw [if_neg hsame, decide_eq_false hsame]

/-- A set of paths keeps the spelling under which a location comes first. -/
theorem spelling?_paths_insertAll (added : List Path) :
    spelling? (PathMap.paths (PathSet.insertAll ∅ added)) path = spelling? added path := by
  rw [spelling?_paths (PathSet.isSpelled_insertAll PathMap.isSpelled_empty added), stored?_insertAll,
    PathMap.stored?_empty, Option.map_none, Option.none_or]

end Path

namespace Index

/-- The sources of one kind in some directories, as walks from these come to them. -/
def sourcesBy (walk : Path → List Path) (kind : SourceKind) (directories : List Path) : List Path :=
  PathMap.paths (PathSet.insertAll ∅ (directories.reverse.flatMap fun root ↦
    PathMap.paths (PathSet.insertAll ∅ ((walk root).filter fun path ↦ path.sourceKind = kind))))

/-- Builds the index from the files that walks come to. -/
def buildBy (index : Index) (walk : Path → List Path) (contents : Contents) : Index × BuildReport :=
  index.buildFrom contents (sourcesBy walk .concepts index.directories)
    (sourcesBy walk .specification index.directories)

/-- To build from a disk is to build from the files that the walks of the disk come to. -/
theorem build_eq_buildBy (index : Index) (disk : Disk) :
    index.build disk = index.buildBy
      (fun root ↦ ((disk.walk root).filter fun entry ↦ !entry.isDirectory).map WalkEntry.path)
      disk.contents := rfl

/-- Some paths are the sources of one kind in some directories: each location once and in order, whichever
and however many of the directories lead to it. -/
structure AreFound (walk : Path → List Path) (directories : List Path) (kind : SourceKind)
    (sources : List Path) : Prop where
  inOrder : Path.AreInOrder sources
  mem_walk : ∀ source ∈ sources, source.sourceKind = kind ∧ ∃ root ∈ directories, source ∈ walk root
  exists_mem : ∀ root ∈ directories, ∀ path ∈ walk root, path.sourceKind = kind →
    ∃ source ∈ sources, source.location = path.location

theorem AreFound.areSources {walk : Path → List Path} {directories sources : List Path} {kind : SourceKind}
    (h : AreFound walk directories kind sources) : Path.AreSources kind sources :=
  ⟨h.inOrder, fun source hsource ↦ (h.mem_walk source hsource).1⟩

theorem spelling?_sourcesBy (walk : Path → List Path) (kind : SourceKind) (directories : List Path)
    (path : Path) :
    Path.spelling? (sourcesBy walk kind directories) path =
      if path.sourceKind = kind then
        directories.reverse.findSome? fun root ↦ Path.spelling? (walk root) path
      else none := by
  have hkind : ∀ one other : Path, one.location = other.location →
      decide (one.sourceKind = kind) = decide (other.sourceKind = kind) :=
    fun one other hsame ↦ by rw [Path.sourceKind_congr hsame]
  have hroot : ∀ root, Path.spelling? (PathMap.paths (PathSet.insertAll ∅
        ((walk root).filter fun path ↦ path.sourceKind = kind))) path =
      if path.sourceKind = kind then Path.spelling? (walk root) path else none := by
    intro root
    rw [Path.spelling?_paths_insertAll, Path.spelling?_filter hkind]
    simp
  rw [sourcesBy, Path.spelling?_paths_insertAll, Path.spelling?, List.find?_flatMap]
  change (directories.reverse.findSome? fun root ↦ Path.spelling? _ path) = _
  simp only [hroot]
  split
  · rfl
  · exact List.findSome?_eq_none_iff.mpr fun _ _ ↦ rfl

theorem areFound_sourcesBy (walk : Path → List Path) (kind : SourceKind) (directories : List Path) :
    AreFound walk directories kind (sourcesBy walk kind directories) := by
  have hinOrder : Path.AreInOrder (sourcesBy walk kind directories) :=
    PathMap.areInOrder_paths (PathSet.isSpelled_insertAll PathMap.isSpelled_empty _)
  refine ⟨hinOrder, fun source hsource ↦ ?_, fun root hroot path hpath hkind ↦ ?_⟩
  · have hspelling := hinOrder.spelling?_eq_some_iff.mpr hsource
    rw [spelling?_sourcesBy] at hspelling
    split at hspelling
    · next hkind =>
      obtain ⟨root, hroot, hfound⟩ := List.exists_of_findSome?_eq_some hspelling
      exact ⟨hkind, root, List.mem_reverse.mp hroot, Path.mem_of_spelling? hfound⟩
    · cases hspelling
  · rw [← Path.isSome_spelling?, spelling?_sourcesBy, if_pos hkind, List.findSome?_isSome_iff]
    exact ⟨root, List.mem_reverse.mpr hroot, Path.isSome_spelling?.mpr ⟨path, hpath, rfl⟩⟩

end Index

/-! ### Failures -/

namespace Contents

variable {contents : Contents} {dictionary : Dictionary} {file : Path}

/-- What is wrong with a concept file: it cannot be parsed. -/
def conceptFault? (contents : Contents) (file : Path) : Option IndexError :=
  match contents.concepts file with
  | .ok _ => none
  | .error error => some (.parse error)

/-- What is wrong with a specification: it cannot be parsed, or it cannot be expanded. -/
def specificationFault? (contents : Contents) (dictionary : Dictionary) (file : Path) :
    Option IndexError :=
  match contents.specification file with
  | .ok spec => (spec.expand dictionary).2.map (.expand file)
  | .error error => some (.parse error)

theorem conceptFile_eq_error {error : IndexError} :
    contents.conceptFile file = .error error ↔ contents.conceptFault? file = some error := by
  unfold conceptFile conceptFault?
  cases contents.concepts file <;> simp [Except.mapError, Except.map]

theorem expanded_eq_error {error : IndexError} :
    contents.expanded dictionary file = .error error ↔
      contents.specificationFault? dictionary file = some error := by
  unfold expanded specificationFault?
  cases contents.specification file with
  | error fault => simp [Except.mapError, bind, Except.bind]
  | ok spec =>
    dsimp only [Except.mapError, bind, Except.bind]
    rcases spec.expand dictionary with ⟨expanded, _ | mismatch⟩ <;> simp

/-- Assumes: a parser whose errors name the file. What goes wrong in reading and parsing a file names it. -/
theorem file_of_source_bind {α : Type} {parse : String → Except ParseError α} {error : ParseError}
    (hparse : ∀ text, parse text = .error error → error.file = file)
    (h : (contents.source file >>= parse) = .error error) : error.file = file := by
  unfold source at h
  cases hread : contents file with
  | error fault =>
    rw [hread] at h
    cases h
    rfl
  | ok text =>
    rw [hread] at h
    exact hparse text h

theorem file_of_inFile {α : Type} {outcome : Except Refusal α} {error : ParseError}
    (h : (outcome.mapError fun refusal ↦ refusal.inFile file) = .error error) : error.file = file := by
  cases outcome with
  | ok value => cases h
  | error refusal =>
    cases h
    rfl

theorem file_of_conceptFault? {error : IndexError} (h : contents.conceptFault? file = some error) :
    error.file = file := by
  unfold conceptFault? at h
  split at h
  · cases h
  · next error hread =>
    obtain rfl := Option.some.inj h
    exact file_of_source_bind (fun _ ↦ file_of_inFile) hread

theorem file_of_specificationFault? {error : IndexError}
    (h : contents.specificationFault? dictionary file = some error) : error.file = file := by
  unfold specificationFault? at h
  split at h
  · obtain ⟨mismatch, -, rfl⟩ := Option.map_eq_some_iff.mp h
    rfl
  · next error hread =>
    obtain rfl := Option.some.inj h
    exact file_of_source_bind (fun _ ↦ file_of_inFile) hread

end Contents

namespace BuildPlan

variable {α : Type} {read other : Path → Except IndexError α} {files : List Path}

/-- The failures among the results of reading some files are what is wrong with these. -/
theorem partitionResults_snd {fault? : Path → Option IndexError}
    (h : ∀ file error, read file = .error error ↔ fault? file = some error) :
    (partitionResults (files.map read)).2 = files.filterMap fault? := by
  simp only [partitionResults, List.filterMap_map]
  refine List.filterMap_congr fun file _ ↦ Option.ext fun error ↦ ?_
  rw [← h file error, Function.comp_apply]
  cases read file <;> simp

/-- Assumes: values and errors that carry the path they were read from. Every file has one result. -/
theorem perm_partitionResults (read : Path → Except IndexError α) (fileOf : α → Path)
    (hvalue : ∀ file value, read file = .ok value → fileOf value = file)
    (herror : ∀ file error, read file = .error error → error.file = file) (files : List Path) :
    ((partitionResults (files.map read)).1.map fileOf ++
      (partitionResults (files.map read)).2.map IndexError.file).Perm files := by
  induction files with
  | nil => exact List.Perm.nil
  | cons file files ih =>
    simp only [partitionResults, List.map_cons, List.filterMap_cons] at ih ⊢
    cases hread : read file with
    | ok value =>
      simp only [Except.toOption, List.map_cons, List.cons_append]
      rw [hvalue file value hread]
      exact ih.cons file
    | error error =>
      simp only [Except.toOption, List.map_cons]
      rw [herror file error hread]
      exact List.perm_middle.trans (ih.cons file)

/-- Assumes: what is left out fails, and the others are read alike. Reading the rest gives what reading all of
the files gives. -/
theorem partitionResults_filter {keep : Path → Bool}
    (hleft : ∀ file ∈ files, keep file = false → ∃ error, read file = .error error)
    (hkept : ∀ file ∈ files, keep file = true → other file = read file) :
    (partitionResults ((files.filter keep).map other)).1 = (partitionResults (files.map read)).1 := by
  simp only [partitionResults, List.filterMap_map, List.filterMap_filter]
  refine List.filterMap_congr fun file hfile ↦ ?_
  cases hkeep : keep file with
  | true =>
    rw [if_pos rfl, Function.comp_apply, Function.comp_apply, hkept file hfile hkeep]
  | false =>
    obtain ⟨error, herror⟩ := hleft file hfile hkeep
    rw [if_neg Bool.false_ne_true, Function.comp_apply, herror]
    rfl

section Read

variable {contents : Contents} {conceptFiles specificationFiles : List Path}

theorem dictionary_read : (BuildPlan.read contents conceptFiles specificationFiles).dictionary =
    (Dictionary.build
      ((BuildPlan.read contents conceptFiles specificationFiles).conceptFiles.flatMap Prod.snd)).1 := rfl

theorem specifications_read : (BuildPlan.read contents conceptFiles specificationFiles).specifications =
    (partitionResults (specificationFiles.map (contents.expanded
      (BuildPlan.read contents conceptFiles specificationFiles).dictionary))).1 := rfl

/-- What failed is what is wrong with the concept files, and then what is wrong with the specifications. -/
theorem failures_read : (BuildPlan.read contents conceptFiles specificationFiles).failures =
    conceptFiles.filterMap contents.conceptFault? ++ specificationFiles.filterMap
      (contents.specificationFault?
        (BuildPlan.read contents conceptFiles specificationFiles).dictionary) :=
  congrArg₂ (· ++ ·) (partitionResults_snd fun _ _ ↦ Contents.conceptFile_eq_error)
    (partitionResults_snd fun _ _ ↦ Contents.expanded_eq_error)

/-- A failure is what is wrong with the source that it names. -/
theorem fault?_of_mem_failures {error : IndexError}
    (h : error ∈ (BuildPlan.read contents conceptFiles specificationFiles).failures) :
    (error.file ∈ conceptFiles ∧ contents.conceptFault? error.file = some error) ∨
      (error.file ∈ specificationFiles ∧ contents.specificationFault?
        (BuildPlan.read contents conceptFiles specificationFiles).dictionary error.file = some error) := by
  rw [failures_read, List.mem_append, List.mem_filterMap, List.mem_filterMap] at h
  rcases h with ⟨file, hfile, hfault⟩ | ⟨file, hfile, hfault⟩
  · obtain rfl := Contents.file_of_conceptFault? hfault
    exact .inl ⟨hfile, hfault⟩
  · obtain rfl := Contents.file_of_specificationFault? hfault
    exact .inr ⟨hfile, hfault⟩

/-- The concepts that are read are those of the files that can be parsed. -/
theorem flatMap_conceptFiles_read :
    (BuildPlan.read contents conceptFiles specificationFiles).conceptFiles.flatMap Prod.snd =
      conceptFiles.flatMap fun file ↦ (contents.concepts file).toOption.getD [] := by
  show (partitionResults (conceptFiles.map contents.conceptFile)).1.flatMap Prod.snd = _
  induction conceptFiles with
  | nil => rfl
  | cons file files ih =>
    simp only [partitionResults, List.map_cons, List.filterMap_cons] at ih ⊢
    rw [List.flatMap_cons, ← ih, Contents.conceptFile]
    cases contents.concepts file <;> rfl

/-- Every source has been read or has failed. -/
theorem perm_files_read (contents : Contents) (conceptFiles specificationFiles : List Path) :
    ((BuildPlan.read contents conceptFiles specificationFiles).conceptFiles.map Prod.fst ++
      (BuildPlan.read contents conceptFiles specificationFiles).specifications.map Specification.file ++
      (BuildPlan.read contents conceptFiles specificationFiles).failures.map IndexError.file).Perm
        (conceptFiles ++ specificationFiles) := by
  have hconcepts := perm_partitionResults contents.conceptFile Prod.fst
    (fun file value hread ↦ (conceptFile_eq_ok.mp hread).1.symm)
    (fun file error hread ↦ Contents.file_of_conceptFault? (Contents.conceptFile_eq_error.mp hread))
    conceptFiles
  have hspecs := perm_partitionResults
    (contents.expanded (BuildPlan.read contents conceptFiles specificationFiles).dictionary)
    Specification.file
    (fun file value hread ↦ Contents.file_of_expanded hread)
    (fun file error hread ↦ Contents.file_of_specificationFault? (Contents.expanded_eq_error.mp hread))
    specificationFiles
  refine List.Perm.trans ?_ (hconcepts.append hspecs)
  show (_ ++ _ ++ List.map IndexError.file (_ ++ _)).Perm _
  rw [List.map_append]
  simp only [List.append_assoc]
  refine List.Perm.append_left _ ?_
  rw [← List.append_assoc, ← List.append_assoc]
  exact List.perm_append_comm.append_right _

end Read

end BuildPlan

/-! ### The account -/

namespace Index

section Known

variable {plan : BuildPlan} (directories : List Path)

theorem conceptFiles_ofPlan (h : Path.AreInOrder (plan.conceptFiles.map Prod.fst)) :
    (ofPlan directories plan).cache.conceptFiles = plan.conceptFiles.map Prod.fst := by
  show ((∅ : PathMap (List Concept)).setAll plan.conceptFiles).toList.map Prod.fst = _
  rw [PathMap.toList_setAll h]

theorem allSpecifications_ofPlan
    (h : Path.AreInOrder (plan.specifications.map Specification.file)) :
    (ofPlan directories plan).cache.allSpecifications = plan.specifications := by
  have hinOrder : Path.AreInOrder
      ((plan.specifications.map fun spec ↦ (spec.file, [spec])).map Prod.fst) := by
    rw [List.map_map]
    exact h
  show (((∅ : PathMap (List Specification)).setAll
    (plan.specifications.map fun spec ↦ (spec.file, [spec]))).toList.map Prod.snd).flatten = _
  rw [PathMap.toList_setAll hinOrder, List.map_map]
  show (plan.specifications.map fun spec ↦ [spec]).flatten = _
  rw [← List.flatMap_def, List.flatMap_singleton']

/-- What a plan makes is given by what could be read. -/
theorem ofPlan_congr {other : BuildPlan} (hfiles : plan.conceptFiles = other.conceptFiles)
    (hdictionary : plan.dictionary = other.dictionary)
    (hspecs : plan.specifications = other.specifications) :
    ofPlan directories plan = ofPlan directories other := by
  simp only [ofPlan, BuildPlan.contributions, hfiles, hdictionary, hspecs]

end Known

/-- What a build knows and reports accounts for its sources. -/
structure IsAccounted (contents : Contents) (conceptFiles specificationFiles : List Path) (built : Index)
    (report : BuildReport) : Prop where
  /-- Every source is known or has failed, and this once. -/
  perm_files : (built.cache.conceptFiles ++ built.cache.allSpecifications.map Specification.file ++
    report.failures.map IndexError.file).Perm (conceptFiles ++ specificationFiles)
  /-- The failures are those of the concept files and then those of the specifications, in order. -/
  failures_eq : report.failures = conceptFiles.filterMap contents.conceptFault? ++
    specificationFiles.filterMap (contents.specificationFault? built.dictionary)
  allConcepts_eq : built.cache.allConcepts =
    conceptFiles.flatMap fun file ↦ (contents.concepts file).toOption.getD []
  allSpecifications_eq : built.cache.allSpecifications =
    specificationFiles.filterMap fun file ↦ (contents.expanded built.dictionary file).toOption
  build_eq : Dictionary.build built.cache.allConcepts = (built.dictionary, report.conceptErrors)
  /-- As many files were found as are known or have failed. -/
  files_eq : report.conceptFiles + specificationFiles.length =
    built.cache.conceptFiles.length + report.specifications + report.failures.length
  /-- As many concepts were read as are in the dictionary or reported. -/
  concepts_eq : report.concepts + report.conceptErrors.length = built.cache.allConcepts.length
  conceptFiles_eq : report.conceptFiles = conceptFiles.length
  specifications_eq : report.specifications = built.cache.allSpecifications.length
  steps_eq : report.steps = built.cache.steps.length

section BuildFrom

variable {contents : Contents} {conceptFiles specificationFiles : List Path}

/-- Assumes: sources in order. A build accounts for them, whatever the index knew before. -/
theorem isAccounted_buildFrom (index : Index) (hconcepts : Path.AreSources .concepts conceptFiles)
    (hspecs : Path.AreSources .specification specificationFiles) :
    IsAccounted contents conceptFiles specificationFiles
      (index.buildFrom contents conceptFiles specificationFiles).1
      (index.buildFrom contents conceptFiles specificationFiles).2 := by
  have hread := BuildPlan.areSources_conceptFiles contents specificationFiles hconcepts
  have hexpanded := BuildPlan.areSources_specifications contents conceptFiles hspecs
  have hfiles := conceptFiles_ofPlan index.directories hread.inOrder
  have hallSpecs := allSpecifications_ofPlan index.directories hexpanded.inOrder
  have hperm := BuildPlan.perm_files_read contents conceptFiles specificationFiles
  have hbuild : Dictionary.build
        ((BuildPlan.read contents conceptFiles specificationFiles).conceptFiles.flatMap Prod.snd) =
      ((BuildPlan.read contents conceptFiles specificationFiles).dictionary,
        (BuildPlan.read contents conceptFiles specificationFiles).conceptErrors) := rfl
  have hbuilt : (index.buildFrom contents conceptFiles specificationFiles).1 =
      ofPlan index.directories (.read contents conceptFiles specificationFiles) := buildFrom_fst hspecs
  constructor
  · rw [hbuilt, hfiles, hallSpecs]
    exact hperm
  · rw [hbuilt]
    exact BuildPlan.failures_read
  · rw [hbuilt, allConcepts_ofPlan hread]
    exact BuildPlan.flatMap_conceptFiles_read
  · rw [hbuilt, hallSpecs]
    exact List.filterMap_map
  · rw [hbuilt, allConcepts_ofPlan hread]
    exact hbuild
  · have hlength := hperm.length_eq
    rw [hbuilt, hfiles]
    simp only [List.length_append, List.length_map] at hlength ⊢
    exact hlength.symm
  · rw [hbuilt, allConcepts_ofPlan hread, ← Dictionary.size_add_length_build, hbuild]
    rfl
  · rfl
  · rw [hbuilt, hallSpecs]
    rfl
  · rfl

end BuildFrom

/-! ### Building without the failures -/

/-- A walk comes to the files that another one comes to, apart from some locations, and spells them alike. The
order may be another one. -/
def LeavesOut (directories left : List Path) (walk rest : Path → List Path) : Prop :=
  ∀ root ∈ directories, ∀ path, Path.spelling? (rest root) path =
    if ∃ file ∈ left, file.location = path.location then none else Path.spelling? (walk root) path

section WithoutFailures

variable {index : Index} {walk rest : Path → List Path} {contents kept : Contents}

/-- Leaving out locations root by root leaves them out of all roots together. -/
theorem LeavesOut.findSome?_eq {directories left : List Path} (h : LeavesOut directories left walk rest)
    (path : Path) :
    (directories.findSome? fun root ↦ Path.spelling? (rest root) path) =
      if ∃ file ∈ left, file.location = path.location then none
      else directories.findSome? fun root ↦ Path.spelling? (walk root) path := by
  induction directories with
  | nil => rw [List.findSome?_nil, List.findSome?_nil, ite_self]
  | cons root directories ih =>
    have hrest := ih fun other hother ↦ h other (List.mem_cons_of_mem root hother)
    rw [List.findSome?_cons, List.findSome?_cons, h root List.mem_cons_self, hrest]
    by_cases hleft : ∃ file ∈ left, file.location = path.location
    · rw [if_pos hleft, if_pos hleft, if_pos hleft]
    · rw [if_neg hleft, if_neg hleft, if_neg hleft]

/-- The sources that a walk comes to are those of the other one, without the locations that are left out. -/
theorem sourcesBy_of_leavesOut {directories left : List Path}
    (h : LeavesOut directories left walk rest) (kind : SourceKind) :
    sourcesBy rest kind directories = (sourcesBy walk kind directories).filter fun source ↦
      ¬ ∃ file ∈ left, file.location = source.location := by
  have hreverse : LeavesOut directories.reverse left walk rest :=
    fun root hroot ↦ h root (List.mem_reverse.mp hroot)
  have hsources : ∀ someWalk, Path.AreInOrder (sourcesBy someWalk kind directories) :=
    fun someWalk ↦ (areFound_sourcesBy someWalk kind directories).inOrder
  refine (hsources rest).eq_of_spelling?_eq ((hsources walk).sublist List.filter_sublist) fun path ↦ ?_
  rw [Path.spelling?_filter fun one other hsame ↦ by rw [hsame], spelling?_sourcesBy, spelling?_sourcesBy,
    hreverse.findSome?_eq]
  by_cases hleft : ∃ file ∈ left, file.location = path.location
  · simp only [hleft, if_true, ite_self, not_true_eq_false, decide_false, Bool.false_eq_true, if_false]
  · simp only [hleft, if_false, not_false_eq_true, decide_true, if_true]

/-- Assumes: sources in order, some of which are left out, each of them at the location of a failure, and
contents that agree on the others. The index that is made of the others is that of all sources. -/
theorem ofPlan_read_filter {conceptFiles specificationFiles directories : List Path} {keep : Path → Bool}
    (hconcepts : Path.AreSources .concepts conceptFiles)
    (hspecs : Path.AreSources .specification specificationFiles)
    (hleft : ∀ file, keep file = false →
      ∃ error ∈ (BuildPlan.read contents conceptFiles specificationFiles).failures,
        error.file.location = file.location)
    (hkept : ∀ file ∈ conceptFiles ++ specificationFiles, keep file = true → kept file = contents file) :
    ofPlan directories
        (.read kept (conceptFiles.filter keep) (specificationFiles.filter keep)) =
      ofPlan directories (.read contents conceptFiles specificationFiles) := by
  have hfiles : (BuildPlan.read kept (conceptFiles.filter keep)
        (specificationFiles.filter keep)).conceptFiles =
      (BuildPlan.read contents conceptFiles specificationFiles).conceptFiles := by
    refine BuildPlan.partitionResults_filter (fun file hfile hdropped ↦ ?_) fun file hfile hkeep ↦ ?_
    · obtain ⟨error, herror, hsame⟩ := hleft file hdropped
      rcases BuildPlan.fault?_of_mem_failures herror with ⟨hsource, hfault⟩ | ⟨hsource, -⟩
      · obtain rfl := List.inj_on_of_nodup_map hconcepts.inOrder.nodup hsource hfile hsame
        exact ⟨error, Contents.conceptFile_eq_error.mpr hfault⟩
      · have hkind := hconcepts.sourceKind_eq file hfile
        rw [← Path.sourceKind_congr hsame, hspecs.sourceKind_eq _ hsource] at hkind
        cases hkind
    · have hsame := hkept file (List.mem_append_left _ hfile) hkeep
      simp only [Contents.conceptFile, Contents.concepts, Contents.source, hsame]
  have hdictionary : (BuildPlan.read kept (conceptFiles.filter keep)
        (specificationFiles.filter keep)).dictionary =
      (BuildPlan.read contents conceptFiles specificationFiles).dictionary := by
    rw [BuildPlan.dictionary_read, BuildPlan.dictionary_read, hfiles]
  refine ofPlan_congr directories hfiles hdictionary ?_
  rw [BuildPlan.specifications_read, BuildPlan.specifications_read, hdictionary]
  refine BuildPlan.partitionResults_filter (fun file hfile hdropped ↦ ?_) fun file hfile hkeep ↦ ?_
  · obtain ⟨error, herror, hsame⟩ := hleft file hdropped
    rcases BuildPlan.fault?_of_mem_failures herror with ⟨hsource, -⟩ | ⟨hsource, hfault⟩
    · have hkind := hspecs.sourceKind_eq file hfile
      rw [← Path.sourceKind_congr hsame, hconcepts.sourceKind_eq _ hsource] at hkind
      cases hkind
    · obtain rfl := List.inj_on_of_nodup_map hspecs.inOrder.nodup hsource hfile hsame
      exact ⟨error, Contents.expanded_eq_error.mpr hfault⟩
  · have hsame := hkept file (List.mem_append_right _ hfile) hkeep
    simp only [Contents.expanded, Contents.specification, Contents.source, hsame]

/-- Assumes: walks that come to the same files apart from the failures of a build, and contents that agree on
these files. A fresh index that is built from them is the index that was built. -/
theorem buildBy_of_leavesOut
    (hrest : LeavesOut index.directories ((index.buildBy walk contents).2.failures.map IndexError.file)
      walk rest)
    (hkept : ∀ root ∈ index.directories, ∀ path ∈ rest root, kept path = contents path) :
    ((Index.new index.directories).buildBy rest kept).1 = (index.buildBy walk contents).1 := by
  have hconcepts := (areFound_sourcesBy walk .concepts index.directories).areSources
  have hspecs := (areFound_sourcesBy walk .specification index.directories).areSources
  have hsame : ∀ kind, ∀ file ∈ sourcesBy rest kind index.directories, kept file = contents file := by
    intro kind file hfile
    obtain ⟨-, root, hroot, hfound⟩ := (areFound_sourcesBy rest kind _).mem_walk file hfile
    exact hkept root hroot file hfound
  have hfilter := sourcesBy_of_leavesOut hrest
  rw [buildBy, buildBy, buildFrom_fst hspecs, buildFrom_fst (areFound_sourcesBy rest .specification _).areSources]
  change ofPlan index.directories (.read kept (sourcesBy rest .concepts index.directories)
    (sourcesBy rest .specification index.directories)) = _
  rw [hfilter .concepts, hfilter .specification]
  refine ofPlan_read_filter hconcepts hspecs (fun file hdropped ↦ ?_) fun file hfile hkeep ↦ ?_
  · obtain ⟨left, hleft, hlocation⟩ := not_not.mp (of_decide_eq_false hdropped)
    obtain ⟨error, herror, rfl⟩ := List.mem_map.mp hleft
    exact ⟨error, herror, hlocation⟩
  · rcases List.mem_append.mp hfile with hconcept | hspec
    · exact hsame .concepts file (hfilter .concepts ▸ List.mem_filter.mpr ⟨hconcept, hkeep⟩)
    · exact hsame .specification file (hfilter .specification ▸ List.mem_filter.mpr ⟨hspec, hkeep⟩)

/-- A build finds every source of the directories, once, and accounts for it, whatever the index knew before.
Whatever walks leave out just what failed, and contents agree on the other files: a fresh index that is built
from these is the index that was built. -/
theorem accounts_buildBy (index : Index) (walk : Path → List Path) (contents : Contents) :
    (∀ kind, AreFound walk index.directories kind (sourcesBy walk kind index.directories)) ∧
      IsAccounted contents (sourcesBy walk .concepts index.directories)
        (sourcesBy walk .specification index.directories) (index.buildBy walk contents).1
        (index.buildBy walk contents).2 ∧
      ∀ (rest : Path → List Path) (kept : Contents),
        LeavesOut index.directories ((index.buildBy walk contents).2.failures.map IndexError.file) walk
          rest →
        (∀ root ∈ index.directories, ∀ path ∈ rest root, kept path = contents path) →
          ((Index.new index.directories).buildBy rest kept).1 = (index.buildBy walk contents).1 :=
  ⟨fun kind ↦ areFound_sourcesBy walk kind index.directories,
    isAccounted_buildFrom index (areFound_sourcesBy walk .concepts _).areSources
      (areFound_sourcesBy walk .specification _).areSources,
    fun _ _ ↦ buildBy_of_leavesOut⟩

/-- Two directories are walked, one of which lies in the other, and two of the four sources fail: one cannot be
parsed, and one invokes a concept with too few arguments. -/
example :
    let walk : Path → List Path := fun root ↦
      if root = ⟨"shop"⟩ then [⟨"shop/pay/pay.spec"⟩, ⟨"shop/pay/pay.cpt"⟩, ⟨"shop/say.spec"⟩, ⟨"shop/a.cpt"⟩]
      else [⟨"shop/pay/pay.cpt"⟩, ⟨"shop/pay/pay.spec"⟩]
    let contents : Contents := fun path ↦
      if path = ⟨"shop/a.cpt"⟩ then .ok "* No concept\n"
      else if path = ⟨"shop/pay/pay.cpt"⟩ then .ok "# Pay <sum>\n* Send <sum>\n"
      else if path = ⟨"shop/say.spec"⟩ then .ok "# Say\n* Pay \x7b\x7d\n"
      else .ok "# Pay\n* Pay \"10\"\n"
    ((Index.new [⟨"shop"⟩, ⟨"shop/pay"⟩, ⟨"shop"⟩]).buildBy walk contents).2.failures.map IndexError.file =
      [⟨"shop/a.cpt"⟩, ⟨"shop/say.spec"⟩] := by
  decide +kernel

end WithoutFailures

end Index

end LiveSpec
