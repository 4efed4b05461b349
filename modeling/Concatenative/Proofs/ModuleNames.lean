import Concatenative.Files.Modules
import Concatenative.Proofs.Lines
import Mathlib.Data.List.Induction

/-!
Names of modules. A name stands for a file with or without the module extension: the extension
is looked for in the last component of the name, wherever that is, and put after the whole text,
where it becomes the extension of that component. The file is the first one along the search
paths, and registered native modules come before all files.
-/

namespace Concatenative

namespace Path

def EndsIn (path component : Text) : Prop :=
  separator ∉ component ∧
    (path = component ∨ ∃ directory, path = directory ++ separator :: component)

theorem EndsIn.append {path component : Text} (ends : EndsIn path component) {part : Text}
    (absent : separator ∉ part) : EndsIn (path ++ part) (component ++ part) := by
  obtain ⟨undivided, rfl | ⟨directory, rfl⟩⟩ := ends
  · exact ⟨by simp [undivided, absent], Or.inl rfl⟩
  · exact ⟨by simp [undivided, absent], Or.inr ⟨directory, by simp⟩⟩

theorem exists_endsIn (path : Text) : ∃ component, EndsIn path component := by
  induction path using List.reverseRecOn with
  | nil => exact ⟨[], List.not_mem_nil, Or.inl rfl⟩
  | append_singleton path c ih =>
    by_cases divides : c = separator
    · exact ⟨[], List.not_mem_nil, Or.inr ⟨path, by rw [divides]⟩⟩
    · obtain ⟨component, ends⟩ := ih
      exact ⟨component ++ [c], ends.append fun mem => divides (List.mem_singleton.1 mem).symm⟩

theorem EndsIn.ne_nil {path component : Text} (ends : EndsIn path component) (some : path ≠ [])
    (undivided : path.getLast? ≠ Option.some separator) : component ≠ [] := by
  rintro rfl
  obtain ⟨-, rfl | ⟨directory, rfl⟩⟩ := ends
  · exact some rfl
  · exact undivided List.getLast?_concat

/-- A last component that names something is the file name. -/
theorem EndsIn.fileName?_eq {path component : Text} (ends : EndsIn path component)
    (some : component ≠ []) (elsewhere : component ≠ here) (below : component ≠ parent) :
    fileName? path = Option.some component := by
  have last : ((pieces separator path).filter fun c => !(c.isEmpty || c = here)).getLast? =
      Option.some component := by
    have named : [component].filter (fun c => !(c.isEmpty || c = here)) = [component] := by
      simp [some, elsewhere]
    obtain ⟨undivided, rfl | ⟨directory, rfl⟩⟩ := ends
    · rw [pieces_of_not_mem undivided, named, List.getLast?_singleton]
    · rw [pieces_append_separator, pieces_of_not_mem undivided, List.filter_append, named,
        List.getLast?_concat]
  simp only [fileName?, last, if_neg below]

theorem extension?_of_fileName? {path stem extension : Text}
    (named : fileName? path = some (stem ++ '.' :: extension)) (stemmed : stem ≠ [])
    (undotted : '.' ∉ extension) : extension? path = some extension := by
  have reversed : (stem ++ '.' :: extension).reverse =
      extension.reverse ++ '.' :: stem.reverse := by
    simp
  have cut : pieces '.' (stem ++ '.' :: extension).reverse =
      extension.reverse :: pieces '.' stem.reverse := by
    rw [reversed, pieces_append_separator, pieces_of_not_mem (by simpa using undotted)]
    rfl
  obtain ⟨before, rest, split⟩ := exists_pieces '.' stem.reverse
  have preceded : (before.isEmpty && rest.isEmpty) = false := by
    by_contra empty
    have alone : pieces '.' stem.reverse = [[]] := by
      rw [split]
      simpa using empty
    exact stemmed (List.reverse_eq_nil_iff.1 (pieces_eq_nil_piece_iff.1 alone))
  simp only [extension?, named, Option.bind_some, cut, split, preceded]
  simp

def withExtension (name : Text) : Text := name ++ '.' :: moduleExtension

/-- Whatever the last component is, `.` and `..` and hidden files among them, the text put after
it becomes its extension. -/
theorem extension?_withExtension {name : Text} (some : name ≠ [])
    (undivided : name.getLast? ≠ Option.some separator) :
    extension? (withExtension name) = Option.some moduleExtension := by
  obtain ⟨component, ends⟩ := exists_endsIn name
  have filled := ends.ne_nil some undivided
  have extended : EndsIn (withExtension name) (component ++ '.' :: moduleExtension) :=
    ends.append (by decide)
  -- With the extension the component is too long for one that moves nowhere or up.
  have long : ∀ short ∈ [here, parent], component ++ '.' :: moduleExtension ≠ short := by
    intro short mem same
    have bounded : ∀ short ∈ [here, parent], short.length ≤ 2 := by decide
    have size : moduleExtension.length = 5 := by decide
    have lengths := congrArg List.length same
    have small := bounded short mem
    rw [List.length_append, List.length_cons] at lengths
    omega
  apply extension?_of_fileName? _ filled (by decide)
  exact extended.fileName?_eq (by simp) (long here (by simp)) (long parent (by simp))

theorem moduleFile_withExtension {name : Text} (some : name ≠ [])
    (undivided : name.getLast? ≠ Option.some separator) :
    moduleFile (withExtension name) = withExtension name :=
  if_pos (extension?_withExtension some undivided)

theorem moduleFile_of_extension?_ne {name : Text}
    (other : extension? name ≠ some moduleExtension) : moduleFile name = withExtension name :=
  if_neg other

end Path

namespace ModuleFinder

/-- The result of looking for a file in some directories: its path in the first directory that
has it, or nothing if none does. -/
def IsFirstFile (files : FileSystem) (directories : List Text) (file : Text) : Option Text → Prop
  | some path => ∃ before directory after, directories = before ++ directory :: after ∧
      path = Path.join directory file ∧ files.isFile path = true ∧
      ∀ earlier ∈ before, files.isFile (Path.join earlier file) = false
  | none => ∀ directory ∈ directories, files.isFile (Path.join directory file) = false

def registerAll (finder : ModuleFinder) (registered : List (Text × List NativeStep)) :
    ModuleFinder :=
  registered.foldl (fun finder entry => finder.register entry.1 entry.2) finder

theorem isFirstFile_resolve? (finder : ModuleFinder) (name : Text) :
    IsFirstFile finder.files finder.searchPaths (Path.moduleFile name) (finder.resolve? name) := by
  unfold resolve?
  cases found : (finder.searchPaths.map (Path.join · (Path.moduleFile name))).find?
      finder.files.isFile with
  | none => simpa [IsFirstFile] using found
  | some path =>
    obtain ⟨isFile, before, after, split, none⟩ := List.find?_eq_some_iff_append.1 found
    obtain ⟨front, rest, whole, rfl, tail⟩ := List.map_eq_append_iff.1 split
    obtain ⟨directory, back, rfl, rfl, rfl⟩ := List.map_eq_cons_iff.1 tail
    exact ⟨front, directory, back, whole, rfl, isFile, by simpa using none⟩

theorem registerAll_eq (finder : ModuleFinder) (registered : List (Text × List NativeStep)) :
    finder.registerAll registered =
      { finder with natives := registered.reverse ++ finder.natives } := by
  induction registered generalizing finder with
  | nil => rfl
  | cons entry rest ih =>
    have later := ih (finder.register entry.1 entry.2)
    simpa [registerAll, register] using later

section

variable {finder : ModuleFinder} {name : Text}

theorem load_native {steps : List NativeStep} {hidden shown : List (Text × List NativeStep)}
    (registered : finder.natives = shown ++ (name, steps) :: hidden)
    (latest : name ∉ shown.map Prod.fst) : finder.load name = .ok (.native steps) := by
  have found : finder.natives.find? (·.1 = name) = some (name, steps) := by
    rw [registered, List.find?_eq_some_iff_append]
    refine ⟨by simp, shown, hidden, rfl, fun entry mem => ?_⟩
    have other : entry.1 ≠ name := fun same => latest (same ▸ List.mem_map_of_mem mem)
    simpa using other
  simp only [load, found]

theorem load_eq_notFound_iff (unregistered : name ∉ finder.natives.map Prod.fst) (missing : Text) :
    finder.load name = .error (.notFound missing) ↔
      missing = name ∧ finder.resolve? name = none := by
  have absent : finder.natives.find? (·.1 = name) = none := by
    rw [List.find?_eq_none]
    intro entry mem
    have other : entry.1 ≠ name := fun same => unregistered (same ▸ List.mem_map_of_mem mem)
    simpa using other
  cases resolved : finder.resolve? name with
  | none =>
    simp only [load, absent, resolved, and_true, Except.error.injEq, LoadError.notFound.injEq]
    exact eq_comm
  | some path =>
    simp only [load, absent, resolved, reduceCtorEq, and_false, iff_false]
    cases (finder.files path).bind Encoding.decode? with
    | none => simp
    | some text => simp

end

/-- A name means the same file with and without the module extension, the first one along the
search paths. A native module that was registered under exactly the name is loaded in its place,
the last registration of several; without one the name is unknown exactly where there is no such
file. -/
theorem module_names_resolve_alike (files : FileSystem) (searchPaths : List Text)
    (registered : List (Text × List NativeStep)) {name : Text} (nonempty : name ≠ [])
    (undivided : name.getLast? ≠ some Path.separator) :
    let finder := ({ files, searchPaths } : ModuleFinder).registerAll registered
    (Path.extension? name ≠ some Path.moduleExtension →
      finder.resolve? name = finder.resolve? (Path.withExtension name) ∧
        IsFirstFile files searchPaths (Path.withExtension name) (finder.resolve? name)) ∧
      (∀ before steps after, registered = before ++ (name, steps) :: after →
        name ∉ after.map Prod.fst → finder.load name = .ok (.native steps)) ∧
      (name ∉ registered.map Prod.fst → ∀ missing,
        finder.load name = .error (.notFound missing) ↔
          missing = name ∧ finder.resolve? name = none) := by
  intro finder
  have built : finder = { files, searchPaths, natives := registered.reverse } := by
    show registerAll _ _ = _
    rw [registerAll_eq, List.append_nil]
  refine ⟨fun other => ?_, fun before steps after split latest => ?_, fun unregistered => ?_⟩
  · have file : Path.moduleFile name = Path.withExtension name :=
      Path.moduleFile_of_extension?_ne other
    have same : Path.moduleFile (Path.withExtension name) = Path.withExtension name :=
      Path.moduleFile_withExtension nonempty undivided
    have first := isFirstFile_resolve? finder name
    rw [file, built] at first
    refine ⟨?_, built ▸ first⟩
    rw [resolve?, resolve?, file, same]
  · have natives : finder.natives = after.reverse ++ (name, steps) :: before.reverse := by
      rw [built, split]
      simp
    exact load_native natives (by simpa using latest)
  · apply load_eq_notFound_iff
    rw [built]
    simpa using unregistered

theorem module_names_resolve_alike_here :
    ∃ finder : ModuleFinder,
      Path.extension? "v1.2/.".toList = some "2".toList ∧
      finder.resolve? "v1.2/.".toList = some "b/v1.2/..gloom".toList ∧
      finder.resolve? "v1.2/..gloom".toList = some "b/v1.2/..gloom".toList ∧
      finder.load "v1.2/.".toList ≠ .error (.notFound "v1.2/.".toList) ∧
      finder.load "lib".toList = .ok (.native [.push "2".toList]) := by
  let files : FileSystem := fun path =>
    if path = "b/v1.2/..gloom".toList then some [] else none
  let registered : List (Text × List NativeStep) :=
    [("lib".toList, [.push "1".toList]), ("lib".toList, [.push "2".toList])]
  let searchPaths : List Text := ["a".toList, "b/".toList]
  obtain ⟨resolves, -, unknown⟩ := module_names_resolve_alike files searchPaths registered
    (show "v1.2/.".toList ≠ [] by decide) (by decide)
  obtain ⟨-, native, -⟩ := module_names_resolve_alike files searchPaths registered
    (show "lib".toList ≠ [] by decide) (by decide)
  have extension : Path.extension? "v1.2/.".toList = some "2".toList := by decide
  have found : (({ files, searchPaths } : ModuleFinder).registerAll registered).resolve?
      "v1.2/.".toList = some "b/v1.2/..gloom".toList := by
    decide
  refine ⟨({ files, searchPaths } : ModuleFinder).registerAll registered, extension, found,
    (resolves (by rw [extension]; decide)).1.symm.trans found, fun missing => ?_,
    native [("lib".toList, [.push "1".toList])] _ [] rfl (by simp)⟩
  rw [((unknown (by decide) _).1 missing).2] at found
  cases found

end ModuleFinder

end Concatenative
