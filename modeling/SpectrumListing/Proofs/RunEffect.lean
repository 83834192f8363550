import Mathlib
import SpectrumListing.Run

/-!
# What a run does to the files

A run reads its input, makes the listing and only then writes its output, so there is one place
where the files can change. If the run fails they are as they were; if it succeeds one file differs,
and it holds the listing of what the input held before. This is proved for every way to reach the
files of a tree that reads and writes whole files or fails without effect, for whatever reason.
-/
namespace SpectrumListing

theorem bind_eq_ok {ε α β : Type} {x : Except ε α} {f : α → Except ε β} {b : β} :
    x >>= f = .ok b ↔ ∃ a, x = .ok a ∧ f a = .ok b := by
  cases x with
  | error e => simp [bind, Except.bind]
  | ok a => simp [bind, Except.bind]

namespace FileSystem

variable {fs fs' : FileSystem}

theorem lookup_filter_ne (nodes : List (Location × Node)) {place other : Location}
    (h : other ≠ place) :
    (nodes.filter (·.1 ≠ place)).lookup other = nodes.lookup other := by
  induction nodes with
  | nil => rfl
  | cons n nodes ih =>
    obtain ⟨spot, node⟩ := n
    by_cases hp : spot = place
    · subst hp
      rw [List.filter_cons_of_neg (by simp), ih, List.lookup_cons, beq_false_of_ne h]
    · rw [List.filter_cons_of_pos (by simpa using hp), List.lookup_cons, List.lookup_cons, ih]

theorem node?_put_of_ne (fs : FileSystem) (node : Node) {place other : Location}
    (h : other ≠ place) : (fs.put place node).node? other = fs.node? other := by
  unfold node? put
  rw [List.lookup_cons, beq_false_of_ne h]
  simp only [lookup_filter_ne fs.nodes h]

theorem node?_put_self {place : Location} (h : fs.node? place ≠ some .directory) (node : Node) :
    (fs.put place node).node? place = some node := by
  -- The root is a directory, so it is not the place.
  have hne : place ≠ [] := by
    rintro rfl
    exact h rfl
  unfold node? put
  rw [List.lookup_cons, beq_self_eq_true]
  simp [hne]

/-- Whether a tree has the directories of another and starts relative paths in the same place. -/
structure Extends (fs fs' : FileSystem) : Prop where
  workingDirectory : fs'.workingDirectory = fs.workingDirectory
  directory : ∀ place, fs.node? place = some .directory → fs'.node? place = some .directory

theorem extends_put {place : Location} (h : fs.node? place ≠ some .directory) (node : Node) :
    Extends fs (fs.put place node) where
  workingDirectory := rfl
  directory other hother := by
    have hne : other ≠ place := by
      rintro rfl
      exact h hother
    rw [node?_put_of_ne fs node hne, hother]

theorem requireDirectory_eq_ok {place : Location} :
    fs.requireDirectory place = .ok () ↔ fs.node? place = some .directory := by
  unfold requireDirectory
  split <;> simp_all

theorem Extends.follow (h : Extends fs fs') {place next : Location} {segment : String}
    (hf : fs.follow place segment = .ok next) : fs'.follow place segment = .ok next := by
  obtain ⟨_, hplace, hnext⟩ := bind_eq_ok.mp hf
  refine bind_eq_ok.mpr ⟨(), ?_, hnext⟩
  exact requireDirectory_eq_ok.mpr (h.directory place (requireDirectory_eq_ok.mp hplace))

theorem Extends.foldlM_follow (h : Extends fs fs') {segments : List String}
    {place next : Location} (hf : segments.foldlM fs.follow place = .ok next) :
    segments.foldlM fs'.follow place = .ok next := by
  induction segments generalizing place with
  | nil => exact hf
  | cons segment segments ih =>
    rw [List.foldlM_cons] at hf ⊢
    obtain ⟨via, hvia, hrest⟩ := bind_eq_ok.mp hf
    exact bind_eq_ok.mpr ⟨via, h.follow hvia, ih hrest⟩

theorem locate_eq_ok {path : Path} {place : Location} :
    fs.locate path = .ok place ↔ path.isEmpty = false ∧ path.isTooLong = false ∧
      path.segments.foldlM fs.follow (fs.start path) = .ok place := by
  unfold locate
  split_ifs <;> simp_all

theorem Extends.locate (h : Extends fs fs') {path : Path} {place : Location}
    (hl : fs.locate path = .ok place) : fs'.locate path = .ok place := by
  have hstart : fs'.start path = fs.start path := by rw [start, start, h.workingDirectory]
  obtain ⟨hempty, hshort, hfold⟩ := locate_eq_ok.mp hl
  exact locate_eq_ok.mpr ⟨hempty, hshort, hstart ▸ h.foldlM_follow hfold⟩

/-- A file is written where its path leads. -/
theorem locateOutput_eq_ok {path : Path} {place : Location}
    (h : fs.locateOutput path = .ok place) :
    fs.locate path = .ok place ∧ fs.node? place ≠ some .directory := by
  unfold locateOutput at h
  split_ifs at h with hempty hlong
  dsimp only at h
  split at h
  · cases h
  · next last hlast =>
    obtain ⟨parent, hparent, h⟩ := bind_eq_ok.mp h
    obtain ⟨-, -, h⟩ := bind_eq_ok.mp h
    split_ifs at h with hslash
    · cases h
    obtain ⟨target, htarget, h⟩ := bind_eq_ok.mp h
    split_ifs at h with hdirectory
    · cases h
    cases h
    -- With no slash at the end, all segments were followed.
    have hsuffix := List.dropWhile_suffix String.isEmpty (l := path.segments.reverse)
    have hall : (path.segments.reverse.dropWhile String.isEmpty).reverse = path.segments := by
      rw [List.reverse_eq_iff]
      exact hsuffix.eq_of_length_le (by simpa using hslash)
    rw [hall] at hlast hparent
    obtain ⟨front, hsegments⟩ := List.getLast?_eq_some_iff.mp hlast
    refine ⟨locate_eq_ok.mpr ⟨by simpa using hempty, by simpa using hlong, ?_⟩, hdirectory⟩
    rw [hsegments, List.dropLast_concat] at hparent
    rw [hsegments, List.foldlM_append]
    exact bind_eq_ok.mpr ⟨parent, hparent, bind_eq_ok.mpr ⟨place, htarget, rfl⟩⟩

theorem write_eq_ok {path : Path} {content : List UInt8}
    (h : fs.write path content = .ok fs') :
    ∃ place, fs.locate path = .ok place ∧ fs.node? place ≠ some .directory ∧
      fs' = fs.put place (.file content) := by
  obtain ⟨place, hplace, h⟩ := bind_eq_ok.mp h
  cases h
  obtain ⟨hlocate, hnode⟩ := locateOutput_eq_ok hplace
  exact ⟨place, hlocate, hnode, rfl⟩

theorem read_put {path : Path} {place : Location} (hlocate : fs.locate path = .ok place)
    (hnode : fs.node? place ≠ some .directory) (content : List UInt8) :
    (fs.put place (.file content)).read path = .ok content := by
  have hthere := (extends_put hnode (.file content)).locate hlocate
  refine bind_eq_ok.mpr ⟨place, hthere, ?_⟩
  rw [node?_put_self hnode]
  rfl

end FileSystem

/-- A way to reach the files of a tree that either fails without effect, for whatever reason, or
reads or replaces a file as a whole. -/
structure FileAccess.IsAtomic (files : FileAccess (StateM FileSystem)) : Prop where
  read : ∀ path fs, (∃ cause, (files.read path).run fs = (.error cause, fs)) ∨
    ∃ content, fs.read path = .ok content ∧ (files.read path).run fs = (.ok content, fs)
  write : ∀ path text fs, (∃ cause, (files.write path text).run fs = (.error cause, fs)) ∨
    ∃ fs', fs.write path text.toUTF8.toList = .ok fs' ∧
      (files.write path text).run fs = (.ok (), fs')

theorem FileSystem.isAtomic_access : FileSystem.access.IsAtomic where
  read path fs := by
    have hread : (access.read path).run fs = (fs.read path, fs) := rfl
    cases h : fs.read path with
    | error cause => exact .inl ⟨cause, by rw [hread, h]⟩
    | ok content => exact .inr ⟨content, rfl, by rw [hread, h]⟩
  write path text fs := by
    cases h : fs.write path text.toUTF8.toList with
    | error cause =>
      refine .inl ⟨cause, ?_⟩
      simp only [access, StateT.run_bind, StateT.run_get, pure_bind, h, StateT.run_pure]
      rfl
    | ok fs' =>
      refine .inr ⟨fs', rfl, ?_⟩
      simp only [access, StateT.run_bind, StateT.run_get, pure_bind, h, StateT.run_set,
        StateT.run_pure]
      rfl

variable {files : FileAccess (StateM FileSystem)} {s : Settings} {fs : FileSystem}

theorem run_of_read_error {cause : FileFailure}
    (hread : (files.read s.input).run fs = (.error cause, fs)) :
    (run files s).run fs = (⟨s.openingNotices,
      some (if s.isTape then .tape s.input cause else .input s.input cause)⟩, fs) := by
  rw [run, StateT.run_bind, hread]
  rfl

theorem run_of_write_error {content : List UInt8} {cause : FileFailure}
    (hread : (files.read s.input).run fs = (.ok content, fs))
    (hwrite : (files.write s.outputPath (Listing.render (s.listing content))).run fs =
      (.error cause, fs)) :
    (run files s).run fs = (⟨s.openingNotices ++ s.listingNotices content,
      some (.output s.outputPath cause)⟩, fs) := by
  rw [run, StateT.run_bind, hread]
  change StateT.run (_ >>= _) fs = _
  rw [StateT.run_bind, hwrite]
  rfl

theorem run_of_write_ok {content : List UInt8} {fs' : FileSystem}
    (hread : (files.read s.input).run fs = (.ok content, fs))
    (hwrite : (files.write s.outputPath (Listing.render (s.listing content))).run fs =
      (.ok (), fs')) :
    (run files s).run fs = (⟨s.openingNotices ++ s.listingNotices content ++
      [.listingWritten s.outputPath.text (s.listing content).length], none⟩, fs') := by
  rw [run, StateT.run_bind, hread]
  change StateT.run (_ >>= _) fs = _
  rw [StateT.run_bind, hwrite]
  rfl

/-- The text that a run writes when its input has the given content. -/
def Settings.outputText (s : Settings) (content : List UInt8) : String :=
  Listing.render
    (if s.isTape then
      Listing.tape s.input.displayName (Tape.Image.ofBytes content) ⟨s.hex, s.block⟩
    else Listing.raw s.input.displayName content s.origin)

/-- A run that fails leaves all files as they were. A run that succeeds changes no file but its
output, which then holds the listing of what the input held before the run, be it the same file or
another. A run succeeds whenever its input can be read and its output can be written. -/
theorem run_atomic (hfiles : files.IsAtomic) (s : Settings) (fs : FileSystem) :
    let result := (run files s).run fs
    (∀ failure, result.1.failure = some failure → result.2 = fs) ∧
    (result.1.failure = none → ∃ content place,
      fs.read s.input = .ok content ∧ fs.locate s.outputPath = .ok place ∧
      (∀ other, other ≠ place → result.2.node? other = fs.node? other) ∧
      result.2.node? place = some (.file (s.outputText content).toUTF8.toList) ∧
      result.2.read s.outputPath = .ok (s.outputText content).toUTF8.toList) ∧
    (result.1.failure = none ↔ ∃ content,
      ((files.read s.input).run fs).1 = .ok content ∧
      ((files.write s.outputPath (s.outputText content)).run fs).1 = .ok ()) := by
  intro result
  obtain ⟨cause, hread⟩ | ⟨content, hcontent, hread⟩ := hfiles.read s.input fs
  · have hresult : result = _ := run_of_read_error hread
    rw [hresult, hread]
    simp
  obtain ⟨cause, hwrite⟩ | ⟨fs', hfs', hwrite⟩ :=
    hfiles.write s.outputPath (s.outputText content) fs
  · have hresult : result = _ := run_of_write_error hread hwrite
    rw [hresult, hread]
    simp [hwrite]
  · have hresult : result = _ := run_of_write_ok hread hwrite
    obtain ⟨place, hplace, hnode, rfl⟩ := FileSystem.write_eq_ok hfs'
    rw [hresult, hread]
    refine ⟨by simp, fun _ => ⟨content, place, hcontent, hplace, ?_, ?_, ?_⟩, by simp [hwrite]⟩
    · intro other hother
      exact fs.node?_put_of_ne _ hother
    · exact FileSystem.node?_put_self hnode _
    · exact FileSystem.read_put hplace hnode _

/-- The output can be the input itself: its content is read before it is replaced. -/
theorem run_atomic_own_input :
    let fs : FileSystem := ⟨["home"], [(["home"], .directory), (["home", "rom"], .file [0xC9])]⟩
    let s : Settings := ⟨⟨["rom"]⟩, some ⟨[".", "rom"]⟩, 0x8000, false, none, false⟩
    let result := (run FileSystem.access s).run fs
    FileSystem.access.IsAtomic ∧ fs.locate s.outputPath = fs.locate s.input ∧
    result.1.failure = none ∧
    result.2.node? ["home", "rom"] =
      some (.file (Listing.render (Listing.raw "rom" [0xC9] 0x8000)).toUTF8.toList) := by
  intro fs s result
  have hok : result.1.failure = none := by cbv
  have hinput : fs.read s.input = .ok [0xC9] := by cbv
  have hlocate : fs.locate s.outputPath = .ok ["home", "rom"] := by cbv
  obtain ⟨content, place, hcontent, hplace, -, hnode, -⟩ :=
    (run_atomic FileSystem.isAtomic_access s fs).2.1 hok
  rw [hinput] at hcontent
  rw [hlocate] at hplace
  cases hcontent
  cases hplace
  have htext : s.outputText [0xC9] = Listing.render (Listing.raw "rom" [0xC9] 0x8000) := rfl
  exact ⟨FileSystem.isAtomic_access, hlocate, hok, htext ▸ hnode⟩

end SpectrumListing
