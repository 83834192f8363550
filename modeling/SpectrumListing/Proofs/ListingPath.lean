import Mathlib
import SpectrumListing.Path
import SpectrumListing.Proofs.Trimming

/-!
# Where a listing goes

The components of a path are what its segments say; its last component, if it is a name, is the name
of the file. Putting another name in its place leaves the other components as they are. The listing
of a file gets a name that no file has with that stem, so it never takes the place of the file.
-/
namespace SpectrumListing

namespace Pieces

theorem split_eq_splitOn (mark : Char) (cs : List Char) : split mark cs = cs.splitOn mark := by
  rw [List.splitOn_eq_splitOnP]
  induction cs with
  | nil => rfl
  | cons c cs ih =>
    rw [split, List.splitOnP_cons_eq_if_modifyHead, ih]
    by_cases h : c = mark
    · simp [h]
    · rw [if_neg h, if_neg (by simpa using h)]
      split
      · next hnil => exact absurd hnil (List.splitOnP_ne_nil _ _)
      · next hcons => rw [hcons, List.modifyHead_cons]

theorem not_mem_of_mem_split {mark : Char} {cs piece : List Char} (h : piece ∈ split mark cs) :
    mark ∉ piece := by
  induction cs generalizing piece with
  | nil =>
    rw [split, List.mem_singleton] at h
    simp [h]
  | cons c cs ih =>
    rw [split] at h
    split_ifs at h with hc
    · rcases List.mem_cons.mp h with rfl | h
      · exact List.not_mem_nil
      · exact ih h
    · split at h
      · rw [List.mem_singleton.mp h, List.mem_singleton]
        exact Ne.symm hc
      · next first rest hsplit =>
        rw [hsplit] at ih
        rcases List.mem_cons.mp h with rfl | h
        · rw [List.mem_cons, not_or]
          exact ⟨Ne.symm hc, ih (by simp)⟩
        · exact ih (by simp [h])

end Pieces

namespace Path

/-- A path that a text stands for. -/
structure IsProper (p : Path) : Prop where
  ne_nil : p.segments ≠ []
  unslashed : ∀ segment ∈ p.segments, '/' ∉ segment.toList

theorem toList_text (p : Path) :
    p.text.toList = ['/'].intercalate (p.segments.map String.toList) :=
  String.toList_intercalate

theorem isProper_ofString (text : String) : IsProper (ofString text) := by
  constructor
  · simp [ofString, Pieces.split_eq_splitOn, List.splitOn_ne_nil]
  · intro segment hsegment
    obtain ⟨piece, hpiece, rfl⟩ := List.mem_map.mp hsegment
    rw [String.toList_ofList]
    exact Pieces.not_mem_of_mem_split hpiece

/-- The text of a path stands for the path. -/
theorem IsProper.ofString_text {p : Path} (h : IsProper p) : ofString p.text = p := by
  have hsplit : Pieces.split '/' p.text.toList = p.segments.map String.toList := by
    rw [Pieces.split_eq_splitOn, toList_text]
    refine List.splitOn_intercalate '/' (fun piece hpiece => ?_) (by simpa using h.ne_nil)
    obtain ⟨segment, hsegment, rfl⟩ := List.mem_map.mp hpiece
    exact h.unslashed segment hsegment
  rw [ofString, hsplit, List.map_map]
  simp [Function.comp_def]

/-- Where the components start: at the root, in the current directory, or nowhere in particular. -/
def origin (p : Path) : List Component :=
  if p.isAbsolute then [.root] else if p.segments.head? = some "." then [.current] else []

/-- What segments say, one after the other. -/
def spoken (segments : List String) : List Component :=
  (segments.filter (!isSilent ·)).map fun segment =>
    if segment = ".." then .parent else .name segment

theorem components_eq (p : Path) : p.components = p.origin ++ spoken p.segments := rfl

@[simp] theorem spoken_append (front back : List String) :
    spoken (front ++ back) = spoken front ++ spoken back := by
  simp [spoken]

theorem spoken_of_silent {segments : List String} (h : ∀ s ∈ segments, isSilent s = true) :
    spoken segments = [] := by
  have hnone : segments.filter (!isSilent ·) = [] := List.filter_eq_nil_iff.mpr (by simpa using h)
  rw [spoken, hnone, List.map_nil]

/-- A segment that names something. -/
def IsName (segment : String) : Prop := isSilent segment = false ∧ segment ≠ ".."

theorem spoken_singleton {segment : String} (h : isSilent segment = false) :
    spoken [segment] = [if segment = ".." then .parent else .name segment] := by
  simp [spoken, h]

theorem IsName.spoken_singleton {segment : String} (h : IsName segment) :
    spoken [segment] = [.name segment] := by
  rw [Path.spoken_singleton h.1, if_neg h.2]

theorem dropSilent_eq_iff {segments kept : List String} :
    dropSilent segments = kept ↔
      ∃ silent, segments = kept ++ silent ∧ (∀ s ∈ silent, isSilent s = true) ∧
        ∀ s ∈ kept.getLast?, isSilent s = false :=
  rdropWhile_eq_iff

theorem spoken_dropSilent (segments : List String) :
    spoken (dropSilent segments) = spoken segments := by
  obtain ⟨silent, hsplit, hsilent, -⟩ := dropSilent_eq_iff.mp (rfl : dropSilent segments = _)
  conv_rhs => rw [hsplit, spoken_append, spoken_of_silent hsilent, List.append_nil]

theorem origin_cases (p : Path) :
    p.origin = [] ∨ p.origin = [.current] ∨ p.origin = [.root] := by
  unfold origin
  split_ifs <;> simp

/-- A path says nothing but where it starts, or goes up at its end, or ends with its file name. -/
theorem components_cases (p : Path) :
    (p.fileName? = none ∧ p.components = p.origin) ∨
    (p.fileName? = none ∧ ∃ front, p.components = front ++ [.parent]) ∨
    ∃ front name, p.fileName? = some name ∧ dropSilent p.segments = front ++ [name] ∧
      IsName name ∧ p.components = p.origin ++ spoken front ++ [.name name] := by
  obtain ⟨-, -, -, hlast⟩ := dropSilent_eq_iff.mp (rfl : dropSilent p.segments = _)
  rw [components_eq, ← spoken_dropSilent]
  rcases List.eq_nil_or_concat' (dropSilent p.segments) with hkept | ⟨front, last, hkept⟩
  · exact .inl ⟨by simp [fileName?, hkept], by simp [hkept, spoken]⟩
  · rw [hkept, List.getLast?_concat] at hlast
    have hspoken := spoken_singleton (hlast last rfl)
    rcases eq_or_ne last ".." with hup | hup
    · refine .inr (.inl ⟨by simp [fileName?, hkept, hup], p.origin ++ spoken front, ?_⟩)
      rw [hkept, spoken_append, hspoken, if_pos hup, List.append_assoc]
    · refine .inr (.inr ⟨front, last, by simp [fileName?, hkept, hup], hkept,
        ⟨hlast last rfl, hup⟩, ?_⟩)
      rw [hkept, spoken_append, hspoken, if_neg hup, List.append_assoc]

/-- The file name is the last component, if that is a name. -/
theorem fileName?_eq_some_iff {p : Path} {name : String} :
    p.fileName? = some name ↔ p.components.getLast? = some (.name name) := by
  obtain ⟨hnone, hparts⟩ | ⟨hnone, front, hparts⟩ | ⟨front, last, hsome, -, -, hparts⟩ :=
    p.components_cases
  · rw [hnone, hparts]
    rcases p.origin_cases with h | h | h <;> simp [h]
  · rw [hnone, hparts]
    simp
  · rw [hsome, hparts]
    simp

theorem components_of_fileName? {p : Path} {name : String} (h : p.fileName? = some name) :
    ∃ front, dropSilent p.segments = front ++ [name] ∧ IsName name ∧
      p.components = p.origin ++ spoken front ++ [.name name] := by
  obtain ⟨hnone, -⟩ | ⟨hnone, -⟩ | ⟨front, last, hsome, hlast⟩ := p.components_cases
  · rw [hnone] at h
    cases h
  · rw [hnone] at h
    cases h
  · obtain rfl : last = name := Option.some.inj (hsome.symm.trans h)
    exact ⟨front, hlast⟩

/-- A path without a file name is empty, starts and goes nowhere, or goes up at its end. -/
theorem components_of_fileName?_eq_none {p : Path} (h : p.fileName? = none) :
    p.components ∈ [[], [.current], [.root]] ∨ p.components.getLast? = some .parent := by
  obtain ⟨-, hparts⟩ | ⟨-, front, hparts⟩ | ⟨front, last, hsome, -⟩ := p.components_cases
  · rw [hparts]
    rcases p.origin_cases with h | h | h <;> simp [h]
  · exact .inr (by simp [hparts])
  · rw [h] at hsome
    cases hsome

theorem origin_of_head {segment : String} (h : isSilent segment = false) (rest : List String) :
    origin ⟨segment :: rest⟩ = [] := by
  simp only [isSilent, Bool.or_eq_false_iff, beq_eq_false_iff_ne] at h
  cases rest with
  | nil => simp [origin, isAbsolute, h.2]
  | cons next rest => simp [origin, isAbsolute, h.1, h.2]

/-- Of the segments behind the first nothing matters but that there are any. -/
theorem origin_cons {rest rest' : List String} (h : rest ≠ []) (h' : rest' ≠ []) (first : String) :
    origin ⟨first :: rest⟩ = origin ⟨first :: rest'⟩ := by
  cases rest with
  | nil => exact absurd rfl h
  | cons next rest =>
    cases rest' with
    | nil => exact absurd rfl h'
    | cons next' rest' => rfl

theorem origin_concat {last : String} (h : last ≠ "") (front : List String) (name : String) :
    origin ⟨front ++ [last] ++ [name]⟩ = origin ⟨front ++ [last]⟩ := by
  cases front with
  | nil => simp [origin, isAbsolute, h]
  | cons first front => exact origin_cons (by simp) (by simp) first

theorem origin_replace_empty {name : String} (h : IsName name) (front : List String) :
    origin ⟨front ++ [name]⟩ = origin ⟨front ++ [""]⟩ := by
  cases front with
  | nil => exact origin_of_head h.1 []
  | cons first front => exact origin_cons (by simp) (by simp) first

/-- Going on to a name adds a component. -/
theorem components_join_name (p : Path) {name : String} (h : IsName name) :
    (p.join ⟨[name]⟩).components = p.components ++ [.name name] := by
  obtain ⟨segments⟩ := p
  have hjoin : join ⟨segments⟩ ⟨[name]⟩ =
      if segments.getLast? = some "" then ⟨segments.dropLast ++ [name]⟩
      else ⟨segments ++ [name]⟩ := rfl
  rw [hjoin]
  rcases List.eq_nil_or_concat' segments with rfl | ⟨front, last, rfl⟩
  · rw [if_neg (by simp), components_eq, components_eq, spoken_append, h.spoken_singleton,
      List.nil_append, origin_of_head h.1]
    rfl
  · rw [List.getLast?_concat, List.dropLast_concat]
    rcases eq_or_ne last "" with rfl | hlast
    · have hempty : spoken [""] = [] := rfl
      rw [if_pos rfl, components_eq, components_eq, spoken_append, spoken_append,
        h.spoken_singleton, hempty, origin_replace_empty h, List.append_nil, List.append_assoc]
    · rw [if_neg (by simpa using hlast), components_eq, components_eq, origin_concat hlast,
        spoken_append, h.spoken_singleton, List.append_assoc]

/-- Cutting off segments behind one that says something does not change where a path starts. -/
theorem origin_of_append {segments : List String} (hne : segments ≠ [])
    (hlast : ∀ s ∈ segments.getLast?, isSilent s = false) (rest : List String) :
    origin ⟨segments ++ rest⟩ = origin ⟨segments⟩ := by
  match segments, hne with
  | [segment], _ =>
    have hsegment := hlast segment rfl
    rw [List.singleton_append, origin_of_head hsegment, origin_of_head hsegment]
  | first :: next :: segments, _ => rfl

/-- The directory has all components but the file name. -/
theorem components_directory {p : Path} {name : String} (h : p.fileName? = some name) :
    p.components = p.directory.components ++ [.name name] := by
  obtain ⟨front, hkept, -, hparts⟩ := components_of_fileName? h
  suffices hdirectory : p.directory.components = p.origin ++ spoken front by
    rw [hparts, hdirectory]
  rw [directory, hkept, List.dropLast_concat, ← spoken_dropSilent front]
  obtain ⟨silent, hsegments, -, -⟩ := dropSilent_eq_iff.mp hkept
  obtain ⟨silent', hfront, -, hlast⟩ := dropSilent_eq_iff.mp (rfl : dropSilent front = _)
  split
  · next hnil =>
    rw [hnil, origin]
    split_ifs <;> rfl
  · next hne =>
    have horigin : p.origin = origin ⟨dropSilent front ++ (silent' ++ [name] ++ silent)⟩ := by
      rw [← List.append_assoc, ← List.append_assoc, ← hfront, ← hsegments]
    rw [horigin, origin_of_append (fun he => hne he) hlast, components_eq]

theorem mem_of_mem_dropSilent {segments : List String} {segment : String}
    (h : segment ∈ dropSilent segments) : segment ∈ segments :=
  (List.rdropWhile_prefix isSilent segments).subset h

theorem IsProper.join {p q : Path} (hp : IsProper p) (hq : IsProper q) : IsProper (p.join q) := by
  have hrest {front : List String} (hfront : front ⊆ p.segments) :
      IsProper ⟨front ++ q.segments⟩ := by
    refine ⟨by simp [hq.ne_nil], fun segment hsegment => ?_⟩
    rcases List.mem_append.mp hsegment with hsegment | hsegment
    · exact hp.unslashed segment (hfront hsegment)
    · exact hq.unslashed segment hsegment
  unfold Path.join
  split_ifs
  · exact hq
  · exact hrest (List.dropLast_subset _)
  · exact hrest (List.Subset.refl _)

theorem IsProper.directory {p : Path} (hp : IsProper p) : IsProper p.directory := by
  unfold Path.directory
  split
  · split_ifs <;> exact ⟨by simp, by simp⟩
  · next hne =>
    refine ⟨fun he => hne he, fun segment hsegment => hp.unslashed segment ?_⟩
    exact mem_of_mem_dropSilent (List.mem_of_mem_dropLast (mem_of_mem_dropSilent hsegment))

theorem ofString_name {name : String} (h : '/' ∉ name.toList) : ofString name = ⟨[name]⟩ := by
  have hproper : IsProper ⟨[name]⟩ := ⟨by simp, by simpa using h⟩
  have hpath := hproper.ofString_text
  rwa [text, String.intercalate_singleton] at hpath

/-- What is added to the text of a path is added to its last segment. -/
theorem IsProper.ofString_text_append {p : Path} (hp : IsProper p) {suffix : String}
    (h : '/' ∉ suffix.toList) :
    ∃ front last, ofString (p.text ++ suffix) = ⟨front ++ [last ++ suffix]⟩ := by
  obtain ⟨segments⟩ := p
  obtain ⟨front, last, rfl⟩ := (List.eq_nil_or_concat' segments).resolve_left hp.ne_nil
  refine ⟨front, last, ?_⟩
  have hproper : IsProper ⟨front ++ [last ++ suffix]⟩ := by
    refine ⟨by simp, fun segment hsegment => ?_⟩
    rcases List.mem_append.mp hsegment with hsegment | hsegment
    · exact hp.unslashed segment (by simp [hsegment])
    · rw [List.mem_singleton.mp hsegment, String.toList_append, List.mem_append, not_or]
      exact ⟨hp.unslashed last (by simp), h⟩
  have htext : (⟨front ++ [last]⟩ : Path).text ++ suffix =
      (⟨front ++ [last ++ suffix]⟩ : Path).text := by
    rcases eq_or_ne front [] with rfl | hne
    · simp [text]
    · rw [text, text, String.intercalate_append_of_ne_nil hne (by simp),
        String.intercalate_append_of_ne_nil hne (by simp), String.intercalate_singleton,
        String.intercalate_singleton, String.append_assoc]
  rw [htext, hproper.ofString_text]

/-- The stem of a name is what stands before its last dot, unless that is its first character. -/
def IsStem (name stem : String) : Prop :=
  (∃ extension, stem ≠ "" ∧ '.' ∉ extension ∧ name.toList = stem.toList ++ '.' :: extension) ∨
    (stem = name ∧ '.' ∉ name.toList.tail)

theorem isStem_splitName (name : String) : IsStem name (splitName name).1 := by
  by_cases hdot : '.' ∈ name.toList.reverse
  · obtain ⟨extension, front, hsplit, hextension⟩ := List.eq_append_cons_of_mem hdot
    have hfront : name.toList.reverse.dropWhile (· ≠ '.') = '.' :: front := by
      have hskip : ∀ c ∈ extension, decide (c ≠ '.') = true := fun c hc =>
        decide_eq_true (ne_of_mem_of_not_mem hc hextension)
      rw [hsplit, List.dropWhile_append_of_pos hskip, List.dropWhile_cons_of_neg (by simp)]
    have hname : name.toList = front.reverse ++ '.' :: extension.reverse := by
      rw [← List.reverse_reverse name.toList, hsplit, List.reverse_append, List.reverse_cons,
        List.append_assoc, List.singleton_append]
    rcases eq_or_ne front [] with rfl | hne
    · have hstem : (splitName name).1 = name := by
        simp only [splitName, hfront]
        rfl
      exact .inr ⟨hstem, by simpa [hname] using hextension⟩
    · have hstem : (splitName name).1 = String.ofList front.reverse := by
        simp only [splitName, hfront, List.drop_succ_cons, List.drop_zero]
        rw [if_neg (by simpa using hne)]
      rw [hstem]
      exact .inl ⟨extension.reverse, by simpa using hne, by simpa using hextension, by simpa⟩
  · have hnone : name.toList.reverse.dropWhile (· ≠ '.') = [] :=
      List.dropWhile_eq_nil_iff.mpr fun c hc => decide_eq_true (ne_of_mem_of_not_mem hc hdot)
    have hstem : (splitName name).1 = name := by
      simp only [splitName, hnone]
      rfl
    rw [List.mem_reverse] at hdot
    exact .inr ⟨hstem, fun h => hdot (List.mem_of_mem_tail h)⟩

theorem IsStem.isPrefix {name stem : String} (h : IsStem name stem) :
    stem.toList <+: name.toList := by
  obtain ⟨extension, -, -, hname⟩ | ⟨rfl, -⟩ := h
  · exact ⟨'.' :: extension, hname.symm⟩
  · exact List.prefix_refl _

/-- No file with that stem has the name of its listing. -/
theorem IsStem.append_ne {name stem : String} (h : IsStem name stem) :
    stem ++ "_disasm.txt" ≠ name := by
  rintro rfl
  obtain ⟨extension, -, -, hname⟩ | ⟨hname, -⟩ := h
  · rw [String.toList_append] at hname
    cases List.append_cancel_left hname
  · have hlength := congrArg String.length hname
    rw [String.length_append] at hlength
    have hsuffix : "_disasm.txt".length = 11 := rfl
    omega

theorem isName_append (stem : String) : IsName (stem ++ "_disasm.txt") := by
  have hlong (text : String) (h : text.length < 11) : stem ++ "_disasm.txt" ≠ text := by
    rintro rfl
    have hsuffix : "_disasm.txt".length = 11 := rfl
    rw [String.length_append] at h
    omega
  refine ⟨?_, hlong ".." (by decide)⟩
  rw [isSilent, Bool.or_eq_false_iff, beq_eq_false_iff_ne, beq_eq_false_iff_ne]
  exact ⟨hlong "" (by decide), hlong "." (by decide)⟩

theorem fileName?_of_concat {p : Path} {front : List String} {name : String}
    (hsegments : p.segments = front ++ [name]) (h : IsName name) : p.fileName? = some name := by
  have hkept : dropSilent p.segments = front ++ [name] :=
    dropSilent_eq_iff.mpr ⟨[], by simpa using hsegments, by simp, by simpa using h.1⟩
  simp [fileName?, hkept, h.2]

theorem segments_join_concat (p : Path) (front : List String) (name : String) :
    ∃ before, (p.join ⟨front ++ [name]⟩).segments = before ++ [name] := by
  unfold join
  split_ifs
  · exact ⟨front, rfl⟩
  · exact ⟨p.segments.dropLast ++ front, (List.append_assoc ..).symm⟩
  · exact ⟨p.segments ++ front, (List.append_assoc ..).symm⟩

theorem IsProper.unslashed_fileName {p : Path} (hp : IsProper p) {name : String}
    (h : p.fileName? = some name) : '/' ∉ name.toList := by
  obtain ⟨front, hkept, -⟩ := components_of_fileName? h
  exact hp.unslashed name (mem_of_mem_dropSilent (by simp [hkept]))

/-- Putting a name in the place of the file name changes the last component only. -/
theorem components_withFileName {p : Path} {name other : String} (h : p.fileName? = some name)
    (hother : IsName other) (hslash : '/' ∉ other.toList) :
    (p.withFileName other).components = p.directory.components ++ [.name other] := by
  rw [withFileName, if_pos (by simp [h]), ofString_name hslash, components_join_name _ hother]

theorem IsProper.listingPath {p : Path} (hp : IsProper p) : IsProper p.listingPath := by
  unfold Path.listingPath withFileName
  split_ifs
  · exact hp.directory.join (isProper_ofString _)
  · exact hp.join (isProper_ofString _)

theorem components_listingPath {p : Path} (hp : IsProper p) {name : String}
    (h : p.fileName? = some name) :
    p.listingPath.components =
      p.directory.components ++ [.name ((splitName name).1 ++ "_disasm.txt")] := by
  have hslash : '/' ∉ ((splitName name).1 ++ "_disasm.txt").toList := by
    rw [String.toList_append, List.mem_append, not_or]
    refine ⟨fun hmem => hp.unslashed_fileName h ?_, by decide⟩
    exact (isStem_splitName name).isPrefix.subset hmem
  rw [listingPath, fileStem?, h, Option.map_some, Option.getD_some,
    components_withFileName h (isName_append _) hslash]

/-- Without a file name the whole path is the stem. -/
theorem fileName?_listingPath_of_none {p : Path} (hp : IsProper p) (h : p.fileName? = none) :
    ∃ last, p.listingPath.fileName? = some (last ++ "_disasm.txt") := by
  obtain ⟨front, last, htext⟩ :=
    hp.ofString_text_append (show '/' ∉ "_disasm.txt".toList by decide)
  have hlisting : p.listingPath = p.join ⟨front ++ [last ++ "_disasm.txt"]⟩ := by
    simp [listingPath, fileStem?, withFileName, h, htext]
  obtain ⟨before, hbefore⟩ := p.segments_join_concat front (last ++ "_disasm.txt")
  rw [hlisting]
  exact ⟨last, fileName?_of_concat hbefore (isName_append last)⟩

/-- The listing of a file stands beside it, under the stem of its name with an ending that makes the
two names differ. A path without a file name is empty, says only where it starts, or goes up at its
end; its listing has a file name all the same. -/
theorem listingPath_beside_file (text : String) :
    let p := ofString text
    let q := p.listingPath
    ofString q.text = q ∧
    (∀ name, p.fileName? = some name →
      ∃ parents stem, p.components = parents ++ [.name name] ∧
        p.fileStem? = some stem ∧ IsStem name stem ∧
        q.components = parents ++ [.name (stem ++ "_disasm.txt")] ∧
        q.fileName? = some (stem ++ "_disasm.txt") ∧
        stem ++ "_disasm.txt" ≠ name ∧ q.components ≠ p.components) ∧
    (p.fileName? = none →
      (p.components ∈ [[], [.current], [.root]] ∨ p.components.getLast? = some .parent) ∧
      ∃ stem, q.fileName? = some (stem ++ "_disasm.txt") ∧
        q.components.getLast? = some (.name (stem ++ "_disasm.txt")) ∧
        q.components ≠ p.components) := by
  intro p q
  have hp : IsProper p := isProper_ofString text
  refine ⟨hp.listingPath.ofString_text, fun name h => ?_, fun h => ?_⟩
  · have hstem := isStem_splitName name
    have hcomponents := components_directory h
    have hlisting := components_listingPath hp h
    refine ⟨p.directory.components, (splitName name).1, hcomponents, by simp [fileStem?, h], hstem,
      hlisting, ?_, hstem.append_ne, fun he => ?_⟩
    · rw [fileName?_eq_some_iff, hlisting]
      simp
    · rw [hlisting, hcomponents] at he
      simpa [hstem.append_ne] using List.append_cancel_left he
  · obtain ⟨last, hname⟩ := fileName?_listingPath_of_none hp h
    have hlast := fileName?_eq_some_iff.mp hname
    refine ⟨components_of_fileName?_eq_none h, last, hname, hlast, fun he => ?_⟩
    rw [he, ← fileName?_eq_some_iff, h] at hlast
    cases hlast

/-- A file with two dots in its name behind doubled slashes, and a path that goes up at its end. -/
theorem listingPath_beside_file_two_dots :
    let p := ofString "./games//manic.v2.tap/."
    let up := ofString "a/.."
    p.fileName? = some "manic.v2.tap" ∧
      (∃ parents, p.components = parents ++ [.name "manic.v2.tap"] ∧
        p.listingPath.components = parents ++ [.name "manic.v2_disasm.txt"]) ∧
      up.fileName? = none ∧ up.listingPath.components ≠ up.components := by
  intro p up
  have hname : p.fileName? = some "manic.v2.tap" := by decide
  have hstem : p.fileStem? = some "manic.v2" := by decide
  have hup : up.fileName? = none := by decide
  obtain ⟨-, named, -⟩ := listingPath_beside_file "./games//manic.v2.tap/."
  obtain ⟨-, -, unnamed⟩ := listingPath_beside_file "a/.."
  obtain ⟨parents, stem, hparts, hstem', -, hlisting, -⟩ := named _ hname
  obtain ⟨-, -, -, -, hne⟩ := unnamed hup
  obtain rfl : "manic.v2" = stem := Option.some.inj (hstem.symm.trans hstem')
  exact ⟨hname, ⟨parents, hparts, hlisting⟩, hup, hne⟩

end Path

end SpectrumListing
