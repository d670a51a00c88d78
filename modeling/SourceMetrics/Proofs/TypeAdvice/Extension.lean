import SourceMetrics.Proofs.Text.Run
import SourceMetrics.Proofs.Text.Split
import SourceMetrics.TypeAdvice

/-! # Paths of the typed dialect

The file name at the end of a path and its extension, told by how the path is put together.

* `fileName?_eq_some_iff`: a path ends in a name, behind which there are only slashes and single dots.
* `extension?_eq_some_iff`: a name ends in a dot and an extension, and does not begin with that dot.
* `isTyped_iff`: the two together. -/

namespace SourceMetrics.TypeAdvice

set_option autoImplicit false

open Text

/-! ## File names -/

/-- A part of a path that is passed over at its end. -/
abbrev isIdle (part : List Char) : Bool :=
  part == [] || part == ['.']

/-- Slashes, each perhaps with a single dot behind it. -/
def IsPassedOver (ending : List Char) : Prop :=
  ∃ pieces : List (List Char), (∀ piece ∈ pieces, piece = ['/'] ∨ piece = ['/', '.']) ∧
    ending = pieces.flatten

theorem slash_not_mem_of_isIdle {part : List Char} (h : isIdle part = true) : '/' ∉ part := by
  simp only [isIdle, Bool.or_eq_true, beq_iff_eq] at h
  obtain rfl | rfl := h <;> decide

theorem isPassedOver_flatMap {parts : List (List Char)} (h : ∀ part ∈ parts, isIdle part = true) :
    IsPassedOver (parts.flatMap ('/' :: ·)) := by
  refine ⟨parts.map ('/' :: ·), fun piece hpiece => ?_, List.flatMap_def⟩
  obtain ⟨part, hpart, rfl⟩ := List.mem_map.mp hpiece
  have hidle := h part hpart
  simp only [isIdle, Bool.or_eq_true, beq_iff_eq] at hidle
  obtain rfl | rfl := hidle
  · exact .inl rfl
  · exact .inr rfl

theorem IsPassedOver.exists_parts {ending : List Char} (h : IsPassedOver ending) :
    ∃ parts : List (List Char), (∀ part ∈ parts, isIdle part = true) ∧
      ending = parts.flatMap ('/' :: ·) := by
  obtain ⟨pieces, hpieces, rfl⟩ := h
  induction pieces with
  | nil => exact ⟨[], fun _ hpart => absurd hpart List.not_mem_nil, rfl⟩
  | cons piece pieces ih =>
    obtain ⟨hpiece, hrest⟩ := List.forall_mem_cons.mp hpieces
    obtain ⟨parts, hparts, hflatten⟩ := ih hrest
    rw [List.flatten_cons, hflatten]
    obtain rfl | rfl := hpiece
    · exact ⟨[] :: parts, List.forall_mem_cons.mpr ⟨rfl, hparts⟩, rfl⟩
    · exact ⟨['.'] :: parts, List.forall_mem_cons.mpr ⟨rfl, hparts⟩, rfl⟩

/-- A directory, or nothing, in front of a name. -/
def EndsInSlash (directory : List Char) : Prop :=
  directory = [] ∨ directory.getLast? = some '/'

/-- Joined parts, one of which is singled out. -/
theorem intercalate_append_cons (front behind : List (List Char)) (name : List Char) :
    ['/'].intercalate (front ++ name :: behind) =
      front.flatMap (· ++ ['/']) ++ name ++ behind.flatMap ('/' :: ·) := by
  induction front with
  | nil =>
    rw [List.nil_append, List.flatMap_nil, List.nil_append]
    induction behind generalizing name with
    | nil => rw [List.intercalate_singleton, List.flatMap_nil, List.append_nil]
    | cons part behind ih =>
      rw [List.intercalate_cons_cons, ih, List.flatMap_cons, List.append_assoc]
      rfl
  | cons part front ih =>
    obtain ⟨next, others, hnext⟩ : ∃ next others, front ++ name :: behind = next :: others :=
      List.exists_cons_of_ne_nil (by simp)
    rw [List.cons_append, hnext, List.intercalate_cons_cons, ← hnext, ih, List.flatMap_cons]
    simp only [List.append_assoc]

theorem endsInSlash_flatMap (parts : List (List Char)) :
    EndsInSlash (parts.flatMap (· ++ ['/'])) := by
  obtain rfl | ⟨front, last, rfl⟩ := parts.eq_nil_or_concat
  · exact .inl rfl
  · right
    rw [List.concat_eq_append, List.flatMap_append, List.flatMap_singleton, ← List.append_assoc,
      List.getLast?_concat]

/-- A name and what is passed over behind it, split again. -/
theorem split_append_flatMap {name : List Char} {parts : List (List Char)} (hname : '/' ∉ name)
    (hparts : ∀ part ∈ parts, isIdle part = true) :
    split '/' (name ++ parts.flatMap ('/' :: ·)) = name :: parts := by
  induction parts generalizing name with
  | nil => rw [List.flatMap_nil, List.append_nil, split_of_not_mem hname]
  | cons part parts ih =>
    obtain ⟨hpart, hrest⟩ := List.forall_mem_cons.mp hparts
    rw [List.flatMap_cons, List.cons_append, split_append, split_of_not_mem hname,
      ih (slash_not_mem_of_isIdle hpart) hrest]
    rfl

theorem EndsInSlash.exists_split {directory : List Char} (h : EndsInSlash directory)
    (rest : List Char) : ∃ front, split '/' (directory ++ rest) = front ++ split '/' rest := by
  obtain rfl | hlast := h
  · exact ⟨[], rfl⟩
  · obtain ⟨names, rfl⟩ := List.getLast?_eq_some_iff.mp hlast
    exact ⟨split '/' names, by rw [List.append_assoc, List.singleton_append, split_append]⟩

/-- The last part that is not passed over. -/
theorem dropWhile_reverse_eq_cons_iff {parts rest : List (List Char)} {name : List Char} :
    parts.reverse.dropWhile isIdle = name :: rest ↔
      isIdle name = false ∧ ∃ behind, (∀ part ∈ behind, isIdle part = true) ∧
        parts = rest.reverse ++ name :: behind := by
  constructor
  · intro h
    obtain ⟨idle, busy, hparts, hidle, hbusy⟩ := exists_run isIdle parts.reverse
    rw [hparts, List.dropWhile_append_of_pos hidle, dropWhile_of_stops hbusy] at h
    subst h
    refine ⟨stops_cons.mp hbusy, idle.reverse, fun part hpart => ?_, ?_⟩
    · exact hidle part (List.mem_reverse.mp hpart)
    · rw [← List.reverse_reverse parts, hparts]
      simp
  · rintro ⟨hname, behind, hbehind, rfl⟩
    have hreverse : ∀ part ∈ behind.reverse, isIdle part = true :=
      fun part hpart => hbehind part (List.mem_reverse.mp hpart)
    rw [List.reverse_append, List.reverse_cons, List.append_assoc, List.singleton_append,
      List.reverse_reverse, List.dropWhile_append_of_pos hreverse,
      dropWhile_of_stops (stops_cons.mpr hname)]

theorem fileName?_of_busy {path name : List Char} {rest : List (List Char)}
    (h : (split '/' path).reverse.dropWhile isIdle = name :: rest) :
    fileName? path = if name = ['.', '.'] then none else some name := by
  unfold fileName?
  simp only [h]

theorem fileName?_of_idle {path : List Char}
    (h : (split '/' path).reverse.dropWhile isIdle = []) : fileName? path = none := by
  unfold fileName?
  simp only [h]

/-- The file name of a path stands at its end, apart from what is passed over. -/
theorem fileName?_eq_some_iff {path name : List Char} :
    fileName? path = some name ↔
      name ≠ [] ∧ name ≠ ['.'] ∧ name ≠ ['.', '.'] ∧ '/' ∉ name ∧
        ∃ directory ending, path = directory ++ name ++ ending ∧ EndsInSlash directory ∧
          IsPassedOver ending := by
  have hbusy : isIdle name = false ↔ name ≠ [] ∧ name ≠ ['.'] := by simp [isIdle]
  constructor
  · intro h
    cases hdrop : (split '/' path).reverse.dropWhile isIdle with
    | nil => cases (fileName?_of_idle hdrop).symm.trans h
    | cons found rest =>
      rw [fileName?_of_busy hdrop] at h
      split at h
      · cases h
      · rename_i hdots
        cases h
        obtain ⟨hname, behind, hbehind, hparts⟩ := dropWhile_reverse_eq_cons_iff.mp hdrop
        obtain ⟨hempty, hdot⟩ := hbusy.mp hname
        have hslash : '/' ∉ name :=
          (mem_split (by rw [hparts]; exact List.mem_append_right _ List.mem_cons_self)).1
        refine ⟨hempty, hdot, hdots, hslash, _, _, ?_, endsInSlash_flatMap rest.reverse,
          isPassedOver_flatMap hbehind⟩
        rw [← intercalate_append_cons, ← hparts, intercalate_split]
  · rintro ⟨hempty, hdot, hdots, hslash, directory, ending, rfl, hdirectory, hending⟩
    obtain ⟨behind, hbehind, rfl⟩ := hending.exists_parts
    obtain ⟨front, hfront⟩ := hdirectory.exists_split (name ++ behind.flatMap ('/' :: ·))
    rw [split_append_flatMap hslash hbehind] at hfront
    have hdrop : (split '/' (directory ++ name ++ behind.flatMap ('/' :: ·))).reverse.dropWhile
        isIdle = name :: front.reverse := by
      rw [dropWhile_reverse_eq_cons_iff, List.append_assoc, hfront, List.reverse_reverse]
      exact ⟨hbusy.mpr ⟨hempty, hdot⟩, behind, hbehind, rfl⟩
    rw [fileName?_of_busy hdrop, if_neg hdots]

/-! ## Extensions -/

theorem extension?_eq_some_iff {name found : List Char} :
    extension? name = some found ↔
      '.' ∉ found ∧ ∃ stem, stem ≠ [] ∧ name = stem ++ '.' :: found := by
  rw [extension?]
  constructor
  · intro h
    obtain ⟨backwards, rest, hparts, hbackwards, hrest⟩ := exists_run (· != '.') name.reverse
    simp only [hparts, takeWhile_append_of_stops hbackwards hrest] at h
    split at h
    · rename_i hlength
      cases h
      have hname : name = rest.reverse ++ backwards.reverse := by
        rw [← List.reverse_append, ← hparts, List.reverse_reverse]
      cases rest with
      | nil =>
        rw [hname, List.reverse_nil, List.nil_append, List.length_reverse] at hlength
        omega
      | cons dot stem =>
        obtain rfl : dot = '.' := by simpa using stops_cons.mp hrest
        refine ⟨fun hdot => ?_, stem.reverse, ?_, ?_⟩
        · simpa using hbackwards _ (List.mem_reverse.mp hdot)
        · rintro hempty
          simp [hname, List.reverse_eq_nil_iff.mp hempty] at hlength
        · rw [hname, List.reverse_cons, List.append_assoc, List.singleton_append]
    · cases h
  · rintro ⟨hdot, stem, hstem, rfl⟩
    have hreverse : (stem ++ '.' :: found).reverse = found.reverse ++ '.' :: stem.reverse := by simp
    have hpos : 0 < stem.length := List.length_pos_iff.mpr hstem
    have htake : (found.reverse ++ '.' :: stem.reverse).takeWhile (· != '.') = found.reverse :=
      takeWhile_append_stop (mt List.mem_reverse.mp hdot)
    simp only [hreverse, htake, List.reverse_reverse]
    rw [if_pos (by simp; omega)]

/-! ## The typed dialect -/

/-- A path is of the typed dialect if it ends in a name with one of its extensions, apart from slashes
and single dots behind it. -/
theorem isTyped_iff {path : List Char} :
    isTyped path = true ↔ ∃ directory stem extension ending,
      path = directory ++ stem ++ extension ++ ending ∧ EndsInSlash directory ∧
      (stem ≠ [] ∧ '/' ∉ stem) ∧ (extension = ".ts".toList ∨ extension = ".tsx".toList) ∧
      IsPassedOver ending := by
  have hknown : isTyped path = true ↔ ∃ name found, fileName? path = some name ∧
      extension? name = some found ∧ (found = "ts".toList ∨ found = "tsx".toList) := by
    simp only [isTyped, typedExtensions, Option.any_eq_true, Option.bind_eq_some_iff, List.any_cons,
      List.any_nil, Bool.or_false, Bool.or_eq_true, beq_iff_eq]
    constructor
    · rintro ⟨found, ⟨name, hname, hfound⟩, hextension⟩
      exact ⟨name, found, hname, hfound, hextension.imp Eq.symm Eq.symm⟩
    · rintro ⟨name, found, hname, hfound, hextension⟩
      exact ⟨found, ⟨name, hname, hfound⟩, hextension.imp Eq.symm Eq.symm⟩
  rw [hknown]
  constructor
  · rintro ⟨name, found, hname, hfound, hextension⟩
    obtain ⟨-, -, -, hslash, directory, ending, rfl, hdirectory, hending⟩ :=
      fileName?_eq_some_iff.mp hname
    obtain ⟨-, stem, hstem, rfl⟩ := extension?_eq_some_iff.mp hfound
    refine ⟨directory, stem, '.' :: found, ending, ?_, hdirectory, ⟨hstem, fun hmem => ?_⟩, ?_,
      hending⟩
    · rw [← List.append_assoc directory]
    · exact hslash (List.mem_append_left _ hmem)
    · exact hextension.imp (congrArg ('.' :: ·)) (congrArg ('.' :: ·))
  · rintro ⟨directory, stem, extension, ending, rfl, hdirectory, ⟨hstem, hslash⟩, hextension, hending⟩
    -- a name with such an extension is neither empty nor made of dots
    obtain ⟨found, hfound, rfl, hdot, ht, hbelow⟩ : ∃ found,
        (found = "ts".toList ∨ found = "tsx".toList) ∧ extension = '.' :: found ∧ '.' ∉ found ∧
        't' ∈ found ∧ '/' ∉ found := by
      obtain rfl | rfl := hextension
      · exact ⟨"ts".toList, .inl rfl, rfl, by decide, by decide, by decide⟩
      · exact ⟨"tsx".toList, .inr rfl, rfl, by decide, by decide, by decide⟩
    have hother : ∀ name : List Char, 't' ∉ name → stem ++ '.' :: found ≠ name := by
      rintro _ hnot rfl
      exact hnot (List.mem_append_right _ (.tail _ ht))
    refine ⟨stem ++ '.' :: found, found, ?_, ?_, hfound⟩
    · rw [fileName?_eq_some_iff]
      refine ⟨hother _ (by decide), hother _ (by decide), hother _ (by decide), ?_, directory,
        ending, ?_, hdirectory, hending⟩
      · rw [List.mem_append, List.mem_cons]
        rintro (hleft | hdotted | hright)
        · exact hslash hleft
        · exact absurd hdotted (by decide)
        · exact hbelow hright
      · rw [List.append_assoc directory]
    · exact extension?_eq_some_iff.mpr ⟨hdot, stem, hstem, rfl⟩

end SourceMetrics.TypeAdvice
