import Mathlib.Data.List.TakeWhile
import SourceMetrics.Proofs.FileTree.Locating
import SourceMetrics.Proofs.Text.Utf8

/-! # Growing trees

A tree in which directories are made and files are written grows: what has stood in it still does,
though a file may have got another content. Paths lead where they led before.

* `Grows`: what has stood in the first tree still stands in the second one.
* `Follows.stands`: in a well-formed tree, what a path leads to stands in the tree.
* `Follows.grows`: names that have led somewhere still lead there, or to the file that has been
  written there.
* `makeDirectory_eq_ok`, `write_eq_ok_iff`: what making a directory and writing a file come to.
* `write_again`: a path by which a file has been written leads to its place for good.
* `writes_again`: two files that are written once more are already there.
* `read_write`: a text that is written is read back.
* `Adds`: the two trees differ by new directories and by files that are known. -/

namespace SourceMetrics.FileTree

set_option autoImplicit false

open SourceMetrics.Path (Name)

/-! ## Growth -/

/-- What may become of an object while a tree grows: a file may get another content. -/
inductive Object.Lasts : Object → Object → Prop
  | same {object : Object} : Lasts object object
  | file {content later : List UInt8} : Lasts (.file content) (.file later)

/-- What has stood in the first tree still stands in the second one. -/
structure Grows (before after : FileTree) : Prop where
  home : after.home = before.home
  size : before.size ≤ after.size
  above : ∀ number, number < before.size → after.above number = before.above number
  lasts : ∀ number name object, before.object? number name = some object →
    ∃ later, after.object? number name = some later ∧ object.Lasts later

section Growth

variable {tree : FileTree} {number : Nat} {name : Name}

theorem Object.Lasts.kind_eq {object later : Object} (h : object.Lasts later) :
    later.kind = object.kind := by
  cases h <;> rfl

theorem Object.Lasts.trans {object between later : Object} (h : object.Lasts between)
    (h' : between.Lasts later) : object.Lasts later := by
  cases h with
  | same => exact h'
  | file =>
    cases h'
    · exact .file
    · exact .file

@[refl]
theorem Grows.refl (tree : FileTree) : Grows tree tree :=
  ⟨rfl, Nat.le_refl _, fun _ _ => rfl, fun _ _ object h => ⟨object, h, .same⟩⟩

theorem Grows.trans {before between after : FileTree} (h : Grows before between)
    (h' : Grows between after) : Grows before after where
  home := h'.home.trans h.home
  size := Nat.le_trans h.size h'.size
  above number hnumber :=
    (h'.above number (Nat.lt_of_lt_of_le hnumber h.size)).trans (h.above number hnumber)
  lasts number name object hobject := by
    obtain ⟨between, hbetween, hlasts⟩ := h.lasts number name object hobject
    obtain ⟨later, hlater, hlasts'⟩ := h'.lasts number name between hbetween
    exact ⟨later, hlater, hlasts.trans hlasts'⟩

/-- A tree grows by a file where nothing or a file stands. -/
theorem grows_put {content : List UInt8} (hnumber : number < tree.size)
    (h : ∀ object, tree.object? number name = some object → object.kind = .file) :
    Grows tree (tree.put number name (.file content)) where
  home := rfl
  size := Nat.le_of_eq size_put.symm
  above place _ := above_put place
  lasts place other object hobject := by
    by_cases hsame : (place, other) = (number, name)
    · obtain ⟨rfl, rfl⟩ := Prod.mk.inj hsame
      refine ⟨_, object?_put hnumber, ?_⟩
      have hkind := h object hobject
      cases object with
      | file _ => exact .file
      | directory _ => cases hkind
      | link _ => cases hkind
    · exact ⟨object, (object?_put_of_ne hsame).trans hobject, .same⟩

/-- A tree grows by a directory where nothing stands. -/
theorem grows_putDirectory (h : tree.object? number name = none) :
    Grows tree (tree.putDirectory number name) where
  home := rfl
  size := by
    rw [size_putDirectory]
    omega
  above place hplace := above_putDirectory (by omega)
  lasts place other object hobject := by
    have hne : (place, other) ≠ (number, name) := by
      intro hsame
      obtain ⟨rfl, rfl⟩ := Prod.mk.inj hsame
      rw [h] at hobject
      cases hobject
    have hsame := object?_putDirectory_of_ne (lt_size_of_object? hobject) hne
    exact ⟨object, hsame.trans hobject, .same⟩

end Growth

/-! ## Destinations -/

section Destinations

variable {tree before after : FileTree} {purpose : Purpose}

/-- What is at the end of a path stands in the tree, or could. -/
def Destination.Stands (tree : FileTree) : Destination → Prop
  | .directory number => number < tree.size
  | .file number name content => tree.object? number name = some (.file content)
  | .vacant number name =>
    number < tree.size ∧ tree.object? number name = none ∧ IsName name

/-- No slash and no zero byte is in any of the names. -/
def AreNames (names : List Name) : Prop :=
  ∀ name ∈ names, Path.slash ∉ name ∧ (0 : UInt8) ∉ name

theorem areNames_split {bytes : List UInt8} (h : (0 : UInt8) ∉ bytes) :
    AreNames (Text.split Path.slash bytes) := by
  intro name hname
  obtain ⟨hslash, hall⟩ := Text.mem_split hname
  exact ⟨hslash, fun hzero => h (hall 0 hzero)⟩

theorem AreNames.tail {name : Name} {rest : List Name} (h : AreNames (name :: rest)) :
    AreNames rest :=
  fun other hother => h other (.tail name hother)

theorem AreNames.append {names rest : List Name} (h : AreNames names) (h' : AreNames rest) :
    AreNames (names ++ rest) := by
  intro name hname
  obtain hfront | hrest := List.mem_append.mp hname
  · exact h name hfront
  · exact h' name hrest

theorem IsLookedUp.isName {name : Name} {rest : List Name} (h : IsLookedUp purpose name rest)
    (hnames : AreNames (name :: rest)) : IsName name where
  isEmpty := by
    have hblank := h.blank
    simp only [IsBlank, Bool.or_eq_true, not_or, Bool.not_eq_true] at hblank
    exact hblank.1
  ne_here := by
    have hblank := h.blank
    simp only [IsBlank, Bool.or_eq_true, not_or, beq_iff_eq] at hblank
    exact hblank.2
  ne_above := h.above
  slash := (hnames name List.mem_cons_self).1
  zero := (hnames name List.mem_cons_self).2
  length := h.length

theorem IsName.isLookedUp {name : Name} (h : IsName name) (rest : List Name) :
    IsLookedUp .find name rest where
  blank hblank := by
    have hhere : name = Path.here := by simpa [IsBlank, h.isEmpty] using hblank
    exact h.ne_here hhere
  above := h.ne_above
  open' hopen := Purpose.noConfusion hopen.1
  length := h.length

theorem WellFormed.start_lt (_ : tree.WellFormed) {number : Nat} (hnumber : number < tree.size)
    (path : Path) : start path number < tree.size := by
  unfold start
  split
  · omega
  · exact hnumber

theorem Follows.stands {links number : Nat} {names : List Name} {destination : Destination}
    (formed : tree.WellFormed) (hnumber : number < tree.size) (hnames : AreNames names)
    (h : Follows tree purpose links number names destination) : destination.Stands tree := by
  induction h with
  | arrived => exact hnumber
  | blank _ _ ih => exact ih hnumber hnames.tail
  | above _ ih => exact ih (formed.above _ hnumber) hnames.tail
  | directory _ hobject _ ih =>
    exact ih (formed.inner _ _ _ (mem_of_object? hobject)).2 hnames.tail
  | link _ hobject _ ih =>
    have htarget := formed.links _ _ _ (mem_of_object? hobject)
    exact ih (formed.start_lt hnumber _) ((areNames_split htarget).append hnames.tail)
  | file _ hobject => exact hobject
  | vacant _ hname hobject => exact ⟨hnumber, hobject, hname.isName hnames⟩

/-- What becomes of a destination when the tree has grown. -/
inductive Destination.Becomes (after : FileTree) : Destination → Destination → Prop
  | directory {number : Nat} : Becomes after (.directory number) (.directory number)
  | file {number : Nat} {name : Name} {content later : List UInt8} :
      after.object? number name = some (.file later) →
      Becomes after (.file number name content) (.file number name later)
  | written {number : Nat} {name : Name} {later : List UInt8} :
      after.object? number name = some (.file later) →
      Becomes after (.vacant number name) (.file number name later)

theorem Follows.grows {links number : Nat} {names : List Name} {destination later : Destination}
    (formed : before.WellFormed) (hgrows : Grows before after) (hnumber : number < before.size)
    (h : Follows before purpose links number names destination)
    (hlater : destination.Becomes after later) :
    Follows after purpose links number names later := by
  induction h with
  | arrived =>
    cases hlater
    exact .arrived
  | blank hblank _ ih => exact .blank hblank (ih hnumber hlater)
  | above _ ih =>
    have hup := ih (formed.above _ hnumber) hlater
    rw [← hgrows.above _ hnumber] at hup
    exact .above hup
  | directory hname hobject _ ih =>
    obtain ⟨object, hafter, hlasts⟩ := hgrows.lasts _ _ _ hobject
    cases hlasts
    exact .directory hname hafter (ih (formed.inner _ _ _ (mem_of_object? hobject)).2 hlater)
  | link hname hobject _ ih =>
    obtain ⟨object, hafter, hlasts⟩ := hgrows.lasts _ _ _ hobject
    cases hlasts
    exact .link hname hafter (ih (formed.start_lt hnumber _) hlater)
  | file hname _ =>
    cases hlater with
    | file hafter => exact .file hname hafter
  | vacant _ hname _ =>
    cases hlater with
    | written hafter => exact .file hname hafter

theorem locate_stands {path : Path} {destination : Destination} (formed : tree.WellFormed)
    (h : tree.locate purpose path = .ok destination) : destination.Stands tree := by
  obtain ⟨hroute, hfollows⟩ := locate_eq_ok_iff.mp h
  exact hfollows.stands formed (formed.start_lt formed.home path) (areNames_split hroute.zero)

theorem locate_grows {path : Path} {destination later : Destination} (formed : before.WellFormed)
    (hgrows : Grows before after) (h : before.locate purpose path = .ok destination)
    (hlater : destination.Becomes after later) : after.locate purpose path = .ok later := by
  obtain ⟨hroute, hfollows⟩ := locate_eq_ok_iff.mp h
  refine locate_eq_ok_iff.mpr ⟨hroute, ?_⟩
  rw [hgrows.home]
  exact hfollows.grows formed hgrows (formed.start_lt formed.home path) hlater

/-- A path to a file leads to it still, though it may have got another content. -/
theorem locate_file_grows {path : Path} {number : Nat} {name : Name} {content : List UInt8}
    (formed : before.WellFormed) (hgrows : Grows before after)
    (h : before.locate purpose path = .ok (.file number name content)) :
    ∃ later, after.object? number name = some (.file later) ∧
      after.locate purpose path = .ok (.file number name later) := by
  obtain ⟨object, hobject, hlasts⟩ := hgrows.lasts _ _ _ (locate_stands formed h)
  obtain ⟨later, rfl⟩ : ∃ later, object = .file later := by
    cases hlasts <;> exact ⟨_, rfl⟩
  exact ⟨later, hobject, locate_grows formed hgrows h (.file hobject)⟩

end Destinations

/-! ## Making directories and writing files -/

section Making

variable {tree later : FileTree} {path : Path}

theorem isDirectory_iff : tree.isDirectory path = true ↔
    ∃ number, tree.locate .find path = .ok (.directory number) := by
  unfold isDirectory
  constructor
  · intro h
    split at h
    · rename_i number hlocate
      exact ⟨number, hlocate⟩
    · cases h
  · rintro ⟨number, h⟩
    rw [h]

/-- The names on a path are those on the way, the last one that is not empty, and empty ones. -/
theorem exists_way {names way : List Name} {name : Name}
    (h : names.reverse.dropWhile List.isEmpty = name :: way) :
    ∃ blanks, names = way.reverse ++ name :: blanks ∧ (∀ blank ∈ blanks, IsBlank blank) ∧
      name.isEmpty = false := by
  have hwhole := List.takeWhile_append_dropWhile (p := List.isEmpty) (l := names.reverse)
  rw [h] at hwhole
  refine ⟨(names.reverse.takeWhile List.isEmpty).reverse, ?_, ?_, ?_⟩
  · have hnames := congrArg List.reverse hwhole
    rw [List.reverse_append, List.reverse_cons, List.reverse_reverse, List.append_assoc,
      List.singleton_append] at hnames
    exact hnames.symm
  · intro blank hblank
    have hempty := List.mem_takeWhile_imp (List.mem_reverse.mp hblank)
    rw [List.isEmpty_iff.mp hempty]
    exact isBlank_nil
  · have hhead := List.head?_dropWhile_not List.isEmpty names.reverse
    rw [h] at hhead
    exact hhead

/-- Where a directory or a link that is made at the end of a path comes to stand. -/
structure IsVacancy (tree : FileTree) (path : Path) (number : Nat) (name : Name) : Prop where
  route : IsRoute path
  way : ∃ way blanks, Text.split Path.slash path.bytes = way ++ name :: blanks ∧
    (∀ blank ∈ blanks, IsBlank blank) ∧
    Follows tree .find linkLimit (start path tree.home) way (.directory number)
  isName : IsName name
  vacant : tree.object? number name = none

theorem vacancy_eq_ok {number : Nat} {name : Name} (h : tree.vacancy path = .ok (number, name)) :
    IsVacancy tree path number name := by
  unfold vacancy at h
  cases hroute : route path with
  | error fault =>
    rw [hroute] at h
    cases h
  | ok names =>
    obtain ⟨hpath, rfl⟩ := route_eq_ok_iff.mp hroute
    rw [hroute] at h
    simp only [bind, Except.bind] at h
    split at h
    · cases h
    · rename_i last way hway
      obtain ⟨blanks, hnames, hblanks, hempty⟩ := exists_way hway
      split at h
      · cases h
      · rename_i destination hfollow
        cases destination with
        | file _ _ _ => cases h
        | vacant _ _ => cases h
        | directory inner =>
          by_cases hdots : last = Path.here ∨ last = Path.above
          · simp [if_pos hdots] at h
          by_cases hlength : nameLimit < last.length
          · simp [if_neg hdots, if_pos hlength] at h
          by_cases hvacant : (tree.object? inner last).isSome = true
          · simp [if_neg hlength, if_pos hvacant] at h
          simp only [if_neg hdots, if_neg hlength, if_neg hvacant] at h
          cases h
          obtain ⟨hslash, hzero⟩ := areNames_split hpath.zero name (by rw [hnames]; simp)
          exact
            { route := hpath
              way := ⟨way.reverse, blanks, hnames, hblanks, follows_of_follow hfollow⟩
              isName := ⟨hempty, fun hhere => hdots (.inl hhere), fun habove => hdots (.inr habove),
                hslash, hzero, Nat.le_of_not_lt hlength⟩
              vacant := by simpa using hvacant }

/-- What a new directory is made of: a name under which nothing has stood. -/
theorem makeDirectory_eq_ok (h : tree.makeDirectory path = .ok later) :
    ∃ number name, IsVacancy tree path number name ∧ later = tree.putDirectory number name := by
  unfold makeDirectory at h
  cases hvacancy : tree.vacancy path with
  | error fault =>
    rw [hvacancy] at h
    cases h
  | ok place =>
    rw [hvacancy] at h
    cases h
    exact ⟨place.1, place.2, vacancy_eq_ok hvacancy, rfl⟩

theorem IsVacancy.lt_size {number : Nat} {name : Name} (h : IsVacancy tree path number name)
    (formed : tree.WellFormed) : number < tree.size := by
  obtain ⟨way, blanks, hnames, -, hway⟩ := h.way
  have hall := areNames_split h.route.zero
  rw [hnames] at hall
  exact hway.stands formed (formed.start_lt formed.home path) fun other hother =>
    hall other (List.mem_append_left _ hother)

/-- The path by which a directory was made leads to it. -/
theorem locate_putDirectory {number : Nat} {name : Name} (h : IsVacancy tree path number name)
    (formed : tree.WellFormed) :
    (tree.putDirectory number name).locate .find path = .ok (.directory tree.size) := by
  obtain ⟨way, blanks, hnames, hblanks, hway⟩ := h.way
  have hway' := hway.grows formed (grows_putDirectory h.vacant) (formed.start_lt formed.home path)
    .directory
  refine locate_eq_ok_iff.mpr ⟨h.route, ?_⟩
  rw [hnames]
  exact hway'.append fun left => .directory (h.isName.isLookedUp blanks)
    (object?_putDirectory (h.lt_size formed)) (.of_blanks hblanks)

/-- A tree in which a directory is made stays well-formed and grows, and the directory is at the end
of the path. -/
theorem makeDirectory_grows (formed : tree.WellFormed) (h : tree.makeDirectory path = .ok later) :
    later.WellFormed ∧ Grows tree later ∧ later.isDirectory path = true := by
  obtain ⟨number, name, hvacancy, rfl⟩ := makeDirectory_eq_ok h
  exact ⟨formed.putDirectory hvacancy.isName (hvacancy.lt_size formed),
    grows_putDirectory hvacancy.vacant,
    isDirectory_iff.mpr ⟨_, locate_putDirectory hvacancy formed⟩⟩

/-- Nothing is made where a directory stands. -/
theorem makeDirectory_of_directory {number : Nat}
    (h : tree.locate .find path = .ok (.directory number)) :
    tree.makeDirectory path = .error .alreadyPresent := by
  obtain ⟨hroute, hfollows⟩ := locate_eq_ok_iff.mp h
  have hvacancy : tree.vacancy path = .error .alreadyPresent := by
    unfold vacancy
    rw [route_eq_ok_iff.mpr ⟨hroute, rfl⟩]
    simp only [bind, Except.bind]
    split
    · rfl
    · rename_i last way hway
      obtain ⟨blanks, hnames, -, hempty⟩ := exists_way hway
      rw [hnames] at hfollows
      obtain ⟨left, inner, hin, hlast⟩ := hfollows.split way.reverse (List.cons_ne_nil _ _)
      simp only [hin.follow_eq]
      by_cases hdots : last = Path.here ∨ last = Path.above
      · rw [if_pos hdots]
      · obtain ⟨hhere, habove⟩ := not_or.mp hdots
        have hblank : ¬ IsBlank last := by
          simp only [IsBlank, hempty, Bool.false_or, beq_iff_eq]
          exact hhere
        obtain ⟨hlength, hsome⟩ := hlast.object?_isSome hblank habove
        rw [if_neg hdots, if_neg (Nat.not_lt.mpr hlength), if_pos hsome]
  rw [makeDirectory, hvacancy]
  rfl

/-- The place of the file at the end of a path, which need not be there yet. -/
inductive Destination.IsPlace : Destination → Nat → Name → Prop
  | file {number : Nat} {name : Name} {content : List UInt8} :
      IsPlace (.file number name content) number name
  | vacant {number : Nat} {name : Name} : IsPlace (.vacant number name) number name

/-- To write a file is to put it in its place. -/
theorem write_eq_ok_iff {content : List UInt8} : tree.write path content = .ok later ↔
    ∃ destination number name, tree.locate .write path = .ok destination ∧
      destination.IsPlace number name ∧ later = tree.put number name (.file content) := by
  unfold write
  constructor
  · intro h
    cases hlocate : tree.locate .write path with
    | error fault =>
      rw [hlocate] at h
      cases h
    | ok destination =>
      rw [hlocate] at h
      cases destination with
      | directory _ => cases h
      | file number name _ =>
        cases h
        exact ⟨_, number, name, rfl, .file, rfl⟩
      | vacant number name =>
        cases h
        exact ⟨_, number, name, rfl, .vacant, rfl⟩
  · rintro ⟨destination, number, name, hlocate, hplace, rfl⟩
    rw [hlocate]
    cases hplace <;> rfl

/-- A file can be put in the place of a file that is to be written. -/
theorem Destination.IsPlace.spec {destination : Destination} {number : Nat} {name : Name}
    (h : destination.IsPlace number name) (formed : tree.WellFormed)
    (hstands : destination.Stands tree) : number < tree.size ∧ IsName name ∧
      ∀ object, tree.object? number name = some object → object.kind = .file := by
  cases h with
  | file =>
    have hmem := mem_of_object? hstands
    refine ⟨lt_size_of_mem hmem, formed.names _ _ _ hmem, fun object hobject => ?_⟩
    cases hstands.symm.trans hobject
    rfl
  | vacant =>
    obtain ⟨hnumber, hnone, hname⟩ := hstands
    refine ⟨hnumber, hname, fun object hobject => ?_⟩
    cases hnone.symm.trans hobject

/-- A tree in which a file is written stays well-formed and grows. -/
theorem write_grows {content : List UInt8} (formed : tree.WellFormed)
    (h : tree.write path content = .ok later) : later.WellFormed ∧ Grows tree later := by
  obtain ⟨destination, number, name, hlocate, hplace, rfl⟩ := write_eq_ok_iff.mp h
  obtain ⟨hnumber, hname, hkind⟩ := hplace.spec formed (locate_stands formed hlocate)
  exact ⟨formed.put hname, grows_put hnumber hkind⟩

/-- The path by which a file was written leads to it. -/
theorem locate_write {content : List UInt8} (formed : tree.WellFormed)
    (h : tree.write path content = .ok later) : ∃ number name, number < tree.size ∧
      later = tree.put number name (.file content) ∧
      later.locate .write path = .ok (.file number name content) := by
  obtain ⟨-, hgrows⟩ := write_grows formed h
  obtain ⟨destination, number, name, hlocate, hplace, rfl⟩ := write_eq_ok_iff.mp h
  obtain ⟨hnumber, -⟩ := hplace.spec formed (locate_stands formed hlocate)
  refine ⟨number, name, hnumber, rfl, locate_grows formed hgrows hlocate ?_⟩
  cases hplace
  · exact .file (object?_put hnumber)
  · exact .written (object?_put hnumber)

/-- A path by which a file has been written leads to its place for good. -/
theorem write_again {content : List UInt8} {between : FileTree} (formed : tree.WellFormed)
    (h : tree.write path content = .ok between) (hgrows : Grows between later) :
    ∃ number name, number < tree.size ∧ between = tree.put number name (.file content) ∧
      ∀ again, later.write path again = .ok (later.put number name (.file again)) := by
  obtain ⟨formedBetween, -⟩ := write_grows formed h
  obtain ⟨number, name, hnumber, rfl, hlocate⟩ := locate_write formed h
  obtain ⟨last, -, hlast⟩ := locate_file_grows formedBetween hgrows hlocate
  exact ⟨number, name, hnumber, rfl, fun again => write_eq_ok_iff.mpr
    ⟨_, number, name, hlast, .file, rfl⟩⟩

/-- Two files can be written once more, and with the same contents they are already there. -/
theorem writes_again {other : Path} {first second : List UInt8} {between after : FileTree}
    (formed : tree.WellFormed) (h : tree.write path first = .ok between)
    (h' : between.write other second = .ok after) (again last : List UInt8) :
    ∃ middle later, after.write path again = .ok middle ∧ middle.write other last = .ok later ∧
      (again = first → last = second → later = after) := by
  obtain ⟨formedBetween, -⟩ := write_grows formed h
  obtain ⟨formedAfter, hafter⟩ := write_grows formedBetween h'
  obtain ⟨number, name, hnumber, rfl, hagain⟩ := write_again formed h hafter
  obtain ⟨-, hmiddle⟩ := write_grows formedAfter (hagain again)
  obtain ⟨place, final, hplace, rfl, hlast⟩ := write_again formedBetween h' hmiddle
  refine ⟨_, _, hagain again, hlast last, ?_⟩
  rintro rfl rfl
  exact put_again hnumber (size_put ▸ hplace)

/-- What leads to a file that is to be written leads to it. -/
theorem Follows.find {links number : Nat} {names : List Name} {destination : Destination}
    (h : Follows tree .write links number names destination)
    (hvacant : ∀ place name, destination ≠ .vacant place name) :
    Follows tree .find links number names destination := by
  induction h with
  | arrived => exact .arrived
  | blank hblank _ ih => exact .blank hblank (ih hvacant)
  | above _ ih => exact .above (ih hvacant)
  | directory hname hobject _ ih => exact .directory (hname.find _) hobject (ih hvacant)
  | link hname hobject _ ih => exact .link (hname.find _) hobject (ih hvacant)
  | file hname hobject => exact .file (hname.find []) hobject
  | vacant _ _ _ => exact absurd rfl (hvacant _ _)

/-- A file that has been written is found. -/
theorem find_write {content : List UInt8} (formed : tree.WellFormed)
    (h : tree.write path content = .ok later) : ∃ number name,
      later = tree.put number name (.file content) ∧
      later.locate .find path = .ok (.file number name content) := by
  obtain ⟨number, name, -, hput, hlocate⟩ := locate_write formed h
  obtain ⟨hroute, hfollows⟩ := locate_eq_ok_iff.mp hlocate
  exact ⟨number, name, hput,
    locate_eq_ok_iff.mpr ⟨hroute, hfollows.find fun _ _ => Destination.noConfusion⟩⟩

/-- A text that is written is read back. -/
theorem read_write {text : String} (formed : tree.WellFormed)
    (h : tree.write path (Utf8.encode text.toList) = .ok later) : later.read path = .ok text := by
  obtain ⟨number, name, -, hfind⟩ := find_write formed h
  simp only [read, hfind, bind, Except.bind, Utf8.decode?_encode, String.ofList_toList]

end Making

/-! ## What is new -/

section Additions

variable {tree before between after : FileTree} {written : List Path}

/-- How an object has come into the second tree. -/
inductive Origin (written : List Path) (before after : FileTree) (number : Nat) (name : Name) :
    Object → Prop
  | stood {object : Object} : before.object? number name = some object →
      Origin written before after number name object
  | made {inner : Nat} : before.size ≤ inner →
      Origin written before after number name (.directory inner)
  | written {path : Path} {content : List UInt8} : path ∈ written →
      after.locate .find path = .ok (.file number name content) →
      Origin written before after number name (.file content)

/-- In the second tree there is nothing but what has stood in the first one, new directories, and
files to which the given paths lead. -/
def Adds (written : List Path) (before after : FileTree) : Prop :=
  ∀ number name object, after.object? number name = some object →
    Origin written before after number name object

theorem Adds.refl (tree : FileTree) : Adds [] tree tree :=
  fun _ _ _ hobject => .stood hobject

theorem Adds.trans {others : List Path} (formed : between.WellFormed)
    (hbetween : Grows before between) (hafter : Grows between after) (h : Adds written before between)
    (h' : Adds others between after) : Adds (written ++ others) before after := by
  intro number name object hobject
  cases h' number name object hobject with
  | made hinner => exact .made (Nat.le_trans hbetween.size hinner)
  | written hpath hlocate => exact .written (List.mem_append_right _ hpath) hlocate
  | stood hold =>
    cases h number name object hold with
    | stood holder => exact .stood holder
    | made hinner => exact .made hinner
    | written hpath hlocate =>
      exact .written (List.mem_append_left _ hpath)
        (locate_grows formed hafter hlocate (.file hobject))

/-- A tree in which a directory is made holds nothing else that is new. -/
theorem adds_makeDirectory {path : Path} (formed : tree.WellFormed)
    (h : tree.makeDirectory path = .ok after) : Adds [] tree after := by
  obtain ⟨number, name, -, rfl⟩ := makeDirectory_eq_ok h
  intro place other object hobject
  obtain hold | ⟨-, hnew⟩ := mem_entries_putDirectory (mem_of_object? hobject)
  · exact .stood (formed.object?_of_mem hold)
  · cases hnew
    exact .made (Nat.le_refl _)

/-- A tree in which a file is written holds nothing else that is new. -/
theorem adds_write {path : Path} {content : List UInt8} (formed : tree.WellFormed)
    (h : tree.write path content = .ok after) : Adds [path] tree after := by
  obtain ⟨number, name, rfl, hlocate⟩ := find_write formed h
  intro place other object hobject
  obtain hold | ⟨rfl, hnew⟩ := mem_entries_put (mem_of_object? hobject)
  · exact .stood (formed.object?_of_mem hold)
  · cases hnew
    exact .written List.mem_cons_self hlocate

end Additions

end SourceMetrics.FileTree
