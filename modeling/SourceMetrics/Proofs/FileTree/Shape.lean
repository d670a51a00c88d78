import SourceMetrics.FileTree

/-! # The shape of a file tree

A tree is changed in two ways: an object is put under a name, or a new directory is. Both keep a
tree well-formed.

* `eq_of_entries`: a tree is what stands in its directories.
* `entries_put`, `object?_put`, `object?_putDirectory`: what stands where after a change.
* `put_again`: to put two objects again, where they were put before, changes nothing.
* `WellFormed.put`, `WellFormed.putDirectory`: directories keep to lie in directories with smaller
  numbers, and names to be different. -/

namespace SourceMetrics.FileTree

set_option autoImplicit false

open SourceMetrics.Path (Name)

/-! ## What stands where -/

section Entries

variable (tree : FileTree)

abbrev size : Nat := tree.directories.size

variable {tree}

theorem entries_of_size_le {number : Nat} (h : tree.size ≤ number) : tree.entries number = [] := by
  rw [entries, Array.getElem?_eq_none h]

theorem lt_size_of_mem {number : Nat} {entry : Name × Object} (h : entry ∈ tree.entries number) :
    number < tree.size := by
  apply Nat.lt_of_not_le
  intro hle
  rw [entries_of_size_le hle] at h
  cases h

theorem mem_of_object? {number : Nat} {name : Name} {object : Object}
    (h : tree.object? number name = some object) : (name, object) ∈ tree.entries number := by
  obtain ⟨before, behind, hentries, -⟩ := List.lookup_eq_some_iff.mp h
  rw [hentries]
  exact List.mem_append_right _ List.mem_cons_self

theorem lt_size_of_object? {number : Nat} {name : Name} {object : Object}
    (h : tree.object? number name = some object) : number < tree.size :=
  lt_size_of_mem (mem_of_object? h)

/-- A tree is what stands in its directories, and where it is worked in. -/
theorem eq_of_entries {other : FileTree} (hhome : tree.home = other.home)
    (hsize : tree.size = other.size) (habove : ∀ number, tree.above number = other.above number)
    (hentries : ∀ number, tree.entries number = other.entries number) : tree = other := by
  obtain ⟨directories, home⟩ := tree
  obtain ⟨directories', home'⟩ := other
  simp only [mk.injEq]
  refine ⟨Array.ext hsize fun number hnumber hnumber' => ?_, hhome⟩
  have hup := habove number
  have hdown := hentries number
  simp only [above, entries, Array.getElem?_eq_getElem hnumber,
    Array.getElem?_eq_getElem hnumber'] at hup hdown
  cases hd : directories[number]
  cases hd' : directories'[number]
  simp only [hd, hd'] at hup hdown
  rw [hup, hdown]

end Entries

/-! ## Changes -/

section Changes

variable {tree : FileTree} {number : Nat} {name : Name} {object : Object}

@[simp]
theorem home_put : (tree.put number name object).home = tree.home := rfl

@[simp]
theorem size_put : (tree.put number name object).size = tree.size := Array.size_setIfInBounds

@[simp]
theorem above_put (place : Nat) : (tree.put number name object).above place = tree.above place := by
  simp only [above, put, Array.getElem?_setIfInBounds]
  by_cases hplace : number = place
  · subst hplace
    by_cases hsize : number < tree.size
    · simp [hsize]
    · simp [hsize]
  · simp [hplace]

theorem entries_put_of_ne {place : Nat} (h : place ≠ number) :
    (tree.put number name object).entries place = tree.entries place := by
  simp only [entries, put, Array.getElem?_setIfInBounds_ne (Ne.symm h)]

theorem entries_put (h : number < tree.size) : (tree.put number name object).entries number =
    (name, object) :: (tree.entries number).filter (·.1 != name) := by
  simp only [entries, put, Array.getElem?_setIfInBounds_self_of_lt h]

theorem lookup_filter_of_ne {other : Name} (h : other ≠ name) (found : List (Name × Object)) :
    (found.filter (·.1 != name)).lookup other = found.lookup other := by
  induction found with
  | nil => rfl
  | cons entry found ih =>
    obtain ⟨key, value⟩ := entry
    by_cases hkey : key = name
    · subst hkey
      have hother : (other == key) = false := beq_false_of_ne h
      simp [List.lookup_cons, hother, ih]
    · simp [List.lookup_cons, hkey, ih]

theorem object?_put (h : number < tree.size) :
    (tree.put number name object).object? number name = some object := by
  rw [object?, entries_put h, List.lookup_cons_self]

theorem object?_put_of_ne {place : Nat} {other : Name} (h : (place, other) ≠ (number, name)) :
    (tree.put number name object).object? place other = tree.object? place other := by
  by_cases hplace : place = number
  · subst hplace
    by_cases hsize : place < tree.size
    · have hother : other ≠ name := fun heq => h (by rw [heq])
      have hbeq : (other == name) = false := beq_false_of_ne hother
      rw [object?, entries_put hsize, List.lookup_cons, hbeq, object?]
      exact lookup_filter_of_ne hother _
    · have hle := Nat.le_of_not_lt hsize
      rw [object?, entries_of_size_le (by rw [size_put]; exact hle), object?,
        entries_of_size_le hle]
  · rw [object?, entries_put_of_ne hplace, object?]

theorem mem_entries_put {place : Nat} {entry : Name × Object}
    (h : entry ∈ (tree.put number name object).entries place) :
    entry ∈ tree.entries place ∨ place = number ∧ entry = (name, object) := by
  by_cases hplace : place = number
  · subst hplace
    have hsize : place < tree.size := by
      have hput := lt_size_of_mem h
      rw [size_put] at hput
      exact hput
    rw [entries_put hsize] at h
    obtain rfl | hold := List.mem_cons.mp h
    · exact .inr ⟨rfl, rfl⟩
    · exact .inl (List.mem_filter.mp hold).1
  · rw [entries_put_of_ne hplace] at h
    exact .inl h

theorem distinct_put (h : ∀ place, ((tree.entries place).map (·.1)).Nodup) (place : Nat) :
    (((tree.put number name object).entries place).map (·.1)).Nodup := by
  by_cases hplace : place = number
  · subst hplace
    by_cases hsize : place < tree.size
    · rw [entries_put hsize, List.map_cons, List.nodup_cons]
      refine ⟨fun hmem => ?_, (h place).sublist (List.filter_sublist.map _)⟩
      obtain ⟨entry, hentry, hname⟩ := List.mem_map.mp hmem
      have hother := (List.mem_filter.mp hentry).2
      simp [hname] at hother
    · rw [entries_of_size_le (by rw [size_put]; omega)]
      exact List.nodup_nil
  · rw [entries_put_of_ne hplace]
    exact h place

/-! ## New directories -/

@[simp]
theorem home_putDirectory : (tree.putDirectory number name).home = tree.home := rfl

@[simp]
theorem size_putDirectory : (tree.putDirectory number name).size = tree.size + 1 := by
  simp only [putDirectory, size, Array.size_push, put, Array.size_setIfInBounds]

theorem entries_putDirectory {place : Nat} (h : place ≠ tree.size) :
    (tree.putDirectory number name).entries place =
      (tree.put number name (.directory tree.size)).entries place := by
  have hsize : place ≠ (tree.put number name (.directory tree.size)).size := by
    rw [size_put]
    exact h
  simp only [entries, putDirectory, Array.getElem?_push, if_neg hsize]

theorem entries_putDirectory_size : (tree.putDirectory number name).entries tree.size = [] := by
  have hsize : tree.size = (tree.put number name (.directory tree.size)).size := size_put.symm
  simp only [entries, putDirectory, Array.getElem?_push, if_pos hsize]

theorem above_putDirectory {place : Nat} (h : place ≠ tree.size) :
    (tree.putDirectory number name).above place = tree.above place := by
  have hsize : place ≠ (tree.put number name (.directory tree.size)).size := by
    rw [size_put]
    exact h
  have habove : (tree.put number name (.directory tree.size)).above place = tree.above place :=
    above_put place
  rw [← habove]
  simp only [above, putDirectory, Array.getElem?_push, if_neg hsize]

theorem above_putDirectory_size : (tree.putDirectory number name).above tree.size = number := by
  have hsize : tree.size = (tree.put number name (.directory tree.size)).size := size_put.symm
  simp only [above, putDirectory, Array.getElem?_push, if_pos hsize]

theorem object?_putDirectory (h : number < tree.size) :
    (tree.putDirectory number name).object? number name = some (.directory tree.size) := by
  rw [object?, entries_putDirectory (by omega)]
  exact object?_put h

theorem object?_putDirectory_of_ne {place : Nat} {other : Name} (hplace : place < tree.size)
    (h : (place, other) ≠ (number, name)) :
    (tree.putDirectory number name).object? place other = tree.object? place other := by
  rw [object?, entries_putDirectory (by omega)]
  exact object?_put_of_ne h

theorem mem_entries_putDirectory {place : Nat} {entry : Name × Object}
    (h : entry ∈ (tree.putDirectory number name).entries place) :
    entry ∈ tree.entries place ∨ place = number ∧ entry = (name, .directory tree.size) := by
  by_cases hplace : place = tree.size
  · rw [hplace, entries_putDirectory_size] at h
    cases h
  · rw [entries_putDirectory hplace] at h
    exact mem_entries_put h

end Changes

/-! ## Putting twice -/

section Twice

variable {tree : FileTree} {number place : Nat} {name other : Name} {object later : Object}

theorem filter_again (found : List (Name × Object)) :
    ((name, object) :: ((other, later) :: ((name, object) :: found.filter (·.1 != name)).filter
      (·.1 != other)).filter (·.1 != name)).filter (·.1 != other) =
        ((name, object) :: found.filter (·.1 != name)).filter (·.1 != other) := by
  by_cases hname : name = other
  · subst hname
    simp [List.filter_filter]
  · have hback : other ≠ name := Ne.symm hname
    simp only [List.filter_cons, List.filter_filter, bne_self_eq_false, bne_iff_ne, ne_eq, hname,
      hback, not_false_eq_true, if_true, Bool.false_eq_true, if_false]
    congr 1
    apply List.filter_congr
    intro entry _
    cases entry.1 != name <;> cases entry.1 != other <;> rfl

/-- Objects that are put again where they were put before are already there. -/
theorem put_again (hnumber : number < tree.size) (hplace : place < tree.size) :
    (((tree.put number name object).put place other later).put number name object).put place other
        later = (tree.put number name object).put place other later := by
  apply eq_of_entries
  · rfl
  · simp only [size_put]
  · intro asked
    simp only [above_put]
  · intro asked
    by_cases hsame : number = place
    · subst hsame
      by_cases hasked : asked = number
      · subst hasked
        simp only [entries_put, size_put, hnumber]
        rw [filter_again]
      · simp only [entries_put_of_ne hasked]
    · by_cases hasked : asked = number
      · subst hasked
        simp [entries_put_of_ne hsame, entries_put, hnumber, List.filter_filter]
      · by_cases hother : asked = place
        · subst hother
          simp [entries_put_of_ne (Ne.symm hsame), entries_put, hplace, List.filter_filter]
        · simp only [entries_put_of_ne hasked, entries_put_of_ne hother]

end Twice

/-! ## Well-formed trees -/

/-- A name under which something can stand. -/
structure IsName (name : Name) : Prop where
  isEmpty : name.isEmpty = false
  ne_here : name ≠ Path.here
  ne_above : name ≠ Path.above
  slash : Path.slash ∉ name
  zero : (0 : UInt8) ∉ name
  length : name.length ≤ nameLimit

/-- Directories lie in directories with smaller numbers, each of them in one only, and what stands in
one has a name of its own. -/
structure WellFormed (tree : FileTree) : Prop where
  home : tree.home < tree.size
  above : ∀ number, number < tree.size → tree.above number < tree.size
  names : ∀ number name object, (name, object) ∈ tree.entries number → IsName name
  distinct : ∀ number, ((tree.entries number).map (·.1)).Nodup
  inner : ∀ number name inner, (name, .directory inner) ∈ tree.entries number →
    number < inner ∧ inner < tree.size
  single : ∀ number name place other inner, (name, .directory inner) ∈ tree.entries number →
    (other, .directory inner) ∈ tree.entries place → place = number ∧ other = name
  links : ∀ number name target, (name, .link target) ∈ tree.entries number →
    (0 : UInt8) ∉ target.bytes

section Shapes

variable {tree : FileTree} {number : Nat} {name : Name} {object : Object}

theorem WellFormed.object?_of_mem (h : tree.WellFormed)
    (hmem : (name, object) ∈ tree.entries number) : tree.object? number name = some object := by
  obtain ⟨before, behind, hentries⟩ := List.append_of_mem hmem
  refine List.lookup_eq_some_iff.mpr ⟨before, behind, hentries, fun entry hentry => ?_⟩
  have hdistinct := h.distinct number
  rw [hentries, List.map_append, List.nodup_append] at hdistinct
  have hne := hdistinct.2.2 entry.1 (List.mem_map_of_mem hentry) name List.mem_cons_self
  exact bne_iff_ne.mpr (Ne.symm hne)

theorem entries_empty (number : Nat) : empty.entries number = [] := by
  cases number with
  | zero => rfl
  | succ number => exact entries_of_size_le (Nat.le_add_left 1 number)

theorem wellFormed_empty : empty.WellFormed where
  home := Nat.zero_lt_one
  above number hnumber := by
    obtain rfl := Nat.lt_one_iff.mp hnumber
    exact Nat.zero_lt_one
  names number name object hmem := by
    rw [entries_empty] at hmem
    cases hmem
  distinct number := by
    rw [entries_empty]
    exact List.nodup_nil
  inner number name inner hmem := by
    rw [entries_empty] at hmem
    cases hmem
  single number name place other inner hmem := by
    rw [entries_empty] at hmem
    cases hmem
  links number name target hmem := by
    rw [entries_empty] at hmem
    cases hmem

theorem WellFormed.put {content : List UInt8} (h : tree.WellFormed) (hname : IsName name) :
    (tree.put number name (.file content)).WellFormed where
  home := by
    rw [home_put, size_put]
    exact h.home
  above place hplace := by
    rw [size_put] at hplace ⊢
    rw [above_put]
    exact h.above place hplace
  names place other object hmem := by
    obtain hold | ⟨-, hnew⟩ := mem_entries_put hmem
    · exact h.names place other object hold
    · cases hnew
      exact hname
  distinct := distinct_put h.distinct
  inner place other inner hmem := by
    rw [size_put]
    obtain hold | ⟨-, hnew⟩ := mem_entries_put hmem
    · exact h.inner place other inner hold
    · cases hnew
  single first one second other inner hmem hmem' := by
    obtain hold | ⟨-, hnew⟩ := mem_entries_put hmem
    · obtain hold' | ⟨-, hnew⟩ := mem_entries_put hmem'
      · exact h.single first one second other inner hold hold'
      · cases hnew
    · cases hnew
  links place other target hmem := by
    obtain hold | ⟨-, hnew⟩ := mem_entries_put hmem
    · exact h.links place other target hold
    · cases hnew

theorem WellFormed.putDirectory (h : tree.WellFormed) (hname : IsName name)
    (hnumber : number < tree.size) : (tree.putDirectory number name).WellFormed where
  home := by
    have hhome := h.home
    rw [home_putDirectory, size_putDirectory]
    omega
  above place hplace := by
    rw [size_putDirectory] at hplace ⊢
    by_cases hnew : place = tree.size
    · rw [hnew, above_putDirectory_size]
      omega
    · have hold := h.above place (by omega)
      rw [above_putDirectory hnew]
      omega
  names place other object hmem := by
    obtain hold | ⟨-, hnew⟩ := mem_entries_putDirectory hmem
    · exact h.names place other object hold
    · cases hnew
      exact hname
  distinct place := by
    by_cases hnew : place = tree.size
    · rw [hnew, entries_putDirectory_size]
      exact List.nodup_nil
    · rw [entries_putDirectory hnew]
      exact distinct_put h.distinct place
  inner place other inner hmem := by
    rw [size_putDirectory]
    obtain hold | ⟨rfl, hnew⟩ := mem_entries_putDirectory hmem
    · have hinner := h.inner place other inner hold
      omega
    · cases hnew
      omega
  single first one second other inner hmem hmem' := by
    obtain hold | ⟨rfl, hnew⟩ := mem_entries_putDirectory hmem
    · obtain hold' | ⟨rfl, hnew⟩ := mem_entries_putDirectory hmem'
      · exact h.single first one second other inner hold hold'
      · cases hnew
        exact absurd (h.inner _ _ _ hold).2 (Nat.lt_irrefl _)
    · obtain hold' | ⟨rfl, hnew'⟩ := mem_entries_putDirectory hmem'
      · cases hnew
        exact absurd (h.inner _ _ _ hold').2 (Nat.lt_irrefl _)
      · cases hnew
        cases hnew'
        exact ⟨rfl, rfl⟩
  links place other target hmem := by
    obtain hold | ⟨-, hnew⟩ := mem_entries_putDirectory hmem
    · exact h.links place other target hold
    · cases hnew

end Shapes

end SourceMetrics.FileTree
