import SourceMetrics.Proofs.FileTree.Following
import SourceMetrics.Proofs.Text.Split

/-! # Where the path of an entry leads

A walk puts the path of an entry together from that of its directory and a name. It leads to what
stands in that directory under that name, and the path of the directory leads to the directory.

* `locate_eq_ok_iff`: a path leads where its names lead.
* `exists_stem`: the names on the path of an entry.
* `locate_join`, `exists_of_locate_join`: from the directory to the entry, and back. -/

namespace SourceMetrics

set_option autoImplicit false

open SourceMetrics.Path (Name)

/-! ## The bytes of a joined path -/

namespace Path

theorem join_bytes {path : Path} (h : path.bytes ≠ []) :
    ∃ front, (path.bytes = front ++ [slash] ∨ path.bytes = front) ∧
      ∀ name, (path.join name).bytes = front ++ slash :: name := by
  obtain ⟨front, last, hfront⟩ : ∃ front last, path.bytes = front ++ [last] :=
    ⟨_, _, (List.dropLast_concat_getLast h).symm⟩
  have hlast : path.bytes.getLast? = some last := by rw [hfront, List.getLast?_concat]
  by_cases hslash : last = slash
  · subst hslash
    refine ⟨front, .inl hfront, fun name => ?_⟩
    simp only [join, hlast, if_true]
    rw [hfront, List.append_assoc, List.singleton_append]
  · refine ⟨path.bytes, .inr rfl, fun name => ?_⟩
    simp only [join, hlast, if_neg hslash]

theorem prefix_join {path : Path} (h : path.bytes ≠ []) (name : Name) :
    path.bytes <+: (path.join name).bytes := by
  obtain ⟨front, hpath, hjoin⟩ := join_bytes h
  rw [hjoin]
  obtain hpath | hpath := hpath
  · exact ⟨name, by rw [hpath, List.append_assoc, List.singleton_append]⟩
  · exact ⟨slash :: name, by rw [hpath]⟩

theorem mem_join {path : Path} (h : path.bytes ≠ []) {name : Name} {byte : UInt8}
    (hmem : byte ∈ (path.join name).bytes) : byte ∈ path.bytes ∨ byte = slash ∨ byte ∈ name := by
  obtain ⟨front, hpath, hjoin⟩ := join_bytes h
  rw [hjoin, List.mem_append, List.mem_cons] at hmem
  obtain hfront | hrest := hmem
  · obtain hpath | hpath := hpath
    · exact .inl (by rw [hpath]; exact List.mem_append_left _ hfront)
    · exact .inl (by rw [hpath]; exact hfront)
  · exact .inr hrest

theorem isAbsolute_join {path : Path} (h : path.bytes ≠ []) (name : Name) :
    (path.join name).isAbsolute = path.isAbsolute := by
  obtain ⟨rest, hrest⟩ := prefix_join h name
  obtain ⟨first, others, hfirst⟩ := List.exists_cons_of_ne_nil h
  rw [isAbsolute, isAbsolute, ← hrest, hfirst]
  rfl

/-- The names on the path of an entry are those on the path of its directory, without the empty one
at the end, and that of the entry. -/
theorem exists_stem {path : Path} (h : path.bytes ≠ []) :
    ∃ stem, (Text.split slash path.bytes = stem ∨ Text.split slash path.bytes = stem ++ [[]]) ∧
      ∀ name : Name, slash ∉ name → Text.split slash (path.join name).bytes = stem ++ [name] := by
  obtain ⟨front, hpath, hjoin⟩ := join_bytes h
  refine ⟨Text.split slash front, ?_, fun name hname => ?_⟩
  · obtain hpath | hpath := hpath
    · rw [hpath, Text.split_append]
      exact .inr rfl
    · rw [hpath]
      exact .inl rfl
  · rw [hjoin, Text.split_append, Text.split_of_not_mem hname]

end Path

namespace FileTree

variable {tree : FileTree} {purpose : Purpose}

/-- The path may be followed. -/
structure IsRoute (path : Path) : Prop where
  zero : (0 : UInt8) ∉ path.bytes
  ne_nil : path.bytes ≠ []
  length : path.bytes.length ≤ pathLimit

theorem route_eq_ok_iff {path : Path} {names : List Name} :
    route path = .ok names ↔ IsRoute path ∧ names = Text.split Path.slash path.bytes := by
  unfold route
  constructor
  · intro h
    split at h
    · cases h
    · split at h
      · cases h
      · split at h
        · cases h
        · rename_i hzero hnil hlength
          cases h
          exact ⟨⟨by simpa using hzero, by simpa using hnil, Nat.le_of_not_lt hlength⟩, rfl⟩
  · rintro ⟨h, rfl⟩
    have hzero : ¬ path.bytes.contains 0 = true := by simpa using h.zero
    have hnil : ¬ path.bytes.isEmpty = true := by simpa using h.ne_nil
    rw [if_neg hzero, if_neg hnil, if_neg (Nat.not_lt.mpr h.length)]

theorem locate_eq_ok_iff {path : Path} {destination : Destination} :
    tree.locate purpose path = .ok destination ↔ IsRoute path ∧
      Follows tree purpose linkLimit (start path tree.home) (Text.split Path.slash path.bytes)
        destination := by
  rw [← follow_eq_ok_iff, locate]
  constructor
  · intro h
    cases hroute : route path with
    | error fault =>
      rw [hroute] at h
      cases h
    | ok names =>
      rw [hroute] at h
      obtain ⟨hpath, rfl⟩ := route_eq_ok_iff.mp hroute
      exact ⟨hpath, h⟩
  · rintro ⟨hpath, h⟩
    rw [route_eq_ok_iff.mpr ⟨hpath, rfl⟩]
    exact h

theorem start_join {path : Path} (h : path.bytes ≠ []) (name : Name) (number : Nat) :
    start (path.join name) number = start path number := by
  rw [start, Path.isAbsolute_join h, start]

/-- The directory of an entry lies on the way to the entry. -/
theorem exists_of_locate_join {path : Path} (hpath : path.bytes ≠ []) {name : Name}
    (hname : Path.slash ∉ name) {destination : Destination}
    (h : tree.locate .find (path.join name) = .ok destination) :
    ∃ number left, tree.locate .find path = .ok (.directory number) ∧
      Follows tree .find left number [name] destination := by
  obtain ⟨hroute, hfollows⟩ := locate_eq_ok_iff.mp h
  obtain ⟨stem, hstem, hjoin⟩ := Path.exists_stem hpath
  rw [hjoin name hname, start_join hpath] at hfollows
  obtain ⟨left, number, hway, hentry⟩ := hfollows.split stem (List.cons_ne_nil _ _)
  have hfront := Path.prefix_join hpath name
  refine ⟨number, left, locate_eq_ok_iff.mpr ⟨⟨?_, hpath, ?_⟩, ?_⟩, hentry⟩
  · exact fun hzero => hroute.zero (hfront.subset hzero)
  · exact Nat.le_trans hfront.length_le hroute.length
  · obtain hsame | hblank := hstem
    · rw [hsame]
      exact hway
    · rw [hblank]
      exact hway.append fun left => .blank isBlank_nil .arrived

/-- An entry is reached through its directory. -/
theorem locate_join {path : Path} {number : Nat}
    (h : tree.locate .find path = .ok (.directory number)) {name : Name} (hname : IsName name)
    (hlength : (path.join name).bytes.length ≤ pathLimit) {destination : Destination}
    (hentry : ∀ left, Follows tree .find left number [name] destination) :
    tree.locate .find (path.join name) = .ok destination := by
  obtain ⟨hroute, hfollows⟩ := locate_eq_ok_iff.mp h
  obtain ⟨stem, hstem, hjoin⟩ := Path.exists_stem hroute.ne_nil
  have hway : Follows tree .find linkLimit (start path tree.home) stem (.directory number) := by
    obtain hsame | hblank := hstem
    · rw [hsame] at hfollows
      exact hfollows
    -- a slash at the end of the path leaves an empty name behind, which leads nowhere else
    · rw [hblank] at hfollows
      obtain ⟨left, inner, hstem, hend⟩ := hfollows.split stem (List.cons_ne_nil _ _)
      have hsame := hend.follow_eq
      rw [follow_blank _ _ isBlank_nil, follow_nil] at hsame
      cases hsame
      exact hstem
  refine locate_eq_ok_iff.mpr ⟨⟨?_, ?_, hlength⟩, ?_⟩
  · intro hzero
    obtain hpath | hslash | hin := Path.mem_join hroute.ne_nil hzero
    · exact hroute.zero hpath
    · cases hslash
    · exact hname.zero hin
  · intro hnil
    have hfront := Path.prefix_join hroute.ne_nil name
    rw [hnil] at hfront
    exact hroute.ne_nil (List.prefix_nil.mp hfront)
  · rw [hjoin name hname.slash, start_join hroute.ne_nil]
    exact hway.append hentry

end FileTree

end SourceMetrics
