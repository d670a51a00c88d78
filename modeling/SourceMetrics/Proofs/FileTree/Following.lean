import SourceMetrics.Proofs.FileTree.Shape

/-! # Where paths lead

Following a path as a relation, with one rule for each way on from a name, and what it says of the
parts of a path.

* `Follows`: where names lead from a directory.
* `follow_eq_ok_iff`: it is what `follow` finds. One half is by induction on the links that may be
  followed and then on the names, since a link puts names in front of those that are left.
* `Follows.append`, `Follows.split`: names that are followed part by part.
* `locate_join`, `exists_of_locate_join`: the path of an entry leads into the directory of the
  entry. -/

namespace SourceMetrics.FileTree

set_option autoImplicit false

open SourceMetrics.Path (Name)

/-! ## The relation -/

/-- The name is empty, or that of the directory itself. -/
def IsBlank (name : Name) : Prop :=
  (name.isEmpty || name == Path.here) = true

/-- What stands under a name is looked up, with the names in `rest` behind it. -/
structure IsLookedUp (purpose : Purpose) (name : Name) (rest : List Name) : Prop where
  blank : ¬ IsBlank name
  above : name ≠ Path.above
  /-- No slash stands at the end of a path to a file that is to be written. -/
  open' : ¬ (purpose = .write ∧ !rest.isEmpty ∧ rest.all List.isEmpty)
  length : name.length ≤ nameLimit

/-- Where names lead from a directory, when so many links may be followed. -/
inductive Follows (tree : FileTree) (purpose : Purpose) : Nat → Nat → List Name → Destination → Prop
  | arrived {links number : Nat} : Follows tree purpose links number [] (.directory number)
  | blank {links number : Nat} {name : Name} {rest : List Name} {destination : Destination} :
      IsBlank name → Follows tree purpose links number rest destination →
      Follows tree purpose links number (name :: rest) destination
  | above {links number : Nat} {rest : List Name} {destination : Destination} :
      Follows tree purpose links (tree.above number) rest destination →
      Follows tree purpose links number (Path.above :: rest) destination
  | directory {links number inner : Nat} {name : Name} {rest : List Name}
      {destination : Destination} : IsLookedUp purpose name rest →
      tree.object? number name = some (.directory inner) →
      Follows tree purpose links inner rest destination →
      Follows tree purpose links number (name :: rest) destination
  | link {links number : Nat} {name : Name} {target : Path} {rest : List Name}
      {destination : Destination} : IsLookedUp purpose name rest →
      tree.object? number name = some (.link target) →
      Follows tree purpose links (start target number)
        (Text.split Path.slash target.bytes ++ rest) destination →
      Follows tree purpose (links + 1) number (name :: rest) destination
  | file {links number : Nat} {name : Name} {content : List UInt8} : IsLookedUp purpose name [] →
      tree.object? number name = some (.file content) →
      Follows tree purpose links number [name] (.file number name content)
  | vacant {links number : Nat} {name : Name} : purpose = .write → IsLookedUp purpose name [] →
      tree.object? number name = none →
      Follows tree purpose links number [name] (.vacant number name)

section Function

variable {tree : FileTree} {purpose : Purpose}

theorem follow_nil (links number : Nat) :
    tree.follow purpose links number [] = .ok (.directory number) := by
  cases links <;> rfl

theorem follow_blank (links number : Nat) {name : Name} (h : IsBlank name) (rest : List Name) :
    tree.follow purpose links number (name :: rest) = tree.follow purpose links number rest := by
  cases links <;> exact if_pos h

theorem isBlank_nil : IsBlank [] := rfl

theorem follow_above (links number : Nat) (rest : List Name) :
    tree.follow purpose links number (Path.above :: rest) =
      tree.follow purpose links (tree.above number) rest := by
  cases links <;> rfl

/-- What follows from an object that is looked up. -/
def beyond (tree : FileTree) (purpose : Purpose) (links number : Nat) (name : Name)
    (rest : List Name) : Except FileFault Destination :=
  match tree.object? number name with
  | some (.directory inner) => tree.follow purpose links inner rest
  | some (.link target) =>
    match links with
    | 0 => .error .tooManyLinks
    | less + 1 =>
      tree.follow purpose less (start target number) (Text.split Path.slash target.bytes ++ rest)
  | some (.file content) =>
    if rest.isEmpty then .ok (.file number name content) else .error .notDirectory
  | none => if purpose = .write ∧ rest.isEmpty then .ok (.vacant number name) else .error .notFound

theorem follow_lookedUp (links number : Nat) {name : Name} {rest : List Name}
    (h : IsLookedUp purpose name rest) : tree.follow purpose links number (name :: rest) =
      tree.beyond purpose links number name rest := by
  have hblank : ¬ (name.isEmpty || name == Path.here) = true := h.blank
  have habove : ¬ (name == Path.above) = true := by simpa using h.above
  have hlength : ¬ nameLimit < name.length := Nat.not_lt.mpr h.length
  cases links with
  | zero =>
    show followWith tree purpose _ number (name :: rest) = _
    rw [followWith, if_neg hblank, if_neg habove, if_neg h.open', if_neg hlength, beyond]
    cases tree.object? number name with
    | none => rfl
    | some object => cases object <;> rfl
  | succ links =>
    show followWith tree purpose _ number (name :: rest) = _
    rw [followWith, if_neg hblank, if_neg habove, if_neg h.open', if_neg hlength, beyond]
    cases tree.object? number name with
    | none => rfl
    | some object => cases object <;> rfl

theorem follow_not_lookedUp (links number : Nat) {name : Name} {rest : List Name}
    (hblank : ¬ IsBlank name) (habove : name ≠ Path.above) (h : ¬ IsLookedUp purpose name rest) :
    ∃ fault, tree.follow purpose links number (name :: rest) = .error fault := by
  have hblank' : ¬ (name.isEmpty || name == Path.here) = true := hblank
  have habove' : ¬ (name == Path.above) = true := by simpa using habove
  by_cases hopen : purpose = .write ∧ !rest.isEmpty ∧ rest.all List.isEmpty
  · refine ⟨.isDirectory, ?_⟩
    cases links <;>
    · show followWith tree purpose _ number (name :: rest) = _
      rw [followWith, if_neg hblank', if_neg habove', if_pos hopen]
  · have hlength : nameLimit < name.length :=
      Nat.lt_of_not_le fun hle => h ⟨hblank, habove, hopen, hle⟩
    refine ⟨.nameTooLong, ?_⟩
    cases links <;>
    · show followWith tree purpose _ number (name :: rest) = _
      rw [followWith, if_neg hblank', if_neg habove', if_neg hopen, if_pos hlength]

theorem Follows.follow_eq {links number : Nat} {names : List Name} {destination : Destination}
    (h : Follows tree purpose links number names destination) :
    tree.follow purpose links number names = .ok destination := by
  induction h with
  | arrived => exact follow_nil _ _
  | blank hblank _ ih => rw [follow_blank _ _ hblank, ih]
  | above _ ih => rw [follow_above, ih]
  | directory hname hobject _ ih =>
    rw [follow_lookedUp _ _ hname, beyond, hobject]
    exact ih
  | link hname hobject _ ih =>
    rw [follow_lookedUp _ _ hname, beyond, hobject]
    exact ih
  | file hname hobject =>
    rw [follow_lookedUp _ _ hname, beyond, hobject]
    rfl
  | vacant hpurpose hname hobject =>
    rw [follow_lookedUp _ _ hname, beyond, hobject]
    exact if_pos ⟨hpurpose, rfl⟩

theorem follows_cons {links number : Nat} {name : Name} {rest : List Name}
    {destination : Destination}
    (hrest : ∀ place, tree.follow purpose links place rest = .ok destination →
      Follows tree purpose links place rest destination)
    (hlink : ∀ less, links = less + 1 → ∀ place names,
      tree.follow purpose less place names = .ok destination →
      Follows tree purpose less place names destination)
    (h : tree.follow purpose links number (name :: rest) = .ok destination) :
    Follows tree purpose links number (name :: rest) destination := by
  by_cases hblank : IsBlank name
  · rw [follow_blank _ _ hblank] at h
    exact .blank hblank (hrest number h)
  by_cases habove : name = Path.above
  · subst habove
    rw [follow_above] at h
    exact .above (hrest _ h)
  by_cases hname : IsLookedUp purpose name rest
  · rw [follow_lookedUp _ _ hname, beyond] at h
    cases hobject : tree.object? number name with
    | none =>
      rw [hobject] at h
      by_cases hlast : purpose = .write ∧ rest.isEmpty
      · obtain ⟨hpurpose, hnil⟩ := hlast
        obtain rfl := List.isEmpty_iff.mp hnil
        cases (if_pos ⟨hpurpose, rfl⟩).symm.trans h
        exact .vacant hpurpose hname hobject
      · cases (if_neg hlast).symm.trans h
    | some object =>
      rw [hobject] at h
      cases object with
      | directory inner => exact .directory hname hobject (hrest inner h)
      | link target =>
        cases links with
        | zero => cases h
        | succ less => exact .link hname hobject (hlink less rfl _ _ h)
      | file content =>
        cases rest with
        | nil =>
          cases h
          exact .file hname hobject
        | cons _ _ => cases h
  · obtain ⟨fault, hfault⟩ := follow_not_lookedUp links number hblank habove hname
    rw [hfault] at h
    cases h

theorem follows_of_follow {links number : Nat} {names : List Name} {destination : Destination}
    (h : tree.follow purpose links number names = .ok destination) :
    Follows tree purpose links number names destination := by
  -- a name leads on to shorter names, and a link to names of any length with fewer links left
  induction links generalizing number names with
  | zero =>
    induction names generalizing number with
    | nil =>
      cases h
      exact .arrived
    | cons name rest ih =>
      exact follows_cons (fun _ => ih) (fun less hless => by cases hless) h
  | succ links ihLinks =>
    induction names generalizing number with
    | nil =>
      cases h
      exact .arrived
    | cons name rest ih =>
      refine follows_cons (fun _ => ih) (fun less hless place names hnames => ?_) h
      cases hless
      exact ihLinks hnames

theorem follow_eq_ok_iff {links number : Nat} {names : List Name} {destination : Destination} :
    tree.follow purpose links number names = .ok destination ↔
      Follows tree purpose links number names destination :=
  ⟨follows_of_follow, Follows.follow_eq⟩

/-! ## Parts of a path -/

theorem Follows.of_blanks {links number : Nat} {blanks : List Name}
    (h : ∀ name ∈ blanks, IsBlank name) :
    Follows tree purpose links number blanks (.directory number) := by
  induction blanks with
  | nil => exact .arrived
  | cons name blanks ih =>
    exact .blank (h name List.mem_cons_self) (ih fun other hother => h other (.tail name hother))

theorem IsLookedUp.find {name : Name} {rest : List Name} (h : IsLookedUp purpose name rest)
    (others : List Name) : IsLookedUp .find name others :=
  ⟨h.blank, h.above, fun hopen => Purpose.noConfusion hopen.1, h.length⟩

/-- A name that is looked up is that of an object. -/
theorem Follows.object?_isSome {links number : Nat} {name : Name} {rest : List Name}
    {destination : Destination} (h : Follows tree .find links number (name :: rest) destination)
    (hblank : ¬ IsBlank name) (habove : name ≠ Path.above) :
    name.length ≤ nameLimit ∧ (tree.object? number name).isSome = true := by
  cases h with
  | blank hname _ => exact absurd hname hblank
  | above _ => exact absurd rfl habove
  | directory hname hobject _ => exact ⟨hname.length, Option.isSome_of_eq_some hobject⟩
  | link hname hobject _ => exact ⟨hname.length, Option.isSome_of_eq_some hobject⟩
  | file hname hobject => exact ⟨hname.length, Option.isSome_of_eq_some hobject⟩
  | vacant hpurpose _ _ => cases hpurpose

/-- Names lead to a directory, and the names behind them on from there. -/
theorem Follows.append {links number inner : Nat} {names rest : List Name}
    {destination : Destination} (h : Follows tree .find links number names (.directory inner))
    (hrest : ∀ left, Follows tree .find left inner rest destination) :
    Follows tree .find links number (names ++ rest) destination := by
  generalize hend : Destination.directory inner = reached at h
  induction h with
  | arrived =>
    cases hend
    exact hrest _
  | blank hblank _ ih => exact .blank hblank (ih hend)
  | above _ ih => exact .above (ih hend)
  | directory hname hobject _ ih => exact .directory (hname.find _) hobject (ih hend)
  | link hname hobject _ ih =>
    rw [List.append_assoc] at ih
    exact .link (hname.find _) hobject (ih hend)
  | file _ _ => cases hend
  | vacant _ _ _ => cases hend

/-- On the way to where some names lead lies the directory to which the first of them lead. -/
theorem Follows.split {links number : Nat} (names : List Name) {rest : List Name}
    {destination : Destination} (h : Follows tree .find links number (names ++ rest) destination)
    (hrest : rest ≠ []) : ∃ left inner, Follows tree .find links number names (.directory inner) ∧
      Follows tree .find left inner rest destination := by
  generalize hwhole : names ++ rest = whole at h
  induction h generalizing names with
  | arrived =>
    have hnil := (List.append_eq_nil_iff.mp hwhole).2
    exact absurd hnil hrest
  | blank hblank h ih =>
    obtain ⟨rfl, rfl⟩ | ⟨names, rfl, rfl⟩ := List.append_eq_cons_iff.mp hwhole
    · exact ⟨_, _, .arrived, .blank hblank h⟩
    · obtain ⟨left, inner, hnames, hinner⟩ := ih names rfl
      exact ⟨left, inner, .blank hblank hnames, hinner⟩
  | above h ih =>
    obtain ⟨rfl, rfl⟩ | ⟨names, rfl, rfl⟩ := List.append_eq_cons_iff.mp hwhole
    · exact ⟨_, _, .arrived, .above h⟩
    · obtain ⟨left, inner, hnames, hinner⟩ := ih names rfl
      exact ⟨left, inner, .above hnames, hinner⟩
  | directory hname hobject h ih =>
    obtain ⟨rfl, rfl⟩ | ⟨names, rfl, rfl⟩ := List.append_eq_cons_iff.mp hwhole
    · exact ⟨_, _, .arrived, .directory hname hobject h⟩
    · obtain ⟨left, inner, hnames, hinner⟩ := ih names rfl
      exact ⟨left, inner, .directory (hname.find _) hobject hnames, hinner⟩
  | @link _ _ _ target _ _ hname hobject h ih =>
    obtain ⟨rfl, rfl⟩ | ⟨names, rfl, rfl⟩ := List.append_eq_cons_iff.mp hwhole
    · exact ⟨_, _, .arrived, .link hname hobject h⟩
    · obtain ⟨left, inner, hnames, hinner⟩ :=
        ih (Text.split Path.slash target.bytes ++ names) (List.append_assoc _ _ _)
      exact ⟨left, inner, .link (hname.find _) hobject hnames, hinner⟩
  | file hname hobject =>
    obtain ⟨rfl, rfl⟩ | ⟨names, rfl, hnil⟩ := List.append_eq_cons_iff.mp hwhole
    · exact ⟨0, _, .arrived, .file hname hobject⟩
    · exact absurd (List.append_eq_nil_iff.mp hnil.symm).2 hrest
  | vacant hpurpose hname hobject => cases hpurpose

end Function

end SourceMetrics.FileTree
