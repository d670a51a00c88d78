import Mathlib.Data.List.Forall2
import SourceMetrics.Proofs.Json.Metrics

/-! # Structures that are given in any layout

What a value must be like to give the fields of a structure, and what makes it fail to.

* `Gives`: an object gives each field once, in any order and among any other members, or leaves it
  out where it may; a list gives the fields in their order.
* `Gives.exists_fields?`: the fields that are read from such a value.
* `gives_of_perm`: the fields and any other members give a structure in every order.
* `Breaks`: a value repeats a field, leaves one out that is needed, or is a list of another length.
* `Breaks.exists_missing`: what is read from such a value, if anything is, lacks a field.
* `Breaks.bind_eq_none`, `Contains.bind_eq_none`: nothing is put together from what is read, if the
  field that is lacking is needed, or the value under a name is not read. -/

namespace SourceMetrics.Json

set_option autoImplicit false

/-! ## Fields that are given -/

/-- A field of a structure: its name and what it may be given as, `none` if it may be left out. -/
abbrev Field := String × (Option Json → Prop)

/-- A field that has to be given. -/
def required (given : Json → Prop) : Option Json → Prop
  | some value => given value
  | none => False

/-- A field that holds a value or none. It is given as `null` or left out where there is none. -/
def possible {α : Type} (given : α → Json → Prop) : Option α → Option Json → Prop
  | some held, some value => given held value
  | some _, none => False
  | none, some value => value = .null
  | none, none => True

/-- What the members of an object give under a name: the value of the one member that has it, or
nothing if no member does. -/
inductive GivesUnder (members : List (String × Json)) (name : String) : Option Json → Prop
  | once {front behind : List (String × Json)} {value : Json} :
      members = front ++ (name, value) :: behind → (∀ other ∈ front ++ behind, other.1 ≠ name) →
      GivesUnder members name (some value)
  | never : (∀ other ∈ members, other.1 ≠ name) → GivesUnder members name none

/-- What is found for each field is what it may be given as. -/
abbrev AllGiven : List Field → List (Option Json) → Prop :=
  List.Forall₂ fun field found => field.2 found

/-- A value gives the fields of a structure. The members of an object that have none of their names
may be any. -/
inductive Gives (fields : List Field) : Json → Prop
  | object {members : List (String × Json)} :
      (∀ field ∈ fields, ∃ found, GivesUnder members field.1 found ∧ field.2 found) →
      Gives fields (ofMembers members)
  | array {items : List Json} : List.Forall₂ (fun field item => field.2 (some item)) fields items →
      Gives fields (.array items)

/-- The members that give some of the fields of a structure. -/
def entries (names : List String) (found : List (Option Json)) : List (String × Json) :=
  (names.zip found).filterMap fun entry => entry.2.map (entry.1, ·)

section Given

variable {fields : List Field} {members : List (String × Json)} {name : String}

theorem required_iff {given : Json → Prop} {found : Option Json} :
    required given found ↔ ∃ value, found = some value ∧ given value := by
  cases found <;> simp [required]

/-- What is given under a name, by the members of that name. -/
theorem givesUnder_iff {held : Option Json} : GivesUnder members name held ↔
    members.filter (fun member => member.1 == name) = (held.map (name, ·)).toList := by
  constructor
  · intro h
    cases h with
    | @once front behind value hsplit hothers =>
      obtain ⟨hfront, hbehind⟩ := List.forall_mem_append.mp hothers
      rw [hsplit, List.filter_append, List.filter_eq_nil_iff.mpr (by simpa using hfront),
        List.filter_cons_of_pos (by simp), List.filter_eq_nil_iff.mpr (by simpa using hbehind)]
      rfl
    | never hothers => exact List.filter_eq_nil_iff.mpr (by simpa using hothers)
  · intro h
    cases held with
    | none => exact .never (by simpa using List.filter_eq_nil_iff.mp h)
    | some value =>
      obtain ⟨front, behind, rfl, hfront, -, hbehind⟩ := List.filter_eq_cons_iff.mp h
      refine .once rfl (List.forall_mem_append.mpr ⟨by simpa using hfront, ?_⟩)
      simpa using List.filter_eq_nil_iff.mp hbehind

theorem member?_of_givesUnder {found : Option Json} (h : GivesUnder members name found) :
    member? (members.map fun entry => (some entry.1, entry.2)) name = some found := by
  have hname : (fun entry : Option String × Json => entry.1 == some name) ∘
      (fun entry : String × Json => (some entry.1, entry.2)) =
        fun entry : String × Json => entry.1 == name := by
    funext entry
    simp
  rw [member?, List.filter_map, hname, givesUnder_iff.mp h]
  cases found <;> rfl

theorem exists_mapM_member?
    (h : ∀ field ∈ fields, ∃ found, GivesUnder members field.1 found ∧ field.2 found) :
    ∃ found, (fields.map (·.1)).mapM
        (member? (members.map fun entry => (some entry.1, entry.2))) = some found ∧
      AllGiven fields found := by
  induction fields with
  | nil => exact ⟨[], rfl, .nil⟩
  | cons field fields ih =>
    obtain ⟨⟨first, hunder, hfirst⟩, hfields⟩ := List.forall_mem_cons.mp h
    obtain ⟨found, hfound, hholds⟩ := ih hfields
    refine ⟨first :: found, ?_, .cons hfirst hholds⟩
    rw [List.map_cons, List.mapM_cons, member?_of_givesUnder hunder, hfound]
    rfl

/-- The fields that are read from a value that gives them. -/
theorem Gives.exists_fields? {value : Json} (h : Gives fields value) :
    ∃ found, value.fields? (fields.map (·.1)) = some found ∧ AllGiven fields found := by
  cases h with
  | @object members hfields =>
    obtain ⟨found, hfound, hholds⟩ := exists_mapM_member? hfields
    refine ⟨found, ?_, hholds⟩
    rw [ofMembers, fields?, if_pos (by simp)]
    exact hfound
  | @array items hitems =>
    refine ⟨items.map some, ?_, List.forall₂_map_right_iff.mpr hitems⟩
    rw [fields?, if_pos (by rw [List.length_map, hitems.length_eq])]

theorem Gives.ne_null {value : Json} (h : Gives fields value) : value ≠ .null := by
  cases h <;> exact nofun

/-- A field that holds a value or none is read as such. -/
theorem optional?_of_possible {α : Type} {read? : Json → Option α} {given : α → Json → Prop}
    {held : Option α} {found : Option Json} (h : possible given held found)
    (hread : ∀ a ∈ held, ∀ value, given a value → read? value = some a ∧ value ≠ .null) :
    optional? read? found = some held := by
  cases held with
  | none =>
    cases found with
    | none => rfl
    | some value =>
      obtain rfl : value = .null := h
      rfl
  | some a =>
    cases found with
    | none => cases h
    | some value =>
      obtain ⟨hvalue, hnull⟩ := hread a rfl value h
      rw [optional?, hvalue]
      · rfl
      · exact hnull

/-! ## Members in any order -/

section Order

variable {found : List (Option Json)} {others : List (String × Json)}

theorem fst_mem_of_mem_entries {names : List String} {entry : String × Json}
    (h : entry ∈ entries names found) : entry.1 ∈ names := by
  obtain ⟨⟨name, held⟩, hmem, hentry⟩ := List.mem_filterMap.mp h
  obtain ⟨value, -, rfl⟩ := Option.map_eq_some_iff.mp hentry
  exact (List.of_mem_zip hmem).1

theorem filter_entries (hnames : (fields.map (·.1)).Nodup)
    (hfound : AllGiven fields found) {field : Field} (hfield : field ∈ fields) :
    ∃ held, (entries (fields.map (·.1)) found).filter (fun member => member.1 == field.1) =
      (held.map (field.1, ·)).toList ∧ field.2 held := by
  induction hfound with
  | nil => cases hfield
  | @cons first held fields found hfirst _ ih =>
    obtain ⟨hhead, hnames⟩ : first.1 ∉ fields.map (·.1) ∧ (fields.map (·.1)).Nodup :=
      List.nodup_cons.mp hnames
    have hcons : entries ((first :: fields).map (·.1)) (held :: found) =
        (held.map (first.1, ·)).toList ++ entries (fields.map (·.1)) found := by
      cases held <;> rfl
    rw [hcons, List.filter_append]
    obtain rfl | hfield := List.mem_cons.mp hfield
    · have hrest :
          (entries (fields.map (·.1)) found).filter (fun member => member.1 == field.1) = [] :=
        List.filter_eq_nil_iff.mpr fun entry hentry hsame =>
          hhead (eq_of_beq hsame ▸ fst_mem_of_mem_entries hentry)
      refine ⟨held, ?_, hfirst⟩
      rw [hrest, List.append_nil]
      cases held <;> simp
    · obtain ⟨other, hother, hholds⟩ := ih hnames hfield
      have hne : first.1 ≠ field.1 := fun hsame => hhead (hsame ▸ List.mem_map_of_mem hfield)
      refine ⟨other, ?_, hholds⟩
      rw [hother]
      cases held <;> simp [hne]

/-- An object gives the fields of a structure if its members are the fields and any others, in any
order. -/
theorem gives_of_perm (hnames : (fields.map (·.1)).Nodup) (hfound : AllGiven fields found)
    (hothers : ∀ other ∈ others, other.1 ∉ fields.map (·.1))
    (hmembers : members.Perm (entries (fields.map (·.1)) found ++ others)) :
    Gives fields (ofMembers members) := by
  refine .object fun field hfield => ?_
  obtain ⟨held, hheld, hholds⟩ := filter_entries hnames hfound hfield
  have hnone : others.filter (fun member => member.1 == field.1) = [] :=
    List.filter_eq_nil_iff.mpr fun other hother hsame =>
      hothers other hother (eq_of_beq hsame ▸ List.mem_map_of_mem hfield)
  have hperm := hmembers.filter fun member => member.1 == field.1
  rw [List.filter_append, hheld, hnone, List.append_nil] at hperm
  refine ⟨held, givesUnder_iff.mpr ?_, hholds⟩
  cases held with
  | none => exact List.perm_nil.mp hperm
  | some value => exact List.perm_singleton.mp hperm

end Order

end Given

/-! ## Fields that are not given -/

/-- A value gives some value under a name, beside whatever else it gives. -/
inductive Contains (names : List String) (name : String) (inner : Json) : Json → Prop
  | member {members : List (Option String × Json)} : (some name, inner) ∈ members →
      Contains names name inner (.object members)
  | item {items : List Json} : (name, inner) ∈ names.zip items →
      Contains names name inner (.array items)

/-- A value does not give the fields of a structure: it is an object that has two members with the
name of one of them, or none with the name of one that is needed; or a list of another length. -/
inductive Breaks (names needed : List String) : Json → Prop
  | repeated {front middle behind : List (Option String × Json)} {name : String}
      {first second : Json} : name ∈ names →
      Breaks names needed (.object (front ++ (some name, first) :: middle ++
        (some name, second) :: behind))
  | missing {members : List (Option String × Json)} {name : String} : name ∈ needed →
      (∀ member ∈ members, member.1 ≠ some name) → Breaks names needed (.object members)
  | length {items : List Json} : items.length ≠ names.length → Breaks names needed (.array items)

section Broken

variable {names needed : List String} {value : Json} {found : List (Option Json)}

/-- Each field is found under its name. -/
theorem mem_zip_of_mapM {members : List (Option String × Json)}
    (h : names.mapM (member? members) = some found) {name : String} (hname : name ∈ names) :
    ∃ held, member? members name = some held ∧ (name, held) ∈ names.zip found := by
  induction names generalizing found with
  | nil => cases hname
  | cons first names ih =>
    rw [List.mapM_cons] at h
    obtain ⟨held, hheld, h⟩ := Option.bind_eq_some_iff.mp h
    obtain ⟨rest, hrest, h⟩ := Option.bind_eq_some_iff.mp h
    cases h
    obtain rfl | hname := List.mem_cons.mp hname
    · exact ⟨held, hheld, List.mem_cons_self⟩
    · obtain ⟨held, hheld, hmem⟩ := ih hrest hname
      exact ⟨held, hheld, List.mem_cons_of_mem _ hmem⟩

theorem fields?_object {members : List (Option String × Json)}
    (h : (Json.object members).fields? names = some found) :
    names.mapM (member? members) = some found := by
  rw [fields?] at h
  split at h
  · exact h
  · cases h

theorem fields?_array {items : List Json} (h : (Json.array items).fields? names = some found) :
    items.length = names.length ∧ found = items.map some := by
  rw [fields?] at h
  split at h
  · rename_i hlength
    cases h
    exact ⟨hlength, rfl⟩
  · cases h

theorem member?_eq_none_of_repeated {front middle behind : List (Option String × Json)}
    {name : String} {first second : Json} :
    member? (front ++ (some name, first) :: middle ++ (some name, second) :: behind) name =
      none := by
  rw [member?]
  simp only [List.filter_append, List.filter_cons, beq_self_eq_true, if_true]
  obtain ⟨before, hbefore⟩ : ∃ row, front.filter (fun entry => entry.1 == some name) = row :=
    ⟨_, rfl⟩
  obtain ⟨between, hbetween⟩ : ∃ row, middle.filter (fun entry => entry.1 == some name) = row :=
    ⟨_, rfl⟩
  rw [hbefore, hbetween]
  cases before with
  | nil => cases between <;> rfl
  | cons _ before => cases before <;> rfl

theorem member?_eq_none_of_missing {members : List (Option String × Json)} {name : String}
    (h : ∀ member ∈ members, member.1 ≠ some name) : member? members name = some none := by
  have hnone : members.filter (fun entry => entry.1 == some name) = [] :=
    List.filter_eq_nil_iff.mpr fun member hmember => by simp [h member hmember]
  rw [member?, hnone]

/-- What is read from a value that does not give the fields lacks one that is needed. -/
theorem Breaks.exists_missing (h : Breaks names needed value) (hneeded : needed ⊆ names)
    (hfields : value.fields? names = some found) :
    ∃ name ∈ needed, (name, none) ∈ names.zip found := by
  cases h with
  | repeated hname =>
    obtain ⟨held, hheld, -⟩ := mem_zip_of_mapM (fields?_object hfields) hname
    rw [member?_eq_none_of_repeated] at hheld
    cases hheld
  | @missing members name hname hmembers =>
    obtain ⟨held, hheld, hmem⟩ := mem_zip_of_mapM (fields?_object hfields) (hneeded hname)
    rw [member?_eq_none_of_missing hmembers] at hheld
    cases hheld
    exact ⟨name, hname, hmem⟩
  | length hlength => exact absurd (fields?_array hfields).1 hlength

/-- What a value gives under the name of a field is read as that field. -/
theorem Contains.mem_zip {name : String} {inner : Json} (h : Contains names name inner value)
    (hname : name ∈ names) (hfields : value.fields? names = some found) :
    (name, some inner) ∈ names.zip found := by
  cases h with
  | @member members hmem =>
    obtain ⟨held, hheld, hzip⟩ := mem_zip_of_mapM (fields?_object hfields) hname
    have hone : (some name, inner) ∈ members.filter fun entry => entry.1 == some name :=
      List.mem_filter.mpr ⟨hmem, beq_self_eq_true _⟩
    rw [member?] at hheld
    split at hheld
    · rename_i hnone
      rw [hnone] at hone
      cases hone
    · rename_i entry hsingle
      rw [hsingle] at hone
      obtain rfl := List.mem_singleton.mp hone
      cases hheld
      exact hzip
    · cases hheld
  | @item items hmem =>
    obtain ⟨-, rfl⟩ := fields?_array hfields
    rw [List.zip_map_right]
    exact List.mem_map.mpr ⟨(name, inner), hmem, rfl⟩

theorem Breaks.ne_null (h : Breaks names needed value) : value ≠ .null := by
  cases h <;> exact nofun

/-- Nothing is put together from the fields of a value if it does not give them, and nothing is put
together where one that is needed is not given. -/
theorem Breaks.bind_eq_none {α : Type} {build? : List (Option Json) → Option α}
    (h : Breaks names needed value) (hneeded : needed ⊆ names)
    (hbuild : ∀ found, ∀ name ∈ needed, (name, none) ∈ names.zip found → build? found = none) :
    (value.fields? names).bind build? = none := by
  cases hfields : value.fields? names with
  | none => rfl
  | some found =>
    obtain ⟨name, hname, hmissing⟩ := h.exists_missing hneeded hfields
    exact hbuild found name hname hmissing

/-- The same for a value under the name of a field that is not read. -/
theorem Contains.bind_eq_none {α : Type} {build? : List (Option Json) → Option α} {name : String}
    {inner : Json} (h : Contains names name inner value) (hname : name ∈ names)
    (hbuild : ∀ found, (name, some inner) ∈ names.zip found → build? found = none) :
    (value.fields? names).bind build? = none := by
  cases hfields : value.fields? names with
  | none => rfl
  | some found => exact hbuild found (h.mem_zip hname hfields)

end Broken

end SourceMetrics.Json
