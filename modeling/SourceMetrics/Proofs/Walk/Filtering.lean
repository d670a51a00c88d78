import SourceMetrics.Proofs.Pattern.Union
import SourceMetrics.Proofs.Walk.Refinement

/-! # Walks with more patterns

More excluded patterns take items away from a walk, and more included ones add items to it. What is
left stands in its old order.

* `Filter.IsWithin`: a filter that lets less through than another one.
* `Preorder.sublist`: what such a filter lets through of a tree. The induction is on the reading with
  the wider filter; where the narrower one passes over a directory, all that is below it is gone at
  once, faults among it.
* `outcomes_sublist`: the walks under two lists of patterns, one longer than the other. -/

namespace SourceMetrics

set_option autoImplicit false

/-! ## Narrower filters -/

/-- The first filter takes up nothing that the second one leaves out, and passes over each directory
that the second one passes over. -/
structure Filter.IsWithin (narrow wide : Filter) : Prop where
  wants : ∀ path, narrow.wants path = true → wide.wants path = true
  prunes : ∀ path, wide.prunes path = true → narrow.prunes path = true

namespace PatternList

variable {sources more : List String} {list longer : PatternList}

theorem isWithin_of_excluded (h : compile sources = .ok list) (h' : compile more = .ok longer)
    (hsubset : sources ⊆ more) (included : PatternList) :
    Filter.IsWithin ⟨included, longer⟩ ⟨included, list⟩ where
  wants path := by
    simp only [Filter.wants, Bool.and_eq_true, Bool.not_eq_true']
    rintro ⟨hincluded, hexcluded⟩
    refine ⟨hincluded, Bool.eq_false_iff.mpr fun hmatches => ?_⟩
    rw [matchesFile, accepts_of_subset h h' hsubset hmatches] at hexcluded
    cases hexcluded
  prunes _ := accepts_of_subset h h' hsubset

theorem isWithin_of_included (h : compile sources = .ok list) (h' : compile more = .ok longer)
    (hsubset : sources ⊆ more) (excluded : PatternList) :
    Filter.IsWithin ⟨list, excluded⟩ ⟨longer, excluded⟩ where
  wants path := by
    simp only [Filter.wants, Bool.and_eq_true]
    exact And.imp_left (accepts_of_subset h h' hsubset)
  prunes _ := id

end PatternList

/-- The item of an outcome that has one. -/
def Outcome.item? : Outcome → Option Item
  | .item found => some found
  | _ => none

namespace Walk

variable {files : FileSystem Id} {narrow wide : Filter} {root : Path}

/-! ## Two readings of one tree -/

/-- A narrower filter finds nothing that the wider one does not find, and all of it in its order. -/
theorem Preorder.sublist (within : narrow.IsWithin wide) {entries : List Entry}
    {items fewer : List Item} (h : Preorder files wide.wants wide.prunes entries items)
    (h' : Preorder files narrow.wants narrow.prunes entries fewer) : fewer.Sublist items := by
  induction h generalizing fewer with
  | nil =>
    cases h'
    exact .slnil
  | wanted _ _ ih =>
    cases h' with
    | wanted _ rest => exact (ih rest).cons_cons _
    | unwanted _ rest => exact (ih rest).cons _
  | unwanted hunwanted _ ih =>
    cases h' with
    | wanted hwanted _ =>
      rw [within.wants _ hwanted] at hunwanted
      cases hunwanted
    | unwanted _ rest => exact ih rest
  | pruned hpruned _ ih =>
    have hboth := within.prunes _ hpruned
    cases h' with
    | pruned _ rest => exact ih rest
    | unlisted hopen _ _ =>
      rw [hopen] at hboth
      cases hboth
    | listed hopen _ _ _ =>
      rw [hopen] at hboth
      cases hboth
  | unlisted _ hlist _ ih =>
    cases h' with
    | pruned _ rest => exact (ih rest).cons _
    | unlisted _ hlist' rest =>
      cases hlist.symm.trans hlist'
      exact (ih rest).cons_cons _
    | listed _ hlist' _ _ => cases hlist.symm.trans hlist'
  | listed _ hlist _ _ ihInner ih =>
    cases h' with
    | pruned _ rest => exact (ih rest).trans (List.sublist_append_right _ _)
    | unlisted _ hlist' _ => cases hlist.symm.trans hlist'
    | listed _ hlist' inner rest =>
      cases hlist.symm.trans hlist'
      exact (ihInner inner).append (ih rest)
  | other _ ih =>
    cases h' with
    | other rest => exact ih rest

theorem OfRoot.sublist (within : narrow.IsWithin wide) {items fewer : List Item}
    (h : OfRoot files wide.wants wide.prunes root items)
    (h' : OfRoot files narrow.wants narrow.prunes root fewer) : fewer.Sublist items := by
  cases h with
  | file hfile =>
    cases h' with
    | file _ => exact .refl _
    | unlisted hno _ => cases hfile.symm.trans hno
    | listed hno _ _ => cases hfile.symm.trans hno
  | unlisted hno hlist =>
    cases h' with
    | file hfile => cases hno.symm.trans hfile
    | unlisted _ hlist' =>
      cases hlist.symm.trans hlist'
      exact .refl _
    | listed _ hlist' _ => cases hlist.symm.trans hlist'
  | listed hno hlist h =>
    cases h' with
    | file hfile => cases hno.symm.trans hfile
    | unlisted _ hlist' => cases hlist.symm.trans hlist'
    | listed _ hlist' h' =>
      cases hlist.symm.trans hlist'
      exact h.sublist within h'

/-- A tree that is finite where a filter looks is finite where a narrower one does. -/
theorem acc_of_within (within : narrow.IsWithin wide) (h : Acc (Descends files wide.prunes) root) :
    Acc (Descends files narrow.prunes) root := by
  refine Subrelation.accessible ?_ h
  rintro child directory ⟨entries, hlist, hmem, hopen⟩
  refine ⟨entries, hlist, hmem, Bool.eq_false_iff.mpr fun hpruned => ?_⟩
  rw [within.prunes child hpruned] at hopen
  cases hopen

/-! ## Two walks -/

/-- Given enough fuel for each, calls of `next` deliver the items one by one, and find from then on
that the walk is finished. -/
def Delivers (files : FileSystem Id) (filter : Filter) (root : Path) (items : List Item) : Prop :=
  ∃ bound, ∀ fuel, bound ≤ fuel → ∀ calls, outcomes files filter fuel calls (.ofRoot root) =
    (items.map Outcome.item ++ List.replicate calls Outcome.finished).take calls

theorem filterMap_item? {items : List Item} {calls : Nat} (h : items.length ≤ calls) :
    ((items.map Outcome.item ++ List.replicate calls Outcome.finished).take calls).filterMap
      Outcome.item? = items := by
  have hitems : (items.map Outcome.item).filterMap Outcome.item? = items := by
    rw [List.filterMap_map]
    exact List.filterMap_some
  have hfinished (count : Nat) :
      (List.replicate count Outcome.finished).filterMap Outcome.item? = [] := by
    simp [List.filterMap_replicate, Outcome.item?]
  rw [List.take_append, List.take_of_length_le (by simpa using h), List.filterMap_append, hitems,
    List.take_replicate, hfinished, List.append_nil]

/-- No walk delivers different items at different times. -/
theorem Delivers.unique {filter : Filter} {items other : List Item}
    (h : Delivers files filter root items) (h' : Delivers files filter root other) :
    other = items := by
  obtain ⟨bound, h⟩ := h
  obtain ⟨bound', h'⟩ := h'
  have hsame := (h' (max bound bound') (Nat.le_max_right ..) (max items.length other.length)).symm.trans
    (h (max bound bound') (Nat.le_max_left ..) (max items.length other.length))
  have hfound := congrArg (List.filterMap Outcome.item?) hsame
  rwa [filterMap_item? (Nat.le_max_right ..), filterMap_item? (Nat.le_max_left ..)] at hfound

theorem OfRoot.delivers {filter : Filter} {items : List Item}
    (h : OfRoot files filter.wants filter.prunes root items) : Delivers files filter root items :=
  (ofRoot_yields h).outcomes_eq

theorem exists_delivers (filter : Filter)
    (finite : files.isFile root = false → Acc (Descends files filter.prunes) root) :
    ∃ items, OfRoot files filter.wants filter.prunes root items ∧ Delivers files filter root items := by
  obtain ⟨items, h⟩ : ∃ items, OfRoot files filter.wants filter.prunes root items :=
    exists_ofRoot root finite
  exact ⟨items, h, h.delivers⟩

/-- **More excluded patterns leave a sub-sequence of the items of a walk, and more included patterns
give a walk of which the old one is a sub-sequence.** Patterns may be added at any place of a list,
and a fault is an item like others. -/
theorem outcomes_sublist (files : FileSystem Id) (root : Path)
    {included moreIncluded excluded moreExcluded : List String}
    {wanted moreWanted passed morePassed : PatternList}
    (hwanted : PatternList.compile included = .ok wanted)
    (hmoreWanted : PatternList.compile moreIncluded = .ok moreWanted)
    (hpassed : PatternList.compile excluded = .ok passed)
    (hmorePassed : PatternList.compile moreExcluded = .ok morePassed)
    (hincluded : included ⊆ moreIncluded) (hexcluded : excluded ⊆ moreExcluded)
    (finite : files.isFile root = false → Acc (Descends files passed.matchesDirectory) root) :
    ∃ items fewer more, Delivers files ⟨wanted, passed⟩ root items ∧
      Delivers files ⟨wanted, morePassed⟩ root fewer ∧ fewer.Sublist items ∧
      Delivers files ⟨moreWanted, passed⟩ root more ∧ items.Sublist more := by
  have hnarrow := PatternList.isWithin_of_excluded hpassed hmorePassed hexcluded wanted
  have hwide := PatternList.isWithin_of_included hwanted hmoreWanted hincluded passed
  obtain ⟨items, hitems, hdelivers⟩ := exists_delivers ⟨wanted, passed⟩ finite
  obtain ⟨fewer, hfewer, hdeliversFewer⟩ := exists_delivers ⟨wanted, morePassed⟩ fun hno =>
    acc_of_within hnarrow (finite hno)
  obtain ⟨more, hmore, hdeliversMore⟩ := exists_delivers ⟨moreWanted, passed⟩ finite
  exact ⟨items, fewer, more, hdelivers, hdeliversFewer, hitems.sublist hnarrow hfewer,
    hdeliversMore, hmore.sublist hwide hitems⟩

/-- A directory that cannot be listed is passed over, and its fault is gone; a file that comes to be
wanted is found behind it. -/
theorem outcomes_sublist_faultyTree :
    ∃ wanted moreWanted passed morePassed,
      (PatternList.compile ["a"] = .ok wanted ∧ PatternList.compile ["b", "a"] = .ok moreWanted ∧
        PatternList.compile [] = .ok passed ∧ PatternList.compile ["/d/"] = .ok morePassed ∧
        ["a"] ⊆ ["b", "a"] ∧ [] ⊆ ["/d/"] ∧
        Acc (Descends faultyTree passed.matchesDirectory) ⟨[0x72]⟩) ∧
      ∃ items fewer more,
        items = [.error (.file .isDirectory), .error (.file .notDirectory)] ∧
        fewer = [.error (.file .isDirectory)] ∧
        more = items ++ [.ok ⟨Path.toText ⟨[0x72, 0x2F, 0x62]⟩, "x"⟩] ∧
        Delivers faultyTree ⟨wanted, passed⟩ ⟨[0x72]⟩ items ∧
        Delivers faultyTree ⟨wanted, morePassed⟩ ⟨[0x72]⟩ fewer ∧ fewer.Sublist items ∧
        Delivers faultyTree ⟨moreWanted, passed⟩ ⟨[0x72]⟩ more ∧ items.Sublist more := by
  obtain ⟨wanted, moreWanted, passed, morePassed, ⟨hwanted, hmoreWanted, hpassed, hmorePassed⟩,
      ⟨hopen, ha, hb⟩, ⟨hpruned, hfewerA, hfewerB⟩, hmoreA, hmoreB⟩ :
      ∃ wanted moreWanted passed morePassed,
        (PatternList.compile ["a"] = .ok wanted ∧ PatternList.compile ["b", "a"] = .ok moreWanted ∧
          PatternList.compile [] = .ok passed ∧ PatternList.compile ["/d/"] = .ok morePassed) ∧
        (passed.matchesDirectory ⟨[0x72, 0x2F, 0x64]⟩ = false ∧
          Filter.wants ⟨wanted, passed⟩ ⟨[0x72, 0x2F, 0x61]⟩ = true ∧
          Filter.wants ⟨wanted, passed⟩ ⟨[0x72, 0x2F, 0x62]⟩ = false) ∧
        (morePassed.matchesDirectory ⟨[0x72, 0x2F, 0x64]⟩ = true ∧
          Filter.wants ⟨wanted, morePassed⟩ ⟨[0x72, 0x2F, 0x61]⟩ = true ∧
          Filter.wants ⟨wanted, morePassed⟩ ⟨[0x72, 0x2F, 0x62]⟩ = false) ∧
        Filter.wants ⟨moreWanted, passed⟩ ⟨[0x72, 0x2F, 0x61]⟩ = true ∧
        Filter.wants ⟨moreWanted, passed⟩ ⟨[0x72, 0x2F, 0x62]⟩ = true :=
    ⟨_, _, _, _, ⟨rfl, rfl, rfl, rfl⟩, by decide, by decide, by decide, by decide⟩
  have finite := acc_faultyTree passed.matchesDirectory
  have hincluded : ["a"] ⊆ ["b", "a"] := by simp
  have hexcluded : [] ⊆ ["/d/"] := by simp
  obtain ⟨items, fewer, more, hitems, hfewer, hleft, hmore, hadded⟩ :=
    outcomes_sublist faultyTree ⟨[0x72]⟩ hwanted hmoreWanted hpassed hmorePassed hincluded hexcluded
      fun _ => finite
  have hread := hitems.unique (OfRoot.delivers (.listed rfl rfl (.wanted ha (.unlisted hopen rfl
    (.unwanted hb .nil)))))
  have hreadFewer := hfewer.unique (OfRoot.delivers (.listed rfl rfl (.wanted hfewerA
    (.pruned hpruned (.unwanted hfewerB .nil)))))
  have hreadMore := hmore.unique (OfRoot.delivers (.listed rfl rfl (.wanted hmoreA (.unlisted hopen rfl
    (.wanted hmoreB .nil)))))
  subst hread hreadFewer hreadMore
  exact ⟨wanted, moreWanted, passed, morePassed,
    ⟨hwanted, hmoreWanted, hpassed, hmorePassed, hincluded, hexcluded, finite⟩, _, _, _, rfl, rfl,
    rfl, hitems, hfewer, hleft, hmore, hadded⟩

end Walk

end SourceMetrics
