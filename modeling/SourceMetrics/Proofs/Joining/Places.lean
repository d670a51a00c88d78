import SourceMetrics.Proofs.Phrase.Places
import SourceMetrics.Proofs.Total

/-! # Places of joined texts

When two texts are joined by a line feed, the places of both are places of the whole, and the one at the
line feed is new. A property that a place keeps when other lines are put in front of the text and behind
it holds in the whole at least as often as in the two parts.

* `countPlaces_append`: the places of a text, part by part.
* `IsLasting.countPlaces_add_le`: a property that other lines cannot take away.
* `IsLocal.countPlaces_joined`: a property that other lines cannot bring about either.
* `isSuperadditive_of_isLasting`: phrases that are counted at such places. -/

namespace SourceMetrics

set_option autoImplicit false

namespace Text

/-- A property that a place does not lose by other lines in front of the text or behind it. -/
structure IsLasting (holds : List Char → List Char → Prop) : Prop where
  inFront : ∀ {front rest} (lines : List Char), holds front rest → holds (lines ++ '\n' :: front) rest
  behind : ∀ {front rest} (lines : List Char), holds front rest → holds front (rest ++ '\n' :: lines)

/-- A property that the places of a text and of the lines behind it have in the whole if they have it in
their own part, and that the place between them does not have. -/
structure IsLocal (holds : List Char → List Char → Prop) (text lines : List Char) : Prop where
  inFront : ∀ {front rest}, holds (text ++ '\n' :: front) rest ↔ holds front rest
  between : ¬ holds text ('\n' :: lines)
  behind : ∀ {front rest}, text = front ++ rest → rest ≠ [] →
    (holds front (rest ++ '\n' :: lines) ↔ holds front rest)

variable {text lines : List Char} {holds holds' : List Char → List Char → Prop}

theorem countPlaces_append (front rest : List Char) (holds : List Char → List Char → Prop) :
    countPlaces (front ++ rest) holds =
      countPlaces front (fun passed behind => holds passed (behind ++ rest)) +
        countPlaces rest fun passed behind => holds (front ++ passed) behind := by
  induction front generalizing holds with
  | nil =>
    rw [countPlaces_nil, Nat.zero_add]
    rfl
  | cons c front ih =>
    rw [List.cons_append, countPlaces_cons, countPlaces_cons, ih, Nat.add_right_comm]
    rfl

theorem countPlaces_congr_of_parts
    (h : ∀ front rest, text = front ++ rest → rest ≠ [] → (holds front rest ↔ holds' front rest)) :
    countPlaces text holds = countPlaces text holds' := by
  classical
  rw [countPlaces, countPlaces]
  congr 1
  apply Finset.filter_congr
  intro i hi
  have hrest : text.drop i ≠ [] := by
    rw [ne_eq, List.drop_eq_nil_iff]
    exact Nat.not_le_of_lt (Finset.mem_range.mp hi)
  exact h _ _ (List.take_append_drop i text).symm hrest

/-- The places of joined texts are those of the parts and the one between them. -/
theorem countPlaces_joined (text lines : List Char) (holds : List Char → List Char → Prop) :
    countPlaces (text ++ '\n' :: lines) holds =
      countPlaces text (fun front rest => holds front (rest ++ '\n' :: lines)) +
        (countPlaces ['\n'] (fun front rest => holds (text ++ front) (rest ++ lines)) +
          countPlaces lines fun front rest => holds (text ++ '\n' :: front) rest) := by
  rw [countPlaces_append, ← List.singleton_append, countPlaces_append]
  rfl

theorem IsLasting.countPlaces_add_le (h : IsLasting holds) (text lines : List Char) :
    countPlaces text holds + countPlaces lines holds ≤ countPlaces (text ++ '\n' :: lines) holds := by
  have hfirst : countPlaces text holds ≤
      countPlaces text fun front rest => holds front (rest ++ '\n' :: lines) :=
    countPlaces_le fun _ _ => h.behind lines
  have hsecond : countPlaces lines holds ≤
      countPlaces lines fun front rest => holds (text ++ '\n' :: front) rest :=
    countPlaces_le fun _ _ => h.inFront text
  rw [countPlaces_joined]
  omega

theorem IsLocal.countPlaces_joined (h : IsLocal holds text lines) :
    countPlaces (text ++ '\n' :: lines) holds = countPlaces text holds + countPlaces lines holds := by
  have hfirst : (countPlaces text fun front rest => holds front (rest ++ '\n' :: lines)) =
      countPlaces text holds :=
    countPlaces_congr_of_parts fun _ _ => h.behind
  have hbetween : (countPlaces ['\n'] fun front rest => holds (text ++ front) (rest ++ lines)) = 0 := by
    rw [countPlaces_cons, countPlaces_nil, List.append_nil, List.singleton_append, if_neg h.between]
  have hsecond : (countPlaces lines fun front rest => holds (text ++ '\n' :: front) rest) =
      countPlaces lines holds :=
    countPlaces_congr fun _ _ => h.inFront
  rw [Text.countPlaces_joined, hfirst, hbetween, hsecond, Nat.zero_add]

/-! ## What stands in front of a place -/

theorem getLast?_line (lines front : List Char) :
    (lines ++ '\n' :: front).getLast? = front.getLast?.or (some '\n') := by
  rw [List.getLast?_append, List.getLast?_cons]
  cases front.getLast? with
  | none => rfl
  | some c => rfl

theorem forall_getLast?_line {front : List Char} {holds : Char → Prop} (hfeed : holds '\n') :
    (∀ c ∈ (lines ++ '\n' :: front).getLast?, holds c) ↔ ∀ c ∈ front.getLast?, holds c := by
  rw [getLast?_line]
  cases front.getLast? with
  | none => simpa using hfeed
  | some c => rfl

theorem exists_getLast?_line {front : List Char} {holds : Char → Prop} (hfeed : ¬ holds '\n') :
    (∃ c ∈ (lines ++ '\n' :: front).getLast?, holds c) ↔ ∃ c ∈ front.getLast?, holds c := by
  rw [getLast?_line]
  cases front.getLast? with
  | none => simpa using hfeed
  | some c => rfl

end Text

/-! ## Counts of phrases -/

namespace Phrase

/-- Joined texts hold the phrase at least as often as both of them by themselves. -/
def IsSuperadditive (phrase : Phrase) : Prop :=
  ∀ text lines, phrase.count text + phrase.count lines ≤ phrase.count (text ++ '\n' :: lines)

theorem isSuperadditive_of_isLasting {phrase : Phrase} {holds : List Char → List Char → Prop}
    (hcount : ∀ text, phrase.count text = Text.countPlaces text holds) (h : Text.IsLasting holds) :
    phrase.IsSuperadditive := by
  intro text lines
  rw [hcount, hcount, hcount]
  exact h.countPlaces_add_le text lines

theorem total_count_add_le {phrases : List Phrase} (h : ∀ phrase ∈ phrases, phrase.IsSuperadditive)
    (text lines : List Char) :
    total (fun phrase => phrase.count text) phrases + total (fun phrase => phrase.count lines) phrases ≤
      total (fun phrase => phrase.count (text ++ '\n' :: lines)) phrases := by
  rw [← total_add]
  exact total_le fun phrase hphrase => h phrase hphrase text lines

end Phrase

end SourceMetrics
