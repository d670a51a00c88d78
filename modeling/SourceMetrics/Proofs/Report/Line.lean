import SourceMetrics.Decimal.Places
import SourceMetrics.Proofs.Text.Split
import SourceMetrics.Report

/-! # The lines of a report

A report is read by its lines: each line that is written is one line of the text or, where it holds line
feeds, several. Blocks of lines of one size are found again by their place. The figures in a line hold
neither line feeds nor anything else but digits and a few signs.

* `split_ofLines`: the lines of the text, line by line.
* `parts_flatMap`, `drop_flatMap`: blocks of one size, one behind the other.
* `isFigure_toString`, `isFigure_withPlaces`: the characters of the figures. -/

namespace SourceMetrics

set_option autoImplicit false

namespace Report

/-! ## Lines of text -/

/-- The lines of text that a line of a report takes, one more than it holds line feeds. -/
def textLines (line : String) : List (List Char) :=
  Text.split '\n' line.toList

theorem ofLines_cons (line : String) (lines : List String) :
    ofLines (line :: lines) = line ++ "\n" ++ ofLines lines := by
  rw [ofLines, ofLines, List.map_cons, String.join_cons]

theorem toList_ofLines_cons (line : String) (lines : List String) :
    (ofLines (line :: lines)).toList = line.toList ++ '\n' :: (ofLines lines).toList := by
  rw [ofLines_cons, String.toList_append, String.toList_append, List.append_assoc]
  rfl

/-- The text ends behind the last line feed, so an empty part is left. -/
theorem split_ofLines (lines : List String) :
    Text.split '\n' (ofLines lines).toList = lines.flatMap textLines ++ [[]] := by
  induction lines with
  | nil => rfl
  | cons line lines ih =>
    rw [toList_ofLines_cons, Text.split_append, ih, List.flatMap_cons, List.append_assoc]
    rfl

theorem textLines_of_not_mem {line : String} (h : '\n' ∉ line.toList) :
    textLines line = [line.toList] :=
  Text.split_of_not_mem h

theorem flatMap_textLines {lines : List String} (h : ∀ line ∈ lines, '\n' ∉ line.toList) :
    lines.flatMap textLines = lines.map String.toList := by
  induction lines with
  | nil => rfl
  | cons line lines ih =>
    rw [List.forall_mem_cons] at h
    rw [List.flatMap_cons, textLines_of_not_mem h.1, ih h.2]
    rfl

theorem head_append {label : String} {c : Char} (h : label.toList.head? = some c) (rest : String) :
    (label ++ rest).toList.head? = some c := by
  rw [String.toList_append, List.head?_append, h]
  rfl

/-! ## Blocks of lines -/

section Blocks

variable {α β : Type}

/-- So many blocks of one size, from the start of a row. -/
def parts (size : Nat) : (count : Nat) → List α → List (List α)
  | 0, _ => []
  | count + 1, row => row.take size :: parts size count (row.drop size)

variable {block : β → List α} {size : Nat}

theorem parts_flatMap (h : ∀ item, (block item).length = size) (items : List β) (rest : List α) :
    parts size items.length (items.flatMap block ++ rest) = items.map block := by
  induction items with
  | nil => rfl
  | cons item items ih =>
    rw [List.length_cons, List.flatMap_cons, List.append_assoc, parts, List.take_left' (h item),
      List.drop_left' (h item), ih, List.map_cons]

theorem length_flatMap (h : ∀ item, (block item).length = size) (items : List β) :
    (items.flatMap block).length = size * items.length := by
  rw [List.length_flatMap, List.map_congr_left fun item _ => h item, List.map_const',
    List.sum_replicate_nat, Nat.mul_comm]

theorem drop_flatMap (h : ∀ item, (block item).length = size) (items : List β) (rest : List α) :
    (items.flatMap block ++ rest).drop (size * items.length) = rest :=
  List.drop_left' (length_flatMap h items)

end Blocks

/-! ## Figures -/

/-- Whether a character can stand in a figure: a digit, a sign, a decimal point, or a letter of the
words for what is not a finite number. -/
def isFigure (c : Char) : Bool :=
  c.isDigit || ['-', '.', 'N', 'a', 'i', 'n', 'f'].contains c

theorem not_mem_of_isFigure {text : List Char} (h : ∀ c ∈ text, isFigure c = true) {c : Char}
    (hc : isFigure c = false) : c ∉ text := by
  intro hmem
  cases hc.symm.trans (h c hmem)

theorem isFigure_toString (n : Nat) : ∀ c ∈ (toString n).toList, isFigure c = true := by
  rw [Nat.toString_eq_ofList_toDigits, String.toList_ofList]
  intro c hc
  rw [isFigure, Nat.isDigit_of_mem_toDigits (by decide) (Nat.le_refl _) hc, Bool.true_or]

theorem toList_pushn (c : Char) (count : Nat) :
    ("".pushn c count).toList = List.replicate count c := by
  induction count with
  | zero => rfl
  | succ count ih =>
    rw [List.replicate_succ', ← ih]
    exact String.toList_push c

theorem isFigure_append {front rest : String} (hfront : ∀ c ∈ front.toList, isFigure c = true)
    (hrest : ∀ c ∈ rest.toList, isFigure c = true) : ∀ c ∈ (front ++ rest).toList, isFigure c = true := by
  rw [String.toList_append]
  exact List.forall_mem_append.mpr ⟨hfront, hrest⟩

theorem isFigure_placesText (places units : Nat) :
    ∀ c ∈ (Decimal.placesText places units).toList, isFigure c = true := by
  have hpoint : ∀ c ∈ ".".toList, isFigure c = true := List.all_eq_true.mp (by decide)
  have hzeros : ∀ count, ∀ c ∈ ("".pushn '0' count).toList, isFigure c = true := by
    intro count
    rw [toList_pushn]
    exact fun c hc => List.eq_of_mem_replicate hc ▸ rfl
  rw [Decimal.placesText]
  exact isFigure_append (isFigure_append (isFigure_append (isFigure_toString _) hpoint) (hzeros _))
    (isFigure_toString _)

theorem isFigure_withPlaces (places : Nat) (x : Float) :
    ∀ c ∈ (Decimal.withPlaces places x).toList, isFigure c = true := by
  have hsign : ∀ c ∈ (if hasSign x then "-" else "").toList, isFigure c = true := by
    split
    · exact List.all_eq_true.mp (by decide)
    · exact List.all_eq_true.mp (by decide)
  have hword : ∀ c ∈ "inf".toList, isFigure c = true := List.all_eq_true.mp (by decide)
  rw [Decimal.withPlaces]
  split
  · exact List.all_eq_true.mp (by decide)
  · dsimp only
    split
    · exact isFigure_append hsign hword
    · exact isFigure_append hsign (isFigure_placesText _ _)

end Report

end SourceMetrics
