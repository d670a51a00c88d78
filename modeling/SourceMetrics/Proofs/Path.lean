import SourceMetrics.Path
import SourceMetrics.Proofs.Text.Division

/-! # The text of a path as patterns see it

A slash is a character of its own wherever it stands in the bytes of a path, also behind a sequence
that breaks off. So the text of a path is that of its names, put together by slashes.

* `normalized_append`: a path is read in parts, cut at a slash.
* `exists_division`: the text has the characters of the path, with U+FFFD for each maximal invalid part
  and slashes for backslashes.
* `normalized_ofText`: a text without backslashes is kept.
* `normalized_joined`: all of this of any bytes. -/

namespace SourceMetrics.Path

set_option autoImplicit false

theorem normalized_append (front rest : List UInt8) :
    normalized ⟨front ++ slash :: rest⟩ = normalized ⟨front⟩ ++ '/' :: normalized ⟨rest⟩ := by
  have hdecode := Utf8.decodeLossy_append (show slash < 0x80 by decide) front rest
  simp only [normalized, hdecode, List.map_append, List.map_cons]
  rfl

theorem backslash_not_mem (path : Path) : '\\' ∉ path.normalized := by
  unfold normalized
  simp only [List.mem_map, not_exists, not_and]
  intro c _ hc
  split at hc
  · cases hc
  · contradiction

theorem exists_division (path : Path) : ∃ parts,
    (∀ other, Utf8.Divided path.bytes other ↔ other = parts) ∧
      path.normalized = parts.map fun part =>
        if part = some '\\' then '/' else part.getD (Char.ofNat 0xFFFD) := by
  refine ⟨Utf8.decode path.bytes, ?_, ?_⟩
  · intro other
    rw [← Utf8.decode_eq_iff, eq_comm]
  · unfold normalized Utf8.decodeLossy
    rw [List.map_map]
    apply List.map_congr_left
    intro part _
    cases part with
    | none => rfl
    | some c => simp

theorem normalized_ofText {text : String} (h : '\\' ∉ text.toList) :
    (ofText text).normalized = text.toList := by
  have hkept : ∀ c ∈ text.toList, (if c = '\\' then '/' else c) = id c := by
    intro c hc
    apply if_neg
    rintro rfl
    exact h hc
  unfold normalized ofText Utf8.decodeLossy
  rw [Utf8.decode_encode, List.map_map, List.map_map]
  exact (List.map_congr_left hkept).trans (List.map_id _)

/-- **The text of a path is read in parts, and reading it again changes nothing.** Whatever the bytes
are, also where a sequence breaks off at the slash that parts them. -/
theorem normalized_joined (directory name : List UInt8) (path : Path) :
    normalized ⟨directory ++ slash :: name⟩ = normalized ⟨directory⟩ ++ '/' :: normalized ⟨name⟩ ∧
      '\\' ∉ path.normalized ∧
      (ofText (String.ofList path.normalized)).normalized = path.normalized ∧
      ∃ parts, (∀ other, Utf8.Divided path.bytes other ↔ other = parts) ∧
        path.normalized = parts.map fun part =>
          if part = some '\\' then '/' else part.getD (Char.ofNat 0xFFFD) := by
  have hnot := backslash_not_mem path
  refine ⟨normalized_append directory name, hnot, ?_, exists_division path⟩
  rw [normalized_ofText (by rwa [String.toList_ofList]), String.toList_ofList]

example : normalized ⟨[0xF0, 0x9F, 0x2F, 0x5C, 0xE2, 0x82]⟩ =
    [Char.ofNat 0xFFFD, '/', '/', Char.ofNat 0xFFFD] := by
  decide

end SourceMetrics.Path
