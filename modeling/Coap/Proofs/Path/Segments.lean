/-
# Paths and their segments

The slashes of a path split it into parts, of which the empty ones mean nothing: the others are
its segments.  A path is split in one way only (`Splits`), and from segments joined with single
slashes the same segments are read again (`segments_join`).  So the normal form of a path says as
much about it as the list of its segments (`normalize_eq_iff`).
-/
import Coap.Path

namespace Coap.Path

variable {path s t : String} {parts names : List String}

/-! ## Splitting at the slashes -/

/-- The slashes of a path split it into parts, of which there is at least one. -/
structure Splits (path : String) (parts : List String) : Prop where
  ne_nil : parts ≠ []
  noSlash : ∀ s ∈ parts, '/' ∉ s.toList
  joined : join parts = path

theorem splitSlash_eq (l : List Char) : splitSlash l = l.splitOn '/' := by
  induction l with
  | nil => rfl
  | cons c rest ih =>
    rw [splitSlash, ih, List.splitOn_cons_eq_if_modifyHead]
    by_cases hc : c = '/'
    · simp [hc]
    · simp only [hc, if_false, beq_iff_eq]
      -- there is a first part to put the character in front of
      cases hrest : rest.splitOn '/' with
      | nil => exact absurd hrest (List.splitOn_ne_nil '/' rest)
      | cons first more => rfl

theorem not_mem_of_mem_splitSlash {l part : List Char} (h : part ∈ splitSlash l) :
    '/' ∉ part := by
  induction l generalizing part with
  | nil =>
    rw [List.mem_singleton.mp h]
    exact List.not_mem_nil
  | cons c rest ih =>
    rw [splitSlash] at h
    split at h
    · rcases List.mem_cons.mp h with rfl | h
      · exact List.not_mem_nil
      · exact ih h
    · next hc =>
      split at h
      · rw [List.mem_singleton.mp h]
        exact fun hmem => hc (List.mem_singleton.mp hmem).symm
      · next first more hrest =>
        rw [hrest] at ih
        rcases List.mem_cons.mp h with rfl | h
        · intro hmem
          rcases List.mem_cons.mp hmem with heq | hmem
          · exact hc heq.symm
          · exact ih (List.mem_cons_self ..) hmem
        · exact ih (List.mem_cons_of_mem _ h)

theorem toList_join (parts : List String) :
    (join parts).toList = ['/'].intercalate (parts.map String.toList) :=
  String.toList_intercalate

/-- Every path is split into parts. -/
theorem splits (path : String) :
    Splits path ((splitSlash path.toList).map String.ofList) := by
  refine ⟨?_, ?_, ?_⟩
  · rw [splitSlash_eq]
    simp [List.splitOn_ne_nil]
  · intro s hs
    obtain ⟨part, hpart, rfl⟩ := List.mem_map.mp hs
    rw [String.toList_ofList]
    exact not_mem_of_mem_splitSlash hpart
  · rw [← String.toList_inj, toList_join, List.map_map, splitSlash_eq]
    have hsame : String.toList ∘ String.ofList = id := funext fun l => String.toList_ofList
    rw [hsame, List.map_id, List.intercalate_splitOn]

/-- A path is split in one way. -/
theorem Splits.eq (h : Splits path parts) :
    parts = (splitSlash path.toList).map String.ofList := by
  have hparts : splitSlash path.toList = parts.map String.toList := by
    rw [splitSlash_eq, ← h.joined, toList_join]
    refine List.splitOn_intercalate '/' ?_ (by simpa using h.ne_nil)
    intro part hpart
    obtain ⟨s, hs, rfl⟩ := List.mem_map.mp hpart
    exact h.noSlash s hs
  have hsame : String.ofList ∘ String.toList = id := funext fun s => String.ofList_toList
  rw [hparts, List.map_map, hsame, List.map_id]

/-- The segments of a path are those of its parts that are not empty. -/
theorem Splits.segments_eq (h : Splits path parts) :
    segments path = parts.filter (!·.isEmpty) := by
  have hempty (part : List Char) : (String.ofList part).isEmpty = part.isEmpty := by
    rw [Bool.eq_iff_iff, String.isEmpty_iff, ← String.toList_eq_nil_iff, String.toList_ofList,
      List.isEmpty_iff]
  rw [h.eq, segments, List.filter_map]
  congr 2
  funext part
  rw [Function.comp_apply, hempty]

/-! ## Segments and their normal form -/

/-- A text that can be a segment of a path. -/
structure IsSegment (s : String) : Prop where
  ne_empty : s ≠ ""
  noSlash : '/' ∉ s.toList

theorem isSegment_of_mem (h : s ∈ segments path) : IsSegment s := by
  rw [(splits path).segments_eq] at h
  obtain ⟨hpart, hne⟩ := List.mem_filter.mp h
  exact ⟨fun hs => by simp [hs] at hne, (splits path).noSlash s hpart⟩

/-- Segments that are joined are read again. -/
theorem segments_join (h : ∀ s ∈ names, IsSegment s) : segments (join names) = names := by
  cases names with
  | nil => rfl
  | cons first rest =>
    have hsplits : Splits (join (first :: rest)) (first :: rest) :=
      ⟨List.cons_ne_nil _ _, fun s hs => (h s hs).noSlash, rfl⟩
    rw [hsplits.segments_eq, List.filter_eq_self]
    intro s hs
    simpa using (h s hs).ne_empty

/-- A path and its normal form have the same segments. -/
@[simp] theorem segments_normalize (path : String) : segments (normalize path) = segments path :=
  segments_join fun _ => isSegment_of_mem

/-- Two paths have the same normal form exactly if they have the same segments. -/
theorem normalize_eq_iff : normalize s = normalize t ↔ segments s = segments t := by
  constructor
  · intro h
    rw [← segments_normalize s, h, segments_normalize]
  · intro h
    rw [normalize, h, normalize]

end Coap.Path
