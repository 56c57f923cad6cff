import StepPlan.Text.Messages
import StepPlan.Proofs.Number.TextValue
import StepPlan.Proofs.Plan.Enumeration

/-!
# Paths told from their texts

A report shows the path of a step as positions between slashes. A position is shown by its digits,
at least one and no slash among them, so the pieces between the slashes are the positions again
(`Text.splitOn_slashed`). Only the empty path is shown by a piece without digits.

Main statement: `Text.slashed_tells_paths`.
-/

namespace StepPlan.Text

/-- No digit is a slash. -/
theorem slash_notMem_toDigits (n : Nat) : '/' ∉ Nat.toDigits 10 n := by
  intro h
  exact absurd (allDigits_toDigits n '/' h) (by decide)

theorem toList_slashed (path : List Nat) :
    (slashed path).toList = ['/'].intercalate (path.map (Nat.toDigits 10)) := by
  have hdigits : String.toList ∘ Nat.repr = Nat.toDigits 10 := funext fun _ => Nat.toList_repr
  rw [slashed, String.toList_intercalate, List.map_map, hdigits]
  rfl

/-- Between the slashes stand the digits of each position. -/
theorem splitOn_slashed {path : List Nat} (h : path ≠ []) :
    (slashed path).toList.splitOn '/' = path.map (Nat.toDigits 10) := by
  rw [toList_slashed]
  refine List.splitOn_intercalate '/' ?_ (mt List.map_eq_nil_iff.mp h)
  intro digits hdigits
  obtain ⟨n, -, rfl⟩ := List.mem_map.mp hdigits
  exact slash_notMem_toDigits n

/-- A path with a position in it is not shown as the empty path is. -/
theorem slashed_ne_slashed_nil {path : List Nat} (h : path ≠ []) : slashed path ≠ slashed [] := by
  intro hempty
  -- The text of the empty path is one piece with nothing in it.
  have hpieces : path.map (Nat.toDigits 10) = [[]] := by
    rw [← splitOn_slashed h, hempty]
    rfl
  have hnil : [] ∈ path.map (Nat.toDigits 10) := by
    rw [hpieces]
    exact List.mem_singleton_self []
  obtain ⟨n, -, hn⟩ := List.mem_map.mp hnil
  exact Nat.toDigits_ne_nil hn

/-- Paths are told from their texts, the root among them. -/
theorem slashed_injective : Function.Injective slashed := by
  intro path other h
  cases path with
  | nil =>
    cases other with
    | nil => rfl
    | cons n other => exact absurd h.symm (slashed_ne_slashed_nil (List.cons_ne_nil n other))
  | cons m path =>
    cases other with
    | nil => exact absurd h (slashed_ne_slashed_nil (List.cons_ne_nil m path))
    | cons n other =>
      have hdigits : (m :: path).map (Nat.toDigits 10) = (n :: other).map (Nat.toDigits 10) := by
        rw [← splitOn_slashed (List.cons_ne_nil m path), h,
          splitOn_slashed (List.cons_ne_nil n other)]
      exact (List.map_inj_right fun _ _ => Number.toDigits_injective).mp hdigits

/-- A path is told from its text, so no two steps of a plan are shown with the same path text. -/
theorem slashed_tells_paths :
    Function.Injective slashed
      ∧ ∀ root : Tree, (root.compile.steps.map fun s => slashed s.path).Nodup := by
  refine ⟨slashed_injective, ?_⟩
  intro root
  refine List.pairwise_map.mpr ((Tree.pairwise_path_steps_compile root).imp ?_)
  intro s u hlt htexts
  rw [slashed_injective htexts] at hlt
  exact List.lt_irrefl u.path hlt

end StepPlan.Text
