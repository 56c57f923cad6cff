import StepPlan.Proofs.Json.Saying
import StepPlan.Proofs.Json.Truncation

/-!
# Reading fronts

Where a document is read without error, a front of it fails with the end of the text if it fails at
all: `Doc.failsOnlyWith_value`. A reader that takes parts one after the other fails like the first
of them that does, and what stands before the break is read as in the whole document.
-/

namespace StepPlan

/-- If there is an error, it is this one. -/
def FailsOnlyWith {ε α : Type} (e : ε) (x : Except ε α) : Prop :=
  ∀ e', x = .error e' → e' = e

section

variable {ε α β : Type} {e : ε}

/-- What succeeds does not fail. -/
theorem failsOnlyWith_ok (a : α) : FailsOnlyWith e (.ok a) :=
  nofun

/-- The error itself is the one. -/
theorem failsOnlyWith_error : FailsOnlyWith e (.error e : Except ε α) := by
  intro e' h
  exact (Except.error.inj h).symm

/-- Whichever of two parts fails first, it is with the error. -/
theorem FailsOnlyWith.bind {x : Except ε α} {f : α → Except ε β} (hx : FailsOnlyWith e x)
    (hf : ∀ a, x = .ok a → FailsOnlyWith e (f a)) : FailsOnlyWith e (x >>= f) := by
  cases x with
  | error e' =>
    obtain rfl := hx e' rfl
    exact failsOnlyWith_error
  | ok a => exact hf a rfl

/-- What is made of a result makes no other error. -/
theorem FailsOnlyWith.map {x : Except ε α} (hx : FailsOnlyWith e x) (f : α → β) :
    FailsOnlyWith e (f <$> x) := by
  rw [map_eq_pure_bind]
  exact hx.bind fun a _ => failsOnlyWith_ok (f a)

end

namespace Json

/-- A fault remains that fault as an error of reading. -/
theorem FailsOnlyWith.liftFault {α : Type} {fault : Fault} {x : Except Fault α}
    (hx : FailsOnlyWith fault x) : FailsOnlyWith (.fault fault) (liftFault x) := by
  cases x with
  | error f =>
    obtain rfl := hx f rfl
    exact failsOnlyWith_error
  | ok a => exact failsOnlyWith_ok a

namespace Doc

/-- A front of members that can be read has nothing begun at its end but a value. -/
theorem fault_eq_of_memberValues {fault : Fault} {members members' : List (Key × Doc)} {n : Nat}
    {before after : List (String × Json)} (h : HaveFront fault members members')
    (hafter : memberValues n before members = .ok after) : fault = .truncated := by
  induction members generalizing members' before with
  | nil =>
    cases h
    rfl
  | cons m members ih =>
    cases h with
    | key hpiece =>
      rw [memberValues] at hafter
      cases hafter
    | last hfront => rfl
    | cons hfront =>
      obtain ⟨key, d⟩ := m
      rw [memberValues] at hafter
      obtain ⟨name, hname, hafter⟩ := bind_eq_ok_iff.mp hafter
      obtain ⟨v, hv, hafter⟩ := bind_eq_ok_iff.mp hafter
      exact ih hfront hafter

mutual

/-- A front of what is read as a value is truncated, if it is not a value itself. -/
theorem failsOnlyWith_value : ∀ {d d' : Doc} {n : Nat} {v : Json}, IsFront d d' →
    d'.value n = .ok v → FailsOnlyWith .truncated (d.value n)
  | _, d', n, v, .piece h, hv => by
    have hstrict := h (by rintro rfl; cases hv)
    rw [value, hstrict]
    exact failsOnlyWith_error
  | _, _, n, v, @IsFront.num w w' h, hv => by
    cases w' with
    | none => cases hv
    | some number =>
      obtain ⟨number', rfl⟩ := Option.isSome_iff_exists.mp (h rfl)
      exact failsOnlyWith_ok _
  | _, _, 0, v, .arr h, hv => by cases hv
  | _, _, n + 1, v, .arr h, hv => by
    rw [value] at hv ⊢
    -- The items fail at most with the end of the text; if they are read, what is missing is the
    -- bracket.
    obtain ⟨js, hjs, -⟩ := bind_eq_ok_iff.mp hv
    exact (failsOnlyWith_values h hjs).bind fun _ _ => failsOnlyWith_error
  | _, _, 0, v, .obj h, hv => by cases hv
  | _, _, n + 1, v, .obj h, hv => by
    rw [value] at hv ⊢
    obtain ⟨ms, hms, -⟩ := bind_eq_ok_iff.mp hv
    refine (failsOnlyWith_memberValues h hms).bind fun after hafter => ?_
    rw [fault_eq_of_memberValues h hafter]
    exact failsOnlyWith_error

/-- Items that are cut short fail with the end of the text at most. -/
theorem failsOnlyWith_values : ∀ {items items' : List Doc} {n : Nat} {js : List Json},
    AreFront items items' → values n items' = .ok js → FailsOnlyWith .truncated (values n items)
  | _, _, _, _, .nil, _ => failsOnlyWith_ok _
  | _, _, _, _, .last h, hjs => by
    rw [values] at hjs ⊢
    obtain ⟨v, hv, -⟩ := bind_eq_ok_iff.mp hjs
    exact (failsOnlyWith_value h hv).bind fun _ _ => failsOnlyWith_ok _
  | _, _, _, _, .cons h, hjs => by
    rw [values] at hjs ⊢
    obtain ⟨v, hv, hjs⟩ := bind_eq_ok_iff.mp hjs
    obtain ⟨vs, hvs, -⟩ := bind_eq_ok_iff.mp hjs
    rw [hv]
    exact (failsOnlyWith_values h hvs).bind fun _ _ => failsOnlyWith_ok _

/-- Members that are cut short fail with the end of the text at most. -/
theorem failsOnlyWith_memberValues : ∀ {fault : Fault} {members members' : List (Key × Doc)}
    {n : Nat} {before after : List (String × Json)}, HaveFront fault members members' →
    memberValues n before members' = .ok after →
      FailsOnlyWith .truncated (memberValues n before members)
  | _, _, _, _, _, _, .nil, _ => failsOnlyWith_ok _
  | _, _, _, _, _, _, @HaveFront.key piece m rest h, hafter => by
    -- Cut short inside a key: it is a string in the whole text, so its piece may be one.
    obtain ⟨key, d⟩ := m
    rw [memberValues] at hafter ⊢
    obtain ⟨name, hname, -⟩ := bind_eq_ok_iff.mp hafter
    have hstrict := h (by rintro rfl; cases hname)
    rw [Key.read, hstrict]
    exact failsOnlyWith_error
  | _, _, _, _, _, _, .last h, hafter => by
    rw [memberValues] at hafter ⊢
    obtain ⟨name, hname, hafter⟩ := bind_eq_ok_iff.mp hafter
    obtain ⟨v, hv, -⟩ := bind_eq_ok_iff.mp hafter
    rw [hname]
    exact (failsOnlyWith_value h hv).bind fun _ _ => failsOnlyWith_ok _
  | _, _, _, _, _, _, @HaveFront.cons fault m members members' h, hafter => by
    obtain ⟨key, d⟩ := m
    rw [memberValues] at hafter ⊢
    obtain ⟨name, hname, hafter⟩ := bind_eq_ok_iff.mp hafter
    obtain ⟨v, hv, hafter⟩ := bind_eq_ok_iff.mp hafter
    rw [hname]
    show FailsOnlyWith .truncated (value _ d >>= _)
    rw [hv]
    exact failsOnlyWith_memberValues h hafter

end

end Doc

end Json

end StepPlan
