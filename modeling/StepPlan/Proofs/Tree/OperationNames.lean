import StepPlan.Tree.Names

/-!
# The names of operations

A name is reserved if it has the letters of one of three words. Reserved names stand for their
marker whatever the case of their letters, and all others for the operation of just that name. So
two names mean the same operation only if they are the same name or have the letters of one reserved
word: `Operation.ofName_eq_ofName_iff`.
-/

namespace StepPlan.Operation

/-- The words that stand for markers. -/
def reservedWords : List String :=
  ["type", "validate", "follow_redirect"]

/-- The name has the letters of a reserved word. -/
def IsReservedName (name : String) : Prop :=
  ∃ word ∈ reservedWords, Text.sameLetters name word = true

instance (name : String) : Decidable (IsReservedName name) :=
  inferInstanceAs (Decidable (∃ word ∈ reservedWords, _))

/-- The letters of a name are those of one reserved word only. -/
theorem sameLetters_eq_false_of_ne {name word other : String} (hword : word ∈ reservedWords)
    (hother : other ∈ reservedWords) (hne : word ≠ other)
    (h : Text.sameLetters name word = true) : Text.sameLetters name other = false := by
  have hapart : ∀ word ∈ reservedWords, ∀ other ∈ reservedWords, word ≠ other →
      Text.sameLetters word other = false := by decide +kernel
  rw [Bool.eq_false_iff]
  intro hsame
  have hwords := Text.sameLetters_trans (Text.sameLetters_symm h) hsame
  rw [hapart word hword other hother hne] at hwords
  cases hwords

/-- A name with the letters of a reserved word is that of its marker. -/
theorem ofName_of_sameLetters {name word : String} (hword : word ∈ reservedWords)
    (h : Text.sameLetters name word = true) :
    (ofName name).isReserved = true ∧ (ofName name).name = word := by
  have hother : ∀ other ∈ reservedWords, word ≠ other → ¬Text.sameLetters name other = true := by
    intro other hmem hne
    rw [sameLetters_eq_false_of_ne hword hmem hne h]
    exact Bool.false_ne_true
  rw [ofName]
  rcases List.mem_cons.mp hword with rfl | hword
  · rw [if_pos h]
    exact ⟨rfl, rfl⟩
  · rcases List.mem_cons.mp hword with rfl | hword
    · rw [if_neg (hother "type" (by decide) (by decide)), if_pos h]
      exact ⟨rfl, rfl⟩
    · obtain rfl := List.mem_singleton.mp hword
      rw [if_neg (hother "type" (by decide) (by decide)),
        if_neg (hother "validate" (by decide) (by decide)), if_pos h]
      exact ⟨rfl, rfl⟩

/-- Any other name is that of an operation for the runtime. -/
theorem ofName_of_not_isReservedName {name : String} (h : ¬IsReservedName name) :
    ofName name = .named name := by
  have hnot : ∀ word ∈ reservedWords, ¬Text.sameLetters name word = true :=
    fun word hword hsame => h ⟨word, hword, hsame⟩
  rw [ofName, if_neg (hnot "type" (by decide)), if_neg (hnot "validate" (by decide)),
    if_neg (hnot "follow_redirect" (by decide))]

/-- An operation for the runtime never goes by a reserved name. -/
theorem ofName_eq_named_iff {name other : String} :
    ofName name = .named other ↔ name = other ∧ ¬IsReservedName name := by
  by_cases hreserved : IsReservedName name
  · obtain ⟨word, hword, hsame⟩ := hreserved
    constructor
    · intro h
      have hmarker := (ofName_of_sameLetters hword hsame).1
      rw [h] at hmarker
      cases hmarker
    · rintro ⟨-, hnot⟩
      exact absurd ⟨word, hword, hsame⟩ hnot
  · rw [ofName_of_not_isReservedName hreserved, named.injEq]
    exact (and_iff_left hreserved).symm

/-- An operation is read back from its name, unless it is one for the runtime that goes by a
reserved name. -/
theorem ofName_name_iff {o : Operation} :
    ofName o.name = o ↔ ∀ name, o = .named name → ¬IsReservedName name := by
  cases o with
  | named name => simp [Operation.name, ofName_eq_named_iff]
  | _ => exact iff_of_true (by decide +kernel) nofun

/-- Markers are told apart by their names. -/
theorem eq_of_isReserved {a b : Operation} (ha : a.isReserved = true) (hb : b.isReserved = true)
    (h : a.name = b.name) : a = b := by
  have hback : ∀ o : Operation, o.isReserved = true → ofName o.name = o := by
    intro o ho
    rw [ofName_name_iff]
    rintro name rfl
    cases ho
  rw [← hback a ha, h, hback b hb]

/-- Two names mean the same operation exactly when they are the same name, or have both the letters
of one reserved word. -/
theorem ofName_eq_ofName_iff {a b : String} :
    ofName a = ofName b
      ↔ a = b ∨ ∃ word ∈ reservedWords,
          Text.sameLetters a word = true ∧ Text.sameLetters b word = true := by
  constructor
  · intro h
    by_cases hb : IsReservedName b
    · obtain ⟨word, hword, hsame⟩ := hb
      obtain ⟨hmarker, hname⟩ := ofName_of_sameLetters hword hsame
      by_cases ha : IsReservedName a
      · obtain ⟨word', hword', hsame'⟩ := ha
        obtain rfl : word' = word := by
          rw [← (ofName_of_sameLetters hword' hsame').2, h, hname]
        exact .inr ⟨word', hword', hsame', hsame⟩
      · rw [← h, ofName_of_not_isReservedName ha] at hmarker
        cases hmarker
    · rw [ofName_of_not_isReservedName hb, ofName_eq_named_iff] at h
      exact .inl h.1
  · rintro (rfl | ⟨word, hword, ha, hb⟩)
    · rfl
    · obtain ⟨hmarkerA, hnameA⟩ := ofName_of_sameLetters hword ha
      obtain ⟨hmarkerB, hnameB⟩ := ofName_of_sameLetters hword hb
      exact eq_of_isReserved hmarkerA hmarkerB (hnameA.trans hnameB.symm)

end StepPlan.Operation
