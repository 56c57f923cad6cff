import StepPlan.Cli.Arguments

/-!
# Arguments without reuse

Main statement: `Command.ofArguments_withoutReuse`. Arguments that ask to compile a tree with reuse
ask for the same without reuse when `--reuse` is taken from them. This needs that nothing else is
spelled `--reuse` among accepted arguments: behind a bare `--` everything is a path, and what looks
like an option is no value of another one.
-/

namespace StepPlan.Cli

/-- The arguments less the option `--reuse`. What stands behind a bare `--` stays. -/
def withoutReuse : List String → List String
  | [] => []
  | "--" :: rest => "--" :: rest
  | s :: rest => if s = "--reuse" then withoutReuse rest else s :: withoutReuse rest

/-- The option itself goes. -/
theorem withoutReuse_reuse (rest : List String) :
    withoutReuse ("--reuse" :: rest) = withoutReuse rest := by
  rw [withoutReuse, if_pos rfl]
  decide

/-- Any other argument stays, and the option is sought behind it. -/
theorem withoutReuse_cons {s : String} (hdash : s ≠ "--") (hreuse : s ≠ "--reuse")
    (rest : List String) : withoutReuse (s :: rest) = s :: withoutReuse rest := by
  rw [withoutReuse, if_neg hreuse]
  exact hdash

/-! ## The same without reuse -/

/-- The arguments read so far, without reuse. -/
def Given.plain (g : Given) : Given :=
  { g with reuse := false }

/-- What to compile, and how, without reuse. -/
def Options.plain (o : Options) : Options :=
  { o with reuse := false }

/-- What the arguments ask for, without reuse. -/
def Command.plain : Command → Command
  | .compile o => .compile o.plain
  | command => command

/-- What to do after an argument, without reuse. -/
def Next.plain : Next → Next
  | .go g => .go g.plain
  | .output g => .output g.plain
  | .stop command => .stop command.plain

namespace Given

/-- A path is taken with and without reuse alike. -/
theorem withPath?_plain (g : Given) (s : String) :
    g.plain.withPath? s = (g.withPath? s).map plain := by
  unfold withPath? plain
  split <;> rfl

/-- An output is taken with and without reuse alike. -/
theorem withOutput?_plain (g : Given) (s : String) :
    g.plain.withOutput? s = (g.withOutput? s).map plain := by
  unfold withOutput? plain
  split <;> rfl

/-- Details are asked for with and without reuse alike. -/
theorem withDebug?_plain (g : Given) : g.plain.withDebug? = g.withDebug?.map plain := by
  unfold withDebug? plain
  split <;> rfl

/-- The drawing is asked for with and without reuse alike. -/
theorem withShowTree?_plain (g : Given) : g.plain.withShowTree? = g.withShowTree?.map plain := by
  unfold withShowTree? plain
  split <;> rfl

/-- Asking for reuse changes nothing else. -/
theorem plain_of_withReuse? {g g' : Given} (h : g.withReuse? = some g') : g'.plain = g.plain := by
  unfold withReuse? at h
  split at h
  · cases h
  · cases h
    rfl

/-- What can be compiled with reuse can be compiled without. The converse fails, since reuse needs
an output. -/
theorem finish_plain {g : Given} {o : Options} (h : g.finish = .compile o) :
    g.plain.finish = .compile o.plain := by
  unfold finish at h ⊢
  cases hpath : g.treePath with
  | none =>
    rw [hpath] at h
    cases h
  | some path =>
    rw [hpath] at h
    simp only [plain] at h ⊢
    rw [hpath]
    -- Reuse without an output is refused, so `h` rules it out.
    by_cases hmissing : (g.reuse && g.output.isNone) = true
    · rw [if_pos hmissing] at h
      cases h
    · rw [if_neg hmissing] at h
      cases h
      rfl

end Given

theorem Next.ofOption_plain (g : Option Given) :
    Next.ofOption (g.map Given.plain) = (Next.ofOption g).plain := by
  cases g <;> rfl

/-! ## Arguments other than `--reuse` -/

/-- No letter asks for reuse. -/
theorem letters_plain (g : Given) (cs : List Char) :
    letters g.plain cs = (letters g cs).plain := by
  fun_induction letters g cs with
  | case1 => rfl
  | case2 => rfl
  | case3 => rfl
  | case4 g rest g' hg' ih =>
    rw [letters, Given.withDebug?_plain, hg']
    exact ih
  | case5 g rest hnone =>
    rw [letters, Given.withDebug?_plain, hnone]
    rfl
  | case6 => rfl
  | case7 g value =>
    rw [letters, Given.withOutput?_plain, Next.ofOption_plain]
  | case8 g value hnil heq =>
    rw [letters, Given.withOutput?_plain, Next.ofOption_plain]
    · exact hnil
    · exact heq
  | case9 => simp_all [letters, Next.plain, Command.plain]

/-- One long name asks for reuse, and it takes no value. -/
theorem long_plain (g : Given) {cs : List Char} (h : cs ≠ "reuse".toList) :
    long g.plain cs = (long g cs).plain := by
  -- The name is what stands before `=`; without one it is the whole argument.
  have hname : cs.dropWhile (· != '=') = [] →
      String.ofList (cs.takeWhile (· != '=')) ≠ "reuse" := by
    intro hdrop hreuse
    have hcs : cs.takeWhile (· != '=') ++ cs.dropWhile (· != '=') = cs :=
      List.takeWhile_append_dropWhile
    rw [hdrop, List.append_nil] at hcs
    rw [hcs] at hreuse
    apply h
    rw [← hreuse, String.toList_ofList]
  unfold long
  cases hdrop : cs.dropWhile (· != '=') with
  | nil =>
    dsimp only
    split
    next => rfl
    next => rfl
    next => rw [Given.withDebug?_plain, Next.ofOption_plain]
    next hreuse => exact absurd hreuse (hname hdrop)
    next => rw [Given.withShowTree?_plain, Next.ofOption_plain]
    next => rfl
    next => rfl
  | cons _ value =>
    dsimp only
    split
    next => rw [Given.withOutput?_plain, Next.ofOption_plain]
    next => rfl

/-- An argument other than `--reuse` does the same with and without reuse. -/
theorem argument_plain (g : Given) {s : String} (h : s ≠ "--reuse") :
    argument g.plain s = (argument g s).plain := by
  unfold argument
  split
  next cs hs =>
    apply long_plain
    intro hcs
    apply h
    rw [← String.ofList_toList (s := s), hs, hcs]
    rfl
  next => rw [Given.withPath?_plain, Next.ofOption_plain]
  next => exact letters_plain g _
  next => rw [Given.withPath?_plain, Next.ofOption_plain]

/-! ## `--reuse` itself -/

/-- The argument asks for reuse, or is given twice. -/
theorem argument_reuse (g : Given) : argument g "--reuse" = .ofOption g.withReuse? :=
  rfl

/-- After `--reuse` only reuse may have changed. -/
theorem plain_of_argument_reuse {g g' : Given} (h : argument g "--reuse" = .go g') :
    g'.plain = g.plain := by
  rw [argument_reuse] at h
  cases hg : g.withReuse? with
  | none =>
    rw [hg] at h
    cases h
  | some g₁ =>
    rw [hg] at h
    cases h
    exact Given.plain_of_withReuse? hg

/-- The argument ends the reading only when it is given twice. -/
theorem eq_misuse_of_argument_reuse {g : Given} {command : Command}
    (h : argument g "--reuse" = .stop command) : command = .misuse := by
  rw [argument_reuse] at h
  cases hg : g.withReuse? with
  | none =>
    rw [hg] at h
    cases h
    rfl
  | some g₁ =>
    rw [hg] at h
    cases h

/-- No value is expected behind `--reuse`. -/
theorem argument_reuse_ne_output (g g' : Given) : argument g "--reuse" ≠ .output g' := by
  rw [argument_reuse]
  cases g.withReuse? <;> exact Next.noConfusion

/-- What does not look like an option is neither a bare `--` nor `--reuse`. -/
theorem ne_of_not_isOption {value : String} (h : ¬ isOption value = true) :
    value ≠ "--" ∧ value ≠ "--reuse" := by
  constructor
  · intro heq
    subst heq
    exact h rfl
  · intro heq
    subst heq
    exact h rfl

/-! ## All arguments -/

/-- Paths behind a bare `--` are the same with and without reuse. -/
theorem paths_plain {g : Given} {args : List String} {o : Options}
    (h : paths g args = .compile o) : paths g.plain args = .compile o.plain := by
  induction args generalizing g with
  | nil => exact Given.finish_plain h
  | cons s rest ih =>
    rw [paths] at h ⊢
    rw [Given.withPath?_plain]
    cases hg : g.withPath? s with
    | none =>
      rw [hg] at h
      cases h
    | some g' =>
      rw [hg] at h
      exact ih h

/-- Reading goes on as it would without reuse, from any state of it. -/
theorem read_withoutReuse {g : Given} {args : List String} {o : Options}
    (h : read g args = .compile o) : read g.plain (withoutReuse args) = .compile o.plain := by
  -- By the recursion of `read`. Accepted arguments are those of which no step stops at a misuse.
  fun_induction read g args with
  | case1 g => exact Given.finish_plain h
  | case2 g rest =>
    rw [withoutReuse, read]
    exact paths_plain h
  | case3 g s rest hdash g' hnext ih =>
    -- `--reuse` is the one argument that disappears, and it changed nothing but reuse.
    by_cases hs : s = "--reuse"
    · subst hs
      rw [withoutReuse_reuse, ← plain_of_argument_reuse hnext]
      exact ih h
    · rw [withoutReuse_cons hdash hs, read, argument_plain g hs, hnext]
      · exact ih h
      · exact hdash
  | case4 g s rest hdash command hnext =>
    subst h
    by_cases hs : s = "--reuse"
    · subst hs
      cases eq_misuse_of_argument_reuse hnext
    · rw [withoutReuse_cons hdash hs, read, argument_plain g hs, hnext]
      · rfl
      · exact hdash
  | case5 => cases h
  | case6 => cases h
  | case7 g s hdash g₁ hnext value rest hvalue g₂ hg₂ ih =>
    -- The value stays where it is, so the option still finds it.
    obtain ⟨hvdash, hvreuse⟩ := ne_of_not_isOption hvalue
    have hs : s ≠ "--reuse" := by
      intro heq
      subst heq
      exact argument_reuse_ne_output g g₁ hnext
    rw [withoutReuse_cons hdash hs, withoutReuse_cons hvdash hvreuse, read, argument_plain g hs,
      hnext]
    · simp only [Next.plain, if_neg hvalue, Given.withOutput?_plain, hg₂, Option.map_some]
      exact ih h
    · exact hdash
  | case8 => cases h

/-- Arguments that ask to compile a tree ask for the same without reuse when `--reuse` is taken from
them. -/
theorem Command.ofArguments_withoutReuse {args : List String} {o : Options}
    (h : ofArguments args = .compile o) : ofArguments (withoutReuse args) = .compile o.plain :=
  read_withoutReuse h

end StepPlan.Cli
