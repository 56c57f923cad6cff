import Mathlib.Data.List.Forall2
import StepPlan.Proofs.Cli.Arguments
import StepPlan.Proofs.Cli.Session
import StepPlan.Proofs.Snapshot.Currency
import StepPlan.Proofs.Snapshot.RoundTrip

/-!
# Reuse makes no difference

Runs of the program that store their snapshots in one file, each over the files that it finds around
it. Main statement: `history_eq_of_plain`. Whether or not the runs may use the stored snapshot,
their exit codes and the file after each of them are the same, as long as nobody else writes to the
file and the hasher tells the trees apart.

The invariant is that the file is absent or holds the snapshot of one of the trees (`Truthful`).
With it, a run over a tree comes to what compiling the tree gives, by either way
(`Run.result_of_tree?_eq_some`), and a run that loads no tree leaves the file alone.
-/

namespace StepPlan

/-- What is read from the stored snapshot of one tree and passes for current for another is worth
the snapshot of the other, unless the hasher mistakes the two for each other. -/
theorem Snapshot.ofTree_eq_of_isCurrentFor [Hasher] {u t : Tree} {s : Snapshot}
    (hread : ofBytes (ofTree u).bytes = .ok s) (hcurrent : s.isCurrentFor t = true)
    (hhash : u.fingerprint = t.fingerprint → u.code = t.code) :
    ofTree u = ofTree t ∧ s.error.isNone = t.compile.isExecutable := by
  have hversion : (ofTree u).version.utf8ByteSize < 2 ^ (64 : Nat) := by
    show StepPlan.version.utf8ByteSize < 2 ^ (64 : Nat)
    decide
  obtain ⟨-, hstored, herror⟩ := heading_of_ofBytes hversion hread
  have hsame : ofTree u = ofTree t := by
    have hfingerprint : u.fingerprint = t.fingerprint := by
      simp only [isCurrentFor, Bool.and_eq_true, beq_iff_eq] at hcurrent
      exact hstored.symm.trans hcurrent.2
    exact ofPlan_eq_of_spelled_eq hfingerprint (Tree.spelled_eq_of_code_eq (hhash hfingerprint))
  refine ⟨hsame, ?_⟩
  rw [herror, hsame]
  show (t.compile.error.map Rejection.message).isNone = t.compile.error.isNone
  rw [Option.isNone_map]

namespace Cli

open Session (system)

/-- A run of the program, with the file system that it finds around the file where snapshots are
stored. -/
structure Run where
  arguments : List String
  files : FileSystem

namespace Run

/-- The same run without reuse. -/
def plain (r : Run) : Run :=
  { r with arguments := withoutReuse r.arguments }

/-- The run compiles a tree with these options and stores the snapshot in the file at `l`, which is
not the file of the tree. The path to it may be any, relative or from the root, as long as the
directories on the way are there. -/
structure Stores (r : Run) (o : Options) (l : Location) : Prop where
  command : Command.ofArguments r.arguments = .compile o
  output : ∃ path, o.output = some path ∧ r.files.resolve path = .ok (.file l)
  elsewhere : r.files.resolve o.treePath ≠ .ok (.file l)

/-- The tree that the run loads, if one loads. -/
def tree? (r : Run) : Option Tree :=
  match Command.ofArguments r.arguments with
  | .compile o => (loadedTree r.files o.treePath).toOption
  | _ => none

/-- Without reuse a run stores in the same place. -/
theorem Stores.plain {r : Run} {o : Options} {l : Location} (h : r.Stores o l) :
    r.plain.Stores o.plain l :=
  ⟨Command.ofArguments_withoutReuse h.command, h.output, h.elsewhere⟩

/-- The output stands in a directory that is there. -/
theorem Stores.directory_mem_routes {r : Run} {o : Options} {l : Location} (h : r.Stores o l) :
    l.directory ∈ r.files.routes := by
  obtain ⟨path, -, hpath⟩ := h.output
  exact (FileSystem.resolve_eq_file hpath).1

/-- The output has the content that the file system was given there. -/
theorem Stores.get?_holding {r : Run} {o : Options} {l : Location} (h : r.Stores o l)
    (content : Option (List UInt8)) : (r.files.holding l content).get? l = content :=
  FileSystem.get?_holding_self h.directory_mem_routes content

/-- A run that stores loads the tree that its options name. -/
theorem tree?_of_stores {r : Run} {o : Options} {l : Location} (h : r.Stores o l) :
    r.tree? = (loadedTree r.files o.treePath).toOption := by
  rw [tree?, h.command]

/-- Reuse does not matter to what is loaded. -/
theorem tree?_plain {r : Run} {o : Options} {l : Location} (h : r.Stores o l) :
    r.plain.tree? = r.tree? := by
  rw [tree?_of_stores h, tree?_of_stores h.plain]
  rfl

/-- The stored snapshot is of no concern to the loading of the tree. -/
theorem loadedTree_holding {r : Run} {o : Options} {l : Location} (h : r.Stores o l)
    (content : Option (List UInt8)) :
    (loadedTree (r.files.holding l content) o.treePath).toOption = r.tree? := by
  rw [tree?_of_stores h]
  have hread := FileSystem.read_holding_eq_ok_iff h.elsewhere content
  unfold loadedTree
  cases hfound : r.files.read o.treePath with
  | ok bytes => rw [(hread bytes).mpr hfound]
  | error e =>
    -- The reason may be another one now, but there is still nothing to be read.
    cases hholding : (r.files.holding l content).read o.treePath with
    | ok bytes =>
      have hok := (hread bytes).mp hholding
      rw [hfound] at hok
      cases hok
    | error e' => rfl

/-- What loads does so whatever the output holds. -/
theorem loadedTree_holding_eq_ok {r : Run} {o : Options} {l : Location} {t : Tree}
    (h : r.Stores o l) (ht : r.tree? = some t) (content : Option (List UInt8)) :
    loadedTree (r.files.holding l content) o.treePath = .ok t := by
  rw [← loadedTree_holding h content] at ht
  cases hfound : loadedTree (r.files.holding l content) o.treePath with
  | ok found =>
    rw [hfound] at ht
    cases ht
    rfl
  | error e =>
    rw [hfound] at ht
    cases ht

variable [Hasher]

/-- What comes of the run if the file at `l` has this content before it: the exit code, and the
content of the file behind it. -/
def result (r : Run) (l : Location) (content : Option (List UInt8)) :
    UInt8 × Option (List UInt8) :=
  let ending := (runToExit system r.arguments).run (.ofFileSystem (r.files.holding l content))
  (ending.1, ending.2.fileSystem.get? l)

/-- The result of a run is told from what its compilation does to the files. -/
theorem result_of_turns {r : Run} {o : Options} {l : Location} {content : Option (List UInt8)}
    {outcome : Outcome} {fs : FileSystem} (hr : r.Stores o l)
    (h : Turns (compile system o) (r.files.holding l content) outcome fs) :
    r.result l content = (outcome.exitCode, fs.get? l) := by
  have hend := turns_runToExit hr.command h (.ofFileSystem (r.files.holding l content)) rfl
  unfold result
  dsimp only
  rw [hend.1, hend.2]

/-- A run that loads no tree fails and leaves the file alone. -/
theorem result_of_tree?_eq_none {r : Run} {o : Options} {l : Location} (hr : r.Stores o l)
    (ht : r.tree? = none) (content : Option (List UInt8)) :
    r.result l content = (1, content) := by
  rw [← loadedTree_holding hr content] at ht
  -- Nothing loads, so the run ends before it looks at the file.
  cases hload : loadedTree (r.files.holding l content) o.treePath with
  | ok t =>
    rw [hload] at ht
    cases ht
  | error e =>
    rw [result_of_turns hr (turns_compile_notLoaded hload), hr.get?_holding]
    rfl

/-- A run that loads a tree comes to what compiling the tree gives, if the file is absent or holds
the snapshot of a tree that the hasher tells from this one. -/
theorem result_of_tree?_eq_some {r : Run} {o : Options} {l : Location} {t : Tree}
    {content : Option (List UInt8)} (hr : r.Stores o l) (ht : r.tree? = some t)
    (hcontent : ∀ bytes, content = some bytes → ∃ u : Tree, bytes = (Snapshot.ofTree u).bytes
      ∧ (u.fingerprint = t.fingerprint → u.code = t.code)) :
    r.result l content
      = ((Outcome.done t.compile.isExecutable).exitCode, some (Snapshot.ofTree t).bytes) := by
  obtain ⟨path, houtput, hpath⟩ := hr.output
  have hresolve := (FileSystem.resolve_holding (l := l) content).mpr hpath
  have hload := loadedTree_holding_eq_ok hr ht content
  by_cases huse : ∃ path s, Usable o t (r.files.holding l content) path s
  · -- The run believes what is stored, which is the snapshot of some `u`, and that of `t` as well.
    obtain ⟨path', s, hs⟩ := huse
    obtain rfl : path' = path := Option.some.inj (hs.output.symm.trans houtput)
    obtain ⟨bytes, hbytes, hread⟩ := ofBytes_of_loadedSnapshot hresolve hs.loaded
    rw [hr.get?_holding] at hbytes
    obtain ⟨u, rfl, hhash⟩ := hcontent bytes hbytes
    obtain ⟨hsame, hexecutable⟩ := Snapshot.ofTree_eq_of_isCurrentFor hread hs.current hhash
    rw [result_of_turns hr (turns_compile_reusing hload hs), hr.get?_holding,
      hexecutable, hbytes, hsame]
  -- Nothing that may be used is stored, so the run compiles and overwrites whatever is there.
  · have hnone : ∀ path s, ¬ Usable o t (r.files.holding l content) path s := by
      intro path s hs
      exact huse ⟨path, s, hs⟩
    have hdirectory : l.directory ∈ (r.files.holding l content).routes := by
      rw [FileSystem.routes_holding]
      exact hr.directory_mem_routes
    rw [result_of_turns hr (turns_compile_storing hload hnone houtput hresolve),
      FileSystem.get?_put_self hdirectory]

end Run

/-! ## One run after another -/

section

variable [Hasher]

/-- The results of runs that are made one after the other, the first one with this content in the
file at `l`. -/
def history (l : Location) : Option (List UInt8) → List Run → List (UInt8 × Option (List UInt8))
  | _, [] => []
  | content, r :: rest =>
    let result := r.result l content
    result :: history l result.2 rest

/-- The hasher tells trees of different codes from each other. -/
def Distinguished (trees : List Tree) : Prop :=
  ∀ t ∈ trees, ∀ u ∈ trees, t.fingerprint = u.fingerprint → t.code = u.code

/-- If there is a stored snapshot, it is that of one of the trees. -/
def Truthful (trees : List Tree) (content : Option (List UInt8)) : Prop :=
  ∀ bytes, content = some bytes → ∃ t ∈ trees, bytes = (Snapshot.ofTree t).bytes

variable {trees : List Tree} {l : Location} {content : Option (List UInt8)}

/-- What a run comes to does not depend on reuse, and after it the file is still truthful. -/
theorem Truthful.result_plain {r : Run} {o : Options} (hcontent : Truthful trees content)
    (htrees : Distinguished trees) (hr : r.Stores o l) (hloads : ∀ t ∈ r.tree?, t ∈ trees) :
    r.plain.result l content = r.result l content
      ∧ Truthful trees (r.result l content).2 := by
  have hplain := Run.tree?_plain hr
  -- A run that loads nothing leaves the file as truthful as it was; any other one leaves the
  -- snapshot of its own tree there.
  cases ht : r.tree? with
  | none =>
    rw [ht] at hplain
    rw [Run.result_of_tree?_eq_none hr ht, Run.result_of_tree?_eq_none hr.plain hplain]
    exact ⟨rfl, hcontent⟩
  | some t =>
    rw [ht] at hplain
    have hmem : t ∈ trees := hloads t ht
    have hstored : ∀ bytes, content = some bytes → ∃ u : Tree, bytes = (Snapshot.ofTree u).bytes
        ∧ (u.fingerprint = t.fingerprint → u.code = t.code) := by
      intro bytes hbytes
      obtain ⟨u, hu, heq⟩ := hcontent bytes hbytes
      exact ⟨u, heq, htrees u hu t hmem⟩
    rw [Run.result_of_tree?_eq_some hr ht hstored,
      Run.result_of_tree?_eq_some hr.plain hplain hstored]
    refine ⟨rfl, ?_⟩
    intro bytes hbytes
    cases hbytes
    exact ⟨t, hmem, rfl⟩

/-- By induction on the runs: the file is truthful before each of them. -/
theorem Truthful.history_eq {runs runs' : List Run} (hcontent : Truthful trees content)
    (htrees : Distinguished trees) (hruns : ∀ r ∈ runs, ∃ o, r.Stores o l)
    (hloads : ∀ r ∈ runs, ∀ t ∈ r.tree?, t ∈ trees)
    (hplain : List.Forall₂ (fun r r' => r' = r ∨ r' = r.plain) runs runs') :
    history l content runs' = history l content runs := by
  induction hplain generalizing content with
  | nil => rfl
  | @cons r r' runs runs' hhead _ ih =>
    obtain ⟨o, hr⟩ := hruns r (List.mem_cons_self ..)
    obtain ⟨hresult, hafter⟩ := hcontent.result_plain htrees hr (hloads r (List.mem_cons_self ..))
    have hsame : r'.result l content = r.result l content := by
      rcases hhead with rfl | rfl
      · rfl
      · exact hresult
    have hrest := ih hafter (fun s hs => hruns s (List.mem_cons_of_mem r hs))
      fun s hs => hloads s (List.mem_cons_of_mem r hs)
    rw [history, history, hsame, hrest]

/-- The trees that runs are about: the one whose snapshot is there at first, and those that the runs
load. -/
def involved (start : Option Tree) (runs : List Run) : List Tree :=
  start.toList ++ runs.filterMap Run.tree?

/-- Runs store their snapshots in one file, in which there is nothing at first, or the snapshot of a
tree. Taking reuse from any of them changes no exit code and no content of the file after a run. A
run that loads no tree fails and leaves the file alone. -/
theorem history_eq_of_plain {start : Option Tree} {runs runs' : List Run}
    (hruns : ∀ r ∈ runs, ∃ o, r.Stores o l) (htrees : Distinguished (involved start runs))
    (hplain : List.Forall₂ (fun r r' => r' = r ∨ r' = r.plain) runs runs') :
    history l (start.map fun t => (Snapshot.ofTree t).bytes) runs'
        = history l (start.map fun t => (Snapshot.ofTree t).bytes) runs
      ∧ ∀ r ∈ runs, r.tree? = none → ∀ content, r.result l content = (1, content) := by
  constructor
  · have hstart : Truthful (involved start runs)
        (start.map fun t => (Snapshot.ofTree t).bytes) := by
      intro bytes hbytes
      obtain ⟨t, ht, heq⟩ := Option.map_eq_some_iff.mp hbytes
      exact ⟨t, List.mem_append_left _ (Option.mem_toList.mpr ht), heq.symm⟩
    refine hstart.history_eq htrees hruns ?_ hplain
    intro r hr t ht
    exact List.mem_append_right _ (List.mem_filterMap.mpr ⟨r, hr, ht⟩)
  · intro r hr ht content
    obtain ⟨o, ho⟩ := hruns r hr
    exact Run.result_of_tree?_eq_none ho ht content

end

/-- Files around a place for snapshots: the program works beside the directory for them, and the
tree has this text. -/
def sampleFiles (text : String) : FileSystem where
  directories := [(["work", "home"], ⟨[]⟩), (["trees", "work", "home"],
    ⟨[("tree.json", Text.Utf8.encode text.toList)]⟩), (["plans", "home"], ⟨[]⟩), (["home"], ⟨[]⟩),
    ([], ⟨[]⟩)]
  workingDirectory := ["work", "home"]
  working_exists := List.mem_cons_self
  parent_exists := by
    simp only [List.map_cons, List.map_nil]
    decide

/-- The place for snapshots. -/
def samplePlace : Location :=
  ⟨["plans", "home"], "plan.bin"⟩

/-- A run with reuse over a tree of this text, and its place for snapshots by this path. -/
def reusingRun (output text : String) : Run where
  arguments := ["trees/tree.json", "--reuse", "--output", output]
  files := sampleFiles text

/-- Where a path leads does not depend on the text of the tree. -/
theorem resolve_sampleFiles {path : String} {l : Location}
    (h : (sampleFiles "").resolve path = .ok (.file l)) (text : String) :
    (sampleFiles text).resolve path = .ok (.file l) :=
  (FileSystem.resolve_eq_file h).2 (sampleFiles text) rfl rfl

/-- The tree stands two directories away from the place for snapshots. -/
theorem resolve_tree_sampleFiles (text : String) :
    (sampleFiles text).resolve "trees/tree.json"
      = .ok (.file ⟨["trees", "work", "home"], "tree.json"⟩) := by
  refine resolve_sampleFiles ?_ text
  decide +kernel

/-- The output is given by a path to the place for snapshots. -/
structure NamesPlace (output : String) : Prop where
  command : Command.ofArguments ["trees/tree.json", "--reuse", "--output", output]
    = .compile ⟨"trees/tree.json", some output, true, false, false⟩
  path : (sampleFiles "").resolve output = .ok (.file samplePlace)

/-- A sample run stores at the place for snapshots, by whatever path that is given. -/
theorem stores_reusingRun {output : String} (h : NamesPlace output) (text : String) :
    (reusingRun output text).Stores ⟨"trees/tree.json", some output, true, false, false⟩
      samplePlace := by
  refine ⟨h.command, ⟨output, rfl, resolve_sampleFiles h.path text⟩, ?_⟩
  show (sampleFiles text).resolve "trees/tree.json" ≠ _
  rw [resolve_tree_sampleFiles]
  decide

/-- A sample run loads the tree of its text. -/
theorem tree?_reusingRun {output : String} (h : NamesPlace output) (text : String) :
    (reusingRun output text).tree? = (loadTree text).toOption := by
  have hread : (reusingRun output text).files.read "trees/tree.json"
      = .ok (Text.Utf8.encode text.toList) :=
    FileSystem.read_eq_ok_iff.mpr ⟨_, resolve_tree_sampleFiles text, rfl⟩
  rw [Run.tree?_of_stores (stores_reusingRun h text), loadedTree, hread]
  dsimp only
  rw [loadTreeBytes, Text.Utf8.decode_encode]
  dsimp only
  rw [String.ofList_toList]

/-- The text of a tree of one operation of this name. -/
def operationText (name : String) : String :=
  "[\"Terminal\",\"\",null,[[\"Terminal\",\"\"],[\"Terminal\",\"\",null,[[\"Terminal\",\"" ++ name
    ++ "\"]]]]]"

/-- The texts of a tree, of no tree, and of a tree that is rejected. -/
def sampleTexts : List String :=
  [operationText "get", "[", "[\"Terminal\",\"\"]"]

/-- A run over each text, and another one over the first, whose path to the place for snapshots
starts at the root. -/
def sampleRuns : List Run :=
  sampleTexts.map (reusingRun "../plans/plan.bin")
    ++ [reusingRun "/home/plans/plan.bin" (operationText "get")]

/-- The sample runs have their texts among those given, and one place for snapshots. -/
theorem exists_of_mem_sampleRuns {r : Run} (h : r ∈ sampleRuns) :
    ∃ output, ∃ text ∈ sampleTexts, r = reusingRun output text ∧ NamesPlace output := by
  rcases List.mem_append.mp h with h | h
  · obtain ⟨text, htext, rfl⟩ := List.mem_map.mp h
    exact ⟨_, text, htext, rfl, rfl, by decide +kernel⟩
  · obtain rfl := List.mem_singleton.mp h
    exact ⟨_, _, List.mem_cons_self, rfl, rfl, by decide +kernel⟩

/-- The sample runs store at one place, by two paths to it, and the one over no tree leaves nothing
there. -/
theorem history_sampleRuns :
    (∀ r ∈ sampleRuns, ∃ o, r.Stores o samplePlace)
      ∧ Distinguished (involved none sampleRuns)
      ∧ history samplePlace none (sampleRuns.map Run.plain) = history samplePlace none sampleRuns
      ∧ (reusingRun "../plans/plan.bin" "[").result samplePlace none = (1, none) := by
  have hruns : ∀ r ∈ sampleRuns, ∃ o, r.Stores o samplePlace := by
    intro r hr
    obtain ⟨output, text, -, rfl, houtput⟩ := exists_of_mem_sampleRuns hr
    exact ⟨_, stores_reusingRun houtput text⟩
  have hloads : ∀ t ∈ involved none sampleRuns,
      t ∈ sampleTexts.filterMap fun text => (loadTree text).toOption := by
    intro t ht
    rw [involved, Option.toList_none, List.nil_append, List.mem_filterMap] at ht
    obtain ⟨r, hr, hrt⟩ := ht
    obtain ⟨output, text, htext, rfl, houtput⟩ := exists_of_mem_sampleRuns hr
    rw [tree?_reusingRun houtput] at hrt
    exact List.mem_filterMap.mpr ⟨text, htext, hrt⟩
  -- There are three texts and one hasher, so the fingerprints can be computed and compared.
  have htold : Distinguished (sampleTexts.filterMap fun text => (loadTree text).toOption) := by
    unfold Distinguished
    decide +kernel
  have htrees : Distinguished (involved none sampleRuns) := fun t ht u hu =>
    htold t (hloads t ht) u (hloads u hu)
  have hplain : List.Forall₂ (fun r r' => r' = r ∨ r' = r.plain) sampleRuns
      (sampleRuns.map Run.plain) :=
    List.forall₂_map_right_iff.mpr (List.forall₂_same.mpr fun r _ => .inr rfl)
  have h := history_eq_of_plain hruns htrees hplain
  refine ⟨hruns, htrees, h.1, h.2 _ ?_ ?_ none⟩
  · exact List.mem_append_left _
      (List.mem_map.mpr ⟨"[", List.mem_cons_of_mem _ List.mem_cons_self, rfl⟩)
  · rw [tree?_reusingRun ⟨rfl, by decide +kernel⟩, ← Option.isNone_iff_eq_none]
    decide +kernel

end Cli

end StepPlan
