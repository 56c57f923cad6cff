import StepPlan.Cli.Run
import StepPlan.Proofs.Files.Directory

/-!
# What runs do to the files

`Turns x fs a fs'` says that in a session over the file system `fs`, whatever has been printed and
logged before, the program `x` gives `a` and leaves the file system `fs'`. Programs that are run one
after the other hand their files on (`Turns.bind`). There is one lemma for each part of a run:
printing, logging and reading leave the files as they are, and storing a snapshot changes one of
them.

Main statements: `turns_compile_notLoaded`, `turns_compile_reusing` and `turns_compile_storing`, the
three ways in which a run with a place for its snapshot can go.
-/

namespace StepPlan.Cli

open Session (system)

variable {α β : Type}

/-- Over the file system `fs` the program gives `a` and leaves the file system `fs'`. -/
def Turns (x : StateM Session α) (fs : FileSystem) (a : α) (fs' : FileSystem) : Prop :=
  ∀ s : Session, s.fileSystem = fs → (x.run s).1 = a ∧ (x.run s).2.fileSystem = fs'

/-- A program that is run after another starts from the files that the other leaves. -/
theorem Turns.bind {x : StateM Session α} {f : α → StateM Session β} {fs fs' fs'' : FileSystem}
    {a : α} {b : β} (hx : Turns x fs a fs') (hf : Turns (f a) fs' b fs'') :
    Turns (x >>= f) fs b fs'' := by
  intro s hs
  obtain ⟨ha, hfiles⟩ := hx s hs
  have h := hf (x.run s).2 hfiles
  rw [← ha] at h
  exact h

/-- A value by itself leaves the files as they are. -/
theorem turns_pure (a : α) (fs : FileSystem) : Turns (pure a) fs a fs :=
  fun _ hs => ⟨rfl, hs⟩

/-- Printing leaves the files as they are. -/
theorem turns_print (text : String) (fs : FileSystem) : Turns (system.print text) fs () fs :=
  fun _ hs => ⟨rfl, hs⟩

/-- Logging leaves the files as they are. -/
theorem turns_log (entry : String) (fs : FileSystem) : Turns (system.log entry) fs () fs :=
  fun _ hs => ⟨rfl, hs⟩

/-- Reading gives what the file system holds at the path, and leaves the files as they are. -/
theorem turns_read (path : String) (fs : FileSystem) :
    Turns (system.read path) fs (fs.read path) fs := by
  intro s hs
  subst hs
  exact ⟨rfl, rfl⟩

/-- Writing a file leaves the files that the file system makes of it. -/
theorem turns_write {path : String} {bytes : List UInt8} {fs fs' : FileSystem}
    (h : fs.write path bytes = .ok fs') : Turns (system.write path bytes) fs (.ok ()) fs' := by
  intro s hs
  subst hs
  simp only [system, StateT.run_bind, StateT.run_get, pure_bind, h]
  exact ⟨rfl, rfl⟩

/-! ## Parts of a run -/

/-- Logging the events of compiling a tree leaves the files as they are. -/
theorem turns_logEvents (inDetail : Bool) (events : List Event) (fs : FileSystem) :
    Turns (logEvents system inDetail events) fs () fs := by
  induction events with
  | nil => exact turns_pure () fs
  | cons event events ih =>
    rw [logEvents]
    split
    next => exact (turns_log event.entry fs).bind ih
    next => exact ih

/-- The tree in the file at a path. -/
def loadedTree (fs : FileSystem) (path : String) : Except LoadError Tree :=
  match fs.read path with
  | .ok bytes => loadTreeBytes path bytes
  | .error e => .error (.file path e.reason)

/-- Loading a tree reads its file and changes none. -/
theorem turns_loadTreeFile (path : String) (fs : FileSystem) :
    Turns (loadTreeFile system path) fs (loadedTree fs path) fs := by
  refine (turns_read path fs).bind ?_
  unfold loadedTree
  cases fs.read path with
  | ok bytes => exact turns_pure _ fs
  | error e => exact turns_pure _ fs

/-- The snapshot in the file at a path. -/
def loadedSnapshot (fs : FileSystem) (path : String) : Except StoreError Snapshot :=
  match fs.read path with
  | .error e => .error (.file path e)
  | .ok bytes =>
    match Snapshot.ofBytes bytes with
    | .ok s => .ok s
    | .error e => .error (.notSnapshot e)

/-- A snapshot is fetched from the file that its path leads to. -/
theorem ofBytes_of_loadedSnapshot {fs : FileSystem} {path : String} {l : Location} {s : Snapshot}
    (hpath : fs.resolve path = .ok (.file l)) (h : loadedSnapshot fs path = .ok s) :
    ∃ bytes, fs.get? l = some bytes ∧ Snapshot.ofBytes bytes = .ok s := by
  unfold loadedSnapshot at h
  split at h
  next => cases h
  next bytes hread =>
    obtain ⟨other, hother, hbytes⟩ := FileSystem.read_eq_ok_iff.mp hread
    rw [hpath] at hother
    cases hother
    split at h
    next found hfound =>
      cases h
      exact ⟨bytes, hbytes, hfound⟩
    next => cases h

/-- Fetching a snapshot reads its file and changes none. -/
theorem turns_load (path : String) (fs : FileSystem) :
    Turns (Snapshot.load system path) fs (loadedSnapshot fs path) fs := by
  refine (turns_read path fs).bind ?_
  unfold loadedSnapshot
  cases fs.read path with
  | error e => exact turns_pure _ fs
  | ok bytes =>
    dsimp only
    cases Snapshot.ofBytes bytes with
    | ok s => exact turns_pure _ fs
    | error e => exact turns_pure _ fs

/-- Storing a snapshot puts its bytes at the location that the path leads to. -/
theorem turns_save {path : String} {l : Location} {fs : FileSystem} (s : Snapshot)
    (h : fs.resolve path = .ok (.file l)) :
    Turns (s.save system path) fs (.ok ()) (fs.put l s.bytes) := by
  refine (turns_write (FileSystem.write_of_resolve s.bytes h)).bind ?_
  exact turns_pure _ _

variable [Hasher]

/-! ## Runs -/

/-- A run with these options takes the snapshot stored at `path` in place of compiling the tree. -/
structure Usable (o : Options) (t : Tree) (fs : FileSystem) (path : String) (s : Snapshot) :
    Prop where
  reuse : o.reuse = true
  output : o.output = some path
  loaded : loadedSnapshot fs path = .ok s
  current : s.isCurrentFor t = true

/-- A stored snapshot that may be used is found, and its file stays as it is. -/
theorem turns_reusable_of_usable {o : Options} {t : Tree} {fs : FileSystem} {path : String}
    {s : Snapshot} (h : Usable o t fs path s) :
    Turns (reusable system o t) fs (some (path, s)) fs := by
  unfold reusable
  rw [h.reuse, h.output]
  refine (turns_load path fs).bind ?_
  rw [h.loaded]
  dsimp only
  rw [if_pos h.current]
  exact turns_pure _ fs

/-- If none may be used, none is found: the run may be one without reuse, or there may be nothing
that can be read, or a snapshot of another tree. -/
theorem turns_reusable_of_not_usable {o : Options} {t : Tree} {fs : FileSystem}
    (h : ∀ path s, ¬ Usable o t fs path s) : Turns (reusable system o t) fs none fs := by
  unfold reusable
  split
  next path hreuse houtput =>
    refine (turns_load path fs).bind ?_
    -- A snapshot that loads is out of date, else it could be used; one that does not load may leave
    -- a line in the log.
    cases hloaded : loadedSnapshot fs path with
    | ok s =>
      have hstale : ¬ s.isCurrentFor t = true := fun hcurrent =>
        h path s ⟨hreuse, houtput, hloaded, hcurrent⟩
      dsimp only
      rw [if_neg hstale]
      exact (turns_log _ fs).bind (turns_pure none fs)
    | error e =>
      dsimp only
      split
      next => exact (turns_log _ fs).bind (turns_pure none fs)
      next => exact turns_pure none fs
  next => exact turns_pure none fs

/-- Compiling a tree leaves its snapshot in the output file, whether or not the plan can be
executed. -/
theorem turns_compileAndStore {o : Options} {path : String} {l : Location} {fs : FileSystem}
    (t : Tree) (ho : o.output = some path) (hpath : fs.resolve path = .ok (.file l)) :
    Turns (compileAndStore system o t) fs (.done t.compile.isExecutable)
      (fs.put l (Snapshot.ofTree t).bytes) := by
  unfold compileAndStore
  refine (turns_logEvents o.debug _ fs).bind ?_
  refine (turns_print _ fs).bind ?_
  rw [ho]
  refine (turns_save _ hpath).bind ?_
  exact (turns_print _ _).bind (turns_pure _ _)

/-- A tree that does not load ends the run. -/
theorem turns_compile_notLoaded {o : Options} {fs : FileSystem} {e : LoadError}
    (h : loadedTree fs o.treePath = .error e) : Turns (compile system o) fs (.notLoaded e) fs := by
  refine (turns_loadTreeFile o.treePath fs).bind ?_
  rw [h]
  exact turns_pure _ fs

/-- Once the tree is loaded, the run depends on whether there is a snapshot to be used. -/
theorem turns_compile_loaded {o : Options} {t : Tree} {fs fs' : FileSystem} {outcome : Outcome}
    {found : Option (String × Snapshot)} (ht : loadedTree fs o.treePath = .ok t)
    (hfound : Turns (reusable system o t) fs found fs)
    (hrest : Turns (match found with
      | some (path, s) => do
        system.print (reuseText path s)
        return .done s.error.isNone
      | none => compileAndStore system o t) fs outcome fs') :
    Turns (compile system o) fs outcome fs' := by
  refine (turns_loadTreeFile o.treePath fs).bind ?_
  rw [ht]
  dsimp only
  split
  next => exact (turns_print _ fs).bind (hfound.bind hrest)
  next => exact hfound.bind hrest

/-- With a snapshot to be used, the run takes its word for it and stores nothing. -/
theorem turns_compile_reusing {o : Options} {t : Tree} {fs : FileSystem} {path : String}
    {s : Snapshot} (ht : loadedTree fs o.treePath = .ok t) (hs : Usable o t fs path s) :
    Turns (compile system o) fs (.done s.error.isNone) fs := by
  refine turns_compile_loaded ht (turns_reusable_of_usable hs) ?_
  exact (turns_print _ fs).bind (turns_pure _ fs)

/-- Without one, the run compiles the tree and stores its snapshot. -/
theorem turns_compile_storing {o : Options} {t : Tree} {fs : FileSystem} {path : String}
    {l : Location} (ht : loadedTree fs o.treePath = .ok t)
    (hs : ∀ path s, ¬ Usable o t fs path s) (ho : o.output = some path)
    (hpath : fs.resolve path = .ok (.file l)) :
    Turns (compile system o) fs (.done t.compile.isExecutable)
      (fs.put l (Snapshot.ofTree t).bytes) := by
  refine turns_compile_loaded ht (turns_reusable_of_not_usable hs) ?_
  exact turns_compileAndStore t ho hpath

/-- The exit code is that of the outcome; saying why a run has failed touches no file. -/
theorem turns_runToExit {arguments : List String} {o : Options} {outcome : Outcome}
    {fs fs' : FileSystem} (ho : Command.ofArguments arguments = .compile o)
    (h : Turns (compile system o) fs outcome fs') :
    Turns (runToExit system arguments) fs outcome.exitCode fs' := by
  unfold runToExit run
  rw [ho]
  refine h.bind ?_
  -- Only an outcome with a message logs it.
  split
  next => exact (turns_log _ fs').bind (turns_pure _ fs')
  next => exact turns_pure _ fs'

end StepPlan.Cli
