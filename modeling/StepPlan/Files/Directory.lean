import StepPlan.Files.Load

/-!
# Directories of files

A system whose files are values. A file system has directories, each with its files, and works in
one of them. A path starts there, or at the root if a slash stands in front, and is followed
component by component: an empty component or `.` stays in the directory, `..` goes up, and a name
leads into the directory of that name. Only the last component may be a file, and it need not be
there yet. Names and whole paths have a greatest length in bytes: a path that is too long leads
nowhere, a name that is too long matters once its directory is reached. There are no links, so a
file stands in one place, and every file can be read and written.
-/

namespace StepPlan

/-- Why a path leads to no file. -/
inductive PathFault where
  | notFound
  | notADirectory
  | isADirectory
  | tooLong
  | nulInside
deriving DecidableEq

/-- The words of the system for a fault. -/
def PathFault.reason : PathFault → String
  | .notFound => "No such file or directory (os error 2)"
  | .notADirectory => "Not a directory (os error 20)"
  | .isADirectory => "Is a directory (os error 21)"
  | .tooLong => "File name too long (os error 36)"
  | .nulInside => "file name contained an unexpected NUL byte"

/-! ## One directory -/

/-- The files of a directory by name. -/
structure Directory where
  files : List (String × List UInt8)

namespace Directory

/-- The file of a name. -/
def get? (d : Directory) (name : String) : Option (List UInt8) :=
  d.files.lookup name

/-- Makes a file hold these bytes. -/
def put (d : Directory) (name : String) (bytes : List UInt8) : Directory :=
  ⟨(name, bytes) :: d.files.filter fun f => f.1 != name⟩

/-- What was put under a name is found there. -/
@[simp] theorem get?_put_self (d : Directory) (name : String) (bytes : List UInt8) :
    (d.put name bytes).get? name = some bytes := by
  simp [get?, put]

/-- What stands under other names stays. -/
theorem get?_put_of_ne (d : Directory) {name other : String} (bytes : List UInt8)
    (h : other ≠ name) : (d.put name bytes).get? other = d.get? other := by
  have hkey : (other == name) = false := by simp [h]
  simp only [get?, put, List.lookup_cons, hkey]
  induction d.files with
  | nil => rfl
  | cons f files ih =>
    obtain ⟨key, value⟩ := f
    by_cases hk : key = name
    · subst hk
      simp [List.lookup_cons, hkey, ih]
    · have hkeep : (key != name) = true := by simp [hk]
      simp only [List.filter_cons, hkeep, if_true, List.lookup_cons, ih]

end Directory

/-! ## Directories beneath each other -/

/-- Directories with their files. A directory is known by its route, the names from it up to the
root: its own name stands first, and the route of the root is empty. -/
structure FileSystem where
  directories : List (List String × Directory)
  /-- The route of the directory in which relative paths start. -/
  workingDirectory : List String
  /-- The program works in a directory that is there. -/
  working_exists : workingDirectory ∈ directories.map Prod.fst
  /-- With a directory the one above it is there. -/
  parent_exists : ∀ route ∈ directories.map Prod.fst, route.tail ∈ directories.map Prod.fst

/-- The place for a file: its directory, by route, and its name. -/
structure Location where
  directory : List String
  name : String
deriving DecidableEq

/-- What stands at a path. -/
inductive Place where
  | directory
  /-- A place for a file, whether or not there is one. -/
  | file (location : Location)
  /-- A name with a slash behind it that is no directory, and why it cannot be entered. -/
  | slashed (fault : PathFault)
deriving DecidableEq

namespace FileSystem

/-- A file system with one directory beneath the root, in which the program works. -/
def ofDirectory (d : Directory) : FileSystem where
  directories := [(["work"], d), ([], ⟨[]⟩)]
  workingDirectory := ["work"]
  working_exists := List.mem_cons_self
  parent_exists := fun _ h => by
    rcases List.mem_cons.mp h with rfl | h
    · exact List.mem_cons_of_mem _ List.mem_cons_self
    · obtain rfl := List.mem_singleton.mp h
      exact List.mem_cons_of_mem _ List.mem_cons_self

/-- The routes of the directories that are there. -/
def routes (fs : FileSystem) : List (List String) :=
  fs.directories.map Prod.fst

/-- The files of the directory at a route. -/
def directory? (fs : FileSystem) (route : List String) : Option Directory :=
  fs.directories.lookup route

/-- The file at a location. -/
def get? (fs : FileSystem) (l : Location) : Option (List UInt8) :=
  (fs.directory? l.directory).bind fun d => d.get? l.name

/-- Changing the files of directories leaves the routes as they are. -/
theorem fst_change (change : List String → Directory → Directory)
    (directories : List (List String × Directory)) :
    (directories.map fun d => (d.1, change d.1 d.2)).map Prod.fst = directories.map Prod.fst := by
  rw [List.map_map]
  rfl

/-- Changes the files of the directory at a route. -/
def change (fs : FileSystem) (route : List String) (f : Directory → Directory) : FileSystem where
  directories := fs.directories.map fun d => (d.1, if d.1 = route then f d.2 else d.2)
  workingDirectory := fs.workingDirectory
  working_exists := by
    rw [fst_change fun r d => if r = route then f d else d]
    exact fs.working_exists
  parent_exists := by
    rw [fst_change fun r d => if r = route then f d else d]
    exact fs.parent_exists

/-- Makes the file at a location hold these bytes. -/
def put (fs : FileSystem) (l : Location) (bytes : List UInt8) : FileSystem :=
  fs.change l.directory fun d => d.put l.name bytes

/-- The greatest length of a name. -/
def nameLimit : Nat := 255

/-- The greatest length of a path. -/
def pathLimit : Nat := 4095

/-- The text takes more bytes than a limit allows. -/
def exceeds (limit : Nat) (s : String) : Bool :=
  limit < s.utf8ByteSize

/-- Why a name in the directory at a route cannot be entered. -/
def entering (fs : FileSystem) (route : List String) (name : String) : PathFault :=
  if exceeds nameLimit name then .tooLong
  else if (fs.get? ⟨route, name⟩).isSome then .notADirectory
  else .notFound

/-- Follows the components of a path from the directory at a route. Above the root there is nothing,
and `..` stays there. -/
def follow (fs : FileSystem) (route : List String) : List String → Except PathFault Place
  | [] => .ok .directory
  | name :: rest =>
    if name = "" ∨ name = "." then follow fs route rest
    else if name = ".." then follow fs route.tail rest
    -- Routes start with the innermost name, so the name goes in front.
    else if name :: route ∈ fs.routes then follow fs (name :: route) rest
    else
      match rest with
      | [] => if exceeds nameLimit name then .error .tooLong else .ok (.file ⟨route, name⟩)
      | more =>
        -- Behind such a name only slashes may stand, and then it is a directory that is asked for.
        if more.all (· == "") then .ok (.slashed (fs.entering route name))
        else .error (fs.entering route name)

/-- Follows a path. -/
def resolve (fs : FileSystem) (path : String) : Except PathFault Place :=
  if path.toList.contains '\x00' then .error .nulInside
  else if path = "" then .error .notFound
  else if exceeds pathLimit path then .error .tooLong
  else
    match (path.toList.splitOn '/').map String.ofList with
    -- A slash in front leads to the root.
    | "" :: rest => follow fs [] rest
    | components => follow fs fs.workingDirectory components

/-- The bytes of the file at a path. A directory can be opened but not read. -/
def read (fs : FileSystem) (path : String) : Except FileError (List UInt8) :=
  match fs.resolve path with
  | .error f | .ok (.slashed f) => .error ⟨.opening, f.reason⟩
  | .ok .directory => .error ⟨.reading, PathFault.isADirectory.reason⟩
  | .ok (.file l) =>
    match fs.get? l with
    | none => .error ⟨.opening, PathFault.notFound.reason⟩
    | some bytes => .ok bytes

/-- The file system in which the file at a path holds these bytes. A slash behind the name asks for
a directory. -/
def write (fs : FileSystem) (path : String) (bytes : List UInt8) : Except FileError FileSystem :=
  match fs.resolve path with
  | .error f => .error ⟨.creating, f.reason⟩
  | .ok .directory | .ok (.slashed _) => .error ⟨.creating, PathFault.isADirectory.reason⟩
  | .ok (.file l) => .ok (fs.put l bytes)

end FileSystem

/-! ## Sessions -/

/-- The files, the output and the log that a program works on. -/
structure Session where
  fileSystem : FileSystem
  output : String
  /-- The log, each entry with a line feed behind it. -/
  log : String

namespace Session

/-- A session over these files, in which nothing has been printed or logged. -/
def ofFileSystem (fs : FileSystem) : Session :=
  ⟨fs, "", ""⟩

/-- A session in a directory with these files. -/
def ofDirectory (d : Directory) : Session :=
  ofFileSystem (.ofDirectory d)

/-- The files of the directory in which the program works. -/
def directory (session : Session) : Directory :=
  (session.fileSystem.directory? session.fileSystem.workingDirectory).getD ⟨[]⟩

/-- The system of a session. -/
def system : System (StateM Session) where
  read path := do
    let session ← get
    return session.fileSystem.read path
  write path bytes := do
    let session ← get
    match session.fileSystem.write path bytes with
    | .ok fs => do
      set { session with fileSystem := fs }
      return .ok ()
    | .error e => return .error e
  print s := modify fun session => { session with output := session.output ++ s }
  log entry := modify fun session => { session with log := session.log ++ entry ++ "\n" }

end Session

end StepPlan
