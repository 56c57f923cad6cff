import StepPlan.Files.Directory

/-!
# One file among others

A file system in which one file is replaced or taken away (`FileSystem.holding`). Its directories
stay, and which file a path leads to depends on nothing else (`FileSystem.resolve_eq_file`). So what
is read from a path that leads elsewhere stays the same (`FileSystem.read_holding_eq_ok_iff`). Only
the reasons for leading nowhere may change, since a file in the way is named among them.
-/

namespace StepPlan

/-! ## In one directory -/

namespace Directory

/-- The same files without the one of this name. -/
def erase (d : Directory) (name : String) : Directory :=
  ⟨d.files.filter fun f => f.1 != name⟩

/-- The same files, but with this content under the name, or none. -/
def holding (d : Directory) (name : String) : Option (List UInt8) → Directory
  | some bytes => d.put name bytes
  | none => d.erase name

/-- A file that is taken away is not there. -/
theorem get?_erase_self (d : Directory) (name : String) : (d.erase name).get? name = none := by
  rw [get?, List.lookup_eq_none_iff]
  intro f hf
  have hne : (f.1 != name) = true := (List.mem_filter.mp hf).2
  rw [bne_comm] at hne
  simpa using hne

/-- The other files stay when one is taken away. -/
theorem get?_erase_of_ne (d : Directory) {name other : String} (h : other ≠ name) :
    (d.erase name).get? other = d.get? other := by
  -- A file put in place of the erased one is passed by in the search for another.
  have hkey : (other == name) = false := beq_false_of_ne h
  rw [← get?_put_of_ne d [] h, get?, get?, put, erase, List.lookup_cons, hkey]

/-- The content is that which the directory was given. -/
@[simp] theorem get?_holding_self (d : Directory) (name : String) (content : Option (List UInt8)) :
    (d.holding name content).get? name = content := by
  cases content with
  | none => exact get?_erase_self d name
  | some bytes => exact get?_put_self d name bytes

/-- What stands under other names stays. -/
theorem get?_holding_of_ne (d : Directory) {name other : String} (content : Option (List UInt8))
    (h : other ≠ name) : (d.holding name content).get? other = d.get? other := by
  cases content with
  | none => exact get?_erase_of_ne d h
  | some bytes => exact get?_put_of_ne d bytes h

end Directory

namespace FileSystem

/-! ## In a file system -/

/-- A route leads to a directory exactly when it is among those of the directories there. -/
theorem isSome_directory?_iff {fs : FileSystem} {route : List String} :
    (fs.directory? route).isSome = true ↔ route ∈ fs.routes := by
  rw [directory?, List.lookup_isSome_iff, routes, List.mem_map]
  constructor
  · rintro ⟨d, hd, hroute⟩
    exact ⟨d, hd, (eq_of_beq hroute).symm⟩
  · rintro ⟨d, hd, rfl⟩
    exact ⟨d, hd, beq_self_eq_true _⟩

/-- The root is above every directory, and the program works in one. -/
theorem root_mem_routes (fs : FileSystem) : [] ∈ fs.routes := by
  have hup : ∀ route ∈ fs.routes, [] ∈ fs.routes := by
    intro route
    -- Up from any directory, one parent at a time.
    induction route with
    | nil => exact id
    | cons name route ih => exact fun h => ih (fs.parent_exists _ h)
  exact hup _ fs.working_exists

/-- Changing files makes and removes no directory. -/
@[simp] theorem routes_change (fs : FileSystem) (route : List String)
    (f : Directory → Directory) : (fs.change route f).routes = fs.routes :=
  fst_change (fun r d => if r = route then f d else d) fs.directories

/-- Only the directory at the route is changed. -/
theorem directory?_change (fs : FileSystem) (route other : List String)
    (f : Directory → Directory) :
    (fs.change route f).directory? other
      = if other = route then (fs.directory? other).map f else fs.directory? other := by
  unfold directory? change
  dsimp only
  induction fs.directories with
  | nil => split <;> rfl
  | cons d directories ih =>
    obtain ⟨key, files⟩ := d
    rw [List.map_cons, List.lookup_cons, List.lookup_cons]
    by_cases hkey : other = key
    · subst hkey
      simp only [beq_self_eq_true]
      by_cases hroute : other = route
      · rw [if_pos hroute, if_pos hroute, Option.map_some]
      · rw [if_neg hroute, if_neg hroute]
    · rw [beq_eq_false_iff_ne.mpr hkey]
      exact ih

/-- The same files, but with this content at the location, or none. -/
def holding (fs : FileSystem) (l : Location) (content : Option (List UInt8)) : FileSystem :=
  fs.change l.directory fun d => d.holding l.name content

theorem holding_some (fs : FileSystem) (l : Location) (bytes : List UInt8) :
    fs.holding l (some bytes) = fs.put l bytes := rfl

/-- The directories stay, whatever the content. -/
@[simp] theorem routes_holding (fs : FileSystem) (l : Location) (content : Option (List UInt8)) :
    (fs.holding l content).routes = fs.routes :=
  routes_change ..

/-- The content is that which the file system was given, if the directory is there. -/
theorem get?_holding_self {fs : FileSystem} {l : Location} (h : l.directory ∈ fs.routes)
    (content : Option (List UInt8)) : (fs.holding l content).get? l = content := by
  obtain ⟨d, hd⟩ := Option.isSome_iff_exists.mp (isSome_directory?_iff.mpr h)
  rw [get?, holding, directory?_change, if_pos rfl, hd]
  exact Directory.get?_holding_self d l.name content

/-- Put at a location, bytes are found there. -/
theorem get?_put_self {fs : FileSystem} {l : Location} (h : l.directory ∈ fs.routes)
    (bytes : List UInt8) : (fs.put l bytes).get? l = some bytes := by
  rw [← holding_some]
  exact get?_holding_self h (some bytes)

/-- What stands at other locations stays, in the same directory and in others. -/
theorem get?_holding_of_ne (fs : FileSystem) {l other : Location} (content : Option (List UInt8))
    (h : other ≠ l) : (fs.holding l content).get? other = fs.get? other := by
  rw [get?, get?, holding, directory?_change]
  by_cases hroute : other.directory = l.directory
  · have hname : other.name ≠ l.name := by
      intro hname
      cases other
      cases l
      cases hroute
      cases hname
      exact h rfl
    rw [if_pos hroute]
    cases fs.directory? other.directory with
    | none => rfl
    | some d => exact Directory.get?_holding_of_ne d content hname
  · rw [if_neg hroute]

/-! ## Where paths lead -/

/-- Followed from a directory that is there, a path leads to a place in a directory that is there,
and to the same place wherever the same directories are. -/
theorem follow_eq_file {fs : FileSystem} {route components : List String} {l : Location}
    (hroute : route ∈ fs.routes) (h : fs.follow route components = .ok (.file l)) :
    l.directory ∈ fs.routes
      ∧ ∀ fs' : FileSystem, fs'.routes = fs.routes →
        fs'.follow route components = .ok (.file l) := by
  -- By induction on the components, over any directory: each of them stays, goes up, goes down into
  -- a directory that is there, or is the last one and names the place.
  induction components generalizing route with
  | nil => cases h
  | cons name rest ih =>
    unfold follow at h ⊢
    by_cases hstay : name = "" ∨ name = "."
    · simp only [if_pos hstay] at h ⊢
      exact ih hroute h
    · simp only [if_neg hstay] at h ⊢
      by_cases hup : name = ".."
      · simp only [if_pos hup] at h ⊢
        exact ih (fs.parent_exists route hroute) h
      · simp only [if_neg hup] at h ⊢
        by_cases hdown : name :: route ∈ fs.routes
        · rw [if_pos hdown] at h
          obtain ⟨hdirectory, hsame⟩ := ih hdown h
          refine ⟨hdirectory, ?_⟩
          intro fs' hroutes
          rw [hroutes, if_pos hdown]
          exact hsame fs' hroutes
        · rw [if_neg hdown] at h
          cases rest with
          | cons next rest =>
            -- With more components behind it, a name that is no directory never leads to a file.
            dsimp only at h
            split at h <;> cases h
          | nil =>
            dsimp only at h
            split at h
            next => cases h
            next hshort =>
              cases h
              refine ⟨hroute, ?_⟩
              intro fs' hroutes
              rw [hroutes, if_neg hdown]
              exact if_neg hshort

/-- A path leads to a place in a directory that is there, and to the same place wherever the same
directories are, whatever files there are. -/
theorem resolve_eq_file {fs : FileSystem} {path : String} {l : Location}
    (h : fs.resolve path = .ok (.file l)) :
    l.directory ∈ fs.routes
      ∧ ∀ fs' : FileSystem, fs'.routes = fs.routes → fs'.workingDirectory = fs.workingDirectory →
        fs'.resolve path = .ok (.file l) := by
  unfold resolve at h ⊢
  by_cases hnul : path.toList.contains '\x00' = true
  · rw [if_pos hnul] at h
    cases h
  · simp only [if_neg hnul] at h ⊢
    by_cases hempty : path = ""
    · rw [if_pos hempty] at h
      cases h
    · simp only [if_neg hempty] at h ⊢
      by_cases hlong : exceeds pathLimit path = true
      · rw [if_pos hlong] at h
        cases h
      · simp only [if_neg hlong] at h ⊢
        -- From the root or from the working directory, which are both there.
        split at h
        next =>
          obtain ⟨hdirectory, hsame⟩ := follow_eq_file fs.root_mem_routes h
          exact ⟨hdirectory, fun fs' hroutes _ => hsame fs' hroutes⟩
        next =>
          obtain ⟨hdirectory, hsame⟩ := follow_eq_file fs.working_exists h
          refine ⟨hdirectory, ?_⟩
          intro fs' hroutes hworking
          rw [hworking]
          exact hsame fs' hroutes

/-- The content at a location is of no concern to where a path leads. -/
theorem resolve_holding {fs : FileSystem} {path : String} {l other : Location}
    (content : Option (List UInt8)) :
    (fs.holding l content).resolve path = .ok (.file other)
      ↔ fs.resolve path = .ok (.file other) := by
  constructor
  · intro h
    exact (resolve_eq_file h).2 fs (routes_holding fs l content).symm rfl
  · intro h
    exact (resolve_eq_file h).2 _ (routes_holding fs l content) rfl

/-- Bytes are read from a path exactly when it leads to a file that holds them. -/
theorem read_eq_ok_iff {fs : FileSystem} {path : String} {bytes : List UInt8} :
    fs.read path = .ok bytes
      ↔ ∃ l, fs.resolve path = .ok (.file l) ∧ fs.get? l = some bytes := by
  unfold read
  constructor
  · intro h
    split at h
    next => cases h
    next => cases h
    next => cases h
    next l hl =>
      split at h
      next => cases h
      next found hfound =>
        cases h
        exact ⟨l, hl, hfound⟩
  · rintro ⟨l, hl, hbytes⟩
    rw [hl]
    dsimp only
    rw [hbytes]

/-- The content at a location is of no concern to what is read from a path that leads elsewhere. -/
theorem read_holding_eq_ok_iff {fs : FileSystem} {path : String} {l : Location}
    (h : fs.resolve path ≠ .ok (.file l)) (content : Option (List UInt8)) (bytes : List UInt8) :
    (fs.holding l content).read path = .ok bytes ↔ fs.read path = .ok bytes := by
  have helsewhere : ∀ other, fs.resolve path = .ok (.file other) → other ≠ l := by
    rintro other hother rfl
    exact h hother
  rw [read_eq_ok_iff, read_eq_ok_iff]
  constructor
  · rintro ⟨other, hother, hbytes⟩
    have hfs := (resolve_holding content).mp hother
    rw [get?_holding_of_ne fs content (helsewhere other hfs)] at hbytes
    exact ⟨other, hfs, hbytes⟩
  · rintro ⟨other, hother, hbytes⟩
    rw [← get?_holding_of_ne fs content (helsewhere other hother)] at hbytes
    exact ⟨other, (resolve_holding content).mpr hother, hbytes⟩

/-- A path to a place for a file can be written to. -/
theorem write_of_resolve {fs : FileSystem} {path : String} {l : Location} (bytes : List UInt8)
    (h : fs.resolve path = .ok (.file l)) : fs.write path bytes = .ok (fs.put l bytes) := by
  rw [write, h]

end FileSystem

end StepPlan
