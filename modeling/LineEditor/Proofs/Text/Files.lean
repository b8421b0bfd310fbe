import Mathlib.Algebra.Ring.Nat
import LineEditor.Disk
import LineEditor.Proofs.Text.Alphabet

set_option autoImplicit false
set_option relaxedAutoImplicit false

/-!
# What is written to a file is what is read from it

Lines that have no newline in them are told apart in the bytes of a file, since each of them is
ended by one. A file that has been written is found by its name: the way to its directory leads
through directories only, and none of them is the file.

## Main results

* `LineEditor.splitLines_joinLines`: the lines of the bytes of lines are these lines.
* `LineEditor.Disk.find_writeFile`: a file that has been written has the bytes that were written.
* `LineEditor.Disk.readLines_of_writeLines`: the lines of a file that has been written, and its
  size.
-/

namespace LineEditor

/-! ## Lines in bytes -/

/-- A part that has no ending byte in it and is followed by one comes first. -/
theorem segments_append {ending : UInt8} {part : Line} (h : ending ∉ part) (rest : Line) :
    segments ending (part ++ ending :: rest) = part :: segments ending rest := by
  induction part with
  | nil => simp only [List.nil_append, segments_cons, consByte, if_true]
  | cons b part ih =>
    rw [List.mem_cons, not_or] at h
    have hb : b ≠ ending := Ne.symm h.1
    simp only [List.cons_append, segments_cons, ih h.2, consByte, if_neg hb]

/-- The lines of the bytes of lines are these lines, if none of them has a newline in it. -/
theorem splitLines_joinLines {lines : List Line} (h : ∀ line ∈ lines, line.Over notNewline) :
    splitLines (joinLines lines) = lines := by
  induction lines with
  | nil => rfl
  | cons line lines ih =>
    obtain ⟨hline, hlines⟩ := List.forall_mem_cons.1 h
    have hnewline : newline ∉ line := fun hmem => hline newline hmem rfl
    rw [joinLines, List.flatMap_cons, List.append_assoc, List.singleton_append, splitLines,
      segments_append hnewline]
    exact congrArg (line :: ·) (ih hlines)

/-- The bytes of lines are counted as those of each line and a newline. -/
theorem byteCount_eq_sum (lines : List Line) :
    byteCount lines = (lines.map fun line => line.length + 1).sum := by
  have hfold (n : Nat) : lines.foldl (fun n line => n + line.length + 1) n =
      n + (lines.map fun line => line.length + 1).sum := by
    induction lines generalizing n with
    | nil => rfl
    | cons line lines ih =>
      rw [List.foldl_cons, ih, List.map_cons, List.sum_cons]
      omega
  rw [byteCount, hfold, Nat.zero_add]

/-- As many bytes are written. -/
theorem length_joinLines (lines : List Line) : (joinLines lines).length = byteCount lines := by
  rw [byteCount_eq_sum, joinLines, List.length_flatMap]
  simp only [List.length_append, List.length_singleton]

/-! ## Files in the tree -/

namespace Disk

/-- Entries for other keys do not matter. -/
theorem lookup_filter_ne {path path' : Path} (h : path' ≠ path) (entries : List (Path × Entry)) :
    (entries.filter (·.1 != path)).lookup path' = entries.lookup path' := by
  induction entries with
  | nil => rfl
  | cons entry entries ih =>
    obtain ⟨key, value⟩ := entry
    by_cases hkey : key = path
    · have hne : (path' == key) = false := by simpa [hkey] using h
      rw [List.filter_cons_of_neg (by simpa using hkey), ih, List.lookup_cons, hne]
    · rw [List.filter_cons_of_pos (by simpa using hkey), List.lookup_cons, List.lookup_cons, ih]

/-- An entry that is taken out is not found.

**Proof sketch.** By induction on the entries. -/
theorem lookup_filter_self (path : Path) (entries : List (Path × Entry)) :
    (entries.filter (·.1 != path)).lookup path = none := by
  induction entries with
  | nil => rfl
  | cons entry entries ih =>
    obtain ⟨key, value⟩ := entry
    by_cases hkey : key = path
    · rw [List.filter_cons_of_neg (by simpa using hkey), ih]
    · have hne : (path == key) = false := by simpa using Ne.symm hkey
      rw [List.filter_cons_of_pos (by simpa using hkey), List.lookup_cons, hne, ih]

variable {disk : Disk} {path : Path} {entry : Entry}

/-- An entry that is put somewhere is found there. -/
theorem lookup_put_self (hpath : path ≠ []) :
    Disk.entry? (disk.put path entry) path = some entry := by
  unfold entry? put
  rw [if_neg (by simpa using hpath), List.lookup_append, lookup_filter_self]
  simp

/-- Elsewhere the same is found as before. -/
theorem lookup_put_of_ne {path' : Path} (h : path' ≠ path) :
    Disk.entry? (disk.put path entry) path' = disk.entry? path' := by
  have hne : (path' == path) = false := by simpa using h
  unfold entry? put
  rw [List.lookup_append, lookup_filter_ne h, List.lookup_cons, hne]
  simp

/-- A component leads to the same place as before, unless an entry has been put there.

**Proof sketch.** The step goes to a place of its own, and if an entry is looked up there, it is the
same as before, since none has been put there. -/
theorem step_put {start place : Path} {component : Line} (h : disk.step start component = .ok place)
    (hplace : place ≠ path) : (disk.put path entry).step start component = .ok place := by
  unfold step at h ⊢
  split
  · rwa [if_pos ‹_›] at h
  · rw [if_neg ‹_›] at h
    split
    · rwa [if_pos ‹_›] at h
    · rw [if_neg ‹_›] at h
      split
      · rw [if_pos ‹_›] at h
        cases h
      · rw [if_neg ‹_›] at h
        split at h
        · rename_i hentry
          cases h
          rw [lookup_put_of_ne hplace, if_pos hentry]
        · cases h

/-- Components lead to the same directory as before, since they lead through directories.

**Proof sketch.** By induction on the components. Each place on the way is a directory, and what has
been put somewhere has not been put in the place of a directory. -/
theorem descend_put (hpath : disk.entry? path ≠ some .directory) {start place : Path}
    {components : List Line} (h : disk.descend start components = .ok place) :
    (disk.put path entry).descend start components = .ok place := by
  induction components generalizing start with
  | nil => exact h
  | cons component components ih =>
    unfold descend at h ⊢
    cases hstep : disk.step start component with
    | error e =>
      rw [hstep] at h
      cases h
    | ok next =>
      rw [hstep] at h
      dsimp only at h
      split at h
      · rename_i hdirectory
        -- The entry is not put on the way, since every place on the way is a directory.
        have hne : next ≠ path := fun heq => hpath (heq ▸ hdirectory)
        rw [step_put hstep hne]
        dsimp only
        rw [lookup_put_of_ne hne, if_pos hdirectory]
        exact ih h
      · cases h

/-- A name leads to a place for a file: a directory, and a component that names no directory in
it. -/
structure Leads (disk : Disk) (name : FileName) (start : Path) (component : Line) : Prop where
  /-- The directory. -/
  parent : disk.parent name = .ok start
  /-- The last component of the name. -/
  last : (components name).getLast? = some component
  /-- The name does not ask for a directory. -/
  slash : endsInSlash name = false
  /-- The component is not the directory itself. -/
  ne_dot : component ≠ Line.ofString "."
  /-- It is not the directory that this one is in. -/
  ne_dots : component ≠ Line.ofString ".."
  /-- It is not too long. -/
  length : component.length ≤ maxComponent
  /-- No directory is at the place. -/
  entry : disk.entry? (start ++ [component]) ≠ some .directory

/-- A file that is written replaces what is at its place.

**Proof sketch.** The way to the directory of the file is known, and so is its last component. What
is written is refused if that is a name for a directory, or if a directory is in its place. -/
theorem leads_of_writeFile {disk' : Disk} {name : FileName} {bytes : Array UInt8}
    (h : disk.writeFile name bytes false = .ok disk') :
    ∃ start component, disk.Leads name start component ∧
      disk' = disk.put (start ++ [component]) (.file bytes) := by
  unfold writeFile at h
  cases hparent : disk.parent name with
  | error e =>
    rw [hparent] at h
    cases h
  | ok start =>
    rw [hparent] at h
    cases hlast : (components name).getLast? with
    | none =>
      rw [hlast] at h
      cases h
    | some component =>
      rw [hlast] at h
      simp only [bind, Except.bind, throw, throwThe, MonadExceptOf.throw, pure, Except.pure] at h
      split at h
      · cases h
      · rename_i hname
        simp only [not_or, Bool.not_eq_true] at hname
        split at h
        · cases h
        · rename_i hlength
          have hleads : disk.entry? (start ++ [component]) ≠ some .directory →
              disk.Leads name start component := fun hentry =>
            ⟨hparent, hlast, hname.1, hname.2.1, hname.2.2, Nat.le_of_not_lt hlength, hentry⟩
          refine ⟨start, component, ?_⟩
          cases hentry : disk.entry? (start ++ [component]) with
          | none =>
            rw [hentry] at h hleads
            cases h
            exact ⟨hleads nofun, rfl⟩
          | some entry =>
            rw [hentry] at h hleads
            cases entry with
            | directory => cases h
            | file old =>
              cases h
              exact ⟨hleads (by simp), rfl⟩

/-- What is put at the place of a name is found by the name.

**Proof sketch.** The way to the directory leads there as before, by `descend_put`, and the last
component leads to the place at which the file has just been put. -/
theorem Leads.find_put {name : FileName} {start : Path} {component : Line}
    (h : disk.Leads name start component) (bytes : Array UInt8) :
    (disk.put (start ++ [component]) (.file bytes)).find name = .ok (.file bytes) := by
  have hentry : Disk.entry? (disk.put (start ++ [component]) (.file bytes)) (start ++ [component]) =
      some (.file bytes) := lookup_put_self (by simp)
  have hstep : (disk.put (start ++ [component]) (.file bytes)).step start component =
      .ok (start ++ [component]) := by
    rw [step, if_neg h.ne_dot, if_neg h.ne_dots, if_neg (Nat.not_lt.2 h.length), hentry]
    rfl
  have hparent : (disk.put (start ++ [component]) (.file bytes)).parent name = .ok start := by
    have hparent := h.parent
    unfold Disk.parent at hparent ⊢
    cases hcheck : checkName name with
    | error e =>
      rw [hcheck] at hparent
      cases hparent
    | ok _ =>
      rw [hcheck] at hparent
      exact descend_put h.entry hparent
  unfold find
  rw [hparent, h.last]
  simp only [bind, Except.bind, hstep, hentry, h.slash]
  rfl

/-- **A file that has been written is found** by its name, with the bytes that were written.

**Proof sketch.** It has taken the place of a file or of nothing, so that all directories on the way
to it are still there (`descend_put`). -/
theorem find_writeFile {disk' : Disk} {name : FileName} {bytes : Array UInt8}
    (h : disk.writeFile name bytes false = .ok disk') : disk'.find name = .ok (.file bytes) := by
  obtain ⟨start, component, hleads, rfl⟩ := leads_of_writeFile h
  exact hleads.find_put bytes

/-- **Lines that have been written to a file are read from it**, and its size is the same. -/
theorem readLines_of_writeLines {disk' : Disk} {name : FileName} {lines : List Line} {bytes : Nat}
    (hlines : ∀ line ∈ lines, line.Over notNewline)
    (h : disk.writeLines name lines false = .ok (bytes, disk')) :
    bytes = byteCount lines ∧ disk'.readLines name = .ok (lines, bytes) := by
  unfold writeLines at h
  cases hwrite : disk.writeFile name (joinLines lines).toArray false with
  | error e =>
    rw [hwrite] at h
    cases h
  | ok written =>
    rw [hwrite] at h
    cases h
    refine ⟨rfl, ?_⟩
    rw [readLines, find_writeFile hwrite]
    dsimp only
    rw [List.size_toArray, length_joinLines, splitLines_joinLines hlines]

end Disk

end LineEditor
