import Mathlib

/-!
# Backup and restore of a data directory

`Create` copies the files of a stopped node into a new directory and writes a manifest with the
size and the digest of each. `Restore` copies the files that a manifest lists into an empty data
directory.

A restored directory holds exactly the listed files, with the recorded sizes and digests, and a
backup can always be restored (`restore_create`). But each file is copied into place before it is
checked, and nothing is removed when a check fails: an error leaves the directory empty exactly
when the first file that is listed was not copied either (`restore_all_or_nothing`,
`failed_restore_leaves_file`).
-/

namespace Promtact.Backup

/-! ## Files -/

/-- The names in a directory, with the bytes stored under them. -/
abbrev Directory := AList (fun _ : String => List UInt8)

structure File where
  name : String := ""
  size : Int := 0
  sha256 : String := ""
  deriving DecidableEq

structure Manifest where
  version : Int
  files : List File := []
  deriving DecidableEq

def formatVersion : Int := 1

/-- The manifest as JSON, and the digest of a file in hexadecimal. -/
structure Codec where
  marshal : Manifest → List UInt8
  unmarshal : List UInt8 → Option Manifest
  sum : List UInt8 → String

inductive Error
  | exist
  | notExist
  | noData
  | notEmpty
  | unsupportedManifest
  | invalidName
  | checksumMismatch
  deriving DecidableEq

def Error.text : Error → String
  | .exist => "file already exists"
  | .notExist => "file does not exist"
  | .noData => "backup: no node data found"
  | .notEmpty => "backup: restore destination is not empty"
  | .unsupportedManifest => "backup: unsupported manifest"
  | .invalidName => "backup: invalid file name"
  | .checksumMismatch => "backup: checksum mismatch"

/-- Calls that write to one directory, which may be absent. -/
abbrev DirM := EStateM Error (Option Directory)

theorem bind_eq {α β : Type} (x : DirM α) (f : α → DirM β) (dir : Option Directory) :
    (x >>= f) dir =
      match x dir with
      | .ok a dir' => f a dir'
      | .error e dir' => .error e dir' := by
  show EStateM.bind x f dir = _
  unfold EStateM.bind
  cases x dir with
  | ok a dir' => rfl
  | error e dir' => rfl

def readFile (source : Directory) (name : String) : DirM (List UInt8) :=
  match source.lookup name with
  | none => throw .notExist
  | some data => return data

/-- The destination is opened with `O_EXCL`. -/
def createFile (name : String) (data : List UInt8) : DirM Unit := fun dir =>
  match dir with
  | none => .error .notExist none
  | some d => if name ∈ d then .error .exist (some d) else .ok () (some (d.insert name data))

/-- Copies a file to the same name in the directory. -/
def copyVerified (codec : Codec) (source : Directory) (name : String) : DirM File := do
  let data ← readFile source name
  createFile name data
  return { size := data.length, sha256 := codec.sum data }

/-! ## Create -/

/-- The files of a node. -/
def names : List String := ["raft.wal", "snapshot.bin"]

/-- A file that is not there is left out. -/
def addFile (codec : Codec) (dataDir : Directory) (files : List File) (name : String) :
    DirM (List File) :=
  if name ∈ dataDir then do
    let entry ← copyVerified codec dataDir name
    return files ++ [{ entry with name := name }]
  else return files

def mkdir : DirM Unit := fun dir =>
  match dir with
  | none => .ok () (some ∅)
  | some d => .error .exist (some d)

def writeFile (name : String) (data : List UInt8) : DirM Unit := fun dir =>
  match dir with
  | none => .error .notExist none
  | some d => .ok () (some (d.insert name data))

def create (codec : Codec) (dataDir : Directory) : DirM Unit := do
  mkdir
  let files ← names.foldlM (addFile codec dataDir) []
  if files = [] then throw .noData
  writeFile "manifest.json" (codec.marshal { version := formatVersion, files := files } ++ [10])

/-! ## Restore -/

/-- The manifest of a backup, unless it cannot be read or has another version. -/
def readManifest (codec : Codec) (source : Directory) : DirM Manifest := do
  let data ← readFile source "manifest.json"
  match (codec.unmarshal data).filter (·.version = formatVersion) with
  | none => throw .unsupportedManifest
  | some manifest => return manifest

def restoreFile (codec : Codec) (source : Directory) (entry : File) : DirM Unit := do
  if entry.name ≠ "raft.wal" ∧ entry.name ≠ "snapshot.bin" then throw .invalidName
  let copied ← copyVerified codec source entry.name
  if copied.size ≠ entry.size ∨ copied.sha256 ≠ entry.sha256 then throw .checksumMismatch

def restore (codec : Codec) (source : Directory) : DirM Unit := do
  let dir ← get
  if dir.any (·.entries ≠ []) then throw .notEmpty
  let manifest ← readManifest codec source
  -- `MkdirAll`
  set (some (dir.getD ∅))
  manifest.files.forM (restoreFile codec source)

section One

variable {codec : Codec} {source d : Directory} {entry : File}

/-- The file has the recorded size and digest. -/
def File.Matches (codec : Codec) (entry : File) (data : List UInt8) : Prop :=
  entry.size = data.length ∧ entry.sha256 = codec.sum data

/-- The entry names a file of a node that the backup holds. -/
def File.Copyable (source : Directory) (entry : File) : Prop :=
  entry.name ∈ names ∧ entry.name ∈ source

/-- The ways in which restoring one file ends. -/
inductive Restores (codec : Codec) (source d : Directory) (entry : File) :
    EStateM.Result Error (Option Directory) Unit → Prop
  | refused (e : Error) (hno : ¬ entry.Copyable source) :
    Restores codec source d entry (.error e (some d))
  | taken (hin : entry.name ∈ d) : Restores codec source d entry (.error .exist (some d))
  | corrupt (data : List UInt8) (hcopy : entry.Copyable source)
    (hdata : source.lookup entry.name = some data) (hno : ¬ entry.Matches codec data) :
    Restores codec source d entry (.error .checksumMismatch (some (d.insert entry.name data)))
  | restored (data : List UInt8) (hcopy : entry.Copyable source)
    (hdata : source.lookup entry.name = some data) (hfresh : entry.name ∉ d)
    (hmatches : entry.Matches codec data) :
    Restores codec source d entry (.ok () (some (d.insert entry.name data)))

theorem copyVerified_eq (codec : Codec) (source d : Directory) (name : String) :
    copyVerified codec source name (some d) =
      match source.lookup name with
      | none => .error .notExist (some d)
      | some data =>
        if name ∈ d then .error .exist (some d)
        else .ok { size := data.length, sha256 := codec.sum data } (some (d.insert name data)) := by
  simp only [copyVerified, readFile, bind, EStateM.bind]
  cases source.lookup name with
  | none => rfl
  | some data =>
    by_cases hin : name ∈ d
    · simp only [pure, EStateM.pure, createFile, if_pos hin]
    · simp only [pure, EStateM.pure, createFile, if_neg hin]

theorem restoreFile_restores (codec : Codec) (source d : Directory) (entry : File) :
    Restores codec source d entry (restoreFile codec source entry (some d)) := by
  unfold restoreFile
  by_cases hname : entry.name ≠ "raft.wal" ∧ entry.name ≠ "snapshot.bin"
  · rw [if_pos hname]
    refine .refused .invalidName fun hcopy => ?_
    simpa [names, hname] using hcopy.1
  · have hnames : entry.name ∈ names := by
      simp only [names, List.mem_cons, List.not_mem_nil, or_false]
      exact or_iff_not_imp_left.mpr fun hwal => not_not.mp fun hsnapshot => hname ⟨hwal, hsnapshot⟩
    rw [if_neg hname]
    simp only [bind, EStateM.bind, pure, copyVerified_eq]
    cases hdata : source.lookup entry.name with
    | none =>
      refine .refused .notExist fun hcopy => ?_
      exact AList.lookup_eq_none.mp hdata hcopy.2
    | some data =>
      have hcopy : entry.Copyable source :=
        ⟨hnames, AList.lookup_isSome.mp (by rw [hdata]; rfl)⟩
      by_cases hin : entry.name ∈ d
      · simp only [if_pos hin]
        exact .taken hin
      · simp only [if_neg hin]
        by_cases hbad : (data.length : Int) ≠ entry.size ∨ codec.sum data ≠ entry.sha256
        · rw [if_pos hbad]
          refine .corrupt data hcopy hdata fun hm => ?_
          exact hbad.elim (· hm.1.symm) (· hm.2.symm)
        · rw [if_neg hbad]
          have hgood := not_or.mp hbad
          exact .restored data hcopy hdata hin
            ⟨(not_not.mp hgood.1).symm, (not_not.mp hgood.2).symm⟩

end One

theorem ite_mem_cons {α β : Type} [DecidableEq α] (x y : α) (ys : List α) (a b : β) :
    (if x ∈ ys then a else if x = y then a else b) = if x ∈ y :: ys then a else b := by
  simp only [List.mem_cons]
  grind

section Loop

variable {codec : Codec} {source d : Directory} {entry : File} {entries done : List File}
variable {dir dir' : Option Directory}

/-- The directory holds exactly the listed files, as they are recorded. -/
structure Filled (codec : Codec) (entries : List File) (d : Directory) : Prop where
  named : ∀ name, name ∈ d ↔ ∃ entry ∈ entries, entry.name = name
  recorded : ∀ entry ∈ entries, ∃ data, d.lookup entry.name = some data ∧ entry.Matches codec data

theorem filled_empty (codec : Codec) : Filled codec [] ∅ :=
  ⟨fun name => by simp, fun _ hentry => (nomatch hentry)⟩

/-- One more file under a name that is not taken. -/
theorem Filled.insert (h : Filled codec done d) {data : List UInt8} (hfresh : entry.name ∉ d)
    (hmatches : entry.Matches codec data) :
    Filled codec (done ++ [entry]) (d.insert entry.name data) where
  named name := by
    rw [AList.mem_insert, h.named name]
    simp only [List.mem_append, List.mem_singleton, or_and_right, exists_or, exists_eq_left]
    rw [or_comm, eq_comm]
  recorded other hother := by
    rcases List.mem_append.mp hother with hdone | hlast
    · obtain ⟨old, hold, hm⟩ := h.recorded other hdone
      have hne : other.name ≠ entry.name := by
        intro heq
        exact hfresh ((h.named entry.name).mpr ⟨other, hdone, heq⟩)
      exact ⟨old, by rw [AList.lookup_insert_ne hne, hold], hm⟩
    · rw [List.mem_singleton.mp hlast]
      exact ⟨data, AList.lookup_insert d, hmatches⟩

/-- The loop over the listed files. -/
theorem restoreFiles_cons (codec : Codec) (source : Directory) (entry : File)
    (entries : List File) (dir : Option Directory) :
    (entry :: entries).forM (restoreFile codec source) dir =
      match restoreFile codec source entry dir with
      | .ok _ dir' => entries.forM (restoreFile codec source) dir'
      | .error e dir' => .error e dir' := by
  rw [List.forM_eq_forM, List.forM_cons, bind_eq]
  cases restoreFile codec source entry dir with
  | ok _ dir' => rfl
  | error e dir' => rfl

theorem restoreFiles_ok (h : Filled codec done d)
    (hrun : entries.forM (restoreFile codec source) (some d) = .ok () dir') :
    ∃ d', dir' = some d' ∧ Filled codec (done ++ entries) d' := by
  induction entries generalizing done d with
  | nil =>
    cases hrun
    exact ⟨d, rfl, by rwa [List.append_nil]⟩
  | cons entry entries ih =>
    rw [restoreFiles_cons] at hrun
    have hone := restoreFile_restores codec source d entry
    generalize restoreFile codec source entry (some d) = result at hone hrun
    cases hone with
    | restored data hcopy hdata hfresh hmatches =>
      obtain ⟨d', hd', hfilled⟩ := ih (h.insert hfresh hmatches) hrun
      refine ⟨d', hd', ?_⟩
      rwa [List.append_assoc, List.singleton_append] at hfilled
    | _ => cases hrun

/-- No file is removed. -/
theorem restoreFiles_keep {e : Error}
    (hrun : entries.forM (restoreFile codec source) (some d) = .error e dir') :
    ∃ d', dir' = some d' ∧ ∀ name ∈ d, name ∈ d' := by
  induction entries generalizing d with
  | nil => cases hrun
  | cons entry entries ih =>
    have hinsert : ∀ (data : List UInt8), ∀ name ∈ d, name ∈ d.insert entry.name data :=
      fun data name hname => (AList.mem_insert d).mpr (.inr hname)
    rw [restoreFiles_cons] at hrun
    have hone := restoreFile_restores codec source d entry
    generalize restoreFile codec source entry (some d) = result at hone hrun
    cases hone with
    | refused e hno =>
      cases hrun
      exact ⟨d, rfl, fun _ hname => hname⟩
    | taken hin =>
      cases hrun
      exact ⟨d, rfl, fun _ hname => hname⟩
    | corrupt data hcopy hdata hno =>
      cases hrun
      exact ⟨_, rfl, hinsert data⟩
    | restored data hcopy hdata hfresh hmatches =>
      obtain ⟨d', hd', hkeep⟩ := ih hrun
      exact ⟨d', hd', fun name hname => hkeep name (hinsert data name hname)⟩

/-- The backup holds the file, as it is recorded. -/
def File.Held (codec : Codec) (source : Directory) (entry : File) : Prop :=
  ∃ data, source.lookup entry.name = some data ∧ entry.Matches codec data

theorem restoreFile_held (hname : entry.name ∈ names) {data : List UInt8}
    (hdata : source.lookup entry.name = some data) (hmatches : entry.Matches codec data)
    (hfresh : entry.name ∉ d) :
    restoreFile codec source entry (some d) = .ok () (some (d.insert entry.name data)) := by
  have hone := restoreFile_restores codec source d entry
  generalize restoreFile codec source entry (some d) = result at hone ⊢
  cases hone with
  | refused e hno =>
    exact absurd ⟨hname, AList.lookup_isSome.mp (by rw [hdata]; rfl)⟩ hno
  | taken hin => exact absurd hin hfresh
  | corrupt data' _ hdata' hno =>
    rw [hdata] at hdata'
    cases hdata'
    exact absurd hmatches hno
  | restored data' _ hdata' _ _ =>
    rw [hdata] at hdata'
    cases hdata'
    rfl

/-- A restore of files that are all held. -/
theorem restoreFiles_held (hnames : ∀ entry ∈ entries, entry.name ∈ names)
    (hheld : ∀ entry ∈ entries, entry.Held codec source)
    (hnodup : (entries.map File.name).Nodup) (hfresh : ∀ entry ∈ entries, entry.name ∉ d) :
    ∃ d', entries.forM (restoreFile codec source) (some d) = .ok () (some d') ∧
      ∀ name, d'.lookup name =
        if name ∈ entries.map File.name then source.lookup name else d.lookup name := by
  induction entries generalizing d with
  | nil => exact ⟨d, rfl, fun name => by simp⟩
  | cons entry entries ih =>
    obtain ⟨hnew, hrest⟩ := List.nodup_cons.mp hnodup
    obtain ⟨data, hdata, hmatches⟩ := hheld entry List.mem_cons_self
    obtain ⟨d', hrun, hlookup⟩ := ih (d := d.insert entry.name data)
      (fun other hother => hnames other (List.mem_cons_of_mem entry hother))
      (fun other hother => hheld other (List.mem_cons_of_mem entry hother)) hrest
      (fun other hother hin => by
        rcases (AList.mem_insert d).mp hin with heq | hin
        · exact hnew (heq ▸ List.mem_map_of_mem hother)
        · exact hfresh other (List.mem_cons_of_mem entry hother) hin)
    refine ⟨d', ?_, fun name => ?_⟩
    · rw [restoreFiles_cons, restoreFile_held (hnames entry List.mem_cons_self) hdata hmatches
        (hfresh entry List.mem_cons_self)]
      exact hrun
    · rw [hlookup name, List.map_cons]
      rw [← ite_mem_cons]
      congr 1
      split
      · rename_i heq
        rw [heq, AList.lookup_insert, hdata]
      · rename_i hne
        exact AList.lookup_insert_ne hne

end Loop

section Whole

variable {codec : Codec} {source : Directory} {dir dir' : Option Directory}

/-- The directory is absent or empty. -/
def NoFile (dir : Option Directory) : Prop := ∀ d, dir = some d → ∀ name, name ∉ d

theorem noFile_none : NoFile none := fun _ hd => (nomatch hd)

theorem noFile_empty : NoFile (some ∅) := by
  rintro d ⟨⟩ name
  exact AList.notMem_empty name

theorem not_noFile {d : Directory} {name : String} (hin : name ∈ d) : ¬ NoFile (some d) :=
  fun hno => hno d rfl name hin

theorem NoFile.entries {d : Directory} (h : NoFile (some d)) : d = ∅ := by
  refine AList.ext (List.eq_nil_iff_forall_not_mem.mpr fun pair hpair => ?_)
  exact h d rfl pair.1 (AList.mem_keys.mpr (List.mem_map.mpr ⟨pair, hpair, rfl⟩))

/-- The manifest that a backup is restored from. -/
def accepted (codec : Codec) (source : Directory) : Option Manifest := do
  let data ← source.lookup "manifest.json"
  (codec.unmarshal data).filter (·.version = formatVersion)

theorem readManifest_eq (codec : Codec) (source : Directory) (dir : Option Directory) :
    (∃ e, accepted codec source = none ∧ readManifest codec source dir = .error e dir) ∨
    ∃ manifest, accepted codec source = some manifest ∧
      readManifest codec source dir = .ok manifest dir := by
  simp only [accepted, readManifest, readFile, bind, EStateM.bind]
  cases source.lookup "manifest.json" with
  | none => exact .inl ⟨.notExist, rfl, rfl⟩
  | some data =>
    simp only [Option.bind_some, pure, EStateM.pure]
    cases (codec.unmarshal data).filter (·.version = formatVersion) with
    | none => exact .inl ⟨.unsupportedManifest, rfl, rfl⟩
    | some manifest => exact .inr ⟨manifest, rfl, rfl⟩

/-- A restore into a directory without files. -/
theorem restore_eq (codec : Codec) (source : Directory) (hempty : NoFile dir) :
    (∃ e, accepted codec source = none ∧ restore codec source dir = .error e dir) ∨
    ∃ manifest, accepted codec source = some manifest ∧
      restore codec source dir = manifest.files.forM (restoreFile codec source) (some ∅) := by
  have hdir : dir.any (·.entries ≠ []) = false ∧ dir.getD ∅ = ∅ := by
    cases dir with
    | none => exact ⟨rfl, rfl⟩
    | some d =>
      rw [hempty.entries]
      exact ⟨rfl, rfl⟩
  have hrestore : restore codec source dir =
      match readManifest codec source dir with
      | .ok manifest _ => manifest.files.forM (restoreFile codec source) (some ∅)
      | .error e dir' => .error e dir' := by
    simp only [restore, bind, EStateM.bind, get, getThe, MonadStateOf.get, EStateM.get, hdir.1,
      hdir.2, Bool.false_eq_true, if_false]
    cases readManifest codec source dir with
    | ok manifest dir' => rfl
    | error e dir' => rfl
  rw [hrestore]
  rcases readManifest_eq codec source dir with ⟨e, haccepted, hread⟩ | ⟨manifest, haccepted, hread⟩
  · exact .inl ⟨e, haccepted, by rw [hread]⟩
  · exact .inr ⟨manifest, haccepted, by rw [hread]⟩

/-- The first file that the manifest lists is one that gets copied. -/
def Begins (codec : Codec) (source : Directory) : Prop :=
  ∃ manifest entry rest, accepted codec source = some manifest ∧
    manifest.files = entry :: rest ∧ entry.Copyable source

/-- The files of a failed restore. -/
theorem restoreFiles_error {e : Error} {files : List File}
    (hrun : files.forM (restoreFile codec source) (some ∅) = .error e dir') :
    NoFile dir' ↔ ¬ ∃ entry rest, files = entry :: rest ∧ entry.Copyable source := by
  cases files with
  | nil => cases hrun
  | cons entry entries =>
    rw [restoreFiles_cons] at hrun
    have hone := restoreFile_restores codec source ∅ entry
    generalize restoreFile codec source entry (some ∅) = result at hone hrun
    cases hone with
    | refused e hno =>
      cases hrun
      refine iff_of_true noFile_empty ?_
      rintro ⟨_, _, ⟨⟩, hcopy⟩
      exact hno hcopy
    | taken hin => exact absurd hin (AList.notMem_empty _)
    | corrupt data hcopy hdata hno =>
      cases hrun
      exact iff_of_false (not_noFile ((AList.mem_insert _).mpr (.inl rfl)))
        (not_not.mpr ⟨entry, entries, rfl, hcopy⟩)
    | restored data hcopy hdata hfresh hmatches =>
      obtain ⟨d', rfl, hkeep⟩ := restoreFiles_keep hrun
      exact iff_of_false (not_noFile (hkeep entry.name ((AList.mem_insert _).mpr (.inl rfl))))
        (not_not.mpr ⟨entry, entries, rfl, hcopy⟩)

/-- A restore that returns an error leaves no file exactly when it has not begun to copy. One
that returns without an error leaves the files of the manifest, as they are recorded there. -/
theorem restore_all_or_nothing (hempty : NoFile dir) :
    (∀ e dir', restore codec source dir = .error e dir' →
      (NoFile dir' ↔ ¬ Begins codec source)) ∧
    ∀ dir', restore codec source dir = .ok () dir' →
      ∃ manifest d, accepted codec source = some manifest ∧ dir' = some d ∧
        Filled codec manifest.files d := by
  rcases restore_eq codec source hempty with ⟨e, hnone, hrun⟩ | ⟨manifest, haccepted, hrun⟩
  · rw [hrun]
    refine ⟨?_, fun dir' h => (nomatch h)⟩
    rintro _ _ ⟨⟩
    refine iff_of_true hempty ?_
    rintro ⟨manifest, _, _, haccepted, _⟩
    rw [hnone] at haccepted
    cases haccepted
  · rw [hrun]
    refine ⟨fun e dir' herror => ?_, fun dir' hok => ?_⟩
    · rw [restoreFiles_error herror, Begins, haccepted]
      simp
    · obtain ⟨d, hd, hfilled⟩ := restoreFiles_ok (filled_empty codec) hok
      exact ⟨manifest, d, haccepted, hd, hfilled⟩

end Whole

/-! ## What was backed up -/

section Create

variable {codec : Codec} {dataDir d : Directory} {files : List File} {name : String}

/-- One name: what is noted of it, and what is copied. -/
theorem addFile_eq (codec : Codec) (dataDir : Directory) (files : List File) (hfresh : name ∉ d) :
    ∃ added d', addFile codec dataDir files name (some d) = .ok (files ++ added) (some d') ∧
      added.map File.name = [name].filter (· ∈ dataDir) ∧
      (∀ entry ∈ added, entry.Held codec dataDir) ∧
      ∀ other, d'.lookup other = if other = name then dataDir.lookup other else d.lookup other := by
  unfold addFile
  cases hdata : dataDir.lookup name with
  | none =>
    have habsent := AList.lookup_eq_none.mp hdata
    rw [if_neg habsent]
    refine ⟨[], d, by rw [List.append_nil]; rfl, by simp [habsent], by simp, fun other => ?_⟩
    split
    · rename_i heq
      rw [heq, hdata, AList.lookup_eq_none.mpr hfresh]
    · rfl
  | some data =>
    have hpresent : name ∈ dataDir := AList.lookup_isSome.mp (by rw [hdata]; rfl)
    rw [if_pos hpresent, bind_eq, copyVerified_eq, hdata]
    simp only [if_neg hfresh]
    refine ⟨[⟨name, data.length, codec.sum data⟩], d.insert name data, rfl, by simp [hpresent],
      ?_, fun other => ?_⟩
    · intro entry hentry
      rw [List.mem_singleton.mp hentry]
      exact ⟨data, hdata, rfl, rfl⟩
    · split
      · rename_i heq
        rw [heq, hdata, AList.lookup_insert]
      · rename_i hne
        exact AList.lookup_insert_ne hne

/-- The copies of a list of names, and what is noted of them. -/
theorem addFiles_eq (codec : Codec) (dataDir : Directory) (files : List File) {ns : List String}
    (hnodup : ns.Nodup) (hfresh : ∀ name ∈ ns, name ∉ d) :
    ∃ added d', ns.foldlM (addFile codec dataDir) files (some d) = .ok (files ++ added) (some d') ∧
      added.map File.name = ns.filter (· ∈ dataDir) ∧
      (∀ entry ∈ added, entry.Held codec dataDir) ∧
      ∀ name, d'.lookup name = if name ∈ ns then dataDir.lookup name else d.lookup name := by
  induction ns generalizing files d with
  | nil => exact ⟨[], d, by rw [List.append_nil]; rfl, rfl, by simp, by simp⟩
  | cons first ns ih =>
    obtain ⟨hnew, hrest⟩ := List.nodup_cons.mp hnodup
    obtain ⟨added, d₁, hadd, hmap, hheld, hlookup⟩ :=
      addFile_eq codec dataDir files (hfresh first List.mem_cons_self)
    have hfresh₁ : ∀ name ∈ ns, name ∉ d₁ := by
      intro name hname
      have hne : name ≠ first := fun heq => hnew (heq ▸ hname)
      rw [← AList.lookup_eq_none, hlookup name, if_neg hne, AList.lookup_eq_none]
      exact hfresh name (List.mem_cons_of_mem first hname)
    obtain ⟨added', d', hrun, hmap', hheld', hlookup'⟩ := ih (files ++ added) hrest hfresh₁
    refine ⟨added ++ added', d', ?_, ?_, ?_, fun name => ?_⟩
    · rw [List.foldlM_cons, bind_eq, hadd, ← List.append_assoc]
      exact hrun
    · rw [List.map_append, hmap, hmap', ← List.filter_append, List.singleton_append]
    · exact List.forall_mem_append.mpr ⟨hheld, hheld'⟩
    · rw [hlookup' name, hlookup name, ite_mem_cons]

theorem create_eq (codec : Codec) (hdata : ∃ name ∈ names, name ∈ dataDir) :
    ∃ files copies, create codec dataDir none = .ok () (some (AList.insert "manifest.json"
        (codec.marshal { version := formatVersion, files := files } ++ [10]) copies)) ∧
      files.map File.name = names.filter (· ∈ dataDir) ∧
      (∀ entry ∈ files, entry.Held codec dataDir) ∧
      ∀ name, copies.lookup name = if name ∈ names then dataDir.lookup name else none := by
  obtain ⟨files, copies, hadd, hmap, hheld, hlookup⟩ :=
    addFiles_eq codec dataDir [] (d := ∅) (show names.Nodup by decide)
      (fun name _ => AList.notMem_empty name)
  have hfiles : files ≠ [] := by
    rintro rfl
    obtain ⟨name, hname, hin⟩ := hdata
    have hmem : name ∈ names.filter (· ∈ dataDir) := List.mem_filter.mpr ⟨hname, by simpa using hin⟩
    rw [← hmap] at hmem
    cases hmem
  refine ⟨files, copies, ?_, hmap, hheld, hlookup⟩
  unfold create
  rw [bind_eq]
  simp only [mkdir]
  rw [bind_eq, hadd]
  simp only [List.nil_append, if_neg hfiles]
  rfl

/-- What is backed up can be restored, and comes back as it was. -/
theorem restore_create
    (hjson : ∀ manifest, codec.unmarshal (codec.marshal manifest ++ [10]) = some manifest)
    (hdata : ∃ name ∈ names, name ∈ dataDir) :
    ∃ image d, create codec dataDir none = .ok () (some image) ∧
      restore codec image none = .ok () (some d) ∧
      ∀ name, d.lookup name = if name ∈ names then dataDir.lookup name else none := by
  obtain ⟨files, copies, hcreate, hmap, hheld, hlookup⟩ := create_eq codec hdata
  obtain ⟨image, himage⟩ : ∃ image, image = AList.insert "manifest.json"
    (codec.marshal { version := formatVersion, files := files } ++ [10]) copies := ⟨_, rfl⟩
  have haccepted : accepted codec image = some { version := formatVersion, files := files } := by
    simp [accepted, himage, hjson]
  -- the manifest is not one of the files of a node
  have hsame : ∀ name ∈ names, image.lookup name = dataDir.lookup name := by
    intro name hname
    have hne : name ≠ "manifest.json" := by
      rintro rfl
      exact absurd hname (by decide)
    rw [himage, AList.lookup_insert_ne hne, hlookup name, if_pos hname]
  have hlisted : ∀ name, name ∈ files.map File.name ↔ name ∈ names ∧ name ∈ dataDir := by
    intro name
    rw [hmap, List.mem_filter, decide_eq_true_iff]
  have hnames : ∀ entry ∈ files, entry.name ∈ names := fun entry hentry =>
    ((hlisted entry.name).mp (List.mem_map_of_mem hentry)).1
  have hheld' : ∀ entry ∈ files, entry.Held codec image := by
    intro entry hentry
    obtain ⟨data, hdata, hmatches⟩ := hheld entry hentry
    exact ⟨data, by rw [hsame entry.name (hnames entry hentry), hdata], hmatches⟩
  obtain ⟨d, hrun, hd⟩ := restoreFiles_held (d := ∅) hnames hheld'
    (by rw [hmap]; exact (show names.Nodup by decide).filter _)
    (fun entry _ => AList.notMem_empty entry.name)
  refine ⟨image, d, by rw [hcreate, himage], ?_, fun name => ?_⟩
  · rcases restore_eq codec image noFile_none with ⟨e, hno, _⟩ | ⟨manifest, hmanifest, hrestore⟩
    · rw [haccepted] at hno
      cases hno
    · rw [haccepted] at hmanifest
      cases hmanifest
      rw [hrestore, hrun]
  · rw [hd name, AList.lookup_empty]
    by_cases hname : name ∈ names
    · rw [if_pos hname, hsame name hname]
      split
      · rfl
      · rename_i hin
        exact (AList.lookup_eq_none.mpr fun h => hin ((hlisted name).mpr ⟨hname, h⟩)).symm
    · rw [if_neg hname, if_neg fun hin => hname ((hlisted name).mp hin).1]

end Create

/-! ## Backups of one file -/

/-- A manifest that lists a log of two bytes. -/
def twoBytes (sum : List UInt8 → String) : Codec where
  marshal _ := []
  unmarshal _ := some ⟨formatVersion, [⟨"raft.wal", 2, sum [1, 2]⟩]⟩
  sum := sum

/-- A digest without collisions: the contents themselves. -/
def plain (data : List UInt8) : String := String.ofList (data.map fun b => Char.ofNat b.toNat)

def backupOf (log : List UInt8) : Directory :=
  (AList.singleton "manifest.json" []).insert "raft.wal" log

theorem restore_twoBytes (sum : List UInt8 → String) (log : List UInt8) :
    restore (twoBytes sum) (backupOf log) none =
      restoreFile (twoBytes sum) (backupOf log) ⟨"raft.wal", 2, sum [1, 2]⟩ (some ∅) := by
  rcases restore_eq (twoBytes sum) (backupOf log) noFile_none with
    ⟨e, hno, _⟩ | ⟨manifest, hmanifest, hrestore⟩
  · cases hno
  · cases hmanifest
    rw [hrestore, restoreFiles_cons]
    cases restoreFile (twoBytes sum) (backupOf log) ⟨"raft.wal", 2, sum [1, 2]⟩ (some ∅) with
    | ok _ dir' => rfl
    | error e dir' => rfl

theorem restore_all_or_nothing_twoBytes : ∃ d,
    restore (twoBytes plain) (backupOf [1, 2]) none = .ok () (some d) ∧
    Filled (twoBytes plain) [⟨"raft.wal", 2, plain [1, 2]⟩] d := by
  have hrun : restore (twoBytes plain) (backupOf [1, 2]) none =
      .ok () (some (AList.insert "raft.wal" [1, 2] ∅)) := by
    rw [restore_twoBytes]
    exact restoreFile_held List.mem_cons_self (AList.lookup_insert _) ⟨rfl, rfl⟩
      (AList.notMem_empty _)
  obtain ⟨manifest, d, haccepted, hd, hfilled⟩ := (restore_all_or_nothing noFile_none).2 _ hrun
  cases haccepted
  cases hd
  exact ⟨_, hrun, hfilled⟩

/-- The log in the backup has a byte too many. It is in the data directory when the restore
fails, and a second restore is refused because of it. -/
theorem failed_restore_leaves_file : ∃ d,
    restore (twoBytes plain) (backupOf [1, 2, 3]) none = .error .checksumMismatch (some d) ∧
    d.lookup "raft.wal" = some [1, 2, 3] ∧
    restore (twoBytes plain) (backupOf [1, 2]) (some d) = .error .notEmpty (some d) := by
  refine ⟨AList.insert "raft.wal" [1, 2, 3] ∅, ?_, AList.lookup_insert _, rfl⟩
  rw [restore_twoBytes]
  rfl

end Promtact.Backup
