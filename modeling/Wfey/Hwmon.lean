import Wfey.Stdio
import Mathlib.Data.List.Induction
import Mathlib.Logic.Function.Basic

/-!
# The energy paths

`wfey_hwmon_joules_read` opens the energy file of a core through a cache of file names, which
`wfey_hwmon_joules_cache_path` fills with one search through `/sys/class/hwmon` for every core. A
call that finds the array of the cache but not the entry of its core fills the entry, and then opens
the null pointer it read before (`transparent_iff`).
-/

namespace Wfey.Hwmon

open Stdio
open Function (update)

/-! ## Files -/

structure Entry where
  name : List Char
  noSlash : '/' ∉ name
  length_le : name.length ≤ 255
  deriving DecidableEq

/-- What the calls of `opendir`, `readdir`, `fopen` and `fread` find. -/
structure Files where
  /-- The entries of `HWMON_ROOT_PATH`, in the order `readdir` returns them, if it can be opened. -/
  root : Option (List Entry)
  /-- The text of the file, if it can be opened. -/
  text : List Char → Option (List Char)

/-- A core as the callers name it: an `int`, and an index of the array. -/
structure Core (n : Nat) where
  val : Nat
  lt : val < n
  /-- `core + 1` is still an `int`. -/
  succ_le : val + 1 ≤ 2147483647
  deriving DecidableEq

def hwmonRootPath : List Char := "/sys/class/hwmon".toList

def joulesHwmonName : List Char := "altra_hwmon".toList

def maxPathLen : Nat := 1024

/-- `HWMON_ROOT_PATH "/%s/name"`. -/
def namePath (de : Entry) : List Char :=
  snprintf maxPathLen (hwmonRootPath ++ '/' :: de.name ++ "/name".toList)

/-- `HWMON_ROOT_PATH "/%s/" JOULES_PATH_LABEL_TEMPLATE`. -/
def labelPath (de : Entry) (n : Nat) : List Char :=
  snprintf maxPathLen
    (hwmonRootPath ++ '/' :: de.name ++ "/energy".toList ++ decimal n ++ "_label".toList)

/-- `HWMON_ROOT_PATH "/%s/" JOULES_PATH_INPUT_TEMPLATE`. -/
def inputPath (de : Entry) (n : Nat) : List Char :=
  snprintf maxPathLen
    (hwmonRootPath ++ '/' :: de.name ++ "/energy".toList ++ decimal n ++ "_input".toList)

/-- `sscanf` with the format `"Core Energy %d"`. -/
def scanLabel (label : List Char) : Option Int :=
  (scanWord "Core".toList label).bind fun label =>
    (scanWord "Energy".toList (scanSpace label)).bind fun label => scanInt (scanSpace label)

/-! ## The cache

The array is allocated by the first call of all. After that each core has an entry of its own. -/

variable {n : Nat}

/-- `wfey_hwmon_joules_paths`: no array yet, or an array with a string in some of its entries. -/
abbrev Cache (n : Nat) := Option (Core n → Option (List Char))

/-- The errors that end the search. Each is reported on `stderr` only. -/
inductive SearchError where
  /-- `could not open`, of the root or of a label. -/
  | couldNotOpen (path : List Char)
  | badLabel (label : List Char)
  /-- `label %s core %d != core %d`. -/
  | otherCore (label : List Char) (ln : Int) (core : Nat)
  deriving DecidableEq

/-- `strncmp(de->d_name, ".", 1) == 0 || strncmp(de->d_name, "..", 2) == 0`. -/
def Entry.Hidden (de : Entry) : Prop := ['.'] <+: de.name ∨ ['.', '.'] <+: de.name

instance (de : Entry) : Decidable de.Hidden := inferInstanceAs (Decidable (_ ∨ _))

/-- The first bytes of the name are `JOULES_HWMON_NAME`. -/
def NameMatches (text : List Char) : Prop := joulesHwmonName <+: text.take 80

instance (text : List Char) : Decidable (NameMatches text) :=
  inferInstanceAs (Decidable (_ <+: _))

/-- The body of the search for an entry whose name matches. -/
def checkLabel (files : Files) (core : Nat) (de : Entry) : Except SearchError (List Char) :=
  match files.text (labelPath de (core + 1)) with
  | none => .error (.couldNotOpen (labelPath de (core + 1)))
  | some text =>
    let label := fgets 160 text
    match scanLabel label with
    | none => .error (.badLabel label)
    | some ln =>
      if ln ≠ core then .error (.otherCore label ln core)
      else .ok (inputPath de (core + 1))

def search (files : Files) (core : Nat) : List Entry → Except SearchError (Option (List Char))
  | [] => .ok none
  | de :: entries =>
    if de.Hidden then search files core entries
    else
      match files.text (namePath de) with
      | none => search files core entries
      | some text =>
        if NameMatches text then (checkLabel files core de).map some
        else search files core entries

/-- The search, from `opendir` on. -/
def searchRoot (files : Files) (core : Nat) : Except SearchError (Option (List Char)) :=
  match files.root with
  | none => .error (.couldNotOpen hwmonRootPath)
  | some entries => search files core entries

def joulesCachePath (files : Files) (core : Core n) (paths : Cache n) : Core n → Option (List Char) :=
  -- a new array is all zero
  let array := paths.getD fun _ => none
  match array core with
  | some _ => array
  | none =>
    match searchRoot files core.val with
    | .ok (some path) => update array core (some path)
    | _ => array

/-- What a call of `wfey_hwmon_joules_read` returns. -/
inductive Reading where
  | value (joules : UInt64)
  /-- `fscanf` has assigned nothing to `joules`. -/
  | indeterminate
  /-- The path given to `fopen` was `NULL`, of which C says nothing. -/
  | nullPath
  deriving DecidableEq

/-- The end of `wfey_hwmon_joules_read`. -/
def readPath (files : Files) : Option (List Char) → Reading
  | none => .nullPath
  | some path =>
    match files.text path with
    | none => .value (-1)
    | some text =>
      match scanU64 text with
      | none => .indeterminate
      | some joules => .value joules

/-- `wfey_hwmon_joules_read`, with the cache it leaves. -/
def joulesRead (files : Files) (core : Core n) (paths : Cache n) : Reading × Cache n :=
  let array :=
    match paths with
    | none => joulesCachePath files core none
    | some array => array
  -- `path` keeps the value it has here
  let path := array core
  let array' := if path = none then joulesCachePath files core (some array) else array
  (readPath files path, some array')

/-- The same without a cache: search, then read. -/
def uncachedRead (files : Files) (core : Core n) : Reading :=
  match searchRoot files core.val with
  | .ok path => readPath files path
  | .error _ => .nullPath

/-! ## Names of files

Every path the search builds is the directory of an entry with a file in it, and fits its buffer: the
name of an entry has at most 255 characters, and the number in a file's name at most ten. As no name has
a slash in it, the path says which entry and which file it belongs to, and the file which core. -/

/-- A file in the directory of an entry. -/
def entryPath (de : Entry) (file : List Char) : List Char :=
  hwmonRootPath ++ '/' :: de.name ++ '/' :: file

/-- The name of a file of the core's channel. -/
def energyFile (core : Core n) (kind : List Char) : List Char :=
  "energy".toList ++ (decimal (core.val + 1) ++ kind)

/-- The first slash after the root ends the name of the entry. -/
theorem takeWhile_name (de : Entry) (rest : List Char) :
    (de.name ++ '/' :: rest).takeWhile (fun c => c ≠ '/') = de.name := by
  rw [List.takeWhile_append_of_pos]
  · simp
  · intro c hc
    rw [decide_eq_true_eq]
    rintro rfl
    exact de.noSlash hc

/-- The directory ends at the last slash, so an entry and a file can be read off the path. -/
theorem entryPath_inj {de de' : Entry} {file file' : List Char}
    (h : entryPath de file = entryPath de' file') : de.name = de'.name ∧ file = file' := by
  unfold entryPath at h
  rw [List.append_assoc, List.append_assoc] at h
  have hrest : de.name ++ '/' :: file = de'.name ++ '/' :: file' :=
    (List.cons.inj (List.append_cancel_left h)).2
  have hname : de.name = de'.name := by
    rw [← takeWhile_name de, hrest, takeWhile_name de']
  rw [hname] at hrest
  exact ⟨hname, (List.cons.inj (List.append_cancel_left hrest)).2⟩

/-- The names of the kernel's files are far from filling the buffer. -/
theorem snprintf_entryPath (de : Entry) {file : List Char} (hfile : file.length ≤ 100) :
    snprintf maxPathLen (entryPath de file) = entryPath de file := by
  have hname := de.length_le
  have hroot : hwmonRootPath.length = 16 := rfl
  apply List.take_of_length_le
  simp only [entryPath, List.length_append, List.length_cons, hroot, maxPathLen]
  omega

/-- And the core can be read off the name of the file. -/
theorem energyFile_inj {core core' : Core n} {kind kind' : List Char} (hkind : NoDigit kind)
    (hkind' : NoDigit kind') (h : energyFile core kind = energyFile core' kind') :
    core = core' ∧ kind = kind' := by
  have hrest := List.append_cancel_left h
  -- the digits end where the kind begins
  have hdecimal : decimal (core.val + 1) = decimal (core'.val + 1) := by
    rw [← (digits_decimal _).takeWhile_append hkind, hrest,
      (digits_decimal _).takeWhile_append hkind']
  rw [hdecimal] at hrest
  have hval := decimal_injective hdecimal
  cases core
  cases core'
  exact ⟨by simpa using hval, List.append_cancel_left hrest⟩

/-- The path of a file of the core's channel, as the templates build it. -/
theorem snprintf_energyFile (de : Entry) (core : Core n) {kind : List Char} (hkind : kind.length ≤ 10) :
    snprintf maxPathLen (hwmonRootPath ++ '/' :: de.name ++ "/energy".toList ++
      decimal (core.val + 1) ++ kind) = entryPath de (energyFile core kind) := by
  have hdigits := length_decimal_le core.succ_le
  have hword : "energy".toList.length = 6 := rfl
  have hsplit : hwmonRootPath ++ '/' :: de.name ++ "/energy".toList ++
      decimal (core.val + 1) ++ kind = entryPath de (energyFile core kind) := by
    have hslash : "/energy".toList = '/' :: "energy".toList := rfl
    unfold entryPath energyFile
    rw [hslash]
    generalize "energy".toList = word
    simp only [List.append_assoc, List.cons_append]
  rw [hsplit]
  apply snprintf_entryPath
  rw [energyFile, List.length_append, List.length_append, hword]
  omega

theorem namePath_eq (de : Entry) : namePath de = entryPath de "name".toList := by
  have hslash : hwmonRootPath ++ '/' :: de.name ++ "/name".toList = entryPath de "name".toList := rfl
  unfold namePath
  rw [hslash]
  exact snprintf_entryPath de (by decide)

theorem labelPath_eq (de : Entry) (core : Core n) :
    labelPath de (core.val + 1) = entryPath de (energyFile core "_label".toList) :=
  snprintf_energyFile de core (by decide)

theorem inputPath_eq (de : Entry) (core : Core n) :
    inputPath de (core.val + 1) = entryPath de (energyFile core "_input".toList) :=
  snprintf_energyFile de core (by decide)

/-! ## A tree with one monitor

The tree that the property speaks of: among the entries of the root, in whatever order and whatever the
others are, one monitor, which labels every core. A search in such a tree finds the file of its core, and
reading it gives the number that is there. -/

/-- A visible entry whose `name` file begins with `JOULES_HWMON_NAME`. -/
structure Monitor (files : Files) (de : Entry) : Prop where
  visible : ¬ de.Hidden
  name : ∃ text, files.text (namePath de) = some text ∧ NameMatches text

/-- `monitor` is the only monitor among the entries, and labels every core. -/
structure Tree (n : Nat) (monitor : Entry) (files : Files) : Prop where
  isMonitor : Monitor files monitor
  listed : ∃ entries, files.root = some entries ∧ monitor ∈ entries ∧
    ∀ de ∈ entries, Monitor files de → de = monitor
  label : ∀ core : Core n, ∃ rest, (rest = [] ∨ rest.head? = some '\n') ∧
    files.text (labelPath monitor (core.val + 1)) =
      some ("Core Energy ".toList ++ decimal core.val ++ rest)

/-- The file of the core's energy begins with the number `joules`. -/
def HoldsJoules (files : Files) (monitor : Entry) (core : Core n) (joules : UInt64) : Prop :=
  ∃ rest, NoDigit rest ∧
    files.text (inputPath monitor (core.val + 1)) = some (decimal joules.toNat ++ rest)

/-- A number ends at the end of its line. -/
theorem noDigit_of_newline {rest : List Char} (h : rest = [] ∨ rest.head? = some '\n') :
    NoDigit rest := by
  intro c hc
  rcases h with rfl | h
  · cases hc
  · obtain rfl : '\n' = c := Option.some.inj (h.symm.trans hc)
    decide

/-- A label in the module's form is read as the number it ends with. -/
theorem scanLabel_append {number rest : List Char} {core : Nat} (h : Digits number core)
    (hcore : core ≤ 2147483647) (hrest : NoDigit rest) :
    scanLabel ("Core Energy ".toList ++ number ++ rest) = some (core : Int) := by
  have hsplit : "Core Energy ".toList ++ number ++ rest =
      "Core".toList ++ (' ' :: ("Energy".toList ++ (' ' :: (number ++ rest)))) := by
    simp
  have hspace (text : List Char) : scanSpace (' ' :: text) = scanSpace text := by
    simp [scanSpace, isSpace]
  rw [hsplit]
  unfold scanLabel
  rw [scanWord_append, Option.bind_some, hspace]
  have henergy : scanSpace ("Energy".toList ++ ' ' :: (number ++ rest)) =
      "Energy".toList ++ ' ' :: (number ++ rest) := by
    rfl
  rw [henergy, scanWord_append, Option.bind_some, hspace, h.scanSpace_append,
    h.scanInt_append hcore hrest]

/-- A label fits the buffer. -/
theorem fgets_label {core : Core n} {rest : List Char}
    (h : rest = [] ∨ rest.head? = some '\n') :
    ∃ rest', NoDigit rest' ∧
      fgets 160 ("Core Energy ".toList ++ decimal core.val ++ rest) =
        "Core Energy ".toList ++ decimal core.val ++ rest' := by
  have hnewline : '\n' ∉ "Core Energy ".toList ++ decimal core.val := by
    intro hmem
    rcases List.mem_append.mp hmem with hmem | hmem
    · exact absurd hmem (by decide)
    · exact absurd (isDigit_of_mem_decimal hmem) (by decide)
  have hlength := length_decimal_le (Nat.le_of_succ_le core.succ_le)
  have hline : (line rest).length ≤ 1 ∧ NoDigit (line rest) := by
    cases rest with
    | nil => exact ⟨by decide, noDigit_of_newline (.inl rfl)⟩
    | cons c rest =>
        obtain rfl : c = '\n' := by simpa using h
        exact ⟨le_refl 1, noDigit_of_newline (.inr rfl)⟩
  refine ⟨line rest, hline.2, ?_⟩
  unfold fgets
  rw [line_append hnewline, List.take_of_length_le]
  have hword : "Core Energy ".toList.length = 12 := rfl
  rw [List.length_append, List.length_append, hword]
  omega

def energyPath (monitor : Entry) (core : Core n) : List Char := inputPath monitor (core.val + 1)

theorem Tree.checkLabel {monitor : Entry} {files : Files} (h : Tree n monitor files)
    (core : Core n) : checkLabel files core.val monitor = .ok (energyPath monitor core) := by
  obtain ⟨rest, hrest, htext⟩ := h.label core
  obtain ⟨rest', hrest', hfgets⟩ := fgets_label hrest
  unfold Hwmon.checkLabel
  rw [htext]
  dsimp only
  rw [hfgets, scanLabel_append (digits_decimal core.val) (Nat.le_of_succ_le core.succ_le) hrest']
  simp [energyPath]

/-- An entry that is no monitor is skipped. -/
theorem search_cons_of_not_monitor {files : Files} {de : Entry} (h : ¬ Monitor files de) (core : Nat)
    (entries : List Entry) : search files core (de :: entries) = search files core entries := by
  rw [search]
  split_ifs with hhidden
  · rfl
  · cases htext : files.text (namePath de) with
    | none => rfl
    | some text =>
        have hname : ¬ NameMatches text := fun hname => h ⟨hhidden, text, htext, hname⟩
        dsimp only
        rw [if_neg hname]

/-- The search ends at the first monitor. -/
theorem search_append {files : Files} {before : List Entry} {de : Entry}
    (hbefore : ∀ x ∈ before, ¬ Monitor files x) (hde : Monitor files de) (core : Nat)
    (after : List Entry) :
    search files core (before ++ de :: after) = (checkLabel files core de).map some := by
  induction before with
  | nil =>
      obtain ⟨hvisible, text, htext, hname⟩ := hde
      rw [List.nil_append, search, if_neg hvisible, htext]
      dsimp only
      rw [if_pos hname]
  | cons x before ih =>
      rw [List.cons_append, search_cons_of_not_monitor (hbefore x List.mem_cons_self)]
      exact ih fun y hy => hbefore y (List.mem_cons_of_mem _ hy)

/-- Entries that are not the monitor are passed over. -/
theorem search_of_no_monitor {files : Files} {entries : List Entry}
    (h : ∀ de ∈ entries, ¬ Monitor files de) (core : Nat) : search files core entries = .ok none := by
  induction entries with
  | nil => rfl
  | cons de entries ih =>
      rw [search_cons_of_not_monitor (h de List.mem_cons_self)]
      exact ih fun x hx => h x (List.mem_cons_of_mem _ hx)

/-- Where there is a monitor, there is a first one. -/
theorem exists_first_monitor {files : Files} {entries : List Entry}
    (h : ∃ de ∈ entries, Monitor files de) :
    ∃ before de after, entries = before ++ de :: after ∧ (∀ x ∈ before, ¬ Monitor files x) ∧
      Monitor files de := by
  induction entries with
  | nil =>
      obtain ⟨de, hde, -⟩ := h
      cases hde
  | cons x entries ih =>
      by_cases hx : Monitor files x
      · exact ⟨[], x, entries, rfl, by simp, hx⟩
      · obtain ⟨de, hmem, hde⟩ := h
        have hne : de ≠ x := by
          rintro rfl
          exact hx hde
        obtain ⟨before, first, after, rfl, hbefore, hfirst⟩ :=
          ih ⟨de, (List.mem_cons.mp hmem).resolve_left hne, hde⟩
        exact ⟨x :: before, first, after, rfl, List.forall_mem_cons.mpr ⟨hx, hbefore⟩, hfirst⟩

/-- Whatever comes first in the directory, the search ends at the monitor. -/
theorem Tree.search {monitor : Entry} {files : Files} (h : Tree n monitor files) (core : Core n)
    {entries : List Entry} (hmem : monitor ∈ entries)
    (honly : ∀ de ∈ entries, Monitor files de → de = monitor) :
    search files core.val entries = .ok (some (energyPath monitor core)) := by
  obtain ⟨before, de, after, rfl, hbefore, hde⟩ :=
    exists_first_monitor ⟨monitor, hmem, h.isMonitor⟩
  obtain rfl : de = monitor := honly de (by simp) hde
  rw [search_append hbefore hde, h.checkLabel core]
  rfl

/-- The one monitor of the tree is found wherever it stands in the listing, and the search ends
there. -/
theorem Tree.searchRoot {monitor : Entry} {files : Files} (h : Tree n monitor files)
    (core : Core n) : searchRoot files core.val = .ok (some (energyPath monitor core)) := by
  obtain ⟨entries, hroot, hmem, honly⟩ := h.listed
  unfold Hwmon.searchRoot
  rw [hroot]
  exact h.search core hmem honly

/-- The file holds a number, which the read gives back. -/
theorem HoldsJoules.readPath {files : Files} {monitor : Entry} {core : Core n} {joules : UInt64}
    (h : HoldsJoules files monitor core joules) :
    readPath files (some (energyPath monitor core)) = .value joules := by
  obtain ⟨rest, hrest, htext⟩ := h
  unfold Hwmon.readPath energyPath
  dsimp only
  rw [htext]
  dsimp only
  rw [scanU64_decimal_append hrest]

/-- Without a cache, every read returns the number in the file. -/
theorem Tree.uncachedRead {monitor : Entry} {files : Files} {core : Core n} {joules : UInt64}
    (h : Tree n monitor files) (hjoules : HoldsJoules files monitor core joules) :
    uncachedRead files core = .value joules := by
  unfold Hwmon.uncachedRead
  rw [h.searchRoot core]
  exact hjoules.readPath

/-! ## Sequences of calls

The path is read out of the array before the call fills it. Only the first call of all, which finds
no array, reads what it has just found. -/

/-- A call of `wfey_hwmon_joules_read`, and the number its core's file holds at the time. -/
structure Call (n : Nat) where
  files : Files
  core : Core n
  joules : UInt64

def cacheAfter (calls : List (Call n)) : Cache n :=
  calls.foldl (fun paths call => (joulesRead call.files call.core paths).2) none

/-- What a call returns that comes after the calls `pre`. -/
def readAfter (pre : List (Call n)) (call : Call n) : Reading :=
  (joulesRead call.files call.core (cacheAfter pre)).1

/-- Every call returns the number in its core's file, as without the cache. -/
def Transparent (calls : List (Call n)) : Prop :=
  ∀ pre call post, calls = pre ++ call :: post →
    readAfter pre call = .value call.joules ∧ readAfter pre call = uncachedRead call.files call.core

/-- The array in which the cores of `called` have their path. -/
def pathsOf (monitor : Entry) (called : List (Core n)) (core : Core n) : Option (List Char) :=
  if core ∈ called then some (energyPath monitor core) else none

/-- The cache after calls for the cores of `called`. -/
def closedForm (monitor : Entry) (called : List (Core n)) : Cache n :=
  if called = [] then none else some (pathsOf monitor called)

/-- A call adds the path of its core. -/
theorem pathsOf_snoc (monitor : Entry) (called : List (Core n)) (core : Core n) :
    pathsOf monitor (called ++ [core]) =
      update (pathsOf monitor called) core (some (energyPath monitor core)) := by
  funext c
  by_cases hc : c = core
  · subst hc
    simp [pathsOf]
  · simp [pathsOf, hc]

/-- A second call with the same core adds nothing. -/
theorem pathsOf_snoc_of_mem {monitor : Entry} {called : List (Core n)} {core : Core n}
    (h : core ∈ called) : pathsOf monitor (called ++ [core]) = pathsOf monitor called := by
  rw [pathsOf_snoc]
  apply Function.update_eq_self_iff.mpr
  simp [pathsOf, h]

variable {monitor : Entry}

/-- Afterwards the array has the path of the core, and what it had before. -/
theorem Tree.joulesCachePath {files : Files} (h : Tree n monitor files) (called : List (Core n))
    (core : Core n) :
    joulesCachePath files core (closedForm monitor called) =
      pathsOf monitor (called ++ [core]) := by
  have harray : (closedForm monitor called).getD (fun _ => none) = pathsOf monitor called := by
    unfold closedForm
    split_ifs with hnil
    · subst hnil
      rfl
    · rfl
  unfold Hwmon.joulesCachePath
  rw [harray]
  dsimp only
  by_cases hcore : core ∈ called
  · rw [pathsOf_snoc_of_mem hcore]
    simp [pathsOf, hcore]
  · have hnone : pathsOf monitor called core = none := if_neg hcore
    rw [hnone, h.searchRoot core, pathsOf_snoc]

/-- With no array, a call searches once for the path that it reads; the array it leaves is the one of
that search, since a second search that finds as little as the first changes nothing. -/
theorem joulesRead_none (files : Files) (core : Core n) :
    joulesRead files core none =
      (uncachedRead files core, some (joulesCachePath files core none)) := by
  unfold joulesRead uncachedRead joulesCachePath
  dsimp only [Option.getD_none, Option.getD_some]
  cases searchRoot files core.val with
  | error e => simp [readPath]
  | ok path =>
      cases path with
      | none => simp
      | some path => simp

/-- A path that was there before the call is read. -/
theorem joulesRead_of_path {files : Files} {core : Core n} {array : Core n → Option (List Char)}
    {path : List Char} (h : array core = some path) :
    joulesRead files core (some array) = (readPath files (some path), some array) := by
  simp [joulesRead, h]

/-- Without one the path is searched for and stored, but the call has already read `NULL`. -/
theorem joulesRead_of_no_path {files : Files} {core : Core n}
    {array : Core n → Option (List Char)} (h : array core = none) :
    joulesRead files core (some array) =
      (.nullPath, some (joulesCachePath files core (some array))) := by
  simp [joulesRead, h, readPath]

/-- A call returns its number unless the array is there and its core's entry is not. -/
theorem Tree.joulesRead {call : Call n} (h : Tree n monitor call.files)
    (hjoules : HoldsJoules call.files monitor call.core call.joules) (called : List (Core n)) :
    joulesRead call.files call.core (closedForm monitor called) =
      (if called = [] ∨ call.core ∈ called then .value call.joules else .nullPath,
        closedForm monitor (called ++ [call.core])) := by
  have hafter : closedForm monitor (called ++ [call.core]) =
      some (pathsOf monitor (called ++ [call.core])) := if_neg (by simp)
  have hpath (cores : List (Core n)) (hmem : call.core ∈ cores) :
      pathsOf monitor cores call.core = some (energyPath monitor call.core) := if_pos hmem
  have hcache := h.joulesCachePath called call.core
  rw [hafter]
  by_cases hnil : called = []
  · subst hnil
    rw [if_pos (.inl rfl)]
    have hcold : closedForm monitor ([] : List (Core n)) = none := rfl
    rw [hcold] at hcache ⊢
    rw [joulesRead_none, hcache, h.uncachedRead hjoules]
  · have hwarm : closedForm monitor called = some (pathsOf monitor called) := if_neg hnil
    rw [hwarm] at hcache ⊢
    by_cases hcore : call.core ∈ called
    · rw [joulesRead_of_path (hpath _ hcore), hjoules.readPath, pathsOf_snoc_of_mem hcore,
        if_pos (.inr hcore)]
    · rw [joulesRead_of_no_path (if_neg hcore), hcache, if_neg (not_or.mpr ⟨hnil, hcore⟩)]

/-- Every call of the list finds the tree of `monitor`, and its number in its core's file. -/
def AllFind (monitor : Entry) (calls : List (Call n)) : Prop :=
  ∀ call ∈ calls, Tree n monitor call.files ∧
    HoldsJoules call.files monitor call.core call.joules

/-- By induction on the calls. The first one creates the array, which is where it differs from all
others. -/
theorem cacheAfter_eq {calls : List (Call n)} (h : AllFind monitor calls) :
    cacheAfter calls = closedForm monitor (calls.map Call.core) := by
  induction calls using List.reverseRecOn with
  | nil => rfl
  | append_singleton calls call ih =>
      obtain ⟨htree, hjoules⟩ := h call (by simp)
      have hpre := ih fun call hmem => h call (List.mem_append_left _ hmem)
      unfold cacheAfter at hpre ⊢
      rw [List.foldl_append, hpre, List.foldl_cons, List.foldl_nil, htree.joulesRead hjoules,
        List.map_append, List.map_singleton]

/-- The first call of all reads the path that it has just found, through the array that it has just
made. -/
theorem readAfter_eq {pre : List (Call n)} {call : Call n} (h : AllFind monitor (pre ++ [call])) :
    readAfter pre call =
      if pre = [] ∨ call.core ∈ pre.map Call.core then .value call.joules else .nullPath := by
  obtain ⟨htree, hjoules⟩ := h call (by simp)
  unfold readAfter
  rw [cacheAfter_eq fun call hmem => h call (List.mem_append_left _ hmem),
    htree.joulesRead hjoules]
  simp

/-- Calls whose cores, after the first call, have all been called before are for one core. -/
theorem same_core_of_called {calls : List (Call n)}
    (h : ∀ pre call post, calls = pre ++ call :: post →
      pre = [] ∨ call.core ∈ pre.map Call.core) :
    ∀ call ∈ calls, ∀ call' ∈ calls, call.core = call'.core := by
  induction calls using List.reverseRecOn with
  | nil =>
      intro call hcall
      cases hcall
  | append_singleton calls last ih =>
      have hsame := ih fun pre call post hcalls => h pre call (post ++ [last]) (by simp [hcalls])
      have hlast (call : Call n) (hcall : call ∈ calls) : last.core = call.core := by
        rcases h calls last [] rfl with rfl | hmem
        · cases hcall
        · obtain ⟨call', hcall', heq⟩ := List.mem_map.mp hmem
          exact heq.symm.trans (hsame call' hcall' call hcall)
      intro call hcall call' hcall'
      rcases List.mem_append.mp hcall with hin | hin <;>
        rcases List.mem_append.mp hcall' with hin' | hin'
      · exact hsame call hin call' hin'
      · rw [List.mem_singleton.mp hin', hlast call hin]
      · rw [List.mem_singleton.mp hin, hlast call' hin']
      · rw [List.mem_singleton.mp hin, List.mem_singleton.mp hin']

/-- A sequence of calls is transparent exactly when all of them are for one core. -/
theorem transparent_iff {calls : List (Call n)} (h : AllFind monitor calls) :
    Transparent calls ↔ ∀ call ∈ calls, ∀ call' ∈ calls, call.core = call'.core := by
  have hfind {pre post : List (Call n)} {call : Call n} (hcalls : calls = pre ++ call :: post) :
      AllFind monitor (pre ++ [call]) := by
    intro call' hmem
    apply h
    rw [hcalls, List.append_cons]
    exact List.mem_append_left _ hmem
  constructor
  · -- a call with a new core after the first one gets `NULL`, so there is none
    intro htrans
    apply same_core_of_called
    intro pre call post hcalls
    have hread := (htrans pre call post hcalls).1
    rw [readAfter_eq (hfind hcalls)] at hread
    by_contra hnew
    rw [if_neg hnew] at hread
    cases hread
  · -- every call is the first one or repeats its core
    intro hsame pre call post hcalls
    obtain ⟨htree, hjoules⟩ := h call (by simp [hcalls])
    have hread : readAfter pre call = .value call.joules := by
      rw [readAfter_eq (hfind hcalls), if_pos]
      cases pre with
      | nil => exact .inl rfl
      | cons first pre =>
          right
          rw [hsame call (by simp [hcalls]) first (by simp [hcalls])]
          simp
    exact ⟨hread, hread.trans (htree.uncachedRead hjoules).symm⟩

/-! ## Two cores -/

/-- The only entry of the example's root. -/
def hwmon0 : Entry := ⟨"hwmon0".toList, by decide, by decide⟩

/-- A monitor of two cores, with the numbers 5 and 7. -/
def twoCores : Files where
  root := some [hwmon0]
  text path :=
    if path = namePath hwmon0 then some "altra_hwmon\n".toList
    else if path = labelPath hwmon0 1 then some "Core Energy 0\n".toList
    else if path = labelPath hwmon0 2 then some "Core Energy 1\n".toList
    else if path = inputPath hwmon0 1 then some "5\n".toList
    else if path = inputPath hwmon0 2 then some "7\n".toList
    else none

theorem tree_twoCores : Tree 2 hwmon0 twoCores where
  isMonitor := ⟨by decide, "altra_hwmon\n".toList, by decide, by decide⟩
  listed := ⟨[hwmon0], rfl, by simp, fun de hde _ => List.mem_singleton.mp hde⟩
  label core := by
    refine ⟨['\n'], .inr rfl, ?_⟩
    obtain ⟨c, hlt, -⟩ := core
    show twoCores.text (labelPath hwmon0 (c + 1)) =
      some ("Core Energy ".toList ++ decimal c ++ ['\n'])
    obtain rfl | rfl : c = 0 ∨ c = 1 := by omega
    · decide
    · decide

/-- A call for core 0, and one for core 1. -/
def zerothCall : Call 2 := ⟨twoCores, ⟨0, by decide, by decide⟩, 5⟩
def firstCall : Call 2 := ⟨twoCores, ⟨1, by decide, by decide⟩, 7⟩

theorem allFind_twoCores {calls : List (Call 2)}
    (h : ∀ call ∈ calls, call = zerothCall ∨ call = firstCall) : AllFind hwmon0 calls := by
  intro call hcall
  have hrest : NoDigit ['\n'] := noDigit_of_newline (.inr rfl)
  obtain rfl | rfl := h call hcall
  · exact ⟨tree_twoCores, ['\n'], hrest, by decide⟩
  · exact ⟨tree_twoCores, ['\n'], hrest, by decide⟩

/-- Two calls for one core. -/
theorem transparent_iff_again : Transparent [zerothCall, zerothCall] :=
  (transparent_iff (allFind_twoCores (by simp))).mpr (by simp)

/-- A call for each core: the second one opens a null pointer. -/
theorem not_transparent :
    AllFind hwmon0 [zerothCall, firstCall] ∧ ¬ Transparent [zerothCall, firstCall] ∧
      readAfter [zerothCall] firstCall = .nullPath := by
  have hfind : AllFind hwmon0 [zerothCall, firstCall] := allFind_twoCores (by simp)
  have hread : readAfter [zerothCall] firstCall = .nullPath := by
    rw [readAfter_eq hfind, if_neg (by decide)]
  refine ⟨hfind, fun htrans => ?_, hread⟩
  have hvalue := (htrans [zerothCall] firstCall [] rfl).1
  rw [hread] at hvalue
  cases hvalue

end Wfey.Hwmon
