import Wfey.Conc.WriteOnce
import Wfey.Hwmon

/-!
# What the energy cache holds

A lookup ends at the first monitor of the directory, whether or not this monitor labels the core
(`lookup_first`). What a lookup does find is right, is found for its core only, and stays
(`paths_sound`), whatever the files hold from one call to the next.
-/

namespace Wfey.Hwmon

open Conc.WriteOnce (Fill)
open Stdio
open Function (update update_self update_of_ne)

variable {n : Nat}

/-- The entries of the array. Without an array there are none. -/
def content (paths : Cache n) : Core n → Option (List Char) := paths.getD fun _ => none

section Lookup

variable {files : Files} {core : Core n} {de : Entry}

/-! ## One lookup -/

/-- The label file of the entry parses as `core`. -/
def Labelled (files : Files) (core : Nat) (de : Entry) : Prop :=
  ∃ text, files.text (labelPath de (core + 1)) = some text ∧
    scanLabel (fgets 160 text) = some (core : Int)

/-- A monitor that labels `core`. -/
structure Serves (files : Files) (core : Nat) (de : Entry) : Prop where
  monitor : Monitor files de
  labelled : Labelled files core de

/-- A monitor that labels the core gives the path of its energy file. -/
theorem checkLabel_of_labelled {core : Nat} (h : Labelled files core de) :
    checkLabel files core de = .ok (inputPath de (core + 1)) := by
  obtain ⟨text, htext, hscan⟩ := h
  unfold checkLabel
  rw [htext]
  dsimp only
  rw [hscan]
  simp

/-- And only such a monitor does. -/
theorem labelled_of_checkLabel {core : Nat} {path : List Char}
    (h : checkLabel files core de = .ok path) :
    Labelled files core de ∧ path = inputPath de (core + 1) := by
  unfold checkLabel at h
  split at h
  · cases h
  · next text htext =>
      dsimp only at h
      split at h
      · cases h
      · next ln hscan =>
          split_ifs at h with hln
          cases h
          exact ⟨⟨text, htext, hscan.trans (congrArg some (not_not.mp hln))⟩, rfl⟩

/-- A label that cannot be opened, cannot be parsed or names another core is an error. -/
theorem exists_error_of_not_labelled {core : Nat} (h : ¬ Labelled files core de) :
    ∃ e, checkLabel files core de = .error e := by
  cases hcheck : checkLabel files core de with
  | error e => exact ⟨e, rfl⟩
  | ok path => exact absurd (labelled_of_checkLabel hcheck).1 h

/-- The lookup finds `path`. -/
def Finds (files : Files) (core : Core n) (path : List Char) : Prop :=
  searchRoot files core.val = .ok (some path)

/-- What a lookup finds is the input file of a monitor that labels the core. -/
theorem Finds.serves {path : List Char} (h : Finds files core path) :
    ∃ entries de, files.root = some entries ∧ de ∈ entries ∧ Serves files core.val de ∧
      path = inputPath de (core.val + 1) := by
  unfold Finds searchRoot at h
  split at h
  · cases h
  · next entries hroot =>
      by_cases hmonitor : ∃ de ∈ entries, Monitor files de
      · obtain ⟨before, de, after, rfl, hbefore, hde⟩ := exists_first_monitor hmonitor
        rw [search_append hbefore hde] at h
        cases hcheck : checkLabel files core.val de with
        | error e =>
            rw [hcheck] at h
            cases h
        | ok found =>
            rw [hcheck] at h
            cases h
            obtain ⟨hlabel, hpath⟩ := labelled_of_checkLabel hcheck
            exact ⟨_, de, hroot, by simp, ⟨hde, hlabel⟩, hpath⟩
      · rw [search_of_no_monitor fun de hde hm => hmonitor ⟨de, hde, hm⟩] at h
        cases h

/-- The search is over once it has come to a monitor. -/
theorem searchRoot_append {before after : List Entry} (hroot : files.root = some (before ++ de :: after))
    (hbefore : ∀ x ∈ before, ¬ Monitor files x) (hde : Monitor files de) (core : Nat) :
    searchRoot files core = (checkLabel files core de).map some := by
  unfold searchRoot
  rw [hroot]
  exact search_append hbefore hde core after

/-- The first monitor decides the lookup. -/
theorem finds_append {before after : List Entry} (hroot : files.root = some (before ++ de :: after))
    (hbefore : ∀ x ∈ before, ¬ Monitor files x) (hde : Monitor files de) (path : List Char) :
    Finds files core path ↔ Labelled files core.val de ∧ path = inputPath de (core.val + 1) := by
  unfold Finds
  rw [searchRoot_append hroot hbefore hde]
  constructor
  · intro h
    apply labelled_of_checkLabel
    cases hcheck : checkLabel files core.val de with
    | error e =>
        rw [hcheck] at h
        cases h
    | ok found =>
        rw [hcheck] at h
        cases h
        rfl
  · rintro ⟨hlabel, rfl⟩
    rw [checkLabel_of_labelled hlabel]
    rfl

/-- `wfey_hwmon_joules_cache_path` fills the entry of its core, or does nothing. -/
theorem joulesCachePath_of_finds {paths : Cache n} (hempty : content paths core = none)
    {path : List Char} (h : Finds files core path) :
    joulesCachePath files core paths = update (content paths) core (some path) := by
  unfold Finds at h
  unfold content at hempty ⊢
  unfold joulesCachePath
  dsimp only
  rw [hempty, h]

/-- A search that finds nothing leaves the cache as it was, apart from the allocation. -/
theorem joulesCachePath_of_not_finds (paths : Cache n) (h : ∀ path, ¬ Finds files core path) :
    joulesCachePath files core paths = content paths := by
  unfold content joulesCachePath
  dsimp only
  split
  · rfl
  · split
    · next path hfound => exact absurd hfound (h path)
    · rfl

/-- A path that is there is not searched for again. -/
theorem joulesCachePath_of_some {paths : Cache n} {path : List Char}
    (h : content paths core = some path) : joulesCachePath files core paths = content paths := by
  unfold content at h ⊢
  unfold joulesCachePath
  dsimp only
  rw [h]

end Lookup

/-! ## Several monitors

The lookup ends at the first monitor of the listing. If that one does not label the core, the search
ends there with an error. -/

/-- The same files, with another listing of the root. -/
def Files.listing (files : Files) (entries : List Entry) : Files := { files with root := some entries }

/-- The lookup fills the entry of its core with the path of an entry that serves it. -/
def Stores (files : Files) (core : Core n) (paths : Cache n) (entries : List Entry) : Prop :=
  ∃ de ∈ entries, Serves files core.val de ∧
    joulesCachePath (files.listing entries) core paths =
      update (content paths) core (some (inputPath de (core.val + 1)))

/-- The first monitor of the listing is looked at, and no other. -/
theorem first_monitor_decides (files : Files) {core : Core n} {de : Entry} {paths : Cache n}
    (hempty : content paths core = none) {before after : List Entry}
    (hbefore : ∀ x ∈ before, ¬ Monitor files x) (hde : Monitor files de) :
    (Labelled files core.val de →
      joulesCachePath (files.listing (before ++ de :: after)) core paths =
        update (content paths) core (some (inputPath de (core.val + 1)))) ∧
    (¬ Labelled files core.val de →
      (∃ e, searchRoot (files.listing (before ++ de :: after)) core.val = .error e) ∧
      joulesCachePath (files.listing (before ++ de :: after)) core paths = content paths) := by
  -- which entries are monitors does not depend on the order of the listing
  have hbefore' : ∀ x ∈ before, ¬ Monitor (files.listing (before ++ de :: after)) x :=
    fun x hx hm => hbefore x hx ⟨hm.visible, hm.name⟩
  have hde' : Monitor (files.listing (before ++ de :: after)) de := ⟨hde.visible, hde.name⟩
  have hfinds (path : List Char) : Finds (files.listing (before ++ de :: after)) core path ↔
      Labelled files core.val de ∧ path = inputPath de (core.val + 1) :=
    finds_append rfl hbefore' hde' path
  constructor
  · intro hlabel
    exact joulesCachePath_of_finds hempty ((hfinds _).mpr ⟨hlabel, rfl⟩)
  · intro hlabel
    refine ⟨?_, joulesCachePath_of_not_finds paths fun path hpath => hlabel ((hfinds path).mp hpath).1⟩
    -- the listing changes none of the files the label is read from
    obtain ⟨e, he⟩ : ∃ e, checkLabel (files.listing (before ++ de :: after)) core.val de = .error e :=
      exists_error_of_not_labelled hlabel
    exact ⟨e, by rw [searchRoot_append rfl hbefore' hde', he]; rfl⟩

/-- A core that some monitor labels: the lookup looks at the first monitor of the listing only. If this
one labels the core its path is stored, and otherwise the search ends with an error and stores nothing.
So the path of a monitor that labels the core is stored in every order of the listing exactly if all
monitors do. -/
theorem lookup_first (files : Files) {entries : List Entry} {core : Core n} {paths : Cache n}
    (hempty : content paths core = none) (hserves : ∃ de ∈ entries, Serves files core.val de) :
    (∃ before de after, entries = before ++ de :: after ∧ (∀ x ∈ before, ¬ Monitor files x) ∧
        Monitor files de ∧
        (Labelled files core.val de →
          joulesCachePath (files.listing entries) core paths =
            update (content paths) core (some (inputPath de (core.val + 1)))) ∧
        (¬ Labelled files core.val de →
          (∃ e, searchRoot (files.listing entries) core.val = .error e) ∧
          joulesCachePath (files.listing entries) core paths = content paths)) ∧
      ((∀ entries' : List Entry, entries'.Perm entries → Stores files core paths entries') ↔
        ∀ de ∈ entries, Monitor files de → Labelled files core.val de) := by
  obtain ⟨good, hgood, hgoodserves⟩ := hserves
  refine ⟨?_, fun h de hde hmonitor => ?_, fun h entries' hperm => ?_⟩
  · obtain ⟨before, de, after, rfl, hbefore, hde⟩ :=
      -- there is a monitor, so there is a first one
      exists_first_monitor ⟨good, hgood, hgoodserves.monitor⟩
    exact ⟨before, de, after, rfl, hbefore, hde, first_monitor_decides files hempty hbefore hde⟩
  · -- in the order that starts with `de`, the lookup looks at `de`
    by_contra hlabel
    have hperm : (de :: entries.erase de).Perm entries := (List.perm_cons_erase hde).symm
    obtain ⟨x, -, -, hstored⟩ := h _ hperm
    have hnot : joulesCachePath (files.listing ([] ++ de :: entries.erase de)) core paths =
        content paths :=
      ((first_monitor_decides files hempty (by simp) hmonitor).2 hlabel).2
    rw [List.nil_append] at hnot
    have hsame := congrFun (hstored.symm.trans hnot) core
    rw [update_self, hempty] at hsame
    cases hsame
  · -- in any order the first monitor labels the core, since they all do
    obtain ⟨before, de, after, rfl, hbefore, hde⟩ :=
      exists_first_monitor ⟨good, hperm.mem_iff.mpr hgood, hgoodserves.monitor⟩
    have hlabel : Labelled files core.val de := h de (hperm.mem_iff.mp (by simp)) hde
    exact ⟨de, by simp, ⟨hde, hlabel⟩, (first_monitor_decides files hempty hbefore hde).1 hlabel⟩

/-- Three more entries: one that is hidden and two that are not. -/
def hidden : Entry := ⟨".".toList, by decide, by decide⟩
def hwmon1 : Entry := ⟨"hwmon1".toList, by decide, by decide⟩
def hwmon2 : Entry := ⟨"hwmon2".toList, by decide, by decide⟩

/-- Among the entries are two monitors, which both label core 0, and a disk. -/
def twoMonitors : Files where
  root := some [hidden, hwmon0, hwmon1, hwmon2]
  text path :=
    if path = namePath hwmon0 then some "altra_hwmon\n".toList
    else if path = namePath hwmon1 then some "nvme\n".toList
    else if path = namePath hwmon2 then some "altra_hwmon\n".toList
    else if path = labelPath hwmon0 1 then some "Core Energy 0\n".toList
    else if path = labelPath hwmon2 1 then some "Core Energy 000\n".toList
    else none

theorem serves_hwmon0 : Serves twoMonitors zerothCall.core.val hwmon0 :=
  ⟨⟨by decide, "altra_hwmon\n".toList, by decide, by decide⟩, "Core Energy 0\n".toList, by decide,
    by decide⟩

theorem serves_hwmon2 : Serves twoMonitors zerothCall.core.val hwmon2 :=
  ⟨⟨by decide, "altra_hwmon\n".toList, by decide, by decide⟩, "Core Energy 000\n".toList, by decide,
    by decide⟩

theorem not_monitor_hwmon1 : ¬ Monitor twoMonitors hwmon1 := by
  rintro ⟨-, text, htext, hname⟩
  have hdisk : twoMonitors.text (namePath hwmon1) = some "nvme\n".toList := by decide
  obtain rfl := Option.some.inj (hdisk.symm.trans htext)
  exact absurd hname (by decide)

/-- Whichever of the two monitors comes first; here the disk and the second one do. -/
theorem lookup_first_twoCores :
    Stores twoMonitors zerothCall.core none [hwmon1, hwmon2, hidden, hwmon0] := by
  have hempty : content none zerothCall.core = none := rfl
  have hlisted : ∃ de ∈ [hidden, hwmon0, hwmon1, hwmon2],
      Serves twoMonitors zerothCall.core.val de := ⟨hwmon0, by simp, serves_hwmon0⟩
  have hperm : [hwmon1, hwmon2, hidden, hwmon0].Perm [hidden, hwmon0, hwmon1, hwmon2] := by decide
  refine (lookup_first twoMonitors hempty hlisted).2.mpr (fun de hde hmonitor => ?_) _ hperm
  simp only [List.mem_cons, List.not_mem_nil, or_false] at hde
  obtain rfl | rfl | rfl | rfl := hde
  · exact absurd (by decide : hidden.Hidden) hmonitor.visible
  · exact serves_hwmon0.labelled
  · exact absurd hmonitor not_monitor_hwmon1
  · exact serves_hwmon2.labelled

/-- Two monitors: the first one counts the cores of another socket. -/
def twoSockets : Files where
  root := some [hwmon0, hwmon1]
  text path :=
    if path = namePath hwmon0 then some "altra_hwmon\n".toList
    else if path = namePath hwmon1 then some "altra_hwmon\n".toList
    else if path = labelPath hwmon0 1 then some "Core Energy 80\n".toList
    else if path = labelPath hwmon1 1 then some "Core Energy 0\n".toList
    else none

theorem serves_hwmon1 : Serves twoSockets zerothCall.core.val hwmon1 :=
  ⟨⟨by decide, "altra_hwmon\n".toList, by decide, by decide⟩, "Core Energy 0\n".toList, by decide,
    by decide⟩

theorem monitor_hwmon0 : Monitor twoSockets hwmon0 :=
  ⟨by decide, "altra_hwmon\n".toList, by decide, by decide⟩

theorem not_labelled_hwmon0 : ¬ Labelled twoSockets zerothCall.core.val hwmon0 := by
  rintro ⟨text, htext, hscan⟩
  have hlabel : twoSockets.text (labelPath hwmon0 1) = some "Core Energy 80\n".toList := by decide
  obtain rfl := Option.some.inj (hlabel.symm.trans htext)
  exact absurd hscan (by decide)

/-- The second monitor labels core 0. In this order the lookup of core 0 stores nothing; in the
other order it stores the path. -/
theorem lookup_stops : Serves twoSockets zerothCall.core.val hwmon1 ∧
    joulesCachePath twoSockets zerothCall.core none = (fun _ => none) ∧
    ¬ Stores twoSockets zerothCall.core none [hwmon0, hwmon1] ∧
    Stores twoSockets zerothCall.core none [hwmon1, hwmon0] := by
  have hstops : joulesCachePath (twoSockets.listing [hwmon0, hwmon1]) zerothCall.core none =
      fun _ => none :=
    ((first_monitor_decides twoSockets rfl (List.forall_mem_nil _) monitor_hwmon0).2
      not_labelled_hwmon0).2
  refine ⟨serves_hwmon1, hstops, ?_, hwmon1, by simp, serves_hwmon1, ?_⟩
  · rintro ⟨de, -, -, hstored⟩
    have hsame := congrFun (hstored.symm.trans hstops) zerothCall.core
    rw [update_self] at hsame
    cases hsame
  · exact (first_monitor_decides twoSockets rfl (List.forall_mem_nil _) serves_hwmon1.monitor).1
      serves_hwmon1.labelled

/-! ## Sequences of calls -/

/-- `wfey_hwmon_joules_read` with files that change while it runs: the first lookup finds `files`,
the second `files'`, and the path is opened in `files''`. -/
def joulesReadOver (files files' files'' : Files) (core : Core n) (paths : Cache n) :
    Reading × Cache n :=
  let array :=
    match paths with
    | none => joulesCachePath files core none
    | some array => array
  let path := array core
  let array' := if path = none then joulesCachePath files' core (some array) else array
  (readPath files'' path, some array')

example (files : Files) (core : Core n) (paths : Cache n) :
    joulesReadOver files files files core paths = joulesRead files core paths := rfl

/-- A call, with the files it finds. -/
inductive Invocation (n : Nat) where
  | cachePath (files : Files) (core : Core n)
  | read (files files' files'' : Files) (core : Core n)

def Invocation.core : Invocation n → Core n
  | .cachePath _ core | .read _ _ _ core => core

def Invocation.files : Invocation n → List Files
  | .cachePath files _ => [files]
  | .read files files' _ _ => [files, files']

def Invocation.run (paths : Cache n) : Invocation n → Cache n
  | .cachePath files core => some (joulesCachePath files core paths)
  | .read files files' files'' core => (joulesReadOver files files' files'' core paths).2

/-- One of the lookups of the call finds `path`. -/
def Invocation.Finds (call : Invocation n) (path : List Char) : Prop :=
  ∃ files ∈ call.files, Hwmon.Finds files call.core path

def pathsAfter (calls : List (Invocation n)) : Cache n := calls.foldl Invocation.run none

/-- A call fills its own entry, with something the search has found, or leaves it. -/
theorem joulesCachePath_fill (files : Files) (core : Core n) (paths : Cache n) :
    Fill (Finds files core) core (content paths) (joulesCachePath files core paths) := by
  cases hentry : content paths core with
  | some path =>
      rw [joulesCachePath_of_some hentry]
      exact .same
  | none =>
      by_cases hfinds : ∃ path, Finds files core path
      · obtain ⟨path, hpath⟩ := hfinds
        rw [joulesCachePath_of_finds hentry hpath]
        exact .fill path hentry hpath
      · rw [joulesCachePath_of_not_finds paths (not_exists.mp hfinds)]
        exact .same

/-- The two lookups of a read fill at most one entry. -/
theorem joulesReadOver_fill (files files' files'' : Files) (core : Core n) (paths : Cache n) :
    Fill (fun path => Finds files core path ∨ Finds files' core path) core (content paths)
      (content (joulesReadOver files files' files'' core paths).2) := by
  unfold joulesReadOver
  dsimp only
  cases paths with
  | none =>
      have hfirst := joulesCachePath_fill files core none
      dsimp only
      split_ifs with hnone
      · rw [← hfirst.eq_of_empty hnone]
        exact (joulesCachePath_fill files' core (some _)).imp fun _ => Or.inr
      · exact hfirst.imp fun _ => Or.inl
  | some array =>
      dsimp only
      split_ifs with hnone
      · exact (joulesCachePath_fill files' core (some array)).imp fun _ => Or.inr
      · exact .same

/-- Both kinds of calls do so. -/
theorem Invocation.fill (call : Invocation n) (paths : Cache n) :
    Fill call.Finds call.core (content paths) (content (call.run paths)) := by
  cases call with
  | cachePath files core =>
      refine (joulesCachePath_fill files core paths).imp fun path hpath => ?_
      exact ⟨files, by simp [Invocation.files], hpath⟩
  | read files files' files'' core =>
      refine (joulesReadOver_fill files files' files'' core paths).imp fun path hpath => ?_
      rcases hpath with hpath | hpath
      · exact ⟨files, by simp [Invocation.files], hpath⟩
      · exact ⟨files', by simp [Invocation.files], hpath⟩

theorem pathsAfter_snoc (calls : List (Invocation n)) (call : Invocation n) :
    pathsAfter (calls ++ [call]) = call.run (pathsAfter calls) := by
  simp [pathsAfter]

/-- So each call of a sequence does. -/
theorem pathsAfter_fill (calls : List (Invocation n)) (call : Invocation n) :
    Fill call.Finds call.core (content (pathsAfter calls))
      (content (pathsAfter (calls ++ [call]))) := by
  rw [pathsAfter_snoc]
  exact call.fill _

/-! ## Paths -/

def inputFile (de : Entry) (core : Core n) : List Char :=
  hwmonRootPath ++ '/' :: de.name ++ "/energy".toList ++ decimal (core.val + 1) ++ "_input".toList

theorem inputFile_eq (de : Entry) (core : Core n) :
    inputFile de core = entryPath de (energyFile core "_input".toList) := by
  simp [inputFile, entryPath, energyFile]

/-- A path names its core. -/
theorem inputFile_inj {de de' : Entry} {core core' : Core n}
    (h : inputFile de core = inputFile de' core') : core = core' := by
  rw [inputFile_eq, inputFile_eq] at h
  exact (energyFile_inj (noDigit_cons rfl) (noDigit_cons rfl) (entryPath_inj h).2).1

/-! ## Every sequence of calls

The calls may find different trees, and may be lookups or reads. What is stored is found by one of
them, and never changed afterwards. -/

/-- `call` stored `path` for the core: the entry was empty, and `path` is the input file of an entry
of the root that was a monitor and labelled the core. -/
structure StoredBy (core : Core n) (path : List Char) (pre : List (Invocation n))
    (call : Invocation n) (files : Files) (de : Entry) : Prop where
  forCore : call.core = core
  before : content (pathsAfter pre) core = none
  after : content (pathsAfter (pre ++ [call])) core = some path
  found : files ∈ call.files
  listed : ∃ entries, files.root = some entries ∧ de ∈ entries
  monitor : Monitor files de
  labelled : Labelled files core.val de
  isInput : path = inputFile de core

/-- The laws of the array after the calls. -/
structure PathsSound (calls : List (Invocation n)) : Prop where
  source : ∀ core path, content (pathsAfter calls) core = some path →
    ∃ pre call post files de, calls = pre ++ call :: post ∧ StoredBy core path pre call files de
  distinct : ∀ core core' path, content (pathsAfter calls) core = some path →
    content (pathsAfter calls) core' = some path → core = core'
  stable : ∀ pre post core path, calls = pre ++ post → content (pathsAfter pre) core = some path →
    content (pathsAfter calls) core = some path
  /-- A call changes no entry but that of its core, and none if its lookups fail. -/
  frame : ∀ pre call post, calls = pre ++ call :: post →
    (∀ core, core ≠ call.core →
      content (pathsAfter (pre ++ [call])) core = content (pathsAfter pre) core) ∧
    ((∀ path, ¬ call.Finds path) →
      content (pathsAfter (pre ++ [call])) = content (pathsAfter pre))

/-- Whatever the cache holds was stored by one call of the sequence, found in the tree of that call.
The instance of the write-once rule. -/
theorem stored_by {calls : List (Invocation n)} {core : Core n} {path : List Char}
    (h : content (pathsAfter calls) core = some path) :
    ∃ pre call post files de, calls = pre ++ call :: post ∧
      StoredBy core path pre call files de := by
  obtain ⟨pre, call, post, hcalls, rfl, ⟨files, hfiles, hfinds⟩, hbefore, hafter⟩ :=
    Conc.WriteOnce.source (T := fun calls => content (pathsAfter calls)) (fun _ => rfl)
      pathsAfter_fill h
  obtain ⟨entries, de, hroot, hde, hserves, hpath⟩ := hfinds.serves
  exact ⟨pre, call, post, files, de, hcalls, rfl, hbefore, hafter, hfiles, ⟨entries, hroot, hde⟩,
    hserves.monitor, hserves.labelled, 
      (hpath.trans (inputPath_eq de call.core)).trans (inputFile_eq de call.core).symm⟩

/-- Whatever the calls, and whatever the files hold from one call to the next. -/
theorem paths_sound (calls : List (Invocation n)) : PathsSound calls where
  source _ _ h := stored_by h
  distinct core core' path h h' := by
    obtain ⟨_, _, _, _, de, -, hstored⟩ := stored_by h
    obtain ⟨_, _, _, _, de', -, hstored'⟩ := stored_by h'
    exact inputFile_inj (hstored.isInput.symm.trans hstored'.isInput)
  stable pre post core path hcalls h := by
    subst hcalls
    exact Conc.WriteOnce.stable (T := fun calls => content (pathsAfter calls)) pathsAfter_fill h
  frame pre call post _ := by
    have hfill := pathsAfter_fill pre call
    exact ⟨fun core hne => hfill.other hne, hfill.eq_of_forall_not⟩

end Wfey.Hwmon
