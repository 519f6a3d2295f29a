import Wfey.LogPath
import Mathlib.Data.List.ProdSigma
import Mathlib.Data.List.Nodup

/-!
# The sweep of `full_run.sh`

`full_run.sh` calls `run_wfey.sh` with every combination of the arrays of `env.sh`, again and again.
All runs write into one tree of directories; what keeps their files apart is the date, which the
script takes once for a round, and the name of the directory, which has lost the letters of the
options. Both together are enough, and needed (`sweep_written`).
-/

namespace Wfey.LogPath

/-! ## The settings -/

/-- A name in a path. It has no slash, and as it does not consist of dots it stands for no other
directory. -/
@[ext]
structure Word where
  text : List Char
  plain : text.all (fun c => c.isAlphanum || c = '_' || c = '-' || c = '.') = true
  named : text.any (fun c => c.isAlphanum || c = '_') = true
  deriving DecidableEq

/-- What `date +%Y-%m-%d-%H-%M-%S` prints. -/
@[ext]
structure Date where
  text : List Char
  plain : text.all (fun c => c.isDigit || c = '-') = true
  year : text.head?.any Char.isDigit = true
  deriving DecidableEq

structure Env where
  logs : Word
  timesToRun : Nat
  wfeyconfig : List Word
  eventrate : List Value
  eventprocCPUs : List Value
  sourceCPUs : List Value
  memperc : List Value
  sleepToReset : Nat
  sleepToFinish : Nat

/-- A call of `run_wfey.sh`. -/
structure Call where
  wfeyconfig : Word
  events : Value
  eventproc : Value
  sources : Value
  perc : Value
  deriving DecidableEq

/-- `-e $events -p $eventproc -s $sources -w $perc`. -/
def Call.opts (call : Call) : List (Flag × Value) :=
  [(.e, call.events), (.p, call.eventproc), (.s, call.sources), (.w, call.perc)]

/-! ## The loops

Five loops inside one another, and a sixth around them for the repetitions. -/

namespace Env

def calls (env : Env) : List Call :=
  env.wfeyconfig.flatMap fun config => env.eventrate.flatMap fun events =>
    env.eventprocCPUs.flatMap fun eventproc => env.sourceCPUs.flatMap fun sources =>
      env.memperc.map fun perc => ⟨config, events, eventproc, sources, perc⟩

def runtime (env : Env) : Nat := 30 + env.sleepToReset + env.sleepToFinish

def estimatedTimetorun (env : Env) : Nat :=
  env.timesToRun * env.wfeyconfig.length * env.eventrate.length * env.eventprocCPUs.length *
    env.sourceCPUs.length * env.memperc.length * env.runtime

end Env

/-- The files of a run: those of `powerLog`, and the two of `wfey`. -/
inductive Kind where
  | pduLeft
  | pduRight
  | latency
  | wfey
  deriving DecidableEq, Repr

namespace Kind

def all : List Kind := [pduLeft, pduRight, latency, wfey]

/-- The name of the file, up to the date. -/
def text : Kind → List Char
  | pduLeft => "pdu-left-beast-".toList
  | pduRight => "pdu-right-beast-".toList
  | latency => "latency-".toList
  | wfey => "wfey-".toList

end Kind

inductive Write where
  | env
  | loadavg (round : Nat)
  | output (round : Nat) (call : Call) (kind : Kind)
  deriving DecidableEq

def Write.name (date : Nat → Date) : Write → List Char
  | .env => "env.out".toList
  | .loadavg i => "loadavg-".toList ++ (date i).text ++ ".out".toList
  | .output i _ kind => kind.text ++ (date i).text ++ ".out".toList

namespace Env

def writes (env : Env) : List Write :=
  .env :: (List.range env.timesToRun).flatMap fun i =>
    .loadavg i :: env.calls.flatMap fun call => Kind.all.map (.output i call)

/-- `LOGPATH` of a call. -/
def logpath (env : Env) (call : Call) : List Char :=
  (LogPath.logpath env.logs.text call.wfeyconfig.text (words call.opts)).getD []

/-- `PRETESTPATH`, with the date of the sweep. -/
def pretest (env : Env) (testdate : Date) : List Char :=
  "logs/".toList ++ env.logs.text ++ "/pretest//".toList ++ testdate.text

def directory (env : Env) (testdate : Date) : Write → List Char
  | .env | .loadavg _ => env.pretest testdate
  | .output _ call _ => env.logpath call

/-- The file that is written. `date i` is what `date` prints at the start of round `i`. -/
def file (env : Env) (testdate : Date) (date : Nat → Date) (w : Write) : List Char :=
  env.directory testdate w ++ '/' :: w.name date

/-- How often `wfey` is run. -/
def runs (env : Env) : Nat :=
  env.writes.countP fun
    | .output _ _ .wfey => true
    | _ => false

/-- All files in the order in which they are written. -/
def written (env : Env) (testdate : Date) (date : Nat → Date) : List (List Char) :=
  env.writes.map (env.file testdate date)

end Env

/-! ## Cutting texts

A path is cut at its last slash into directory and file, and the name of a file in front of its
first digit into label and date. -/

/-- A text can be cut where the characters stop being of a kind. -/
theorem append_inj_of_head {P : Char → Bool} {x x' y y' : List Char} (hx : ∀ c ∈ x, P c = true)
    (hx' : ∀ c ∈ x', P c = true) (hy : ∀ c ∈ y.head?, P c = false) (hy' : ∀ c ∈ y'.head?, P c = false)
    (h : x ++ y = x' ++ y') : x = x' ∧ y = y' := by
  have hcut (z w : List Char) (hz : ∀ c ∈ z, P c = true) (hw : ∀ c ∈ w.head?, P c = false) :
      (z ++ w).takeWhile P = z := by
    rw [List.takeWhile_append_of_pos hz]
    cases w with
    | nil => simp
    | cons c w => rw [List.takeWhile_cons_of_neg (by simp [hw c rfl]), List.append_nil]
  have hsame : x = x' := by rw [← hcut x y hx hy, h, hcut x' y' hx' hy']
  subst hsame
  exact ⟨rfl, List.append_cancel_left h⟩

/-- A path is a directory and a name. -/
theorem path_inj {dir dir' name name' : List Char} (hname : '/' ∉ name) (hname' : '/' ∉ name')
    (h : dir ++ '/' :: name = dir' ++ '/' :: name') : dir = dir' ∧ name = name' := by
  have hrev := congrArg List.reverse h
  simp only [List.reverse_append, List.reverse_cons, List.append_assoc, List.singleton_append] at hrev
  have hne (n : List Char) (hn : '/' ∉ n) : ∀ c ∈ n.reverse, (c ≠ '/' : Bool) = true := by
    intro c hc
    refine decide_eq_true ?_
    rintro rfl
    exact hn (List.mem_reverse.mp hc)
  have hsame := append_inj_of_head (hne name hname) (hne name' hname') (by simp) (by simp) hrev
  obtain ⟨hnames, hdirs⟩ := hsame
  exact ⟨List.reverse_injective (List.cons.inj hdirs).2, List.reverse_injective hnames⟩

theorem Word.ne_nil (w : Word) : w.text ≠ [] := by
  obtain ⟨c, hc, -⟩ := List.any_eq_true.mp w.named
  exact List.ne_nil_of_mem hc

theorem Word.slash_not_mem (w : Word) : '/' ∉ w.text := by
  intro hc
  exact absurd (List.all_eq_true.mp w.plain _ hc) (by decide)

theorem Date.slash_not_mem (d : Date) : '/' ∉ d.text := by
  intro hc
  exact absurd (List.all_eq_true.mp d.plain _ hc) (by decide)

/-- The date starts with a digit, so it can be told from the label before it. -/
theorem name_inj {label label' : List Char} {d d' : Date} (hl : ∀ c ∈ label, c.isDigit = false)
    (hl' : ∀ c ∈ label', c.isDigit = false)
    (h : label ++ d.text ++ ".out".toList = label' ++ d'.text ++ ".out".toList) :
    label = label' ∧ d = d' := by
  have hyear (d : Date) : ∀ c ∈ d.text.head?, (!c.isDigit) = false := by
    intro c hc
    have hdigit := d.year
    rw [Option.mem_def.mp hc] at hdigit
    simpa using hdigit
  obtain ⟨hlabel, hdate⟩ := append_inj_of_head (P := fun c => !c.isDigit)
    (fun c hc => by simp [hl c hc]) (fun c hc => by simp [hl' c hc]) (hyear d) (hyear d')
    (List.append_cancel_right h)
  exact ⟨hlabel, Date.ext hdate⟩

theorem no_digit_of_all {label : List Char} (h : label.all (fun c => !c.isDigit) = true) :
    ∀ c ∈ label, c.isDigit = false := by
  simpa using h

theorem Kind.no_digit (kind : Kind) : ∀ c ∈ kind.text, c.isDigit = false := by
  apply no_digit_of_all
  cases kind <;> decide

theorem Kind.slash_not_mem (kind : Kind) : '/' ∉ kind.text := by
  cases kind <;> decide

theorem Kind.text_inj {kind kind' : Kind} (h : kind.text = kind'.text) : kind = kind' := by
  revert h
  cases kind <;> cases kind' <;> decide

/-! ## Directories -/

variable {env : Env} {call call' : Call}

/-- The directory of a call: the configuration, and below it the values of the options. -/
theorem Env.logpath_eq (env : Env) (call : Call) : env.logpath call = "logs/".toList ++
    env.logs.text ++ '/' :: call.wfeyconfig.text ++ '/' :: argstr (words call.opts) := by
  have hsome : LogPath.logpath env.logs.text call.wfeyconfig.text (words call.opts) = some _ :=
    logpath_words call.wfeyconfig.ne_nil (List.cons_ne_nil _ _)
  rw [Env.logpath, hsome, Option.getD_some]

/-- The directory tells the call. -/
theorem Env.logpath_inj (hkept : Kept call.opts) (hkept' : Kept call'.opts)
    (h : env.logpath call = env.logpath call') : call = call' := by
  rw [env.logpath_eq, env.logpath_eq, List.append_assoc, List.append_assoc _ (_ :: _) (_ :: _),
    List.append_cancel_left_eq, List.cons_append, List.cons_append, List.cons.injEq] at h
  have hplain (w : Word) : ∀ c ∈ w.text, (c ≠ '/' : Bool) = true := by
    intro c hc
    refine decide_eq_true ?_
    rintro rfl
    exact w.slash_not_mem hc
  obtain ⟨hconfig, hargstr⟩ := append_inj_of_head (hplain call.wfeyconfig) (hplain call'.wfeyconfig)
    (by simp) (by simp) h.2
  have hvalues := (argstr_inj (List.cons_ne_nil _ _) (List.cons_ne_nil _ _) hkept hkept').mp
    (List.cons.inj hargstr).2
  cases call
  cases call'
  simp only [List.map_cons, List.map_nil, List.cons.injEq, and_true] at hvalues
  obtain ⟨rfl, rfl, rfl, rfl⟩ := hvalues
  obtain rfl := Word.ext hconfig
  rfl

/-! ## The calls -/

/-- A call for each combination of settings. -/
theorem Env.mem_calls : call ∈ env.calls ↔ call.wfeyconfig ∈ env.wfeyconfig ∧
    call.events ∈ env.eventrate ∧ call.eventproc ∈ env.eventprocCPUs ∧
      call.sources ∈ env.sourceCPUs ∧ call.perc ∈ env.memperc := by
  simp only [calls, List.mem_flatMap, List.mem_map]
  constructor
  · rintro ⟨config, hconfig, events, hevents, eventproc, heventproc, sources, hsources, perc, hperc,
      rfl⟩
    exact ⟨hconfig, hevents, heventproc, hsources, hperc⟩
  · rintro ⟨hconfig, hevents, heventproc, hsources, hperc⟩
    exact ⟨_, hconfig, _, hevents, _, heventproc, _, hsources, _, hperc, rfl⟩

/-- As many as the product of their numbers. -/
theorem Env.length_calls (env : Env) : env.calls.length = env.wfeyconfig.length *
    env.eventrate.length * env.eventprocCPUs.length * env.sourceCPUs.length * env.memperc.length := by
  simp [calls, List.length_flatMap, Nat.mul_assoc]

/-- Only the last value may look like a flag. -/
def Env.Kept (env : Env) : Prop :=
  ∀ v ∈ env.eventrate ++ env.eventprocCPUs ++ env.sourceCPUs, ¬ EndsLikeFlag v.text

instance (env : Env) : Decidable env.Kept := inferInstanceAs (Decidable (∀ v ∈ _, ¬ EndsLikeFlag _))

/-- Settings that do not look like flags make options that do not. -/
theorem Env.Kept.opts (h : env.Kept) (hcall : call ∈ env.calls) : LogPath.Kept call.opts := by
  obtain ⟨-, hevents, heventproc, hsources, -⟩ := Env.mem_calls.mp hcall
  intro v hv
  have hmem : v = call.events ∨ v = call.eventproc ∨ v = call.sources := by
    simpa [Call.opts] using hv
  apply h
  rw [List.mem_append, List.mem_append]
  rcases hmem with rfl | rfl | rfl
  · exact .inl (.inl hevents)
  · exact .inl (.inr heventproc)
  · exact .inr hsources

/-! ## The files -/

/-- Everything that a sweep writes: its settings, and in each repetition the load and the output of
each call. -/
theorem Env.mem_writes {w : Write} : w ∈ env.writes ↔ w = .env ∨
    (∃ i < env.timesToRun, w = .loadavg i) ∨
      ∃ i < env.timesToRun, ∃ call ∈ env.calls, ∃ kind, w = .output i call kind := by
  have hall (kind : Kind) : kind ∈ Kind.all := by cases kind <;> decide
  simp only [writes, List.mem_cons, List.mem_flatMap, List.mem_range, List.mem_map]
  constructor
  · rintro (rfl | ⟨i, hi, rfl | ⟨call, hcall, kind, -, rfl⟩⟩)
    · exact .inl rfl
    · exact .inr (.inl ⟨i, hi, rfl⟩)
    · exact .inr (.inr ⟨i, hi, call, hcall, kind, rfl⟩)
  · rintro (rfl | ⟨i, hi, rfl⟩ | ⟨i, hi, call, hcall, kind, rfl⟩)
    · exact .inl rfl
    · exact .inr ⟨i, hi, .inl rfl⟩
    · exact .inr ⟨i, hi, .inr ⟨call, hcall, kind, hall kind, rfl⟩⟩

/-- The name of a file contains no slash, so directory and name can be told apart. -/
theorem Write.slash_not_mem (date : Nat → Date) (w : Write) : '/' ∉ w.name date := by
  have hdated (label : List Char) (d : Date) (h : '/' ∉ label) :
      '/' ∉ label ++ d.text ++ ".out".toList := by
    have hout : '/' ∉ ".out".toList := by decide
    simp only [List.mem_append, h, d.slash_not_mem, hout, or_self, not_false_eq_true]
  cases w with
  | env => exact (by decide : '/' ∉ "env.out".toList)
  | loadavg i => exact hdated _ _ (by decide)
  | output i call kind => exact hdated _ _ kind.slash_not_mem

/-- The label and the date, as far as there are any, are in the name. -/
theorem Write.name_inj {date : Nat → Date} {w w' : Write} (h : w.name date = w'.name date) :
    (w = .env ∧ w' = .env) ∨ (∃ i j, w = .loadavg i ∧ w' = .loadavg j ∧ date i = date j) ∨
      ∃ i j call call' kind, w = .output i call kind ∧ w' = .output j call' kind ∧
        date i = date j := by
  have hload : ∀ c ∈ "loadavg-".toList, c.isDigit = false := no_digit_of_all (by decide)
  -- the date has a digit
  have henv (label : List Char) (d : Date) (h : "env.out".toList = label ++ d.text ++ ".out".toList) :
      False := by
    have hdigit : ∃ c ∈ d.text, c.isDigit = true := by
      have hyear := d.year
      cases htext : d.text with
      | nil =>
          rw [htext] at hyear
          cases hyear
      | cons c rest =>
          rw [htext] at hyear
          exact ⟨c, List.mem_cons_self, by simpa using hyear⟩
    obtain ⟨c, hc, hdigit⟩ := hdigit
    have hmem : c ∈ "env.out".toList := by
      rw [h]
      simp [hc]
    have hnone : ∀ c ∈ "env.out".toList, c.isDigit = false := no_digit_of_all (by decide)
    rw [hnone c hmem] at hdigit
    cases hdigit
  cases w with
  | env =>
      cases w' with
      | env => exact .inl ⟨rfl, rfl⟩
      | loadavg j => exact (henv _ _ h).elim
      | output j call' kind' => exact (henv _ _ h).elim
  | loadavg i =>
      cases w' with
      | env => exact (henv _ _ h.symm).elim
      | loadavg j => exact .inr (.inl ⟨i, j, rfl, rfl, (LogPath.name_inj hload hload h).2⟩)
      | output j call' kind' =>
          have hlabel := (LogPath.name_inj hload kind'.no_digit h).1
          exact absurd hlabel (by cases kind' <;> decide)
  | output i call kind =>
      cases w' with
      | env => exact (henv _ _ h.symm).elim
      | loadavg j =>
          have hlabel := (LogPath.name_inj kind.no_digit hload h).1
          exact absurd hlabel (by cases kind <;> decide)
      | output j call' kind' =>
          -- two outputs: the label gives the kind, and the digits give the date
          obtain ⟨hlabel, hdate⟩ := LogPath.name_inj kind.no_digit kind'.no_digit h
          obtain rfl := Kind.text_inj hlabel
          exact .inr (.inr ⟨i, j, call, call', kind, rfl, rfl, hdate⟩)

theorem Env.file_loadavg (env : Env) (testdate : Date) (date : Nat → Date) (i : Nat) :
    env.file testdate date (.loadavg i) =
      env.pretest testdate ++ '/' :: ("loadavg-".toList ++ (date i).text ++ ".out".toList) := rfl

/-- Different writes go to different files, if the rounds have different dates. -/
theorem file_inj {testdate : Date} {date : Nat → Date} (hkept : env.Kept)
    (hdate : ∀ i < env.timesToRun, ∀ j < env.timesToRun, date i = date j → i = j) {w w' : Write}
    (hw : w ∈ env.writes) (hw' : w' ∈ env.writes)
    (h : env.file testdate date w = env.file testdate date w') : w = w' := by
  obtain ⟨hdir, hname⟩ := path_inj (w.slash_not_mem date) (w'.slash_not_mem date) h
  rcases Write.name_inj hname with ⟨rfl, rfl⟩ | ⟨i, j, rfl, rfl, hij⟩ |
    ⟨i, j, call, call', kind, rfl, rfl, hij⟩
  · rfl
  · have hround (k : Nat) (hk : .loadavg k ∈ env.writes) : k < env.timesToRun := by
      simpa [Env.mem_writes] using hk
    rw [hdate i (hround i hw) j (hround j hw') hij]
  · have hround (k : Nat) (c : Call) (hk : .output k c kind ∈ env.writes) :
        k < env.timesToRun ∧ c ∈ env.calls := by
      simpa [Env.mem_writes] using hk
    obtain ⟨hi, hcall⟩ := hround i call hw
    obtain ⟨hj, hcall'⟩ := hround j call' hw'
    rw [hdate i hi j hj hij, Env.logpath_inj (hkept.opts hcall) (hkept.opts hcall') hdir]

/-! ## The sweep -/

/-- No write of a round is repeated if no call is. -/
theorem Env.nodup_round (env : Env) (i : Nat) :
    (Write.loadavg i :: env.calls.flatMap fun call => Kind.all.map (.output i call)).Nodup ↔
      env.calls.Nodup := by
  have hload : Write.loadavg i ∉ env.calls.flatMap fun call => Kind.all.map (.output i call) := by
    simp
  have hkinds (call : Call) : (Kind.all.map (Write.output i call)).Nodup := by
    refine List.Nodup.map ?_ (by decide)
    intro kind kind' h
    exact (Write.output.inj h).2.2
  rw [List.nodup_cons, and_iff_right hload, List.nodup_flatMap, and_iff_right fun call _ => hkinds call]
  apply List.Pairwise.iff
  intro call call'
  constructor
  · rintro hdisjoint rfl
    exact hdisjoint (List.mem_map_of_mem (by decide : Kind.wfey ∈ Kind.all))
      (List.mem_map_of_mem (by decide))
  · intro hne w hw hw'
    obtain ⟨kind, -, rfl⟩ := List.mem_map.mp hw
    obtain ⟨kind', -, h⟩ := List.mem_map.mp hw'
    exact hne (Write.output.inj h).2.1.symm

/-- The same thing is written twice only by a call that is made twice in one repetition. -/
theorem Env.nodup_writes (env : Env) :
    env.writes.Nodup ↔ env.timesToRun = 0 ∨ env.calls.Nodup := by
  have henv : Write.env ∉ (List.range env.timesToRun).flatMap fun i =>
      Write.loadavg i :: env.calls.flatMap fun call => Kind.all.map (.output i call) := by
    simp
  -- two repetitions write different things, as each write names its repetition
  have hrounds : (List.range env.timesToRun).Pairwise (Function.onFun List.Disjoint fun i =>
      Write.loadavg i :: env.calls.flatMap fun call => Kind.all.map (.output i call)) := by
    refine List.nodup_range.imp fun {i j} hij => ?_
    have hround (k : Nat) (w : Write) (hw : w ∈ Write.loadavg k :: env.calls.flatMap fun call =>
        Kind.all.map (.output k call)) : w = .loadavg k ∨ ∃ call kind, w = .output k call kind := by
      simp only [List.mem_cons, List.mem_flatMap, List.mem_map] at hw
      rcases hw with rfl | ⟨call, -, kind, -, rfl⟩
      · exact .inl rfl
      · exact .inr ⟨call, kind, rfl⟩
    intro w hw hw'
    rcases hround i w hw with rfl | ⟨call, kind, rfl⟩
    · rcases hround j _ hw' with h | ⟨call, kind, h⟩
      · exact hij (Write.loadavg.inj h)
      · cases h
    · rcases hround j _ hw' with h | ⟨call', kind', h⟩
      · cases h
      · exact hij (Write.output.inj h).1
  rw [Env.writes, List.nodup_cons, and_iff_right henv, List.nodup_flatMap, and_iff_left hrounds]
  constructor
  · intro h
    -- with at least one repetition its calls are all different
    by_cases hzero : env.timesToRun = 0
    · exact .inl hzero
    · exact .inr ((env.nodup_round 0).mp (h 0 (List.mem_range.mpr (Nat.pos_of_ne_zero hzero))))
  · rintro (hzero | hcalls) i hi
    · rw [hzero] at hi
      cases hi
    · exact (env.nodup_round i).mpr hcalls

/-- Without repetitions in the arrays there are none among the calls. -/
theorem Env.nodup_calls (hconfigs : env.wfeyconfig.Nodup) (hevents : env.eventrate.Nodup)
    (heventprocs : env.eventprocCPUs.Nodup) (hsources : env.sourceCPUs.Nodup)
    (hpercs : env.memperc.Nodup) : env.calls.Nodup := by
  have hcalls : env.calls = (env.wfeyconfig.product (env.eventrate.product (env.eventprocCPUs.product
      (env.sourceCPUs.product env.memperc)))).map fun x =>
        ⟨x.1, x.2.1, x.2.2.1, x.2.2.2.1, x.2.2.2.2⟩ := by
    simp [calls, List.product, List.map_flatMap, Function.comp_def]
  rw [hcalls]
  refine List.Nodup.map ?_ (hconfigs.product (hevents.product (heventprocs.product
    (hsources.product hpercs))))
  rintro ⟨config, events, eventproc, sources, perc⟩ ⟨config', events', eventproc', sources', perc'⟩ h
  obtain ⟨rfl, rfl, rfl, rfl, rfl⟩ := Call.mk.inj h
  rfl

/-- The script multiplies lengths, which is the number of calls. -/
theorem Env.runs_eq (env : Env) : env.runs = env.timesToRun * env.calls.length := by
  have hround (calls : List Call) (i : Nat) :
      (calls.flatMap fun call => Kind.all.map (Write.output i call)).countP (fun
        | .output _ _ .wfey => true
        | _ => false) = calls.length := by
    induction calls with
    | nil => rfl
    | cons call calls ih =>
        rw [List.flatMap_cons, List.countP_append, ih, List.length_cons, Nat.add_comm]
        rfl
  unfold runs writes
  rw [List.countP_cons_of_neg (by simp), List.countP_flatMap]
  simp only [Function.comp_def, List.countP_cons, hround, Bool.false_eq_true, ↓reduceIte, Nat.add_zero,
    List.map_const', List.length_range, List.sum_replicate_nat]

/-- No file of the sweep is written twice exactly if the rounds have different dates and no call is
made twice in a round; and the time that is announced is that of as many runs as there are. -/
theorem sweep_written (hkept : env.Kept) (testdate : Date) (date : Nat → Date) :
    ((env.written testdate date).Nodup ↔ (env.timesToRun = 0 ∨ env.calls.Nodup) ∧
      ∀ i < env.timesToRun, ∀ j < env.timesToRun, date i = date j → i = j) ∧
      env.estimatedTimetorun = env.runs * env.runtime := by
  refine ⟨?_, by rw [env.runs_eq, env.length_calls]; simp only [Env.estimatedTimetorun, Nat.mul_assoc]⟩
  unfold Env.written
  constructor
  · intro h
    refine ⟨env.nodup_writes.mp (List.Nodup.of_map _ h), fun i hi j hj hdate => ?_⟩
    have hload (k : Nat) (hk : k < env.timesToRun) : Write.loadavg k ∈ env.writes :=
      Env.mem_writes.mpr (.inr (.inl ⟨k, hk, rfl⟩))
    have hfile : env.file testdate date (.loadavg i) = env.file testdate date (.loadavg j) := by
      rw [Env.file_loadavg, Env.file_loadavg, hdate]
    exact Write.loadavg.inj (List.inj_on_of_nodup_map h (hload i hi) (hload j hj) hfile)
  · rintro ⟨hcalls, hdate⟩
    refine List.Nodup.map_on (fun w hw w' hw' h => ?_) (env.nodup_writes.mpr hcalls)
    exact file_inj hkept hdate hw hw' h

/-- The settings of `env.sh`. -/
def envSh : Env where
  logs := ⟨"full_parse".toList, by decide, by decide⟩
  timesToRun := 5
  wfeyconfig := [⟨"busypoll_nodb".toList, by decide, by decide⟩,
    ⟨"busypoll_db".toList, by decide, by decide⟩, ⟨"wfe_nodb".toList, by decide, by decide⟩,
    ⟨"wfe_db_nomon".toList, by decide, by decide⟩, ⟨"wfe_db_mon".toList, by decide, by decide⟩]
  eventrate := [⟨"0".toList, by decide, by decide⟩, ⟨"10".toList, by decide, by decide⟩,
    ⟨"100".toList, by decide, by decide⟩, ⟨"1000".toList, by decide, by decide⟩,
    ⟨"10000".toList, by decide, by decide⟩]
  eventprocCPUs := [⟨"1".toList, by decide, by decide⟩]
  sourceCPUs := [⟨"1".toList, by decide, by decide⟩, ⟨"10".toList, by decide, by decide⟩,
    ⟨"50".toList, by decide, by decide⟩]
  memperc := [⟨"0".toList, by decide, by decide⟩, ⟨"25".toList, by decide, by decide⟩,
    ⟨"50".toList, by decide, by decide⟩, ⟨"75".toList, by decide, by decide⟩,
    ⟨"100".toList, by decide, by decide⟩]
  sleepToReset := 0
  sleepToFinish := 5

/-- A round of these settings takes three hours, 38 minutes and 45 seconds. -/
def roundDates : List Date :=
  [⟨"2025-06-01-06-00-00".toList, by decide, by decide⟩,
    ⟨"2025-06-01-09-38-45".toList, by decide, by decide⟩,
    ⟨"2025-06-01-13-17-30".toList, by decide, by decide⟩,
    ⟨"2025-06-01-16-56-15".toList, by decide, by decide⟩,
    ⟨"2025-06-01-20-35-00".toList, by decide, by decide⟩]

/-- The date of a round, and the one at which the sweep starts. -/
def roundDate (i : Nat) : Date := roundDates.getD i ⟨"2025-06-02-00-13-45".toList, by decide, by decide⟩

theorem sweep_written_env : (envSh.written (roundDate 0) roundDate).Nodup := by
  have hdate : ∀ i < 5, ∀ j < 5, roundDate i = roundDate j → i = j := by decide
  refine (sweep_written (by decide) (roundDate 0) roundDate).1.mpr ⟨.inr ?_, hdate⟩
  exact Env.nodup_calls (by decide) (by decide) (by decide) (by decide) (by decide)

end Wfey.LogPath
