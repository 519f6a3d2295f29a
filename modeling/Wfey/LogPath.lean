import Mathlib.Data.List.Basic

/-!
# Where `run_wfey.sh` puts its logs

The script makes the name of a directory out of the options of a run: it deletes every match of
`-. ` from the options and turns the blanks that are left into underscores. The letters of the
options are gone then, and the directory is named after the values in the order in which they are
given (`logpath_eq_iff`).
-/

namespace Wfey.LogPath

/-! ## The shell -/

/-- The characters of `IFS`. -/
def isBlank (c : Char) : Bool := c = ' ' ∨ c = '\t' ∨ c = '\n'

/-- The words of an unquoted expansion. -/
def fields (text : List Char) : List (List Char) := (text.splitOnP isBlank).filter (· ≠ [])

/-- What the `echo` of `bash` takes for options. -/
def echoOption : List Char → Bool
  | '-' :: c :: cs => (c :: cs).all fun c => c = 'n' ∨ c = 'e' ∨ c = 'E'
  | _ => false

/-- `echo`, without the newline. No word of the script has a backslash. -/
def echo (args : List (List Char)) : List Char := [' '].intercalate (args.dropWhile echoOption)

/-- `sed`, deleting every match of `-. `: a dash, any character and a blank. -/
def deleteFlags : List Char → List Char
  | '-' :: _ :: ' ' :: rest => deleteFlags rest
  | c :: rest => c :: deleteFlags rest
  | [] => []

/-! ## The script -/

/-- `PARAMETERS`, from `"${*:2}"`: all arguments in one word. -/
def parameters (args : List (List Char)) : List Char := echo [[' '].intercalate args]

def parametersWoFlags (args : List (List Char)) : List Char :=
  deleteFlags (echo (fields (parameters args)))

def argstr (args : List (List Char)) : List Char :=
  (parametersWoFlags args).map fun c => if c = ' ' then '_' else c

/-- `LOGPATH`, or the usage message. -/
def logpath (logs wfeyconfig : List Char) (args : List (List Char)) : Option (List Char) :=
  if wfeyconfig = [] ∨ parameters args = [] then none
  else some ("logs/".toList ++ logs ++ '/' :: wfeyconfig ++ '/' :: argstr args)

/-- The files that the run writes. -/
def outputs (logpath logdate : List Char) : List (List Char) :=
  [logpath ++ "/latency-".toList ++ logdate ++ ".out".toList,
    logpath ++ "/wfey-".toList ++ logdate ++ ".out".toList]

/-! ## Options -/

/-- The options of `wfey` that take a value. -/
inductive Flag where
  | e
  | p
  | s
  | w
  deriving DecidableEq, Repr

def Flag.letter : Flag → Char
  | .e => 'e'
  | .p => 'p'
  | .s => 's'
  | .w => 'w'

/-- The text of a number. -/
@[ext]
structure Value where
  text : List Char
  plain : text.all (fun c => c.isAlphanum || c = '.' || c = '+' || c = '-') = true
  number : text.any Char.isDigit = true
  deriving DecidableEq

/-- Options, as the words of the command line. -/
def words (opts : List (Flag × Value)) : List (List Char) :=
  opts.flatMap fun opt => [['-', opt.1.letter], opt.2.text]

/-- The text ends in a dash and one more character, as a flag does. -/
def EndsLikeFlag (text : List Char) : Prop := ∃ front c, text = front ++ ['-', c]

/-- No value but the last can be mistaken for a flag. -/
def Kept (opts : List (Flag × Value)) : Prop :=
  ∀ v ∈ (opts.map Prod.snd).dropLast, ¬ EndsLikeFlag v.text

/-- Read from the end: any character, and a dash before it. -/
theorem endsLikeFlag_iff {text : List Char} :
    EndsLikeFlag text ↔ text.reverse[1]? = some '-' := by
  constructor
  · rintro ⟨front, c, rfl⟩
    simp
  · intro h
    match hr : text.reverse with
    | [] | [_] => simp [hr] at h
    | c :: d :: rest =>
        obtain rfl : d = '-' := by simpa [hr] using h
        exact ⟨rest.reverse, c, by simpa using congrArg List.reverse hr⟩

instance : DecidablePred EndsLikeFlag := fun _ => decidable_of_iff _ endsLikeFlag_iff.symm

instance : DecidablePred Kept := fun opts =>
  inferInstanceAs (Decidable (∀ v ∈ (opts.map Prod.snd).dropLast, ¬ EndsLikeFlag v.text))

/-- No blank and no underscore is part of a number. -/
theorem Value.not_mem (v : Value) {c : Char} (h : c = ' ' ∨ c = '_' ∨ c = '\t' ∨ c = '\n') :
    c ∉ v.text := by
  intro hc
  have hplain := List.all_eq_true.mp v.plain c hc
  rcases h with rfl | rfl | rfl | rfl <;> revert hplain <;> decide

theorem Value.ne_nil (v : Value) : v.text ≠ [] := by
  obtain ⟨c, hc, -⟩ := List.any_eq_true.mp v.number
  exact List.ne_nil_of_mem hc

/-- A number is no option of `echo`. -/
theorem Value.not_echoOption (v : Value) : echoOption v.text = false := by
  obtain ⟨d, hd, hdigit⟩ := List.any_eq_true.mp v.number
  unfold echoOption
  split
  · next c cs heq =>
      rw [heq] at hd
      rw [List.all_eq_false]
      rcases List.mem_cons.mp hd with rfl | hd
      · exact absurd hdigit (by decide)
      · refine ⟨d, hd, ?_⟩
        rintro hopt
        simp at hopt
        rcases hopt with rfl | rfl | rfl <;> exact absurd hdigit (by decide)
  · rfl

theorem words_cons (f : Flag) (v : Value) (opts : List (Flag × Value)) :
    words ((f, v) :: opts) = ['-', f.letter] :: v.text :: words opts := rfl

theorem words_ne_nil {opts : List (Flag × Value)} (h : opts ≠ []) : words opts ≠ [] := by
  cases opts with
  | nil => exact absurd rfl h
  | cons opt opts => simp [words]

/-! ## Words and lines

A text made of words with single blanks between them is split into the same words again. -/

/-- Words that are not empty and have no blanks come back as they were. -/
theorem fields_intercalate {ws : List (List Char)} (hne : ∀ w ∈ ws, w ≠ [])
    (hblank : ∀ w ∈ ws, ∀ c ∈ w, isBlank c = false) : fields ([' '].intercalate ws) = ws := by
  induction ws with
  | nil => rfl
  | cons w ws ih =>
      have hw : w ≠ [] := hne w List.mem_cons_self
      have hwblank := hblank w List.mem_cons_self
      cases ws with
      | nil =>
          rw [List.intercalate_singleton, fields, List.splitOnP_eq_singleton hwblank]
          simp [hw]
      | cons w' ws =>
          have hrest := ih (fun x hx => hne x (List.mem_cons_of_mem _ hx))
            fun x hx => hblank x (List.mem_cons_of_mem _ hx)
          unfold fields at hrest ⊢
          rw [List.intercalate_cons_cons, List.append_assoc, List.singleton_append,
            List.splitOnP_append_cons_of_forall_mem hwblank ' ' (by decide),
            List.filter_cons_of_pos (by simpa using hw), hrest]

/-- Every word of the options is a word to the shell. -/
theorem words_spec {opts : List (Flag × Value)} {w : List Char} (h : w ∈ words opts) :
    w ≠ [] ∧ ∀ c ∈ w, isBlank c = false := by
  obtain ⟨⟨f, v⟩, -, hw⟩ := List.mem_flatMap.mp h
  rcases List.mem_cons.mp hw with rfl | hw
  · refine ⟨by simp, ?_⟩
    intro c hc
    rcases List.mem_cons.mp hc with rfl | hc
    · decide
    · obtain rfl := List.mem_singleton.mp hc
      cases f <;> rfl
  · obtain rfl := List.mem_singleton.mp hw
    refine ⟨v.ne_nil, fun c hc => ?_⟩
    apply decide_eq_false
    rintro (rfl | rfl | rfl)
    · exact v.not_mem (.inl rfl) hc
    · exact v.not_mem (.inr (.inr (.inl rfl))) hc
    · exact v.not_mem (.inr (.inr (.inr rfl))) hc

/-! ## The deletion

`sed` takes out every match of a dash, a character and a blank, also where that is the end of a
value. -/

/-- A character that does not start a match stays. -/
theorem deleteFlags_cons_of_not {c : Char} {rest : List Char}
    (h : c = '-' → rest[1]? ≠ some ' ') : deleteFlags (c :: rest) = c :: deleteFlags rest := by
  rw [deleteFlags.eq_def]
  split
  · next rest' heq =>
      obtain ⟨rfl, rfl⟩ := List.cons.inj heq
      exact absurd rfl (h rfl)
  · next c' rest' _ heq =>
      obtain ⟨rfl, rfl⟩ := List.cons.inj heq
      rfl
  · next heq => cases heq

/-- A match ends in a blank. -/
theorem deleteFlags_of_no_blank {text : List Char} (h : ' ' ∉ text) :
    deleteFlags text = text := by
  induction text with
  | nil => rfl
  | cons c rest ih =>
      have hrest : ' ' ∉ rest := fun hc => h (List.mem_cons_of_mem _ hc)
      rw [deleteFlags_cons_of_not, ih hrest]
      intro _ hget
      exact hrest (List.mem_of_getElem? hget)

/-- The blank after a word that does not look like a flag stays, and so does the word. -/
theorem deleteFlags_append {text rest : List Char} (h : ' ' ∉ text) (hflag : ¬ EndsLikeFlag text)
    (hrest : rest.head? ≠ some ' ') :
    deleteFlags (text ++ ' ' :: rest) = text ++ ' ' :: deleteFlags rest := by
  induction text with
  | nil => exact deleteFlags_cons_of_not fun hc => absurd hc (by decide)
  | cons c text ih =>
      have htext : ' ' ∉ text := fun hc => h (List.mem_cons_of_mem _ hc)
      have hkept : ¬ EndsLikeFlag text := by
        rintro ⟨front, d, rfl⟩
        exact hflag ⟨c :: front, d, rfl⟩
      rw [List.cons_append, deleteFlags_cons_of_not, ih htext hkept, List.cons_append]
      intro hdash
      -- a match would end in the blank after the word, or need one inside it
      cases text with
      | nil => simpa [List.head?_eq_getElem?] using hrest
      | cons d text =>
          cases text with
          | nil =>
              subst hdash
              exact absurd ⟨[], d, rfl⟩ hflag
          | cons e text =>
              intro hblank
              simp at hblank
              exact htext (by simp [hblank])

/-- A flag is deleted with the blank behind it. -/
theorem deleteFlags_flag (f : Flag) (rest : List Char) :
    deleteFlags ('-' :: f.letter :: ' ' :: rest) = deleteFlags rest := rfl

def texts (opts : List (Flag × Value)) : List (List Char) := opts.map fun opt => opt.2.text

/-- The letters go, the values stay. -/
theorem deleteFlags_words {opts : List (Flag × Value)} (h : Kept opts) :
    deleteFlags ([' '].intercalate (words opts)) = [' '].intercalate (texts opts) := by
  induction opts with
  | nil => rfl
  | cons opt opts ih =>
      obtain ⟨f, v⟩ := opt
      have hblank : ' ' ∉ v.text := v.not_mem (.inl rfl)
      cases opts with
      | nil =>
          show deleteFlags ([' '].intercalate [['-', f.letter], v.text]) =
            [' '].intercalate [v.text]
          rw [List.intercalate_cons_cons, List.intercalate_singleton]
          -- the last value has no blank behind it, so it may end like a flag
          exact deleteFlags_of_no_blank hblank
      | cons opt opts =>
          have hflag : ¬ EndsLikeFlag v.text := h v (by simp)
          have hrest := ih fun u hu => h u (by simp at hu ⊢; exact .inr hu)
          -- no two blanks in a row: a word follows
          have hhead : ([' '].intercalate (words (opt :: opts))).head? ≠ some ' ' := by
            obtain ⟨g, u⟩ := opt
            rw [words_cons, List.intercalate_cons_cons]
            simp
          rw [words_cons, List.intercalate_cons_cons,
            List.intercalate_cons_of_ne_nil (words_ne_nil (List.cons_ne_nil _ _))]
          show deleteFlags (v.text ++ [' '] ++ [' '].intercalate (words (opt :: opts))) =
            [' '].intercalate (v.text :: texts (opt :: opts))
          rw [List.append_assoc, List.singleton_append, deleteFlags_append hblank hflag hhead,
            hrest, List.intercalate_cons_of_ne_nil (by simp [texts]), List.append_assoc,
            List.singleton_append]

/-! ## The words that `echo` gets -/

/-- A word with a blank in it is printed. -/
theorem echo_singleton {text : List Char} (h : ' ' ∈ text) : echo [text] = text := by
  have hopt : echoOption text = false := by
    unfold echoOption
    split
    · next c cs =>
        rw [List.all_eq_false]
        refine ⟨' ', ?_, by decide⟩
        rcases List.mem_cons.mp h with hc | hc
        · exact absurd hc (by decide)
        · exact hc
    · rfl
  simp [echo, hopt]

/-- All that `echo` can take away is a leading `-e`, and the deletion would take that too. -/
theorem deleteFlags_echo {opts : List (Flag × Value)} :
    deleteFlags (echo (words opts)) = deleteFlags ([' '].intercalate (words opts)) := by
  cases opts with
  | nil => rfl
  | cons opt opts =>
      obtain ⟨f, v⟩ := opt
      have hrest : (v.text :: words opts).dropWhile echoOption = v.text :: words opts :=
        List.dropWhile_cons_of_neg (by simp [v.not_echoOption])
      rw [words_cons, List.intercalate_cons_cons]
      unfold echo
      cases hf : echoOption ['-', f.letter] with
      | true =>
          rw [List.dropWhile_cons_of_pos hf, hrest]
          exact (deleteFlags_flag f _).symm
      | false =>
          rw [List.dropWhile_cons_of_neg (by simp [hf]), List.intercalate_cons_cons]

/-- The first `echo` prints all its arguments: it gets them as one word, with blanks in it. -/
theorem parameters_words {opts : List (Flag × Value)} (h : opts ≠ []) :
    parameters (words opts) = [' '].intercalate (words opts) := by
  cases opts with
  | nil => exact absurd rfl h
  | cons opt opts =>
      apply echo_singleton
      rw [words_cons, List.intercalate_cons_cons]
      simp

/-- What is left of the options is their values. -/
theorem parametersWoFlags_words {opts : List (Flag × Value)} (hne : opts ≠ []) (h : Kept opts) :
    parametersWoFlags (words opts) = [' '].intercalate (texts opts) := by
  unfold parametersWoFlags
  rw [parameters_words hne, fields_intercalate (fun w hw => (words_spec hw).1)
    fun w hw => (words_spec hw).2, deleteFlags_echo, deleteFlags_words h]

/-! ## The name of the directory -/

/-- Turning the blanks into underscores joins the words with underscores. -/
theorem map_intercalate {ws : List (List Char)} (h : ∀ w ∈ ws, ' ' ∉ w) :
    ([' '].intercalate ws).map (fun c => if c = ' ' then '_' else c) = ['_'].intercalate ws := by
  induction ws with
  | nil => rfl
  | cons w ws ih =>
      have hw : w.map (fun c => if c = ' ' then '_' else c) = w := by
        rw [List.map_congr_left (g := id), List.map_id]
        intro c hc
        have hne : c ≠ ' ' := fun heq => h w List.mem_cons_self (heq ▸ hc)
        exact if_neg hne
      cases ws with
      | nil => rw [List.intercalate_singleton, List.intercalate_singleton, hw]
      | cons w' ws =>
          rw [List.intercalate_cons_cons, List.intercalate_cons_cons, List.map_append,
            List.map_append, hw, ih fun u hu => h u (List.mem_cons_of_mem _ hu)]
          rfl

theorem texts_not_mem {opts : List (Flag × Value)} {c : Char}
    (h : c = ' ' ∨ c = '_' ∨ c = '\t' ∨ c = '\n') : ∀ text ∈ texts opts, c ∉ text := by
  intro text htext
  obtain ⟨⟨f, v⟩, -, rfl⟩ := List.mem_map.mp htext
  exact v.not_mem h

/-- `ARGSTR` is the values with underscores in between. -/
theorem argstr_words {opts : List (Flag × Value)} (hne : opts ≠ []) (h : Kept opts) :
    argstr (words opts) = ['_'].intercalate (texts opts) := by
  unfold argstr
  rw [parametersWoFlags_words hne h]
  exact map_intercalate (texts_not_mem (.inl rfl))

/-- A value is its text. -/
theorem texts_inj {opts opts' : List (Flag × Value)} :
    texts opts = texts opts' ↔ opts.map Prod.snd = opts'.map Prod.snd := by
  have htext : Function.Injective Value.text := fun _ _ h => Value.ext h
  have hmap : ∀ l : List (Flag × Value), texts l = (l.map Prod.snd).map Value.text := by
    intro l
    rw [List.map_map]
    rfl
  rw [hmap, hmap]
  exact (List.map_injective_iff.mpr htext).eq_iff

/-- The values can be read off the name. -/
theorem argstr_inj {opts opts' : List (Flag × Value)} (hne : opts ≠ []) (hne' : opts' ≠ [])
    (h : Kept opts) (h' : Kept opts') :
    argstr (words opts) = argstr (words opts') ↔ opts.map Prod.snd = opts'.map Prod.snd := by
  rw [argstr_words hne h, argstr_words hne' h', ← texts_inj]
  constructor
  · intro heq
    have hsplit : ∀ l : List (Flag × Value), l ≠ [] →
        (['_'].intercalate (texts l)).splitOn '_' = texts l := by
      intro l hl
      exact List.splitOn_intercalate '_' (texts_not_mem (.inr (.inl rfl))) (by simpa [texts])
    rw [← hsplit opts hne, ← hsplit opts' hne', heq]
  · exact congrArg _

/-- With a configuration and at least one option the script goes on to its runs. -/
theorem logpath_words {logs wfeyconfig : List Char} {opts : List (Flag × Value)}
    (hconfig : wfeyconfig ≠ []) (hne : opts ≠ []) :
    logpath logs wfeyconfig (words opts) =
      some ("logs/".toList ++ logs ++ '/' :: wfeyconfig ++ '/' :: argstr (words opts)) := by
  refine if_neg ?_
  rintro (hnil | hnil)
  · exact hconfig hnil
  · rw [parameters_words hne] at hnil
    cases opts with
    | nil => exact hne rfl
    | cons opt opts =>
        rw [words_cons, List.intercalate_cons_cons] at hnil
        cases hnil

/-- Files in different directories are different. -/
theorem outputs_disjoint {path path' date file : List Char} (h : path ≠ path')
    (hfile : file ∈ outputs path date) : file ∉ outputs path' date := by
  intro hfile'
  have hlatency : "/latency-".toList = "/laten".toList ++ ['c', 'y', '-'] := by decide
  have hwfey : "/wfey-".toList = "/wf".toList ++ ['e', 'y', '-'] := by decide
  simp only [outputs, List.mem_cons, List.not_mem_nil, or_false] at hfile hfile'
  rcases hfile with rfl | rfl <;> rcases hfile' with heq | heq
  all_goals
    have hdir := List.append_cancel_right (List.append_cancel_right heq)
  · exact h (List.append_cancel_right hdir)
  · rw [hlatency, hwfey, ← List.append_assoc, ← List.append_assoc] at hdir
    exact absurd (List.append_inj_right' hdir rfl) (by decide)
  · rw [hlatency, hwfey, ← List.append_assoc, ← List.append_assoc] at hdir
    exact absurd (List.append_inj_right' hdir rfl) (by decide)
  · exact h (List.append_cancel_right hdir)

/-- Two runs share a directory exactly if they are given the same values in the same order; if
not, neither writes a file of the other. Runs that give the options in the same order share one
only if they give every option the same value. -/
theorem logpath_eq_iff {logs wfeyconfig date : List Char} {opts opts' : List (Flag × Value)}
    (hconfig : wfeyconfig ≠ []) (hne : opts ≠ []) (hne' : opts' ≠ []) (h : Kept opts)
    (h' : Kept opts') :
    (logpath logs wfeyconfig (words opts) = logpath logs wfeyconfig (words opts') ↔
        opts.map Prod.snd = opts'.map Prod.snd) ∧
      (opts.map Prod.snd ≠ opts'.map Prod.snd → ∃ path path',
        logpath logs wfeyconfig (words opts) = some path ∧
          logpath logs wfeyconfig (words opts') = some path' ∧ path ≠ path' ∧
          ∀ file ∈ outputs path date, file ∉ outputs path' date) ∧
      (opts.map Prod.fst = opts'.map Prod.fst → opts ≠ opts' →
        logpath logs wfeyconfig (words opts) ≠ logpath logs wfeyconfig (words opts')) := by
  have hiff : logpath logs wfeyconfig (words opts) = logpath logs wfeyconfig (words opts') ↔
      opts.map Prod.snd = opts'.map Prod.snd := by
    rw [logpath_words hconfig hne, logpath_words hconfig hne', Option.some_inj,
      List.append_cancel_left_eq, List.cons.injEq, eq_self, true_and]
    exact argstr_inj hne hne' h h'
  refine ⟨hiff, fun hvalues => ?_, fun hflags hopts heq => ?_⟩
  · refine ⟨_, _, logpath_words hconfig hne, logpath_words hconfig hne', ?_⟩
    have hpath := mt hiff.mp hvalues
    rw [logpath_words hconfig hne, logpath_words hconfig hne', Option.some_inj] at hpath
    exact ⟨hpath, fun file hfile => outputs_disjoint hpath hfile⟩
  · apply hopts
    rw [← List.zip_unzip opts, ← List.zip_unzip opts', List.unzip_eq_map, List.unzip_eq_map]
    -- the same flags and the same values make the same options
    rw [hflags, hiff.mp heq]

/-- A sweep over the rate, `-w -1` at the end. -/
theorem logpath_eq_iff_sweep :
    let rest : List (Flag × Value) := [(.p, ⟨['1'], by decide, by decide⟩),
      (.s, ⟨['8'], by decide, by decide⟩), (.w, ⟨['-', '1'], by decide, by decide⟩)]
    let opts := (.e, ⟨['1', '0', '0'], by decide, by decide⟩) :: rest
    let opts' := (.e, ⟨['0', '.', '5'], by decide, by decide⟩) :: rest
    ∃ path path', logpath ['r'] ['w', 'f', 'e'] (words opts) = some path ∧
      logpath ['r'] ['w', 'f', 'e'] (words opts') = some path' ∧ path ≠ path' ∧
      ∀ file ∈ outputs path ['0'], file ∉ outputs path' ['0'] := by
  intro rest opts opts'
  have hkept : Kept opts := by decide
  have hkept' : Kept opts' := by decide
  exact (logpath_eq_iff (by decide) (by decide) (by decide) hkept hkept').2.1 (by decide)

/-- The letters are gone: `-e 2 -p 1 -s 1 -w 0` and `-s 2 -p 1 -e 1 -w 0` write to `2_1_1_0`. -/
theorem logpath_shared :
    let zero : Value := ⟨['0'], by decide, by decide⟩
    let one : Value := ⟨['1'], by decide, by decide⟩
    let two : Value := ⟨['2'], by decide, by decide⟩
    let opts := [(Flag.e, two), (.p, one), (.s, one), (.w, zero)]
    let opts' := [(Flag.s, two), (.p, one), (.e, one), (.w, zero)]
    (Flag.e, two) ∈ opts ∧ (Flag.e, one) ∈ opts' ∧ two ≠ one ∧
      logpath ['r'] ['w', 'f', 'e'] (words opts) =
        some "logs/r/wfe/2_1_1_0".toList ∧
      logpath ['r'] ['w', 'f', 'e'] (words opts') = some "logs/r/wfe/2_1_1_0".toList := by
  decide

end Wfey.LogPath
