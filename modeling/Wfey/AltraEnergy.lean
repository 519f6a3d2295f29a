import Wfey.AltraImage
import Wfey.AltraChannels
import Wfey.Hwmon

/-!
# From the table to the energy of a core

`wfey_hwmon_joules_read` asks for the energy of a core by the number of the channel. The module numbers
the channels of a metric by the data that are valid, and labels them so; the number in the label is
therefore always the one that is asked for, and what is read is the core's own energy if and only if
every core up to it had a value when the module was loaded (`core_energy`).
-/

namespace Wfey.Altra

open Format Stdio Hwmon

/-! ## The files

`Registered` says what the kernel shows of a registered device: a directory with the name of the
module, and in it a label and a value for each channel. -/

def decimalLong (v : UInt64) : List Char :=
  if v.toNat < 2 ^ 63 then decimal v.toNat else '-' :: decimal (2 ^ 64 - v.toNat)

/-- The files of the registered device, which has one metric of energies: a label and a value for each
channel, numbered from 1. `hwmon` makes them with the functions of the module. -/
structure Registered (n : Nat) (m : Machine) (ctx : Context) (monitor : Entry) (files : Files) :
    Prop where
  isMonitor : Monitor files monitor
  listed : ∃ entries, files.root = some entries ∧ monitor ∈ entries ∧
    ∀ de ∈ entries, Monitor files de → de = monitor
  label : ∀ core : Core n, files.text (labelPath monitor (core.val + 1)) =
    (readLabels ctx .energy core.val).toOption.map (· ++ ['\n'])
  input : ∀ core : Core n, files.text (inputPath monitor (core.val + 1)) =
    (hwmonRead m ctx .energy core.val).1.toOption.map fun v => decimalLong v ++ ['\n']

/-- The text of the metric with the energies of the cores. -/
def coreEnergy : List Char := "Core".toList ++ ' ' :: "Energy".toList

/-! ## There are such files

The paths are pairwise different, so every one of them can be given its own content. -/

section

variable {n : Nat} (monitor : Entry) (core : Core n)

/-- Different cores have different label files. -/
theorem labelPath_inj {core core' : Core n}
    (h : labelPath monitor (core.val + 1) = labelPath monitor (core'.val + 1)) : core = core' := by
  rw [labelPath_eq, labelPath_eq] at h
  exact (energyFile_inj (noDigit_cons rfl) (noDigit_cons rfl) (entryPath_inj h).2).1

/-- Different cores have different energy files. -/
theorem inputPath_inj {core core' : Core n}
    (h : inputPath monitor (core.val + 1) = inputPath monitor (core'.val + 1)) : core = core' := by
  rw [inputPath_eq, inputPath_eq] at h
  exact (energyFile_inj (noDigit_cons rfl) (noDigit_cons rfl) (entryPath_inj h).2).1

/-- And none of them is the file with the name of the monitor. -/
theorem name_ne_energyFile (kind : List Char) : "name".toList ≠ energyFile core kind := by
  intro h
  have hhead : 'n' = 'e' := (List.cons.inj h).1
  exact absurd hhead (by decide)

open Classical in
noncomputable def deviceFiles (n : Nat) (m : Machine) (ctx : Context) (monitor : Entry) : Files where
  root := some [monitor]
  text path :=
    if path = namePath monitor then some joulesHwmonName
    else if h : ∃ core : Core n, path = labelPath monitor (core.val + 1) then
      (readLabels ctx .energy h.choose.val).toOption.map (· ++ ['\n'])
    else if h : ∃ core : Core n, path = inputPath monitor (core.val + 1) then
      (hwmonRead m ctx .energy h.choose.val).1.toOption.map fun v => decimalLong v ++ ['\n']
    else none

/-- The paths of a monitor that is registered are pairwise different, so `deviceFiles` can give each
its own content. -/
theorem registered_deviceFiles (n : Nat) (m : Machine) (ctx : Context) {monitor : Entry}
    (hvisible : ¬ monitor.Hidden) : Registered n m ctx monitor (deviceFiles n m ctx monitor) where
  isMonitor := ⟨hvisible, joulesHwmonName, if_pos rfl, by decide⟩
  listed := ⟨[monitor], rfl, List.mem_singleton.mpr rfl, fun _ h _ => List.mem_singleton.mp h⟩
  label core := by
    have hname : labelPath monitor (core.val + 1) ≠ namePath monitor := by
      rw [labelPath_eq, namePath_eq]
      exact fun h => name_ne_energyFile core _ (entryPath_inj h).2.symm
    have hexists : ∃ core' : Core n,
        labelPath monitor (core.val + 1) = labelPath monitor (core'.val + 1) := ⟨core, rfl⟩
    have hchoose : hexists.choose = core := (labelPath_inj monitor hexists.choose_spec).symm
    -- the file is looked up by its path, so the path must not be that of another file
    show (if _ then _ else _) = _
    rw [if_neg hname, dif_pos hexists, hchoose]
  input core := by
    have hname : inputPath monitor (core.val + 1) ≠ namePath monitor := by
      rw [inputPath_eq, namePath_eq]
      exact fun h => name_ne_energyFile core _ (entryPath_inj h).2.symm
    have hlabel : ¬ ∃ core' : Core n,
        inputPath monitor (core.val + 1) = labelPath monitor (core'.val + 1) := by
      -- `_input` and `_label` differ behind the number
      rintro ⟨core', h⟩
      rw [inputPath_eq, labelPath_eq] at h
      have hkind := (energyFile_inj (noDigit_cons rfl) (noDigit_cons rfl) (entryPath_inj h).2).2
      exact absurd hkind (by decide)
    have hexists : ∃ core' : Core n,
        inputPath monitor (core.val + 1) = inputPath monitor (core'.val + 1) := ⟨core, rfl⟩
    have hchoose : hexists.choose = core := (inputPath_inj monitor hexists.choose_spec).symm
    show (if _ then _ else _) = _
    rw [if_neg hname, dif_neg hlabel, dif_pos hexists, hchoose]

end

/-! ## What the files say -/

/-- `%d` reads the number of a label through the zeros that `%03d` puts in front. -/
theorem scanLabel_coreEnergy {k : Nat} {rest : List Char} (hk : k ≤ 2147483647) (hrest : NoDigit rest) :
    scanLabel (coreEnergy ++ ' ' :: decimal03 k ++ rest) = some (k : Int) := by
  have hword : coreEnergy ++ ' ' :: decimal03 k ++ rest =
      "Core Energy ".toList ++ decimal03 k ++ rest := by
    simp [coreEnergy]
  rw [hword]
  exact scanLabel_append (digits_decimal03 k) hk hrest

/-- The driver writes the value as signed, and the benchmark reads it as unsigned: the two conversions
cancel. -/
theorem scanU64_decimalLong (v : UInt64) : scanU64 (decimalLong v ++ ['\n']) = some v := by
  have hrest : NoDigit ['\n'] := noDigit_cons rfl
  have hlt := v.toNat_lt
  unfold decimalLong
  split_ifs with hv
  · exact scanU64_decimal_append hrest
  · have hspace : scanSpace ('-' :: (decimal (2 ^ 64 - v.toNat) ++ ['\n'])) =
        '-' :: (decimal (2 ^ 64 - v.toNat) ++ ['\n']) := by
      simp [scanSpace, isSpace]
    have hscan : scanSigned ('-' :: decimal (2 ^ 64 - v.toNat) ++ ['\n']) =
        some (-((2 ^ 64 - v.toNat : Nat) : Int)) := by
      unfold scanSigned
      rw [List.cons_append, hspace]
      simp only [(digits_decimal _).scanNat_append hrest]
      rfl
    exact scanU64_of_scanSigned hscan (by omega) (by omega)

/-- The `c`-th number that is kept is `c` if all are kept up to it. -/
theorem getElem?_filter_range_eq_self {count c : Nat} {p : Nat → Bool} :
    ((List.range count).filter p)[c]? = some c ↔ ∀ i ≤ c, i < count ∧ p i = true := by
  constructor
  · intro hc
    have hmem := List.mem_filter.mp (List.mem_of_getElem? hc)
    have hlt : c < count := List.mem_range.mp hmem.1
    -- `c` is kept, and what is kept in front of it are `c` indices below `c`: all of them
    obtain ⟨rest, hrest⟩ := Nat.exists_eq_add_of_le hlt
    have hsplit : (List.range count).filter p =
        (List.range c).filter p ++ c :: ((List.range rest).map (c + 1 + ·)).filter p := by
      rw [hrest, List.range_add, List.filter_append, List.range_succ, List.filter_append,
        List.append_assoc]
      congr 1
      rw [List.filter_cons_of_pos hmem.2]
      rfl
    have hindex : ((List.range count).filter p)[((List.range c).filter p).length]? = some c := by
      rw [hsplit, List.getElem?_append_right (Nat.le_refl _), Nat.sub_self]
      rfl
    have hnodup : ((List.range count).filter p).Nodup := List.nodup_range.filter p
    have hlength : ((List.range c).filter p).length = c :=
      (List.getElem?_inj (List.getElem?_eq_some_iff.mp hindex).1 hnodup).mp (hindex.trans hc.symm)
    have hall := List.length_filter_eq_length_iff.mp (hlength.trans List.length_range.symm)
    intro i hi
    rcases Nat.lt_or_eq_of_le hi with hlt' | rfl
    · exact ⟨hlt'.trans hlt, hall i (List.mem_range.mpr hlt')⟩
    · exact ⟨hlt, hmem.2⟩
  · intro hall
    obtain ⟨rest, hrest⟩ := Nat.exists_eq_add_of_le (hall c (Nat.le_refl c)).1
    -- everything up to `c` is kept, so nothing moves forward
    have hkept : (List.range (c + 1)).filter p = List.range (c + 1) :=
      List.filter_eq_self.mpr fun i hi =>
        (hall i (Nat.le_of_lt_succ (List.mem_range.mp hi))).2
    rw [hrest, List.range_add, List.filter_append, hkept,
      List.getElem?_append_left (by rw [List.length_range]; omega), List.getElem?_range (by omega)]

/-! ## What the channels say

The benchmark looks for the file whose number is the core's, and checks that the label in it has the
same number. The two agree only as long as all channels in front of the core are valid. -/

variable {m : Machine} {ctx : Context} {h : Header} {nonzero : Nat → Bool} {off : Nat}

/-- `readLabels` only looks into the list of the type. -/
theorem readLabels_eq {type : SensorType} (htype : type ≠ .max) (channel : Nat) :
    readLabels ctx type channel =
      ((ctx.sensors type)[channel]?).elim (.error .einval) fun item => .ok item.label := by
  unfold readLabels
  rw [if_neg htype]
  by_cases hlt : channel < ctx.sensorListCnt type
  · rw [dif_pos hlt, List.getElem?_eq_getElem hlt]
    rfl
  · rw [dif_neg hlt, List.getElem?_eq_none (Nat.not_lt.mp hlt)]
    rfl

/-- The `k`th sensor is made of the `k`th valid channel. -/
theorem getElem?_sensors (k : Nat) : (h.sensors nonzero off)[k]? =
    ((h.valid nonzero off)[k]?).map fun i =>
      sensorItem h.info (UInt32.ofNat off) (List.ofFn h.label) i k := by
  rw [Header.sensors, newItems, List.getElem?_map, List.getElem?_zipIdx, Option.map_map,
    Nat.zero_add]
  rfl

/-- With `Core Energy` in front, numbers of up to seven digits are written out in full. -/
theorem itemLabel_coreEnergy {label : List UInt8} (hname : cstring label = coreEnergy) {k : Nat}
    (hk : k < 10 ^ 7) : itemLabel label k = coreEnergy ++ ' ' :: decimal03 k := by
  have hlength : (cstring label).length = 11 := hname ▸ rfl
  rw [itemLabel_eq (by omega), hlength, hname,
    List.take_of_length_le (length_decimal03_le (by decide) hk)]

/-- Such a line fits into the buffer of the benchmark. -/
theorem fgets_coreEnergy {k : Nat} (hk : k < 10 ^ 7) :
    fgets 160 (coreEnergy ++ ' ' :: decimal03 k ++ ['\n']) =
      coreEnergy ++ ' ' :: decimal03 k ++ ['\n'] := by
  have hnewline : '\n' ∉ coreEnergy ++ ' ' :: decimal03 k := by
    intro hmem
    rcases List.mem_append.mp hmem with hmem | hmem
    · exact absurd hmem (by decide)
    · rcases List.mem_cons.mp hmem with hspace | hmem
      · exact absurd hspace (by decide)
      · exact absurd ((digits_decimal03 k).isDigit _ hmem) (by decide)
  have hlength := length_decimal03_le (by decide) hk
  have hword : coreEnergy.length = 11 := rfl
  unfold fgets
  rw [line_append hnewline, List.take_of_length_le]
  · rfl
  · show (coreEnergy ++ ' ' :: decimal03 k ++ ['\n']).length ≤ 159
    rw [List.length_append, List.length_append, List.length_cons, hword]
    show 11 + ((decimal03 k).length + 1) + 1 ≤ 159
    omega

/-- The datum `i` of the metric at `off`, in the units of `hwmon`. -/
def Header.energy (h : Header) (mem : Memory) (off i : Nat) : UInt64 :=
  (sensorItem h.info (UInt32.ofNat off) (List.ofFn h.label) i 0).value mem

/-- There are at most 2^16 channels, which are never more than five digits. -/
theorem getElem?_valid_lt {k i : Nat} (hi : (h.valid nonzero off)[k]? = some i) : k < 10 ^ 7 := by
  have hlt := (List.getElem?_eq_some_iff.mp hi).1
  have hle : (h.valid nonzero off).length ≤ (List.range h.dataCnt).length := List.length_filter_le ..
  have hcnt : h.dataCnt < 2 ^ 16 := (dataCntRd h.info).toNat_lt
  rw [List.length_range] at hle
  omega

section

variable {n : Nat} (hsensors : ctx.sensors .energy = h.sensors nonzero off) {monitor : Entry}
  {files : Files} (hfiles : Registered n m ctx monitor files) {core : Core n}

include hsensors hfiles

/-- The file says the number of the core, which is what `check_label` compares it to. -/
theorem Registered.checkLabel_some (hname : cstring (List.ofFn h.label) = coreEnergy) {i : Nat}
    (hi : (h.valid nonzero off)[core.val]? = some i) :
    checkLabel files core.val monitor = .ok (inputPath monitor (core.val + 1)) := by
  have hlt := getElem?_valid_lt hi
  have hrest : NoDigit ['\n'] := noDigit_cons rfl
  have htext : files.text (labelPath monitor (core.val + 1)) =
      some (coreEnergy ++ ' ' :: decimal03 core.val ++ ['\n']) := by
    rw [hfiles.label, readLabels_eq (by decide), hsensors, getElem?_sensors, hi]
    show some (itemLabel (List.ofFn h.label) core.val ++ ['\n']) = _
    rw [itemLabel_coreEnergy hname hlt]
  unfold checkLabel
  rw [htext]
  dsimp only
  rw [fgets_coreEnergy hlt, scanLabel_coreEnergy (by omega) hrest]
  exact if_neg (not_not.mpr rfl)

/-- Without a sensor there is no file to open. -/
theorem Registered.checkLabel_none (hi : (h.valid nonzero off)[core.val]? = none) :
    checkLabel files core.val monitor =
      .error (.couldNotOpen (labelPath monitor (core.val + 1))) := by
  have htext : files.text (labelPath monitor (core.val + 1)) = none := by
    rw [hfiles.label, readLabels_eq (by decide), hsensors, getElem?_sensors, hi]
    rfl
  unfold checkLabel
  rw [htext]

/-- The file of a core holds the energy of its channel, and is read in full: 20 digits fit. -/
theorem Registered.readPath_eq {i : Nat} (hi : (h.valid nonzero off)[core.val]? = some i) :
    readPath files (some (inputPath monitor (core.val + 1))) =
      .value (h.energy (m.bus ctx.log.length) off i) := by
  have htext : files.text (inputPath monitor (core.val + 1)) =
      some (decimalLong (h.energy (m.bus ctx.log.length) off i) ++ ['\n']) := by
    rw [hfiles.input, hwmonRead_eq (by decide), hsensors, getElem?_sensors, hi]
    rfl
  unfold readPath
  dsimp only
  rw [htext]
  dsimp only
  rw [scanU64_decimalLong]

/-- A read without the cache finds the file of the core exactly if the core has a valid channel. -/
theorem Registered.uncachedRead_eq (hname : cstring (List.ofFn h.label) = coreEnergy) :
    uncachedRead files core = ((h.valid nonzero off)[core.val]?).elim .nullPath fun i =>
      .value (h.energy (m.bus ctx.log.length) off i) := by
  obtain ⟨entries, hroot, hmem, honly⟩ := hfiles.listed
  obtain ⟨before, de, after, rfl, hbefore, hde⟩ :=
    exists_first_monitor ⟨monitor, hmem, hfiles.isMonitor⟩
  obtain rfl : de = monitor := honly de (by simp) hde
  unfold uncachedRead searchRoot
  rw [hroot]
  dsimp only
  rw [search_append hbefore hde]
  cases hi : (h.valid nonzero off)[core.val]? with
  | none =>
      rw [hfiles.checkLabel_none hsensors hi]
      rfl
  | some i =>
      rw [hfiles.checkLabel_some hsensors hname hi]
      exact hfiles.readPath_eq hsensors hi

end

/-- Core after core, what is read is the energy of a valid datum; it is the core's own if and only if all
data up to it were valid. -/
theorem core_energy {size count : Nat} {table : List Header}
    (hsteady : Steady m size count table nonzero) (hsize : size + 2 ^ 24 + 32 ≤ 2 ^ 32)
    (hbase : ctx.baseSize.toNat = size) (hempty : ∀ type, ctx.sensorList type = none)
    (honly : (metricFormat.locate 8 table).filter
      (fun r => r.2.Recognised ∧ r.2.type = .energy) = [(off, h)])
    (hname : cstring (List.ofFn h.label) = coreEnergy) :
    ∃ info ctx', createSensors m ctx = (.ok info, ctx') ∧
      ∀ (n : Nat) monitor files, Registered n m ctx' monitor files → ∀ core : Core n,
        ((joulesRead files core none).1 = ((h.valid nonzero off)[core.val]?).elim .nullPath fun i =>
          .value (h.energy (m.bus ctx'.log.length) off i)) ∧
        ((h.valid nonzero off)[core.val]? = some core.val ↔
          ∀ i ≤ core.val, i < h.dataCnt ∧ nonzero (off + 24 + i * h.dataSize.toNat) = true) := by
  obtain ⟨ctx', heq, hsensors, -⟩ := createSensors_steady hsteady hsize hbase
  have henergy : ctx'.sensors .energy = h.sensors nonzero off := by
    rw [hsensors, Context.sensors_of_none (hempty .energy), tableSensors, honly]
    simp
  refine ⟨_, ctx', heq, fun n monitor files hfiles core => ?_⟩
  rw [joulesRead_none]
  exact ⟨hfiles.uncachedRead_eq henergy hname, getElem?_filter_range_eq_self⟩

theorem core_energy_twoCores :
    ∃ info ctx', createSensors (twoCoresMachine fun _ => true) ⟨64, fun _ => none, [], 0, []⟩ =
        (.ok info, ctx') ∧
      (joulesRead (deviceFiles 2 (twoCoresMachine fun _ => true) ctx' hwmon0)
          (⟨0, by decide, by decide⟩ : Core 2) none).1 =
        .value (twoCores.energy ((twoCoresMachine fun _ => true).bus ctx'.log.length) 8 0) ∧
      (joulesRead (deviceFiles 2 (twoCoresMachine fun _ => true) ctx' hwmon0)
          (⟨1, by decide, by decide⟩ : Core 2) none).1 = .nullPath := by
  have hbase : (⟨64, fun _ => none, [], 0, []⟩ : Context).baseSize.toNat = 64 := rfl
  have honly : (metricFormat.locate 8 [twoCores]).filter
      (fun r => r.2.Recognised ∧ r.2.type = .energy) = [(8, twoCores)] := by
    decide
  have hvisible : ¬ hwmon0.Hidden := by decide
  obtain ⟨info, ctx', heq, hread⟩ := core_energy steady_twoCores (by decide) hbase (fun _ => rfl)
    honly (by decide)
  have hfiles := registered_deviceFiles 2 (twoCoresMachine fun _ => true) ctx' hvisible
  exact ⟨info, ctx', heq, (hread 2 hwmon0 _ hfiles _).1, (hread 2 hwmon0 _ hfiles _).1⟩

end Wfey.Altra
