import Wfey.AltraInside

/-!
# The sensors of a table

What `altra_hwmon_create_sensors` makes of a table whose metrics stay as they are, while no datum
becomes zero or ceases to be: a sensor for each datum that is not zero, in the order of the table,
under its type (`createSensors_steady`). A message tells of each metric that is left out.
-/

namespace Wfey.Altra

open Format Stdio

variable {m : Machine} {ctx : Context}

/-! ## What there is to find -/

namespace Header

def valid (h : Header) (nonzero : Nat → Bool) (off : Nat) : List Nat :=
  (List.range h.dataCnt).filter fun i => nonzero (off + 24 + i * h.dataSize.toNat)

def sensors (h : Header) (nonzero : Nat → Bool) (off : Nat) : List SensorItem :=
  newItems h.info (UInt32.ofNat off) (List.ofFn h.label) (h.valid nonzero off) 0

def channels (h : Header) (nonzero : Nat → Bool) (off : Nat) : ChannelInfo :=
  ⟨h.type, List.replicate (h.valid nonzero off).length (type2flag h.type)⟩

/-- The label ends within its bytes. -/
def Terminated (h : Header) : Prop := 0 ∈ List.ofFn h.label

instance (h : Header) : Decidable h.Terminated := inferInstanceAs (Decidable (_ ∈ _))

end Header

def tableSensors (nonzero : Nat → Bool) (recs : List (Nat × Header)) (type : SensorType) :
    List SensorItem :=
  (recs.filter fun r => r.2.Recognised ∧ r.2.type = type).flatMap fun r =>
    r.2.sensors nonzero r.1

/-- The entries of `info` for a table. -/
def tableInfo (nonzero : Nat → Bool) (recs : List (Nat × Header)) : List ChannelInfo :=
  (recs.filter fun r => r.2.Recognised).map fun r => r.2.channels nonzero r.1

def leftOut (table : List Header) : Nat := table.countP fun h => ¬ h.Recognised

/-- The window stays such that the table is there, and the same data are zero. No allocation fails. -/
structure Steady (m : Machine) (size count : Nat) (table : List Header)
    (nonzero : Nat → Bool) : Prop where
  alloc : ∀ n, m.alloc n = true
  id : ∀ n, UInt32.ofNat (word (m.bus n) 0 4) = hwMetricsId
  version : ∀ n, verRd (UInt32.ofNat (word (m.bus n) 4 4)) = hwSupportedVer
  cnt : ∀ n, (cntRd (UInt32.ofNat (word (m.bus n) 4 4))).toNat = count
  parse : ∀ n, metricFormat.parse (m.bus n) size count 8 = table
  valid : ∀ n, ∀ r ∈ metricFormat.locate 8 table, ∀ i < r.2.dataCnt,
    (word (m.bus n) (r.1 + 24 + i * r.2.dataSize.toNat) 4 != 0) =
      nonzero (r.1 + 24 + i * r.2.dataSize.toNat)
  terminated : ∀ h ∈ table, h.Recognised → h.Terminated

/-! ## Labels -/

/-- A text that ends inside its array does not go on behind it. -/
theorem cstring_append {bs : List UInt8} (hzero : 0 ∈ bs) (rest : List UInt8) :
    cstring (bs ++ rest) = cstring bs := by
  have hlt : (bs.takeWhile (· ≠ 0)).length ≠ bs.length := by
    intro hlength
    have hall := List.takeWhile_eq_self_iff.mp
      ((List.takeWhile_prefix (· ≠ 0)).eq_of_length hlength) 0 hzero
    simp at hall
  unfold cstring
  rw [List.takeWhile_append, if_neg hlt]

/-- Sensors are labelled by the text alone. -/
theorem newItems_congr {label label' : List UInt8} (h : cstring label = cstring label')
    (hwInfo metricInfo : UInt32) (ks : List Nat) (j : Nat) :
    newItems hwInfo metricInfo label ks j = newItems hwInfo metricInfo label' ks j := by
  unfold newItems sensorItem itemLabel
  rw [h]

/-! ## What a part of a run adds

The effect of a part of a run on the lists and on the messages. It composes, so the effect of the
loop is the sum of its iterations. -/

/-- Sensors have been added, and so many messages reported. -/
structure Adds (new : SensorType → List SensorItem) (reports : Nat) (ctx ctx' : Context) : Prop where
  baseSize : ctx'.baseSize = ctx.baseSize
  sensors : ∀ type, ctx'.sensors type = ctx.sensors type ++ new type
  messages : ctx'.messages.length = ctx.messages.length + reports

/-- Two parts of a run add what each adds, one behind the other. -/
theorem Adds.trans {new new' : SensorType → List SensorItem} {k k' : Nat} {ctx ctx₁ ctx₂ : Context}
    (h : Adds new k ctx ctx₁) (h' : Adds new' k' ctx₁ ctx₂) :
    Adds (fun type => new type ++ new' type) (k + k') ctx ctx₂ where
  baseSize := h'.baseSize.trans h.baseSize
  sensors type := by rw [h'.sensors, h.sensors, List.append_assoc]
  messages := by rw [h'.messages, h.messages, Nat.add_assoc]

/-! ## A metric -/

/-- The valid channels are the same at every look if memory does not change. -/
theorem validIdx_eq {metricInfo : UInt32} {dataSize : UInt8} {p : Nat → Bool} {left i n : Nat}
    (h : ∀ n k, i ≤ k → k < i + left → m.nonzero n (dataReg metricInfo dataSize k) = p k) :
    m.validIdx metricInfo dataSize left i n = (List.range' i left).filter p := by
  induction left generalizing i n with
  | zero => rfl
  | succ left ih =>
      have hrest := ih (i := i + 1) (n := n + 1) fun n k hle hlt => h n k (by omega) (by omega)
      rw [Machine.validIdx, h n i (Nat.le_refl i) (by omega), hrest, List.range'_succ,
        List.filter_cons]

section

variable {h : Header} {reg : UInt32} {nonzero : Nat → Bool}
  (hheader : ∀ n, metricFormat.header (m.bus n) reg.toNat = h)
  (hfits : metricFormat.finish reg.toNat h < 2 ^ 32)
  (hvalid : ∀ n, ∀ i < h.dataCnt, (word (m.bus n) (reg.toNat + 24 + i * h.dataSize.toNat) 4 != 0) =
    nonzero (reg.toNat + 24 + i * h.dataSize.toNat))

include hfits hvalid

/-- And they are the ones that the table has. -/
theorem valid_eq (n : Nat) : m.valid h.info reg n = h.valid nonzero reg.toNat := by
  rw [Header.valid, List.range_eq_range']
  refine validIdx_eq fun n k _ hk => ?_
  have hlt : k < h.dataCnt := hk.trans_eq (Nat.zero_add _)
  have hreg : (dataReg reg (dataSizeRd h.info) k).toNat = _ := toNat_dataReg hfits hlt
  rw [Machine.nonzero, hreg, hvalid n k hlt]

include hheader

variable (nonzero) in
/-- Both looks see the same, so the list has exactly the room that is needed. -/
theorem createSensor_steady (halloc : ∀ n, m.alloc n = true) (hrec : h.Recognised)
    (hterm : h.Terminated) (ctx : Context) :
    ∃ ctx', createSensor m ctx reg = (.ok (h.channels nonzero reg.toNat), ctx') ∧
      Adds (fun type => if type = h.type then h.sensors nonzero reg.toNat else []) 0 ctx ctx' := by
  have hhead : reg.toNat + 24 ≤ metricFormat.finish reg.toNat h :=
    RecordFormat.le_finish (F := metricFormat) reg.toNat h
  have hinfo n : m.infoAt reg n = h.info := infoAt_eq hheader (by omega) n
  -- both looks find the same channels
  have hseen n : m.valid h.info reg n = h.valid nonzero reg.toNat := valid_eq hfits hvalid n
  have hlabel : cstring (m.labelArray reg (ctx.log.length + 1)) = cstring (List.ofFn h.label) := by
    rw [Machine.labelArray, labelAt_eq hheader (by omega), List.append_assoc, cstring_append hterm]
  rw [createSensor_recognised ((recognised_iff hheader (by omega) _).mpr hrec), hinfo, hseen]
  have hle : (m.valid h.info reg ((ctx.visits (headAccesses reg)).visits
      (allDataAccesses h.info reg)).log.length).length ≤ (h.valid nonzero reg.toNat).length := by
    rw [hseen]
  obtain ⟨list, hitems, heq⟩ := addSensors_grown (m.labelArray reg (ctx.log.length + 1))
    (halloc _) (halloc _) hle
  rw [hseen, newItems_congr hlabel] at hitems
  rw [hseen, Nat.sub_self, List.replicate_zero, List.append_nil] at heq
  refine ⟨_, heq, rfl, fun type => ?_, rfl⟩
  have hsensors : h.sensors nonzero reg.toNat =
      newItems h.info reg (List.ofFn h.label) (h.valid nonzero reg.toNat) 0 := by
    rw [Header.sensors, UInt32.ofNat_toNat]
  -- only the list of the metric's own type has grown
  rw [Context.sensors_setList, hitems, hsensors]
  by_cases htype : type = h.type
  · rw [if_pos htype]
    refine (if_pos htype).trans ?_
    rw [htype]
    rfl
  · rw [if_neg htype, List.append_nil]
    exact if_neg htype

omit hvalid in
/-- A metric that is left out adds its message and no sensor. -/
theorem createSensor_left_out (hrec : ¬ h.Recognised) (ctx : Context) :
    ∃ ctx', createSensor m ctx reg = (.error (.errno .enodev), ctx') ∧
      Adds (fun _ => []) 1 ctx ctx' := by
  have hhead : reg.toNat + 24 ≤ metricFormat.finish reg.toNat h :=
    RecordFormat.le_finish (F := metricFormat) reg.toNat h
  have hrec' := (recognised_iff hheader (by omega) ctx.log.length).not.mpr hrec
  by_cases hunit : unit2type (unitRd (m.infoAt reg ctx.log.length)) = .max
  · exact ⟨_, createSensor_of_max hunit, rfl, fun type => (List.append_nil _).symm, rfl⟩
  · by_cases hlabel : cstring (m.labelArray reg (ctx.log.length + 1)) = []
    · exact ⟨_, createSensor_of_empty hunit hlabel, rfl, fun type => (List.append_nil _).symm, rfl⟩
    · exact absurd ⟨hunit, hlabel⟩ hrec'

end

/-! ## The table

The loop over the metrics against the walk over the format: both stop at the first metric that does
not fit. -/

theorem tableSensors_cons (nonzero : Nat → Bool) (r : Nat × Header) (recs : List (Nat × Header))
    (type : SensorType) : tableSensors nonzero (r :: recs) type =
      (if r.2.Recognised ∧ type = r.2.type then r.2.sensors nonzero r.1 else []) ++
        tableSensors nonzero recs type := by
  unfold tableSensors
  rw [List.filter_cons]
  by_cases h : r.2.Recognised ∧ r.2.type = type
  · rw [if_pos (by simpa using h), if_pos ⟨h.1, h.2.symm⟩, List.flatMap_cons]
  · rw [if_neg (by simpa using h), if_neg (fun h' => h ⟨h'.1, h'.2.symm⟩), List.nil_append]

theorem tableInfo_cons (nonzero : Nat → Bool) (r : Nat × Header) (recs : List (Nat × Header)) :
    tableInfo nonzero (r :: recs) =
      (if r.2.Recognised then [r.2.channels nonzero r.1] else []) ++ tableInfo nonzero recs := by
  unfold tableInfo
  rw [List.filter_cons]
  by_cases h : r.2.Recognised
  · rw [if_pos (decide_eq_true h), if_pos h]
    rfl
  · rw [if_neg (by simpa using h), if_neg h]
    rfl

theorem leftOut_cons (h : Header) (table : List Header) :
    leftOut (h :: table) = (if h.Recognised then 0 else 1) + leftOut table := by
  unfold leftOut
  rw [List.countP_cons, Nat.add_comm]
  by_cases hrec : h.Recognised
  · simp [hrec]
  · simp [hrec]

/-- By induction on the metrics that are left. One that fits adds its sensors or its message, and
one that does not ends the loop with a message of its own. -/
theorem metricLoop_steady {size : Nat} (hsize : size + 2 ^ 24 + 32 ≤ 2 ^ 32) {nonzero : Nat → Bool}
    (halloc : ∀ n, m.alloc n = true) {left : Nat} {reg : UInt32} {table : List Header}
    (hparse : ∀ n, metricFormat.parse (m.bus n) size left reg.toNat = table)
    (hvalid : ∀ n, ∀ r ∈ metricFormat.locate reg.toNat table, ∀ i < r.2.dataCnt,
      (word (m.bus n) (r.1 + 24 + i * r.2.dataSize.toNat) 4 != 0) =
        nonzero (r.1 + 24 + i * r.2.dataSize.toNat))
    (hterm : ∀ h ∈ table, h.Recognised → h.Terminated)
    (hbase : ctx.baseSize.toNat = size) (hreg : reg.toNat ≤ size + 8) (info : List ChannelInfo) :
    ∃ ctx', metricLoop m left reg info ctx =
        (.ok (info ++ tableInfo nonzero (metricFormat.locate reg.toNat table)), ctx') ∧
      Adds (tableSensors nonzero (metricFormat.locate reg.toNat table))
        (leftOut table + if table.length < left then 1 else 0) ctx ctx' := by
  induction left generalizing reg ctx table info with
  | zero =>
      obtain rfl : [] = table := hparse 0
      refine ⟨ctx, ?_, rfl, fun type => (List.append_nil _).symm, rfl⟩
      rw [metricLoop]
      exact congrArg (·, ctx) (congrArg Except.ok (List.append_nil info).symm)
  | succ left ih =>
      -- where the loop stops early, the walk ends too, and there is one message for the rest
      have hstop {ctx' : Context} (hempty : table = []) (message : Message)
          (hsame : Adds (fun _ => []) 0 ctx ctx') :
          Except.ok info = (Except.ok (info ++ tableInfo nonzero
              (metricFormat.locate reg.toNat table)) : Except Stop (List ChannelInfo)) ∧
            Adds (tableSensors nonzero (metricFormat.locate reg.toNat table))
              (leftOut table + if table.length < left + 1 then 1 else 0) ctx
              (ctx'.report message) := by
        rw [hempty]
        refine ⟨congrArg Except.ok (List.append_nil info).symm, hsame.baseSize, hsame.sensors, ?_⟩
        exact congrArg (· + 1) hsame.messages
      rw [metricLoop]
      split
      · next hhead =>
          rw [lt_head_iff hsize hbase hreg] at hhead
          -- no room for a header
          have hempty : table = [] := (hparse 0).symm.trans (RecordFormat.parse_eq_nil.mpr (.inl hhead))
          obtain ⟨hinfo, hadds⟩ := hstop hempty (.malformHeader reg)
            ⟨rfl, fun type => (List.append_nil _).symm, rfl⟩
          exact ⟨_, congrArg (·, _) hinfo, hadds⟩
      · next hhead =>
          rw [lt_head_iff hsize hbase hreg, Nat.not_lt] at hhead
          rw [read32_info, infoAt_eq_header (by omega)]
          dsimp only
          have hvisit : Adds (fun _ => []) 0 ctx (ctx.visit ⟨(reg + 0x10).toNat, 4⟩) :=
            ⟨rfl, fun type => (List.append_nil _).symm, rfl⟩
          split
          · next hend =>
              rw [show (ctx.visit _).baseSize = ctx.baseSize from rfl, lt_end_iff hsize hbase hhead]
                at hend
              -- room for the header, and none for the data
              have hempty : table = [] := (hparse _).symm.trans
                (RecordFormat.parse_eq_nil.mpr (.inr hend))
              obtain ⟨hinfo, hadds⟩ := hstop hempty (.malformData reg) hvisit
              exact ⟨_, congrArg (·, _) hinfo, hadds⟩
          · next hend =>
              rw [show (ctx.visit _).baseSize = ctx.baseSize from rfl, lt_end_iff hsize hbase hhead]
                at hend
              cases table with
              | nil =>
                  -- the metric fits, so the walk has not ended
                  rcases RecordFormat.parse_eq_nil.mp (hparse ctx.log.length) with hshort | hlong
                  · exact absurd hhead (Nat.not_le.mpr hshort)
                  · exact absurd hlong hend
              | cons h hs =>
                  have hcons n := RecordFormat.parse_eq_cons.mp (hparse n)
                  have hheader n := (hcons n).1
                  have hfits := (hcons 0).2.1
                  have hnext := toNat_next hsize hfits
                  have hhere n := hvalid n (reg.toNat, h) List.mem_cons_self
                  have hlt : (h :: hs).length < left + 1 ↔ hs.length < left := Nat.succ_lt_succ_iff
                  have hparse' n : metricFormat.parse (m.bus n) size left
                      ((hwEndReg reg h.info + 7) / 8 * 8).toNat = hs := by
                    rw [hnext]
                    exact (hcons n).2.2
                  -- the rest of the table, behind this metric
                  have hrest (info : List ChannelInfo) (ctx' : Context)
                      (hbase' : ctx'.baseSize.toNat = size) := ih hparse'
                    (by rw [hnext]; exact fun n r hr => hvalid n r (List.mem_cons_of_mem _ hr))
                    (fun h' hmem => hterm h' (List.mem_cons_of_mem _ hmem)) hbase'
                    (by rw [hnext]; exact next_le hfits) info
                  rw [hnext] at hrest
                  rw [hheader]
                  have hlocate : metricFormat.locate reg.toNat (h :: hs) =
                    (reg.toNat, h) :: metricFormat.locate (metricFormat.next reg.toNat h) hs := rfl
                  rw [hlocate, tableInfo_cons, leftOut_cons]
                  simp only [hlt]
                  by_cases hrec : h.Recognised
                  · -- its sensors and its config, and then those of the rest
                    obtain ⟨ctx₁, heq₁, hadds₁⟩ := createSensor_steady nonzero hheader (by omega) hhere
                      halloc hrec (hterm h List.mem_cons_self hrec) (ctx.visit ⟨(reg + 0x10).toNat, 4⟩)
                    obtain ⟨ctx₂, heq₂, hadds₂⟩ := hrest (info ++ [h.channels nonzero reg.toNat]) ctx₁
                      (by rw [hadds₁.baseSize]; exact hbase)
                    have hadds := (hvisit.trans hadds₁).trans hadds₂
                    rw [heq₁, if_pos hrec, if_pos hrec]
                    refine ⟨ctx₂, ?_, hadds.baseSize, fun type => ?_, ?_⟩
                    · rw [← List.append_assoc]
                      exact heq₂
                    · rw [hadds.sensors, tableSensors_cons]
                      simp only [hrec, true_and, List.nil_append]
                    · rw [hadds.messages]
                      simp only [Nat.zero_add]
                  · -- a message, and the loop goes on
                    obtain ⟨ctx₁, heq₁, hadds₁⟩ := createSensor_left_out hheader (by omega) hrec
                      (ctx.visit ⟨(reg + 0x10).toNat, 4⟩)
                    obtain ⟨ctx₂, heq₂, hadds₂⟩ := hrest info ctx₁
                      (by rw [hadds₁.baseSize]; exact hbase)
                    have hadds := (hvisit.trans hadds₁).trans hadds₂
                    rw [heq₁, if_neg hrec, if_neg hrec]
                    refine ⟨ctx₂, heq₂, hadds.baseSize, fun type => ?_, ?_⟩
                    · rw [hadds.sensors, tableSensors_cons]
                      simp only [hrec, false_and, if_false, List.nil_append]
                    · rw [hadds.messages]
                      simp only [Nat.zero_add, Nat.add_assoc]

/-- With the right id and version everything depends on the metrics. -/
theorem createSensors_go (halloc : ∀ n, m.alloc n = true)
    (hid : UInt32.ofNat (word (m.bus ctx.log.length) 0 4) = hwMetricsId)
    (hversion : verRd (UInt32.ofNat (word (m.bus (ctx.log.length + 1)) 4 4)) = hwSupportedVer) :
    createSensors m ctx =
      metricLoop m (cntRd (UInt32.ofNat (word (m.bus (ctx.log.length + 1)) 4 4))).toNat
        hwMetricsHdrsize [] ((ctx.visits tableAccesses).allocated 2) := by
  unfold createSensors read32
  refine (if_neg (not_not.mpr hid)).trans ((if_neg (not_not.mpr hversion)).trans ?_)
  rw [zalloc_eq, halloc]
  dsimp only
  rw [zalloc_eq, halloc]
  rfl

theorem steady_twoCores : Steady (twoCoresMachine fun _ => true) 64 1 [twoCores] (· == 32) where
  alloc _ := rfl
  id n := word_image_id ..
  version n := by
    show verRd (UInt32.ofNat (word (ofList (image _ ++ [])) 4 4)) = _
    rw [word_image_info]
    exact (rd_image (by decide : 1 < 2 ^ 16)).1
  cnt n := by
    show (cntRd (UInt32.ofNat (word (ofList (image _ ++ [])) 4 4))).toNat = _
    rw [word_image_info]
    exact (rd_image (by decide : 1 < 2 ^ 16)).2
  parse := parse_twoCores
  valid n r hr i hi := by
    rw [List.mem_singleton.mp hr] at hi ⊢
    have hlength : (twoCoresData n).length = 16 := rfl
    have hword {k : Nat} (hk : k + 4 ≤ (twoCoresData n).length) :=
      word_image_data (twoCores_fits n) [] (p := (8, twoCores, twoCoresData n)) List.mem_cons_self hk
    rw [hlength] at hword
    have hi' : i < 2 := hi
    match i, hi' with
    | 0, _ => exact congrArg (· != 0) (hword (k := 0) (by decide))
    | 1, _ => exact congrArg (· != 0) (hword (k := 8) (by decide))
  terminated h hh _ := by
    rw [List.mem_singleton.mp hh]
    decide

/-- The sensors of a table: those of its recognised metrics, in the order of the table, and a
message for each of the others. -/
theorem createSensors_steady {size count : Nat} {table : List Header} {nonzero : Nat → Bool}
    (hsteady : Steady m size count table nonzero) (hsize : size + 2 ^ 24 + 32 ≤ 2 ^ 32)
    (hbase : ctx.baseSize.toNat = size) :
    ∃ ctx', createSensors m ctx =
        (.ok (tableInfo nonzero (metricFormat.locate 8 table)), ctx') ∧
      (∀ type, ctx'.sensors type =
        ctx.sensors type ++ tableSensors nonzero (metricFormat.locate 8 table) type) ∧
      ctx'.messages.length =
        ctx.messages.length + (leftOut table + if table.length < count then 1 else 0) := by
  have hbase' : ((ctx.visits tableAccesses).allocated 2).baseSize.toNat = size := hbase
  have hparse n : metricFormat.parse (m.bus n) size count hwMetricsHdrsize.toNat = table :=
    hsteady.parse n
  obtain ⟨ctx', heq, hadds⟩ := metricLoop_steady hsize hsteady.alloc hparse hsteady.valid
    hsteady.terminated hbase' (Nat.le_add_left 8 size) []
  refine ⟨ctx', ?_, hadds.sensors, hadds.messages⟩
  rw [createSensors_go hsteady.alloc (hsteady.id _) (hsteady.version _), hsteady.cnt]
  exact heq

theorem createSensors_steady_twoCores :
    ∃ ctx', createSensors (twoCoresMachine fun _ => true) ⟨64, fun _ => none, [], 0, []⟩ =
        (.ok (tableInfo (· == 32) (metricFormat.locate 8 [twoCores])), ctx') ∧
      (∀ type, ctx'.sensors type =
        [] ++ tableSensors (· == 32) (metricFormat.locate 8 [twoCores]) type) ∧
      ctx'.messages.length = 0 + (leftOut [twoCores] + if [twoCores].length < 1 then 1 else 0) :=
  createSensors_steady steady_twoCores (by decide) rfl

end Wfey.Altra
