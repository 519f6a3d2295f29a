import Wfey.AltraTable

/-!
# Accesses to the table

Every access of `altra_hwmon_create_sensors` is to memory of the window, but for the ends of data that
are shorter than what is read of them (`createSensors_inside`). That the metrics stay as they are is
needed: the driver checks that a metric lies in the window before it reads its information word once
more.
-/

namespace Wfey.Altra

open Format

variable {m : Machine}

/-! ## What is accessed

Each function of the module is given the accesses it makes, as a condition on the entries that it
adds to the log. `Visits` composes along a run. -/

/-- All that has been done in between are accesses of a kind. -/
structure Visits (P : Access → Prop) (ctx ctx' : Context) : Prop where
  baseSize : ctx'.baseSize = ctx.baseSize
  log : ∃ accesses, ctx'.log = accesses ++ ctx.log ∧ ∀ access ∈ accesses, P access

namespace Visits

variable {P Q : Access → Prop} {ctx ctx₁ ctx₂ : Context}

theorem refl (P : Access → Prop) (ctx : Context) : Visits P ctx ctx :=
  ⟨rfl, [], rfl, fun _ h => (List.not_mem_nil h).elim⟩

theorem trans (h₁ : Visits P ctx ctx₁) (h₂ : Visits P ctx₁ ctx₂) : Visits P ctx ctx₂ := by
  obtain ⟨hbase₁, accesses₁, hlog₁, hmem₁⟩ := h₁
  obtain ⟨hbase₂, accesses₂, hlog₂, hmem₂⟩ := h₂
  refine ⟨hbase₂.trans hbase₁, accesses₂ ++ accesses₁, ?_, ?_⟩
  · rw [hlog₂, hlog₁, List.append_assoc]
  · intro access haccess
    exact (List.mem_append.mp haccess).elim (hmem₂ access) (hmem₁ access)

theorem mono (h : Visits P ctx ctx₁) (hPQ : ∀ access, P access → Q access) :
    Visits Q ctx ctx₁ := by
  obtain ⟨hbase, accesses, hlog, hmem⟩ := h
  exact ⟨hbase, accesses, hlog, fun access haccess => hPQ access (hmem access haccess)⟩

/-- The accesses of a list are all of a kind if each one is. -/
theorem visits {accesses : List Access} (h : ∀ access ∈ accesses, P access) (ctx : Context) :
    Visits P ctx (ctx.visits accesses) :=
  ⟨rfl, accesses.reverse, rfl, fun access haccess => h access (List.mem_reverse.mp haccess)⟩

theorem setList (ctx : Context) (type : SensorType) (list : Option SensorList) :
    Visits P ctx (ctx.setList type list) :=
  ⟨rfl, [], rfl, fun _ h => (List.not_mem_nil h).elim⟩

theorem allocated (ctx : Context) (k : Nat) : Visits P ctx (ctx.allocated k) :=
  ⟨rfl, [], rfl, fun _ h => (List.not_mem_nil h).elim⟩

theorem report (ctx : Context) (message : Message) : Visits P ctx (ctx.report message) :=
  ⟨rfl, [], rfl, fun _ h => (List.not_mem_nil h).elim⟩

end Visits

section

variable {ctx : Context} {hwInfo metricInfo : UInt32} {label : List UInt8} {total left i j : Nat}

/-- Growing the list touches no memory of the table. -/
theorem growList_visits (P : Access → Prop) (m : Machine) (ctx : Context) (type : SensorType)
    (total : Nat) : Visits P ctx (growList m ctx type total).2 := by
  cases halloc : m.alloc ctx.allocs with
  | true =>
      rw [growList_true halloc]
      exact (Visits.allocated ctx 1).trans (.setList ..)
  | false =>
      cases hlist : ctx.sensorList type with
      | none =>
          rw [growList_null halloc hlist]
          exact .allocated ctx 1
      | some list =>
          rw [growList_false halloc hlist]
          exact .allocated ctx 1

/-- Filling the list looks at the data again, each channel once. -/
theorem fillSensors_visits (m : Machine) (hwInfo metricInfo : UInt32) (label : List UInt8)
    (total left i j : Nat) (ctx : Context) :
    Visits (· ∈ dataAccesses metricInfo (dataSizeRd hwInfo) left i) ctx
      (fillSensors m hwInfo metricInfo label total left i j ctx).2 := by
  induction left generalizing i j ctx with
  | zero => exact .refl _ _
  | succ left ih =>
      have hhere : Visits (· ∈ dataAccesses metricInfo (dataSizeRd hwInfo) (left + 1) i) ctx
          (ctx.visit (dataAccess (dataReg metricInfo (dataSizeRd hwInfo) i)
            (dataSizeRd hwInfo))) :=
        ⟨rfl, [_], rfl, fun a ha => by rw [List.mem_singleton.mp ha]; exact List.mem_cons_self⟩
      have hrest {j : Nat} {ctx : Context} :
          Visits (· ∈ dataAccesses metricInfo (dataSizeRd hwInfo) (left + 1) i) ctx
            (fillSensors m hwInfo metricInfo label total left (i + 1) j ctx).2 :=
        (ih (i + 1) j ctx).mono fun a ha => List.mem_cons_of_mem _ ha
      rw [fillSensors, sensorIsValid_eq]
      -- the access of this channel comes first, whatever becomes of the channel
      dsimp only
      split
      · split
        · exact hhere
        · next list hlist =>
            split
            · next hlt =>
                split
                · exact hhere.trans (.setList ..)
                · exact (hhere.trans (.setList ..)).trans hrest
            · exact hhere
      · exact hhere.trans hrest

/-- So does everything that follows the first look. -/
theorem addSensors_visits (m : Machine) (hwInfo metricInfo : UInt32) (label : List UInt8)
    (total : Nat) (ctx : Context) :
    Visits (· ∈ allDataAccesses hwInfo metricInfo) ctx
      (addSensors m hwInfo metricInfo label total ctx).2 := by
  have hgrow := growList_visits (· ∈ allDataAccesses hwInfo metricInfo) m ctx
    (unit2type (unitRd hwInfo)) total
  unfold addSensors
  dsimp only
  split
  · next heq =>
      rw [heq] at hgrow
      exact hgrow
  · next ctx₁ heq =>
      rw [heq] at hgrow
      have hconfig := hgrow.trans (.allocated ctx₁ 1)
      have hfill := fillSensors_visits m hwInfo metricInfo label total (dataCntRd hwInfo).toNat 0 0
        (ctx₁.allocated 1)
      -- the allocation of the config array may fail, and then the data is not read again
      rw [zalloc_eq]
      cases m.alloc ctx₁.allocs with
      | false => exact hconfig
      | true =>
          dsimp only
          split
          · next heq =>
              rw [heq] at hfill
              exact hconfig.trans hfill
          · next heq =>
              rw [heq] at hfill
              exact hconfig.trans hfill

/-- The accesses to a metric: to its data only if it is recognised. -/
theorem createSensor_visits (m : Machine) (ctx : Context) (metricInfo : UInt32) :
    Visits (fun access => access ∈ headAccesses metricInfo ∨
      m.Recognised metricInfo ctx.log.length ∧
        access ∈ allDataAccesses (m.infoAt metricInfo ctx.log.length) metricInfo) ctx
      (createSensor m ctx metricInfo).2 := by
  have hhead : Visits (fun access => access ∈ headAccesses metricInfo ∨
      m.Recognised metricInfo ctx.log.length ∧
        access ∈ allDataAccesses (m.infoAt metricInfo ctx.log.length) metricInfo) ctx
      (ctx.visits (headAccesses metricInfo)) := .visits (fun _ h => .inl h) ctx
  by_cases hunit : unit2type (unitRd (m.infoAt metricInfo ctx.log.length)) = .max
  · -- an unknown unit: only the info word has been read
    rw [createSensor_of_max hunit]
    refine (Visits.visits (fun access haccess => .inl ?_) ctx).trans (.report ..)
    rw [List.mem_singleton.mp haccess]
    exact List.mem_cons_self
  · by_cases hlabel : cstring (m.labelArray metricInfo (ctx.log.length + 1)) = []
    · -- no label: the header has been read, and no data
      rw [createSensor_of_empty hunit hlabel]
      exact hhead.trans (.report ..)
    · rw [createSensor_recognised ⟨hunit, hlabel⟩]
      refine (hhead.trans (.visits (fun _ h => .inr ⟨⟨hunit, hlabel⟩, h⟩) _)).trans ?_
      exact (addSensors_visits ..).mono fun _ h => .inr ⟨⟨hunit, hlabel⟩, h⟩

end

def HeadAccess (off : Nat) (access : Access) : Prop := ∃ k ≤ 4, access = ⟨off + 4 * k, 4⟩

def DataAccess (off : Nat) (h : Header) (access : Access) : Prop :=
  ∃ i < h.dataCnt, access = ⟨off + 24 + i * h.dataSize.toNat, if h.dataSize = 4 then 4 else 8⟩

/-- The label and the info word are read where the header has them. -/
theorem headAccess_of_mem {reg : UInt32} (hreg : reg.toNat + 24 < 2 ^ 32) {access : Access}
    (hmem : access ∈ headAccesses reg) : HeadAccess reg.toNat access := by
  have haddr (k : Nat) (hk : k ≤ 16) : (reg + UInt32.ofNat k).toNat = reg.toNat + k := by
    rw [UInt32.toNat_add, UInt32.toNat_ofNat']
    omega
  rcases List.mem_cons.mp hmem with rfl | hmem
  · exact ⟨4, Nat.le_refl 4, congrArg (Access.mk · 4) (haddr 16 (by decide))⟩
  · obtain ⟨k, hk, rfl⟩ := List.mem_map.mp hmem
    obtain ⟨i, hi, rfl⟩ := List.mem_range'.mp hk
    rw [Nat.zero_add, haddr _ (by omega)]
    exact ⟨i, hi.le, rfl⟩

/-- A metric that ends before 2^32 is read without a wrap, each channel in its place. -/
theorem dataAccess_of_mem {reg : UInt32} {h : Header}
    (hfits : metricFormat.finish reg.toNat h < 2 ^ 32) {access : Access}
    (hmem : access ∈ allDataAccesses h.info reg) : DataAccess reg.toNat h access := by
  obtain ⟨i, hi, rfl⟩ := List.mem_map.mp hmem
  have hlt : i < h.dataCnt := by
    have hlt := (List.mem_range'_1.mp hi).2
    rwa [Nat.zero_add] at hlt
  refine ⟨i, hlt, ?_⟩
  rw [← toNat_dataReg hfits hlt]
  rfl

/-! ## A table that does not change

From here on the headers are the same at every access. Then the walk of the module is the walk of
the format, as long as no offset wraps. -/

/-- The accesses that a table allows: to aligned words in the window, and to the data of the metrics
of which sensors are made. -/
def TableAccess (size : Nat) (recs : List (Nat × Header)) (access : Access) : Prop :=
  (∃ addr, 4 ∣ addr ∧ addr + 4 ≤ size ∧ access = ⟨addr, 4⟩) ∨
    ∃ r ∈ recs, r.2.Recognised ∧ DataAccess r.1 r.2 access

/-- The header of a metric that does not fit is still read, where the metric would be. -/
theorem TableAccess.of_head {size off : Nat} {recs : List (Nat × Header)} {access : Access}
    (hdvd : 8 ∣ off) (hoff : off + 24 ≤ size) (h : HeadAccess off access) :
    TableAccess size recs access := by
  obtain ⟨k, hk, rfl⟩ := h
  exact .inl ⟨off + 4 * k, by omega, by omega, rfl⟩

theorem TableAccess.mono {size : Nat} {recs recs' : List (Nat × Header)} (hsub : recs ⊆ recs')
    {access : Access} (h : TableAccess size recs access) : TableAccess size recs' access := by
  rcases h with hhead | ⟨r, hr, hdata⟩
  · exact .inl hhead
  · exact .inr ⟨r, hsub hr, hdata⟩

/-- A metric that fits ends before the limit, and aligning its end adds at most 7. -/
theorem next_le {size : Nat} {reg : UInt32} {h : Header}
    (hfits : metricFormat.finish reg.toNat h ≤ size) :
    metricFormat.next reg.toNat h ≤ size + 8 := by
  have hlt := alignUp_lt metricFormat.align_pos (metricFormat.finish reg.toNat h)
  have hnext : metricFormat.next reg.toNat h < metricFormat.finish reg.toNat h + 8 := hlt
  omega

section

variable {size : Nat} (hsize : size + 2 ^ 24 + 32 ≤ 2 ^ 32) {reg : UInt32} {h : Header}
  {ctx : Context}

include hsize

/-- The driver's check of a header, in `u32`, is the check of the format. -/
theorem lt_head_iff (hbase : ctx.baseSize.toNat = size) (hreg : reg.toNat ≤ size + 8) :
    ctx.baseSize < reg + hwMetricHdrsize ↔ size < reg.toNat + 24 := by
  have hadd : (reg + hwMetricHdrsize).toNat = reg.toNat + 24 := by
    rw [UInt32.toNat_add]
    exact Nat.mod_eq_of_lt (by show reg.toNat + 24 < _; omega)
  rw [UInt32.lt_iff_toNat_lt, hbase, hadd]

/-- And so is its check of the end of a metric. -/
theorem lt_end_iff (hbase : ctx.baseSize.toNat = size) (hreg : reg.toNat + 24 ≤ size) :
    ctx.baseSize < hwEndReg reg h.info ↔ size < metricFormat.finish reg.toNat h := by
  rw [UInt32.lt_iff_toNat_lt, hbase, toNat_hwEndReg (by omega)]

/-- The next metric is where the format has it. -/
theorem toNat_next (hfits : metricFormat.finish reg.toNat h ≤ size) :
    ((hwEndReg reg h.info + 7) / 8 * 8).toNat = metricFormat.next reg.toNat h := by
  have hhead := RecordFormat.le_finish (F := metricFormat) reg.toNat h
  have hend : (hwEndReg reg h.info).toNat = metricFormat.finish reg.toNat h :=
    toNat_hwEndReg (by omega) h
  rw [toNat_align (by omega), hend]
  rfl

/-- What the loop reads of a metric that fits. -/
theorem createSensor_inside (hheader : ∀ n, metricFormat.header (m.bus n) reg.toNat = h)
    (hfits : metricFormat.finish reg.toNat h ≤ size) (hdvd : 8 ∣ reg.toNat) (ctx : Context) :
    Visits (TableAccess size [(reg.toNat, h)]) ctx (createSensor m ctx reg).2 := by
  have hhead := RecordFormat.le_finish (F := metricFormat) reg.toNat h
  have hreg : reg.toNat + 24 ≤ size := le_trans hhead hfits
  refine (createSensor_visits m ctx reg).mono fun access haccess => ?_
  rcases haccess with hmem | ⟨hrec, hmem⟩
  · exact .of_head hdvd hreg (headAccess_of_mem (by omega) hmem)
  · rw [infoAt_eq hheader (by omega)] at hmem
    have hdata : DataAccess reg.toNat h access := dataAccess_of_mem (by omega) hmem
    exact .inr ⟨_, List.mem_singleton.mpr rfl, (recognised_iff hheader (by omega) _).mp hrec, hdata⟩

/-- By induction on the metrics that are left. A metric that fits is read in its own place, and one
that does not ends the loop after its header. -/
theorem metricLoop_inside {left : Nat} {table : List Header}
    (hparse : ∀ n, metricFormat.parse (m.bus n) size left reg.toNat = table)
    (hbase : ctx.baseSize.toNat = size) (hdvd : 8 ∣ reg.toNat) (hreg : reg.toNat ≤ size + 8)
    (info : List ChannelInfo) :
    Visits (TableAccess size (metricFormat.locate reg.toNat table)) ctx
      (metricLoop m left reg info ctx).2 := by
  induction left generalizing reg ctx table info with
  | zero => exact .refl _ _
  | succ left ih =>
      rw [metricLoop]
      split
      · -- no room for a header, and nothing is read
        exact .report ..
      · next hhead =>
          rw [lt_head_iff hsize hbase hreg, Nat.not_lt] at hhead
          rw [read32_info]
          dsimp only
          have hinfo {recs : List (Nat × Header)} : Visits (TableAccess size recs) ctx
              (ctx.visit ⟨(reg + 0x10).toNat, 4⟩) := by
            refine Visits.visits
              (fun access (haccess : access ∈ [⟨(reg + 0x10).toNat, 4⟩]) => ?_) ctx
            refine .of_head hdvd hhead (headAccess_of_mem (by omega) ?_)
            rw [List.mem_singleton.mp haccess]
            exact List.mem_cons_self
          split
          · -- the info word has been read to find that the metric does not fit
            exact hinfo.trans (.report ..)
          · next hend =>
              -- the metric fits, so the walk finds it as well
              have hend' : ¬ ctx.baseSize < hwEndReg reg (m.infoAt reg ctx.log.length) := hend
              rw [infoAt_eq_header (by omega), lt_end_iff hsize hbase hhead] at hend'
              cases table with
              | nil =>
                  rcases RecordFormat.parse_eq_nil.mp (hparse ctx.log.length) with hshort | hlong
                  · exact absurd hhead (Nat.not_le.mpr hshort)
                  · exact absurd hlong hend'
              | cons h hs =>
                  have hcons n := RecordFormat.parse_eq_cons.mp (hparse n)
                  have hheader n := (hcons n).1
                  have hfits := (hcons 0).2.1
                  have hnext := toNat_next hsize hfits
                  have hsensor : Visits (TableAccess size (metricFormat.locate reg.toNat (h :: hs)))
                      ctx (createSensor m (ctx.visit ⟨(reg + 0x10).toNat, 4⟩) reg).2 :=
                    hinfo.trans <| (createSensor_inside hsize hheader hfits hdvd _).mono
                      fun _ => TableAccess.mono (List.singleton_sublist.mpr List.mem_cons_self).subset
                  rw [infoAt_eq hheader (by omega)]
                  -- the rest of the table, from the next metric on
                  have hloop {ctx' : Context} (hvisits : Visits (TableAccess size
                      (metricFormat.locate reg.toNat (h :: hs))) ctx ctx') (info : List ChannelInfo) :
                      Visits (TableAccess size (metricFormat.locate reg.toNat (h :: hs))) ctx
                        (metricLoop m left ((hwEndReg reg h.info + 7) / 8 * 8) info ctx').2 := by
                    have hrest n : metricFormat.parse (m.bus n) size left
                        ((hwEndReg reg h.info + 7) / 8 * 8).toNat = hs := by
                      rw [hnext]
                      exact (hcons n).2.2
                    refine hvisits.trans ((ih hrest ?_ ?_ ?_ info).mono fun _ => ?_)
                    · rw [hvisits.baseSize, hbase]
                    · rw [hnext]
                      exact dvd_alignUp 8 _
                    · rw [hnext]
                      exact next_le hfits
                    · rw [hnext]
                      exact TableAccess.mono (List.subset_cons_self _ _)
                  split
                  · next heq =>
                      rw [heq] at hsensor
                      exact hloop hsensor info
                  · next heq =>
                      rw [heq] at hsensor
                      -- a fault ends the loop with this metric
                      exact hsensor
                  · next heq =>
                      rw [heq] at hsensor
                      exact hloop hsensor _

end

/-- What the kinds of accesses mean for addresses: a metric ends before the limit, and its accesses
are aligned where its size is one that the driver knows. -/
theorem TableAccess.inside {size : Nat} {recs : List (Nat × Header)} {access : Access}
    (haccess : TableAccess size recs access) (hrecs : ∀ r ∈ recs, 8 ∣ r.1 ∧
      metricFormat.finish r.1 r.2 ≤ size) :
    access.addr + access.width ≤ size + 8 ∧
      ((∀ r ∈ recs, r.2.Recognised → r.2.Sized) → access.addr + access.width ≤ size) ∧
      ((∀ r ∈ recs, r.2.Recognised → r.2.dataSize = 4 ∨ 8 ∣ r.2.dataSize.toNat) →
        access.width ∣ access.addr) := by
  rcases haccess with ⟨addr, hdvd, haddr, rfl⟩ | ⟨r, hr, hrec, i, hi, rfl⟩
  · -- a word of the table or of a header
    exact ⟨by show addr + 4 ≤ size + 8; omega, fun _ => haddr, fun _ => hdvd⟩
  · -- a channel: channels lie one behind the other, and the last one ends where the metric does
    obtain ⟨hdvd, hfits⟩ := hrecs r hr
    have hnext : (i + 1) * r.2.dataSize.toNat ≤ r.2.dataSize.toNat * r.2.dataCnt := by
      rw [Nat.mul_comm]
      exact Nat.mul_le_mul_left _ hi
    rw [Nat.succ_mul] at hnext
    rw [finish_eq] at hfits
    have hfour (h4 : r.2.dataSize = 4) : r.2.dataSize.toNat = 4 := by rw [h4]; rfl
    dsimp only
    refine ⟨?_, fun hsized => ?_, fun haligned => ?_⟩
    · split_ifs <;> omega
    · -- the driver reads four bytes of a channel of four bytes, and eight of any other
      rcases hsized r hr hrec with h4 | h8
      · have h4' := hfour h4
        rw [if_pos h4]
        omega
      · split_ifs <;> omega
    · rcases haligned r hr hrec with h4 | h8
      · rw [if_pos h4, hfour h4]
        omega
      · have hmul : 8 ∣ i * r.2.dataSize.toNat := Dvd.dvd.mul_left h8 i
        split_ifs <;> omega

theorem Context.allocs_visit (ctx : Context) (access : Access) :
    (ctx.visit access).allocs = ctx.allocs := rfl

theorem Context.allocs_allocated (ctx : Context) (k : Nat) :
    (ctx.allocated k).allocs = ctx.allocs + k := rfl

def tableAccesses : List Access := [⟨0, 4⟩, ⟨4, 4⟩]

/-- The loop over the metrics is reached, or there have been no other accesses than to the head of
the table. -/
theorem createSensors_cases (m : Machine) (ctx : Context) :
    (∃ accesses k, accesses ⊆ tableAccesses ∧
      (createSensors m ctx).2 = (ctx.visits accesses).allocated k) ∨
    createSensors m ctx =
      metricLoop m (cntRd (UInt32.ofNat (word (m.bus (ctx.log.length + 1)) 4 4))).toNat
        hwMetricsHdrsize [] ((ctx.visits tableAccesses).allocated 2) := by
  unfold createSensors read32
  dsimp only
  split
  · exact .inl ⟨[⟨0, 4⟩], 0, by simp [tableAccesses], rfl⟩
  · split
    · exact .inl ⟨tableAccesses, 0, List.Subset.refl _, rfl⟩
    · rw [zalloc_eq, Context.allocs_visit, Context.allocs_visit]
      -- two allocations, for the device and for the array of metrics
      cases m.alloc ctx.allocs with
      | false => exact .inl ⟨tableAccesses, 1, List.Subset.refl _, rfl⟩
      | true =>
          dsimp only
          rw [zalloc_eq, Context.allocs_allocated, Context.allocs_visit, Context.allocs_visit]
          cases m.alloc (ctx.allocs + 1) with
          | false => exact .inl ⟨tableAccesses, 2, List.Subset.refl _, rfl⟩
          | true => exact .inr rfl

/-- While the metrics stay as they are, whatever happens to their data, no access is more than eight
bytes behind the window. None is outside if every datum is as long as the access that reads it, and
each is aligned if the data are words. -/
theorem createSensors_inside {m : Machine} {ctx : Context} {size : Nat} {table : List Header}
    (hsize : 8 ≤ size ∧ size + 2 ^ 24 + 32 ≤ 2 ^ 32) (hbase : ctx.baseSize.toNat = size)
    (hlog : ctx.log = [])
    (hparse : ∀ n, metricFormat.parse (m.bus n) size
      (cntRd (UInt32.ofNat (word (m.bus 1) 4 4))).toNat 8 = table) :
    ∀ access ∈ (createSensors m ctx).2.log,
      access.addr + access.width ≤ size + 8 ∧
      ((∀ h ∈ table, h.Recognised → h.Sized) → access.addr + access.width ≤ size) ∧
      ((∀ h ∈ table, h.Recognised → h.dataSize = 4 ∨ 8 ∣ h.dataSize.toNat) →
        access.width ∣ access.addr) := by
  have hhead : ∀ access ∈ tableAccesses, TableAccess size (metricFormat.locate 8 table) access := by
    intro access haccess
    rcases List.mem_pair.mp haccess with rfl | rfl
    · exact .inl ⟨0, by decide, by omega, rfl⟩
    · exact .inl ⟨4, by decide, by omega, rfl⟩
  have hvisits : Visits (TableAccess size (metricFormat.locate 8 table)) ctx
      (createSensors m ctx).2 := by
    rcases createSensors_cases m ctx with ⟨accesses, k, hsub, heq⟩ | heq
    · rw [heq]
      exact (Visits.visits (fun access h => hhead access (hsub h)) ctx).trans (.allocated _ k)
    · rw [heq]
      refine ((Visits.visits hhead ctx).trans (.allocated _ 2)).trans ?_
      have hbase' : ((ctx.visits tableAccesses).allocated 2).baseSize.toNat = size := hbase
      have hdvd : 8 ∣ hwMetricsHdrsize.toNat := by decide
      -- the loop starts behind the two words of the table
      refine metricLoop_inside hsize.2 (fun n => ?_) hbase' hdvd (Nat.le_add_left 8 size) []
      rw [hlog]
      exact hparse n
  obtain ⟨accesses, hlog', hmem⟩ := hvisits.log
  rw [hlog, List.append_nil] at hlog'
  rw [hlog']
  intro access haccess
  have hparse₀ := hparse 0
  -- every metric that the walk has found fits
  obtain ⟨hbound, hsized, haligned⟩ := (hmem access haccess).inside fun r hr =>
    ⟨RecordFormat.dvd_of_mem_locate (by decide) hr, (RecordFormat.mem_locate hparse₀ hr).2.1⟩
  have hheader {r : Nat × Header} (hr : r ∈ metricFormat.locate 8 table) : r.2 ∈ table := by
    rw [← RecordFormat.map_snd_locate (F := metricFormat) 8 table]
    exact List.mem_map_of_mem hr
  exact ⟨hbound, fun h => hsized fun r hr => h r.2 (hheader hr),
    fun h => haligned fun r hr => h r.2 (hheader hr)⟩

/-! ## A run -/

/-- `Core Energy`, of two cores, in micro joule and eight bytes. -/
def twoCores : Header where
  label k := [67, 111, 114, 101, 32, 69, 110, 101, 114, 103, 121].getD k 0
  info := 0x00020812

/-- The first energy changes with every access, but not the half by which it is valid. The second one
is zero. -/
def twoCoresData (n : Nat) : List UInt8 := [1, 0, 0, 0, UInt8.ofNat n, 0, 0, 0] ++ List.replicate 8 0

/-- A machine on whose stack there are zeros. -/
def zeroStack (bus : Nat → Memory) (alloc : Nat → Bool) : Machine where
  bus := bus
  alloc := alloc
  stack _ := [0, 0, 0]
  length_stack _ := rfl

def twoCoresMachine (alloc : Nat → Bool) : Machine :=
  zeroStack (fun n => ofList (image [(twoCores, twoCoresData n)] ++ [])) alloc

/-- The example's table: eight bytes, a header and two words of data. -/
theorem length_image_twoCores (n : Nat) : (image [(twoCores, twoCoresData n)]).length = 48 := by
  have hdata : (twoCoresData n).length = metricFormat.dataSize twoCores := rfl
  have hrecord := RecordFormat.length_record hdata
  rw [length_image]
  show 8 + (metricFormat.record _ _ ++ []).length = 48
  rw [List.append_nil, hrecord]
  decide

theorem twoCores_fits (n : Nat) : ∀ r ∈ [(twoCores, twoCoresData n)],
    r.2.length = r.1.dataSize.toNat * r.1.dataCnt := by
  intro r hr
  rw [List.mem_singleton.mp hr]
  show 16 = twoCores.dataSize.toNat * twoCores.dataCnt
  decide

theorem parse_twoCores (n : Nat) :
    metricFormat.parse (ofList (image [(twoCores, twoCoresData n)] ++ [])) 64 1 8 = [twoCores] :=
  parse_image (twoCores_fits n) ((length_image_twoCores n).trans_le (by decide)) []

theorem createSensors_inside_twoCores :
    twoCores.Sized ∧
      ∀ access ∈ (createSensors (twoCoresMachine (· != 3)) ⟨64, fun _ => none, [], 0, []⟩).2.log,
        access.addr + access.width ≤ 64 ∧ access.width ∣ access.addr := by
  have hsized : twoCores.Sized := .inr (by decide)
  have hparse n : metricFormat.parse ((twoCoresMachine (· != 3)).bus n) 64
      (cntRd (UInt32.ofNat (word ((twoCoresMachine (· != 3)).bus 1) 4 4))).toNat 8 = [twoCores] := by
    show metricFormat.parse _ _ (cntRd (UInt32.ofNat (word (ofList (image _ ++ [])) 4 4))).toNat 8 = _
    rw [word_image_info, (rd_image (by decide)).2]
    exact parse_twoCores n
  refine ⟨hsized, fun access haccess => ?_⟩
  obtain ⟨-, hinside, haligned⟩ := createSensors_inside (by decide) rfl rfl hparse access haccess
  exact ⟨hinside fun h hh _ => by rw [List.mem_singleton.mp hh]; exact hsized,
    haligned fun h hh _ => .inr (by rw [List.mem_singleton.mp hh]; decide)⟩

end Wfey.Altra
