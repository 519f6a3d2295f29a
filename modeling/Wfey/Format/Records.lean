import Wfey.Format.Bytes

/-!
# Tables of records

A table is a run of records, each a header and the data behind it, whose length the header tells; the
next record starts at the next multiple of the alignment. `parse` walks through such a table and stops
at the first record that does not fit. `parse_layout` is the round trip; what a walk finds lies in the
memory it was given, and is aligned (`mem_locate`, `dvd_of_mem_locate`).
-/

namespace Format

/-- The least multiple of `align` that is not below `n`. -/
def alignUp (align n : Nat) : Nat := (n + (align - 1)) / align * align

theorem dvd_alignUp (align n : Nat) : align ∣ alignUp align n := Nat.dvd_mul_left _ _

/-- Aligning goes up. -/
theorem le_alignUp {align : Nat} (h : 0 < align) (n : Nat) : n ≤ alignUp align n := by
  have hlt := Nat.lt_div_mul_add (a := n + (align - 1)) h
  unfold alignUp
  omega

/-- And never by a whole step. -/
theorem alignUp_lt {align : Nat} (h : 0 < align) (n : Nat) : alignUp align n < n + align := by
  have hle := Nat.div_mul_le_self (n + (align - 1)) align
  unfold alignUp
  omega

/-- An aligned offset in front makes no difference. -/
theorem alignUp_add {align off : Nat} (h : 0 < align) (hoff : align ∣ off) (n : Nat) :
    alignUp align (off + n) = off + alignUp align n := by
  obtain ⟨k, rfl⟩ := hoff
  unfold alignUp
  rw [Nat.add_assoc, Nat.mul_add_div h, Nat.add_mul, Nat.mul_comm k align]

/-- How the headers are written, and what they say of the data. -/
structure RecordFormat (η : Type*) where
  headerSize : Nat
  encode : η → List UInt8
  decode : List UInt8 → η
  dataSize : η → Nat
  align : Nat
  align_pos : 0 < align
  length_encode : ∀ h, (encode h).length = headerSize
  decode_encode : ∀ h, decode (encode h) = h

namespace RecordFormat

variable {η : Type*} (F : RecordFormat η)

def finish (off : Nat) (h : η) : Nat := off + F.headerSize + F.dataSize h

def next (off : Nat) (h : η) : Nat := alignUp F.align (F.finish off h)

def header (mem : Memory) (off : Nat) : η := F.decode (bytesAt mem off F.headerSize)

/-- The headers of at most `left` records from `off` on, as far as they fit below `limit`. -/
def parse (mem : Memory) (limit : Nat) : Nat → Nat → List η
  | 0, _ => []
  | left + 1, off =>
    if limit < off + F.headerSize then []
    else if limit < F.finish off (F.header mem off) then []
    else F.header mem off :: parse mem limit left (F.next off (F.header mem off))

/-- The records with the places where they start. -/
def locate : Nat → List η → List (Nat × η)
  | _, [] => []
  | off, h :: hs => (off, h) :: locate (F.next off h) hs

/-- The bytes of a record, with the padding behind it. -/
def record (h : η) (data : List UInt8) : List UInt8 :=
  F.encode h ++ data ++
    List.replicate (alignUp F.align (F.finish 0 h) - F.finish 0 h) 0

def layout (recs : List (η × List UInt8)) : List UInt8 := recs.flatMap fun r => F.record r.1 r.2

/-- The records with their data, and the places where they start. -/
def place : Nat → List (η × List UInt8) → List (Nat × η × List UInt8)
  | _, [] => []
  | off, r :: recs => (off, r) :: place (F.next off r.1) recs

variable {F} {mem : Memory} {limit left off : Nat} {h : η} {hs : List η}

/-! ## A walk -/

theorem finish_le_next (off : Nat) (h : η) : F.finish off h ≤ F.next off h :=
  le_alignUp F.align_pos _

theorem le_finish (off : Nat) (h : η) : off + F.headerSize ≤ F.finish off h :=
  Nat.le_add_right _ _

/-- One step of a walk: the first record fits, and the walk goes on behind it. -/
theorem parse_eq_cons : F.parse mem limit (left + 1) off = h :: hs ↔
    F.header mem off = h ∧ F.finish off h ≤ limit ∧
      F.parse mem limit left (F.next off h) = hs := by
  rw [parse]
  constructor
  · intro heq
    split_ifs at heq with hshort hlong
    obtain ⟨rfl, htail⟩ := List.cons.inj heq
    exact ⟨rfl, Nat.not_lt.mp hlong, htail⟩
  · rintro ⟨rfl, hfits, rfl⟩
    have hheader := le_finish (F := F) off (F.header mem off)
    rw [if_neg (by omega), if_neg (by omega)]

/-- The walk ends here: the header does not fit, or the data behind it. -/
theorem parse_eq_nil : F.parse mem limit (left + 1) off = [] ↔
    limit < off + F.headerSize ∨ limit < F.finish off (F.header mem off) := by
  rw [parse]
  constructor
  · intro heq
    split_ifs at heq with hshort hlong
    · exact .inl hshort
    · exact .inr hlong
  · rintro (hshort | hlong)
    · exact if_pos hshort
    · split_ifs
      · rfl
      · rfl

/-- What the walk finds lies in the memory, and is what is written there. -/
theorem mem_locate (hparse : F.parse mem limit left off = hs) {o : Nat}
    (hmem : (o, h) ∈ F.locate off hs) :
    off ≤ o ∧ F.finish o h ≤ limit ∧ F.header mem o = h := by
  induction left generalizing off hs with
  | zero =>
      obtain rfl : [] = hs := hparse
      cases hmem
  | succ left ih =>
      cases hs with
      | nil => cases hmem
      | cons g hs =>
          obtain ⟨hheader, hfits, htail⟩ := parse_eq_cons.mp hparse
          rcases List.mem_cons.mp hmem with heq | hmem
          · obtain ⟨rfl, rfl⟩ := Prod.mk.inj heq
            exact ⟨Nat.le_refl _, hfits, hheader⟩
          · obtain ⟨hle, hrest⟩ := ih htail hmem
            have hgt := finish_le_next (F := F) off g
            have hheader := le_finish (F := F) off g
            exact ⟨by omega, hrest⟩

theorem map_snd_locate (off : Nat) (hs : List η) : (F.locate off hs).map Prod.snd = hs := by
  induction hs generalizing off with
  | nil => rfl
  | cons g hs ih => exact congrArg (g :: ·) (ih _)

/-- All records start aligned if the first does. -/
theorem dvd_of_mem_locate (hoff : F.align ∣ off) {o : Nat} (hmem : (o, h) ∈ F.locate off hs) :
    F.align ∣ o := by
  induction hs generalizing off with
  | nil => cases hmem
  | cons g hs ih =>
      rcases List.mem_cons.mp hmem with heq | hmem
      · obtain ⟨rfl, rfl⟩ := Prod.mk.inj heq
        exact hoff
      · exact ih (dvd_alignUp _ _) hmem

/-! ## What was laid out is found -/

/-- A record is padded up to where the next one starts. -/
theorem length_record {data : List UInt8} (hdata : data.length = F.dataSize h) :
    (F.record h data).length = alignUp F.align (F.finish 0 h) := by
  have hle := le_alignUp F.align_pos (F.finish 0 h)
  have hfinish : F.finish 0 h = F.headerSize + F.dataSize h := by
    rw [finish, Nat.zero_add]
  simp only [record, List.length_append, List.length_replicate, F.length_encode, hdata]
  omega

/-- So laying out and walking advance by the same. -/
theorem next_eq (hoff : F.align ∣ off) (h : η) :
    F.next off h = off + alignUp F.align (F.finish 0 h) := by
  rw [← alignUp_add F.align_pos hoff, next, finish, finish, Nat.zero_add, Nat.add_assoc]

/-- A table that has been laid out behind `pre` is what the walk finds there. -/
theorem parse_layout {recs : List (η × List UInt8)}
    (hdata : ∀ r ∈ recs, r.2.length = F.dataSize r.1) (pre post : List UInt8)
    (hpre : F.align ∣ pre.length) (hlimit : pre.length + (F.layout recs).length ≤ limit) :
    F.parse (ofList (pre ++ F.layout recs ++ post)) limit recs.length pre.length =
      recs.map Prod.fst := by
  induction recs generalizing pre with
  | nil => rfl
  | cons r recs ih =>
      obtain ⟨h, data⟩ := r
      have hlength := length_record (hdata (h, data) List.mem_cons_self)
      have hsplit : F.layout ((h, data) :: recs) = F.record h data ++ F.layout recs := rfl
      have hnext := next_eq hpre h
      have hfinish : F.finish pre.length h ≤ pre.length + (F.record h data).length := by
        rw [hlength, ← hnext]
        exact finish_le_next _ _
      rw [hsplit, List.length_append] at hlimit
      refine parse_eq_cons.mpr ⟨?_, ?_, ?_⟩
      · -- the header of the first record is in front of everything else
        have hheader : pre ++ F.layout ((h, data) :: recs) ++ post = pre ++ F.encode h ++
            (data ++ (List.replicate (alignUp F.align (F.finish 0 h) - F.finish 0 h) 0 ++
              (F.layout recs ++ post))) := by
          rw [hsplit, record]
          simp only [List.append_assoc]
        rw [header, hheader, ← F.length_encode h, bytesAt_ofList, F.decode_encode]
      · exact hfinish.trans (by omega)
      · -- the rest of the table, with this record in front of it
        have hrest := ih (fun r hr => hdata r (List.mem_cons_of_mem _ hr)) (pre ++ F.record h data)
          (by rw [List.length_append, hlength, ← hnext]; exact dvd_alignUp _ _)
          (by rw [List.length_append]; omega)
        rw [List.length_append, hlength, ← hnext] at hrest
        rwa [hsplit, ← List.append_assoc pre]

/-- Placing the records is locating their headers. -/
theorem map_place (off : Nat) (recs : List (η × List UInt8)) :
    (F.place off recs).map (fun p => (p.1, p.2.1)) = F.locate off (recs.map Prod.fst) := by
  induction recs generalizing off with
  | nil => rfl
  | cons r recs ih => exact congrArg ((off, r.1) :: ·) (ih _)

theorem map_snd_place (off : Nat) (recs : List (η × List UInt8)) :
    (F.place off recs).map Prod.snd = recs := by
  induction recs generalizing off with
  | nil => rfl
  | cons r recs ih => exact congrArg (r :: ·) (ih _)

/-- The data of a table are behind the headers. -/
theorem data_layout {recs : List (η × List UInt8)}
    (hdata : ∀ r ∈ recs, r.2.length = F.dataSize r.1) (pre post : List UInt8)
    (hpre : F.align ∣ pre.length) {p : Nat × η × List UInt8} (hp : p ∈ F.place pre.length recs) :
    bytesAt (ofList (pre ++ F.layout recs ++ post)) (p.1 + F.headerSize) p.2.2.length = p.2.2 := by
  induction recs generalizing pre with
  | nil => cases hp
  | cons r recs ih =>
      obtain ⟨h, data⟩ := r
      have hlength := length_record (hdata (h, data) List.mem_cons_self)
      have hsplit : F.layout ((h, data) :: recs) = F.record h data ++ F.layout recs := rfl
      have hnext := next_eq hpre h
      rcases List.mem_cons.mp hp with rfl | hp
      · -- the data of the first record lies behind its header
        have hbehind : pre ++ F.layout ((h, data) :: recs) ++ post = pre ++ F.encode h ++ data ++
            (List.replicate (alignUp F.align (F.finish 0 h) - F.finish 0 h) 0 ++
              (F.layout recs ++ post)) := by
          rw [hsplit, record]
          simp only [List.append_assoc]
        have hat := bytesAt_ofList (pre ++ F.encode h) data
          (List.replicate (alignUp F.align (F.finish 0 h) - F.finish 0 h) 0 ++
            (F.layout recs ++ post))
        rw [List.length_append, F.length_encode, ← hbehind] at hat
        exact hat
      · -- that of any other in the rest of the table
        have hrest := ih (fun r hr => hdata r (List.mem_cons_of_mem _ hr)) (pre ++ F.record h data)
          (by rw [List.length_append, hlength, ← hnext]; exact dvd_alignUp _ _)
          (by rw [List.length_append, hlength, ← hnext]; exact hp)
        rwa [hsplit, ← List.append_assoc pre]

end RecordFormat

end Format
