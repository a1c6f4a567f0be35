import TestEnvironment.Lib.Names

/-!
Records in a stream of bytes: a header of a fixed size, then fields that stand behind
their lengths in two bytes, and a last length that no field has. The reader follows the
lengths; what it accepts are exactly the records whose fields are short enough.
-/
namespace TestEnvironment.Lib

/-- A number in two bytes, the higher one first, without its higher bits. -/
def twoBytes (n : Nat) : List UInt8 := [UInt8.ofNat (n/256),UInt8.ofNat n]
/-- The length behind the last field. -/
def NO_LENGTH : Nat := 2^16-1
structure Record where
  header : List UInt8
  fields : List (List UInt8)
  deriving DecidableEq, Repr

def fieldBytes (field : List UInt8) : List UInt8 := twoBytes field.length ++ field
def Record.bytes (r : Record) : List UInt8 := r.header ++ r.fields.flatMap fieldBytes ++ twoBytes NO_LENGTH
/-- The header has the right size, and every length can be told from the last one. -/
def Record.Readable (size : Nat) (r : Record) : Prop := r.header.length = size ∧ ∀ field ∈ r.fields, field.length < NO_LENGTH


section

/-- The fields up to the last length, and the bytes behind it. -/
def readFields : Nat → List UInt8 → Option (List (List UInt8) × List UInt8)
  | 0, _ => none
  | fuel+1, high :: low :: bytes =>
    if high.toNat*256+low.toNat = NO_LENGTH then some ([],bytes)
    else if bytes.length < high.toNat*256+low.toNat then none
    else (readFields fuel (bytes.drop (high.toNat*256+low.toNat))).map fun read =>
      (bytes.take (high.toNat*256+low.toNat) :: read.1,read.2)
  | _+1, _ => none
def readRecords (size : Nat) : Nat → List UInt8 → Option (List Record)
  | 0, _ => none
  | fuel+1, bytes =>
    if bytes = [] then some []
    else if bytes.length < size then none
    else do
      let (fields,bytes') ← readFields bytes.length (bytes.drop size)
      let records ← readRecords size fuel bytes'
      some (⟨bytes.take size,fields⟩ :: records)
/-- All records of a stream that ends behind the last one. -/
def readAll (size : Nat) (bytes : List UInt8) : Option (List Record) := readRecords size (bytes.length+1) bytes
end

section
variable {n : Nat} {high low : UInt8}

theorem twoBytes_length (n : Nat) : (twoBytes n).length = 2 := rfl
theorem twoBytes_toNat (high low : UInt8) : twoBytes (high.toNat*256+low.toNat) = [high,low] := by
  have less := low.toNat_lt
  have bytes : ∀ b : UInt8, ∀ m, m%256 = b.toNat → UInt8.ofNat m = b := fun b m same =>
    UInt8.toNat_inj.mp (by rw [UInt8.toNat_ofNat',same])
  rw [twoBytes,bytes high _ (by have := high.toNat_lt; omega),bytes low _ (by omega)]
theorem toNat_twoBytes (small : n < 2^16) : (UInt8.ofNat (n/256)).toNat*256+(UInt8.ofNat n).toNat = n := by
  rw [UInt8.toNat_ofNat',UInt8.toNat_ofNat']
  omega
theorem fieldBytes_length (field : List UInt8) : (fieldBytes field).length = field.length+2 := by
  rw [fieldBytes,length_append,twoBytes_length,Nat.add_comm]

theorem fieldBytes_most {most : Nat} {fields : List (List UInt8)} (short : ∀ field ∈ fields, field.length ≤ most) :
    (fields.flatMap fieldBytes).length ≤ fields.length*(most+2) := by
  induction fields with
  | nil => exact Nat.zero_le _
  | cons field fields ih => simp_all [fieldBytes_length,Nat.add_mul,Nat.add_comm,Nat.add_le_add]

end

section
variable {size fuel : Nat} {bytes rest : List UInt8} {fields : List (List UInt8)} {records : List Record}

theorem readFields_bytes (result : readFields fuel bytes = some (fields,rest)) :
    bytes = fields.flatMap fieldBytes ++ twoBytes NO_LENGTH ++ rest ∧ ∀ field ∈ fields, field.length < NO_LENGTH := by
  induction fuel generalizing bytes fields with
  | zero => cases result
  | succ fuel ih =>
    match bytes, result with
    | high :: low :: bytes, result =>
      rw [readFields] at result
      split_ifs at result with last short
      · obtain ⟨rfl,rfl⟩ := of_pair result
        rw [List.flatMap_nil,← last,twoBytes_toNat]
        exact ⟨rfl,fun _ member => absurd member not_mem_nil⟩
      · obtain ⟨⟨others,rest'⟩,read,same⟩ := of_map result
        obtain ⟨rfl,rfl⟩ := Prod.mk.inj same
        obtain ⟨whole,small⟩ := ih read
        have length : (bytes.take (high.toNat*256+low.toNat)).length = high.toNat*256+low.toNat := by
          rw [length_take]
          omega
        have most := high.toNat_lt
        have most' := low.toNat_lt
        refine ⟨?_,forall_mem_cons.mpr ⟨by rw [length]; simp only [NO_LENGTH] at last ⊢; omega,small⟩⟩
        rw [flatMap_cons,fieldBytes,length,twoBytes_toNat,append_assoc,append_assoc,append_assoc,
          ← append_assoc (others.flatMap fieldBytes),← whole,take_append_drop]
        rfl
    | [_], result => cases result
    | [], result => cases result
theorem readFields_fields (small : ∀ field ∈ fields, field.length < NO_LENGTH) (enough : fields.length < fuel) (rest : List UInt8) :
    readFields fuel (fields.flatMap fieldBytes ++ twoBytes NO_LENGTH ++ rest) = some (fields,rest) := by
  induction fields generalizing fuel with
  | nil =>
    obtain ⟨fuel,rfl⟩ := succ_of_lt enough
    show readFields (fuel+1) (UInt8.ofNat (NO_LENGTH/256) :: UInt8.ofNat NO_LENGTH :: rest) = _
    rw [readFields,toNat_twoBytes (by decide),if_pos rfl]
  | cons field fields ih =>
    obtain ⟨fuel,rfl⟩ := succ_of_lt enough
    obtain ⟨short,small⟩ := forall_mem_cons.mp small
    have length := @toNat_twoBytes field.length (by simp only [NO_LENGTH] at short; omega)
    have others := @ih fuel small (lt_of_succ_lt_succ enough)
    rw [flatMap_cons,fieldBytes,append_assoc,append_assoc,append_assoc,← append_assoc (fields.flatMap fieldBytes)]
    show readFields (fuel+1) (UInt8.ofNat (field.length/256) :: UInt8.ofNat field.length :: (field ++ _)) = _
    rw [readFields,length,if_neg (Nat.ne_of_lt short),if_neg (by rw [length_append]; omega),drop_left,take_left,others]
    rfl
theorem fields_length (fields : List (List UInt8)) : fields.length ≤ (fields.flatMap fieldBytes).length := by
  induction fields with
  | nil => exact Nat.zero_le _
  | cons field fields ih =>
    rw [flatMap_cons,length_append,fieldBytes_length,length_cons]
    omega
theorem records_length (records : List Record) : records.length ≤ (records.flatMap Record.bytes).length := by
  induction records with
  | nil => exact Nat.zero_le _
  | cons r records ih => grind [twoBytes_length,Record.bytes]
theorem readRecords_bytes (result : readRecords size fuel bytes = some records) :
    bytes = records.flatMap Record.bytes ∧ ∀ r ∈ records, r.Readable size := by
  induction fuel generalizing bytes records with
  | zero => cases result
  | succ fuel ih =>
    rw [readRecords] at result
    split_ifs at result with none' short
    · grind
    · obtain ⟨⟨fields,rest⟩,read,result⟩ := of_bind result
      obtain ⟨others,read',same⟩ := of_bind result
      obtain rfl := some.inj same
      obtain ⟨whole,small⟩ := readFields_bytes read
      obtain ⟨whole',readable⟩ := ih read'
      refine ⟨?_,forall_mem_cons.mpr ⟨⟨by rw [length_take]; omega,small⟩,readable⟩⟩
      rw [flatMap_cons,Record.bytes,← whole',append_assoc,append_assoc,← append_assoc (fields.flatMap fieldBytes),← whole,
        take_append_drop]
theorem readRecords_records (readable : ∀ r ∈ records, r.Readable size) (enough : records.length < fuel) :
    readRecords size fuel (records.flatMap Record.bytes) = some records := by
  induction records generalizing fuel with
  | nil =>
    obtain ⟨fuel,rfl⟩ := succ_of_lt enough
    rw [readRecords]
    exact if_pos rfl
  | cons r records ih =>
    obtain ⟨fuel,rfl⟩ := succ_of_lt enough
    obtain ⟨⟨rfl,small⟩,readable⟩ := forall_mem_cons.mp readable
    have others := @ih fuel readable (lt_of_succ_lt_succ enough)
    have whole : (r :: records).flatMap Record.bytes = r.header ++ (r.fields.flatMap fieldBytes ++ twoBytes NO_LENGTH ++ records.flatMap Record.bytes) := by
      simp [Record.bytes]
    have long : r.fields.length < (r.header ++ (r.fields.flatMap fieldBytes ++ twoBytes NO_LENGTH ++ records.flatMap Record.bytes)).length := by
      have fields := fields_length r.fields
      simp only [length_append,twoBytes_length]
      omega
    have fields := readFields_fields small long (records.flatMap Record.bytes)
    rw [whole,readRecords,if_neg (List.ne_nil_of_length_pos (zero_lt_of_lt long)),if_neg (by rw [length_append]; omega),drop_left,fields,take_left]
    show (readRecords r.header.length fuel (records.flatMap Record.bytes)).bind _ = _
    rw [others]
    rfl
/-- The reader accepts the bytes of readable records, and nothing else. -/
theorem readAll_iff : readAll size bytes = some records ↔ bytes = records.flatMap Record.bytes ∧ ∀ r ∈ records, r.Readable size := by
  refine ⟨readRecords_bytes,?_⟩
  rintro ⟨rfl,readable⟩
  exact readRecords_records readable (lt_succ_of_le (records_length records))

end

end TestEnvironment.Lib
