import BitsAndBytes.ByteMemory
import BitsAndBytes.CString
import BitsAndBytes.OperationRuns
import BitsAndBytes.SignedInt
import Mathlib.Data.Finset.Card

/-! # The mapped file of `databaseOperationWithMMAP.c` -/

namespace BitsAndBytes.MappedDatabase

open ByteMemory CString OperationRuns SignedInt Option Function List Finset

def maxRecords : Nat := 100

def nameSize : Nat := 50

def recordSize : Nat := 56

def databaseSize : Nat := 4 + maxRecords * recordSize

structure Database where
  size : Nat
  bytes : Nat → UInt8

def mapFile (file : List UInt8) : Database :=
  if file.length = 0 then ⟨databaseSize, fun _ => 0⟩
  else ⟨file.length, fun index => file.getD index 0⟩

namespace Database

def loadInt (db : Database) (address : Nat) : Option Nat :=
  if address + 4 ≤ db.size then some (load db.bytes 4 address) else none

def storeInt (db : Database) (address bits : Nat) : Option Database :=
  if address + 4 ≤ db.size then some { db with bytes := store db.bytes 4 address bits } else none

def storeName (db : Database) (address : Nat) (source : CText) : Option Database :=
  if address + nameSize ≤ db.size then
    let copied := strncpy db.bytes address source.bytes (nameSize - 1)
    some { db with bytes := update copied (address + nameSize - 1) 0 }
  else
    none

end Database

def recordAddress (index : Int) : Option Nat :=
  if 0 ≤ index ∧ index < maxRecords then some (4 + recordSize * index.toNat) else none

/-- `record_count`, of which `loadInt` gives the bits. -/
def loadCount (db : Database) : Option Int :=
  (db.loadInt 0).map fun (bits : Nat) => wrapped bits

def insertRecord (db : Database) (id : UInt32) (name : CText) : Option (Database × Int) := do
  let recordCount ← loadCount db
  if recordCount ≥ maxRecords then
    some (db, 0)
  else
    let record ← recordAddress recordCount
    let db ← db.storeInt record id.toNat
    let db ← db.storeName (record + 4) name
    let db ← db.storeInt 0 (recordCount + 1).toNat
    some (db, 1)

def findLoop (db : Database) (id : UInt32) : Nat → Nat → Option (Option Nat)
  | 0, _ => some none
  | remaining + 1, i => do
    let record ← recordAddress i
    let recordId ← db.loadInt record
    if recordId = id.toNat then some (some i) else findLoop db id remaining (i + 1)

def findRecord (db : Database) (id : UInt32) : Option (Option Nat) := do
  let recordCount ← loadCount db
  findLoop db id recordCount.toNat 0

inductive Call
  | insert (id : UInt32) (name : CText)
  | find (id : UInt32)

inductive Answer
  | inserted (flag : Int)
  | found (record : Option Nat)

def step (db : Database) : Call → Option (Database × Answer)
  | .insert id name => (insertRecord db id name).map fun result => (result.1, .inserted result.2)
  | .find id => (findRecord db id).map fun record => (db, .found record)

variable {db next : Database} {id : UInt32} {name : CText} {recordCount : Int}

theorem header_of_loadCount (counted : loadCount db = some recordCount) : 4 ≤ db.size := by
  obtain ⟨bits, loaded, -⟩ := map_eq_some_iff.mp counted
  exact (ite_none_right_eq_some.mp loaded).1

variable {address remaining i : Nat}

theorem loadCount_store {size : Nat} (header : 4 ≤ size) (bytes : Nat → UInt8)
    (low : 0 ≤ recordCount) (high : recordCount ≤ maxRecords) :
    loadCount ⟨size, store bytes 4 0 recordCount.toNat⟩ = some recordCount := by
  have bits : load (store bytes 4 0 recordCount.toNat) 4 0 = recordCount.toNat := by
    rw [load_store_self, Nat.mod_eq_of_lt]
    simp only [maxRecords] at high
    omega
  rw [loadCount, Database.loadInt, if_pos header, map_some, bits,
    Int.toNat_of_nonneg low, wrapped_eq_self]
  · exact Int.le_trans (by decide) low
  · exact Int.le_trans high (by decide)

theorem exists_storeInt (inside : address + 4 ≤ db.size) (bits : Nat) :
    ∃ bytes, db.storeInt address bits = some ⟨db.size, bytes⟩ := ⟨_, if_pos inside⟩

theorem exists_storeName (inside : address + nameSize ≤ db.size) (name : CText) :
    ∃ bytes, db.storeName address name = some ⟨db.size, bytes⟩ :=
  ⟨_, if_pos inside⟩

theorem exists_insertRecord (counted : loadCount db = some recordCount) (low : 0 ≤ recordCount)
    (high : recordCount < maxRecords) (room : 4 + recordSize * recordCount.toNat + 54 ≤ db.size)
    (id : UInt32) (name : CText) :
    ∃ next, insertRecord db id name = some (next, 1) ∧ next.size = db.size ∧
      loadCount next = some (recordCount + 1) := by
  have header := header_of_loadCount counted
  have address : recordAddress recordCount = some (4 + recordSize * recordCount.toNat) :=
    if_pos ⟨low, high⟩
  have idFits : 4 + recordSize * recordCount.toNat + 4 ≤ db.size := by omega
  have nameFits : 4 + recordSize * recordCount.toNat + 4 + nameSize ≤ db.size := by
    rw [nameSize]
    omega
  obtain ⟨withId, idStored⟩ := exists_storeInt idFits id.toNat
  obtain ⟨withName, nameStored⟩ := @exists_storeName ⟨db.size, withId⟩ _ nameFits name
  refine ⟨⟨db.size, store withName 4 0 (recordCount + 1).toNat⟩, ?_, rfl, ?_⟩
  · simp only [insertRecord, counted, bind_eq_bind, bind_some, ge_iff_le,
      if_neg (Int.not_le.mpr high), address, idStored, nameStored]
    simp only [Database.storeInt, Nat.zero_add, if_pos header, bind_some]
  · exact loadCount_store header withName (by omega) (by omega)

theorem room_of_insertRecord {flag : Int} (counted : loadCount db = some recordCount)
    (inserted : insertRecord db id name = some (next, flag)) : maxRecords ≤ recordCount ∨
      0 ≤ recordCount ∧ 4 + recordSize * recordCount.toNat + 54 ≤ db.size := by
  simp only [insertRecord, counted, bind_eq_bind, bind_some] at inserted
  split at inserted
  · rename_i full
    exact .inl full
  · obtain ⟨record, addressEq, inserted⟩ := bind_eq_some_iff.mp inserted
    obtain ⟨withId, idStored, inserted⟩ := bind_eq_some_iff.mp inserted
    obtain ⟨withName, nameStored, -⟩ := bind_eq_some_iff.mp inserted
    obtain ⟨⟨low, -⟩, ⟨⟩⟩ := ite_none_right_eq_some.mp addressEq
    obtain ⟨-, ⟨⟩⟩ := ite_none_right_eq_some.mp idStored
    obtain ⟨nameFits, -⟩ := ite_none_right_eq_some.mp nameStored
    exact .inr ⟨low, by rwa [nameSize] at nameFits⟩

theorem exists_findLoop (records : i + remaining ≤ maxRecords)
    (inside : remaining = 0 ∨ 4 + recordSize * (i + remaining - 1) + 4 ≤ db.size) :
    ∃ record, findLoop db id remaining i = some record := by
  induction remaining generalizing i with
  | zero => exact ⟨none, rfl⟩
  | succ remaining ih =>
    have address : recordAddress i = some (4 + recordSize * i) := if_pos (by omega)
    have idFits : 4 + recordSize * i + 4 ≤ db.size := by
      simp only [recordSize] at inside ⊢
      omega
    simp only [findLoop, address, Database.loadInt, if_pos idFits, bind_eq_bind, bind_some]
    split
    · exact ⟨_, rfl⟩
    · refine ih (by omega) ?_
      simp only [recordSize] at inside ⊢
      omega

theorem inside_of_findLoop {record : Option Nat}
    (absent : ∀ index < maxRecords, load db.bytes 4 (4 + recordSize * index) ≠ id.toNat)
    (found : findLoop db id remaining i = some record) {index : Nat} (first : i ≤ index)
    (last : index < i + remaining) : index < maxRecords ∧ 4 + recordSize * index + 4 ≤ db.size := by
  induction remaining generalizing i with
  | zero => omega
  | succ remaining ih =>
    obtain ⟨address, addressEq, found⟩ := bind_eq_some_iff.mp found
    obtain ⟨recordId, loaded, found⟩ := bind_eq_some_iff.mp found
    obtain ⟨valid, ⟨⟩⟩ := ite_none_right_eq_some.mp addressEq
    obtain ⟨idFits, ⟨⟩⟩ := ite_none_right_eq_some.mp loaded
    rw [Int.toNat_natCast] at idFits found
    have isRecord : i < maxRecords := by omega
    rcases Nat.eq_or_lt_of_le first with rfl | later
    · exact ⟨isRecord, idFits⟩
    · rw [if_neg (absent i isRecord)] at found
      exact ih found later (by omega)

theorem exists_absent (db : Database) : ∃ id : UInt32,
    ∀ index < maxRecords, load db.bytes 4 (4 + recordSize * index) ≠ id.toNat := by
  let ids := (Finset.range maxRecords).image fun index => load db.bytes 4 (4 + recordSize * index)
  have fewer : ids.card < (Finset.range (maxRecords + 1)).card := by
    exact Nat.lt_succ_of_le (card_image_le.trans (card_range _).le)
  obtain ⟨id, idMem, idNotMem⟩ := exists_mem_notMem_of_card_lt_card fewer
  have small : id < maxRecords + 1 := Finset.mem_range.mp idMem
  refine ⟨UInt32.ofNat id, fun index isRecord same => idNotMem ?_⟩
  refine mem_image.mpr ⟨index, Finset.mem_range.mpr isRecord, ?_⟩
  rw [same, UInt32.toNat_ofNat', Nat.mod_eq_of_lt (by rw [maxRecords] at small; omega)]

/-- The count stands in the file, and the file has room for what it allows. -/
def Roomy (db : Database) : Prop :=
  ∃ recordCount, loadCount db = some recordCount ∧
    (0 ≤ recordCount ∧ recordCount < maxRecords ∧ 5602 ≤ db.size ∨
      recordCount = maxRecords ∧ 5552 ≤ db.size)

theorem Roomy.exists_step (roomy : Roomy db) (call : Call) :
    ∃ next answer, step db call = some (next, answer) ∧ Roomy next := by
  obtain ⟨recordCount, counted, room⟩ := roomy
  cases call with
  | insert id name =>
    rcases room with ⟨low, high, fits⟩ | ⟨full, fits⟩
    · have inside : 4 + recordSize * recordCount.toNat + 54 ≤ db.size := by
        simp only [recordSize, maxRecords] at *
        omega
      obtain ⟨next, inserted, sameSize, nextCounted⟩ :=
        exists_insertRecord counted low high inside id name
      refine ⟨next, .inserted 1, by rw [step, inserted]; rfl, _, nextCounted, ?_⟩
      omega
    · refine ⟨db, .inserted 0, ?_, recordCount, counted, .inr ⟨full, fits⟩⟩
      simp [step, insertRecord, counted, full]
  | find id =>
    have inside : recordCount.toNat = 0 ∨
        4 + recordSize * (0 + recordCount.toNat - 1) + 4 ≤ db.size := by
      simp only [recordSize, maxRecords] at *
      omega
    obtain ⟨record, found⟩ := @exists_findLoop db id _ 0 (by omega) inside
    refine ⟨db, .found record, ?_, recordCount, counted, room⟩
    simp [step, findRecord, counted, found]

/-- A file on which all calls return. -/
def Safe (db : Database) : Prop := ∀ calls, ∃ finish, Reaches step db calls finish

theorem Safe.exists_step (safe : Safe db) (call : Call) :
    ∃ next answer, step db call = some (next, answer) ∧ Safe next := by
  obtain ⟨_, reached⟩ := safe [call]
  obtain ⟨next, answer, stepEq, -⟩ := reaches_cons.mp reached
  refine ⟨next, answer, stepEq, fun calls => ?_⟩
  obtain ⟨finish, reached⟩ := safe (call :: calls)
  obtain ⟨other, _, otherEq, rest⟩ := reaches_cons.mp reached
  cases stepEq.symm.trans otherEq
  exact ⟨finish, rest⟩

theorem Safe.exists_insertRecord (safe : Safe db) :
    ∃ next flag, insertRecord db 0 ⟨[], not_mem_nil⟩ = some (next, flag) ∧ Safe next := by
  obtain ⟨next, answer, stepEq, nextSafe⟩ := safe.exists_step (.insert 0 ⟨[], not_mem_nil⟩)
  obtain ⟨⟨_, flag⟩, inserted, resultEq⟩ := map_eq_some_iff.mp stepEq
  cases resultEq
  exact ⟨_, flag, inserted, nextSafe⟩

theorem Safe.room (safe : Safe db) (counted : loadCount db = some recordCount)
    (high : recordCount < maxRecords) :
    0 ≤ recordCount ∧ 4 + recordSize * recordCount.toNat + 54 ≤ db.size := by
  obtain ⟨next, flag, inserted, -⟩ := safe.exists_insertRecord
  rcases room_of_insertRecord counted inserted with full | room
  · omega
  · exact room

theorem Safe.size_ge (safe : Safe db) (counted : loadCount db = some recordCount) {left : Nat}
    (free : recordCount + left + 1 = maxRecords) : 5602 ≤ db.size := by
  obtain ⟨low, room⟩ := safe.room counted (by omega)
  induction left generalizing db recordCount with
  | zero =>
    simp only [recordSize, maxRecords] at *
    omega
  | succ left ih =>
    obtain ⟨next, inserted, sameSize, nextCounted⟩ :=
      MappedDatabase.exists_insertRecord counted low (by omega) room 0 ⟨[], not_mem_nil⟩
    obtain ⟨other, flag, otherInserted, otherSafe⟩ := safe.exists_insertRecord
    cases inserted.symm.trans otherInserted
    obtain ⟨nextLow, nextRoom⟩ := otherSafe.room nextCounted (by omega)
    rw [← sameSize]
    exact ih otherSafe nextCounted (by omega) nextLow nextRoom

theorem Safe.roomy (safe : Safe db) : Roomy db := by
  obtain ⟨next, flag, inserted, -⟩ := safe.exists_insertRecord
  obtain ⟨recordCount, counted, -⟩ := bind_eq_some_iff.mp inserted
  refine ⟨recordCount, counted, ?_⟩
  by_cases high : recordCount < maxRecords
  · have low := (safe.room counted high).1
    have free : recordCount + (maxRecords - 1 - recordCount.toNat : Nat) + 1 = maxRecords := by
      omega
    exact .inl ⟨low, high, safe.size_ge counted free⟩
  · obtain ⟨id, absent⟩ := exists_absent db
    obtain ⟨_, _, stepEq, -⟩ := safe.exists_step (.find id)
    obtain ⟨record, found, -⟩ := map_eq_some_iff.mp stepEq
    simp only [findRecord, counted, bind_eq_bind, bind_some] at found
    have last := @inside_of_findLoop _ _ _ _ _ absent found 99 (Nat.zero_le _)
    have beyond := @inside_of_findLoop _ _ _ _ _ absent found 100 (Nat.zero_le _)
    simp only [recordSize, maxRecords] at *
    omega

/-- All calls stay inside exactly if the file's count and its length allow it. -/
theorem calls_stay_inside_iff (file : List UInt8) :
    (∀ calls, ∃ finish, Reaches step (mapFile file) calls finish) ↔ Roomy (mapFile file) := by
  refine ⟨Safe.roomy, fun roomy calls => ?_⟩
  have unguarded : Respects step (fun _ _ => True) (mapFile file) calls :=
    respects_of_forall (fun _ _ => trivial) _ _
  obtain ⟨finish, reached, -⟩ := unguarded.exists_reaches Roomy
    (fun roomy _ => roomy.exists_step _) roomy
  exact ⟨finish, reached⟩

theorem short_file_is_written_past_its_end :
    step (mapFile [0, 0, 0, 0]) (.insert 1 ⟨[65], by decide⟩) = none := rfl

section

abbrev Entry := UInt32 × CText

variable {records : List Entry} {record : Entry} {index count : Nat}

def listStep (records : List Entry) : Call → Option (List Entry × Answer)
  | .insert id name =>
    if records.length < maxRecords then some (records ++ [(id, name)], .inserted 1)
    else some (records, .inserted 0)
  | .find id => some (records, .found (records.findIdx? (·.1 = id)))

structure HoldsRecord (db : Database) (index : Nat) (record : Entry) : Prop where
  id : load db.bytes 4 (4 + recordSize * index) = record.1.toNat
  name : ∀ k < nameSize,
    db.bytes (4 + recordSize * index + 4 + k) = (record.2.bytes.take (nameSize - 1)).getD k 0

/-- The file holds the records in this order. -/
structure HoldsRecords (db : Database) (records : List Entry) : Prop where
  size : db.size = databaseSize
  count : loadCount db = some (records.length : Int)
  bound : records.length ≤ maxRecords
  records : ∀ index record, records[index]? = some record → HoldsRecord db index record

def written (bytes : Nat → UInt8) (count : Nat) (id : UInt32) (name : CText) : Nat → UInt8 :=
  let record := 4 + recordSize * count
  let copied := strncpy (store bytes 4 record id.toNat) (record + 4) name.bytes (nameSize - 1)
  store (update copied (record + 4 + nameSize - 1) 0) 4 0 (count + 1)

theorem HoldsRecords.fits (holds : HoldsRecords db records) (last : i < maxRecords) :
    recordAddress i = some (4 + recordSize * i) ∧ 4 + recordSize * i + 54 ≤ db.size := by
  refine ⟨if_pos (by omega), ?_⟩
  rw [holds.size]
  simp only [databaseSize, maxRecords, recordSize] at *
  omega

theorem insertRecord_eq (holds : HoldsRecords db records) (room : records.length < maxRecords) :
    insertRecord db id name = some (⟨db.size, written db.bytes records.length id name⟩, 1) := by
  obtain ⟨address, fits⟩ := holds.fits room
  have idFits : 4 + recordSize * records.length + 4 ≤ db.size := by omega
  have nameFits : 4 + recordSize * records.length + 4 + nameSize ≤ db.size := fits
  have header : 0 + 4 ≤ db.size := by omega
  simp only [insertRecord, holds.count, bind_eq_bind, bind_some, address, Database.storeInt,
    Database.storeName, if_pos idFits, if_pos nameFits, if_pos header, ge_iff_le,
    Int.ofNat_le, if_neg (Nat.not_le.mpr room)]
  rfl

theorem written_eq (header : 4 ≤ i) (bytes : Nat → UInt8) : written bytes count id name i =
    if 4 + recordSize * count + 4 ≤ i ∧ i < 4 + recordSize * count + 4 + nameSize then
      (name.bytes.take (nameSize - 1)).getD (i - (4 + recordSize * count + 4)) 0
    else store bytes 4 (4 + recordSize * count) id.toNat i := by
  rw [written, store_of_outside (.inr (by omega)), update_apply, strncpy]
  simp only [nameSize, getD_eq_getElem?_getD, getElem?_take]
  split_ifs <;> first | rfl | omega

theorem holdsRecord_written (bytes : Nat → UInt8) (size count : Nat) :
    HoldsRecord ⟨size, written bytes count id name⟩ count (id, name) := by
  refine ⟨?_, fun k inside => ?_⟩
  · have stored := @load_store_self bytes 4 (4 + recordSize * count) id.toNat
    refine (load_congr fun i lower upper => ?_).trans (stored.trans (Nat.mod_eq_of_lt id.toNat_lt))
    exact (written_eq (by omega) bytes).trans (if_neg (by omega))
  · refine (written_eq (by omega) bytes).trans ?_
    rw [if_pos (by omega), Nat.add_sub_cancel_left]

theorem HoldsRecord.kept (holds : HoldsRecord db index record) (before : index < count) :
    HoldsRecord ⟨db.size, written db.bytes count id name⟩ index record := by
  have other : ∀ i, 4 + recordSize * index ≤ i → i < 4 + recordSize * index + 54 →
      written db.bytes count id name i = db.bytes i := by
    intro i lower upper
    simp only [recordSize] at *
    rw [written_eq (by omega), recordSize, if_neg (by omega), store_of_outside (by omega)]
  refine ⟨?_, fun k inside => ?_⟩
  · rw [← holds.id]
    exact load_congr fun i lower upper => other i lower (by omega)
  · rw [← holds.name k inside]
    exact other _ (by omega) (by rw [nameSize] at inside; omega)

theorem HoldsRecords.append (holds : HoldsRecords db records) (room : records.length < maxRecords) :
    HoldsRecords ⟨db.size, written db.bytes records.length id name⟩
      (records ++ [(id, name)]) where
  size := holds.size
  count := by
    rw [length_append, written, ← Int.toNat_natCast (records.length + 1)]
    exact loadCount_store (by rw [holds.size]; decide) _ (by omega) (by exact_mod_cast room)
  bound := by rwa [length_append]
  records index record found := by
    obtain before | after := Nat.lt_or_ge index records.length
    · rw [getElem?_append_left before] at found
      exact (holds.records index record found).kept before
    · rw [getElem?_append_right after, getElem?_singleton] at found
      obtain ⟨same, ⟨⟩⟩ := ite_none_right_eq_some.mp found
      obtain rfl : index = records.length := by omega
      exact holdsRecord_written db.bytes db.size records.length

theorem findLoop_eq (holds : HoldsRecords db records) (rest : List Entry)
    (suffix : records.drop i = rest) :
    findLoop db id rest.length i = some ((rest.findIdx? (·.1 = id)).map (· + i)) := by
  induction rest generalizing i with
  | nil => rfl
  | cons record rest ih =>
    have here : records[i]? = some record := by rw [← head?_drop, suffix, head?_cons]
    have next : records.drop (i + 1) = rest := by rw [← tail_drop, suffix, tail_cons]
    have last : i < records.length := (List.getElem?_eq_some_iff.mp here).1
    obtain ⟨address, fits⟩ := holds.fits (last.trans_le holds.bound)
    have loaded : db.loadInt (4 + recordSize * i) = some record.1.toNat := by
      rw [Database.loadInt, if_pos (by omega), (holds.records i record here).id]
    simp only [length_cons, findLoop, address, bind_eq_bind, bind_some, loaded,
      findIdx?_cons, UInt32.toNat_inj, ih next]
    by_cases same : record.1 = id
    · simp [same]
    · simp [same, comp_def, Nat.add_assoc, Nat.add_comm 1]

/-- A new file answers all calls as a list of up to 100 records, and holds their names, cut to
49 bytes. -/
theorem new_file_answers_as_list (calls : List Call) :
    ∃ db records answers, run step (mapFile []) calls = some (db, answers) ∧
      run listStep [] calls = some (records, answers) ∧ HoldsRecords db records := by
  have unguarded : Respects step (fun _ _ => True) (mapFile []) calls :=
    respects_of_forall (fun _ _ => trivial) _ _
  refine run_refines HoldsRecords (fun {db records call} holds _ => ?_) unguarded
    ⟨rfl, by decide, Nat.zero_le _, nofun⟩
  cases call with
  | insert id name =>
    by_cases room : records.length < maxRecords
    · refine ⟨_, _, .inserted 1, ?_, if_pos room, holds.append room⟩
      rw [step, insertRecord_eq holds room, map_some]
    · refine ⟨db, records, .inserted 0, ?_, if_neg room, holds⟩
      simp [step, insertRecord, holds.count, Nat.not_lt.mp room]
  | find id =>
    have found := @findLoop_eq db id 0 records holds records rfl
    refine ⟨db, records, _, ?_, rfl, holds⟩
    simp [step, findRecord, holds.count, found]

end

end BitsAndBytes.MappedDatabase
